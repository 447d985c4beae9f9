import IrAsm.Proofs.Progress

/-!
# The grammar of types

Types are read with a stack of open frames. Here the stack is taken away: reading with frames open
at the bottom of the stack is reading without them, and then going on in them (`readWith_append`).
What is left are four parsers that call each other as the grammar has it: a type (`read_eq`), what
may follow it (`readSuffix_eq`), an array behind its bracket (`readArray_eq`) and parameters behind
theirs (`readParams_eq`).
-/

namespace IrAsm

namespace Parser

variable {α : Type}

theorem expect_bind (kind : Kind) (k : String → Parser α) (s : TokenStream) :
    (expect kind >>= k) s =
      if s.next.lexeme.kind = kind then k s.next.lexeme.text s.tail
      else .error ⟨s.next.line, .expected kind s.next.lexeme⟩ := by
  change (if s.next.lexeme.kind = kind then _ else _ : Parser String) s >>= _ = _
  split
  · rfl
  · rfl

theorem expectPunct_bind (p : Punct) (k : Unit → Parser α) (s : TokenStream) :
    (expectPunct p >>= k) s =
      if s.next.lexeme = .punct p then k () s.tail
      else .error ⟨s.next.line, .expected (.punct p) s.next.lexeme⟩ := by
  have hkind : s.next.lexeme.kind = .punct p ↔ s.next.lexeme = .punct p := by
    cases s.next.lexeme <;> simp [Lexeme.kind]
  rw [expectPunct, bind_assoc, expect_bind]
  simp only [hkind, pure_bind]

theorem eat_bind (p : Punct) (k : Bool → Parser α) (s : TokenStream) :
    (eat p >>= k) s = if s.next.lexeme = .punct p then k true s.tail else k false s := by
  change (if s.next.lexeme = .punct p then _ else _ : Parser Bool) s >>= _ = _
  split
  · rfl
  · rfl

end Parser

namespace Ty

open IrAsm.Parser

variable {want : Want} {stack outer : List Frame} {l : Lexeme} {s : TokenStream} {t ret : Ty}
  {before : List Ty}

/-- Reads on with `stack` open. -/
def readWith (want : Want) (stack : List Frame) : Parser Ty := fun s =>
  (readFrom s.endLine want stack s.tokens).map fun (t, rest) => (t, { s with tokens := rest })

/-- Nothing can be read at the end of the text. -/
theorem shift_eof (want : Want) (stack : List Frame) :
    shift stack .eof want = .error (want.fault stack .eof) := by
  cases want with
  | suffix t => cases stack with
    | nil => rfl
    | cons frame stack => cases frame <;> rfl
  | _ => rfl

theorem complete?_eq_some_iff : want.complete? stack l = some t ↔
    want = .suffix t ∧ stack = [] ∧ l ≠ .punct .star ∧ l ≠ .punct .leftParen := by
  cases want <;> simp [Want.complete?, and_comm, and_left_comm]

theorem readWith_of_complete (h : want.complete? stack s.next.lexeme = some t) :
    readWith want stack s = .ok (t, s) := by
  obtain ⟨tokens, endLine⟩ := s
  cases tokens with
  | nil =>
    have heof : want.complete? stack .eof = some t := h
    rw [readWith, readFrom, heof]
    rfl
  | cons token tokens =>
    have htoken : want.complete? stack token.lexeme = some t := h
    rw [readWith, readFrom, htoken]
    rfl

theorem readWith_of_shift (h : want.complete? stack s.next.lexeme = none) :
    readWith want stack s =
      match shift stack s.next.lexeme want with
      | .ok (want', stack') => readWith want' stack' s.tail
      | .error fault => .error ⟨s.next.line, fault⟩ := by
  obtain ⟨tokens, endLine⟩ := s
  cases tokens with
  | nil =>
    have hnext : (⟨[], endLine⟩ : TokenStream).next = ⟨.eof, endLine⟩ := rfl
    rw [hnext] at h ⊢
    rw [readWith, readFrom, h, shift_eof]
    rfl
  | cons token tokens =>
    have hnext : (⟨token :: tokens, endLine⟩ : TokenStream).next = token := rfl
    rw [hnext] at h ⊢
    rw [readWith, readFrom, h]
    cases shift stack token.lexeme want with
    | error fault => rfl
    | ok r => rfl

/-- The type is complete, or the token is passed, or nothing can be done with it. -/
theorem readWith_cases (want : Want) (stack : List Frame) (s : TokenStream) :
    (∃ t, want.complete? stack s.next.lexeme = some t) ∨
    want.complete? stack s.next.lexeme = none ∧
      ((∃ fault, shift stack s.next.lexeme want = .error fault) ∨
      (∃ want' stack', shift stack s.next.lexeme want = .ok (want', stack') ∧
        s.tail.size < s.size)) := by
  cases hdone : want.complete? stack s.next.lexeme with
  | some t => exact .inl ⟨t, rfl⟩
  | none =>
    refine .inr ⟨rfl, ?_⟩
    cases hshift : shift stack s.next.lexeme want with
    | error fault => exact .inl ⟨fault, rfl⟩
    | ok r =>
      have hne : s.next.lexeme ≠ .eof := by
        intro heof
        rw [heof, shift_eof] at hshift
        cases hshift
      exact .inr ⟨r.1, r.2, rfl, TokenStream.size_tail_lt hne⟩

/-! ## Frames at the bottom of the stack -/

theorem complete?_append (h : want.complete? stack l = none) :
    want.complete? (stack ++ outer) l = none := by
  rw [Option.eq_none_iff_forall_ne_some] at h ⊢
  intro t ht
  obtain ⟨hwant, hstack, hl⟩ := complete?_eq_some_iff.mp ht
  exact h t (complete?_eq_some_iff.mpr ⟨hwant, (List.append_eq_nil_iff.mp hstack).1, hl⟩)

theorem first_append (stack outer : List Frame) (l : Lexeme) :
    first (stack ++ outer) l = (first stack l).map fun r => (r.1, r.2 ++ outer) := by
  unfold first
  split
  · rfl
  · split
    · rfl
    · rfl
  · rfl

/-- Frames at the bottom of the stack stay there, as long as the type above them is not complete. -/
theorem shift_append (h : want.complete? stack l = none) :
    shift (stack ++ outer) l want = (shift stack l want).map fun r => (r.1, r.2 ++ outer) := by
  cases want with
  | type => exact first_append stack outer l
  | length =>
    simp only [shift]
    split
    · split
      · rfl
      · rfl
    · rfl
  | times n =>
    simp only [shift]
    split
    · rfl
    · rfl
  | param ret before =>
    simp only [shift]
    split
    · rfl
    split
    · rfl
    · exact first_append (.params ret before :: stack) outer l
  | separator ret before =>
    simp only [shift]
    split
    · rfl
    · rfl
    · rfl
  | suffix t =>
    cases stack with
    | nil =>
      have hl : l = .punct .star ∨ l = .punct .leftParen := by
        by_contra hne
        rw [complete?_eq_some_iff.mpr ⟨rfl, rfl, not_or.mp hne⟩] at h
        cases h
      obtain rfl | rfl := hl
      · rfl
      · rfl
    | cons frame stack =>
      cases frame <;> cases l with
      | punct p => cases p <;> rfl
      | _ => rfl

theorem readWith_append (want : Want) (stack outer : List Frame) :
    readWith want (stack ++ outer) =
      readWith want stack >>= fun t => readWith (.suffix t) outer := by
  funext s
  induction hn : s.size using Nat.strongRecOn generalizing want stack s with
  | ind n ih =>
    subst hn
    change _ = readWith want stack s >>= _
    obtain ⟨t, hdone⟩ | ⟨hdone, ⟨fault, hshift⟩ | ⟨want', stack', hshift, hsize⟩⟩ :=
      readWith_cases want stack s
    · obtain ⟨rfl, rfl, -⟩ := complete?_eq_some_iff.mp hdone
      rw [readWith_of_complete hdone, List.nil_append]
      rfl
    · rw [readWith_of_shift hdone, readWith_of_shift (complete?_append hdone),
        shift_append hdone, hshift]
      rfl
    · rw [readWith_of_shift hdone, readWith_of_shift (complete?_append hdone),
        shift_append hdone, hshift]
      exact ih s.tail.size hsize want' stack' s.tail rfl

/-! ## Behind a complete type -/

/-- A type was read to its end. -/
theorem next_of_readWith (want : Want) (stack : List Frame) {s s' : TokenStream}
    (h : readWith want stack s = .ok (t, s')) :
    s'.next.lexeme ≠ .punct .star ∧ s'.next.lexeme ≠ .punct .leftParen := by
  induction hn : s.size using Nat.strongRecOn generalizing want stack s with
  | ind n ih =>
    subst hn
    obtain ⟨u, hdone⟩ | ⟨hdone, ⟨fault, hshift⟩ | ⟨want', stack', hshift, hsize⟩⟩ :=
      readWith_cases want stack s
    · rw [readWith_of_complete hdone] at h
      cases h
      exact (complete?_eq_some_iff.mp hdone).2.2
    · rw [readWith_of_shift hdone, hshift] at h
      cases h
    · rw [readWith_of_shift hdone, hshift] at h
      exact ih s.tail.size hsize want' stack' h rfl

/-- It matters only what is done where a type has been read to its end. -/
theorem bind_congr_of_read {α : Type} {f g : Ty → Parser α}
    (h : ∀ t s, s.next.lexeme ≠ .punct .star → s.next.lexeme ≠ .punct .leftParen → f t s = g t s) :
    read >>= f = read >>= g := by
  funext s
  change read s >>= _ = read s >>= _
  cases hread : read s with
  | error e => rfl
  | ok r =>
    obtain ⟨hstar, hparen⟩ := next_of_readWith .type [] hread
    exact h r.1 r.2 hstar hparen

/-! ## The grammar -/

/-- Reads what may follow the type `t`. -/
def readSuffix (t : Ty) : Parser Ty := readWith (.suffix t) []

/-- Reads an array behind its bracket. -/
def readArray : Parser Ty := readWith .length []

/-- Reads further parameters of a function behind `before`. -/
def readParams (ret : Ty) (before : List Ty) : Parser Ty := readWith (.param ret before) []

/-- Reads on behind a parameter. -/
def readSeparator (ret : Ty) (before : List Ty) : Parser Ty := do
  if ← Parser.eat .comma then
    readParams ret before
  else
    Parser.expectPunct .rightParen
    readSuffix (.func ret before)

theorem read_eq : read = (do
    let l ← Parser.peek
    match l with
    | .word w =>
      match ofWord? w with
      | some t =>
        Parser.advance
        readSuffix t
      | none => Parser.fail (.expectedType l)
    | .punct .leftBracket =>
      Parser.advance
      readArray
    | _ => Parser.fail (.expectedType l)) := by
  funext s
  rw [bind_eq rfl, show read = readWith .type [] from rfl, readWith_of_shift rfl, shift]
  cases s.next.lexeme with
  | word w =>
    simp only [first]
    cases ofWord? w with
    | none => rfl
    | some t => rfl
  | punct p => cases p <;> rfl
  | _ => rfl

theorem readSuffix_eq (t : Ty) : readSuffix t = (do
    match ← Parser.peek with
    | .punct .star =>
      Parser.advance
      readSuffix t.ptr
    | .punct .leftParen =>
      Parser.advance
      readParams t []
    | _ => return t) := by
  funext s
  rw [bind_eq rfl]
  have hstop (h : s.next.lexeme ≠ .punct .star ∧ s.next.lexeme ≠ .punct .leftParen) :
      readSuffix t s = .ok (t, s) := readWith_of_complete (complete?_eq_some_iff.mpr ⟨rfl, rfl, h⟩)
  cases hl : s.next.lexeme with
  | punct p =>
    cases p with
    | star =>
      rw [readSuffix, readWith_of_shift (by rw [hl]; rfl), hl]
      rfl
    | leftParen =>
      rw [readSuffix, readWith_of_shift (by rw [hl]; rfl), hl]
      rfl
    | _ => exact hstop (by simp [hl])
  | _ => exact hstop (by simp [hl])

/-- The element type of an array is closed by a bracket. -/
theorem readWith_array (n : UInt64) : readWith .type [.array n] = (do
    let t ← read
    Parser.expectPunct .rightBracket
    readSuffix (.array n t)) := by
  rw [show [Frame.array n] = [] ++ [.array n] from rfl, readWith_append]
  refine bind_congr_of_read fun t s hstar hparen => ?_
  rw [readWith_of_shift rfl, expectPunct_bind]
  cases hl : s.next.lexeme with
  | punct p =>
    cases p with
    | star => exact absurd hl hstar
    | leftParen => exact absurd hl hparen
    | _ => rfl
  | _ => rfl

theorem readWith_times (n : UInt64) : readWith (.times n) [] = (do
    if ← Parser.atWord "x" then
      Parser.advance
      let t ← read
      Parser.expectPunct .rightBracket
      readSuffix (.array n t)
    else
      Parser.fail .expectedTimes) := by
  funext s
  rw [readWith_of_shift rfl, shift, ← readWith_array, bind_eq (a := s.next.lexeme == .word "x") rfl]
  by_cases hx : s.next.lexeme = .word "x"
  · rw [hx]
    rfl
  · rw [if_neg hx, beq_false_of_ne hx]
    rfl

theorem readArray_eq : readArray = (do
    let l ← Parser.peek
    match l with
    | .integer digits =>
      match Decimal.unsigned64 digits.toList with
      | .ok n =>
        Parser.advance
        if ← Parser.atWord "x" then
          Parser.advance
          let t ← read
          Parser.expectPunct .rightBracket
          readSuffix (.array (UInt64.ofNat n) t)
        else
          Parser.fail .expectedTimes
      | .error fault => Parser.fail (.numeral fault)
    | _ => Parser.fail (.expected .integer l)) := by
  funext s
  simp only [← readWith_times]
  rw [bind_eq rfl, readArray, readWith_of_shift rfl]
  cases s.next.lexeme with
  | integer digits =>
    simp only [shift]
    cases Decimal.unsigned64 digits.toList with
    | error fault => rfl
    | ok n => rfl
  | _ => rfl

theorem readWith_separator (ret : Ty) (before : List Ty) :
    readWith (.separator ret before) [] = readSeparator ret before := by
  funext s
  rw [readWith_of_shift rfl, readSeparator, eat_bind]
  simp only [Bool.false_eq_true, if_false, if_true, expectPunct_bind]
  cases s.next.lexeme with
  | punct p => cases p <;> rfl
  | _ => rfl

/-- A parameter goes up to a comma or to the end of the parameters. -/
theorem readWith_params (ret : Ty) (before : List Ty) : readWith .type [.params ret before] = (do
    let t ← read
    readSeparator ret (before ++ [t])) := by
  rw [show [Frame.params ret before] = [] ++ [.params ret before] from rfl, readWith_append]
  refine bind_congr_of_read fun t s hstar hparen => ?_
  rw [readWith_of_shift rfl, readSeparator, eat_bind]
  simp only [Bool.false_eq_true, if_false, if_true, expectPunct_bind]
  cases hl : s.next.lexeme with
  | punct p =>
    cases p with
    | star => exact absurd hl hstar
    | leftParen => exact absurd hl hparen
    | _ => rfl
  | _ => rfl

theorem readParams_eq (ret : Ty) (before : List Ty) : readParams ret before = (do
    if (← Parser.peek) = .punct .rightParen then
      Parser.expectPunct .rightParen
      readSuffix (.func ret before)
    else if ← Parser.atWord "..." then
      Parser.advance
      readSeparator ret before
    else
      let t ← read
      readSeparator ret (before ++ [t])) := by
  funext s
  rw [bind_eq rfl, readParams, readWith_of_shift rfl, shift, ← readWith_params,
    ← readWith_separator]
  by_cases hclose : s.next.lexeme = .punct .rightParen
  · rw [if_pos hclose, if_pos hclose, expectPunct_bind, if_pos hclose]
    rfl
  · rw [if_neg hclose, if_neg hclose, bind_eq (a := s.next.lexeme == .word "...") rfl]
    by_cases hdots : s.next.lexeme = .word "..."
    · rw [hdots]
      rfl
    · rw [if_neg hdots, beq_false_of_ne hdots]
      change _ = readWith .type [.params ret before] s
      rw [readWith_of_shift rfl]
      rfl

end Ty

end IrAsm
