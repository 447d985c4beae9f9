import IrAsm.Proofs.Scan
import IrAsm.Proofs.Success
import IrAsm.Ty.Read

/-!
# Types are read back from their text

The text of a type is cut into the lexemes `t.lexemes`, and reading these gives the type again. A
type grows at its end: a pointer mark or parameters come after what they belong to, and an array is
closed by its bracket. So wherever a type may stand, reading its lexemes leads to the point where it
could go on, with the type complete and the same frames open as before (`readFrom_lexemes`). In
front of anything but a pointer mark or parameters it ends there.

Since a type grows at its end, its first lexeme is settled by the first step of reading (`leadOf`):
no later step changes it, so only a type whose first word is `void` starts with it (`next_of_read`).
-/

namespace IrAsm

namespace Ty

mutual

/-- The lexemes of a type. -/
def lexemes : Ty → List Lexeme
  | .void => [.word "void"]
  | .label => [.word "label"]
  | .int bits => [.word ("i" ++ toString bits.toNat)]
  | .ptr target => target.lexemes ++ [.punct .star]
  | .rawPtr => [.word "ptr"]
  | .array length elem =>
    .punct .leftBracket :: .integer (toString length.toNat) :: .word "x" ::
      (elem.lexemes ++ [.punct .rightBracket])
  | .func ret params =>
    ret.lexemes ++ .punct .leftParen :: (listLexemes params ++ [.punct .rightParen])

/-- The lexemes of parameter types, with commas between them. -/
def listLexemes : List Ty → List Lexeme
  | [] => []
  | [t] => t.lexemes
  | t :: u :: ts => t.lexemes ++ .punct .comma :: listLexemes (u :: ts)

end

/-! ## From text to lexemes -/

open Lexeme

theorem ends_punct (p : Punct) (rest : List Char) : Ends isWordChar (p.toChar :: rest) :=
  ends_cons (by cases p <;> rfl) rest

theorem ends_blank (rest : List Char) : Ends isWordChar (' ' :: rest) := ends_cons rfl rest

theorem scans_int (n : Nat) {rest : List Char} (h : Ends isWordChar rest) :
    Scans (("i" ++ toString n).toList ++ rest) [.word ("i" ++ toString n)] rest := by
  have hword := Scans.word 'i' (toString n).toList rfl
    (fun c hc => isWordChar_of_isDigit (Decimal.isDigit_of_mem_toString hc)) h
  have htext : "i" ++ toString n = String.ofList ('i' :: (toString n).toList) :=
    String.toList_inj.mp (by simp)
  rwa [htext, String.toList_ofList]

/-- The length of an array and the word behind it. -/
theorem scans_length (n : Nat) (rest : List Char) :
    Scans ('[' :: ((toString n).toList ++ ' ' :: 'x' :: ' ' :: rest))
      [.punct .leftBracket, .integer (toString n), .word "x"] rest := by
  have hends : Ends Char.isDigit (' ' :: 'x' :: ' ' :: rest) := ends_cons rfl _
  have hx : Scans ('x' :: ' ' :: rest) [.word "x"] (' ' :: rest) :=
    Scans.word 'x' [] rfl (by simp) (ends_blank rest)
  exact (Scans.punct .leftBracket _).trans ((Scans.digits n hends).trans
    ((Scans.blank _).trans (hx.trans (Scans.blank rest))))

mutual

theorem scans_text : ∀ (t : Ty) {rest : List Char}, Ends isWordChar rest →
    Scans (t.text.toList ++ rest) t.lexemes rest
  | .void, _, h => Scans.word 'v' ['o', 'i', 'd'] rfl (List.all_eq_true.mp rfl) h
  | .label, _, h => Scans.word 'l' ['a', 'b', 'e', 'l'] rfl (List.all_eq_true.mp rfl) h
  | .rawPtr, _, h => Scans.word 'p' ['t', 'r'] rfl (List.all_eq_true.mp rfl) h
  | .int bits, _, h => scans_int bits.toNat h
  | .ptr target, rest, _ => by
    have htarget := scans_text target (ends_punct .star rest)
    rw [text, String.toList_append, List.append_assoc]
    exact htarget.trans (Scans.punct .star rest)
  | .array length elem, rest, _ => by
    have helem := scans_text elem (ends_punct .rightBracket rest)
    simp only [text, String.toList_append, List.append_assoc]
    exact (scans_length length.toNat _).trans (helem.trans (Scans.punct .rightBracket rest))
  | .func ret params, rest, _ => by
    have hparams := scans_listText params (ends_punct .rightParen rest)
    have hret := scans_text ret (ends_blank ('(' :: ((listText params).toList ++ ')' :: rest)))
    simp only [text, String.toList_append, List.append_assoc]
    exact hret.trans ((Scans.blank _).trans ((Scans.punct .leftParen _).trans
      (hparams.trans (Scans.punct .rightParen rest))))

theorem scans_listText : ∀ (ts : List Ty) {rest : List Char}, Ends isWordChar rest →
    Scans ((listText ts).toList ++ rest) (listLexemes ts) rest
  | [], rest, _ => Scans.refl rest
  | [t], _, h => scans_text t h
  | t :: u :: ts, rest, h => by
    have htail := scans_listText (u :: ts) h
    have ht := scans_text t (ends_punct .comma (' ' :: ((listText (u :: ts)).toList ++ rest)))
    simp only [listText, String.toList_append, List.append_assoc]
    exact ht.trans ((Scans.punct .comma _).trans ((Scans.blank _).trans htail))

end

/-! ## From lexemes to types -/

theorem intOfWord?_text (bits : UInt32) :
    intOfWord? ("i" ++ toString bits.toNat) = some (.int bits) := by
  have hlist : ("i" ++ toString bits.toNat).toList = 'i' :: (toString bits.toNat).toList := by simp
  have hle : bits.toNat ≤ 0xffffffff := Nat.le_of_lt_succ bits.toNat_lt
  simp only [intOfWord?, hlist, Decimal.unsigned32, Decimal.unsigned_toString hle]
  simp [Except.toOption]

/-- The word of an integer type is no other word. -/
theorem int_word_ne (n : Nat) {w : String} (h : w.toList.head? ≠ some 'i') :
    "i" ++ toString n ≠ w := by
  rintro rfl
  simp at h

theorem ofWord?_int (bits : UInt32) : ofWord? ("i" ++ toString bits.toNat) = some (.int bits) := by
  unfold ofWord?
  split
  · next h => exact absurd h (int_word_ne _ (by simp))
  · next h => exact absurd h (int_word_ne _ (by simp))
  · next h => exact absurd h (int_word_ne _ (by simp))
  · exact intOfWord?_text bits

/-- The first lexeme of a type. -/
def lead : Ty → Lexeme
  | .void => .word "void"
  | .label => .word "label"
  | .int bits => .word ("i" ++ toString bits.toNat)
  | .ptr t | .func t _ => t.lead
  | .rawPtr => .word "ptr"
  | .array _ _ => .punct .leftBracket

theorem lexemes_eq_cons : ∀ t : Ty, ∃ ls, t.lexemes = t.lead :: ls
  | .void | .label | .rawPtr | .int _ | .array _ _ => ⟨_, rfl⟩
  | .ptr t | .func t _ => by
    obtain ⟨ls, hls⟩ := lexemes_eq_cons t
    exact ⟨_, by rw [lexemes, hls, List.cons_append]; rfl⟩

theorem startsWith_lead : ∀ t : Ty, startsWith t.lead
  | .void | .label | .rawPtr | .array _ _ => rfl
  | .ptr t | .func t _ => startsWith_lead t
  | .int bits => by
    have hlist : ("i" ++ toString bits.toNat).toList = 'i' :: (toString bits.toNat).toList := by
      simp
    obtain ⟨c, cs, hcs⟩ := Decimal.exists_cons_of_toString bits.toNat
    have hdigits : (toString bits.toNat).toList.all Char.isDigit :=
      List.all_eq_true.mpr fun _ => Decimal.isDigit_of_mem_toString
    have hnum : (toString bits.toNat).toList.isEmpty = false := by rw [hcs]; rfl
    simp only [lead, startsWith, hlist, hdigits, hnum, Bool.not_false, Bool.and_self, Bool.or_true]

/-- A type starts with none of the lexemes that start no type. -/
theorem lead_ne (t : Ty) {l : Lexeme} (h : startsWith l = false) : t.lead ≠ l := by
  rintro rfl
  simp [startsWith_lead] at h

section
variable {endLine line : Nat}

/-- Reading goes on behind a lexeme that belongs to the type. -/
theorem readFrom_cons {want want' : Want} {stack stack' : List Frame} {l : Lexeme}
    {rest : List Token} (hcomplete : want.complete? stack l = none)
    (hshift : shift stack l want = .ok (want', stack')) :
    readFrom endLine want stack (⟨l, line⟩ :: rest) = readFrom endLine want' stack' rest := by
  simp only [readFrom, hcomplete, hshift]

/-- A parameter is read like any type, in a frame of its own. -/
theorem readFrom_param (t ret : Ty) (before : List Ty) (stack : List Frame) (rest : List Token) :
    readFrom endLine (.param ret before) stack (onLine line t.lexemes ++ rest) =
      readFrom endLine .type (.params ret before :: stack) (onLine line t.lexemes ++ rest) := by
  obtain ⟨ls, hls⟩ := lexemes_eq_cons t
  have hshift : shift stack t.lead (.param ret before) =
      shift (.params ret before :: stack) t.lead .type := by
    have hparen : t.lead ≠ .punct .rightParen := lead_ne t rfl
    have hdots : t.lead ≠ .word "..." := lead_ne t rfl
    simp only [shift, hparen, hdots, if_false]
  rw [hls, onLine_cons, List.cons_append]
  simp only [readFrom, Want.complete?, hshift]

mutual

/-- Reading the lexemes of a type leads to where it could go on. -/
theorem readFrom_lexemes : ∀ (t : Ty) (stack : List Frame) (rest : List Token),
    readFrom endLine .type stack (onLine line t.lexemes ++ rest) =
      readFrom endLine (.suffix t) stack rest
  | .void, _, _ | .label, _, _ | .rawPtr, _, _ => readFrom_cons rfl rfl
  | .int bits, _, _ => readFrom_cons rfl (by simp only [shift, first, ofWord?_int])
  | .ptr t, stack, rest => by
    rw [lexemes, onLine_append, List.append_assoc, readFrom_lexemes t]
    exact readFrom_cons (by simp [Want.complete?]) rfl
  | .array n t, stack, rest => by
    have hlength : shift stack (.integer (toString n.toNat)) .length = .ok (.times n, stack) := by
      have hle : n.toNat ≤ 0xffffffffffffffff := Nat.le_of_lt_succ n.toNat_lt
      simp only [shift, Decimal.unsigned64, Decimal.unsigned_toString hle, UInt64.ofNat_toNat]
    have hclose : (Want.suffix t).complete? (.array n :: stack) (.punct .rightBracket) = none := rfl
    simp only [lexemes, onLine_cons, onLine_append, List.cons_append, List.append_assoc]
    rw [readFrom_cons rfl rfl, readFrom_cons rfl hlength, readFrom_cons rfl rfl, readFrom_lexemes t]
    exact readFrom_cons hclose rfl
  | .func ret params, stack, rest => by
    simp only [lexemes, onLine_cons, onLine_append, List.cons_append, List.append_assoc]
    rw [readFrom_lexemes ret, readFrom_cons (by simp [Want.complete?]) rfl]
    exact readFrom_listLexemes params ret [] stack rest

/-- Reading parameters and their closing parenthesis completes a function type. -/
theorem readFrom_listLexemes : ∀ (ts : List Ty) (ret : Ty) (before : List Ty) (stack : List Frame)
    (rest : List Token),
    readFrom endLine (.param ret before) stack
        (onLine line (listLexemes ts) ++ ⟨.punct .rightParen, line⟩ :: rest) =
      readFrom endLine (.suffix (.func ret (before ++ ts))) stack rest
  | [], ret, before, stack, rest => by
    rw [List.append_nil]
    exact readFrom_cons rfl rfl
  | [t], ret, before, stack, rest => by
    rw [listLexemes, readFrom_param, readFrom_lexemes t]
    exact readFrom_cons rfl rfl
  | t :: u :: ts, ret, before, stack, rest => by
    have htail := readFrom_listLexemes (u :: ts) ret (before ++ [t]) stack rest
    rw [List.append_assoc] at htail
    rw [listLexemes, onLine_append, List.append_assoc, readFrom_param, readFrom_lexemes t]
    exact (readFrom_cons rfl rfl).trans htail

end

end

/-! ## What a type starts with -/

/-- The first lexeme of the type that a frame belongs to. -/
def Frame.lead : Frame → Lexeme
  | .array _ => .punct .leftBracket
  | .params ret _ => ret.lead

/-- The first lexeme of the type being read, unless nothing of it has been read. -/
def Want.lead? : Want → Option Lexeme
  | .type => none
  | .length | .times _ => some (.punct .leftBracket)
  | .param ret _ | .separator ret _ => some ret.lead
  | .suffix t => some t.lead

/-- The first lexeme of the whole type: the outermost frame says it. -/
def leadOf (want : Want) (stack : List Frame) : Option Lexeme :=
  match stack.getLast? with
  | some frame => some frame.lead
  | none => want.lead?

theorem leadOf_cons (want want' : Want) (frame : Frame) (stack : List Frame)
    (h : want.lead? = some frame.lead) : leadOf want' (frame :: stack) = leadOf want stack := by
  cases stack with
  | nil => exact h.symm
  | cons outer stack => rw [leadOf, leadOf, List.getLast?_cons_cons, List.getLast?_cons]

theorem leadOf_first {stack stack' : List Frame} {l x : Lexeme} {want : Want}
    (hx : leadOf .type stack = some x) (h : first stack l = .ok (want, stack')) :
    leadOf want stack' = some x := by
  have hstack : stack' = stack := by
    unfold first at h
    split at h
    · cases h; rfl
    · split at h
      · cases h; rfl
      · cases h
    · cases h
  subst hstack
  unfold leadOf at hx ⊢
  split at hx
  · exact hx
  · cases hx

/-- A step does not change what the whole type starts with. -/
theorem leadOf_shift {stack stack' : List Frame} {l x : Lexeme} {want want' : Want}
    (hx : leadOf want stack = some x) (h : shift stack l want = .ok (want', stack')) :
    leadOf want' stack' = some x := by
  cases want with
  | type => exact leadOf_first hx h
  | length =>
    simp only [shift] at h
    split at h
    · split at h
      · cases h; exact hx
      · cases h
    · cases h
  | times n =>
    simp only [shift] at h
    split at h
    · cases h
      exact (leadOf_cons (.times n) _ _ _ rfl).trans hx
    · cases h
  | param ret before =>
    simp only [shift] at h
    split at h
    · cases h; exact hx
    split at h
    · cases h; exact hx
    · exact leadOf_first ((leadOf_cons (.param ret before) _ _ _ rfl).trans hx) h
  | separator ret before =>
    simp only [shift] at h
    split at h
    · cases h; exact hx
    · cases h; exact hx
    · cases h
  | suffix t =>
    simp only [shift] at h
    split at h
    · cases h; exact hx
    · cases h; exact hx
    -- a frame is closed: the type that it becomes starts as the frame said
    · next n outer =>
      cases h
      exact (leadOf_cons (.suffix (.array n t)) (.suffix t) (.array n) _ rfl).symm.trans hx
    · next ret before outer =>
      cases h
      exact (leadOf_cons (.param ret (before ++ [t])) (.suffix t) (.params ret before)
        _ rfl).symm.trans hx
    · next ret before outer =>
      cases h
      exact (leadOf_cons (.suffix (.func ret (before ++ [t]))) (.suffix t) (.params ret before)
        _ rfl).symm.trans hx
    · cases h

theorem lead_of_complete {stack : List Frame} {l x : Lexeme} {want : Want} {t : Ty}
    (hx : leadOf want stack = some x) (h : want.complete? stack l = some t) : t.lead = x := by
  unfold Want.complete? at h
  split at h
  · split at h
    · next hempty =>
      obtain rfl := Option.some.inj h
      obtain rfl : stack = [] := by
        simpa using (Bool.and_eq_true_iff.mp (Bool.and_eq_true_iff.mp hempty).1).1
      exact Option.some.inj hx
    · cases h
  · cases h

/-- So it is what the type starts with in the end. -/
theorem lead_of_readFrom {endLine : Nat} {want : Want} {stack : List Frame}
    {tokens rest : List Token} {t : Ty} {x : Lexeme} (hx : leadOf want stack = some x)
    (h : readFrom endLine want stack tokens = .ok (t, rest)) : t.lead = x := by
  fun_induction readFrom endLine want stack tokens with
  | case1 want stack t' hcomplete =>
    cases h
    exact lead_of_complete hx hcomplete
  | case2 => cases h
  | case3 want stack token rest' t' hcomplete =>
    cases h
    exact lead_of_complete hx hcomplete
  | case4 want stack token rest' hcomplete want' stack' hshift ih =>
    exact ih (leadOf_shift hx hshift) h
  | case5 => cases h

theorem word_of_lead_void {w : String} {t : Ty} (h : ofWord? w = some t)
    (ht : t.lead = .word "void") : w = "void" := by
  unfold ofWord? at h
  split at h
  · rfl
  · obtain rfl := Option.some.inj h
    exact absurd (Lexeme.word.inj ht) (by decide)
  · obtain rfl := Option.some.inj h
    exact absurd (Lexeme.word.inj ht) (by decide)
  · unfold intOfWord? at h
    split at h
    · obtain ⟨bits, -, rfl⟩ := Option.map_eq_some_iff.mp h
      exact absurd (Lexeme.word.inj ht) (int_word_ne _ (by simp))
    · cases h

/-- The first step says what the type starts with, and only at the word `void` it is that word. -/
theorem exists_leadOf_first {stack : List Frame} {l : Lexeme} {want : Want}
    (h : first [] l = .ok (want, stack)) :
    ∃ x, leadOf want stack = some x ∧ (x = .word "void" → l = .word "void") := by
  unfold first at h
  split at h
  · cases h
    exact ⟨_, rfl, nofun⟩
  · next w =>
    split at h
    · next t ht =>
      cases h
      exact ⟨_, rfl, fun hlead => by rw [word_of_lead_void ht hlead]⟩
    · cases h
  · cases h

theorem next_of_read {s s' : TokenStream} {t : Ty} (h : Ty.read s = .ok (t, s'))
    (ht : t.lead = .word "void") : s.next.lexeme = .word "void" := by
  obtain ⟨tokens, endLine⟩ := s
  obtain ⟨⟨t', rest⟩, hread, hres⟩ := map_ok_iff.mp h
  cases hres
  cases tokens with
  | nil => cases hread
  | cons token tokens =>
    simp only [readFrom, Want.complete?, shift] at hread
    split at hread
    · next want stack hfirst =>
      obtain ⟨x, hx, hvoid⟩ := exists_leadOf_first hfirst
      exact hvoid (lead_of_readFrom hx hread ▸ ht)
    · cases hread

/-! ## Both together -/

/-- The tokens of the text of a type. -/
theorem scan_text (t : Ty) : TokenStream.scan t.text = .ok ⟨onLine 1 t.lexemes, 1⟩ := by
  have hends : Ends isWordChar [] := fun c hc => by cases hc
  have hscan := scans_text t hends 1
  rw [List.append_nil] at hscan
  rw [TokenStream.scan, hscan, TokenStream.scanFrom]
  simp [Except.map, TokenStream.prepend]

theorem read_lexemes (t : Ty) (line : Nat) (rest : TokenStream)
    (hstar : rest.next.lexeme ≠ .punct .star) (hparen : rest.next.lexeme ≠ .punct .leftParen) :
    read (rest.prepend line t.lexemes) = .ok (t, rest) := by
  obtain ⟨tokens, endLine⟩ := rest
  have hstop : readFrom endLine (.suffix t) [] tokens = .ok (t, tokens) := by
    cases tokens with
    | nil => rfl
    | cons token tokens =>
      have hcomplete : (Want.suffix t).complete? [] token.lexeme = some t := by
        have hstar : token.lexeme ≠ .punct .star := hstar
        have hparen : token.lexeme ≠ .punct .leftParen := hparen
        simp [Want.complete?, hstar, hparen]
      simp only [readFrom, hcomplete]
  simp only [read, TokenStream.prepend, readFrom_lexemes, hstop]
  rfl

/-- The text of a type is read back as that type, whatever comes behind it but a pointer mark or the
parenthesis before parameters; reading stops there. So types with the same text are the same. -/
theorem text_reads_back :
    (∀ t : Ty, ∃ tokens, TokenStream.scan t.text = .ok ⟨tokens, 1⟩ ∧
      ∀ rest : TokenStream, rest.next.lexeme ≠ .punct .star → rest.next.lexeme ≠ .punct .leftParen →
        read { rest with tokens := tokens ++ rest.tokens } = .ok (t, rest)) ∧
    ∀ t u : Ty, t.text = u.text → t = u := by
  refine ⟨fun t => ⟨_, scan_text t, read_lexemes t 1⟩, fun t u h => ?_⟩
  -- both are what is read from the same tokens in front of the end
  have htokens : onLine 1 t.lexemes = onLine 1 u.lexemes := by
    have hscan := scan_text t
    rw [h, scan_text u] at hscan
    simpa using hscan.symm
  have hread (v : Ty) := read_lexemes v 1 ⟨[], 1⟩ (by decide) (by decide)
  have ht := hread t
  rw [TokenStream.prepend, htokens] at ht
  exact (Prod.mk.inj (Except.ok.inj (ht.symm.trans (hread u)))).1

/-- A function that gives a pointer to an array of functions. -/
def nested : Ty := .func (.ptr (.array 4 (.func (.int 64) []))) [.ptr (.int 8), .rawPtr]

theorem text_reads_back_nested : nested.text = "[4 x i64 ()]* (i8*, ptr)" ∧ ∃ tokens,
    TokenStream.scan "[4 x i64 ()]* (i8*, ptr)" = .ok ⟨tokens, 1⟩ ∧
    read ⟨tokens ++ [⟨.globalName "f", 1⟩], 1⟩ = .ok (nested, ⟨[⟨.globalName "f", 1⟩], 1⟩) := by
  have htext : nested.text = "[4 x i64 ()]* (i8*, ptr)" := by decide +kernel
  obtain ⟨tokens, hscan, hread⟩ := text_reads_back.1 nested
  exact ⟨htext, tokens, htext ▸ hscan, hread ⟨[⟨.globalName "f", 1⟩], 1⟩ (by decide) (by decide)⟩

end Ty

end IrAsm
