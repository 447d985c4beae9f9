import IrAsm.Proofs.Cursor
import IrAsm.Proofs.Lines

/-!
# Scanning by byte positions

A second scanner. It keeps the whole text and a position in it, counted in bytes of UTF-8, and goes
on as long as the position is before the end. A position may be inside of a character or behind the
end of the text, where no character can be looked at, and a loop is cut off after a number of turns
that is given from outside. `At text p rest`: the position `p` is between two characters, and `rest`
stands from there on. A step from such a position comes to another one further on, and it finds what
`Lexeme.scan` finds (`finds_step`), if there are turns enough for the characters left.
-/

namespace IrAsm

theorem TokenStream.toList_push (line : Nat) (l : Option Lexeme) (s : TokenStream) :
    (s.push line l).toList = (l.map (Token.mk · line)).toList ++ s.toList := List.append_assoc _ _ _

namespace Bytes

open Lexeme

/-- The number of bytes of a text. -/
def size : List Char → Nat
  | [] => 0
  | c :: cs => c.utf8Size + size cs

/-- The text before and from a position; `none` inside of a character and behind the end. -/
def splitAt? : List Char → Nat → Option (List Char × List Char)
  | cs, 0 => some ([], cs)
  | [], _ + 1 => none
  | c :: cs, p + 1 =>
    if p + 1 < c.utf8Size then none
    else (splitAt? cs (p + 1 - c.utf8Size)).map fun (front, rest) => (c :: front, rest)

/-- The character at a position, if the text does not end there. -/
def charAt (text : List Char) (p : Nat) : Outcome (Option Char) :=
  match splitAt? text p with
  | some (_, rest) => pure rest.head?
  | none => throw .outOfRange

/-- The text between two positions. -/
def slice (text : List Char) (p q : Nat) : Outcome String :=
  match splitAt? text p with
  | some (_, rest) =>
    match splitAt? rest (q - p) with
    | some (front, _) => if p ≤ q then pure (String.ofList front) else throw .outOfRange
    | none => throw .outOfRange
  | none => throw .outOfRange

/-- The first position from `p` on whose character does not satisfy `pred`, found in at most so many
turns. -/
def passWhile (text : List Char) (pred : Char → Bool) : Nat → Nat → Outcome Nat
  | 0, _ => .cut
  | n + 1, p => do
    match ← charAt text p with
    | some c =>
      if pred c then
        passWhile text pred n (p + c.utf8Size)
      else
        return p
    | none => return p

section
variable (turns : Nat) (text : List Char)

/-- The text in quotes at `p`, and the position behind the closing quote. -/
def quoted (p line : Nat) : Outcome (String × Nat) := do
  let stop ← passWhile text (fun c => c != '"' && c != '\n') turns (p + 1)
  if (← charAt text stop) = some '"' then
    return (← slice text (p + 1) stop, stop + 1)
  else
    throw (.fault ⟨line, .unterminatedString⟩)

/-- The name behind the sigil at `p`, and the position behind the name. -/
def name (sigil : Char) (p line : Nat) : Outcome (String × Nat) := do
  if (← charAt text (p + 1)) = some '"' then
    quoted turns text (p + 1) line
  else
    let stop ← passWhile text isNameChar turns (p + 1)
    if stop = p + 1 then
      throw (.fault ⟨line, .missingName sigil⟩)
    else
      return (← slice text (p + 1) stop, stop)

/-- Does an integer start at `p`, where `c` stands? -/
def atInteger (c : Char) (p : Nat) : Outcome Bool := do
  if c.isDigit then
    return true
  else if c = '-' then
    return (← charAt text (p + 1)).any Char.isDigit
  else
    return false

/-- One step: the lexeme at `p`, if there is one, and the position to go on from. -/
def step (p line : Nat) : Outcome (Option Lexeme × Nat) := do
  match ← charAt text p with
  | none => return (none, p)
  | some c =>
    if c == ' ' || c == '\t' || c == '\r' then
      return (none, p + 1)
    else if c == '\n' then
      return (some .newline, p + 1)
    else if c == ';' then
      return (none, ← passWhile text (· != '\n') turns p)
    else if c == '%' then
      let (s, stop) ← name turns text c p line
      return (some (.localName s), stop)
    else if c == '@' then
      let (s, stop) ← name turns text c p line
      return (some (.globalName s), stop)
    else if c == '"' then
      let (s, stop) ← quoted turns text p line
      return (some (.quoted s), stop)
    else if ← atInteger text c p then
      let stop ← passWhile text Char.isDigit turns (p + 1)
      return (some (.integer (← slice text p stop)), stop)
    else if isWordStart c then
      let stop ← passWhile text isWordChar turns (p + 1)
      return (some (.word (← slice text p stop)), stop)
    else
      match Punct.ofChar? c with
      | some mark => return (some (.punct mark), p + 1)
      | none => throw (.fault ⟨line, .invalidCharacter c⟩)

/-- The tokens from `p` on, the end of the text included, found in at most so many steps. -/
def run : Nat → Nat → Nat → Outcome (List Token)
  | 0, _, _ => .cut
  | n + 1, p, line => do
    if p < size text then
      let (l, q) ← step turns text p line
      let others ← run n q (if l = some .newline then line + 1 else line)
      return (l.map (Token.mk · line)).toList ++ others
    else
      return [⟨.eof, line⟩]

end

/-! ## Positions between characters -/

theorem size_cons (c : Char) (cs : List Char) : size (c :: cs) = c.utf8Size + size cs := rfl

theorem size_append (cs ds : List Char) : size (cs ++ ds) = size cs + size ds := by
  induction cs with
  | nil => exact (Nat.zero_add _).symm
  | cons c cs ih => rw [List.cons_append, size_cons, size_cons, ih, Nat.add_assoc]

theorem splitAt?_append (front rest : List Char) :
    splitAt? (front ++ rest) (size front) = some (front, rest) := by
  induction front with
  | nil => cases rest <;> rfl
  | cons c front ih =>
    obtain ⟨n, hn⟩ := Nat.exists_eq_succ_of_ne_zero (Nat.ne_of_gt c.utf8Size_pos)
    have hsize : size (c :: front) = n + size front + 1 := by rw [size_cons, hn, Nat.succ_add]
    rw [hsize, List.cons_append, splitAt?, if_neg (by omega),
      show n + size front + 1 - c.utf8Size = size front by omega, ih]
    rfl

def At (text : List Char) (p : Nat) (rest : List Char) : Prop :=
  ∃ front, text = front ++ rest ∧ p = size front

variable {text mid rest cs : List Char} {c : Char} {turns p q line : Nat}

namespace At

theorem zero (text : List Char) : At text 0 text := ⟨[], rfl, rfl⟩

theorem append (h : At text p (mid ++ rest)) : At text (p + size mid) rest := by
  obtain ⟨front, rfl, rfl⟩ := h
  exact ⟨front ++ mid, by rw [List.append_assoc], (size_append front mid).symm⟩

theorem next (h : At text p (c :: rest)) : At text (p + c.utf8Size) rest := by
  rw [← List.singleton_append] at h
  exact h.append

theorem succ (h : At text p (c :: rest)) (hc : c.utf8Size = 1) : At text (p + 1) rest := hc ▸ h.next

theorem length_le (h : At text p rest) : rest.length ≤ text.length := by
  obtain ⟨front, rfl, rfl⟩ := h
  rw [List.length_append]
  exact Nat.le_add_left _ _

theorem lt_size_iff (h : At text p rest) : p < size text ↔ rest ≠ [] := by
  obtain ⟨front, rfl, rfl⟩ := h
  rw [size_append]
  cases rest with
  | nil => simp [size]
  | cons c rest =>
    rw [size_cons]
    have := c.utf8Size_pos
    exact iff_of_true (by omega) (List.cons_ne_nil c rest)

/-- Of two positions the one with less text behind it is further on. -/
theorem lt {rest' : List Char} (h : At text p rest) (h' : At text q rest')
    (hlen : rest'.length < rest.length) : p < q := by
  obtain ⟨front, rfl, rfl⟩ := h
  obtain ⟨front', heq, rfl⟩ := h'
  obtain ⟨between, rfl, rfl⟩ | ⟨between, rfl, rfl⟩ := List.append_eq_append_iff.mp heq
  · cases between with
    | nil => simp at hlen
    | cons c between =>
      rw [size_append, size_cons]
      have := c.utf8Size_pos
      omega
  · rw [List.length_append] at hlen
    omega

theorem charAt_eq (h : At text p rest) : charAt text p = pure rest.head? := by
  obtain ⟨front, rfl, rfl⟩ := h
  rw [charAt, splitAt?_append]

theorem slice_eq (h : At text p (mid ++ rest)) :
    slice text p (p + size mid) = pure (String.ofList mid) := by
  obtain ⟨front, rfl, rfl⟩ := h
  rw [slice, splitAt?_append]
  simp only [Nat.add_sub_cancel_left, splitAt?_append, Nat.le_add_right, if_true]

theorem passWhile_eq (pred : Char → Bool) (h : At text p rest) (hturns : rest.length < turns) :
    passWhile text pred turns p = pure (p + size (rest.takeWhile pred)) := by
  induction rest generalizing turns p with
  | nil =>
    obtain ⟨n, rfl⟩ := Nat.exists_eq_succ_of_ne_zero (Nat.ne_of_gt hturns)
    rw [passWhile, h.charAt_eq]
    rfl
  | cons c rest ih =>
    obtain ⟨n, rfl⟩ := Nat.exists_eq_succ_of_ne_zero (Nat.ne_of_gt (Nat.zero_lt_of_lt hturns))
    rw [passWhile, h.charAt_eq, pure_bind]
    simp only [List.head?_cons, List.takeWhile_cons]
    split
    · rw [ih h.next (Nat.lt_of_succ_lt_succ hturns), size_cons, Nat.add_assoc]
    · rfl

/-- The text that is passed. -/
theorem slice_takeWhile (pred : Char → Bool) (h : At text p rest) :
    slice text p (p + size (rest.takeWhile pred)) = pure (String.ofList (rest.takeWhile pred)) := by
  rw [← List.takeWhile_append_dropWhile (p := pred) (l := rest)] at h
  exact h.slice_eq

theorem dropWhile (pred : Char → Bool) (h : At text p rest) :
    At text (p + size (rest.takeWhile pred)) (rest.dropWhile pred) := by
  rw [← List.takeWhile_append_dropWhile (p := pred) (l := rest)] at h
  exact h.append

end At

/-! ## Steps -/

/-- What is found ends where `r` says, and so does a fault on this line. -/
def Finds {α : Type} (text : List Char) (line : Nat) (x : Outcome (α × Nat))
    (r : Except ParseFault (α × List Char)) : Prop :=
  match r with
  | .ok (a, rest) => ∃ q, At text q rest ∧ x = pure (a, q)
  | .error fault => x = throw (.fault ⟨line, fault⟩)

theorem Finds.of_ok {α : Type} {a : α} (h : At text q rest) :
    Finds text line (pure (a, q)) (.ok (a, rest)) :=
  ⟨q, h, rfl⟩

theorem Finds.of_error {α : Type} {fault : ParseFault} :
    Finds text line (throw (.fault ⟨line, fault⟩) : Outcome (α × Nat)) (.error fault) := rfl

theorem Finds.found {x : Outcome (String × Nat)} {r : Except ParseFault (String × List Char)}
    (make : String → Lexeme) (h : Finds text line x r) :
    Finds text line (x >>= fun (s, q) => pure (some (make s), q)) (r.map (Lexeme.found make)) := by
  cases r with
  | error fault =>
    rw [show x = throw (.fault ⟨line, fault⟩) from h]
    exact .of_error
  | ok r =>
    obtain ⟨q, hq, rfl⟩ := h
    exact .of_ok hq

theorem finds_quoted (h : At text p ('"' :: cs)) (hturns : cs.length < turns) :
    Finds text line (quoted turns text p line) (scanQuoted cs) := by
  have hstart : At text (p + 1) cs := h.succ rfl
  have hstop := hstart.dropWhile fun c => c != '"' && c != '\n'
  rw [quoted, hstart.passWhile_eq _ hturns, pure_bind, hstop.charAt_eq, pure_bind, scanQuoted]
  split
  · next hquote =>
    obtain ⟨rest, hrest⟩ := List.head?_eq_some_iff.mp hquote
    rw [hrest] at hstop ⊢
    rw [hstart.slice_takeWhile, pure_bind]
    exact .of_ok (hstop.succ rfl)
  · next hopen =>
    split
    · next hrest => exact absurd (congrArg List.head? hrest) hopen
    · exact .of_error

theorem finds_name (h : At text p (c :: cs)) (hc : c.utf8Size = 1) (hturns : cs.length < turns) :
    Finds text line (name turns text c p line) (scanName c cs) := by
  have hstart : At text (p + 1) cs := h.succ hc
  rw [name, hstart.charAt_eq, pure_bind]
  by_cases hquote : cs.head? = some '"'
  · rw [if_pos hquote]
    obtain ⟨rest, rfl⟩ := List.head?_eq_some_iff.mp hquote
    exact finds_quoted hstart (Nat.lt_of_succ_lt hturns)
  · rw [if_neg hquote, hstart.passWhile_eq _ hturns, pure_bind, hstart.slice_takeWhile,
      pure_bind, scanName]
    · have hname := hstart.dropWhile isNameChar
      cases hchars : cs.takeWhile isNameChar with
      | nil =>
        rw [size, Nat.add_zero, if_pos rfl]
        exact .of_error
      | cons d ds =>
        have hlater : p + 1 + size (d :: ds) ≠ p + 1 := by
          rw [size_cons]
          have := d.utf8Size_pos
          omega
        rw [hchars] at hname
        rw [if_neg hlater]
        exact .of_ok hname
    · rintro rest rfl
      exact hquote rfl

theorem atInteger_eq (h : At text p (c :: cs)) :
    atInteger text c p = pure (startsInteger c cs) := by
  rw [atInteger, startsInteger]
  cases c.isDigit with
  | true => rfl
  | false =>
    by_cases hminus : c = '-'
    · subst hminus
      rw [if_pos rfl, (h.succ rfl).charAt_eq]
      rfl
    · rw [if_neg hminus, beq_false_of_ne hminus]
      rfl

/-- A text of the character at `p` and those behind it that satisfy `pred`. -/
theorem finds_text (pred : Char → Bool) (make : String → Lexeme) (h : At text p (c :: cs))
    (hc : c.utf8Size = 1) (hturns : cs.length < turns) :
    Finds text line (do
      let stop ← passWhile text pred turns (p + 1)
      return (some (make (← slice text p stop)), stop))
      (.ok (some (make (String.ofList (c :: cs.takeWhile pred))), cs.dropWhile pred)) := by
  have hstart := h.succ hc
  have hslice : slice text p (p + size (c :: cs.takeWhile pred)) =
      pure (String.ofList (c :: cs.takeWhile pred)) := by
    rw [← List.takeWhile_append_dropWhile (p := pred) (l := cs), ← List.cons_append] at h
    exact h.slice_eq
  rw [size_cons, hc, ← Nat.add_assoc] at hslice
  rw [hstart.passWhile_eq _ hturns, pure_bind, hslice, pure_bind]
  exact .of_ok (hstart.dropWhile pred)

theorem utf8Size_of_isDigit (h : c.isDigit) : c.utf8Size = 1 := by
  have hdigit : (decide (c.val ≥ '0'.val) && decide (c.val ≤ '9'.val)) = true := h
  rw [Bool.and_eq_true, decide_eq_true_eq, decide_eq_true_eq] at hdigit
  exact Char.utf8Size_eq_one_iff.mpr (UInt32.le_trans hdigit.2 (by decide))

theorem utf8Size_of_isAlpha (h : c.isAlpha) : c.utf8Size = 1 := by
  rcases Bool.or_eq_true_iff.mp (show (c.isUpper || c.isLower) = true from h) with h | h
  · have hupper : decide (c.val ≥ 'A'.val ∧ c.val ≤ 'Z'.val) = true := h
    rw [decide_eq_true_eq] at hupper
    exact Char.utf8Size_eq_one_iff.mpr (UInt32.le_trans hupper.2 (by decide))
  · have hlower : (decide (c.val ≥ 'a'.val) && decide (c.val ≤ 'z'.val)) = true := h
    rw [Bool.and_eq_true, decide_eq_true_eq, decide_eq_true_eq] at hlower
    exact Char.utf8Size_eq_one_iff.mpr (UInt32.le_trans hlower.2 (by decide))

theorem utf8Size_of_startsInteger (h : startsInteger c cs) : c.utf8Size = 1 := by
  rw [startsInteger, Bool.or_eq_true, Bool.and_eq_true, beq_iff_eq] at h
  obtain h | ⟨rfl, -⟩ := h
  · exact utf8Size_of_isDigit h
  · rfl

theorem utf8Size_of_isWordStart (h : isWordStart c) : c.utf8Size = 1 := by
  simp only [isWordStart, Bool.or_eq_true, beq_iff_eq] at h
  obtain (((h | rfl) | rfl) | rfl) | rfl := h
  · exact utf8Size_of_isAlpha h
  all_goals rfl

theorem finds_step (line : Nat) (h : At text p (c :: cs)) (hturns : (c :: cs).length < turns) :
    Finds text line (step turns text p line) (scan c cs) := by
  have hrest : cs.length < turns := Nat.lt_of_succ_lt hturns
  rw [step, h.charAt_eq, pure_bind]
  simp only [List.head?_cons, atInteger_eq h, pure_bind]
  unfold scan
  by_cases hblank : c == ' ' || c == '\t' || c == '\r'
  · rw [if_pos hblank, if_pos hblank]
    simp only [Bool.or_eq_true, beq_iff_eq] at hblank
    have hsize : c.utf8Size = 1 := by
      obtain (rfl | rfl) | rfl := hblank
      all_goals rfl
    exact .of_ok (h.succ hsize)
  rw [if_neg hblank, if_neg hblank]
  by_cases hnewline : c == '\n'
  · obtain rfl := beq_iff_eq.mp hnewline
    exact .of_ok (h.succ rfl)
  rw [if_neg hnewline, if_neg hnewline]
  by_cases hcomment : c == ';'
  · rw [if_pos hcomment, if_pos hcomment, h.passWhile_eq _ hturns, pure_bind]
    obtain rfl := beq_iff_eq.mp hcomment
    exact .of_ok (h.dropWhile (· != '\n'))
  rw [if_neg hcomment, if_neg hcomment]
  by_cases hlocal : c == '%'
  · obtain rfl := beq_iff_eq.mp hlocal
    exact (finds_name h rfl hrest).found .localName
  rw [if_neg hlocal, if_neg hlocal]
  by_cases hglobal : c == '@'
  · obtain rfl := beq_iff_eq.mp hglobal
    exact (finds_name h rfl hrest).found .globalName
  rw [if_neg hglobal, if_neg hglobal]
  by_cases hquote : c == '"'
  · obtain rfl := beq_iff_eq.mp hquote
    exact (finds_quoted h hrest).found .quoted
  rw [if_neg hquote, if_neg hquote]
  by_cases hinteger : startsInteger c cs
  · rw [if_pos hinteger, if_pos hinteger]
    exact finds_text Char.isDigit .integer h (utf8Size_of_startsInteger hinteger) hrest
  rw [if_neg hinteger, if_neg hinteger]
  by_cases hword : isWordStart c
  · rw [if_pos hword, if_pos hword]
    exact finds_text isWordChar .word h (utf8Size_of_isWordStart hword) hrest
  rw [if_neg hword, if_neg hword]
  cases hmark : Punct.ofChar? c with
  | none => exact .of_error
  | some mark =>
    obtain rfl := Punct.toChar_of_ofChar? hmark
    exact .of_ok (h.succ (by cases mark <;> rfl))

theorem run_eq {n : Nat} (h : At text p cs) (hn : cs.length < n) (hturns : cs.length < turns) :
    run turns text n p line =
      Outcome.ofExcept ((TokenStream.scanFrom line cs).map TokenStream.toList) := by
  fun_induction TokenStream.scanFrom line cs generalizing p n with
  | case1 line =>
    obtain ⟨n, rfl⟩ := Nat.exists_eq_succ_of_ne_zero (Nat.ne_of_gt hn)
    rw [run, if_neg (mt h.lt_size_iff.mp (not_not.mpr rfl))]
    rfl
  | case2 line c cs fault hscan =>
    obtain ⟨n, rfl⟩ := Nat.exists_eq_succ_of_ne_zero (Nat.ne_of_gt (Nat.zero_lt_of_lt hn))
    have hstep := finds_step line h hturns
    rw [hscan] at hstep
    rw [run, if_pos (h.lt_size_iff.mpr (List.cons_ne_nil c cs)),
      show step turns text p line = _ from hstep]
    rfl
  | case3 line c cs l rest hscan ih =>
    obtain ⟨n, rfl⟩ := Nat.exists_eq_succ_of_ne_zero (Nat.ne_of_gt (Nat.zero_lt_of_lt hn))
    have hstep := finds_step line h hturns
    rw [hscan] at hstep
    obtain ⟨q, hq, hstep⟩ := hstep
    have hlength := scan_length hscan
    rw [List.length_cons] at hn hturns
    rw [run, if_pos (h.lt_size_iff.mpr (List.cons_ne_nil c cs)), hstep, pure_bind]
    simp only [TokenStream.newline_iff_of_scan hscan]
    simp only [dite_eq_ite] at ih
    rw [ih hq (by omega) (by omega)]
    cases TokenStream.scanFrom (if c = '\n' then line + 1 else line) rest with
    | error e => rfl
    | ok s =>
      exact congrArg (pure : List Token → Outcome (List Token))
        (TokenStream.toList_push line l s).symm

end Bytes

end IrAsm
