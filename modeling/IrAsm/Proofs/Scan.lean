import IrAsm.Token.Scan
import IrAsm.Word
import Mathlib.Data.List.Basic

/-!
# How text is cut into tokens

`Scans cs ls rest`: scanning the text `cs` finds the lexemes `ls`, all on one line, and comes to the
text `rest`. Words, names and integers go on as long as they can, so what follows them must not go
on with their characters (`Ends`).
-/

namespace IrAsm

/-- The tokens of lexemes that all stand on one line. -/
def Lexeme.onLine (line : Nat) (ls : List Lexeme) : List Token := ls.map (Token.mk · line)

@[simp] theorem Lexeme.onLine_nil (line : Nat) : onLine line [] = [] := rfl

@[simp] theorem Lexeme.onLine_cons (line : Nat) (l : Lexeme) (ls : List Lexeme) :
    onLine line (l :: ls) = ⟨l, line⟩ :: onLine line ls := rfl

@[simp] theorem Lexeme.onLine_append (line : Nat) (ls ls' : List Lexeme) :
    onLine line (ls ++ ls') = onLine line ls ++ onLine line ls' := List.map_append

namespace TokenStream

/-- The stream with lexemes in front, all on one line. -/
def prepend (line : Nat) (ls : List Lexeme) (s : TokenStream) : TokenStream :=
  { s with tokens := Lexeme.onLine line ls ++ s.tokens }

theorem scanFrom_cons {c : Char} {cs rest : List Char} {l : Option Lexeme} (line : Nat)
    (h : Lexeme.scan c cs = .ok (l, rest)) (hc : c ≠ '\n') :
    scanFrom line (c :: cs) = (scanFrom line rest).map (push line l) := by
  rw [scanFrom]
  split
  · next hf => cases h.symm.trans hf
  · next h' =>
    cases h.symm.trans h'
    rw [if_neg hc]

end TokenStream

namespace Lexeme

open TokenStream

def Scans (cs : List Char) (ls : List Lexeme) (rest : List Char) : Prop :=
  ∀ line, scanFrom line cs = (scanFrom line rest).map (prepend line ls)

/-- The text does not start with such a character. -/
def Ends (p : Char → Bool) (rest : List Char) : Prop := ∀ c ∈ rest.head?, p c = false

theorem ends_cons {p : Char → Bool} {c : Char} (h : p c = false) (rest : List Char) :
    Ends p (c :: rest) := by
  intro d hd
  obtain rfl := Option.some.inj hd
  exact h

theorem Ends.mono {p q : Char → Bool} {rest : List Char} (h : Ends q rest) (hpq : ∀ c, p c → q c) :
    Ends p rest :=
  fun c hc => Bool.eq_false_iff.mpr fun hp => Bool.eq_false_iff.mp (h c hc) (hpq c hp)

namespace Scans

variable {c : Char} {cs ds rest : List Char} {ls ls' : List Lexeme}

theorem refl (cs : List Char) : Scans cs [] cs := by
  intro line
  cases scanFrom line cs with
  | error e => rfl
  | ok s => rfl

theorem trans (h : Scans cs ls ds) (h' : Scans ds ls' rest) : Scans cs (ls ++ ls') rest := by
  intro line
  rw [h line, h' line]
  cases scanFrom line rest with
  | error e => rfl
  | ok s => simp [Except.map, prepend]

theorem of_scan {l : Lexeme} (h : scan c cs = .ok (some l, rest)) (hc : c ≠ '\n') :
    Scans (c :: cs) [l] rest := fun line => scanFrom_cons line h hc

theorem blank (cs : List Char) : Scans (' ' :: cs) [] cs := fun line =>
  scanFrom_cons (c := ' ') line rfl (by decide)

theorem punct (p : Punct) (cs : List Char) : Scans (p.toChar :: cs) [.punct p] cs := by
  cases p <;> exact of_scan rfl (by decide)

end Scans

/-! ## Words and integers -/

section
variable {p : Char → Bool} {c : Char} {cs rest : List Char}

theorem takeWhile_append (hcs : ∀ c ∈ cs, p c) (h : Ends p rest) :
    (cs ++ rest).takeWhile p = cs := by
  rw [List.takeWhile_append_of_pos hcs]
  cases rest with
  | nil => simp
  | cons c rest => simp [h c rfl]

theorem dropWhile_append (hcs : ∀ c ∈ cs, p c) (h : Ends p rest) :
    (cs ++ rest).dropWhile p = rest := by
  rw [List.dropWhile_append_of_pos hcs]
  cases rest with
  | nil => rfl
  | cons c rest => simp [h c rfl]

theorem le_of_isAlpha (h : c.isAlpha) : 'A'.val ≤ c.val := by
  rcases Bool.or_eq_true_iff.mp h with h | h
  · exact (decide_eq_true_iff.mp h).1
  · have hle : 'a'.val ≤ c.val := decide_eq_true_iff.mp (Bool.and_eq_true_iff.mp h).1
    exact UInt32.le_trans (by decide) hle

theorem not_isDigit_of_isWordStart (h : isWordStart c) : c.isDigit = false := by
  simp only [isWordStart, Bool.or_eq_true, beq_iff_eq] at h
  rcases h with (((h | rfl) | rfl) | rfl) | rfl
  · have hle := le_of_isAlpha h
    simp only [Char.isDigit, Bool.and_eq_false_iff, decide_eq_false_iff_not]
    exact .inr (by grind)
  all_goals decide

theorem isWordChar_of_isDigit (h : c.isDigit) : isWordChar c := by
  simp [isWordChar, Char.isAlphanum, h]

theorem isNameChar_of_isDigit (h : c.isDigit) : isNameChar c := by
  simp [isNameChar, Char.isAlphanum, h]

/-- The characters that make up or start a lexeme whatever follows them, punctuation apart. -/
def special : List Char := [' ', '\t', '\r', '\n', ';', '%', '@', '"']

theorem scan_integer (hc : c ∉ special) (h : startsInteger c cs) : scan c cs =
    .ok (some (.integer (String.ofList (c :: cs.takeWhile Char.isDigit))),
      cs.dropWhile Char.isDigit) := by
  simp only [special, List.mem_cons, List.not_mem_nil, or_false, not_or] at hc
  simp only [scan, beq_iff_eq, Bool.or_eq_true, hc, or_self, if_false, h, if_true]

theorem scan_word (hc : c ∉ special) (hint : startsInteger c cs = false) (h : isWordStart c) :
    scan c cs = .ok
      (some (.word (String.ofList (c :: cs.takeWhile isWordChar))), cs.dropWhile isWordChar) := by
  simp only [special, List.mem_cons, List.not_mem_nil, or_false, not_or] at hc
  simp only [scan, beq_iff_eq, Bool.or_eq_true, hc, or_self, if_false, hint,
    Bool.false_eq_true, h, if_true]

theorem scan_wordStart (hc : isWordStart c) : scan c cs =
    .ok (some (.word (String.ofList (c :: cs.takeWhile isWordChar))), cs.dropWhile isWordChar) := by
  have hspecial : special.all fun d => !isWordStart d := by decide
  have hne {d : Char} (hd : isWordStart d = false) : c ≠ d := fun he => by simp [he, hd] at hc
  have hc' : c ∉ special := fun hm => hne (by simpa using List.all_eq_true.mp hspecial c hm) rfl
  have hint : startsInteger c cs = false := by
    simp [startsInteger, not_isDigit_of_isWordStart hc, hne (d := '-') rfl]
  exact scan_word hc' hint hc

theorem scan_digit (hc : c.isDigit) : scan c cs =
    .ok (some (.integer (String.ofList (c :: cs.takeWhile Char.isDigit))),
      cs.dropWhile Char.isDigit) := by
  have hspecial : special.all fun d => !d.isDigit := by decide
  have hne {d : Char} (hd : d.isDigit = false) : c ≠ d := fun he => by simp [he, hd] at hc
  have hc' : c ∉ special := fun hm => hne (by simpa using List.all_eq_true.mp hspecial c hm) rfl
  exact scan_integer hc' (by simp [startsInteger, hc])

/-- A word goes up to the next character that cannot stand in it. -/
theorem Scans.word (c : Char) (cs : List Char) (hc : isWordStart c) (hcs : ∀ c ∈ cs, isWordChar c)
    (h : Ends isWordChar rest) :
    Scans (c :: (cs ++ rest)) [.word (String.ofList (c :: cs))] rest := by
  refine of_scan ?_ (by rintro rfl; cases hc)
  rw [scan_wordStart hc, takeWhile_append hcs h, dropWhile_append hcs h]

/-- Is the text a single word? -/
def isWord (w : String) : Bool :=
  match w.toList with
  | c :: cs => isWordStart c && cs.all isWordChar
  | [] => false

theorem Scans.text {w : String} (hw : isWord w) (h : Ends isWordChar rest) :
    Scans (w.toList ++ rest) [.word w] rest := by
  unfold isWord at hw
  split at hw
  · next c cs hlist =>
    obtain ⟨hc, hcs⟩ := Bool.and_eq_true_iff.mp hw
    have hscan := Scans.word c cs hc (List.all_eq_true.mp hcs) h
    rwa [← hlist, String.ofList_toList, ← List.cons_append, ← hlist] at hscan
  · cases hw

/-- An integer goes up to the next character that is no digit. -/
theorem Scans.integer (hc : c.isDigit) (hcs : ∀ c ∈ cs, c.isDigit) (h : Ends Char.isDigit rest) :
    Scans (c :: (cs ++ rest)) [.integer (String.ofList (c :: cs))] rest := by
  refine of_scan ?_ (by rintro rfl; cases hc)
  rw [scan_digit hc, takeWhile_append hcs h, dropWhile_append hcs h]

/-- A minus sign in front of digits belongs to the integer. -/
theorem Scans.negative (hc : c.isDigit) (hcs : ∀ c ∈ cs, c.isDigit) (h : Ends Char.isDigit rest) :
    Scans ('-' :: (c :: cs ++ rest)) [.integer (String.ofList ('-' :: c :: cs))] rest := by
  have hall : ∀ d ∈ c :: cs, d.isDigit := List.forall_mem_cons.mpr ⟨hc, hcs⟩
  refine of_scan ?_ (by decide)
  rw [scan_integer (by decide) (by simp [startsInteger, hc]), takeWhile_append hall h,
    dropWhile_append hall h]

end

/-! ## Names -/

/-- A nonempty text of characters that stand in a name without quotes. -/
def IsName (s : String) : Prop := s ≠ "" ∧ ∀ c ∈ s.toList, isNameChar c

instance (s : String) : Decidable (IsName s) :=
  decidable_of_iff (s ≠ "" ∧ s.toList.all isNameChar) (and_congr_right fun _ => List.all_eq_true)

section
variable {name : String} {rest : List Char}

theorem IsName.exists_cons (h : IsName name) : ∃ c cs, name.toList = c :: cs ∧ isNameChar c := by
  obtain ⟨c, cs, hs⟩ := List.exists_cons_of_ne_nil (mt String.toList_eq_nil_iff.mp h.1)
  exact ⟨c, cs, hs, h.2 c (hs ▸ List.mem_cons_self)⟩

theorem scanName_append (sigil : Char) (hname : IsName name) (h : Ends isNameChar rest) :
    scanName sigil (name.toList ++ rest) = .ok (name, rest) := by
  obtain ⟨c, cs, hs, hc⟩ := hname.exists_cons
  have hquote : c ≠ '"' := by rintro rfl; cases hc
  unfold scanName
  split
  · next he =>
    rw [hs] at he
    exact absurd (List.cons.inj he).1 hquote
  · rw [takeWhile_append hname.2 h, dropWhile_append hname.2 h, String.ofList_toList, hs]
    rfl

theorem Scans.localName (hname : IsName name) (h : Ends isNameChar rest) :
    Scans ('%' :: (name.toList ++ rest)) [.localName name] rest := by
  have hscan : scan '%' (name.toList ++ rest) =
    (scanName '%' (name.toList ++ rest)).map (found .localName) := rfl
  exact of_scan (by rw [hscan, scanName_append '%' hname h]; rfl) (by decide)

theorem Scans.globalName (hname : IsName name) (h : Ends isNameChar rest) :
    Scans ('@' :: (name.toList ++ rest)) [.globalName name] rest := by
  have hscan : scan '@' (name.toList ++ rest) =
    (scanName '@' (name.toList ++ rest)).map (found .globalName) := rfl
  exact of_scan (by rw [hscan, scanName_append '@' hname h]; rfl) (by decide)

end

end Lexeme

/-! ## Numerals -/

namespace Decimal

theorem toList_toString (n : Nat) : (toString n).toList = Nat.toDigits 10 n := by
  rw [Nat.toString_eq_repr, Nat.toList_repr]

theorem isDigit_of_mem_toString {n : Nat} {c : Char} (h : c ∈ (toString n).toList) : c.isDigit := by
  rw [toList_toString] at h
  exact Nat.isDigit_of_mem_toDigits (by decide) (by decide) h

theorem exists_cons_of_toString (n : Nat) : ∃ c cs, (toString n).toList = c :: cs :=
  List.exists_cons_of_ne_nil (by rw [toList_toString]; exact Nat.toDigits_ne_nil)

theorem digits_toString (n : Nat) : digits (toString n).toList = .ok n := by
  obtain ⟨c, cs, hcs⟩ := exists_cons_of_toString n
  have hall : (toString n).toList.all Char.isDigit :=
    List.all_eq_true.mpr fun _ => isDigit_of_mem_toString
  have hne : (toString n).toList.isEmpty = false := by rw [hcs]; rfl
  rw [digits, hall, hne, toList_toString, Nat.ofDigitChars_ten_toDigits]
  rfl

/-- Digits do not start with a sign. -/
theorem head_toString_ne {n : Nat} {c d : Char} {cs : List Char} (h : (toString n).toList = c :: cs)
    (hd : d.isDigit = false) : c ≠ d := by
  rintro rfl
  have := isDigit_of_mem_toString (h ▸ List.mem_cons_self)
  simp [hd] at this

/-- A number is read back from its digits, if it is not too large. -/
theorem unsigned_toString {n max : Nat} (h : n ≤ max) :
    unsigned max (toString n).toList = .ok n := by
  obtain ⟨c, cs, hcs⟩ := exists_cons_of_toString n
  have hmost : atMost max (toString n).toList = .ok n := by
    rw [atMost, digits_toString]
    exact if_pos h
  have hplus : c ≠ '+' := head_toString_ne hcs rfl
  rw [hcs] at hmost ⊢
  unfold unsigned
  split
  · contradiction
  · next he => cases he; contradiction
  · exact hmost

theorem signed_toString {n max : Nat} (h : n ≤ max) : signed max (toString n).toList = .ok n := by
  obtain ⟨c, cs, hcs⟩ := exists_cons_of_toString n
  have hminus : c ≠ '-' := head_toString_ne hcs rfl
  have hread := unsigned_toString h
  rw [hcs] at hread ⊢
  unfold signed
  split
  · next he => cases he; contradiction
  · rw [hread]
    rfl

theorem signed_minus_toString {n max : Nat} (h : n ≤ max + 1) :
    signed max ('-' :: (toString n).toList) = .ok (-(n : Int)) := by
  rw [signed, digits_toString]
  exact if_pos h

end Decimal

theorem Lexeme.Scans.digits (n : Nat) {rest : List Char} (h : Ends Char.isDigit rest) :
    Scans ((toString n).toList ++ rest) [.integer (toString n)] rest := by
  obtain ⟨c, cs, hcs⟩ := Decimal.exists_cons_of_toString n
  have hdigits : ∀ d ∈ c :: cs, d.isDigit := fun d hd => Decimal.isDigit_of_mem_toString (hcs ▸ hd)
  rw [List.forall_mem_cons] at hdigits
  have hscans := integer hdigits.1 hdigits.2 h
  rwa [← List.cons_append, ← hcs, String.ofList_toList] at hscans

namespace Word

/-- The text of a word is a number, or a minus sign and a number. -/
theorem text_cases (w : Word) : (∃ n : Nat, w.toInt = n ∧ w.text = toString n) ∨
    ∃ n : Nat, w.toInt = -(n : Int) ∧ w.text = "-" ++ toString n := by
  unfold text
  cases w.toInt with
  | ofNat n => exact .inl ⟨n, rfl, rfl⟩
  | negSucc n => exact .inr ⟨n + 1, rfl, rfl⟩

theorem ofText_text (w : Word) : ofText w.text = .ok w := by
  have hlt : w.toInt < 2 ^ 63 := BitVec.toInt_lt
  have hle : -2 ^ 63 ≤ w.toInt := BitVec.le_toInt w
  have hsigned : Decimal.signed64 w.text.toList = .ok w.toInt := by
    rcases w.text_cases with ⟨n, hn, htext⟩ | ⟨n, hn, htext⟩
    · rw [htext, hn]
      exact Decimal.signed_toString (by omega)
    · rw [htext, hn, String.toList_append]
      exact Decimal.signed_minus_toString (by omega)
  rw [ofText, hsigned, Except.map, BitVec.ofInt_toInt]

end Word

theorem Lexeme.Scans.wordText (w : Word) {rest : List Char} (h : Ends Char.isDigit rest) :
    Scans (w.text.toList ++ rest) [.integer w.text] rest := by
  rcases w.text_cases with ⟨n, -, htext⟩ | ⟨n, -, htext⟩
  · rw [htext]
    exact digits n h
  · obtain ⟨c, cs, hcs⟩ := Decimal.exists_cons_of_toString n
    have hdigits : ∀ d ∈ c :: cs, d.isDigit :=
      fun d hd => Decimal.isDigit_of_mem_toString (hcs ▸ hd)
    rw [List.forall_mem_cons] at hdigits
    have hlist : ("-" ++ toString n).toList = '-' :: c :: cs := by
      rw [String.toList_append, hcs]; rfl
    have hscans := negative hdigits.1 hdigits.2 h
    rwa [htext, ← String.ofList_toList (s := "-" ++ toString n), hlist, String.toList_ofList]

end IrAsm
