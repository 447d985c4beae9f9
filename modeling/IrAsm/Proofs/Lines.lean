import IrAsm.Proofs.Scan
import IrAsm.Proofs.Success

/-!
# Lines

A text that is scanned falls into pieces: lexemes as they are written (`Lexeme.Written`), and blanks
and comments, which are dropped. A line end is a piece of its own and stands in no other
(`Piece.Valid.of_newline`), so the line of a token can be told from the text in front of it
(`Piece.tokensBehind`). Scanning fails where no piece stands (`Unreadable`).
-/

namespace IrAsm

theorem Punct.toChar_of_ofChar? {c : Char} {p : Punct} (h : ofChar? c = some p) : p.toChar = c := by
  unfold ofChar? at h
  split at h <;> cases h <;> rfl

namespace Lexeme

/-- A text in quotes. It holds neither a quote nor a line end. -/
def InQuotes (s : String) (cs : List Char) : Prop :=
  (∀ c ∈ s.toList, c ≠ '"' ∧ c ≠ '\n') ∧ cs = '"' :: (s.toList ++ ['"'])

/-- A name behind its sigil, in quotes or without. -/
def NameText (s : String) (cs : List Char) : Prop := IsName s ∧ cs = s.toList ∨ InQuotes s cs

/-- The text of a lexeme, sigils and quotes included. -/
inductive Written : Lexeme → List Char → Prop where
  | newline : Written .newline ['\n']
  | punct (p : Punct) : Written (.punct p) [p.toChar]
  | word {c : Char} {cs : List Char} : isWordStart c → (∀ d ∈ cs, isWordChar d) →
      Written (.word (String.ofList (c :: cs))) (c :: cs)
  | integer {c : Char} {cs : List Char} : c.isDigit → (∀ d ∈ cs, d.isDigit) →
      Written (.integer (String.ofList (c :: cs))) (c :: cs)
  | negative {c : Char} {cs : List Char} : c.isDigit → (∀ d ∈ cs, d.isDigit) →
      Written (.integer (String.ofList ('-' :: c :: cs))) ('-' :: c :: cs)
  | localName {s : String} {cs : List Char} : NameText s cs → Written (.localName s) ('%' :: cs)
  | globalName {s : String} {cs : List Char} : NameText s cs → Written (.globalName s) ('@' :: cs)
  | quoted {s : String} {cs : List Char} : InQuotes s cs → Written (.quoted s) cs

/-- A blank or a comment. -/
inductive Dropped : List Char → Prop where
  | blank {c : Char} : c ∈ [' ', '\t', '\r'] → Dropped [c]
  | comment {cs : List Char} : (∀ c ∈ cs, c ≠ '\n') → Dropped (';' :: cs)

variable {l : Lexeme} {s : String} {c : Char} {cs rest : List Char}

theorem InQuotes.not_newline (h : InQuotes s cs) : '\n' ∉ cs := by
  rw [h.2]
  simpa using fun hc => (h.1 _ hc).2 rfl

theorem NameText.not_newline (h : NameText s cs) : '\n' ∉ cs := by
  rcases h with ⟨hname, rfl⟩ | h
  · exact fun hc => by cases hname.2 _ hc
  · exact h.not_newline

/-- No lexeme but the line end holds one. -/
theorem Written.of_newline (h : Written l cs) (hc : '\n' ∈ cs) : l = .newline ∧ cs = ['\n'] := by
  cases h with
  | newline => exact ⟨rfl, rfl⟩
  | punct p => cases p <;> simp [Punct.toChar] at hc
  | word hstart hcs =>
    rcases List.mem_cons.mp hc with rfl | hc
    · cases hstart
    · cases hcs _ hc
  | integer hdigit hcs =>
    rcases List.mem_cons.mp hc with rfl | hc
    · cases hdigit
    · cases hcs _ hc
  | negative hdigit hcs =>
    rcases List.mem_cons.mp (List.mem_of_ne_of_mem (by decide) hc) with rfl | hc
    · cases hdigit
    · cases hcs _ hc
  | localName hs => exact absurd (List.mem_of_ne_of_mem (by decide) hc) hs.not_newline
  | globalName hs => exact absurd (List.mem_of_ne_of_mem (by decide) hc) hs.not_newline
  | quoted hs => exact absurd hc hs.not_newline

theorem Dropped.not_newline (h : Dropped cs) : '\n' ∉ cs := by
  cases h with
  | blank hc => revert hc; simp; rintro (rfl | rfl | rfl) <;> decide
  | comment hcs => simpa using fun hc => hcs _ hc rfl

theorem Written.ne_eof (h : Written l cs) : l ≠ .eof := by
  rintro rfl
  cases h

end Lexeme

/-- A piece of a text: a lexeme, or text that is dropped. -/
structure Piece where
  text : List Char
  lexeme : Option Lexeme

namespace Piece

def Valid (p : Piece) : Prop :=
  match p.lexeme with
  | some l => l.Written p.text
  | none => Lexeme.Dropped p.text

/-- The tokens of pieces, which stand behind the text `before`. The line of a token is one more than
the number of line ends before it. -/
def tokensBehind (before : List Char) : List Piece → List Token
  | [] => []
  | p :: ps =>
    (p.lexeme.map (Token.mk · (1 + before.count '\n'))).toList ++ tokensBehind (before ++ p.text) ps

theorem Valid.of_newline {p : Piece} (h : p.Valid) (hc : '\n' ∈ p.text) :
    p = ⟨['\n'], some .newline⟩ := by
  obtain ⟨text, lexeme⟩ := p
  cases lexeme with
  | none => exact absurd hc (Lexeme.Dropped.not_newline h)
  | some l =>
    obtain ⟨rfl, rfl⟩ : l = .newline ∧ text = ['\n'] := Lexeme.Written.of_newline h hc
    rfl

end Piece

/-- No piece stands at the start of the text. -/
def Unreadable (cs : List Char) : Prop := ∀ p : Piece, p.Valid → ¬ p.text <+: cs

/-! ## Steps -/

namespace Lexeme

variable {l : Option Lexeme} {s : String} {sigil c : Char} {cs rest : List Char}
  {fault : ParseFault}

/-- The closing quote is missing: the line or the text ends before it. -/
def Unclosed (cs : List Char) : Prop :=
  ∃ body rest, cs = body ++ rest ∧ (∀ c ∈ body, c ≠ '"' ∧ c ≠ '\n') ∧ Ends (· != '\n') rest

theorem forall_mem_takeWhile {p : Char → Bool} : ∀ c ∈ cs.takeWhile p, p c :=
  List.all_eq_true.mp List.all_takeWhile

theorem inQuotes_of_scanQuoted (h : scanQuoted cs = .ok (s, rest)) :
    ∃ text, InQuotes s text ∧ '"' :: cs = text ++ rest := by
  simp only [scanQuoted] at h
  split at h
  · next hdrop =>
    cases h
    refine ⟨_, ⟨fun c hc => ?_, rfl⟩, ?_⟩
    · rw [String.toList_ofList] at hc
      simpa using forall_mem_takeWhile c hc
    · rw [String.toList_ofList, List.cons_append, List.append_assoc, List.singleton_append, ← hdrop,
        List.takeWhile_append_dropWhile]
  · cases h

theorem unclosed_of_scanQuoted (h : scanQuoted cs = .error fault) :
    fault = .unterminatedString ∧ Unclosed cs := by
  simp only [scanQuoted] at h
  split at h
  · cases h
  · next hdrop =>
    cases h
    refine ⟨rfl, cs.takeWhile (fun c => c != '"' && c != '\n'),
      cs.dropWhile (fun c => c != '"' && c != '\n'), List.takeWhile_append_dropWhile.symm,
      fun c hc => ?_, fun c hc => ?_⟩
    · simpa using forall_mem_takeWhile c hc
    · obtain ⟨rest, hrest⟩ := List.head?_eq_some_iff.mp hc
      have hstop : c = '"' ∨ c = '\n' := by
        simpa [hrest, or_iff_not_imp_left] using
          List.head?_dropWhile_not (fun c => c != '"' && c != '\n') cs
      rcases hstop with rfl | rfl
      · exact absurd hrest (hdrop rest)
      · rfl

theorem nameText_of_scanName (h : scanName sigil cs = .ok (s, rest)) :
    ∃ text, NameText s text ∧ cs = text ++ rest := by
  unfold scanName at h
  split at h
  · obtain ⟨text, htext, hcs⟩ := inQuotes_of_scanQuoted h
    exact ⟨text, .inr htext, hcs⟩
  · split at h
    · cases h
    · next hne =>
      cases h
      refine ⟨_, .inl ⟨⟨?_, fun c hc => ?_⟩, rfl⟩, ?_⟩
      · simpa using hne
      · rw [String.toList_ofList] at hc
        exact forall_mem_takeWhile c hc
      · rw [String.toList_ofList, List.takeWhile_append_dropWhile]

theorem scanName_error (h : scanName sigil cs = .error fault) :
    fault = .missingName sigil ∨
      fault = .unterminatedString ∧ ∃ rest, cs = '"' :: rest ∧ Unclosed rest := by
  unfold scanName at h
  split at h
  · obtain ⟨hfault, hcs⟩ := unclosed_of_scanQuoted h
    exact .inr ⟨hfault, _, rfl, hcs⟩
  · split at h
    · cases h
      exact .inl rfl
    · cases h

/-- What a step does, by the character it stands at. -/
theorem scan_cases {motive : Char → Except ParseFault (Option Lexeme × List Char) → Prop}
    (blank : ∀ c ∈ [' ', '\t', '\r'], motive c (.ok (none, cs)))
    (newline : motive '\n' (.ok (some .newline, cs)))
    (comment : motive ';' (.ok (none, cs.dropWhile (· != '\n'))))
    (localName : motive '%' ((scanName '%' cs).map (found .localName)))
    (globalName : motive '@' ((scanName '@' cs).map (found .globalName)))
    (quoted : motive '"' ((scanQuoted cs).map (found .quoted)))
    (integer : ∀ c, startsInteger c cs → motive c
      (.ok (some (.integer (String.ofList (c :: cs.takeWhile Char.isDigit))),
        cs.dropWhile Char.isDigit)))
    (word : ∀ c, isWordStart c → motive c
      (.ok (some (.word (String.ofList (c :: cs.takeWhile isWordChar))), cs.dropWhile isWordChar)))
    (punct : ∀ p, motive p.toChar (.ok (some (.punct p), cs)))
    (invalid : ∀ c, motive c (.error (.invalidCharacter c))) (c : Char) : motive c (scan c cs) := by
  unfold scan
  by_cases hblank : c == ' ' || c == '\t' || c == '\r'
  · rw [if_pos hblank]
    exact blank c (by simpa [or_assoc] using hblank)
  rw [if_neg hblank]
  by_cases hnewline : c == '\n'
  · rw [if_pos hnewline, beq_iff_eq.mp hnewline]
    exact newline
  rw [if_neg hnewline]
  by_cases hcomment : c == ';'
  · rw [if_pos hcomment, beq_iff_eq.mp hcomment]
    exact comment
  rw [if_neg hcomment]
  by_cases hlocal : c == '%'
  · rw [if_pos hlocal, beq_iff_eq.mp hlocal]
    exact localName
  rw [if_neg hlocal]
  by_cases hglobal : c == '@'
  · rw [if_pos hglobal, beq_iff_eq.mp hglobal]
    exact globalName
  rw [if_neg hglobal]
  by_cases hquote : c == '"'
  · rw [if_pos hquote, beq_iff_eq.mp hquote]
    exact quoted
  rw [if_neg hquote]
  by_cases hinteger : startsInteger c cs
  · rw [if_pos hinteger]
    exact integer c hinteger
  rw [if_neg hinteger]
  by_cases hword : isWordStart c
  · rw [if_pos hword]
    exact word c hword
  rw [if_neg hword]
  cases hp : Punct.ofChar? c with
  | none => exact invalid c
  | some p =>
    rw [← Punct.toChar_of_ofChar? hp]
    exact punct p

/-- A step takes a piece. -/
theorem exists_piece_of_scan (h : scan c cs = .ok (l, rest)) :
    ∃ text, (Piece.mk text l).Valid ∧ c :: cs = text ++ rest := by
  refine scan_cases (motive := fun c r => r = .ok (l, rest) →
      ∃ text, (Piece.mk text l).Valid ∧ c :: cs = text ++ rest)
    ?blank ?newline ?comment ?localName ?globalName ?quoted ?integer ?word ?punct ?invalid c h
  case blank =>
    rintro c hc ⟨⟩
    exact ⟨[c], .blank hc, rfl⟩
  case newline =>
    rintro ⟨⟩
    exact ⟨['\n'], .newline, rfl⟩
  case comment =>
    rintro ⟨⟩
    refine ⟨';' :: cs.takeWhile (· != '\n'), .comment fun d hd => ?_, ?_⟩
    · simpa using forall_mem_takeWhile d hd
    · rw [List.cons_append, List.takeWhile_append_dropWhile]
  case localName =>
    intro h
    obtain ⟨⟨s, rest'⟩, hname, hfound⟩ := map_ok_iff.mp h
    cases hfound
    obtain ⟨text, htext, rfl⟩ := nameText_of_scanName hname
    exact ⟨'%' :: text, .localName htext, rfl⟩
  case globalName =>
    intro h
    obtain ⟨⟨s, rest'⟩, hname, hfound⟩ := map_ok_iff.mp h
    cases hfound
    obtain ⟨text, htext, rfl⟩ := nameText_of_scanName hname
    exact ⟨'@' :: text, .globalName htext, rfl⟩
  case quoted =>
    intro h
    obtain ⟨⟨s, rest'⟩, hquoted, hfound⟩ := map_ok_iff.mp h
    cases hfound
    obtain ⟨text, htext, hcs⟩ := inQuotes_of_scanQuoted hquoted
    exact ⟨text, .quoted htext, hcs⟩
  case integer =>
    rintro c hstart ⟨⟩
    refine ⟨c :: cs.takeWhile Char.isDigit, ?_,
      by rw [List.cons_append, List.takeWhile_append_dropWhile]⟩
    rcases Bool.or_eq_true_iff.mp hstart with hc | hminus
    · exact .integer hc forall_mem_takeWhile
    · -- the minus sign stands before a digit
      obtain ⟨hc, hhead⟩ := Bool.and_eq_true_iff.mp hminus
      obtain rfl := beq_iff_eq.mp hc
      cases cs with
      | nil => cases hhead
      | cons d ds =>
        have hd : d.isDigit := hhead
        rw [List.takeWhile_cons_of_pos hd]
        exact .negative hd forall_mem_takeWhile
  case word =>
    rintro c hstart ⟨⟩
    exact ⟨c :: cs.takeWhile isWordChar, .word hstart forall_mem_takeWhile,
      by rw [List.cons_append, List.takeWhile_append_dropWhile]⟩
  case punct =>
    rintro p ⟨⟩
    exact ⟨[p.toChar], .punct p, rfl⟩
  case invalid =>
    rintro c ⟨⟩

/-! ## Faults -/

theorem exists_scanQuoted (h : ∀ c ∈ s.toList, c ≠ '"' ∧ c ≠ '\n') (rest : List Char) :
    ∃ r, scanQuoted (s.toList ++ '"' :: rest) = .ok r := by
  have hdrop : (s.toList ++ '"' :: rest).dropWhile (fun c => c != '"' && c != '\n') = '"' :: rest :=
    dropWhile_append (by simpa using h) (ends_cons (by decide) rest)
  simp only [scanQuoted, hdrop]
  exact ⟨_, rfl⟩

theorem exists_scanName (sigil : Char) (h : NameText s cs) (rest : List Char) :
    ∃ r, scanName sigil (cs ++ rest) = .ok r := by
  rcases h with ⟨hname, rfl⟩ | ⟨hs, rfl⟩
  · obtain ⟨c, cs, hcs, hc⟩ := hname.exists_cons
    have hquote : c ≠ '"' := by rintro rfl; cases hc
    rw [hcs, List.cons_append]
    unfold scanName
    split
    · next he => exact absurd (List.cons.inj he).1 hquote
    · rw [List.takeWhile_cons_of_pos hc]
      exact ⟨_, if_neg (by simp)⟩
  · have hscan := exists_scanQuoted hs rest
    rwa [List.cons_append, List.append_assoc, List.singleton_append]

/-- Where a piece stands a step does not fail. -/
theorem exists_scan_of_piece {p : Piece} (hp : p.Valid) (h : p.text <+: c :: cs) :
    ∃ r, scan c cs = .ok r := by
  obtain ⟨text, lexeme⟩ := p
  obtain ⟨rest, h⟩ : ∃ rest, text ++ rest = c :: cs := h
  cases lexeme with
  | none =>
    cases hp with
    | blank hd =>
      cases h
      exact ⟨_, if_pos (by simpa [or_assoc] using hd)⟩
    | comment => cases h; exact ⟨_, rfl⟩
  | some l =>
    cases hp with
    | newline => cases h; exact ⟨_, rfl⟩
    | punct p => cases h; cases p <;> exact ⟨_, rfl⟩
    | word hc => cases h; exact ⟨_, scan_wordStart hc⟩
    | integer hc => cases h; exact ⟨_, scan_digit hc⟩
    | negative hd => cases h; exact ⟨_, scan_integer (by decide) (by simp [startsInteger, hd])⟩
    | localName hs =>
      cases h
      obtain ⟨r, hr⟩ := exists_scanName '%' hs rest
      exact ⟨_, congrArg (Except.map (found .localName)) hr⟩
    | globalName hs =>
      cases h
      obtain ⟨r, hr⟩ := exists_scanName '@' hs rest
      exact ⟨_, congrArg (Except.map (found .globalName)) hr⟩
    | quoted hs =>
      obtain ⟨hs, rfl⟩ := hs
      rw [List.cons_append, List.append_assoc, List.singleton_append] at h
      cases h
      obtain ⟨r, hr⟩ := exists_scanQuoted hs rest
      exact ⟨_, congrArg (Except.map (found .quoted)) hr⟩

theorem unreadable_of_scan (h : scan c cs = .error fault) : Unreadable (c :: cs) := by
  intro p hp hpre
  obtain ⟨r, hr⟩ := exists_scan_of_piece hp hpre
  cases h.symm.trans hr

end Lexeme

/-- The fault is that of the token that starts the text. -/
def ParseFault.At : ParseFault → List Char → Prop
  | .invalidCharacter c, cs => cs.head? = some c
  | .missingName sigil, cs => (sigil = '%' ∨ sigil = '@') ∧ cs.head? = some sigil
  | .unterminatedString, cs =>
    ∃ rest, Lexeme.Unclosed rest ∧
      (cs = '"' :: rest ∨ cs = '%' :: '"' :: rest ∨ cs = '@' :: '"' :: rest)
  | _, _ => False

theorem Lexeme.at_of_scan {c : Char} {cs : List Char} {fault : ParseFault}
    (h : scan c cs = .error fault) : fault.At (c :: cs) := by
  refine scan_cases (motive := fun c r => r = .error fault → fault.At (c :: cs))
    ?blank ?newline ?comment ?localName ?globalName ?quoted ?integer ?word ?punct ?invalid c h
  case blank | integer | word => rintro c _ ⟨⟩
  case newline | comment => rintro ⟨⟩
  case punct => rintro p ⟨⟩
  case localName =>
    intro h
    rcases scanName_error (map_error_iff.mp h) with rfl | ⟨rfl, rest, rfl, hrest⟩
    · exact ⟨.inl rfl, rfl⟩
    · exact ⟨rest, hrest, .inr (.inl rfl)⟩
  case globalName =>
    intro h
    rcases scanName_error (map_error_iff.mp h) with rfl | ⟨rfl, rest, rfl, hrest⟩
    · exact ⟨.inr rfl, rfl⟩
    · exact ⟨rest, hrest, .inr (.inr rfl)⟩
  case quoted =>
    intro h
    obtain ⟨rfl, hcs⟩ := unclosed_of_scanQuoted (map_error_iff.mp h)
    exact ⟨cs, hcs, .inl rfl⟩
  case invalid =>
    rintro c ⟨⟩
    rfl

/-! ## Runs -/

namespace Piece

variable {p : Piece} {ps : List Piece} {before : List Char}

theorem Valid.count_newline (h : p.Valid) :
    p.text.count '\n' = if p.lexeme = some .newline then 1 else 0 := by
  by_cases hc : '\n' ∈ p.text
  · rw [h.of_newline hc]
    rfl
  · rw [List.count_eq_zero.mpr hc, if_neg]
    intro hl
    unfold Valid at h
    rw [hl] at h
    generalize p.text = text at h hc
    cases h
    simp at hc

/-- The line ends among the tokens are those of the text. -/
theorem countP_tokensBehind (h : ∀ p ∈ ps, p.Valid) :
    (tokensBehind before ps).countP (·.lexeme = .newline) = (ps.flatMap text).count '\n' := by
  induction ps generalizing before with
  | nil => rfl
  | cons p ps ih =>
    rw [List.forall_mem_cons] at h
    rw [tokensBehind, List.countP_append, ih h.2, List.flatMap_cons, List.count_append,
      h.1.count_newline]
    cases p.lexeme with
    | none => rfl
    | some l => simp

theorem ne_eof_of_mem_tokensBehind (h : ∀ p ∈ ps, p.Valid) {t : Token}
    (ht : t ∈ tokensBehind before ps) : t.lexeme ≠ .eof := by
  induction ps generalizing before with
  | nil => cases ht
  | cons p ps ih =>
    rw [List.forall_mem_cons] at h
    rcases List.mem_append.mp ht with ht | ht
    · obtain ⟨l, hl, rfl⟩ := Option.map_eq_some_iff.mp (Option.mem_toList.mp ht)
      have hp := h.1
      rw [Valid, hl] at hp
      exact hp.ne_eof
    · exact ih h.2 ht

end Piece

namespace TokenStream

open Lexeme

/-- A text falls into pieces in front of what is left of it. -/
structure Cut (cs : List Char) (ps : List Piece) (rest : List Char) : Prop where
  valid : ∀ p ∈ ps, p.Valid
  text : cs = ps.flatMap Piece.text ++ rest

theorem Cut.cons {p : Piece} {cs rest : List Char} {ps : List Piece} (hp : p.Valid)
    (h : Cut cs ps rest) : Cut (p.text ++ cs) (p :: ps) rest where
  valid := List.forall_mem_cons.mpr ⟨hp, h.valid⟩
  text := by rw [List.flatMap_cons, List.append_assoc, ← h.text]

theorem newline_iff_of_scan {c : Char} {cs rest : List Char} {l : Option Lexeme}
    (h : Lexeme.scan c cs = .ok (l, rest)) : l = some .newline ↔ c = '\n' := by
  constructor
  · rintro rfl
    obtain ⟨text, hp, htext⟩ := exists_piece_of_scan h
    cases hp
    exact (List.cons.inj htext).1
  · rintro rfl
    cases h
    rfl

/-- The tokens of a text that stands behind `before`, or where and why it cannot be read. -/
theorem scanFrom_spec (line : Nat) (before cs : List Char) (hline : line = 1 + before.count '\n') :
    match scanFrom line cs with
    | .ok s => ∃ ps, Cut cs ps [] ∧ s.tokens = Piece.tokensBehind before ps ∧
        s.endLine = 1 + (before ++ cs).count '\n'
    | .error e => ∃ ps rest, Cut cs ps rest ∧ Unreadable rest ∧ e.fault.At rest ∧
        e.line = 1 + (before ++ ps.flatMap Piece.text).count '\n' := by
  fun_induction scanFrom line cs generalizing before with
  | case1 line => exact ⟨[], ⟨by simp, rfl⟩, rfl, by simpa using hline⟩
  | case2 line c cs fault h =>
    exact ⟨[], c :: cs, ⟨by simp, rfl⟩, unreadable_of_scan h, at_of_scan h, by simpa using hline⟩
  | case3 line c cs l rest h ih =>
    obtain ⟨text, hp, htext⟩ := exists_piece_of_scan h
    -- the counter goes up with a line end, and no other piece holds one
    have hnext : (if c = '\n' then line + 1 else line) = 1 + (before ++ text).count '\n' := by
      have hcount := hp.count_newline
      simp only [newline_iff_of_scan h] at hcount
      rw [List.count_append, hcount, hline]
      split <;> rfl
    simp only [dite_eq_ite] at ih
    specialize ih _ hnext
    cases hr : scanFrom (if c = '\n' then line + 1 else line) rest with
    | ok s =>
      rw [hr] at ih
      obtain ⟨ps, hcut, htokens, hend⟩ := ih
      refine ⟨⟨text, l⟩ :: ps, htext ▸ hcut.cons hp, ?_, ?_⟩
      · rw [Piece.tokensBehind, ← hline, ← htokens]
        rfl
      · rw [htext, ← List.append_assoc]
        exact hend
    | error e =>
      rw [hr] at ih
      obtain ⟨ps, rest', hcut, hstuck, hfault, herror⟩ := ih
      refine ⟨⟨text, l⟩ :: ps, rest', htext ▸ hcut.cons hp, hstuck, hfault, ?_⟩
      rw [List.flatMap_cons, ← List.append_assoc]
      exact herror

/-- The tokens of a text end in one end of the text, they have a line end for each of the text, and
the line of a token is one more than the number of line ends before its first character. A fault has
the line on which the token starts that cannot be read. No comment, name or string holds a line
end. -/
theorem lines_exact (source : String) :
    (∀ s, scan source = .ok s → ∃ ps, Cut source.toList ps [] ∧
      s.toList = Piece.tokensBehind [] ps ++ [⟨.eof, 1 + source.toList.count '\n'⟩] ∧
      s.toList.countP (·.lexeme = .eof) = 1 ∧
      s.toList.countP (·.lexeme = .newline) = source.toList.count '\n' ∧
      ∀ p ∈ ps, '\n' ∈ p.text → p = ⟨['\n'], some .newline⟩) ∧
    ∀ e, scan source = .error e → ∃ ps rest, Cut source.toList ps rest ∧ Unreadable rest ∧
      e.fault.At rest ∧ e.line = 1 + (ps.flatMap Piece.text).count '\n' ∧
      ∀ p ∈ ps, '\n' ∈ p.text → p = ⟨['\n'], some .newline⟩ := by
  have hspec := scanFrom_spec 1 [] source.toList rfl
  constructor
  · intro s h
    rw [scan] at h
    rw [h] at hspec
    obtain ⟨ps, hcut, htokens, hend⟩ := hspec
    have htext := hcut.text
    rw [List.append_nil] at htext
    have hlist : s.toList = Piece.tokensBehind [] ps ++ [⟨.eof, 1 + source.toList.count '\n'⟩] := by
      rw [toList, eof, htokens, hend]
      rfl
    refine ⟨ps, hcut, hlist, ?_, ?_, fun p hp => (hcut.valid p hp).of_newline⟩
    · rw [hlist, List.countP_append, List.countP_eq_zero.mpr]
      · rfl
      · simpa using fun t ht => Piece.ne_eof_of_mem_tokensBehind hcut.valid ht
    · rw [hlist, List.countP_append, Piece.countP_tokensBehind hcut.valid, ← htext]
      rfl
  · intro e h
    rw [scan] at h
    rw [h] at hspec
    obtain ⟨ps, rest, hcut, hstuck, hfault, hline⟩ := hspec
    exact ⟨ps, rest, hcut, hstuck, hfault, hline, fun p hp => (hcut.valid p hp).of_newline⟩

/-- A comment with a quote in it, and a name with a semicolon in it: as it should be, and with its
quote open at the end of the line. -/
theorem lines_exact_quotes :
    (∃ s, scan "; \"a\n@\"b;c\"\n" = .ok s ∧ s.toList.countP (·.lexeme = .newline) = 2 ∧
      ⟨.globalName "b;c", 2⟩ ∈ s.toList) ∧
    ∃ ps rest, scan "; \"a\n@\"b;c\n" = .error ⟨2, .unterminatedString⟩ ∧
      Cut "; \"a\n@\"b;c\n".toList ps rest ∧ Unreadable rest ∧
      2 = 1 + (ps.flatMap Piece.text).count '\n' := by
  constructor
  · have hscan : scan "; \"a\n@\"b;c\"\n" =
        .ok ⟨[⟨.newline, 1⟩, ⟨.globalName "b;c", 2⟩, ⟨.newline, 2⟩], 3⟩ := by decide +kernel
    obtain ⟨ps, -, -, -, hcount, -⟩ := (lines_exact _).1 _ hscan
    exact ⟨_, hscan, hcount, by decide⟩
  · have hscan : scan "; \"a\n@\"b;c\n" = .error ⟨2, .unterminatedString⟩ := by decide +kernel
    obtain ⟨ps, rest, hcut, hstuck, -, hline, -⟩ := (lines_exact _).2 _ hscan
    exact ⟨ps, rest, hscan, hcut, hstuck, hline⟩

end TokenStream

end IrAsm
