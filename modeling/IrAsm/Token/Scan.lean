import IrAsm.ParseError

/-!
# Scanning

`Token.scan` cuts source text into tokens. Blanks and `;` comments are dropped, line ends are kept.
Each step takes the character at the head of the text and as much of what follows as belongs to it,
so the text that is left gets shorter; a quoted text or a comment never runs over a line end.
-/

namespace IrAsm

namespace Lexeme

/-- Stands in a name that is written without quotes. -/
def isNameChar (c : Char) : Bool := c.isAlphanum || c == '_' || c == '.' || c == '$' || c == '-'

/-- Stands in a word after its first character. -/
def isWordChar (c : Char) : Bool := c.isAlphanum || c == '_' || c == '.' || c == '$'

/-- Starts a word. Attribute groups such as `#0`, metadata such as `!dbg` and the dots `...` count
as words too. -/
def isWordStart (c : Char) : Bool := c.isAlpha || c == '_' || c == '#' || c == '!' || c == '.'

/-- The text up to the closing quote, and what follows that quote. -/
def scanQuoted (cs : List Char) : Except ParseFault (String × List Char) :=
  let inQuotes := fun c => c != '"' && c != '\n'
  match cs.dropWhile inQuotes with
  | '"' :: rest => .ok (String.ofList (cs.takeWhile inQuotes), rest)
  | _ => .error .unterminatedString

/-- The name behind a sigil, in quotes or without. -/
def scanName (sigil : Char) (cs : List Char) : Except ParseFault (String × List Char) :=
  match cs with
  | '"' :: rest => scanQuoted rest
  | _ =>
    if (cs.takeWhile isNameChar).isEmpty then .error (.missingName sigil)
    else .ok (String.ofList (cs.takeWhile isNameChar), cs.dropWhile isNameChar)

/-- Starts an integer: a digit, or a minus sign before a digit. -/
def startsInteger (c : Char) (cs : List Char) : Bool :=
  c.isDigit || (c == '-' && (cs.head?.any Char.isDigit))

/-- The lexeme made from a text, with the text left behind it. -/
def found (make : String → Lexeme) (p : String × List Char) : Option Lexeme × List Char :=
  (some (make p.1), p.2)

/-- One step of the scanner at the character `c` before `cs`: the lexeme found, if any, and the text
left. -/
def scan (c : Char) (cs : List Char) : Except ParseFault (Option Lexeme × List Char) :=
  if c == ' ' || c == '\t' || c == '\r' then .ok (none, cs)
  else if c == '\n' then .ok (some .newline, cs)
  else if c == ';' then .ok (none, cs.dropWhile (· != '\n'))
  else if c == '%' then (scanName c cs).map (found .localName)
  else if c == '@' then (scanName c cs).map (found .globalName)
  else if c == '"' then (scanQuoted cs).map (found .quoted)
  else if startsInteger c cs then
    .ok (some (.integer (String.ofList (c :: cs.takeWhile Char.isDigit))),
      cs.dropWhile Char.isDigit)
  else if isWordStart c then
    .ok (some (.word (String.ofList (c :: cs.takeWhile isWordChar))), cs.dropWhile isWordChar)
  else
    match Punct.ofChar? c with
    | some p => .ok (some (.punct p), cs)
    | none => .error (.invalidCharacter c)

theorem length_dropWhile_le (p : Char → Bool) (cs : List Char) :
    (cs.dropWhile p).length ≤ cs.length :=
  (List.dropWhile_sublist p).length_le

theorem scanQuoted_length {cs rest : List Char} {text : String}
    (h : scanQuoted cs = .ok (text, rest)) : rest.length ≤ cs.length := by
  simp only [scanQuoted] at h
  split at h
  · next r hr =>
    cases h
    have := length_dropWhile_le (fun c => c != '"' && c != '\n') cs
    rw [hr, List.length_cons] at this
    omega
  · cases h

theorem scanName_length {sigil : Char} {cs rest : List Char} {name : String}
    (h : scanName sigil cs = .ok (name, rest)) : rest.length ≤ cs.length := by
  simp only [scanName] at h
  split at h
  · have := scanQuoted_length h
    rw [List.length_cons]
    omega
  · split at h
    · cases h
    · cases h
      exact length_dropWhile_le _ _

theorem of_map_found {x : Except ParseFault (String × List Char)} {make : String → Lexeme}
    {l : Option Lexeme} {rest : List Char} (h : x.map (found make) = .ok (l, rest)) :
    ∃ s, x = .ok (s, rest) := by
  match x, h with
  | .ok (s, r), h =>
    simp only [Except.map, found, Except.ok.injEq, Prod.mk.injEq] at h
    exact ⟨s, by rw [h.2]⟩

/-- A step leaves no more text than stood behind its first character. -/
theorem scan_length {c : Char} {cs rest : List Char} {l : Option Lexeme}
    (h : scan c cs = .ok (l, rest)) : rest.length ≤ cs.length := by
  unfold scan at h
  split at h
  · cases h; exact Nat.le_refl _
  split at h
  · cases h; exact Nat.le_refl _
  split at h
  · cases h; exact length_dropWhile_le _ _
  split at h
  · obtain ⟨s, hs⟩ := of_map_found h; exact scanName_length hs
  split at h
  · obtain ⟨s, hs⟩ := of_map_found h; exact scanName_length hs
  split at h
  · obtain ⟨s, hs⟩ := of_map_found h; exact scanQuoted_length hs
  split at h
  · cases h; exact length_dropWhile_le _ _
  split at h
  · cases h; exact length_dropWhile_le _ _
  split at h
  · cases h; exact Nat.le_refl _
  · cases h

end Lexeme

/-- The tokens of a text, without the end of the text, and the line on which the text ends. -/
structure TokenStream where
  tokens : List Token
  endLine : Nat
  deriving DecidableEq, Repr

namespace TokenStream

/-- The token that stands for the end of the text. -/
def eof (s : TokenStream) : Token := ⟨.eof, s.endLine⟩

/-- All tokens, the end of the text included. -/
def toList (s : TokenStream) : List Token := s.tokens ++ [s.eof]

/-- The stream with `l` found on `line` in front, if there is one. -/
def push (line : Nat) (l : Option Lexeme) (s : TokenStream) : TokenStream :=
  { s with tokens := (l.map (Token.mk · line)).toList ++ s.tokens }

/-- The tokens of text that starts on `line`. -/
def scanFrom (line : Nat) : List Char → Except ParseError TokenStream
  | [] => .ok ⟨[], line⟩
  | c :: cs =>
    match _h : Lexeme.scan c cs with
    | .error fault => .error ⟨line, fault⟩
    | .ok (l, rest) => (scanFrom (if c = '\n' then line + 1 else line) rest).map (push line l)
termination_by cs => cs.length
decreasing_by
  have := Lexeme.scan_length _h
  simp only [List.length_cons]
  omega

/-- The tokens of a source text. -/
def scan (source : String) : Except ParseError TokenStream := scanFrom 1 source.toList

end TokenStream

end IrAsm
