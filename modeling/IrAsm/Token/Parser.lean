import IrAsm.Token.Scan

/-!
# Parsers over tokens

A parser reads from the front of a token stream, or fails at the line of the token it stands at. The
end of the text can be looked at but not passed. `collect` repeats a parser; it stops by itself when
nothing was read, so every parser ends.
-/

namespace IrAsm

namespace TokenStream

/-- The token `n` places ahead, or the end of the text. -/
def ahead (s : TokenStream) (n : Nat) : Token := s.tokens[n]?.getD s.eof

/-- The token at the front. -/
def next (s : TokenStream) : Token := s.ahead 0

/-- The stream behind the token at the front. -/
def tail (s : TokenStream) : TokenStream := { s with tokens := s.tokens.tail }

/-- The number of tokens before the end of the text. -/
def size (s : TokenStream) : Nat := s.tokens.length

end TokenStream

abbrev Parser := StateT TokenStream (Except ParseError)

namespace Parser

/-- The lexeme at the front. -/
def peek : Parser Lexeme := fun s => .ok (s.next.lexeme, s)

/-- The lexeme behind the one at the front. -/
def peekSecond : Parser Lexeme := fun s => .ok ((s.ahead 1).lexeme, s)

/-- Passes the token at the front. -/
def advance : Parser Unit := fun s => .ok ((), s.tail)

/-- Fails at the token at the front. -/
def fail {α : Type} (fault : ParseFault) : Parser α := fun s => .error ⟨s.next.line, fault⟩

/-- Passes all tokens up to the first one that does not satisfy `p`. -/
def skipWhile (p : Lexeme → Bool) : Parser Unit := fun s =>
  .ok ((), { s with tokens := s.tokens.dropWhile fun t => p t.lexeme })

/-- Is the token at the front this word? -/
def atWord (w : String) : Parser Bool := do return (← peek) == .word w

/-- Passes this punctuation mark if it is at the front, and says whether it was. -/
def eat (p : Punct) : Parser Bool := do
  if (← peek) = .punct p then
    advance
    return true
  else
    return false

/-- Passes a token of kind `k` and gives its text. -/
def expect (k : Kind) : Parser String := do
  let l ← peek
  if l.kind = k then
    advance
    return l.text
  else
    fail (.expected k l)

/-- Passes this punctuation mark. -/
def expectPunct (p : Punct) : Parser Unit := do
  let _ ← expect (.punct p)

/-- Goes to the end of the line. -/
def skipLine : Parser Unit := skipWhile (· != .newline)

/-- Passes line ends. -/
def skipNewlines : Parser Unit := skipWhile (· == .newline)

/-- Repeats `item` and collects what it yields. Each time `item` also says whether to go on; an
`item` that reads nothing ends the repetition too. -/
def collect {α : Type} (item : Parser (Option α × Bool)) : Parser (List α) := fun s =>
  match item s with
  | .error e => .error e
  | .ok ((found, more), rest) =>
    if more && rest.size < s.size then
      match collect item rest with
      | .error e => .error e
      | .ok (others, last) => .ok (found.toList ++ others, last)
    else .ok (found.toList, rest)
termination_by s => s.size
decreasing_by simp_all

/-- Items with commas between them, up to `close`, which is passed. A comma may also stand behind
the last item. -/
def listUpTo {α : Type} (close : Punct) (item : Parser α) : Parser (List α) := do
  let items ← collect do
    if (← peek) = .punct close then
      return (none, false)
    else
      let a ← item
      return (some a, ← eat .comma)
  expectPunct close
  return items

end Parser

end IrAsm
