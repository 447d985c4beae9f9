import IrAsm.Token.Parser
import IrAsm.Ty

/-!
# Reading types

`Ty.read` reads the longest type at the front of the tokens. It takes one token at a time. What is
open around the type being read is kept on a stack of frames, and `Want` says what may come next.
-/

namespace IrAsm

namespace Ty

/-- The integer type written as a word: `i` and a 32-bit numeral. -/
def intOfWord? (w : String) : Option Ty :=
  match w.toList with
  | 'i' :: ds => (Decimal.unsigned32 ds).toOption.map fun bits => .int (UInt32.ofNat bits)
  | _ => none

/-- A type that is a single word. -/
def ofWord? : String → Option Ty
  | "void" => some .void
  | "label" => some .label
  | "ptr" => some .rawPtr
  | w => intOfWord? w

/-- What is open around a type being read. -/
inductive Frame where
  /-- The element type of an array of that length. -/
  | array (length : UInt64)
  /-- A parameter of a function type, behind the parameters `before`. -/
  | params (ret : Ty) (before : List Ty)

/-- What may come next. -/
inductive Want where
  | type
  /-- The length of an array. -/
  | length
  /-- The `x` behind the length of an array. -/
  | times (length : UInt64)
  /-- A parameter, or the end of the parameters. -/
  | param (ret : Ty) (before : List Ty)
  /-- A comma or the end of the parameters, behind `...`. -/
  | separator (ret : Ty) (before : List Ty)
  /-- Whatever can follow the complete type. -/
  | suffix (t : Ty)

/-- The fault of a token that cannot come next. -/
def Want.fault (stack : List Frame) (found : Lexeme) : Want → ParseFault
  | .type | .param _ _ => .expectedType found
  | .length => .expected .integer found
  | .times _ => .expectedTimes
  | .separator _ _ => .expected (.punct .rightParen) found
  | .suffix _ =>
    match stack with
    | .array _ :: _ => .expected (.punct .rightBracket) found
    | _ => .expected (.punct .rightParen) found

/-- The first token of a type. -/
def first (stack : List Frame) : Lexeme → Except ParseFault (Want × List Frame)
  | .punct .leftBracket => .ok (.length, stack)
  | .word w =>
    match ofWord? w with
    | some t => .ok (.suffix t, stack)
    | none => .error (.expectedType (.word w))
  | l => .error (.expectedType l)

/-- Passes the token `l`. -/
def shift (stack : List Frame) (l : Lexeme) : Want → Except ParseFault (Want × List Frame)
  | .type => first stack l
  | .length =>
    match l with
    | .integer digits =>
      match Decimal.unsigned64 digits.toList with
      | .ok n => .ok (.times (UInt64.ofNat n), stack)
      | .error fault => .error (.numeral fault)
    | _ => .error (Want.length.fault stack l)
  | .times n =>
    if l = .word "x" then .ok (.type, .array n :: stack) else .error ((Want.times n).fault stack l)
  | .param ret before =>
    if l = .punct .rightParen then .ok (.suffix (.func ret before), stack)
    else if l = .word "..." then .ok (.separator ret before, stack)
    else first (.params ret before :: stack) l
  | .separator ret before =>
    match l with
    | .punct .comma => .ok (.param ret before, stack)
    | .punct .rightParen => .ok (.suffix (.func ret before), stack)
    | _ => .error ((Want.separator ret before).fault stack l)
  | .suffix t =>
    match l, stack with
    | .punct .star, _ => .ok (.suffix t.ptr, stack)
    | .punct .leftParen, _ => .ok (.param t [], stack)
    | .punct .rightBracket, .array n :: outer => .ok (.suffix (.array n t), outer)
    | .punct .comma, .params ret before :: outer => .ok (.param ret (before ++ [t]), outer)
    | .punct .rightParen, .params ret before :: outer =>
      .ok (.suffix (.func ret (before ++ [t])), outer)
    | _, _ => .error ((Want.suffix t).fault stack l)

/-- The complete type, if the token `l` does not belong to it any more. -/
def Want.complete? (stack : List Frame) (l : Lexeme) : Want → Option Ty
  | .suffix t =>
    if stack.isEmpty && l != .punct .star && l != .punct .leftParen then some t else none
  | _ => none

/-- Reads from `tokens`, which end on line `endLine`. -/
def readFrom (endLine : Nat) : Want → List Frame → List Token →
    Except ParseError (Ty × List Token)
  | want, stack, [] =>
    match want.complete? stack .eof with
    | some t => .ok (t, [])
    | none => .error ⟨endLine, want.fault stack .eof⟩
  | want, stack, token :: rest =>
    match want.complete? stack token.lexeme with
    | some t => .ok (t, token :: rest)
    | none =>
      match shift stack token.lexeme want with
      | .ok (want', stack') => readFrom endLine want' stack' rest
      | .error fault => .error ⟨token.line, fault⟩

/-- Reads the longest type at the front. -/
def read : Parser Ty := fun s =>
  (readFrom s.endLine .type [] s.tokens).map fun (t, rest) => (t, { s with tokens := rest })

/-- Can this lexeme start a type? The width of an integer type is not looked at. -/
def startsWith : Lexeme → Bool
  | .punct .leftBracket => true
  | .word w =>
    w == "void" || w == "label" || w == "ptr" ||
      match w.toList with
      | 'i' :: ds => !ds.isEmpty && ds.all Char.isDigit
      | _ => false
  | _ => false

end Ty

end IrAsm
