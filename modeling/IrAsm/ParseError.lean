import IrAsm.Text.Decimal
import IrAsm.Token

/-!
# Faults of the source text

What can be wrong with the text of a module, and how each fault is worded.
-/

namespace IrAsm

inductive ParseFault where
  | invalidCharacter (c : Char)
  | missingName (sigil : Char)
  | unterminatedString
  | expected (kind : Kind) (found : Lexeme)
  | expectedType (found : Lexeme)
  | expectedValue (found : Lexeme)
  | expectedLabel (found : Lexeme)
  /-- The `x` of an array type is missing. -/
  | expectedTimes
  /-- The `to` of a cast is missing. -/
  | expectedTo
  /-- The keyword of a global definition is missing. -/
  | expectedGlobal (name : String)
  | nonzeroGlobal (name : String) (found : Lexeme)
  | topLevel (found : Lexeme)
  | missingBody (function : String)
  | unterminatedBody (function : String)
  | unknownPredicate (keyword : String)
  | numeral (fault : NumeralFault)
  deriving DecidableEq, Repr

/-- The wording of a fault. -/
def ParseFault.message : ParseFault → String
  | .invalidCharacter c => "invalid character: " ++ c.toString
  | .missingName sigil => "expected a name after `" ++ sigil.toString ++ "`"
  | .unterminatedString => "unterminated string"
  | .expected kind found => "expected " ++ kind.name ++ ", found `" ++ found.shown ++ "`"
  | .expectedType found => "expected a type, found `" ++ found.shown ++ "`"
  | .expectedValue found => "expected a value, found `" ++ found.shown ++ "`"
  | .expectedLabel found => "expected `label`, found `" ++ found.shown ++ "`"
  | .expectedTimes => "expected `x` in array type"
  | .expectedTo => "expected `to` in bitcast"
  | .expectedGlobal name => "expected `global` in definition of @" ++ name
  | .nonzeroGlobal name found =>
    "global @" ++ name ++ " must be zero-initialized, found `" ++ found.shown ++ "`"
  | .topLevel found => "unexpected `" ++ found.shown ++ "` at top level"
  | .missingBody function => "missing body for @" ++ function
  | .unterminatedBody function => "unterminated body for @" ++ function
  | .unknownPredicate keyword => "unknown icmp predicate `" ++ keyword ++ "`"
  | .numeral fault => fault.message

/-- A fault and the line of the token it was found at. -/
structure ParseError where
  line : Nat
  fault : ParseFault
  deriving DecidableEq, Repr

end IrAsm
