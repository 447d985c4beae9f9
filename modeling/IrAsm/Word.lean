import IrAsm.Text.Decimal

/-!
# Machine words

Values are 64-bit words in two's complement: arithmetic wraps, division truncates toward zero, and
the text of a word is its signed value in decimal.
-/

namespace IrAsm

/-- A 64-bit word. -/
abbrev Word := BitVec 64

namespace Word

/-- The signed value in decimal. -/
def text (w : Word) : String := toString w.toInt

/-- Reads a signed 64-bit numeral. -/
def ofText (s : String) : Except NumeralFault Word :=
  (Decimal.signed64 s.toList).map (BitVec.ofInt 64)

/-- Does signed division of `x` by `y` have no 64-bit result? That is so for a zero divisor, and for
the one quotient that is too large. -/
def divFaults (x y : Word) : Bool := y == 0 || (x == BitVec.intMin 64 && y == -1)

/-- The quotient of signed division, rounded toward zero. -/
def div? (x y : Word) : Option Word := if divFaults x y then none else some (x.sdiv y)

/-- The remainder of signed division; it has the sign of the dividend. -/
def rem? (x y : Word) : Option Word := if divFaults x y then none else some (x.srem y)

end Word

end IrAsm
