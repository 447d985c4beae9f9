/-!
# Decimal numerals

Reading numerals of a bounded width. A numeral is a nonempty run of ASCII digits behind an optional
sign; `unsigned` knows `+` only, `signed` also `-`. Values out of range are refused, not wrapped.
-/

namespace IrAsm

/-- Why a text is no numeral of the wanted width. -/
inductive NumeralFault where
  | empty
  | invalidDigit
  | tooLarge
  | tooSmall
  deriving DecidableEq, Repr

/-- The wording of a numeral fault. -/
def NumeralFault.message : NumeralFault → String
  | .empty => "cannot parse integer from empty string"
  | .invalidDigit => "invalid digit found in string"
  | .tooLarge => "number too large to fit in target type"
  | .tooSmall => "number too small to fit in target type"

namespace Decimal

/-- The value of a nonempty run of digits. -/
def digits (ds : List Char) : Except NumeralFault Nat :=
  if ds.isEmpty || !ds.all Char.isDigit then .error .invalidDigit
  else .ok (Nat.ofDigitChars 10 ds 0)

/-- The run of digits `ds` as a value of at most `max`. -/
def atMost (max : Nat) (ds : List Char) : Except NumeralFault Nat := do
  let n ← digits ds
  if n ≤ max then .ok n else .error .tooLarge

/-- A numeral for `0, …, max`. -/
def unsigned (max : Nat) : List Char → Except NumeralFault Nat
  | [] => .error .empty
  | '+' :: ds => atMost max ds
  | ds => atMost max ds

/-- A numeral for `-(max + 1), …, max`. -/
def signed (max : Nat) : List Char → Except NumeralFault Int
  | '-' :: ds => do
    let n ← digits ds
    if n ≤ max + 1 then .ok (-(n : Int)) else .error .tooSmall
  | cs => do
    let n ← unsigned max cs
    .ok n

/-- A numeral for an unsigned value of 32 bits. -/
def unsigned32 (cs : List Char) : Except NumeralFault Nat := unsigned 0xffffffff cs

/-- A numeral for an unsigned value of 64 bits. -/
def unsigned64 (cs : List Char) : Except NumeralFault Nat := unsigned 0xffffffffffffffff cs

/-- A numeral for a signed value of 64 bits. -/
def signed64 (cs : List Char) : Except NumeralFault Int := signed 0x7fffffffffffffff cs

end Decimal

end IrAsm
