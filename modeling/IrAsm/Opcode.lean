import IrAsm.Word

/-!
# Operations

The operations of the IR: arithmetic, comparison, memory, control. `Arith.eval?` and
`Predicate.eval` give arithmetic and comparison their values on 64-bit words. An operation that the
library does not know is kept by name, so that it can be reported where it occurs.
-/

namespace IrAsm

/-- The signed comparisons. -/
inductive Predicate where
  | eq
  | ne
  | slt
  | sle
  | sgt
  | sge
  deriving DecidableEq, Repr

namespace Predicate

def text : Predicate → String
  | .eq => "eq"
  | .ne => "ne"
  | .slt => "slt"
  | .sle => "sle"
  | .sgt => "sgt"
  | .sge => "sge"

def ofText? : String → Option Predicate
  | "eq" => some .eq
  | "ne" => some .ne
  | "slt" => some .slt
  | "sle" => some .sle
  | "sgt" => some .sgt
  | "sge" => some .sge
  | _ => none

theorem ofText?_text (p : Predicate) : ofText? p.text = some p := by cases p <;> rfl

/-- Does the comparison hold? -/
def holds : Predicate → Word → Word → Bool
  | .eq, x, y => x == y
  | .ne, x, y => x != y
  | .slt, x, y => x.slt y
  | .sle, x, y => x.sle y
  | .sgt, x, y => y.slt x
  | .sge, x, y => y.sle x

/-- The comparison as a word: one if it holds and zero otherwise. -/
def eval (p : Predicate) (x y : Word) : Word := if p.holds x y then 1 else 0

end Predicate

/-- The two-operand arithmetic operations. -/
inductive Arith where
  | add
  | sub
  | mul
  | sdiv
  | srem
  | or
  | and
  deriving DecidableEq, Repr

namespace Arith

def text : Arith → String
  | .add => "add"
  | .sub => "sub"
  | .mul => "mul"
  | .sdiv => "sdiv"
  | .srem => "srem"
  | .or => "or"
  | .and => "and"

def ofText? : String → Option Arith
  | "add" => some .add
  | "sub" => some .sub
  | "mul" => some .mul
  | "sdiv" => some .sdiv
  | "srem" => some .srem
  | "or" => some .or
  | "and" => some .and
  | _ => none

theorem ofText?_text (a : Arith) : ofText? a.text = some a := by cases a <;> rfl

/-- The value of the operation; a division that faults has none. -/
def eval? : Arith → Word → Word → Option Word
  | .add, x, y => some (x + y)
  | .sub, x, y => some (x - y)
  | .mul, x, y => some (x * y)
  | .sdiv, x, y => x.div? y
  | .srem, x, y => x.rem? y
  | .or, x, y => some (x ||| y)
  | .and, x, y => some (x &&& y)

end Arith

inductive Opcode where
  | alloca
  | store
  | load
  | br
  | icmp (p : Predicate)
  | arith (op : Arith)
  | call
  | ret
  | getelementptr
  | bitcast
  | unsupported (name : String)
  deriving DecidableEq, Repr

namespace Opcode

def text : Opcode → String
  | .alloca => "alloca"
  | .store => "store"
  | .load => "load"
  | .br => "br"
  | .icmp p => "icmp " ++ p.text
  | .arith op => op.text
  | .call => "call"
  | .ret => "ret"
  | .getelementptr => "getelementptr"
  | .bitcast => "bitcast"
  | .unsupported name => name

/-- The opcode of a mnemonic. A comparison also needs its predicate, so `icmp` alone names none. -/
def ofMnemonic (mnemonic : String) : Opcode :=
  match mnemonic with
  | "alloca" => .alloca
  | "store" => .store
  | "load" => .load
  | "br" => .br
  | "call" => .call
  | "ret" => .ret
  | "getelementptr" => .getelementptr
  | "bitcast" => .bitcast
  | other =>
    match Arith.ofText? other with
    | some op => .arith op
    | none => .unsupported other

/-- The opcode with the given text: a mnemonic, or `icmp` and a predicate. -/
def ofText (s : String) : Opcode :=
  match s with
  | "icmp eq" => .icmp .eq
  | "icmp ne" => .icmp .ne
  | "icmp slt" => .icmp .slt
  | "icmp sle" => .icmp .sle
  | "icmp sgt" => .icmp .sgt
  | "icmp sge" => .icmp .sge
  | other => ofMnemonic other

theorem ofText_text {op : Opcode} (h : ∀ name, op ≠ .unsupported name) : ofText op.text = op := by
  cases op with
  | icmp p => cases p <;> rfl
  | arith a => cases a <;> rfl
  | unsupported name => exact absurd rfl (h name)
  | _ => rfl

def isUnsupported : Opcode → Bool
  | .unsupported _ => true
  | _ => false

def isArith : Opcode → Bool
  | .arith _ => true
  | _ => false

/-- Ends a basic block. -/
def isTerminator : Opcode → Bool
  | .br | .ret => true
  | _ => false

end Opcode

end IrAsm
