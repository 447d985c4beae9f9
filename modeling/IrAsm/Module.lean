import IrAsm.Instr

/-!
# Modules

A module holds global variables, all zero at the start, and functions. A function is a list of basic
blocks; only its first block may be without a label.
-/

namespace IrAsm

structure Block where
  label : Option String
  instrs : List Instr
  deriving DecidableEq, Repr

structure Param where
  name : String
  ty : Ty
  deriving DecidableEq, Repr

structure Function where
  name : String
  ret : Ty
  params : List Param
  blocks : List Block
  deriving DecidableEq, Repr

namespace Function

/-- The position of the first parameter of that name. It decides in which register or stack word the
parameter arrives. -/
def paramIndex? (f : Function) (name : String) : Option Nat := f.params.findIdx? (·.name == name)

/-- All instructions in block order. -/
def instrs (f : Function) : List Instr := f.blocks.flatMap Block.instrs

/-- The labels of the blocks, in order. -/
def labels (f : Function) : List String := f.blocks.filterMap Block.label

end Function

structure Global where
  name : String
  ty : Ty
  deriving DecidableEq, Repr

structure Module where
  globals : List Global
  functions : List Function
  deriving DecidableEq, Repr

end IrAsm
