import IrAsm.Opcode
import IrAsm.Ty

/-!
# Instructions

An instruction has an opcode, operands, a result name if it has a value, and the type written beside
the opcode. Its text is one line.
-/

namespace IrAsm

inductive Operand where
  /-- A virtual register: a temporary, a parameter or a stack local. -/
  | reg (name : String)
  | imm (value : Word)
  | global (name : String)
  | label (name : String)
  | callee (name : String)
  deriving DecidableEq, Repr

namespace Operand

def text : Operand → String
  | .reg name => "%" ++ name
  | .imm value => value.text
  | .global name => "@" ++ name
  | .label name => "label %" ++ name
  | .callee name => "@" ++ name

def reg? : Operand → Option String
  | .reg name => some name
  | _ => none

def label? : Operand → Option String
  | .label name => some name
  | _ => none

end Operand

structure Instr where
  opcode : Opcode
  operands : List Operand
  result : Option String
  ty : Ty
  deriving DecidableEq, Repr

namespace Instr

/-- The operands, with commas between them. -/
def operandsText : List Operand → String
  | [] => ""
  | [a] => a.text
  | a :: b :: rest => a.text ++ ", " ++ operandsText (b :: rest)

/-- The result and its equals sign, if there is a result. -/
def resultText : Option String → String
  | none => ""
  | some name => "%" ++ name ++ " = "

def text (i : Instr) : String :=
  resultText i.result ++ i.opcode.text ++ " " ++ i.ty.text ++
    if i.operands.isEmpty then "" else " " ++ operandsText i.operands

/-- The labels among the operands, in order. -/
def targets (i : Instr) : List String := i.operands.filterMap Operand.label?

end Instr

end IrAsm
