import IrAsm.Opcode
import IrAsm.X86.Reg

/-!
# Assembly code

Operands, instructions and lines of AT&T assembly, and their text. A line is an instruction, a
label, a directive or a comment. All instructions are 64 bits wide but `set`, which writes the low
byte of `%rax`.
-/

namespace IrAsm.X86

/-- Where a value is found. -/
inductive Loc where
  | imm (value : Word)
  | reg (r : Reg)
  /-- Memory at a displacement from `%rbp`. -/
  | frame (displacement : Int)
  /-- The memory word that holds the address of a global. -/
  | global (name : String)
  /-- Memory at the address in a register. -/
  | indirect (r : Reg)
  deriving DecidableEq, Repr

namespace Loc

def isMemory : Loc → Bool
  | .frame _ | .global _ | .indirect _ => true
  | _ => false

def text : Loc → String
  | .imm value => "$" ++ value.text
  | .reg r => r.text
  | .frame displacement => toString displacement ++ "(%rbp)"
  | .global name => name ++ "@GOTPCREL(%rip)"
  | .indirect r => "(" ++ r.text ++ ")"

end Loc

/-- The operations that combine a source with a destination register. -/
inductive Alu where
  | add
  | sub
  | or
  | and
  deriving DecidableEq, Repr

def Alu.text : Alu → String
  | .add => "addq"
  | .sub => "subq"
  | .or => "orq"
  | .and => "andq"

/-- The instruction that sets `%al` to the outcome of a comparison. -/
def setText : Predicate → String
  | .eq => "sete"
  | .ne => "setne"
  | .slt => "setl"
  | .sle => "setle"
  | .sgt => "setg"
  | .sge => "setge"

/-- The labels of a function. -/
inductive Label where
  | entry (function : String)
  | block (function label : String)
  /-- Where every `ret` leads. -/
  | exit (function : String)
  deriving DecidableEq, Repr

/-- A block label has the name of the function in it, so that functions may use the same names for
their blocks. -/
def Label.text : Label → String
  | .entry function => function
  | .block function label => ".L" ++ function ++ "_" ++ label
  | .exit function => function ++ "_end"

inductive Instr where
  | mov (src dst : Loc)
  | push (src : Loc)
  | pop (dst : Loc)
  | alu (op : Alu) (src : Loc) (dst : Reg)
  /-- Compares the second operand with the first. -/
  | cmp (src dst : Loc)
  /-- Sets `%al` to the outcome of the last comparison. -/
  | set (p : Predicate)
  /-- Multiplies `%rax`, with the high half of the product in `%rdx`. -/
  | imul (src : Loc)
  /-- Extends the sign of `%rax` into `%rdx`. -/
  | cqto
  /-- Divides `%rdx` and `%rax` together: the quotient goes to `%rax`, the remainder to `%rdx`. -/
  | idiv (src : Loc)
  /-- Computes `base + 8 * index`. -/
  | lea (base index dst : Reg)
  | jmp (target : Label)
  /-- Jumps if the last comparison found equal operands. -/
  | je (target : Label)
  | call (callee : String)
  | ret
  deriving DecidableEq, Repr

def Instr.text : Instr → String
  | .mov src dst => "movq " ++ src.text ++ ", " ++ dst.text
  | .push src => "pushq " ++ src.text
  | .pop dst => "popq " ++ dst.text
  | .alu op src dst => op.text ++ " " ++ src.text ++ ", " ++ dst.text
  | .cmp src dst => "cmpq " ++ src.text ++ ", " ++ dst.text
  | .set p => setText p ++ " %al"
  | .imul src => "imulq " ++ src.text
  | .cqto => "cqto"
  | .idiv src => "idivq " ++ src.text
  | .lea base index dst => "leaq (" ++ base.text ++ "," ++ index.text ++ ",8), " ++ dst.text
  | .jmp target => "jmp " ++ target.text
  | .je target => "je " ++ target.text
  | .call callee => "call " ++ callee ++ "@PLT"
  | .ret => "retq"

inductive Line where
  /-- Makes a function visible to the linker. -/
  | globl (function : String)
  | label (l : Label)
  | comment (text : String)
  | code (i : Instr)
  deriving DecidableEq, Repr

def Line.text : Line → String
  | .globl function => "\t.globl " ++ function
  | .label l => "\t" ++ l.text ++ ":"
  | .comment text => "  # " ++ text
  | .code i => i.text

end IrAsm.X86
