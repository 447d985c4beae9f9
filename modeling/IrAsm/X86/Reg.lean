/-!
# Registers

The registers in use and their parts: the palette holds colored values, four registers pass the
first arguments, `%rax` returns the result. `%rax`, `%rcx` and `%rdx` are also scratch.
-/

namespace IrAsm.X86

inductive Reg where
  | rax
  | rcx
  | rdx
  | rsi
  | rdi
  | rbp
  | rsp
  | r8
  | r9
  | r10
  | r11
  | r12
  | r13
  | r14
  | r15
  deriving DecidableEq, Repr

namespace Reg

def text : Reg → String
  | .rax => "%rax"
  | .rcx => "%rcx"
  | .rdx => "%rdx"
  | .rsi => "%rsi"
  | .rdi => "%rdi"
  | .rbp => "%rbp"
  | .rsp => "%rsp"
  | .r8 => "%r8"
  | .r9 => "%r9"
  | .r10 => "%r10"
  | .r11 => "%r11"
  | .r12 => "%r12"
  | .r13 => "%r13"
  | .r14 => "%r14"
  | .r15 => "%r15"

/-- The registers that hold colored values, color zero first. -/
def palette : List Reg := [.r8, .r9, .r10, .r11, .r12, .r13, .r14, .r15]

/-- The register of a color. -/
def ofColor? (color : Nat) : Option Reg := palette[color]?

/-- The registers that a function saves if it has `count` colors in use. -/
def saved (count : Nat) : List Reg := palette.take count

/-- The registers of the first arguments. Later arguments go on the stack. -/
def args : List Reg := [.rdi, .rsi, .rdx, .rcx]

/-- The registers of the palette that a callee may overwrite, in the order in which they are saved
around a call: that of their names as text. -/
def callerSaved : List Reg := [.r10, .r11, .r8, .r9]

end Reg

end IrAsm.X86
