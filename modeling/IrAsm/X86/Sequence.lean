import IrAsm.X86.Code

/-!
# Code sequences

The instructions for one operation, given where its operands are and which register takes the
result. The result register may be one that an operand is in.
-/

namespace IrAsm.X86

namespace Sequence

/-- Moves from `src` to `dst`; over the stack if both are memory. -/
def move (src dst : Loc) : List Instr :=
  if src.isMemory && dst.isMemory then [.push src, .pop dst] else [.mov src dst]

/-- Puts an immediate into `scratch` and leaves everything else where it is. -/
def stageImm (scratch : Reg) : Loc → List Instr × Loc
  | .imm value => ([.mov (.imm value) (.reg scratch)], .reg scratch)
  | l => ([], l)

/-- Puts what is in no register into `scratch`. -/
def stage (scratch : Reg) : Loc → List Instr × Reg
  | .reg r => ([], r)
  | l => ([.mov l (.reg scratch)], scratch)

/-- A commutative operation. If `rhs` is in `dst` the operands change places, since `dst` is written
first. -/
def commutative (op : Alu) (lhs rhs : Loc) (dst : Reg) : List Instr :=
  if rhs = .reg dst then [.mov rhs (.reg dst), .alu op lhs dst]
  else [.mov lhs (.reg dst), .alu op rhs dst]

/-- Subtraction. If `rhs` is in `dst` it is put aside first. -/
def subtract (lhs rhs : Loc) (dst : Reg) : List Instr :=
  if rhs = .reg dst then
    [.mov rhs (.reg .rax), .mov lhs (.reg dst), .alu .sub (.reg .rax) dst]
  else [.mov lhs (.reg dst), .alu .sub rhs dst]

def multiply (lhs rhs : Loc) (dst : Reg) : List Instr :=
  let (staging, factor) := stageImm .rcx rhs
  [.mov lhs (.reg .rax)] ++ staging ++ [.imul factor, .mov (.reg .rax) (.reg dst)]

/-- Division; `half` is the register that holds the wanted part of its outcome. -/
def divide (half : Reg) (lhs rhs : Loc) (dst : Reg) : List Instr :=
  let (staging, divisor) := stageImm .rcx rhs
  [.mov lhs (.reg .rax)] ++ staging ++ [.cqto, .idiv divisor, .mov (.reg half) (.reg dst)]

def arith : Arith → Loc → Loc → Reg → List Instr
  | .add => commutative .add
  | .or => commutative .or
  | .and => commutative .and
  | .sub => subtract
  | .mul => multiply
  | .sdiv => divide .rax
  | .srem => divide .rdx

/-- Comparison. `%rax` is cleared, and its low byte set to the outcome. -/
def compare (p : Predicate) (lhs rhs : Loc) (dst : Reg) : List Instr :=
  let zero : Instr := .mov (.imm 0) (.reg .rax)
  let test := match lhs with
    | .reg _ => [zero, .cmp rhs lhs]
    | _ => [.mov lhs (.reg .rax), .cmp rhs (.reg .rax), zero]
  test ++ [.set p, .mov (.reg .rax) (.reg dst)]

/-- The address of an element: `base + 8 * index`. -/
def elementAddress (base index : Loc) (dst : Reg) : List Instr :=
  let scratch : Reg := if index = .reg .rcx then .rax else .rcx
  let (baseCode, b) := stage scratch base
  let (indexCode, i) := stage .rax index
  baseCode ++ indexCode ++ [.lea b i dst]

/-- A jump to `target` if `cond` is zero. -/
def jumpIfZero (cond : Loc) (target : Label) : List Instr :=
  match cond with
  | .imm _ => [.mov cond (.reg .rax), .cmp (.imm 0) (.reg .rax), .je target]
  | _ => [.cmp (.imm 0) cond, .je target]

/-- A call that keeps the registers `preserved`. The first arguments go into registers, the rest
onto the stack, the last one first. -/
def call (preserved : List Reg) (args : List Loc) (callee : String) : List Instr :=
  let inRegs := (args.zip Reg.args).map fun (a, r) => Instr.mov a (.reg r)
  let stacked := args.drop Reg.args.length
  preserved.map (fun r => Instr.push (.reg r)) ++ inRegs ++ stacked.reverse.map Instr.push ++
    [.call callee] ++
    (if stacked.isEmpty then []
      else [.alu .add (.imm (BitVec.ofNat 64 (8 * stacked.length))) .rsp]) ++
    preserved.reverse.map fun r => Instr.pop (.reg r)

end Sequence

end IrAsm.X86
