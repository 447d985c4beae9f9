import IrAsm.Config
import IrAsm.Flow.Liveness
import IrAsm.Graph.Coloring
import IrAsm.X86.Frame
import IrAsm.X86.Sequence

/-!
# Instruction selection

`Context.emit` gives the lines of a function: the prologue, the code of each program point in order,
and the epilogue. Points are taken one at a time. `State` carries what earlier points change for
later ones: registers whose value became known, and stack locals that were bound to an argument.
-/

namespace IrAsm.X86

/-- What selection reads. -/
structure Context where
  function : Function
  flow : Flow
  liveness : Liveness
  coloring : Coloring
  config : Config

/-- What selection changes from point to point. -/
structure State where
  frame : Frame
  /-- The registers that were folded to a value. -/
  known : Std.ExtTreeMap String Word

namespace State

/-- Takes `value` for the value of the result, if there is a result. -/
def learn (s : State) (result : Option String) (value : Word) : State :=
  match result with
  | some name => { s with known := s.known.insert name value }
  | none => s

end State

namespace Context

/-! ## Operands -/

/-- The register that `name` was colored with. -/
def colored (c : Context) (name : String) : Except Error Reg :=
  match (c.coloring.get? name).bind Reg.ofColor? with
  | some r => .ok r
  | none => .error (.internal c.function.name (.noRegister name))

/-- The register for the result. -/
def dest (c : Context) (i : IrAsm.Instr) : Except Error Reg :=
  match i.result with
  | some name => c.colored name
  | none => .error (.malformed (.missingResult i))

/-- The index of `name` among the parameters that arrive on the stack. -/
def stackParam? (c : Context) (name : String) : Option Nat :=
  (c.function.paramIndex? name).filter (Reg.args.length ≤ ·)

/-- Where the value of a virtual register is. -/
def register (c : Context) (s : State) (name : String) : Except Error Loc :=
  match s.known[name]?, c.stackParam? name with
  | some value, _ => .ok (.imm value)
  | none, some index => .ok (.frame (-Frame.argumentDepth index))
  | none, none =>
    if s.frame.contains name then .error (.malformed (.slotAsValue name c.function.name))
    else (c.colored name).map .reg

/-- Where an operand is that is read as a value. -/
def value (c : Context) (s : State) : Operand → Except Error Loc
  | .imm value => .ok (.imm value)
  | .reg name => c.register s name
  | .global name => .ok (.global name)
  | a => .error (.malformed (.notValue a c.function.name))

/-- The memory that an operand is the address of, and the code that makes the address available. -/
def memory (c : Context) (s : State) : Operand → Except Error (List Instr × Loc)
  | .reg name =>
    match s.frame.displacement? name with
    | some displacement => .ok ([], .frame displacement)
    | none => do
      let (code, r) := Sequence.stage .rax (← c.register s name)
      return (code, .indirect r)
  | .global name =>
    let (code, r) := Sequence.stage .rax (.global name)
    .ok (code, .indirect r)
  | a => .error (.malformed (.notAddress a c.function.name))

/-- The operand at position `n`. -/
def operand (i : IrAsm.Instr) (n : Nat) : Except Error Operand :=
  match i.operands[n]? with
  | some a => .ok a
  | none => .error (.malformed (.missingOperand i n))

/-! ## Instructions -/

/-- The state and the code after an instruction. -/
abbrev Selected := Except Error (State × List Instr)

/-- The value of an operation on two immediates, if folding is on. -/
def fold? (c : Context) (eval? : Word → Word → Option Word) : Loc → Loc → Option Word
  | .imm x, .imm y => if c.config.optimize then eval? x y else none
  | _, _ => none

/-- An operation on two values: folded to an immediate, or else done by `code`. -/
def selectPair (c : Context) (s : State) (i : IrAsm.Instr) (eval? : Word → Word → Option Word)
    (code : Loc → Loc → Reg → List Instr) : Selected := do
  let lhs ← c.value s (← operand i 0)
  let rhs ← c.value s (← operand i 1)
  let dst ← c.dest i
  match c.fold? eval? lhs rhs with
  | some v => return (s.learn i.result v, [.mov (.imm v) (.reg dst)])
  | none => return (s, code lhs rhs dst)

/-- The label of a block of this function. -/
def blockLabel (c : Context) (label : String) : Label := .block c.function.name label

/-- A branch at `idx`. The next point is reached without a jump. A conditional branch has to be
followed by the block that is taken when the condition holds. -/
def selectBranch (c : Context) (s : State) (idx : Nat) (i : IrAsm.Instr) : Selected :=
  match i.operands with
  | [.label target] => do
    let start ← c.flow.start c.function.name target
    return (s, if start = idx + 1 then [] else [.jmp (c.blockLabel target)])
  | [cond, .label whenTrue, .label whenFalse] => do
    let start ← c.flow.start c.function.name whenTrue
    if start ≠ idx + 1 then
      throw (.internal c.function.name (.noFallThrough idx whenTrue))
    let target := c.blockLabel whenFalse
    match ← c.value s cond, c.config.optimize with
    | .imm v, true => return (s, if v = 0 then [.jmp target] else [])
    | l, _ => return (s, Sequence.jumpIfZero l target)
  | _ => .error (.malformed (.branchShape i c.function.name))

/-- Does `name` have to be saved around the call `i`, being in the register `r`? -/
def isPreserved (c : Context) (s : State) (i : IrAsm.Instr) (r : Reg) (name : String) : Bool :=
  i.result != some name && (c.register s name).toOption == some (.reg r)

/-- The registers to save around the call `i` at `idx`: those that hold a value live after it and
that the callee may overwrite. -/
def preserved (c : Context) (s : State) (idx : Nat) (i : IrAsm.Instr) : List Reg :=
  let live := (c.liveness.liveOut.getD idx ∅).toList
  Reg.callerSaved.filter fun r => live.any (c.isPreserved s i r)

def selectCall (c : Context) (s : State) (idx : Nat) (i : IrAsm.Instr) : Selected :=
  match i.operands.getLast? with
  | some (.callee callee) => do
    let args ← i.operands.dropLast.mapM (c.value s)
    let code := Sequence.call (c.preserved s idx i) args callee
    if i.result.isSome then
      return (s, code ++ [.mov (.reg .rax) (.reg (← c.dest i))])
    else
      return (s, code)
  | _ => .error (.malformed (.callTarget i))

def selectRet (c : Context) (s : State) (i : IrAsm.Instr) : Selected := do
  let exit : Instr := .jmp (.exit c.function.name)
  match i.operands with
  | [] => return (s, [exit])
  | a :: _ => return (s, [.mov (← c.value s a) (.reg .rax), exit])

/-- The address of an element. All indices but the last have to be zero. -/
def selectAddress (c : Context) (s : State) (i : IrAsm.Instr) : Selected :=
  match i.operands with
  | base :: first :: rest =>
    let index := (first :: rest).getLast (List.cons_ne_nil _ _)
    if (first :: rest).dropLast.all (· == .imm 0) then do
      let dst ← c.dest i
      let index ← c.value s index
      let base ← c.value s base
      return (s, Sequence.elementAddress base index dst)
    else .error (.malformed (.addressShape i))
  | _ => .error (.malformed (.addressShape i))

def selectBitcast (c : Context) (s : State) (i : IrAsm.Instr) : Selected := do
  let src ← c.value s (← operand i 0)
  let dst ← c.dest i
  return (s, Sequence.move src (.reg dst))

def selectLoad (c : Context) (s : State) (i : IrAsm.Instr) : Selected := do
  let dst ← c.dest i
  let (code, src) ← c.memory s (← operand i 0)
  return (s, code ++ Sequence.move src (.reg dst))

/-- The argument to bind, if a store puts an argument that is on the stack into a stack local. -/
def bound? (c : Context) (s : State) : Operand → Operand → Option (String × Nat)
  | .reg arg, .reg name =>
    if s.frame.contains name then (c.stackParam? arg).map (name, ·) else none
  | _, _ => none

/-- A store. An argument that is on the stack already is not copied into a stack local: the local is
bound to it. -/
def selectStore (c : Context) (s : State) (i : IrAsm.Instr) : Selected := do
  let src ← operand i 0
  let pointer ← operand i 1
  match c.bound? s src pointer with
  | some (name, index) => return ({ s with frame := s.frame.bindArgument name index }, [])
  | none =>
    let src ← c.value s src
    let (code, dst) ← c.memory s pointer
    return (s, code ++ Sequence.move src dst)

/-- The code of the instruction at `idx`. -/
def select (c : Context) (s : State) (idx : Nat) (i : IrAsm.Instr) : Selected :=
  match i.opcode with
  | .arith op => c.selectPair s i op.eval? (Sequence.arith op)
  | .icmp p => c.selectPair s i (fun x y => some (p.eval x y)) (Sequence.compare p)
  | .br => c.selectBranch s idx i
  | .call => c.selectCall s idx i
  | .ret => c.selectRet s i
  | .getelementptr => c.selectAddress s i
  | .bitcast => c.selectBitcast s i
  | .load => c.selectLoad s i
  | .store => c.selectStore s i
  | .alloca => .ok (s, [])
  | .unsupported name => .error (.unsupported c.function.name name)

/-! ## Functions -/

/-- The registers that the function saves: those in use, or the whole palette given to it. -/
def saved (c : Context) : List Reg :=
  Reg.saved (if c.config.optimize then c.coloring.colorsNeeded else c.config.registers)

/-- Copies the arguments in registers to the colors of their parameters. -/
def paramCopies (c : Context) : List Instr :=
  (c.function.params.zip Reg.args).filterMap fun (p, arg) =>
    ((c.coloring.get? p.name).bind Reg.ofColor?).map fun r => .mov (.reg arg) (.reg r)

def initial (c : Context) : State := ⟨Frame.plan c.flow.allocas, ∅⟩

/-- Sets up the frame, saves registers and takes the arguments. -/
def entryCode (c : Context) : List Instr :=
  [.push (.reg .rbp), .mov (.reg .rsp) (.reg .rbp),
    .alu .sub (.imm (BitVec.ofNat 64 c.initial.frame.size)) .rsp] ++
    c.saved.map (fun r => .push (.reg r)) ++ c.paramCopies

/-- Restores registers and returns. -/
def exitCode (c : Context) : List Instr :=
  c.saved.reverse.map (fun r => .pop (.reg r)) ++
    [.mov (.reg .rbp) (.reg .rsp), .pop (.reg .rbp), .ret]

def prologue (c : Context) : List Line :=
  [.globl c.function.name, .label (.entry c.function.name)] ++ c.entryCode.map .code

def epilogue (c : Context) : List Line :=
  .label (.exit c.function.name) :: c.exitCode.map .code

/-- What stands before the code of a point: the labels of the blocks that start there, and the text
of the instruction if it is asked for. -/
def heading (c : Context) (idx : Nat) (i : IrAsm.Instr) : List Line :=
  (c.flow.labelsAt idx).map (fun l => .label (c.blockLabel l)) ++
    if c.config.annotate then [.comment i.text] else []

/-- The lines of the points, given with their indices. -/
def emitPoints (c : Context) : State → List (Point × Nat) → Except Error (List Line)
  | _, [] => .ok []
  | s, (p, idx) :: rest => do
    let (s, code) ← c.select s idx p.instr
    let lines ← c.emitPoints s rest
    return c.heading idx p.instr ++ code.map .code ++ lines

/-- The lines of the function. -/
def emit (c : Context) : Except Error (List Line) := do
  let body ← c.emitPoints c.initial c.flow.points.zipIdx
  return c.prologue ++ body ++ c.epilogue

end Context

end IrAsm.X86
