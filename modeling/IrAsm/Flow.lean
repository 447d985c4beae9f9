import IrAsm.Error
import IrAsm.NameSet

/-!
# Program points

`Flow.build` flattens the blocks of a function into program points: one for each instruction that is
no `alloca`, with the registers it reads and writes and the points that may follow it. The names
that `alloca` defines are stack locals; they stand for memory and are not read as values.
-/

namespace IrAsm

structure Point where
  instr : Instr
  /-- The points that may come next, in the order of the operands. -/
  succs : List Nat
  uses : NameSet
  defs : NameSet
  deriving DecidableEq

structure Flow where
  points : List Point
  /-- The point at which each labelled block starts. -/
  labels : List (String × Nat)
  /-- The stack locals, in the order in which they are allocated. -/
  allocas : List String
  deriving DecidableEq

namespace Instr

/-- The registers that an instruction reads, stack locals apart. -/
def reads (i : Instr) (allocas : List String) : NameSet :=
  NameSet.ofList ((i.operands.filterMap Operand.reg?).filter (· ∉ allocas))

/-- The register that an instruction writes; `store` and `br` write none. -/
def writes (i : Instr) : NameSet :=
  match i.opcode with
  | .store | .br => ∅
  | _ => NameSet.ofList i.result.toList

end Instr

namespace Flow

def empty : Flow := ⟨[], [], []⟩

/-- The point at which the block of that label starts. -/
def start? (fl : Flow) (label : String) : Option Nat := fl.labels.lookup label

/-- Lets `label` start at `n`. A label that is known keeps its place in the list. -/
def setStart (label : String) (n : Nat) : List (String × Nat) → List (String × Nat)
  | [] => [(label, n)]
  | (l, m) :: rest => if l = label then (l, n) :: rest else (l, m) :: setStart label n rest

/-- Adds an instruction, its successors not yet known. -/
def addInstr (fl : Flow) (i : Instr) : Flow :=
  if i.opcode = .alloca then
    { fl with allocas := fl.allocas ++ i.result.toList.filter (· ∉ fl.allocas) }
  else
    { fl with points := fl.points ++ [⟨i, [], i.reads fl.allocas, i.writes⟩] }

/-- Adds a block and its label. -/
def addBlock (fl : Flow) (b : Block) : Flow :=
  let labels := match b.label with
    | some label => setStart label fl.points.length fl.labels
    | none => fl.labels
  b.instrs.foldl addInstr { fl with labels }

/-- All blocks, successors not yet known. -/
def unlinked (f : Function) : Flow := f.blocks.foldl addBlock empty

/-- The point at which the block of that label starts, which has to exist. -/
def start (fl : Flow) (function label : String) : Except Error Nat :=
  match fl.start? label with
  | some n => .ok n
  | none => .error (.malformed (.undefinedLabel label function))

/-- The successors of the instruction at `idx`: the targets of a branch, else the next point. The
last point has none. -/
def succsOf (fl : Flow) (function : String) (i : Instr) (idx : Nat) : Except Error (List Nat) :=
  if idx + 1 = fl.points.length then .ok []
  else if i.opcode = .br then i.targets.mapM (fl.start function)
  else .ok [idx + 1]

/-- Fills in the successors of a point. -/
def link (fl : Flow) (function : String) (p : Point × Nat) : Except Error Point := do
  return { p.1 with succs := ← fl.succsOf function p.1.instr p.2 }

/-- The program points of a function. -/
def build (f : Function) : Except Error Flow := do
  let fl := unlinked f
  let points ← fl.points.zipIdx.mapM (fl.link f.name)
  return { fl with points }

/-- The labels of the blocks that start at `idx`. A block of nothing but `alloca` starts where the
next block does. -/
def labelsAt (fl : Flow) (idx : Nat) : List String :=
  (fl.labels.filter (·.2 == idx)).map Prod.fst

/-- All registers that are read or written. -/
def temporaries (fl : Flow) : NameSet :=
  NameSet.unions (fl.points.map fun p => p.uses ∪ p.defs)

/-- Bytes of stack for the locals, eight each. -/
def frameSize (fl : Flow) : Nat := 8 * fl.allocas.length

/-- All successors are points. -/
def inRange (fl : Flow) : Bool := fl.points.all fun p => p.succs.all (· < fl.points.length)

end Flow

end IrAsm
