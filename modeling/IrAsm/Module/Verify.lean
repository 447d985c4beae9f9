import IrAsm.Error
import IrAsm.NameSet

/-!
# Verification

`Module.verify` checks the rules that the rest of the library takes for granted. Global names are
distinct. A function has a block; only its first block may be without a label; labels are distinct;
each block has instructions and ends with `br` or `ret`; no name is defined twice, parameters
included; labels that are mentioned exist; a branch has one operand or three. The first rule found
broken is reported.
-/

namespace IrAsm

namespace Block

/-- The name of a block in messages. -/
def shownName (b : Block) : String := b.label.getD "<entry>"

/-- Adds the label of a block to those `seen` before it. -/
def checkLabel (seen : NameSet) (b : Block) (isEntry : Bool) : Except VerifyFault NameSet :=
  match b.label with
  | some label =>
    if label ∈ seen then .error (.repeatedLabel label) else .ok (seen.insert label)
  | none => if isEntry then .ok seen else .error .unlabeledBlock

end Block

namespace Function

/-- Collects the labels of the blocks behind the first one. -/
def checkLaterLabels (seen : NameSet) : List Block → Except VerifyFault NameSet
  | [] => .ok seen
  | b :: rest => do checkLaterLabels (← b.checkLabel seen false) rest

/-- Collects the labels of all blocks. -/
def checkLabels : List Block → Except VerifyFault NameSet
  | [] => .ok ∅
  | entry :: rest => do checkLaterLabels (← entry.checkLabel ∅ true) rest

end Function

namespace Instr

/-- Adds the result to the names `defined` before it. -/
def checkResult (defined : NameSet) (i : Instr) : Except VerifyFault NameSet :=
  match i.result with
  | none => .ok defined
  | some name =>
    if name ∈ defined then .error (.repeatedResult name) else .ok (defined.insert name)

/-- The labels among the operands exist. -/
def checkTargets (labels : NameSet) (i : Instr) : Except VerifyFault Unit :=
  match i.targets.find? (· ∉ labels) with
  | some label => .error (.undefinedLabel label)
  | none => .ok ()

/-- A branch has one operand or three. -/
def checkShape (i : Instr) : Except VerifyFault Unit :=
  if i.opcode = .br ∧ i.operands.length ≠ 1 ∧ i.operands.length ≠ 3 then .error (.branchShape i)
  else .ok ()

def check (labels defined : NameSet) (i : Instr) : Except VerifyFault NameSet := do
  let defined ← i.checkResult defined
  i.checkTargets labels
  i.checkShape
  return defined

end Instr

namespace Block

/-- The block has instructions and ends with a terminator. -/
def checkEnd (b : Block) : Except VerifyFault Unit :=
  match b.instrs.getLast? with
  | none => .error (.emptyBlock b.shownName)
  | some last =>
    if last.opcode.isTerminator then .ok () else .error (.unterminatedBlock b.shownName)

def check (labels defined : NameSet) (b : Block) : Except VerifyFault NameSet := do
  b.checkEnd
  b.instrs.foldlM (Instr.check labels) defined

end Block

namespace Function

def check (f : Function) : Except VerifyFault Unit := do
  let labels ← checkLabels f.blocks
  if f.blocks.isEmpty then
    throw .noBlocks
  let _ ← f.blocks.foldlM (Block.check labels) (NameSet.ofList (f.params.map Param.name))

/-- Checks the rules for functions. -/
def verify (f : Function) : Except Error Unit :=
  f.check.mapError (Error.verify f.name)

end Function

namespace Module

/-- Global names differ from those `seen` before and among themselves. -/
def checkGlobals (seen : NameSet) : List Global → Except VerifyFault Unit
  | [] => .ok ()
  | g :: rest =>
    if g.name ∈ seen then .error (.repeatedGlobal g.name)
    else checkGlobals (seen.insert g.name) rest

/-- Checks the rules for modules. -/
def verify (m : Module) : Except Error Unit := do
  (checkGlobals ∅ m.globals).mapError (Error.verify "")
  m.functions.forM Function.verify

end Module

end IrAsm
