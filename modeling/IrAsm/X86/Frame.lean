import IrAsm.X86.Reg

/-!
# Stack frames

Each stack local has a slot of eight bytes below the frame pointer. A depth counts bytes downward
from `%rbp`. Arguments that arrive on the stack lie above the saved frame pointer and the return
address, so their depth is negative; a local can be bound to such an argument instead of its own
slot.
-/

namespace IrAsm.X86

structure Frame where
  /-- The locals and their depths. -/
  depths : List (String × Int)
  /-- The bytes to reserve. -/
  size : Nat
  deriving DecidableEq, Repr

namespace Frame

/-- The depth of the argument at `index`, which has to be one that is passed on the stack. -/
def argumentDepth (index : Nat) : Int := -(8 * (index - Reg.args.length : Nat) + 16)

/-- Slots for distinct locals, in order. -/
def plan (allocas : List String) : Frame where
  depths := allocas.zipIdx.map fun (name, i) => (name, 8 * ((i : Int) + 1))
  size := 8 * allocas.length

def depth? (fr : Frame) (name : String) : Option Int := fr.depths.lookup name

def contains (fr : Frame) (name : String) : Bool := (fr.depth? name).isSome

/-- The displacement from `%rbp` at which a local lies. -/
def displacement? (fr : Frame) (name : String) : Option Int := (fr.depth? name).map (- ·)

/-- Lets the local `name` stand for the argument at `index`. Its own slot stays reserved. -/
def bindArgument (fr : Frame) (name : String) (index : Nat) : Frame :=
  { fr with depths := fr.depths.map fun (n, d) => (n, if n = name then argumentDepth index else d) }

end Frame

end IrAsm.X86
