import IrAsm.Flow

/-!
# Liveness

A register is live where its value may still be read. The live sets solve, for every point `n`,

    out n = the union of in s over the successors s of n
    in n  = uses n ∪ (out n \ defs n)

A sweep recomputes the sets of all points from the last to the first, each from the sets as they are
then. `analyze` sweeps from empty sets until nothing changes; `refine` does so from any given sets,
which need not come to rest.
-/

namespace IrAsm

/-- The registers that are live before and after each point. -/
structure Liveness where
  liveIn : Array NameSet
  liveOut : Array NameSet
  deriving DecidableEq

namespace Liveness

/-- Nothing is live at any of `n` points. -/
def empty (n : Nat) : Liveness := ⟨Array.replicate n ∅, Array.replicate n ∅⟩

/-- What is live after `p`. -/
def after (l : Liveness) (p : Point) : NameSet :=
  NameSet.unions (p.succs.map fun s => l.liveIn.getD s ∅)

/-- What is live before `p` if `out` is live after it. -/
def before (p : Point) (out : NameSet) : NameSet := p.uses ∪ (out \ p.defs)

/-- Recomputes the sets of the point `p` at index `p.2`. -/
def update (p : Point × Nat) (l : Liveness) : Liveness :=
  let out := l.after p.1
  { liveIn := l.liveIn.setIfInBounds p.2 (before p.1 out),
    liveOut := l.liveOut.setIfInBounds p.2 out }

/-- Recomputes the sets of all points, the last one first. -/
def sweep (points : List Point) (l : Liveness) : Liveness := points.zipIdx.foldr update l

/-- Sweeps until nothing changes, `fuel` times at most. -/
def settle (points : List Point) : Nat → Liveness → Liveness
  | 0, l => l
  | fuel + 1, l =>
    let l' := sweep points l
    if l' = l then l else settle points fuel l'

/-- Enough sweeps for all sets that come to rest. For one register a sweep of `n` points is an
affine map on `n` truth values, and after `n * n + 1` times such a map only goes through values it
had before. -/
def sweepBound (n : Nat) : Nat := (n + 1) * (n + 1) + 2

/-- The sets at which sweeps from `seed` come to rest, if they do. Without points no sets are
left. -/
def refine? (points : List Point) (seed : Liveness) : Option Liveness :=
  if points.isEmpty then some (empty 0)
  else
    let l := settle points (sweepBound points.length) seed
    if sweep points l = l then some l else none

/-- The least solution of the equations. -/
def analyze (points : List Point) : Liveness :=
  settle points (sweepBound points.length) (empty points.length)

/-- There are sets for all points and for their successors. -/
def covers (l : Liveness) (points : List Point) : Bool :=
  points.length ≤ l.liveIn.size && points.length ≤ l.liveOut.size &&
    points.all fun p => p.succs.all (· < l.liveIn.size)

end Liveness

namespace Flow

/-- The live registers of a function whose branches stay within it. -/
def analyze (fl : Flow) (function : String) : Except Error Liveness :=
  if fl.inRange then .ok (Liveness.analyze fl.points) else .error (.branchPastEnd function)

/-- The sets at which sweeps from `seed` come to rest, if they do. -/
def refine (fl : Flow) (function : String) (seed : Liveness) : Except Error (Option Liveness) :=
  if seed.covers fl.points then .ok (Liveness.refine? fl.points seed)
  else .error (.branchPastEnd function)

end Flow

end IrAsm
