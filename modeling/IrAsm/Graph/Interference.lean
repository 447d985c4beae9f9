import IrAsm.Flow.Liveness
import IrAsm.Graph

/-!
# Interference

Two registers interfere if they cannot share a machine register: both are live on entry, or one is
written where the other is live afterwards.
-/

namespace IrAsm

namespace Graph

/-- All pairs of an element of `xs` and one of `ys`. -/
def pairs (xs ys : NameSet) : List (String × String) :=
  xs.toList.flatMap fun x => ys.toList.map (x, ·)

/-- The pairs that interfere at entry. -/
def entryPairs (l : Liveness) : List (String × String) :=
  match l.liveIn[0]? with
  | some entry => pairs entry entry
  | none => []

/-- The pairs that interfere where a register is written. -/
def writePairs (points : List Point) (l : Liveness) : List (String × String) :=
  (points.zip l.liveOut.toList).flatMap fun (p, out) => pairs p.defs out

/-- The interference graph: all registers that are read or written, and an edge for each pair that
interferes. -/
def interference (points : List Point) (l : Liveness) : Graph :=
  (empty.addNodes (points.flatMap fun p => p.uses.toList ++ p.defs.toList)).addEdges
    (entryPairs l ++ writePairs points l)

end Graph

end IrAsm
