import IrAsm.Graph

/-!
# Coloring

`Coloring.find` colors the nodes of a graph with `k` colors so that neighbors differ. It takes away,
one after another, the first node with fewer than `k` neighbors among those still there, and then
colors the nodes in reverse order, each with the lowest color that no colored neighbor has. If every
node left has `k` neighbors among them it gives up and tells which they are.
-/

namespace IrAsm

structure Coloring where
  colors : Std.ExtTreeMap String Nat
  deriving DecidableEq

namespace Coloring

/-- The color of `x`. -/
def get? (c : Coloring) (x : String) : Option Nat := c.colors[x]?

/-- The colored nodes and their colors, by name. -/
def toList (c : Coloring) : List (String × Nat) := c.colors.toList

/-- The number of colored nodes. -/
def size (c : Coloring) : Nat := c.colors.size

/-- The number of different colors. -/
def colorsNeeded (c : Coloring) : Nat := (Std.ExtTreeSet.ofList c.colors.values compare).size

/-- The neighbors of `x` among the nodes `left`. -/
def neighborsIn (g : Graph) (left : NameSet) (x : String) : NameSet := g.neighbors x ∩ left

/-- The first of the nodes `left` that has fewer than `k` neighbors among them. -/
def removable? (g : Graph) (k : Nat) (left : NameSet) : Option String :=
  left.toList.find? fun x => (neighborsIn g left x).size < k

theorem mem_of_removable? {g : Graph} {k : Nat} {left : NameSet} {x : String}
    (h : removable? g k left = some x) : x ∈ left :=
  Std.ExtTreeSet.mem_toList.mp (List.mem_of_find?_eq_some h)

/-- The nodes in the order in which they can be taken away, or those that are left when none can. -/
def removalOrder (g : Graph) (k : Nat) (left : NameSet) : Except NameSet (List String) :=
  match _h : removable? g k left with
  | some x => (removalOrder g k (left.erase x)).map (x :: ·)
  | none => if left.isEmpty then .ok [] else .error left
termination_by left.size
decreasing_by exact NameSet.size_erase_lt (mem_of_removable? _h)

/-- The lowest color below `k` that is not taken. One of the first `taken.length + 1` colors is
free, so no more are tried. -/
def lowestFree (k : Nat) (taken : List Nat) : Nat :=
  ((List.range (min k (taken.length + 1))).find? (· ∉ taken)).getD 0

/-- Colors `x` next. -/
def assign (g : Graph) (k : Nat) (x : String) (c : Coloring) : Coloring :=
  let taken := (g.neighbors x).toList.filterMap c.get?
  ⟨c.colors.insert x (lowestFree k taken)⟩

/-- Colors `nodes` with `k` colors, or tells which of them are in the way. -/
def find (g : Graph) (nodes : NameSet) (k : Nat) : Except NameSet Coloring :=
  (removalOrder g k nodes).map fun order => order.foldr (assign g k) ⟨∅⟩

end Coloring

end IrAsm
