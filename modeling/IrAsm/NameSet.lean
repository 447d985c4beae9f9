import Std.Data.ExtTreeSet

/-!
# Sets of names

Finite sets of strings, listed in ascending order of code points. Two sets with the same members are
equal.
-/

namespace IrAsm

abbrev NameSet := Std.ExtTreeSet String

namespace NameSet

def ofList (names : List String) : NameSet := Std.ExtTreeSet.ofList names

@[simp] theorem mem_ofList {names : List String} {x : String} : x ∈ ofList names ↔ x ∈ names := by
  simp [ofList, Std.ExtTreeSet.mem_ofList]

theorem mem_insert_iff {s : NameSet} {x y : String} : x ∈ s.insert y ↔ x = y ∨ x ∈ s := by
  rw [Std.ExtTreeSet.mem_insert, Std.LawfulEqCmp.compare_eq_iff_eq, eq_comm]

theorem size_erase_lt {s : NameSet} {x : String} (h : x ∈ s) : (s.erase x).size < s.size := by
  have hpos : s.size ≠ 0 := by
    intro h0
    rw [Std.ExtTreeSet.eq_empty_iff_size_eq_zero.mpr h0] at h
    simp at h
  rw [Std.ExtTreeSet.size_erase, if_pos (Std.ExtTreeSet.contains_iff_mem.mpr h)]
  omega

/-- The union of several sets. -/
def unions (sets : List NameSet) : NameSet := sets.foldl (· ∪ ·) ∅

@[simp] theorem mem_unions {sets : List NameSet} {x : String} :
    x ∈ unions sets ↔ ∃ s ∈ sets, x ∈ s := by
  have h : ∀ (l : List NameSet) (acc : NameSet),
      x ∈ l.foldl (· ∪ ·) acc ↔ x ∈ acc ∨ ∃ s ∈ l, x ∈ s := by
    intro l
    induction l with
    | nil => simp
    | cons s l ih => intro acc; simp [ih, Std.ExtTreeSet.mem_union_iff, or_assoc]
  simp [unions, h]

end NameSet

end IrAsm
