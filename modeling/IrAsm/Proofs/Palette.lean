import IrAsm.Proofs.Core
import Mathlib.Data.List.Nodup

/-!
# The colors in use

`c.palette` is the set of colors that a coloring uses. A node takes the lowest color that is free,
so the palette of a coloring that was found is an initial segment of the numbers
(`mem_palette_iff_lt`). Neighbors differ, so a clique has as many colors as members.
-/

namespace IrAsm

/-- Any two of the nodes `s` are joined. -/
def Graph.IsClique (g : Graph) (s : NameSet) : Prop := ∀ x ∈ s, ∀ y ∈ s, x ≠ y → g.hasEdge x y

instance (g : Graph) (s : NameSet) : Decidable (g.IsClique s) :=
  decidable_of_iff (∀ x ∈ s.toList, ∀ y ∈ s.toList, x ≠ y → g.hasEdge x y)
    (by simp [Graph.IsClique])

namespace Coloring

open IrAsm.Graph

variable {g : Graph} {k : Nat} {nodes s : NameSet} {c : Coloring}

def palette (c : Coloring) : Std.ExtTreeSet Nat := .ofList c.colors.values compare

/-- The colors of the nodes `s`. -/
def colorsOf (c : Coloring) (s : NameSet) : Std.ExtTreeSet Nat :=
  .ofList (s.toList.filterMap c.get?) compare

theorem mem_palette {n : Nat} : n ∈ c.palette ↔ ∃ x, c.get? x = some n := by
  rw [palette, Std.ExtTreeSet.mem_ofList, List.contains_iff_mem, mem_values]

theorem mem_colorsOf {n : Nat} : n ∈ c.colorsOf s ↔ ∃ x ∈ s, c.get? x = some n := by
  rw [colorsOf, Std.ExtTreeSet.mem_ofList, List.contains_iff_mem, List.mem_filterMap]
  simp only [Std.ExtTreeSet.mem_toList]

/-! ## Counting -/

section
variable {α : Type} [Ord α] [Std.TransOrd α] [Std.LawfulEqOrd α] {t u : Std.ExtTreeSet α}

theorem size_le_length {l : List α} (h : ∀ a ∈ t, a ∈ l) : t.size ≤ l.length := by
  rw [← Std.ExtTreeSet.length_toList]
  refine (List.subperm_of_subset (nodup_toList t) fun a ha => ?_).length_le
  exact h a (Std.ExtTreeSet.mem_toList.mp ha)

theorem size_le_of_subset (h : ∀ a ∈ t, a ∈ u) : t.size ≤ u.size := by
  rw [← Std.ExtTreeSet.length_toList (t := u)]
  exact size_le_length fun a ha => Std.ExtTreeSet.mem_toList.mpr (h a ha)

theorem size_ofList [DecidableEq α] {l : List α} (h : l.Nodup) :
    (Std.ExtTreeSet.ofList l compare).size = l.length := by
  rw [← Std.ExtTreeSet.length_toList]
  refine ((List.perm_ext_iff_of_nodup (nodup_toList _) h).mpr fun a => ?_).length_eq
  rw [Std.ExtTreeSet.mem_toList, Std.ExtTreeSet.mem_ofList, List.contains_iff_mem]

end

/-! ## Initial segments -/

/-- The colors in use are those below their number. -/
theorem Contiguous.mem_palette_iff_lt (h : Contiguous c) {n : Nat} :
    n ∈ c.palette ↔ n < c.colorsNeeded := by
  constructor
  · intro hn
    obtain ⟨x, hx⟩ := mem_palette.mp hn
    exact h.lt_colorsNeeded hx
  · intro hn
    by_contra hfree
    -- no color above `n` is in use, since `n` would be too
    have hlt : ∀ m ∈ c.palette, m ∈ List.range n := by
      intro m hm
      rw [List.mem_range]
      by_contra hle
      obtain ⟨x, hx⟩ := mem_palette.mp hm
      rcases Nat.eq_or_lt_of_not_lt hle with rfl | hgt
      · exact hfree hm
      · exact hfree (mem_palette.mpr (h x m hx n hgt))
    have hsize := size_le_length hlt
    rw [List.length_range] at hsize
    exact absurd hn (Nat.not_lt.mpr hsize)

/-! ## Cliques -/

/-- The members of a clique have different colors. -/
theorem Proper.size_colorsOf (h : Proper g k nodes c) (hs : ∀ x ∈ s, x ∈ nodes)
    (hclique : g.IsClique s) : (c.colorsOf s).size = s.size := by
  have hnodup : (s.toList.filterMap c.get?).Nodup := by
    rw [List.Nodup, List.pairwise_filterMap]
    refine (nodup_toList s).pairwise_of_forall_ne fun x hx y hy hne n hn m hm => ?_
    rw [Std.ExtTreeSet.mem_toList] at hx hy
    rintro rfl
    exact h.ne hne (hasEdge_iff.mp (hclique x hx y hy hne)) hn hm
  have hall : ∀ x ∈ s.toList, (c.get? x).isSome := fun x hx =>
    (h.isSome_iff x).mpr (hs x (Std.ExtTreeSet.mem_toList.mp hx))
  rw [colorsOf, size_ofList hnodup, List.length_filterMap_eq_countP, List.countP_eq_length.mpr hall,
    Std.ExtTreeSet.length_toList]

theorem colorsOf_subset_palette : ∀ n ∈ c.colorsOf s, n ∈ c.palette := by
  intro n hn
  obtain ⟨x, -, hx⟩ := mem_colorsOf.mp hn
  exact mem_palette.mpr ⟨x, hx⟩

theorem Proper.colorsOf_nodes (h : Proper g k nodes c) : c.colorsOf nodes = c.palette := by
  refine Std.ExtTreeSet.ext_mem fun n => ⟨colorsOf_subset_palette n, fun hn => ?_⟩
  obtain ⟨x, hx⟩ := mem_palette.mp hn
  exact mem_colorsOf.mpr ⟨x, (h.isSome_iff x).mp (by simp [hx]), hx⟩

/-- As many colors as nodes are enough: no node has that many neighbors among the others. -/
theorem exists_find_of_size_le (hirrefl : ∀ x, ¬ g.Adj x x) (h : nodes.size ≤ k) :
    ∃ c, find g nodes k = .ok c := by
  have hcore := isLargestCore_residue g nodes k
  rcases find_cases hcore with ⟨-, hok⟩ | ⟨hne, -⟩
  · exact hok
  · generalize residue (find g nodes k) = stuck at hcore hne
    obtain ⟨x, hx⟩ : ∃ x, x ∈ stuck := by
      rwa [ne_eq, Std.ExtTreeSet.eq_empty_iff_forall_not_mem, not_forall_not] at hne
    have hlt : g.degreeIn stuck x < stuck.toList.length := by
      refine List.countP_lt_length_iff.mpr ⟨x, Std.ExtTreeSet.mem_toList.mpr hx, ?_⟩
      rw [Bool.eq_false_iff, ne_eq, hasEdge_iff]
      exact hirrefl x
    have hk := hcore.isCore x hx
    have hle := size_le_of_subset hcore.mem_nodes
    rw [Std.ExtTreeSet.length_toList] at hlt
    omega

/-- Whatever the graph was built from: a coloring that is found uses the colors below their number
and no others. So nodes of which any two are joined are at most as many as the colors, and they have
one color each; and if all nodes are joined to each other and are no more than the colors allowed, a
coloring is found and has as many colors as nodes. -/
theorem colors_contiguous (ops : List Graph.Op) (nodes : NameSet) (k : Nat) :
    let g := Graph.ofOps ops
    (∀ c, find g nodes k = .ok c →
      (∀ n, (∃ x, c.get? x = some n) ↔ n < c.colorsNeeded) ∧
      ∀ s : NameSet, (∀ x ∈ s, x ∈ nodes) → g.IsClique s →
        s.size ≤ c.colorsNeeded ∧ (c.colorsOf s).size = s.size) ∧
    (g.IsClique nodes → nodes.size ≤ k → ∃ c, find g nodes k = .ok c ∧
      c.colorsNeeded = nodes.size) := by
  intro g
  have hirrefl (x : String) : ¬ g.Adj x x := fun h => (adj_ofOps.mp h).1 rfl
  refine ⟨fun c h => ?_, fun hclique hsize => ?_⟩
  · have hp := proper_of_find adj_ofOps_symm h
    have hc := contiguous_of_find adj_ofOps_symm h
    refine ⟨fun n => mem_palette.symm.trans hc.mem_palette_iff_lt, fun s hs hclique => ?_⟩
    have hcount := hp.size_colorsOf hs hclique
    exact ⟨hcount ▸ size_le_of_subset colorsOf_subset_palette, hcount⟩
  · obtain ⟨c, h⟩ := exists_find_of_size_le hirrefl hsize
    have hp := proper_of_find adj_ofOps_symm h
    have hcount := hp.size_colorsOf (fun _ hx => hx) hclique
    rw [hp.colorsOf_nodes] at hcount
    exact ⟨c, h, hcount⟩

/-- A triangle with a tail. The tail needs no color of its own. -/
theorem colors_contiguous_triangle :
    let g := Graph.ofOps [.edge "a" "b", .edge "b" "c", .edge "c" "a", .edge "c" "d"]
    ∃ c, find g (.ofList ["a", "b", "c", "d"]) 3 = .ok c ∧
      (∀ n, (∃ x, c.get? x = some n) ↔ n < c.colorsNeeded) ∧ 3 ≤ c.colorsNeeded ∧
      ∃ c', find g (.ofList ["a", "b", "c"]) 3 = .ok c' ∧ c'.colorsNeeded = 3 := by
  intro g
  have hsize : (NameSet.ofList ["a", "b", "c"]).size = 3 := by decide +kernel
  have hclique : g.IsClique (.ofList ["a", "b", "c"]) := by decide +kernel
  obtain ⟨c, hc⟩ :=
    exists_ok_of_toBool (x := find g (.ofList ["a", "b", "c", "d"]) 3) (by decide +kernel)
  obtain ⟨hiff, hcliques⟩ := (colors_contiguous _ _ _).1 c hc
  obtain ⟨hle, -⟩ := hcliques (.ofList ["a", "b", "c"]) (by simp) hclique
  obtain ⟨c', hc', hneeded⟩ := (colors_contiguous _ _ 3).2 hclique hsize.le
  exact ⟨c, hc, hiff, hsize ▸ hle, c', hc', hneeded.trans hsize⟩

end Coloring

end IrAsm
