import IrAsm.Graph.Coloring
import IrAsm.Proofs.Graph
import IrAsm.Proofs.Success
import Mathlib.Data.List.Perm.Subperm

/-!
# Colorings are proper

`Proper g k nodes c`: `c` colors exactly the given nodes, with colors below `k`, and neighbors
differently. When a node is colored, the neighbors that have a color are among the nodes that were
left when it was taken away, which are fewer than `k`. So a color is free, and `find` only gives
proper colorings (`proper_of_find`).

A node takes the lowest color that is free, so all lower ones are in use (`Contiguous`), and every
color is below the number of colors in use.
-/

namespace IrAsm.Coloring

structure Proper (g : Graph) (k : Nat) (nodes : NameSet) (c : Coloring) : Prop where
  isSome_iff : ∀ x, (c.get? x).isSome ↔ x ∈ nodes
  lt : ∀ {x n}, c.get? x = some n → n < k
  ne : ∀ {x y n}, x ≠ y → g.Adj x y → c.get? x = some n → c.get? y ≠ some n

/-- Of one color more than are taken, one is free. -/
theorem exists_lt_not_mem (taken : List Nat) : ∃ n < taken.length + 1, n ∉ taken := by
  by_contra h
  push Not at h
  have hsub : List.range (taken.length + 1) ⊆ taken := fun n hn => h n (List.mem_range.mp hn)
  have := (List.subperm_of_subset List.nodup_range hsub).length_le
  rw [List.length_range] at this
  omega

theorem lowestFree_spec {k : Nat} {taken : List Nat} (h : taken.length < k) :
    lowestFree k taken < k ∧ lowestFree k taken ∉ taken := by
  obtain ⟨n, hn, hfree⟩ := exists_lt_not_mem taken
  have hsome : ((List.range (min k (taken.length + 1))).find? (· ∉ taken)).isSome := by
    rw [List.find?_isSome]
    exact ⟨n, List.mem_range.mpr (by omega), by simpa using hfree⟩
  obtain ⟨m, hm⟩ := Option.isSome_iff_exists.mp hsome
  have hlt := List.mem_range.mp (List.mem_of_find?_eq_some hm)
  have hfree := List.find?_some hm
  simp only [lowestFree, hm, Option.getD_some]
  exact ⟨by omega, by simpa using hfree⟩

theorem mem_of_lt_lowestFree {k m : Nat} {taken : List Nat} (h : m < lowestFree k taken) :
    m ∈ taken := by
  unfold lowestFree at h
  cases hf : (List.range (min k (taken.length + 1))).find? (· ∉ taken) with
  | none => rw [hf] at h; cases h
  | some n =>
    rw [hf, Option.getD_some] at h
    simpa using (List.find?_range_eq_some.mp hf).2.2 m h

theorem get?_assign {g : Graph} {k : Nat} {x y : String} {c : Coloring} :
    (assign g k x c).get? y =
      if x = y then some (lowestFree k ((g.neighbors x).toList.filterMap c.get?))
      else c.get? y := by
  simp [assign, get?, Std.ExtTreeMap.getElem?_insert]

theorem nodup_toList {α : Type} [Ord α] [Std.TransOrd α] [Std.LawfulEqOrd α]
    (s : Std.ExtTreeSet α) : s.toList.Nodup :=
  s.distinct_toList.imp fun h e => h (by simp [e])

/-- The taken colors are at most as many as the neighbors that are left. -/
theorem length_taken_le {g : Graph} {left : NameSet} {x : String} {c : Coloring}
    (h : ∀ y, (c.get? y).isSome → y ∈ left) :
    ((g.neighbors x).toList.filterMap c.get?).length ≤ (neighborsIn g left x).size := by
  rw [List.length_filterMap_eq_countP, List.countP_eq_length_filter,
    ← Std.ExtTreeSet.length_toList]
  refine (List.subperm_of_subset ((nodup_toList _).filter _) fun y hy => ?_).length_le
  rw [List.mem_filter, Std.ExtTreeSet.mem_toList] at hy
  rw [Std.ExtTreeSet.mem_toList, neighborsIn, Std.ExtTreeSet.mem_inter_iff]
  exact ⟨hy.1, h y hy.2⟩

/-- Colors below one in use are in use. -/
def Contiguous (c : Coloring) : Prop :=
  ∀ x n, c.get? x = some n → ∀ m < n, ∃ y, c.get? y = some m

theorem Contiguous.assign {g : Graph} {k : Nat} {x : String} {c : Coloring} (h : Contiguous c)
    (hx : c.get? x = none) : Contiguous (assign g k x c) := by
  -- what is in use stays in use, since `x` has no color yet
  have hkeep : ∀ {m}, (∃ y, c.get? y = some m) →
      ∃ y, (Coloring.assign g k x c).get? y = some m := by
    rintro m ⟨y, hy⟩
    have hxy : x ≠ y := by rintro rfl; rw [hx] at hy; cases hy
    exact ⟨y, by rwa [get?_assign, if_neg hxy]⟩
  intro y n hy m hm
  rw [get?_assign] at hy
  split at hy
  · obtain rfl := Option.some.inj hy
    obtain ⟨z, -, hz⟩ := List.mem_filterMap.mp (mem_of_lt_lowestFree hm)
    exact hkeep ⟨z, hz⟩
  · exact hkeep (h y n hy m hm)

theorem mem_values {c : Coloring} {n : Nat} : n ∈ c.colors.values ↔ ∃ x, c.get? x = some n := by
  have hfold : c.colors.values = c.colors.foldr (fun _ n ns => n :: ns) [] := rfl
  rw [hfold, Std.ExtTreeMap.foldr_eq_foldr_toList, ← List.map_eq_foldr]
  simp [Std.ExtTreeMap.mem_toList_iff_getElem?_eq_some, get?]

theorem Contiguous.lt_colorsNeeded {c : Coloring} (h : Contiguous c) {x : String} {n : Nat}
    (hx : c.get? x = some n) : n < c.colorsNeeded := by
  have hsub : List.range (n + 1) ⊆ (Std.ExtTreeSet.ofList c.colors.values compare).toList := by
    intro m hm
    rw [List.mem_range] at hm
    rw [Std.ExtTreeSet.mem_toList, Std.ExtTreeSet.mem_ofList, List.contains_iff_mem, mem_values]
    rcases Nat.lt_succ_iff_lt_or_eq.mp hm with hm | rfl
    · exact h x n hx m hm
    · exact ⟨x, hx⟩
  have hlen := (List.subperm_of_subset List.nodup_range hsub).length_le
  rw [List.length_range, Std.ExtTreeSet.length_toList] at hlen
  exact hlen

section
variable {g : Graph} {k : Nat} (hsymm : ∀ {x y}, g.Adj x y → g.Adj y x)
include hsymm

theorem Proper.assign {left : NameSet} {x : String} {c : Coloring}
    (h : Proper g k (left.erase x) c) (hx : x ∈ left) (hk : (neighborsIn g left x).size < k) :
    Proper g k left (assign g k x c) := by
  have hleft : ∀ y, (c.get? y).isSome → y ∈ left := fun y hy =>
    Std.ExtTreeSet.mem_of_mem_erase ((h.isSome_iff y).mp hy)
  obtain ⟨hlt, hfree⟩ := lowestFree_spec (Nat.lt_of_le_of_lt (length_taken_le (x := x) hleft) hk)
  -- the new color is none of those of the neighbors that have one already
  have hnew : ∀ y, g.Adj x y →
      c.get? y ≠ some (lowestFree k ((g.neighbors x).toList.filterMap c.get?)) := by
    intro y hy hc
    exact hfree (List.mem_filterMap.mpr ⟨y, Std.ExtTreeSet.mem_toList.mpr hy, hc⟩)
  refine ⟨fun y => ?_, fun {y n} hy => ?_, fun {y z n} hyz hadj hy => ?_⟩
  · rw [get?_assign]
    split
    · next e => simp [← e, hx]
    · next e => rw [h.isSome_iff, Std.ExtTreeSet.mem_erase]; simp [e]
  · rw [get?_assign] at hy
    split at hy
    · exact Option.some.inj hy ▸ hlt
    · exact h.lt hy
  · rw [get?_assign] at hy ⊢
    by_cases hxy : x = y
    · subst hxy
      rw [if_pos rfl] at hy
      rw [if_neg hyz, ← hy]
      exact hnew z hadj
    · rw [if_neg hxy] at hy
      by_cases hxz : x = z
      · subst hxz
        rw [if_pos rfl, ← hy]
        exact (hnew y (hsymm hadj)).symm
      · rw [if_neg hxz]
        exact h.ne hyz hadj hy

theorem proper_of_removalOrder {left : NameSet} {order : List String}
    (h : removalOrder g k left = .ok order) :
    Proper g k left (order.foldr (Coloring.assign g k) ⟨∅⟩) := by
  fun_induction removalOrder g k left generalizing order with
  | case1 left x hx ih =>
    cases hr : removalOrder g k (left.erase x) with
    | error e => simp [hr, Except.map] at h
    | ok rest =>
      obtain rfl : x :: rest = order := by simpa [hr, Except.map] using h
      have hk : (neighborsIn g left x).size < k := by simpa using List.find?_some hx
      exact (ih hr).assign hsymm (mem_of_removable? hx) hk
  | case2 left hx he =>
    obtain rfl : [] = order := by simpa using h
    rw [Std.ExtTreeSet.isEmpty_iff] at he
    subst he
    refine ⟨fun y => ?_, fun {y n} hy => ?_, fun {y z n} _ _ hy => ?_⟩
    · simp [get?]
    · simp [get?] at hy
    · simp [get?] at hy
  | case3 left hx he => simp at h

theorem contiguous_of_removalOrder {left : NameSet} {order : List String}
    (h : removalOrder g k left = .ok order) :
    Contiguous (order.foldr (Coloring.assign g k) ⟨∅⟩) := by
  fun_induction removalOrder g k left generalizing order with
  | case1 left x hx ih =>
    cases hr : removalOrder g k (left.erase x) with
    | error e => simp [hr, Except.map] at h
    | ok rest =>
      obtain rfl : x :: rest = order := by simpa [hr, Except.map] using h
      refine (ih hr).assign ?_
      rw [← Option.not_isSome_iff_eq_none, (proper_of_removalOrder hsymm hr).isSome_iff x]
      simp
  | case2 left hx he =>
    obtain rfl : [] = order := by simpa using h
    intro x n hn
    simp [get?] at hn
  | case3 left hx he => simp at h

theorem proper_of_find {nodes : NameSet} {c : Coloring} (h : find g nodes k = .ok c) :
    Proper g k nodes c := by
  obtain ⟨order, hr, rfl⟩ := map_ok_iff.mp h
  exact proper_of_removalOrder hsymm hr

theorem contiguous_of_find {nodes : NameSet} {c : Coloring} (h : find g nodes k = .ok c) :
    Contiguous c := by
  obtain ⟨order, hr, rfl⟩ := map_ok_iff.mp h
  exact contiguous_of_removalOrder hsymm hr

end

/-- Whatever the graph was built from: a coloring of some nodes gives a color below `k` to these
nodes and to no others, and different colors to neighbors among them. -/
theorem coloring_sound {ops : List Graph.Op} {nodes : NameSet} {k : Nat} {c : Coloring}
    (h : find (Graph.ofOps ops) nodes k = .ok c) :
    (∀ x, (c.get? x).isSome ↔ x ∈ nodes) ∧ (∀ x n, c.get? x = some n → n < k) ∧
      ∀ x ∈ nodes, ∀ y ∈ nodes, (Graph.ofOps ops).hasEdge x y → c.get? x ≠ c.get? y := by
  have hp := proper_of_find Graph.adj_ofOps_symm h
  refine ⟨hp.isSome_iff, fun x n hn => hp.lt hn, fun x hx y _ hxy he => ?_⟩
  have hadj := Graph.hasEdge_iff.mp hxy
  obtain ⟨n, hn⟩ := Option.isSome_iff_exists.mp ((hp.isSome_iff x).mpr hx)
  exact hp.ne (Graph.adj_ofOps.mp hadj).1 hadj hn (he ▸ hn)

/-- A cycle of five, of which three nodes in a row are colored with two colors. -/
theorem coloring_sound_cycle :
    ∃ c, find (Graph.ofOps
        [.edge "v" "w", .edge "w" "x", .edge "x" "y", .edge "y" "z", .edge "z" "v"])
        (.ofList ["v", "w", "x"]) 2 = .ok c ∧ (∀ x n, c.get? x = some n → n < 2) ∧
      c.get? "v" ≠ c.get? "w" ∧ c.get? "y" = none := by
  obtain ⟨c, hc⟩ := exists_ok_of_toBool (x := find (Graph.ofOps [.edge "v" "w", .edge "w" "x",
    .edge "x" "y", .edge "y" "z", .edge "z" "v"]) (.ofList ["v", "w", "x"]) 2) (by decide +kernel)
  obtain ⟨hdom, hlt, hne⟩ := coloring_sound hc
  refine ⟨c, hc, hlt, hne "v" (by simp) "w" (by simp) (by decide +kernel), ?_⟩
  rw [← Option.not_isSome_iff_eq_none, hdom]
  simp

end IrAsm.Coloring
