import IrAsm.Proofs.Coloring

/-!
# Where simplification gets stuck

A set of nodes is a core if each of them has at least `k` neighbors in the set.
`g.Eliminates k s t`: nodes are taken away from `s` one after another, in any order, each with fewer
than `k` neighbors among those that are still there, and `t` is left. No core loses a node that way,
since a node has no more neighbors in the core than in all that is left. So whatever the order,
where no further node can be taken away the largest core is left (`isLargestCore_of_eliminates`),
and `find` fails exactly if that has a node.
-/

namespace IrAsm

namespace Graph

variable {g : Graph} {k : Nat} {s t rest nodes : NameSet} {x : String}

/-- The number of neighbors of `x` among `s`. -/
def degreeIn (g : Graph) (s : NameSet) (x : String) : Nat := s.toList.countP (g.hasEdge x)

def IsCore (g : Graph) (k : Nat) (s : NameSet) : Prop := ∀ x ∈ s, k ≤ g.degreeIn s x

instance : Decidable (g.IsCore k s) :=
  decidable_of_iff (∀ x ∈ s.toList, k ≤ g.degreeIn s x) (by simp [IsCore])

/-- A core of some of the nodes that contains all others. -/
structure IsLargestCore (g : Graph) (k : Nat) (nodes s : NameSet) : Prop where
  mem_nodes : ∀ x ∈ s, x ∈ nodes
  isCore : g.IsCore k s
  largest : ∀ t : NameSet, (∀ x ∈ t, x ∈ nodes) → g.IsCore k t → ∀ x ∈ t, x ∈ s

inductive Eliminates (g : Graph) (k : Nat) : NameSet → NameSet → Prop where
  | refl {s : NameSet} : g.Eliminates k s s
  | step {s t : NameSet} {x : String} : x ∈ s → g.degreeIn s x < k → g.Eliminates k (s.erase x) t →
      g.Eliminates k s t

theorem degreeIn_le (h : ∀ x ∈ s, x ∈ t) (x : String) : g.degreeIn s x ≤ g.degreeIn t x := by
  refine List.Subperm.countP_le _ (List.subperm_of_subset (Coloring.nodup_toList s) fun y hy => ?_)
  rw [Std.ExtTreeSet.mem_toList] at hy ⊢
  exact h y hy

theorem IsCore.mono {m : Nat} (h : g.IsCore k s) (hm : m ≤ k) : g.IsCore m s := fun x hx =>
  Nat.le_trans hm (h x hx)

theorem Eliminates.mem (h : g.Eliminates k s rest) : ∀ x ∈ rest, x ∈ s := by
  induction h with
  | refl => exact fun _ hx => hx
  | step _ _ _ ih => exact fun x hx => Std.ExtTreeSet.mem_of_mem_erase (ih x hx)

/-- A core does not lose a node. -/
theorem IsCore.mem_of_eliminates (hcore : g.IsCore k t) (h : g.Eliminates k s rest)
    (ht : ∀ x ∈ t, x ∈ s) : ∀ x ∈ t, x ∈ rest := by
  induction h with
  | refl => exact ht
  | @step s rest y _ hy _ ih =>
    refine ih fun x hx => ?_
    rw [Std.ExtTreeSet.mem_erase, ne_eq, Std.LawfulEqCmp.compare_eq_iff_eq]
    refine ⟨?_, ht x hx⟩
    rintro rfl
    have hle : k ≤ g.degreeIn s y := Nat.le_trans (hcore y hx) (degreeIn_le ht y)
    omega

/-- What is left when no node can be taken away any more. -/
theorem isLargestCore_of_eliminates (h : g.Eliminates k nodes rest) (hcore : g.IsCore k rest) :
    g.IsLargestCore k nodes rest where
  mem_nodes := h.mem
  isCore := hcore
  largest _ ht hc := hc.mem_of_eliminates h ht

theorem IsLargestCore.unique (hs : g.IsLargestCore k nodes s) (ht : g.IsLargestCore k nodes t) :
    s = t :=
  Std.ExtTreeSet.ext_mem fun x =>
    ⟨ht.largest s hs.mem_nodes hs.isCore x, hs.largest t ht.mem_nodes ht.isCore x⟩

/-- The largest core has no more nodes if they need more neighbors. -/
theorem IsLargestCore.mem_of_le {m : Nat} (hs : g.IsLargestCore k nodes s)
    (ht : g.IsLargestCore m nodes t) (hm : k ≤ m) : ∀ x ∈ t, x ∈ s :=
  hs.largest t ht.mem_nodes (ht.isCore.mono hm)

end Graph

namespace Coloring

open IrAsm.Graph

variable {g : Graph} {k : Nat} {left nodes stuck : NameSet}

theorem size_neighborsIn (g : Graph) (s : NameSet) (x : String) :
    (neighborsIn g s x).size = g.degreeIn s x := by
  rw [← Std.ExtTreeSet.length_toList, degreeIn, List.countP_eq_length_filter]
  refine ((List.perm_ext_iff_of_nodup (nodup_toList _) ((nodup_toList s).filter _)).mpr
    fun y => ?_).length_eq
  rw [List.mem_filter, Std.ExtTreeSet.mem_toList, Std.ExtTreeSet.mem_toList, neighborsIn,
    Std.ExtTreeSet.mem_inter_iff, hasEdge_iff, Adj]
  exact And.comm

theorem removable?_eq_some {x : String} (h : removable? g k left = some x) :
    x ∈ left ∧ g.degreeIn left x < k := by
  refine ⟨mem_of_removable? h, ?_⟩
  rw [← size_neighborsIn]
  simpa using List.find?_some h

theorem isCore_of_removable? (h : removable? g k left = none) : g.IsCore k left := by
  intro x hx
  have hnot := List.find?_eq_none.mp h x (Std.ExtTreeSet.mem_toList.mpr hx)
  rw [← size_neighborsIn]
  simpa using hnot

/-- The nodes that simplification does not take away. -/
def residue {α : Type} : Except NameSet α → NameSet
  | .ok _ => ∅
  | .error stuck => stuck

/-- Simplification takes nodes away until none can be. -/
theorem eliminates_removalOrder (g : Graph) (k : Nat) (left : NameSet) :
    g.Eliminates k left (residue (removalOrder g k left)) ∧
      g.IsCore k (residue (removalOrder g k left)) := by
  fun_induction removalOrder g k left with
  | case1 left x hx ih =>
    have hres : residue ((removalOrder g k (left.erase x)).map (x :: ·)) =
        residue (removalOrder g k (left.erase x)) := by
      cases removalOrder g k (left.erase x) <;> rfl
    rw [hres]
    obtain ⟨hmem, hlt⟩ := removable?_eq_some hx
    exact ⟨.step hmem hlt ih.1, ih.2⟩
  | case2 left hx he =>
    rw [Std.ExtTreeSet.isEmpty_iff] at he
    subst he
    exact ⟨.refl, isCore_of_removable? hx⟩
  | case3 left hx he => exact ⟨.refl, isCore_of_removable? hx⟩

theorem ne_empty_of_removalOrder (h : removalOrder g k left = .error stuck) : stuck ≠ ∅ := by
  fun_induction removalOrder g k left with
  | case1 left x hx ih =>
    cases hr : removalOrder g k (left.erase x) with
    | error e =>
      obtain rfl : e = stuck := by simpa [hr, Except.map] using h
      exact ih hr
    | ok order => simp [hr, Except.map] at h
  | case2 left hx he => cases h
  | case3 left hx he =>
    cases h
    rwa [Std.ExtTreeSet.isEmpty_iff] at he

/-- Of the nodes the largest core is left. -/
theorem isLargestCore_residue (g : Graph) (nodes : NameSet) (k : Nat) :
    g.IsLargestCore k nodes (residue (find g nodes k)) := by
  have hres : residue (find g nodes k) = residue (removalOrder g k nodes) := by
    unfold find
    cases removalOrder g k nodes <;> rfl
  obtain ⟨helim, hcore⟩ := eliminates_removalOrder g k nodes
  rw [hres]
  exact isLargestCore_of_eliminates helim hcore

/-- A coloring is found, or the largest core has a node and is given back. -/
theorem find_cases {s : NameSet} (hs : g.IsLargestCore k nodes s) :
    (s = ∅ ∧ ∃ c, find g nodes k = .ok c) ∨ s ≠ ∅ ∧ find g nodes k = .error s := by
  have hres := hs.unique (isLargestCore_residue g nodes k)
  cases hf : find g nodes k with
  | ok c => exact .inl ⟨by rw [hres, hf]; rfl, c, rfl⟩
  | error stuck =>
    obtain rfl : s = stuck := by rw [hres, hf]; rfl
    refine .inr ⟨?_, rfl⟩
    unfold find at hf
    cases hr : removalOrder g k nodes with
    | ok order => simp [hr, Except.map] at hf
    | error e =>
      obtain rfl : e = s := by simpa [hr, Except.map] using hf
      exact ne_empty_of_removalOrder hr

theorem isLargestCore_of_find (h : find g nodes k = .error stuck) :
    g.IsLargestCore k nodes stuck := by
  have hlargest := isLargestCore_residue g nodes k
  rwa [h] at hlargest

theorem eq_empty_of_forall {s : NameSet} (h : ∀ x ∈ s, x ∈ (∅ : NameSet)) : s = ∅ :=
  Std.ExtTreeSet.eq_empty_iff_forall_not_mem.mpr fun x hx => Std.ExtTreeSet.not_mem_empty (h x hx)

theorem pairwise_lt_toList (s : NameSet) : s.toList.Pairwise (· < ·) :=
  s.ordered_toList.imp fun h => compareOfLessAndEq_eq_lt.mp h

/-- Coloring fails exactly if some of the nodes are a core with at least one node. Then it gives
back the largest core, in ascending order, and taking nodes away in any other order comes to the
same. With more colors it does not fail more often, nor give back more nodes. -/
theorem infeasible_iff_core (ops : List Graph.Op) (nodes : NameSet) (k : Nat) :
    let g := Graph.ofOps ops
    ((∃ stuck, find g nodes k = .error stuck) ↔
      ∃ s : NameSet, s ≠ ∅ ∧ (∀ x ∈ s, x ∈ nodes) ∧ g.IsCore k s) ∧
    (∀ stuck, find g nodes k = .error stuck →
      stuck.toList.Pairwise (· < ·) ∧ g.IsLargestCore k nodes stuck) ∧
    (∀ rest, g.Eliminates k nodes rest → (∀ x ∈ rest, ¬ g.degreeIn rest x < k) →
      (rest = ∅ ∧ ∃ c, find g nodes k = .ok c) ∨ rest ≠ ∅ ∧ find g nodes k = .error rest) ∧
    ∀ m, k ≤ m →
      (∀ c, find g nodes k = .ok c → ∃ c', find g nodes m = .ok c') ∧
      ∀ stuck stuck', find g nodes k = .error stuck → find g nodes m = .error stuck' →
        ∀ x ∈ stuck', x ∈ stuck := by
  intro g
  have hcases (m : Nat) := find_cases (isLargestCore_residue g nodes m)
  refine ⟨⟨?_, ?_⟩, fun stuck h => ⟨pairwise_lt_toList stuck, isLargestCore_of_find h⟩, ?_, ?_⟩
  · rintro ⟨stuck, h⟩
    have hlargest := isLargestCore_of_find h
    rcases find_cases hlargest with ⟨-, c, hc⟩ | ⟨hne, -⟩
    · cases h.symm.trans hc
    · exact ⟨stuck, hne, hlargest.mem_nodes, hlargest.isCore⟩
  · rintro ⟨s, hne, hmem, hcore⟩
    rcases hcases k with ⟨hnil, -⟩ | ⟨-, h⟩
    · -- the largest core would be empty, but it contains `s`
      have hlargest := (isLargestCore_residue g nodes k).largest s hmem hcore
      rw [hnil] at hlargest
      exact absurd (eq_empty_of_forall hlargest) hne
    · exact ⟨_, h⟩
  · intro rest helim hstop
    exact find_cases (isLargestCore_of_eliminates helim fun x hx => Nat.le_of_not_lt (hstop x hx))
  · intro m hm
    refine ⟨fun c hc => ?_, fun stuck stuck' h h' => ?_⟩
    · rcases hcases m with ⟨-, hok⟩ | ⟨hne, herr⟩
      · exact hok
      · have hsub :=
          (isLargestCore_residue g nodes k).mem_of_le (isLargestCore_residue g nodes m) hm
        rw [hc] at hsub
        exact absurd (eq_empty_of_forall hsub) hne
    · exact (isLargestCore_of_find h).mem_of_le (isLargestCore_of_find h') hm

/-- A triangle with two tails. The tails are taken away last node first, `find` takes them the other
way. -/
theorem infeasible_iff_core_triangle :
    let g := Graph.ofOps [.edge "a" "b", .edge "b" "c", .edge "c" "a", .edge "c" "d", .edge "c" "e"]
    let nodes := NameSet.ofList ["a", "b", "c", "d", "e"]
    g.Eliminates 2 nodes (NameSet.ofList ["a", "b", "c"]) ∧
      find g nodes 2 = .error (NameSet.ofList ["a", "b", "c"]) := by
  intro g nodes
  have helim : g.Eliminates 2 nodes (NameSet.ofList ["a", "b", "c"]) := by
    have hrest : (nodes.erase "e").erase "d" = NameSet.ofList ["a", "b", "c"] := by decide +kernel
    rw [← hrest]
    exact .step (x := "e") (by decide +kernel) (by decide +kernel)
      (.step (x := "d") (by decide +kernel) (by decide +kernel) .refl)
  have hcore : g.IsCore 2 (NameSet.ofList ["a", "b", "c"]) := by decide +kernel
  refine ⟨helim, ?_⟩
  rcases (infeasible_iff_core _ nodes 2).2.2.1 _ helim fun x hx => Nat.not_lt.mpr (hcore x hx)
    with ⟨h, -⟩ | ⟨-, h⟩
  · exact absurd h (by decide +kernel)
  · exact h

end Coloring

end IrAsm
