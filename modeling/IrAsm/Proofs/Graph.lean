import IrAsm.Graph.Interference
import IrAsm.Proofs.Liveness

/-!
# Edges of the interference graph

`g.Adj x y`: the graph has an edge between `x` and `y`. Every operation on graphs is described by
the edges it adds; for the interference graph this gives its edges in terms of the live sets
(`adj_interference`).
-/

namespace IrAsm.Graph

def Adj (g : Graph) (x y : String) : Prop := y ∈ g.neighbors x

theorem not_adj_empty {x y : String} : ¬ empty.Adj x y := by
  simp [Adj, neighbors, empty]

theorem adj_addNode {g : Graph} {z x y : String} : (g.addNode z).Adj x y ↔ g.Adj x y := by
  simp only [Adj, neighbors, addNode, Std.ExtTreeMap.getD_insertIfNew]
  split
  · next h =>
    obtain ⟨rfl, hz⟩ : z = x ∧ z ∉ g.adjacency := by simpa using h
    rw [Std.ExtTreeMap.getD_eq_fallback hz]
  · exact Iff.rfl

theorem adj_addNodes {g : Graph} {names : List String} {x y : String} :
    (g.addNodes names).Adj x y ↔ g.Adj x y := by
  unfold addNodes
  induction names generalizing g with
  | nil => exact Iff.rfl
  | cons z names ih => rw [List.foldl_cons, ih, adj_addNode]

/-- A loop adds nothing, any other pair adds both directions. -/
theorem adj_addEdge {g : Graph} {a b x y : String} :
    (g.addEdge a b).Adj x y ↔ g.Adj x y ∨ x ≠ y ∧ ((x, y) = (a, b) ∨ (y, x) = (a, b)) := by
  unfold addEdge
  split
  · next h =>
    subst h
    simp only [Prod.mk.injEq]
    constructor
    · exact .inl
    · rintro (h | ⟨hne, ⟨rfl, rfl⟩ | ⟨rfl, rfl⟩⟩)
      · exact h
      · exact absurd rfl hne
      · exact absurd rfl hne
  · next hab =>
    simp only [Adj, neighbors, Std.ExtTreeMap.getD_insert, Std.LawfulEqCmp.compare_eq_iff_eq,
      Prod.mk.injEq]
    by_cases hb : b = x
    · subst hb
      simp only [↓reduceIte, Std.ExtTreeSet.mem_insert, Std.LawfulEqCmp.compare_eq_iff_eq]
      grind
    · by_cases ha : a = x
      · subst ha
        simp only [hb, ↓reduceIte, Std.ExtTreeSet.mem_insert, Std.LawfulEqCmp.compare_eq_iff_eq]
        grind
      · simp only [hb, ha, ↓reduceIte]
        grind

theorem adj_addEdges {g : Graph} {ps : List (String × String)} {x y : String} :
    (g.addEdges ps).Adj x y ↔ g.Adj x y ∨ x ≠ y ∧ ((x, y) ∈ ps ∨ (y, x) ∈ ps) := by
  unfold addEdges
  induction ps generalizing g with
  | nil => simp
  | cons p ps ih =>
    rw [List.foldl_cons, ih, adj_addEdge]
    simp only [List.mem_cons]
    tauto

/-! ## Building -/

/-- What can be added to a graph. -/
inductive Op where
  | node (x : String)
  | edge (x y : String)
  deriving DecidableEq

def Op.apply (g : Graph) : Op → Graph
  | .node x => g.addNode x
  | .edge x y => g.addEdge x y

/-- The graph that is built by adding nodes and edges one after another. -/
def ofOps (ops : List Op) : Graph := ops.foldl Op.apply empty

theorem adj_foldl_apply {g : Graph} {ops : List Op} {x y : String} :
    (ops.foldl Op.apply g).Adj x y ↔
      g.Adj x y ∨ x ≠ y ∧ (Op.edge x y ∈ ops ∨ Op.edge y x ∈ ops) := by
  induction ops generalizing g with
  | nil => simp
  | cons op ops ih =>
    rw [List.foldl_cons, ih]
    cases op with
    | node z => simp [Op.apply, adj_addNode]
    | edge a b =>
      rw [Op.apply, adj_addEdge]
      simp only [List.mem_cons, Op.edge.injEq, Prod.mk.injEq]
      tauto

/-- The edges are those that were added, in both directions, without loops. -/
theorem adj_ofOps {ops : List Op} {x y : String} :
    (ofOps ops).Adj x y ↔ x ≠ y ∧ (Op.edge x y ∈ ops ∨ Op.edge y x ∈ ops) := by
  simp [ofOps, adj_foldl_apply, not_adj_empty]

theorem adj_ofOps_symm {ops : List Op} {x y : String} (h : (ofOps ops).Adj x y) :
    (ofOps ops).Adj y x := by
  rw [adj_ofOps] at h ⊢
  exact ⟨h.1.symm, h.2.symm⟩

theorem hasEdge_iff {g : Graph} {x y : String} : g.hasEdge x y ↔ g.Adj x y :=
  Std.ExtTreeSet.contains_iff_mem

/-! ## Interference -/

theorem mem_pairs {xs ys : NameSet} {x y : String} : (x, y) ∈ pairs xs ys ↔ x ∈ xs ∧ y ∈ ys := by
  simp [pairs]

theorem mem_entryPairs {l : Liveness} {x y : String} :
    (x, y) ∈ entryPairs l ↔ x ∈ l.inAt 0 ∧ y ∈ l.inAt 0 := by
  unfold entryPairs Liveness.inAt
  rw [Array.getD_eq_getD_getElem?]
  cases l.liveIn[0]? with
  | none => simp
  | some entry => simp [mem_pairs]

theorem mem_writePairs {points : List Point} {l : Liveness} (h : l.Fits points) {x y : String} :
    (x, y) ∈ writePairs points l ↔
      ∃ n p, points[n]? = some p ∧ x ∈ p.defs ∧ y ∈ l.outAt n := by
  simp only [writePairs, List.mem_flatMap, Prod.exists, mem_pairs]
  constructor
  · rintro ⟨p, out, hz, hx, hy⟩
    obtain ⟨n, hn⟩ := List.mem_iff_getElem?.mp hz
    obtain ⟨hp, ho⟩ := List.getElem?_zip_eq_some.mp hn
    refine ⟨n, p, hp, hx, ?_⟩
    rw [Array.getElem?_toList] at ho
    simpa [Liveness.outAt, ho] using hy
  · rintro ⟨n, p, hp, hx, hy⟩
    have hn : n < l.liveOut.size := h.liveOut ▸ (List.getElem?_eq_some_iff.mp hp).1
    refine ⟨p, l.outAt n, List.mem_iff_getElem?.mpr ⟨n, ?_⟩, hx, hy⟩
    refine List.getElem?_zip_eq_some.mpr ⟨hp, ?_⟩
    simp [Liveness.outAt, hn]

/-- Two names interfere iff both are live on entry, or one is written where the other is live. -/
theorem adj_interference {points : List Point} {l : Liveness} (h : l.Fits points) {x y : String} :
    (interference points l).Adj x y ↔ x ≠ y ∧ (x ∈ l.inAt 0 ∧ y ∈ l.inAt 0 ∨
      ∃ n p, points[n]? = some p ∧
        (x ∈ p.defs ∧ y ∈ l.outAt n ∨ y ∈ p.defs ∧ x ∈ l.outAt n)) := by
  unfold interference
  rw [adj_addEdges, adj_addNodes]
  simp only [not_adj_empty, false_or, List.mem_append, mem_entryPairs, mem_writePairs h]
  refine and_congr_right fun _ => ?_
  constructor
  · rintro ((h | ⟨n, p, hp, hx⟩) | (h | ⟨n, p, hp, hx⟩))
    · exact .inl h
    · exact .inr ⟨n, p, hp, .inl hx⟩
    · exact .inl h.symm
    · exact .inr ⟨n, p, hp, .inr hx⟩
  · rintro (h | ⟨n, p, hp, hx | hx⟩)
    · exact .inl (.inl h)
    · exact .inl (.inr ⟨n, p, hp, hx⟩)
    · exact .inr (.inr ⟨n, p, hp, hx⟩)

theorem Adj.symm_interference {points : List Point} {l : Liveness} (h : l.Fits points)
    {x y : String} (hxy : (interference points l).Adj x y) :
    (interference points l).Adj y x := by
  obtain ⟨hne, hor⟩ := (adj_interference h).mp hxy
  refine (adj_interference h).mpr ⟨hne.symm, ?_⟩
  rcases hor with h | ⟨n, p, hp, h⟩
  · exact .inl h.symm
  · exact .inr ⟨n, p, hp, h.symm⟩

end IrAsm.Graph
