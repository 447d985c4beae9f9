import IrAsm.Proofs.Interference
import Mathlib.Algebra.GroupWithZero.Nat

/-!
# Simple graphs

A graph keeps an edge twice, each of its ends as a neighbor of the other. `g.arcs` lists the edges
as they are kept. The arcs that go up are the edges, in ascending order (`edges_eq`). In a graph
where neighbors are mutual the other arcs are the edges turned round, so the degrees sum to twice
the number of edges (`sum_degree`).
-/

namespace IrAsm.Graph

variable {g : Graph} {x y : String}

/-! ## Nodes -/

/-- The nodes that an operation adds. -/
def Op.brings : Op → List String
  | .node x => [x]
  | .edge x y => if x = y then [] else [x, y]

theorem mem_nodes_apply {op : Op} : x ∈ (op.apply g).nodes ↔ x ∈ g.nodes ∨ x ∈ op.brings := by
  cases op with
  | node z => simp [Op.apply, Op.brings, mem_nodes_addNode, or_comm]
  | edge a b =>
    rw [Op.apply, mem_nodes_addEdge, Op.brings, or_comm]
    split <;> simp_all

theorem mem_nodes_foldl_apply {ops : List Op} :
    x ∈ (ops.foldl Op.apply g).nodes ↔ x ∈ g.nodes ∨ ∃ op ∈ ops, x ∈ op.brings := by
  induction ops generalizing g with
  | nil => simp
  | cons op ops ih => rw [List.foldl_cons, ih, mem_nodes_apply, List.exists_mem_cons_iff, or_assoc]

/-- The nodes are those that were added as such, and those with an edge. -/
theorem mem_nodes_ofOps {ops : List Op} :
    x ∈ (ofOps ops).nodes ↔ Op.node x ∈ ops ∨ ∃ y, (ofOps ops).Adj x y := by
  have hempty : x ∉ empty.nodes := by simp [mem_nodes, empty]
  rw [ofOps, mem_nodes_foldl_apply, or_iff_right hempty]
  constructor
  · rintro ⟨op, hop, hx⟩
    cases op with
    | node z => exact .inl (List.mem_singleton.mp hx ▸ hop)
    | edge a b =>
      rw [Op.brings] at hx
      split at hx
      · cases hx
      · next hne =>
        rcases List.mem_pair.mp hx with rfl | rfl
        · exact .inr ⟨b, adj_ofOps.mpr ⟨hne, .inl hop⟩⟩
        · exact .inr ⟨a, adj_ofOps.mpr ⟨Ne.symm hne, .inr hop⟩⟩
  · rintro (hx | ⟨y, hadj⟩)
    · exact ⟨_, hx, List.mem_singleton.mpr rfl⟩
    · obtain ⟨hne, hop | hop⟩ := adj_ofOps.mp hadj
      · exact ⟨_, hop, by simp [Op.brings, hne]⟩
      · exact ⟨_, hop, by simp [Op.brings, hne.symm]⟩

/-! ## Edges -/

/-- All pairs of a node and one of its neighbors, in ascending order. -/
def arcs (g : Graph) : List (String × String) :=
  g.nodes.flatMap fun x => (g.neighbors x).toList.map (x, ·)

theorem toList_adjacency (g : Graph) :
    g.adjacency.toList = g.nodes.map fun x => (x, g.neighbors x) := by
  rw [nodes, ← Std.ExtTreeMap.map_fst_toList_eq_keys, List.map_map]
  refine (List.map_id _).symm.trans (List.map_congr_left fun (x, ys) h => ?_)
  rw [Std.ExtTreeMap.mem_toList_iff_getElem?_eq_some] at h
  simp [neighbors, Std.ExtTreeMap.getD_eq_getD_getElem?, h]

/-- Only nodes have neighbors. -/
theorem Adj.mem_nodes (h : g.Adj x y) : x ∈ g.nodes := by
  rw [Graph.mem_nodes]
  by_contra hx
  rw [Adj, neighbors, Std.ExtTreeMap.getD_eq_fallback hx] at h
  exact Std.ExtTreeSet.not_mem_empty h

theorem mem_arcs : (x, y) ∈ g.arcs ↔ g.Adj x y := by
  simp only [arcs, List.mem_flatMap, List.mem_map, Std.ExtTreeSet.mem_toList, Prod.mk.injEq]
  constructor
  · rintro ⟨a, -, b, h, rfl, rfl⟩
    exact h
  · exact fun h => ⟨x, h.mem_nodes, y, h, rfl, rfl⟩

theorem edges_eq (g : Graph) : g.edges = g.arcs.filter fun p => p.1 < p.2 := by
  rw [edges, arcs, toList_adjacency, List.flatMap_map, List.filter_flatMap]
  simp only [List.filter_map, Function.comp_def]

theorem mem_edges : (x, y) ∈ g.edges ↔ x < y ∧ g.Adj x y := by
  rw [edges_eq, List.mem_filter, mem_arcs, decide_eq_true_eq, and_comm]

/-! ## Order -/

theorem pairwise_lt_arcs (g : Graph) : g.arcs.Pairwise (Prod.Lex (· < ·) (· < ·)) := by
  rw [arcs, List.pairwise_flatMap]
  constructor
  · intro x _
    exact (Coloring.pairwise_lt_toList _).map _ fun y z h => .right x h
  · refine (pairwise_lt_nodes g).imp fun h p hp q hq => ?_
    obtain ⟨y, -, rfl⟩ := List.mem_map.mp hp
    obtain ⟨z, -, rfl⟩ := List.mem_map.mp hq
    exact .left y z h

theorem pairwise_lt_edges (g : Graph) : g.edges.Pairwise (Prod.Lex (· < ·) (· < ·)) :=
  edges_eq g ▸ (pairwise_lt_arcs g).filter _

theorem nodup_arcs (g : Graph) : g.arcs.Nodup :=
  (pairwise_lt_arcs g).imp fun h => by
    rintro rfl
    exact irrefl _ h

theorem nodup_edges (g : Graph) : g.edges.Nodup := edges_eq g ▸ (nodup_arcs g).filter _

/-! ## Degrees -/

theorem sum_degree_eq (g : Graph) : (g.nodes.map g.degree).sum = g.arcs.length := by
  simp only [arcs, List.length_flatMap, List.length_map, Std.ExtTreeSet.length_toList]
  rfl

section
variable (hsymm : ∀ {x y}, g.Adj x y → g.Adj y x) (hirrefl : ∀ x, ¬ g.Adj x x)
include hsymm hirrefl

/-- The arcs that do not go up are the edges turned round. -/
theorem perm_swap_edges :
    g.edges.map Prod.swap |>.Perm (g.arcs.filter fun p => !decide (p.1 < p.2)) := by
  have hnodup : (g.edges.map Prod.swap).Nodup := (nodup_edges g).map Prod.swap_injective
  refine (List.perm_ext_iff_of_nodup hnodup ((nodup_arcs g).filter _)).mpr fun (x, y) => ?_
  rw [List.mem_map, List.mem_filter, mem_arcs, Bool.not_eq_true', decide_eq_false_iff_not]
  constructor
  · rintro ⟨⟨a, b⟩, h, hab⟩
    obtain ⟨rfl, rfl⟩ := Prod.mk.inj hab
    obtain ⟨hlt, hadj⟩ := mem_edges.mp h
    exact ⟨hsymm hadj, String.lt_asymm hlt⟩
  · rintro ⟨hadj, hnot⟩
    have hne : y ≠ x := by
      rintro rfl
      exact hirrefl y hadj
    have hlt : y < x := Std.lt_of_le_of_ne (String.not_lt.mp hnot) hne
    exact ⟨(y, x), mem_edges.mpr ⟨hlt, hsymm hadj⟩, rfl⟩

theorem sum_degree : (g.nodes.map g.degree).sum = 2 * g.edges.length := by
  have hdown := (perm_swap_edges hsymm hirrefl).length_eq
  have hsplit := List.length_eq_length_filter_add (l := g.arcs) fun p => p.1 < p.2
  rw [List.length_map] at hdown
  rw [← edges_eq, ← hdown] at hsplit
  rw [sum_degree_eq, hsplit, Nat.two_mul]

end

theorem isolated_eq (g : Graph) : g.isolated = g.nodes.filter (g.degree · = 0) := by
  rw [isolated]
  refine List.filter_congr fun x _ => ?_
  rw [Std.ExtTreeSet.isEmpty_eq_size_beq_zero, beq_eq_decide, degree]

/-- Whatever the order in which nodes and edges are added: two names are joined exactly if they
differ and were joined in one order or the other, a neighbor is a node, a loop makes no node, each
edge is listed once, its smaller end first, in ascending order, the degrees sum to twice the number
of edges, and the nodes of degree zero are isolated. -/
theorem simple_graph (ops : List Op) :
    let g := ofOps ops
    (∀ x y, g.hasEdge x y ↔ x ≠ y ∧ (.edge x y ∈ ops ∨ .edge y x ∈ ops)) ∧
    (∀ x y, g.hasEdge x y = g.hasEdge y x) ∧ (∀ x, g.hasEdge x x = false) ∧
    (∀ x, ∀ y ∈ g.neighbors x, y ∈ g.nodes) ∧
    (∀ x, x ∈ g.nodes ↔ .node x ∈ ops ∨ ∃ y, g.hasEdge x y) ∧
    (∀ a b, (a, b) ∈ g.edges ↔ a < b ∧ g.hasEdge a b) ∧
    g.edges.Pairwise (Prod.Lex (· < ·) (· < ·)) ∧
    (g.nodes.map g.degree).sum = 2 * g.edges.length ∧
    g.isolated = g.nodes.filter (g.degree · = 0) := by
  intro g
  have hirrefl (x : String) : ¬ g.Adj x x := fun h => (adj_ofOps.mp h).1 rfl
  refine ⟨fun x y => hasEdge_iff.trans adj_ofOps, fun x y => ?_, fun x => ?_, fun x y hy => ?_,
    fun x => ?_, fun a b => ?_, pairwise_lt_edges g, sum_degree adj_ofOps_symm hirrefl,
    isolated_eq g⟩
  · rw [Bool.eq_iff_iff, hasEdge_iff, hasEdge_iff]
    exact ⟨adj_ofOps_symm, adj_ofOps_symm⟩
  · rw [Bool.eq_false_iff, ne_eq, hasEdge_iff]
    exact hirrefl x
  · exact (adj_ofOps_symm hy).mem_nodes
  · simp only [mem_nodes_ofOps, hasEdge_iff, g]
  · rw [mem_edges, hasEdge_iff]

example :
    let g := ofOps [.edge "y" "x", .edge "x" "y", .edge "z" "z", .node "w"]
    g.nodes = ["w", "x", "y"] ∧ g.edges = [("x", "y")] ∧ g.isolated = ["w"] := by
  decide +kernel

end IrAsm.Graph
