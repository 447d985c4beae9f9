import IrAsm.Proofs.Core
import IrAsm.Proofs.Separation
import Mathlib.Data.List.Sort

/-!
# The interference graph, exactly

`x ∈ g.nodes` is described like the edges were: by what each operation on graphs adds. An edge
brings its ends along as nodes, so the interference graph could have nodes that are no temporaries.
It has none, since what is live at a point is read somewhere (`nodes_interference`).
-/

namespace IrAsm

namespace Graph

variable {g : Graph} {x y z : String}

/-! ## Nodes -/

theorem mem_nodes : x ∈ g.nodes ↔ x ∈ g.adjacency := Std.ExtTreeMap.mem_keys

theorem pairwise_lt_nodes (g : Graph) : g.nodes.Pairwise (· < ·) :=
  g.adjacency.ordered_keys.imp fun h => compareOfLessAndEq_eq_lt.mp h

theorem mem_nodes_addNode : x ∈ (g.addNode z).nodes ↔ x = z ∨ x ∈ g.nodes := by
  rw [mem_nodes, mem_nodes, addNode, Std.ExtTreeMap.mem_insertIfNew,
    Std.LawfulEqCmp.compare_eq_iff_eq, eq_comm]

theorem mem_nodes_addNodes {names : List String} :
    x ∈ (g.addNodes names).nodes ↔ x ∈ names ∨ x ∈ g.nodes := by
  unfold addNodes
  induction names generalizing g with
  | nil => simp
  | cons z names ih =>
    rw [List.foldl_cons, ih, mem_nodes_addNode, List.mem_cons]
    tauto

/-- An edge adds its ends, a loop adds nothing. -/
theorem mem_nodes_addEdge :
    x ∈ (g.addEdge y z).nodes ↔ y ≠ z ∧ (x = y ∨ x = z) ∨ x ∈ g.nodes := by
  unfold addEdge
  split
  · next h => simp [h]
  · next h =>
    simp only [mem_nodes, Std.ExtTreeMap.mem_insert, Std.LawfulEqCmp.compare_eq_iff_eq]
    grind

theorem mem_nodes_addEdges {ps : List (String × String)} :
    x ∈ (g.addEdges ps).nodes ↔ (∃ p ∈ ps, p.1 ≠ p.2 ∧ (x = p.1 ∨ x = p.2)) ∨ x ∈ g.nodes := by
  unfold addEdges
  induction ps generalizing g with
  | nil => simp
  | cons p ps ih =>
    rw [List.foldl_cons, ih, mem_nodes_addEdge, List.exists_mem_cons_iff, or_left_comm,
      or_assoc]

end Graph

namespace Flow

variable {fl : Flow} {x : String}

/-- The ends of an edge are temporaries: they are written, or live and so read somewhere. -/
theorem mem_temporaries_of_pairs {p : String × String}
    (h : p ∈ Graph.entryPairs (Liveness.analyze fl.points) ++
      Graph.writePairs fl.points (Liveness.analyze fl.points)) :
    p.1 ∈ fl.temporaries ∧ p.2 ∈ fl.temporaries := by
  rcases List.mem_append.mp h with h | h
  · obtain ⟨h1, h2⟩ := Graph.mem_entryPairs.mp h
    rw [Liveness.mem_inAt_analyze] at h1 h2
    exact ⟨h1.mem_temporaries, h2.mem_temporaries⟩
  · obtain ⟨n, q, hq, hd, ho⟩ := (Graph.mem_writePairs (Liveness.fits_analyze _)).mp h
    exact ⟨LiveOrWritten.mem_temporaries (.inr ⟨q, hq, hd⟩),
      LiveOrWritten.mem_temporaries (.inl ho)⟩

theorem mem_nodes_interference : x ∈ fl.interference.nodes ↔ x ∈ fl.temporaries := by
  have hnodes : x ∈ fl.points.flatMap (fun p => p.uses.toList ++ p.defs.toList) ↔
      x ∈ fl.temporaries := by
    simp [mem_temporaries]
  have hempty : x ∉ Graph.empty.nodes := by simp [Graph.mem_nodes, Graph.empty]
  rw [interference, Graph.interference, Graph.mem_nodes_addEdges, Graph.mem_nodes_addNodes, hnodes]
  constructor
  · rintro (⟨p, hp, -, rfl | rfl⟩ | h | h)
    · exact (mem_temporaries_of_pairs hp).1
    · exact (mem_temporaries_of_pairs hp).2
    · exact h
    · exact absurd h hempty
  · exact fun h => .inr (.inl h)

theorem nodes_interference : fl.interference.nodes = fl.temporaries.toList := by
  refine (Graph.pairwise_lt_nodes _).eq_of_mem_iff (Coloring.pairwise_lt_toList _) fun x => ?_
  rw [mem_nodes_interference, Std.ExtTreeSet.mem_toList]

end Flow

namespace Function

/-- The interference graph of a function whose branches stay within it, verified or not: its nodes
are the temporaries, in ascending order, and two different names are joined exactly if both are live
on entry, or a point writes one of them and the other is live after it. -/
theorem interference_exact {f : Function} {fl : Flow} (hb : Flow.build f = .ok fl)
    (hr : fl.inRange) :
    ∃ live graph, f.analyze = .ok (fl, live, graph) ∧ live = Liveness.analyze fl.points ∧
      graph.nodes = fl.temporaries.toList ∧
      ∀ a b, graph.hasEdge a b ↔ a ≠ b ∧ (a ∈ live.inAt 0 ∧ b ∈ live.inAt 0 ∨
        ∃ n p, fl.points[n]? = some p ∧
          (a ∈ p.defs ∧ b ∈ live.outAt n ∨ b ∈ p.defs ∧ a ∈ live.outAt n)) := by
  refine ⟨_, _, analyze_of_build hb hr, rfl, Flow.nodes_interference, fun a b => ?_⟩
  rw [Graph.hasEdge_iff]
  exact Graph.adj_interference (Liveness.fits_analyze _)

/-- A loop that writes `d` and never reads it. -/
def idle : Function where
  name := "f"
  ret := .int 64
  params := [⟨"a", .int 64⟩, ⟨"b", .int 64⟩]
  blocks := [
    ⟨some "head", [⟨.icmp .slt, [.reg "a", .reg "b"], some "c", .int 64⟩,
      ⟨.br, [.reg "c", .label "body", .label "exit"], none, .void⟩]⟩,
    ⟨some "body", [⟨.arith .add, [.reg "b", .imm 1], some "d", .int 64⟩,
      ⟨.br, [.label "head"], none, .void⟩]⟩,
    ⟨some "exit", [⟨.ret, [.reg "a"], none, .int 64⟩]⟩]

/-- What is written for nothing interferes with what the next round needs, though not with
itself. -/
theorem interference_exact_idle :
    ∃ fl live graph, Flow.build idle = .ok fl ∧ fl.inRange ∧ idle.analyze = .ok (fl, live, graph) ∧
      graph.nodes = ["a", "b", "c", "d"] ∧ graph.hasEdge "d" "a" ∧ ¬ graph.hasEdge "d" "d" := by
  have heval : (Flow.build idle).toOption.any fun fl =>
      fl.inRange && fl.temporaries.toList = ["a", "b", "c", "d"] &&
      fl.points[2]?.any (fun p => 3 ∈ p.succs && "d" ∈ p.defs) &&
      fl.points[3]?.any (fun p => 0 ∈ p.succs && "a" ∉ p.defs) &&
        fl.points[0]?.any ("a" ∈ ·.uses) := by
    decide +kernel
  simp only [Option.any_eq_true, toOption_eq_some_iff, Bool.and_eq_true, decide_eq_true_eq] at heval
  obtain ⟨fl, hb, ⟨⟨⟨hr, hnames⟩, p, hp, hnext, hd⟩, q, hq, hback, hkeeps⟩, head, hhead, hreads⟩ :=
    heval
  -- the branch back leads to a point that reads `a`
  have hlive : Liveness.Live fl.points 3 "a" :=
    Liveness.Live.later hq hkeeps hback ⟨0, .here hhead hreads⟩
  obtain ⟨live, graph, hfound, rfl, hnodes, hedge⟩ := interference_exact hb hr
  refine ⟨fl, _, graph, hb, hr, hfound, hnodes.trans hnames,
    (hedge "d" "a").mpr ⟨by decide, .inr ?_⟩, fun h => ((hedge "d" "d").mp h).1 rfl⟩
  exact ⟨2, p, hp, .inl ⟨hd, Liveness.mem_outAt_analyze.mpr ⟨p, hp, 3, hnext, hlive⟩⟩⟩

end Function

end IrAsm
