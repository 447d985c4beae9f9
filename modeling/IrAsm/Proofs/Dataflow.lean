import IrAsm.Proofs.Liveness
import Mathlib.Data.List.Chain

/-!
# The dataflow equations

`LivePath points v n path`: the path goes from `n` along successors to a point that reads `v`, and
no point before its last one writes `v`. `Solves points l`: the sets `l` satisfy the equations of
liveness at every point.

The analysis comes to rest after at most one sweep more than there are points. What is live before a
point by its result is what has such a path (`live_iff_exists_path`), and the result is the least
solution (`solves_analyze`, `Solves.mem_inAt`).
-/

namespace IrAsm

namespace Liveness

structure LivePath (points : List Point) (v : String) (n : Nat) (path : List Nat) : Prop where
  head : path.head? = some n
  chain : path.IsChain fun a b => ∃ p, points[a]? = some p ∧ b ∈ p.succs
  read : ∃ m p, path.getLast? = some m ∧ points[m]? = some p ∧ v ∈ p.uses
  kept : ∀ m ∈ path.dropLast, ∀ p, points[m]? = some p → v ∉ p.defs

theorem LivePath.cons {points : List Point} {v : String} {n s : Nat} {p : Point} {path : List Nat}
    (h : LivePath points v s path) (hp : points[n]? = some p) (hd : v ∉ p.defs) (hs : s ∈ p.succs) :
    LivePath points v n (n :: path) := by
  obtain ⟨hhead, hchain, hread, hkept⟩ := h
  obtain ⟨rest, rfl⟩ := List.head?_eq_some_iff.mp hhead
  refine ⟨rfl, List.isChain_cons_cons.mpr ⟨⟨p, hp, hs⟩, hchain⟩, ?_, ?_⟩
  · rwa [List.getLast?_cons_cons]
  · rw [List.dropLast_cons_cons, List.forall_mem_cons]
    refine ⟨fun q hq => ?_, hkept⟩
    rwa [← Option.some.inj (hp.symm.trans hq)]

theorem LivePath.live {points : List Point} {v : String} {n : Nat} {path : List Nat}
    (h : LivePath points v n path) : Live points n v := by
  induction path generalizing n with
  | nil => cases h.head
  | cons a path ih =>
    obtain ⟨hhead, hchain, hread, hkept⟩ := h
    obtain rfl : a = n := Option.some.inj hhead
    cases path with
    | nil =>
      obtain ⟨m, p, hm, hp, hu⟩ := hread
      obtain rfl : a = m := Option.some.inj hm
      exact ⟨0, .here hp hu⟩
    | cons s path =>
      obtain ⟨⟨p, hp, hs⟩, hchain⟩ := List.isChain_cons_cons.mp hchain
      rw [List.getLast?_cons_cons] at hread
      rw [List.dropLast_cons_cons, List.forall_mem_cons] at hkept
      exact (ih ⟨rfl, hchain, hread, hkept.2⟩).later hp (hkept.1 p hp) hs

theorem live_iff_exists_path {points : List Point} {n : Nat} {v : String} :
    Live points n v ↔ ∃ path, LivePath points v n path := by
  constructor
  · rintro ⟨m, hm⟩
    induction hm with
    | @here n p hp hu => exact ⟨[n], rfl, .singleton n, ⟨n, p, rfl, hp, hu⟩, by simp⟩
    | later hp hd hs _ ih =>
      obtain ⟨path, h⟩ := ih
      exact ⟨_, h.cons hp hd hs⟩
  · rintro ⟨path, h⟩
    exact h.live

structure Solves (points : List Point) (l : Liveness) : Prop extends Fits points l where
  out_eq : ∀ {n p}, points[n]? = some p → l.outAt n = NameSet.unions (p.succs.map l.inAt)
  in_eq : ∀ {n p}, points[n]? = some p → l.inAt n = p.uses ∪ (l.outAt n \ p.defs)

namespace Solves

variable {points : List Point} {l : Liveness} {n : Nat} {v : String}

theorem mem_outAt_iff (h : Solves points l) {p : Point} (hp : points[n]? = some p) :
    v ∈ l.outAt n ↔ ∃ s ∈ p.succs, v ∈ l.inAt s := by
  rw [h.out_eq hp, NameSet.mem_unions]
  simp

theorem mem_inAt_iff (h : Solves points l) {p : Point} (hp : points[n]? = some p) :
    v ∈ l.inAt n ↔ v ∈ p.uses ∨ v ∈ l.outAt n ∧ v ∉ p.defs := by
  rw [h.in_eq hp, Std.ExtTreeSet.mem_union_iff, Std.ExtTreeSet.mem_diff_iff]

/-- Every solution has all that is live. -/
theorem mem_inAt (h : Solves points l) (hv : Live points n v) : v ∈ l.inAt n := by
  obtain ⟨m, hm⟩ := hv
  induction hm with
  | here hp hu => exact (h.mem_inAt_iff hp).mpr (.inl hu)
  | later hp hd hs _ ih =>
    exact (h.mem_inAt_iff hp).mpr (.inr ⟨(h.mem_outAt_iff hp).mpr ⟨_, hs, ih⟩, hd⟩)

end Solves

theorem solves_analyze (points : List Point) : Solves points (analyze points) := by
  refine ⟨fits_analyze points, fun {n p} hp => ?_, fun {n p} hp => ?_⟩
  · ext v
    rw [mem_outAt_analyze, NameSet.mem_unions]
    simp [hp]
  · ext v
    rw [mem_inAt_analyze, Std.ExtTreeSet.mem_union_iff, Std.ExtTreeSet.mem_diff_iff,
      mem_outAt_analyze]
    constructor
    · rintro ⟨m, hm⟩
      cases hm with
      | here hq hu => exact .inl (Option.some.inj (hp.symm.trans hq) ▸ hu)
      | later hq hd hs hm =>
        obtain rfl := Option.some.inj (hp.symm.trans hq)
        exact .inr ⟨⟨p, hp, _, hs, _, hm⟩, hd⟩
    · rintro (hu | ⟨⟨q, hq, s, hs, hlive⟩, hd⟩)
      · exact ⟨0, .here hp hu⟩
      · obtain rfl := Option.some.inj (hp.symm.trans hq)
        exact hlive.later hp hd hs

theorem sweep_analyze (points : List Point) : sweep points (analyze points) = analyze points := by
  rw [analyze_eq_swept]
  exact sweep_swept (Nat.lt_succ_self _)

end Liveness

namespace Flow

open Liveness

/-- The live sets of points whose successors are points: sweeps from empty sets come to rest, and
where they do, a name is live before a point exactly if a path leads from there to a read of it
without a write before, and it is live after a point if it is so before a successor. The sets are
the least solution of the equations. -/
theorem live_sets_exact {fl : Flow} (function : String) (h : fl.inRange) :
    ∃ l, fl.analyze function = .ok l ∧
      (∃ k ≤ fl.points.length + 1,
        l = (sweep fl.points)^[k] (Liveness.empty fl.points.length)) ∧ sweep fl.points l = l ∧
      (∀ n v, v ∈ l.inAt n ↔ ∃ path, LivePath fl.points v n path) ∧
      (∀ n p, fl.points[n]? = some p → l.outAt n = NameSet.unions (p.succs.map l.inAt)) ∧
      Solves fl.points l ∧
      ∀ l', Solves fl.points l' → ∀ n v,
        (v ∈ l.inAt n → v ∈ l'.inAt n) ∧ (v ∈ l.outAt n → v ∈ l'.outAt n) := by
  refine ⟨Liveness.analyze fl.points, if_pos h, ⟨_, Nat.le_refl _, analyze_eq_swept _⟩,
    sweep_analyze _, fun n v => mem_inAt_analyze.trans live_iff_exists_path,
    fun n p hp => (solves_analyze _).out_eq hp, solves_analyze _, fun l' hl' n v => ⟨?_, ?_⟩⟩
  · exact fun hv => hl'.mem_inAt (mem_inAt_analyze.mp hv)
  · intro hv
    obtain ⟨p, hp, s, hs, hlive⟩ := mem_outAt_analyze.mp hv
    exact (hl'.mem_outAt_iff hp).mpr ⟨s, hs, hl'.mem_inAt hlive⟩

/-- A loop that reads `n` at its head. -/
def loop : Flow where
  points := [
    ⟨⟨.icmp .slt, [.reg "i", .reg "n"], some "c", .int 64⟩, [1], .ofList ["i", "n"], .ofList ["c"]⟩,
    ⟨⟨.br, [.reg "c", .label "body", .label "exit"], none, .void⟩, [2, 4], .ofList ["c"], ∅⟩,
    ⟨⟨.arith .add, [.reg "i", .imm 1], some "i", .int 64⟩, [3], .ofList ["i"], .ofList ["i"]⟩,
    ⟨⟨.br, [.label "head"], none, .void⟩, [0], ∅, ∅⟩,
    ⟨⟨.ret, [.reg "i"], none, .int 64⟩, [], .ofList ["i"], ∅⟩]
  labels := [("head", 0), ("body", 2), ("exit", 4)]
  allocas := []

/-- What the head reads is live in the body, which comes back to it. -/
theorem live_sets_exact_loop :
    loop.inRange ∧ ∃ l, loop.analyze "f" = .ok l ∧ "n" ∈ l.inAt 2 ∧ "n" ∈ l.outAt 3 := by
  have hr : loop.inRange := by decide
  have hhead : LivePath loop.points "n" 0 [0] :=
    ⟨rfl, .singleton 0, ⟨0, _, rfl, rfl, NameSet.mem_ofList.mpr (by decide)⟩, by simp⟩
  have hback : LivePath loop.points "n" 3 [3, 0] := hhead.cons rfl (by simp) (by simp)
  have hbody : LivePath loop.points "n" 2 [2, 3, 0] :=
    hback.cons rfl (by rw [NameSet.mem_ofList]; decide) (by simp)
  obtain ⟨l, hl, -, -, hin, -, hs, -⟩ := live_sets_exact "f" hr
  refine ⟨hr, l, hl, (hin 2 "n").mpr ⟨_, hbody⟩, ?_⟩
  exact (hs.mem_outAt_iff (n := 3) rfl).mpr ⟨0, by simp, (hin 0 "n").mpr ⟨_, hhead⟩⟩

end Flow

end IrAsm
