import IrAsm.Proofs.Flow
import IrAsm.Proofs.Liveness

/-!
# Liveness along the paths of a function

`f.Path path`: control can visit the points of `path` one after another, from the first point on.
`ReadsAfter fl path v i`: the path visits `i` and later a point that reads `v`, with no write of `v`
between the two. `Covers f fl`: whenever a path does so, `v` is live after `i` by the analysis.

The successors of the analysis are where control can go, but for the last point, which has none. So
the live sets of a verified function cover its paths unless some path reads a name after leaving the
last point (`covers_iff`), which takes a function whose last instruction is a branch.
-/

namespace IrAsm.Function

def Path (f : Function) (path : List Nat) : Prop := path.head? = some 0 ∧ path.IsChain f.Next

structure ReadsBetween (fl : Flow) (path : List Nat) (v : String) (a b : Nat) : Prop where
  lt : a < b
  read : ∃ j p, path[b]? = some j ∧ fl.points[j]? = some p ∧ v ∈ p.uses
  kept : ∀ c k q, a < c → c < b → path[c]? = some k → fl.points[k]? = some q → v ∉ q.defs

def ReadsAfter (fl : Flow) (path : List Nat) (v : String) (i : Nat) : Prop :=
  ∃ a b, path[a]? = some i ∧ ReadsBetween fl path v a b

def Covers (f : Function) (fl : Flow) : Prop :=
  ∀ path v i, f.Path path → ReadsAfter fl path v i → v ∈ (Liveness.analyze fl.points).outAt i

theorem Path.next {f : Function} {path : List Nat} (h : f.Path path) {a i j : Nat}
    (hi : path[a]? = some i) (hj : path[a + 1]? = some j) : f.Next i j := by
  obtain ⟨hlt, rfl⟩ := List.getElem?_eq_some_iff.mp hj
  obtain ⟨_, rfl⟩ := List.getElem?_eq_some_iff.mp hi
  exact List.isChain_iff_getElem.mp h.2 a hlt

/-- A path goes on after a point if it comes to a later one. -/
theorem Path.next_of_lt {f : Function} {path : List Nat} (h : f.Path path) {a b i j : Nat}
    (hi : path[a]? = some i) (hj : path[b]? = some j) (hab : a < b) :
    ∃ k, path[a + 1]? = some k ∧ f.Next i k := by
  have hb := (List.getElem?_eq_some_iff.mp hj).1
  have hlt : a + 1 < path.length := by omega
  exact ⟨_, List.getElem?_eq_getElem hlt, h.next hi (List.getElem?_eq_getElem hlt)⟩

/-- Along a path that stays off the last point, a name that is read next is live. -/
theorem live_of_reads {f : Function} {fl : Flow} (h : fl.Represents f) {path : List Nat}
    (hpath : f.Path path) {v : String} {a b i : Nat} (hi : path[a]? = some i) (hab : a ≤ b)
    (hread : ∃ j p, path[b]? = some j ∧ fl.points[j]? = some p ∧ v ∈ p.uses)
    (hkept : ∀ c k q, a ≤ c → c < b → path[c]? = some k → fl.points[k]? = some q →
      v ∉ q.defs ∧ k + 1 ≠ f.body.length) :
    Liveness.Live fl.points i v := by
  induction hn : b - a generalizing a i with
  | zero =>
    obtain rfl : a = b := by omega
    obtain ⟨j, p, hj, hp, hu⟩ := hread
    obtain rfl : i = j := by rw [hi] at hj; exact Option.some.inj hj
    exact ⟨0, .here hp hu⟩
  | succ n ih =>
    obtain ⟨_, _, hj, -⟩ := hread
    obtain ⟨k, hk, hnext⟩ := hpath.next_of_lt hi hj (by omega)
    have hp := hnext
    obtain ⟨ins, hins, -⟩ := hp
    obtain ⟨p, hp, -⟩ := h.exists_point hins
    obtain ⟨hd, hlast⟩ := hkept a i p (by omega) (by omega) hi hp
    obtain ⟨p', hp', hs⟩ := h.mem_succs_of_next hnext hlast
    obtain rfl : p = p' := by rw [hp] at hp'; exact Option.some.inj hp'
    refine (ih hk (by omega) ?_ (by omega)).later hp hd hs
    exact fun c k q hac hcb => hkept c k q (by omega) hcb

theorem mem_outAt_of_reads {f : Function} {fl : Flow} (h : fl.Represents f) {path : List Nat}
    (hpath : f.Path path) {v : String} {a b i : Nat} (hi : path[a]? = some i)
    (hr : ReadsBetween fl path v a b)
    (hoff : ∀ c k, a ≤ c → c < b → path[c]? = some k → k + 1 ≠ f.body.length) :
    v ∈ (Liveness.analyze fl.points).outAt i := by
  obtain ⟨hab, hread, hkept⟩ := hr
  have hj := hread
  obtain ⟨_, _, hj, -⟩ := hj
  obtain ⟨k, hk, hnext⟩ := hpath.next_of_lt hi hj hab
  obtain ⟨p, hp, hs⟩ := h.mem_succs_of_next hnext (hoff a i (by omega) (by omega) hi)
  rw [Liveness.mem_outAt_analyze]
  refine ⟨p, hp, k, hs, live_of_reads h hpath hk (by omega) hread ?_⟩
  exact fun c k q hac hcb hk hq => ⟨hkept c k q (by omega) hcb hk hq, hoff c k (by omega) hcb hk⟩

/-- Nothing is live after the last point. -/
theorem not_mem_outAt_last {f : Function} {fl : Flow} (h : fl.Represents f) {v : String} {n : Nat}
    (hn : n + 1 = f.body.length) : v ∉ (Liveness.analyze fl.points).outAt n := by
  rw [Liveness.mem_outAt_analyze]
  rintro ⟨p, hp, s, hs, -⟩
  exact ((h.succs hp).mp hs).1 hn

theorem covers_iff {f : Function} {fl : Flow} (h : fl.Represents f) :
    f.Covers fl ↔
      ∀ path v n, f.Path path → n + 1 = f.body.length → ¬ ReadsAfter fl path v n := by
  constructor
  · intro hc path v n hpath hn hr
    exact not_mem_outAt_last h hn (hc path v n hpath hr)
  · intro hno path v i hpath hr
    obtain ⟨a, b, hi, hr⟩ := hr
    refine mem_outAt_of_reads h hpath hi hr fun c k hac hcb hk hlast => ?_
    -- a path through the last point reads `v` after leaving it
    exact hno path v k hpath hlast
      ⟨c, b, hk, hcb, hr.read, fun d k q hd hdb => hr.kept d k q (by omega) hdb⟩

/-- The live sets of a verified function cover its paths exactly if no path reads a name after
leaving the last point without writing it first. So it is if the last instruction is no branch. -/
theorem live_sets_cover_paths_iff {f : Function} (hv : f.verify = .ok ()) :
    ∃ fl, Flow.build f = .ok fl ∧
      (f.Covers fl ↔
        ∀ path v n, f.Path path → n + 1 = f.body.length → ¬ ReadsAfter fl path v n) ∧
      ((∀ last, f.body.getLast? = some last → last.opcode ≠ .br) → f.Covers fl) := by
  have hf := wellFormed_of_verify hv
  obtain ⟨fl, hb⟩ := Flow.exists_build hf
  have h := Flow.represents_of_build hf hb
  refine ⟨fl, hb, covers_iff h, fun hlast => (covers_iff h).mpr ?_⟩
  rintro path v n hpath hn ⟨a, b, hi, hab, ⟨j, p, hj, -⟩, -⟩
  -- the last instruction is a `ret`, from which no path goes on
  obtain ⟨k, -, ins, hins, hm⟩ := hpath.next_of_lt hi hj hab
  have hl : f.body.getLast? = some ins := by
    rw [List.getLast?_eq_getElem?, ← hins]; congr 1; omega
  have hterm := hf.isTerminator_last hl
  have hbr := hlast ins hl
  cases hop : ins.opcode with
  | ret => rw [hop] at hm; exact hm
  | br => exact hbr hop
  | _ => rw [hop] at hterm; cases hterm

/-- A function that ends with a branch back. What `out` reads is read after the last point. -/
def branchBack : Function where
  name := "f"
  ret := .int 64
  params := [⟨"a", .int 64⟩]
  blocks :=
    [⟨some "entry", [⟨.br, [.label "go"], none, .void⟩]⟩,
      ⟨some "out", [⟨.ret, [.reg "a"], none, .int 64⟩]⟩,
      ⟨some "go", [⟨.arith .add, [.imm 1, .imm 2], some "x", .int 64⟩,
        ⟨.br, [.label "out"], none, .void⟩]⟩]

theorem live_sets_cover_paths_iff_branchBack :
    branchBack.verify = .ok () ∧ ∃ fl, Flow.build branchBack = .ok fl ∧
      (branchBack.Covers fl ↔
        ∀ path v n, branchBack.Path path → n + 1 = 4 → ¬ ReadsAfter fl path v n) ∧
      ((∀ last, branchBack.body.getLast? = some last → last.opcode ≠ .br) →
        branchBack.Covers fl) := by
  have h : branchBack.verify = .ok () := ok_of_toBool (by decide +kernel)
  exact ⟨h, live_sets_cover_paths_iff h⟩

/-- The live sets miss that `a` is read after the last point. -/
theorem not_covers_branchBack :
    branchBack.verify = .ok () ∧ ∃ fl, Flow.build branchBack = .ok fl ∧ ¬ branchBack.Covers fl := by
  have hv : branchBack.verify = .ok () := ok_of_toBool (by decide +kernel)
  have hf := wellFormed_of_verify hv
  obtain ⟨fl, hb⟩ := Flow.exists_build hf
  have h := Flow.represents_of_build hf hb
  refine ⟨hv, fl, hb, fun hc => (covers_iff h).mp hc [0, 2, 3, 1] "a" 3 ?_ rfl ?_⟩
  · refine ⟨rfl, ?_⟩
    simp only [List.isChain_cons_cons, List.IsChain.singleton, and_true]
    exact ⟨⟨_, rfl, "go", by decide, by decide⟩, ⟨_, rfl, rfl⟩,
      ⟨_, rfl, "out", by decide, by decide⟩⟩
  · obtain ⟨p, hp, hi⟩ := h.exists_point (n := 1) (i := ⟨.ret, [.reg "a"], none, .int 64⟩) rfl
    have hna : "a" ∉ fl.allocas := by
      rw [h.allocas]; decide
    refine ⟨2, 3, rfl, by decide, ⟨1, p, rfl, hp, ?_⟩, fun c k q h1 h2 => by omega⟩
    exact h.mem_uses (List.mem_of_getElem? hp) (by rw [hi]; decide) hna

end IrAsm.Function
