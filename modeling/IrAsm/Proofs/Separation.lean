import IrAsm.Compile
import IrAsm.Proofs.Coloring
import IrAsm.Proofs.Flow

/-!
# Names that are live together have different colors

`fl.Reachable n`: point `n` is reached from the first point along successors. At such a point, two
names that are live together interfere. On entry they do by construction. Later, what is live before
a point is live after the point before it; there both were live before already, or one of them was
just written while the other was live. So every coloring separates them (`live_names_separated`).
-/

namespace IrAsm

inductive Flow.Reachable (fl : Flow) : Nat → Prop where
  | entry : fl.Reachable 0
  | step {n s : Nat} {p : Point} : fl.Reachable n → fl.points[n]? = some p → s ∈ p.succs →
      fl.Reachable s

/-- If each point may be followed by the next, all are reachable. -/
theorem Flow.reachable_of_succs {fl : Flow} (h : ∀ n < fl.points.length, n + 1 < fl.points.length →
      n + 1 ∈ (fl.points.map Point.succs)[n]?.getD []) {n : Nat} (hn : n < fl.points.length) :
    fl.Reachable n := by
  induction n with
  | zero => exact .entry
  | succ n ih =>
    have hlt : n < fl.points.length := Nat.lt_of_succ_lt hn
    have hsucc := h n hlt hn
    rw [List.getElem?_map, List.getElem?_eq_getElem hlt] at hsucc
    exact .step (ih hlt) (List.getElem?_eq_getElem hlt) hsucc

theorem Flow.mem_temporaries {fl : Flow} {x : String} :
    x ∈ fl.temporaries ↔ ∃ p ∈ fl.points, x ∈ p.uses ∨ x ∈ p.defs := by
  simp only [temporaries, NameSet.mem_unions, List.mem_map]
  constructor
  · rintro ⟨_, ⟨p, hp, rfl⟩, hx⟩; exact ⟨p, hp, Std.ExtTreeSet.mem_union_iff.mp hx⟩
  · rintro ⟨p, hp, hx⟩; exact ⟨_, ⟨p, hp, rfl⟩, Std.ExtTreeSet.mem_union_iff.mpr hx⟩

theorem Liveness.Live.mem_temporaries {fl : Flow} {n : Nat} {v : String}
    (h : Live fl.points n v) : v ∈ fl.temporaries := by
  obtain ⟨m, hm⟩ := h
  induction hm with
  | here hp hu => exact Flow.mem_temporaries.mpr ⟨_, List.mem_of_getElem? hp, .inl hu⟩
  | later _ _ _ _ ih => exact ih

/-- A name that no point writes is live on entry if it is live at a reachable point. -/
theorem Flow.Reachable.live {fl : Flow} {n : Nat} {v : String} (hn : fl.Reachable n)
    (hd : ∀ p ∈ fl.points, v ∉ p.defs) (h : Liveness.Live fl.points n v) :
    Liveness.Live fl.points 0 v := by
  induction hn with
  | entry => exact h
  | step _ hp hs ih => exact ih (h.later hp (hd _ (List.mem_of_getElem? hp)) hs)

/-- What is live or written where a point ends. -/
def Flow.LiveOrWritten (fl : Flow) (n : Nat) (x : String) : Prop :=
  x ∈ (Liveness.analyze fl.points).outAt n ∨ ∃ p, fl.points[n]? = some p ∧ x ∈ p.defs

theorem Flow.LiveOrWritten.mem_temporaries {fl : Flow} {n : Nat} {x : String}
    (h : fl.LiveOrWritten n x) : x ∈ fl.temporaries := by
  rcases h with h | ⟨p, hp, hx⟩
  · obtain ⟨_, _, s, -, hs⟩ := Liveness.mem_outAt_analyze.mp h
    exact hs.mem_temporaries
  · exact Flow.mem_temporaries.mpr ⟨p, List.mem_of_getElem? hp, .inr hx⟩

namespace Flow

/-- The interference graph of the points. -/
def interference (fl : Flow) : Graph := Graph.interference fl.points (Liveness.analyze fl.points)

theorem adj_of_write {fl : Flow} {n : Nat} {p : Point} (hp : fl.points[n]? = some p) {x y : String}
    (hx : x ∈ p.defs) (hy : y ∈ (Liveness.analyze fl.points).outAt n) (hxy : x ≠ y) :
    fl.interference.Adj x y :=
  (Graph.adj_interference (Liveness.fits_analyze _)).mpr ⟨hxy, .inr ⟨n, p, hp, .inl ⟨hx, hy⟩⟩⟩

theorem adj_symm {fl : Flow} {x y : String} (h : fl.interference.Adj x y) :
    fl.interference.Adj y x :=
  Graph.Adj.symm_interference (Liveness.fits_analyze _) h

theorem Represents.defs_unique {f : Function} {fl : Flow} (h : Represents f fl) {p : Point}
    (hp : p ∈ fl.points) {x y : String} (hx : x ∈ p.defs) (hy : y ∈ p.defs) : x = y := by
  rw [h.defs p hp] at hx hy
  exact Option.some.inj ((mem_writes hx).symm.trans (mem_writes hy))

/-- If the names live before a point interfere, so do those live or written where it ends. -/
theorem Represents.adj_out {f : Function} {fl : Flow} (h : Represents f fl) {n : Nat}
    (hin : ∀ x y, Liveness.Live fl.points n x → Liveness.Live fl.points n y → x ≠ y →
      fl.interference.Adj x y) {x y : String} (hx : fl.LiveOrWritten n x)
    (hy : fl.LiveOrWritten n y) (hxy : x ≠ y) : fl.interference.Adj x y := by
  rcases hx with hx | ⟨p, hp, hx⟩
  · rcases hy with hy | ⟨q, hq, hy⟩
    · obtain ⟨p, hp, s, hs, hxs⟩ := Liveness.mem_outAt_analyze.mp hx
      obtain ⟨q, hq, t, ht, hyt⟩ := Liveness.mem_outAt_analyze.mp hy
      obtain rfl : p = q := by rw [hp] at hq; exact Option.some.inj hq
      by_cases hdx : x ∈ p.defs
      · exact adj_of_write hp hdx hy hxy
      by_cases hdy : y ∈ p.defs
      · exact adj_symm (adj_of_write hp hdy hx hxy.symm)
      -- neither is written here, so both were live before
      exact hin x y (hxs.later hp hdx hs) (hyt.later hp hdy ht) hxy
    · exact adj_symm (adj_of_write hq hy hx hxy.symm)
  · rcases hy with hy | ⟨q, hq, hy⟩
    · exact adj_of_write hp hx hy hxy
    · obtain rfl : p = q := by rw [hp] at hq; exact Option.some.inj hq
      exact absurd (h.defs_unique (List.mem_of_getElem? hp) hx hy) hxy

/-- Names that are live together at a reachable point interfere. -/
theorem Represents.adj_in {f : Function} {fl : Flow} (h : Represents f fl) {n : Nat}
    (hn : fl.Reachable n) : ∀ x y, Liveness.Live fl.points n x → Liveness.Live fl.points n y →
      x ≠ y → fl.interference.Adj x y := by
  induction hn with
  | entry =>
    intro x y hx hy hxy
    refine (Graph.adj_interference (Liveness.fits_analyze _)).mpr ⟨hxy, .inl ?_⟩
    rw [Liveness.mem_inAt_analyze, Liveness.mem_inAt_analyze]
    exact ⟨hx, hy⟩
  | @step n s p _ hp hs ih =>
    intro x y hx hy hxy
    refine h.adj_out ih (.inl ?_) (.inl ?_) hxy
    · exact Liveness.mem_outAt_analyze.mpr ⟨p, hp, s, hs, hx⟩
    · exact Liveness.mem_outAt_analyze.mpr ⟨p, hp, s, hs, hy⟩

end Flow

/-- Both names have a color, and not the same. -/
def Coloring.Separates (c : Coloring) (x y : String) : Prop :=
  ∃ m n, c.get? x = some m ∧ c.get? y = some n ∧ m ≠ n

theorem Coloring.Proper.separates {g : Graph} {k : Nat} {nodes : NameSet} {c : Coloring}
    (h : Proper g k nodes c) {x y : String} (hx : x ∈ nodes) (hy : y ∈ nodes) (hxy : x ≠ y)
    (hadj : g.Adj x y) : c.Separates x y := by
  obtain ⟨m, hm⟩ := Option.isSome_iff_exists.mp ((h.isSome_iff x).mpr hx)
  obtain ⟨n, hn⟩ := Option.isSome_iff_exists.mp ((h.isSome_iff y).mpr hy)
  exact ⟨m, n, hm, hn, fun e => h.ne hxy hadj hm (e ▸ hn)⟩

theorem Flow.proper_of_find {fl : Flow} {k : Nat} {c : Coloring}
    (h : Coloring.find fl.interference fl.temporaries k = .ok c) :
    c.Proper fl.interference k fl.temporaries :=
  Coloring.proper_of_find Flow.adj_symm h

namespace Function

theorem analyze_ok_iff {f : Function} {found : Flow × Liveness × Graph} : f.analyze = .ok found ↔
    ∃ fl, Flow.build f = .ok fl ∧ fl.inRange ∧
      found = (fl, Liveness.analyze fl.points, fl.interference) := by
  simp only [analyze, bind_ok_iff, pure_ok_iff, Flow.analyze_ok_iff]
  constructor
  · rintro ⟨fl, hb, live, ⟨hr, rfl⟩, rfl⟩
    exact ⟨fl, hb, hr, rfl⟩
  · rintro ⟨fl, hb, hr, rfl⟩
    exact ⟨fl, hb, _, ⟨hr, rfl⟩, rfl⟩

theorem analyze_of_build {f : Function} {fl : Flow} (hb : Flow.build f = .ok fl) (hr : fl.inRange) :
    f.analyze = .ok (fl, Liveness.analyze fl.points, fl.interference) :=
  analyze_ok_iff.mpr ⟨fl, hb, hr, rfl⟩

/-- The analysis of a verified function succeeds. -/
theorem analyze_of_wellFormed {f : Function} (hf : f.WellFormed) :
    ∃ fl, Flow.build f = .ok fl ∧
      f.analyze = .ok (fl, Liveness.analyze fl.points, fl.interference) := by
  obtain ⟨fl, hb⟩ := Flow.exists_build hf
  exact ⟨fl, hb, analyze_of_build hb ((Flow.represents_of_build hf hb).inRange hf)⟩

/-- Names that are live together have different registers: before every reachable point, and where
it ends with what it writes. -/
theorem live_names_separated {f : Function} (hv : f.verify = .ok ()) :
    ∃ fl live graph, f.analyze = .ok (fl, live, graph) ∧
      ∀ k c, Coloring.find graph fl.temporaries k = .ok c →
        ∀ n p, fl.points[n]? = some p → fl.Reachable n →
          (∀ x ∈ live.inAt n, ∀ y ∈ live.inAt n, x ≠ y → c.Separates x y) ∧
          ∀ x ∈ live.outAt n ∪ p.defs, ∀ y ∈ live.outAt n ∪ p.defs, x ≠ y → c.Separates x y := by
  have hf := wellFormed_of_verify hv
  obtain ⟨fl, hb, ha⟩ := analyze_of_wellFormed hf
  have h := Flow.represents_of_build hf hb
  refine ⟨fl, _, _, ha, fun k c hc n p hp hn => ?_⟩
  have hproper := Flow.proper_of_find hc
  constructor
  · intro x hx y hy hxy
    rw [Liveness.mem_inAt_analyze] at hx hy
    exact hproper.separates hx.mem_temporaries hy.mem_temporaries hxy (h.adj_in hn x y hx hy hxy)
  · intro x hx y hy hxy
    have hlw : ∀ z ∈ (Liveness.analyze fl.points).outAt n ∪ p.defs, fl.LiveOrWritten n z :=
      fun z hz => (Std.ExtTreeSet.mem_union_iff.mp hz).imp_right fun hd => ⟨p, hp, hd⟩
    exact hproper.separates (hlw x hx).mem_temporaries (hlw y hy).mem_temporaries hxy
      (h.adj_out (h.adj_in hn) (hlw x hx) (hlw y hy) hxy)

/-- The difference of two parameters. -/
def difference : Function where
  name := "f"
  ret := .int 64
  params := [⟨"a", .int 64⟩, ⟨"b", .int 64⟩]
  blocks := [⟨none, [⟨.arith .sub, [.reg "a", .reg "b"], some "x", .int 64⟩,
    ⟨.ret, [.reg "x"], none, .int 64⟩]⟩]

theorem live_names_separated_difference :
    difference.verify = .ok () ∧ ∃ fl live graph c, difference.analyze = .ok (fl, live, graph) ∧
      Coloring.find graph fl.temporaries 2 = .ok c ∧ c.Separates "a" "b" := by
  have hv : difference.verify = .ok () := ok_of_toBool (by decide +kernel)
  obtain ⟨fl, live, graph, ha, h⟩ := live_names_separated hv
  have heval : (difference.analyze.toOption.map fun x =>
      ((Coloring.find x.2.2 x.1.temporaries 2).toBool, x.1.points[0]?.isSome,
        decide ("a" ∈ x.2.1.inAt 0), decide ("b" ∈ x.2.1.inAt 0))) =
          some (true, true, true, true) := by
    decide +kernel
  simp only [ha, Except.toOption, Option.map_some, Option.some.injEq, Prod.mk.injEq,
    decide_eq_true_eq] at heval
  obtain ⟨hc, hp, hxa, hxb⟩ := heval
  obtain ⟨c, hc⟩ := exists_ok_of_toBool hc
  obtain ⟨p, hp⟩ := Option.isSome_iff_exists.mp hp
  exact ⟨hv, fl, live, graph, c, ha, hc,
    (h 2 c hc 0 p hp .entry).1 "a" hxa "b" hxb (by decide)⟩

end Function

end IrAsm
