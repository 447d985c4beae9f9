import IrAsm.Module.Verify
import IrAsm.Proofs.Dataflow
import IrAsm.Proofs.Success
import IrAsm.Proofs.Walk

/-!
# Sweeps from any sets

A sweep computes the sets anew and does not add to those it finds, so from arbitrary sets names can
get lost as well as found. `Pass points v n m`: a sweep takes `v` over from before point `m` to
before point `n`. Steps forward lead to sets that the same sweep has computed already, so there are
any number of them and then one step backward to `m`; no point on the way writes `v`.
`Carried points seed v t n`: `t` such moves in a row lead from `n` to a point before which `v` was
in `seed`.

After `t` sweeps the sets hold what is carried over `t` backward steps, besides live names
(`mem_iterate_iff`). So they come to rest exactly if each name that is not live is carried to a
point for all large `t` or for none, and the square of the number of points is large enough
(`rests_iff`). From sets that have only live names all is found and nothing else comes in, as from
empty sets.
-/

namespace IrAsm

namespace Liveness

inductive Pass (points : List Point) (v : String) : Nat → Nat → Prop where
  | back {n m : Nat} {p : Point} : points[n]? = some p → v ∉ p.defs → m ∈ p.succs → m ≤ n →
      Pass points v n m
  | forth {n s m : Nat} {p : Point} : points[n]? = some p → v ∉ p.defs → s ∈ p.succs → n < s →
      Pass points v s m → Pass points v n m

def Carried (points : List Point) (seed : Liveness) (v : String) (t n : Nat) : Prop :=
  ∃ m, Walk (Pass points v) t n m ∧ v ∈ seed.inAt m

/-- Some sweep from `seed` on changes nothing. -/
def Rests (points : List Point) (seed : Liveness) : Prop :=
  ∃ k, (sweep points)^[k + 1] seed = (sweep points)^[k] seed

variable {points : List Point} {l l' seed : Liveness} {v : String} {n m t k : Nat}

/-! ## One sweep -/

theorem Pass.within (points : List Point) (v : String) : Within (Pass points v) points.length := by
  intro n m h
  induction h with
  | back hp _ _ hle =>
    have := (List.getElem?_eq_some_iff.mp hp).1
    omega
  | forth hp _ _ _ _ ih => exact ⟨(List.getElem?_eq_some_iff.mp hp).1, ih.2⟩

theorem Pass.live (h : Pass points v n m) (hv : Live points m v) : Live points n v := by
  induction h with
  | back hp hd hs _ => exact hv.later hp hd hs
  | forth hp hd hs _ _ ih => exact (ih hv).later hp hd hs

theorem Pass.mem_sweep (h : Pass points v n m) (hl : Fits points l) (hv : v ∈ l.inAt m) :
    v ∈ (sweep points l).inAt n := by
  induction h with
  | back hp hd hs hle =>
    refine (mem_inAt_sweep hl hp).mpr (.inr ⟨hd, _, hs, ?_⟩)
    rwa [if_pos hle]
  | forth hp hd hs hlt _ ih =>
    refine (mem_inAt_sweep hl hp).mpr (.inr ⟨hd, _, hs, ?_⟩)
    rw [if_neg (Nat.not_le_of_lt hlt)]
    exact ih hv

theorem Fits.lt_of_mem (h : Fits points l) (hv : v ∈ l.inAt n) : n < points.length := by
  by_contra hn
  simp [inAt, Array.getElem?_eq_none (h.liveIn ▸ Nat.le_of_not_lt hn)] at hv

/-- What a sweep leaves before a point is read ahead of it, or was taken over. -/
theorem live_or_pass {n : Nat} (hl : Fits points l) (hv : v ∈ (sweep points l).inAt n) :
    Live points n v ∨ ∃ m, Pass points v n m ∧ v ∈ l.inAt m := by
  have hn := hl.sweep.lt_of_mem hv
  have hp := List.getElem?_eq_getElem hn
  rcases (mem_inAt_sweep hl hp).mp hv with hu | ⟨hd, s, hs, hv⟩
  · exact .inl ⟨0, .here hp hu⟩
  · split at hv
    · next hle => exact .inr ⟨s, .back hp hd hs hle, hv⟩
    · next hlt =>
      rw [Nat.not_le] at hlt
      rcases live_or_pass hl hv with hlive | ⟨m, hpass, hm⟩
      · exact .inl (hlive.later hp hd hs)
      · exact .inr ⟨m, .forth hp hd hs hlt hpass, hm⟩
termination_by points.length - n

/-- Where fewer names were live before points, a sweep leaves no more of them. -/
theorem inAt_sweep_mono {n : Nat} (hl : Fits points l) (hl' : Fits points l')
    (h : ∀ n, ∀ v ∈ l.inAt n, v ∈ l'.inAt n) (hv : v ∈ (sweep points l).inAt n) :
    v ∈ (sweep points l').inAt n := by
  have hn := hl.sweep.lt_of_mem hv
  have hp := List.getElem?_eq_getElem hn
  rcases (mem_inAt_sweep hl hp).mp hv with hu | ⟨hd, s, hs, hv⟩
  · exact (mem_inAt_sweep hl' hp).mpr (.inl hu)
  · refine (mem_inAt_sweep hl' hp).mpr (.inr ⟨hd, s, hs, ?_⟩)
    split at hv
    · next hle => rw [if_pos hle]; exact h s v hv
    · next hlt =>
      rw [if_neg hlt]
      exact inAt_sweep_mono hl hl' h hv
termination_by points.length - n

/-- A sweep does not look at what was live after points. -/
theorem sweep_congr (hl : Fits points l) (hl' : Fits points l') (h : ∀ n, l.inAt n = l'.inAt n) :
    sweep points l = sweep points l' := by
  have hin (n : Nat) : (sweep points l).inAt n = (sweep points l').inAt n := by
    ext v
    exact ⟨inAt_sweep_mono hl hl' fun m w hw => h m ▸ hw,
      inAt_sweep_mono hl' hl fun m w hw => h m ▸ hw⟩
  refine hl.sweep.ext hl'.sweep hin fun n p hp => ?_
  ext v
  rw [mem_outAt_sweep hl hp, mem_outAt_sweep hl' hp]
  simp only [h, hin]

/-! ## Many sweeps -/

theorem Carried.mem_iterate (h : Carried points seed v t n) (hs : Fits points seed) :
    v ∈ ((sweep points)^[t] seed).inAt n := by
  obtain ⟨m, hwalk, hm⟩ := h
  induction hwalk with
  | refl => exact hm
  | step hpass _ ih =>
    rw [iterate_succ]
    exact hpass.mem_sweep (hs.iterate _) (ih hm)

theorem live_or_carried (hs : Fits points seed) (hv : v ∈ ((sweep points)^[t] seed).inAt n) :
    Live points n v ∨ Carried points seed v t n := by
  induction t generalizing n with
  | zero => exact .inr ⟨n, .refl n, hv⟩
  | succ t ih =>
    rw [iterate_succ] at hv
    rcases live_or_pass (hs.iterate t) hv with hlive | ⟨m, hpass, hm⟩
    · exact .inl hlive
    · rcases ih hm with hlive | ⟨m', hwalk, hseed⟩
      · exact .inl (hpass.live hlive)
      · exact .inr ⟨m', .step hpass hwalk, hseed⟩

theorem mem_iterate_iff (hs : Fits points seed) (hv : ¬ Live points n v) :
    v ∈ ((sweep points)^[t] seed).inAt n ↔ Carried points seed v t n :=
  ⟨fun h => (live_or_carried hs h).resolve_left hv, fun h => h.mem_iterate hs⟩

/-- Sets at rest stay as they are. -/
theorem iterate_eq_of_rest (h : (sweep points)^[k + 1] seed = (sweep points)^[k] seed)
    (hk : k ≤ t) : (sweep points)^[t] seed = (sweep points)^[k] seed := by
  induction t, hk using Nat.le_induction with
  | base => rfl
  | succ t _ ih => rw [iterate_succ, ih, ← iterate_succ, h]

/-- Sets come to rest in one way only. -/
theorem iterate_eq_of_rests (h : (sweep points)^[k + 1] seed = (sweep points)^[k] seed)
    (h' : (sweep points)^[t + 1] seed = (sweep points)^[t] seed) :
    (sweep points)^[k] seed = (sweep points)^[t] seed := by
  rw [← iterate_eq_of_rest h (Nat.le_max_left k t), iterate_eq_of_rest h' (Nat.le_max_right k t)]

/-- Sets that a sweep exchanges never come to rest. -/
theorem iterate_ne_of_exchange (h : sweep points l = l') (h' : sweep points l' = l)
    (hne : l ≠ l') (k : Nat) : (sweep points)^[k + 1] l ≠ (sweep points)^[k] l := by
  have hboth : (sweep points)^[k] l = l ∨ (sweep points)^[k] l = l' := by
    induction k with
    | zero => exact .inl rfl
    | succ k ih =>
      rw [iterate_succ]
      rcases ih with ih | ih
      · right
        rw [ih, h]
      · left
        rw [ih, h']
  rw [iterate_succ]
  rcases hboth with hk | hk
  · rw [hk, h]
    exact hne.symm
  · rw [hk, h']
    exact hne

/-- Once the sets before points stay the same, so do all sets. -/
theorem rest_of_inAt (hs : Fits points seed)
    (h : ∀ n, ((sweep points)^[k + 1] seed).inAt n = ((sweep points)^[k] seed).inAt n) :
    (sweep points)^[k + 2] seed = (sweep points)^[k + 1] seed := by
  rw [iterate_succ, sweep_congr (hs.iterate (k + 1)) (hs.iterate k) h, ← iterate_succ]

/-- If the sets come to rest, those before points have done so after as many sweeps as the square of
the number of points. -/
theorem inAt_iterate_of_rest (hs : Fits points seed)
    (hk : (sweep points)^[k + 1] seed = (sweep points)^[k] seed)
    (ht : points.length * points.length ≤ t) :
    ((sweep points)^[t] seed).inAt n = ((sweep points)^[k] seed).inAt n := by
  have hle : points.length ≤ points.length * points.length := Nat.le_mul_self _
  ext v
  by_cases hn : n < points.length
  case neg =>
    exact iff_of_false (fun h => hn ((hs.iterate t).lt_of_mem h)) fun h =>
      hn ((hs.iterate k).lt_of_mem h)
  by_cases hv : Live points n v
  · -- both have what is live, the one that is at rest as all that come after it
    have hlarge := iterate_eq_of_rest hk (Nat.le_add_right k points.length)
    exact iff_of_true (hv.mem_iterate hs (by omega)) (hlarge ▸ hv.mem_iterate hs (by omega))
  · have hlarge : ∀ u ≥ k, (Carried points seed v u n ↔ Carried points seed v k n) := by
      intro u hu
      rw [← mem_iterate_iff hs hv, ← mem_iterate_iff hs hv, iterate_eq_of_rest hk hu]
    rw [mem_iterate_iff hs hv, mem_iterate_iff hs hv]
    exact Walk.exists_iff_of_large (Pass.within points v) (by omega) hlarge ht

theorem Rests.iterate_eq (h : Rests points seed) (hs : Fits points seed)
    (ht : points.length * points.length < t) :
    (sweep points)^[t + 1] seed = (sweep points)^[t] seed := by
  obtain ⟨k, hk⟩ := h
  obtain ⟨t, rfl⟩ : ∃ u, t = u + 1 := ⟨t - 1, by omega⟩
  refine rest_of_inAt hs fun n => ?_
  have hall (u : Nat) (hu : t ≤ u) := inAt_iterate_of_rest (n := n) (t := u) hs hk (by omega)
  rw [hall t (Nat.le_refl t), hall (t + 1) (Nat.le_succ t)]

/-- The sets come to rest exactly if every name that is not live before a point is carried to it
over both of two successive numbers of backward steps, or over neither. -/
theorem rests_iff (hs : Fits points seed) (ht : points.length * points.length ≤ t) :
    Rests points seed ↔ ∀ n v, ¬ Live points n v →
      (Carried points seed v t n ↔ Carried points seed v (t + 1) n) := by
  have hle : points.length ≤ points.length * points.length := Nat.le_mul_self _
  constructor
  · rintro ⟨k, hk⟩ n v hv
    have hall (u : Nat) (hu : t ≤ u) := inAt_iterate_of_rest (n := n) (t := u) hs hk (by omega)
    rw [← mem_iterate_iff hs hv, ← mem_iterate_iff hs hv, hall t (Nat.le_refl t),
      hall (t + 1) (Nat.le_succ t)]
  · intro h
    refine ⟨t + 1, rest_of_inAt hs fun n => ?_⟩
    ext v
    by_cases hv : Live points n v
    · exact iff_of_true (hv.mem_iterate hs (by omega)) (hv.mem_iterate hs (by omega))
    · rw [mem_iterate_iff hs hv, mem_iterate_iff hs hv, h n v hv]

/-! ## Refinement -/

theorem exists_settle (points : List Point) (fuel : Nat) (l : Liveness) :
    ∃ k, settle points fuel l = (sweep points)^[k] l := by
  induction fuel generalizing l with
  | zero => exact ⟨0, rfl⟩
  | succ fuel ih =>
    rw [settle]
    split
    · exact ⟨0, rfl⟩
    · obtain ⟨k, hk⟩ := ih (sweep points l)
      exact ⟨k + 1, hk⟩

/-- Refinement gives the sets at which the sweeps come to rest. -/
theorem refine?_eq_some_iff (hs : Fits points seed) :
    refine? points seed = some l ↔ ∃ k, (sweep points)^[k] seed = l ∧ sweep points l = l := by
  have hbound : points.length * points.length + 1 ≤ sweepBound points.length := by
    unfold sweepBound
    nlinarith
  unfold refine?
  split
  · -- without points there are no sets
    next hnil =>
    obtain rfl := List.isEmpty_iff.mp hnil
    have hsweep : sweep [] = id := rfl
    have hempty : seed = empty 0 := by
      refine hs.ext (fits_empty []) (fun n => ?_) fun n p hp => by simp at hp
      ext v
      exact iff_of_false (fun h => absurd (hs.lt_of_mem h) (Nat.not_lt_zero n))
        fun h => absurd ((fits_empty []).lt_of_mem h) (Nat.not_lt_zero n)
    simp [hsweep, hempty]
  · simp only [Option.ite_none_right_eq_some, Option.some.injEq]
    constructor
    · rintro ⟨hrest, rfl⟩
      obtain ⟨k, hk⟩ := exists_settle points (sweepBound points.length) seed
      exact ⟨k, hk.symm, hrest⟩
    · rintro ⟨k, rfl, hrest⟩
      have hk := (iterate_succ points k seed).trans hrest
      have hlate := Rests.iterate_eq ⟨k, hk⟩ hs (Nat.lt_succ_self _)
      have hsettle : settle points (sweepBound points.length) seed = (sweep points)^[k] seed := by
        rw [settle_eq_iterate hbound (by rw [← iterate_succ, hlate]), iterate_eq_of_rests hlate hk]
      rw [hsettle]
      exact ⟨hrest, rfl⟩

theorem refine?_eq_none_iff (hs : Fits points seed) :
    refine? points seed = none ↔ ∀ k, (sweep points)^[k + 1] seed ≠ (sweep points)^[k] seed := by
  simp only [Option.eq_none_iff_forall_ne_some, Ne, refine?_eq_some_iff hs, iterate_succ]
  constructor
  · exact fun h k hk => h _ ⟨k, rfl, hk⟩
  · rintro h l ⟨k, rfl, hk⟩
    exact h k hk

end Liveness

/-- Three blocks that lead around, the second and the third each to the one above it and the first
to the third, and a way out that none of them takes. -/
def Function.circling : Function where
  name := "f"
  ret := .void
  params := []
  blocks := [
    ⟨some "a", [⟨.br, [.label "c"], none, .void⟩]⟩,
    ⟨some "b", [⟨.br, [.label "a"], none, .void⟩]⟩,
    ⟨some "c", [⟨.br, [.label "b"], none, .void⟩]⟩,
    ⟨some "d", [⟨.ret, [], none, .void⟩]⟩]

namespace Flow

open Liveness

variable {fl : Flow} {seed : Liveness}

theorem refine_eq (function : String) (hr : fl.inRange) (hs : Fits fl.points seed) :
    fl.refine function seed = .ok (refine? fl.points seed) := by
  have hcovers : seed.covers fl.points := by
    simpa [covers, hs.liveIn, hs.liveOut, inRange] using hr
  rw [Flow.refine, if_pos hcovers]

/-- Sets that hold one name, before and after each marked point. -/
def holding (marks : List Bool) : Liveness :=
  let sets : Array NameSet := (marks.map fun mark => if mark then .ofList ["x"] else ∅).toArray
  ⟨sets, sets⟩

theorem fits_holding {points : List Point} {marks : List Bool} (h : points.length = marks.length) :
    Fits points (holding marks) :=
  ⟨by simp [holding, h], by simp [holding, h]⟩

/-- A sweep exchanges the sets of two points, and leaves them alone where all three agree. -/
theorem sweep_circling :
    ∃ fl, Flow.build Function.circling = .ok fl ∧ fl.inRange ∧ fl.points.length = 4 ∧
      sweep fl.points (holding [true, false, true, false]) = holding [false, true, false, false] ∧
    sweep fl.points (holding [false, true, false, false]) = holding [true, false, true, false] ∧
    sweep fl.points (holding [true, true, true, false]) = holding [true, true, true, false] := by
  have h : (Flow.build Function.circling).toOption.any
      (fun fl => fl.inRange && fl.points.length = 4 &&
      sweep fl.points (holding [true, false, true, false]) = holding [false, true, false, false] &&
      sweep fl.points (holding [false, true, false, false]) = holding [true, false, true, false] &&
      sweep fl.points (holding [true, true, true, false]) = holding [true, true, true, false]) := by
    decide +kernel
  simpa only [Option.any_eq_true, toOption_eq_some_iff, Bool.and_eq_true, decide_eq_true_eq,
    and_assoc] using h

/-- Sweeps from any sets. Refinement gives the sets that a sweep leaves alone, if one of those to
come does, and nothing exactly if every sweep changes some set. There is such a sweep exactly if
every name that is not live before a point is carried to it from the seed over `N * N` backward
steps and over one more, or over neither, where `N` is the number of points; and then the sets are
at rest after `N * N + 1` sweeps. -/
theorem refine_ends_iff (function : String) (hr : fl.inRange) (hs : Fits fl.points seed) :
    let N := fl.points.length
    (∀ l, fl.refine function seed = .ok (some l) ↔
      ∃ k, (sweep fl.points)^[k] seed = l ∧ sweep fl.points l = l) ∧
    (fl.refine function seed = .ok none ↔
      ∀ k, (sweep fl.points)^[k + 1] seed ≠ (sweep fl.points)^[k] seed) ∧
    (Rests fl.points seed ↔ ∀ n v, ¬ Live fl.points n v →
      (Carried fl.points seed v (N * N) n ↔ Carried fl.points seed v (N * N + 1) n)) ∧
    (Rests fl.points seed →
      ∀ k > N * N, (sweep fl.points)^[k + 1] seed = (sweep fl.points)^[k] seed) := by
  rw [refine_eq function hr hs]
  refine ⟨fun l => ?_, ?_, rests_iff hs (Nat.le_refl _), fun h k hk => h.iterate_eq hs hk⟩
  · rw [Except.ok.injEq, refine?_eq_some_iff hs]
  · rw [Except.ok.injEq, refine?_eq_none_iff hs]

theorem refine_ends_iff_circling : ∃ fl, Flow.build Function.circling = .ok fl ∧
    fl.refine "f" (holding [true, false, true, false]) = .ok none ∧
    fl.refine "f" (holding [true, true, true, false]) =
      .ok (some (holding [true, true, true, false])) := by
  obtain ⟨fl, hb, hr, hlen, hfrom, hto, hstay⟩ := sweep_circling
  have hsome : Fits fl.points (holding [true, false, true, false]) := fits_holding hlen
  have hall : Fits fl.points (holding [true, true, true, false]) := fits_holding hlen
  have hne : holding [true, false, true, false] ≠ holding [false, true, false, false] := by
    decide +kernel
  refine ⟨fl, hb, ?_, ?_⟩
  · exact (refine_ends_iff "f" hr hsome).2.1.mpr (iterate_ne_of_exchange hfrom hto hne)
  · exact ((refine_ends_iff "f" hr hall).1 _).mpr ⟨0, rfl, hstay⟩

/-- Sets of a function that passes verification, of which every sweep changes some. -/
theorem refine_endless_circling : Function.circling.verify = .ok () ∧
    ∃ fl, Flow.build Function.circling = .ok fl ∧ fl.inRange ∧
      Fits fl.points (holding [true, false, true, false]) ∧
      ∀ k, (sweep fl.points)^[k + 1] (holding [true, false, true, false]) ≠
        (sweep fl.points)^[k] (holding [true, false, true, false]) := by
  obtain ⟨fl, hb, hr, hlen, hfrom, hto, -⟩ := sweep_circling
  exact ⟨ok_of_toBool (by decide +kernel), fl, hb, hr, fits_holding hlen,
    iterate_ne_of_exchange hfrom hto (by decide +kernel)⟩

/-- From sets that have no more than what the analysis finds live before points, whatever they have
after points, refinement gives what the analysis gives, after at most one sweep more than there are
points. -/
theorem refine_from_below {function : String} {l : Liveness} (hl : fl.analyze function = .ok l)
    (hs : Fits fl.points seed) (hle : ∀ n, ∀ v ∈ seed.inAt n, v ∈ l.inAt n) :
    fl.refine function seed = .ok (some l) ∧
      (∃ k ≤ fl.points.length + 1, (sweep fl.points)^[k] seed = l) ∧ sweep fl.points l = l ∧
      fl.refine function l = .ok (some l) := by
  obtain ⟨hr, rfl⟩ := Flow.analyze_ok_iff.mp hl
  have hrest := sweep_analyze fl.points
  have hsound : Sound fl.points seed := fun n v hv => mem_inAt_analyze.mp (hle n v hv)
  have hfound : (sweep fl.points)^[fl.points.length + 1] seed = Liveness.analyze fl.points := by
    rw [analyze_eq_swept]
    exact iterate_eq_iterate hs hsound (Nat.lt_succ_self _) (fits_empty _) (sound_empty _)
      (Nat.lt_succ_self _)
  refine ⟨?_, ⟨_, Nat.le_refl _, hfound⟩, hrest, ?_⟩
  · rw [refine_eq function hr hs, (refine?_eq_some_iff hs).mpr ⟨_, hfound, hrest⟩]
  · rw [refine_eq function hr (fits_analyze _)]
    exact congrArg Except.ok ((refine?_eq_some_iff (fits_analyze _)).mpr ⟨0, rfl, hrest⟩)

/-- Sets for the points of `loop`: less than what is live before them, and after them names that
occur nowhere. -/
def scattered : Liveness where
  liveIn := #[∅, ∅, .ofList ["n"], ∅, ∅]
  liveOut := #[.ofList ["x"], ∅, .ofList ["y"], .ofList ["n"], .ofList ["z"]]

/-- The sets are completed, and what they had after points is lost. -/
theorem refine_from_below_loop : ∃ l, loop.analyze "f" = .ok l ∧ scattered ≠ l ∧
    loop.refine "f" scattered = .ok (some l) := by
  have hl : loop.analyze "f" = .ok (Liveness.analyze loop.points) := if_pos (by decide)
  have hs : Fits loop.points scattered := ⟨rfl, rfl⟩
  have hchanges : sweep loop.points scattered ≠ scattered := by decide +kernel
  refine ⟨_, hl, fun h => hchanges (h ▸ sweep_analyze _),
    (refine_from_below hl hs fun n v hv => ?_).1⟩
  have honly : ∀ n < 5, ∀ v ∈ (scattered.inAt n).toList, n = 2 ∧ v = "n" := by decide +kernel
  obtain ⟨rfl, rfl⟩ := honly n (hs.lt_of_mem hv) v (Std.ExtTreeSet.mem_toList.mpr hv)
  -- the body goes on to the head, which reads the name
  have hhead : Live loop.points 0 "n" := ⟨0, .here rfl (by decide +kernel)⟩
  have hback : Live loop.points 3 "n" := Live.later rfl (by decide +kernel) (by decide) hhead
  exact mem_inAt_analyze.mpr (Live.later rfl (by decide +kernel) (by decide) hback)

end Flow

end IrAsm
