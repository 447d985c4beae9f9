import IrAsm.Proofs.Separation

/-!
# The analysis stays within its sets

`Liveness.analyze` and `Graph.interference` look up sets by the index of a point and take the empty
set where there is none. `analyze?` and `interference?` are the same computations with lookups that
can fail: they have no result if one of them is out of range. `analyze?` has a result exactly if all
successors are points, and then it is that of `analyze` (`analyze?_eq`). So it is enough that
successors are points, and those of a verified function are: each of its blocks ends with a
terminator, so it has a point of its own to start at.
-/

namespace IrAsm

theorem mapM_getElem? {α : Type} (sets : Array α) (d : α) (is : List Nat) :
    is.mapM (sets[·]?) =
      if ∀ i ∈ is, i < sets.size then some (is.map (sets.getD · d)) else none := by
  induction is with
  | nil => simp
  | cons i is ih =>
    rw [List.mapM_cons, ih]
    by_cases hi : i < sets.size
    · by_cases his : ∀ j ∈ is, j < sets.size
      · have hall : ∀ j ∈ i :: is, j < sets.size := List.forall_mem_cons.mpr ⟨hi, his⟩
        rw [if_pos his, if_pos hall]
        simp [hi]
      · have hall : ¬ ∀ j ∈ i :: is, j < sets.size := fun h => his (List.forall_mem_cons.mp h).2
        rw [if_neg his, if_neg hall]
        simp [hi]
    · have hall : ¬ ∀ j ∈ i :: is, j < sets.size := fun h => hi (List.forall_mem_cons.mp h).1
      rw [if_neg hall]
      simp [hi]

namespace Liveness

variable {points : List Point} {l : Liveness}

/-! ## Lookups that can fail -/

def after? (l : Liveness) (p : Point) : Option NameSet :=
  (p.succs.mapM (l.liveIn[·]?)).map NameSet.unions

/-- Recomputes the sets of a point, and writes them if they have changed. -/
def update? (p : Point × Nat) (l : Liveness) : Option Liveness := do
  let out ← l.after? p.1
  let live := before p.1 out
  let oldOut ← l.liveOut[p.2]?
  let oldIn ← l.liveIn[p.2]?
  if out = oldOut ∧ live = oldIn then return l
  else
    return { liveIn := l.liveIn.setIfInBounds p.2 live,
             liveOut := l.liveOut.setIfInBounds p.2 out }

def sweep? (points : List Point) (l : Liveness) : Option Liveness := points.zipIdx.foldrM update? l

def settle? (points : List Point) : Nat → Liveness → Option Liveness
  | 0, l => some l
  | fuel + 1, l => do
    let l' ← sweep? points l
    if l' = l then return l else settle? points fuel l'

def analyze? (points : List Point) : Option Liveness :=
  settle? points (sweepBound points.length) (empty points.length)

/-! ## When they succeed -/

/-- All successors are points. -/
def InRange (points : List Point) : Prop := ∀ p ∈ points, ∀ s ∈ p.succs, s < points.length

instance (points : List Point) : Decidable (InRange points) :=
  inferInstanceAs (Decidable (∀ p ∈ points, ∀ s ∈ p.succs, s < points.length))

theorem after?_eq (l : Liveness) (p : Point) :
    l.after? p = if ∀ s ∈ p.succs, s < l.liveIn.size then some (l.after p) else none := by
  rw [after?, mapM_getElem? l.liveIn ∅]
  split
  · rfl
  · rfl

/-- To write sets that have not changed makes no difference. -/
theorem update_of_eq {p : Point × Nat} (hin : l.liveIn[p.2]? = some (before p.1 (l.after p.1)))
    (hout : l.liveOut[p.2]? = some (l.after p.1)) : update p l = l := by
  obtain ⟨hi, hin⟩ := Array.getElem?_eq_some_iff.mp hin
  obtain ⟨ho, hout⟩ := Array.getElem?_eq_some_iff.mp hout
  dsimp only [update]
  rw [← hin, ← hout, Array.setIfInBounds_def, dif_pos hi, Array.set_getElem_self,
    Array.setIfInBounds_def, dif_pos ho, Array.set_getElem_self]

theorem update?_eq {p : Point × Nat} (hi : p.2 < l.liveIn.size) (ho : p.2 < l.liveOut.size) :
    update? p l = if ∀ s ∈ p.1.succs, s < l.liveIn.size then some (update p l) else none := by
  simp only [update?, after?_eq]
  by_cases hs : ∀ s ∈ p.1.succs, s < l.liveIn.size
  · have hin : l.liveIn[p.2]? = some l.liveIn[p.2] := Array.getElem?_eq_getElem hi
    have hout : l.liveOut[p.2]? = some l.liveOut[p.2] := Array.getElem?_eq_getElem ho
    simp only [if_pos hs, hin, hout, Option.bind_eq_bind, Option.bind_some]
    split
    · next he => rw [update_of_eq (he.2 ▸ hin) (he.1 ▸ hout)]; rfl
    · rfl
  · simp only [if_neg hs]
    rfl

theorem foldrM_update?_eq {xs : List (Point × Nat)} (hi : ∀ x ∈ xs, x.2 < l.liveIn.size)
    (ho : ∀ x ∈ xs, x.2 < l.liveOut.size) :
    xs.foldrM update? l = if ∀ x ∈ xs, ∀ s ∈ x.1.succs, s < l.liveIn.size then
      some (xs.foldr update l) else none := by
  induction xs with
  | nil => simp
  | cons x xs ih =>
    rw [List.forall_mem_cons] at hi ho
    -- the number of sets stays the same
    obtain ⟨hin, hout⟩ := size_foldr_update xs l
    have hx : update? x (xs.foldr update l) = _ := update?_eq (hin ▸ hi.1) (hout ▸ ho.1)
    rw [List.foldrM_cons, ih hi.2 ho.2]
    by_cases hxs : ∀ y ∈ xs, ∀ s ∈ y.1.succs, s < l.liveIn.size
    · rw [if_pos hxs, Option.bind_eq_bind, Option.bind_some, hx, hin]
      simp only [List.forall_mem_cons, iff_true_intro hxs, and_true]
      rfl
    · have hall : ¬ ∀ y ∈ x :: xs, ∀ s ∈ y.1.succs, s < l.liveIn.size := fun h =>
        hxs (List.forall_mem_cons.mp h).2
      rw [if_neg hxs, if_neg hall]
      rfl

theorem sweep?_eq (h : Fits points l) :
    sweep? points l = if InRange points then some (sweep points l) else none := by
  have hlt : ∀ x ∈ points.zipIdx, x.2 < points.length := fun x hx =>
    (List.getElem?_eq_some_iff.mp (List.mem_zipIdx_iff_getElem?.mp hx)).1
  have hall : (∀ x ∈ points.zipIdx, ∀ s ∈ x.1.succs, s < l.liveIn.size) ↔ InRange points := by
    have hmap : (∀ p ∈ points.zipIdx.map Prod.fst, ∀ s ∈ p.succs, s < points.length) ↔ _ :=
      List.forall_mem_map
    rw [h.liveIn, ← hmap, List.zipIdx_map_fst, InRange]
  rw [sweep?, foldrM_update?_eq (h.liveIn ▸ hlt) (h.liveOut ▸ hlt)]
  simp only [hall]
  rfl

theorem settle?_eq (hr : InRange points) (h : Fits points l) (fuel : Nat) :
    settle? points fuel l = some (settle points fuel l) := by
  induction fuel generalizing l with
  | zero => rfl
  | succ fuel ih =>
    rw [settle?, sweep?_eq h, if_pos hr, Option.bind_eq_bind, Option.bind_some, settle]
    split
    · rfl
    · exact ih h.sweep

/-- A sweep looks at all successors, so the first one fails if a successor is out of range. -/
theorem analyze?_eq (points : List Point) :
    analyze? points = if InRange points then some (analyze points) else none := by
  by_cases hr : InRange points
  · rw [if_pos hr]
    exact settle?_eq hr (fits_empty points) _
  · rw [if_neg hr]
    unfold analyze? sweepBound settle?
    rw [sweep?_eq (fits_empty points), if_neg hr]
    rfl

end Liveness

namespace Graph

def writePairs? (points : List Point) (l : Liveness) : Option (List (String × String)) :=
  ((List.range points.length).mapM (l.liveOut[·]?)).map fun outs =>
    (points.zip outs).flatMap fun (p, out) => pairs p.defs out

def interference? (points : List Point) (l : Liveness) : Option Graph :=
  (writePairs? points l).map fun ps =>
    (empty.addNodes (points.flatMap fun p => p.uses.toList ++ p.defs.toList)).addEdges
      (entryPairs l ++ ps)

theorem interference?_eq {points : List Point} {l : Liveness} (h : l.Fits points) :
    interference? points l = some (interference points l) := by
  have hlt : ∀ i ∈ List.range points.length, i < l.liveOut.size := fun i hi =>
    h.liveOut.symm ▸ List.mem_range.mp hi
  have houts : (List.range points.length).map (l.liveOut.getD · ∅) = l.liveOut.toList := by
    refine List.ext_getElem (by simp [h.liveOut]) fun i h₁ h₂ => ?_
    have hi : i < l.liveOut.size := by simpa using h₂
    simp [hi]
  rw [interference?, writePairs?, mapM_getElem? l.liveOut ∅, if_pos hlt, houts]
  rfl

end Graph

namespace Flow

theorem Represents.label_lt {f : Function} {fl : Flow} (h : Represents f fl) (hf : f.WellFormed)
    {x : String × Nat} (hx : x ∈ fl.labels) : x.2 < fl.points.length := by
  have hstart : fl.start? x.1 = some x.2 := (lookup_eq_some_iff h.keys).mpr hx
  rw [h.length]
  exact hf.start_lt ((h.start x.1).symm.trans hstart)

theorem inRange_iff {fl : Flow} : fl.inRange ↔ Liveness.InRange fl.points := by
  simp [inRange, Liveness.InRange]

end Flow

namespace Function

/-- A verified function can be analysed: its flow is built, labels and successors are indices of
points, and no lookup of the analysis is out of range. -/
theorem analysis_in_range {f : Function} (hv : f.verify = .ok ()) :
    ∃ fl, Flow.build f = .ok fl ∧ (∀ l n, (l, n) ∈ fl.labels → n < fl.points.length) ∧
      (∀ p ∈ fl.points, ∀ s ∈ p.succs, s < fl.points.length) ∧
      Liveness.analyze? fl.points = some (Liveness.analyze fl.points) ∧
      Graph.interference? fl.points (Liveness.analyze fl.points) = some fl.interference ∧
      f.analyze = .ok (fl, Liveness.analyze fl.points, fl.interference) := by
  have hf := wellFormed_of_verify hv
  obtain ⟨fl, hb, ha⟩ := analyze_of_wellFormed hf
  have h := Flow.represents_of_build hf hb
  have hrange := Flow.inRange_iff.mp (h.inRange hf)
  refine ⟨fl, hb, fun l n hl => h.label_lt hf hl, hrange, ?_, ?_, ha⟩
  · rw [Liveness.analyze?_eq, if_pos hrange]
  · exact Graph.interference?_eq (Liveness.fits_analyze _)

/-- A function that loops in its last block, which has a local before its only point. -/
def turning : Function where
  name := "f"
  ret := .void
  params := [⟨"a", .int 64⟩]
  blocks := [
    ⟨some "entry", [⟨.alloca, [], some "x", .int 64⟩, ⟨.br, [.label "tail"], none, .void⟩]⟩,
    ⟨some "done", [⟨.ret, [], none, .void⟩]⟩,
    ⟨some "tail", [⟨.alloca, [], some "y", .int 64⟩,
      ⟨.br, [.reg "a", .label "tail", .label "done"], none, .void⟩]⟩]

/-- Its last label is that of the last point, although the block starts with an instruction that is
none. -/
theorem analysis_in_range_turning :
    turning.verify = .ok () ∧ ∃ fl, Flow.build turning = .ok fl ∧ ("tail", 2) ∈ fl.labels ∧
      fl.points.length = 3 ∧ Liveness.analyze? fl.points = some (Liveness.analyze fl.points) ∧
      Graph.interference? fl.points (Liveness.analyze fl.points) = some fl.interference := by
  have hv : turning.verify = .ok () := ok_of_toBool (by decide +kernel)
  have heval : ((Flow.build turning).toOption.map fun fl =>
      decide (("tail", 2) ∈ fl.labels ∧ fl.points.length = 3)) = some true := by decide +kernel
  simp only [Option.map_eq_some_iff, toOption_eq_some_iff, decide_eq_true_eq] at heval
  obtain ⟨fl, hb, htail, hlen⟩ := heval
  obtain ⟨fl', hb', -, -, hlive, hgraph, -⟩ := analysis_in_range hv
  obtain rfl := Except.ok.inj (hb.symm.trans hb')
  exact ⟨hv, fl, hb, htail, hlen, hlive, hgraph⟩

end Function

end IrAsm
