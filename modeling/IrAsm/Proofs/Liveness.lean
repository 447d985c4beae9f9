import IrAsm.Flow.Liveness
import Mathlib.Data.Finset.Card
import Mathlib.Data.Nat.Find
import Mathlib.Logic.Function.Iterate

/-!
# Liveness is path liveness

`Reads points v n m`: from point `n`, `m` steps along successors lead to a point that reads `v`, and
no point passed on the way writes it. `Live points n v` leaves the number of steps open.

`analyze` computes exactly this (`mem_inAt_analyze`, `mem_outAt_analyze`). Nothing else ever enters
a set, each sweep finds the reads that are one step farther away, and a read that can be reached at
all can be reached in fewer steps than there are points.
-/

namespace IrAsm.Liveness

/-- What is live before point `n`; nothing if there is no such point. -/
def inAt (l : Liveness) (n : Nat) : NameSet := l.liveIn.getD n ∅

/-- What is live after point `n`. -/
def outAt (l : Liveness) (n : Nat) : NameSet := l.liveOut.getD n ∅

inductive Reads (points : List Point) (v : String) : Nat → Nat → Prop where
  | here {n : Nat} {p : Point} : points[n]? = some p → v ∈ p.uses → Reads points v n 0
  | later {n s m : Nat} {p : Point} : points[n]? = some p → v ∉ p.defs → s ∈ p.succs →
      Reads points v s m → Reads points v n (m + 1)

def Live (points : List Point) (n : Nat) (v : String) : Prop := ∃ m, Reads points v n m

theorem Live.later {points : List Point} {n s : Nat} {v : String} {p : Point}
    (hp : points[n]? = some p) (hd : v ∉ p.defs) (hs : s ∈ p.succs) (h : Live points s v) :
    Live points n v :=
  let ⟨m, hm⟩ := h; ⟨m + 1, .later hp hd hs hm⟩

theorem Reads.lt {points : List Point} {v : String} {n m : Nat} (h : Reads points v n m) :
    n < points.length := by
  cases h with
  | here hp => exact (List.getElem?_eq_some_iff.mp hp).1
  | later hp => exact (List.getElem?_eq_some_iff.mp hp).1

/-! ## The nearest read -/

/-- The nearest read of `v` is `m` steps away from `n`. -/
def Nearest (points : List Point) (v : String) (n m : Nat) : Prop :=
  Reads points v n m ∧ ∀ m' < m, ¬ Reads points v n m'

theorem Live.nearest {points : List Point} {v : String} {n : Nat} (h : Live points n v) :
    ∃ m, Nearest points v n m := by
  classical
  exact ⟨Nat.find h, Nat.find_spec h, fun m' hm' => Nat.find_min h hm'⟩

theorem Nearest.unique {points : List Point} {v : String} {n m m' : Nat}
    (h : Nearest points v n m) (h' : Nearest points v n m') : m = m' := by
  rcases Nat.lt_trichotomy m m' with hlt | heq | hgt
  · exact absurd h.1 (h'.2 m hlt)
  · exact heq
  · exact absurd h'.1 (h.2 m' hgt)

/-- A point at each smaller distance lies on the way to the nearest read. -/
theorem Nearest.exists_of_le {points : List Point} {v : String} {n m : Nat}
    (h : Nearest points v n m) : ∀ k ≤ m, ∃ n', Nearest points v n' k := by
  induction m generalizing n with
  | zero => intro k hk; exact ⟨n, by rwa [Nat.le_zero.mp hk]⟩
  | succ m ih =>
    intro k hk
    rcases Nat.lt_or_ge m k with hlt | hle
    · exact ⟨n, by rwa [show k = m + 1 by omega]⟩
    · obtain ⟨hr, hmin⟩ := h
      cases hr with
      | @later _ s _ p hp hd hs hr =>
        refine ih (n := s) ⟨hr, fun m' hm' hr' => ?_⟩ k hle
        exact hmin (m' + 1) (by omega) (.later hp hd hs hr')

/-- Points at different distances are different, so there are no more distances than points. -/
theorem Nearest.lt_length {points : List Point} {v : String} {n m : Nat}
    (h : Nearest points v n m) : m < points.length := by
  classical
  choose! g hg using h.exists_of_le
  have hinj : Set.InjOn g (Finset.range (m + 1)) := by
    intro a ha b hb hab
    simp only [Finset.coe_range, Set.mem_Iio] at ha hb
    have ha' := hg a (by omega)
    rw [hab] at ha'
    exact ha'.unique (hg b (by omega))
  have hmaps : Set.MapsTo g (Finset.range (m + 1)) (Finset.range points.length) := by
    intro a ha
    simp only [Finset.coe_range, Set.mem_Iio] at ha ⊢
    exact (hg a (by omega)).1.lt
  have := Finset.card_le_card_of_injOn g hmaps hinj
  simp only [Finset.card_range] at this
  omega

/-! ## One sweep -/

@[simp] theorem mem_after {l : Liveness} {p : Point} {v : String} :
    v ∈ l.after p ↔ ∃ s ∈ p.succs, v ∈ l.inAt s := by
  simp only [after, NameSet.mem_unions, List.mem_map, inAt]
  constructor
  · rintro ⟨_, ⟨s, hs, rfl⟩, hv⟩; exact ⟨s, hs, hv⟩
  · rintro ⟨s, hs, hv⟩; exact ⟨_, ⟨s, hs, rfl⟩, hv⟩

@[simp] theorem mem_before {p : Point} {out : NameSet} {v : String} :
    v ∈ before p out ↔ v ∈ p.uses ∨ v ∈ out ∧ v ∉ p.defs := by
  simp [before, Std.ExtTreeSet.mem_union_iff, Std.ExtTreeSet.mem_diff_iff]

theorem inAt_update {p : Point × Nat} {l : Liveness} {n : Nat} :
    (update p l).inAt n =
      if p.2 = n ∧ n < l.liveIn.size then before p.1 (l.after p.1) else l.inAt n := by
  simp only [inAt, update, Array.getD_eq_getD_getElem?, Array.getElem?_setIfInBounds]
  by_cases h : p.2 = n
  · by_cases h' : n < l.liveIn.size
    · simp [h, h']
    · simp [h, h']
  · simp [h]

theorem outAt_update {p : Point × Nat} {l : Liveness} {n : Nat} :
    (update p l).outAt n =
      if p.2 = n ∧ n < l.liveOut.size then l.after p.1 else l.outAt n := by
  simp only [outAt, update, Array.getD_eq_getD_getElem?, Array.getElem?_setIfInBounds]
  by_cases h : p.2 = n
  · by_cases h' : n < l.liveOut.size
    · simp [h, h']
    · simp [h, h']
  · simp [h]

/-- There is one set of each kind for every point. -/
structure Fits (points : List Point) (l : Liveness) : Prop where
  liveIn : l.liveIn.size = points.length
  liveOut : l.liveOut.size = points.length

theorem fits_empty (points : List Point) : Fits points (empty points.length) :=
  ⟨by simp [empty], by simp [empty]⟩

theorem size_foldr_update (xs : List (Point × Nat)) (l : Liveness) :
    (xs.foldr update l).liveIn.size = l.liveIn.size ∧
      (xs.foldr update l).liveOut.size = l.liveOut.size := by
  induction xs with
  | nil => exact ⟨rfl, rfl⟩
  | cons x xs ih => simpa [update] using ih

theorem Fits.sweep {points : List Point} {l : Liveness} (h : Fits points l) :
    Fits points (sweep points l) := by
  obtain ⟨h1, h2⟩ := size_foldr_update points.zipIdx l
  exact ⟨h1.trans h.liveIn, h2.trans h.liveOut⟩

/-- Points before the first one of a sweep keep their sets. -/
theorem inAt_foldr_update_of_lt (points : List Point) {k n : Nat} (hn : n < k) (l : Liveness) :
    ((points.zipIdx k).foldr update l).inAt n = l.inAt n := by
  induction points generalizing k with
  | nil => rfl
  | cons p points ih =>
    rw [List.zipIdx_cons, List.foldr_cons, inAt_update, if_neg (by simp only; omega)]
    exact ih (by omega)

/-- The sets that a sweep leaves at a point. Successors behind the point were swept before it, the
others were not. -/
theorem foldr_update_spec (points : List Point) (k : Nat) (l : Liveness)
    (hi : k + points.length ≤ l.liveIn.size) (ho : k + points.length ≤ l.liveOut.size)
    {n : Nat} {p : Point} (hp : points[n]? = some p) (v : String) :
    let l' := (points.zipIdx k).foldr update l
    (v ∈ l'.outAt (k + n) ↔
      ∃ s ∈ p.succs, v ∈ if s ≤ k + n then l.inAt s else l'.inAt s) ∧
    l'.inAt (k + n) = before p (l'.outAt (k + n)) := by
  induction points generalizing k n with
  | nil => simp at hp
  | cons q points ih =>
    simp only [List.length_cons] at hi ho
    simp only [List.zipIdx_cons, List.foldr_cons]
    set l1 := (points.zipIdx (k + 1)).foldr update l with hl1
    obtain ⟨hs1, hs2⟩ := size_foldr_update (points.zipIdx (k + 1)) l
    rw [← hl1] at hs1 hs2
    cases n with
    | zero =>
      obtain rfl : q = p := by simpa using hp
      rw [Nat.add_zero, outAt_update, if_pos ⟨rfl, by omega⟩, inAt_update,
        if_pos ⟨rfl, by omega⟩]
      refine ⟨?_, rfl⟩
      rw [mem_after]
      refine exists_congr fun s => and_congr_right fun _ => ?_
      by_cases h : s ≤ k
      · rw [if_pos h, hl1, inAt_foldr_update_of_lt points (by omega)]
      · rw [if_neg h, inAt_update, if_neg (by simp only; omega)]
    | succ n =>
      obtain ⟨h1, h2⟩ := ih (k + 1) (by omega) (by omega) (by simpa using hp)
      rw [show k + (n + 1) = k + 1 + n by omega, outAt_update, if_neg (by simp only; omega),
        inAt_update, if_neg (by simp only; omega)]
      refine ⟨h1.trans ?_, h2⟩
      refine exists_congr fun s => and_congr_right fun _ => ?_
      by_cases h : s ≤ k + 1 + n
      · rw [if_pos h, if_pos h]
      · rw [if_neg h, if_neg h, inAt_update, if_neg (by simp only; omega)]

theorem mem_outAt_sweep {points : List Point} {l : Liveness} (h : Fits points l) {n : Nat}
    {p : Point} (hp : points[n]? = some p) {v : String} :
    v ∈ (sweep points l).outAt n ↔
      ∃ s ∈ p.succs, v ∈ if s ≤ n then l.inAt s else (sweep points l).inAt s := by
  have := (foldr_update_spec points 0 l (by rw [h.liveIn]; omega) (by rw [h.liveOut]; omega) hp v).1
  simpa only [Nat.zero_add, sweep] using this

theorem inAt_sweep {points : List Point} {l : Liveness} (h : Fits points l) {n : Nat}
    {p : Point} (hp : points[n]? = some p) :
    (sweep points l).inAt n = before p ((sweep points l).outAt n) := by
  have :=
    (foldr_update_spec points 0 l (by rw [h.liveIn]; omega) (by rw [h.liveOut]; omega) hp "").2
  simpa only [Nat.zero_add, sweep] using this

theorem mem_inAt_sweep {points : List Point} {l : Liveness} (h : Fits points l) {n : Nat}
    {p : Point} (hp : points[n]? = some p) {v : String} :
    v ∈ (sweep points l).inAt n ↔ v ∈ p.uses ∨ v ∉ p.defs ∧
      ∃ s ∈ p.succs, v ∈ if s ≤ n then l.inAt s else (sweep points l).inAt s := by
  rw [inAt_sweep h hp, mem_before, mem_outAt_sweep h hp, and_comm (b := v ∉ p.defs)]

/-! ## Many sweeps -/

/-- Only live names are in the sets. -/
def Sound (points : List Point) (l : Liveness) : Prop :=
  ∀ n v, v ∈ l.inAt n → Live points n v

/-- Reads that are fewer than `m` steps away are in the sets. -/
def Finds (points : List Point) (m : Nat) (l : Liveness) : Prop :=
  ∀ n v k, k < m → Reads points v n k → v ∈ l.inAt n

theorem sound_empty (points : List Point) : Sound points (empty points.length) := by
  intro n v h
  simp only [inAt, empty, Array.getD_eq_getD_getElem?, Array.getElem?_replicate] at h
  split at h <;> simp at h

theorem Sound.update {points : List Point} {l : Liveness} (h : Sound points l) {p : Point} {n : Nat}
    (hp : points[n]? = some p) : Sound points (update (p, n) l) := by
  intro n' v hv
  rw [inAt_update] at hv
  split at hv
  · next hn =>
    obtain ⟨rfl, -⟩ := hn
    simp only [mem_before, mem_after] at hv
    rcases hv with hu | ⟨⟨s, hs, hv⟩, hd⟩
    · exact ⟨0, .here hp hu⟩
    · exact (h s v hv).later hp hd hs
  · exact h n' v hv

theorem Sound.sweep {points : List Point} {l : Liveness} (h : Sound points l) :
    Sound points (sweep points l) := by
  have hmem : ∀ x ∈ points.zipIdx, points[x.2]? = some x.1 := fun x hx =>
    List.mem_zipIdx_iff_getElem?.mp hx
  unfold Liveness.sweep
  generalize points.zipIdx = xs at hmem
  induction xs with
  | nil => exact h
  | cons x xs ih =>
    rw [List.foldr_cons]
    exact (ih fun y hy => hmem y (List.mem_cons_of_mem _ hy)).update (hmem x List.mem_cons_self)

theorem Finds.sweep {points : List Point} {l : Liveness} {m : Nat} (hl : Fits points l)
    (h : Finds points m l) : Finds points (m + 1) (sweep points l) := by
  intro n v k hk hr
  induction hr with
  | here hp hu => exact (mem_inAt_sweep hl hp).mpr (.inl hu)
  | @later n s k p hp hd hs hr ih =>
    refine (mem_inAt_sweep hl hp).mpr (.inr ⟨hd, s, hs, ?_⟩)
    split
    · exact h s v k (by omega) hr
    · exact ih (by omega)

section
variable {points : List Point} {seed seed' : Liveness} {k k' : Nat}

theorem iterate_succ (points : List Point) (k : Nat) (seed : Liveness) :
    (sweep points)^[k + 1] seed = sweep points ((sweep points)^[k] seed) :=
  Function.iterate_succ_apply' ..

theorem Fits.iterate (h : Fits points seed) (k : Nat) :
    Fits points ((Liveness.sweep points)^[k] seed) := by
  induction k with
  | zero => exact h
  | succ k ih => rw [iterate_succ]; exact ih.sweep

theorem Sound.iterate (h : Sound points seed) (k : Nat) :
    Sound points ((Liveness.sweep points)^[k] seed) := by
  induction k with
  | zero => exact h
  | succ k ih => rw [iterate_succ]; exact ih.sweep

/-- Whatever the sets were, each sweep finds the reads that are one step farther away. -/
theorem Fits.finds (h : Fits points seed) (k : Nat) :
    Finds points k ((Liveness.sweep points)^[k] seed) := by
  induction k with
  | zero => exact fun _ _ k hk => absurd hk (by omega)
  | succ k ih => rw [iterate_succ]; exact ih.sweep (h.iterate k)

/-- As many sweeps as there are points find all that is live. -/
theorem Live.mem_iterate {n : Nat} {v : String} (hv : Live points n v) (h : Fits points seed)
    (hk : points.length ≤ k) : v ∈ ((Liveness.sweep points)^[k] seed).inAt n := by
  obtain ⟨m, hm⟩ := hv.nearest
  exact h.finds k n v m (Nat.lt_of_lt_of_le hm.lt_length hk) hm.1

theorem mem_inAt_iterate (h : Fits points seed) (hs : Sound points seed) (hk : points.length ≤ k)
    {n : Nat} {v : String} : v ∈ ((Liveness.sweep points)^[k] seed).inAt n ↔ Live points n v :=
  ⟨hs.iterate k n v, fun hv => hv.mem_iterate h hk⟩

/-- One sweep more settles what is live after a point. -/
theorem mem_outAt_iterate (h : Fits points seed) (hs : Sound points seed) (hk : points.length < k)
    {n : Nat} {p : Point} (hp : points[n]? = some p) {v : String} :
    v ∈ ((Liveness.sweep points)^[k] seed).outAt n ↔ ∃ s ∈ p.succs, Live points s v := by
  obtain ⟨k, rfl⟩ : ∃ j, k = j + 1 := ⟨k - 1, by omega⟩
  rw [iterate_succ, mem_outAt_sweep (h.iterate k) hp, ← iterate_succ]
  refine exists_congr fun s => and_congr_right fun _ => ?_
  split
  · exact mem_inAt_iterate h hs (by omega)
  · exact mem_inAt_iterate h hs (by omega)

theorem Fits.ext {l l' : Liveness} (h : Fits points l) (h' : Fits points l')
    (hin : ∀ n, l.inAt n = l'.inAt n)
    (hout : ∀ n p, points[n]? = some p → l.outAt n = l'.outAt n) : l = l' := by
  have e1 : l.liveIn = l'.liveIn := by
    refine Array.ext (h.liveIn.trans h'.liveIn.symm) fun i h1 h2 => ?_
    simpa [inAt, h1, h2] using hin i
  have e2 : l.liveOut = l'.liveOut := by
    refine Array.ext (h.liveOut.trans h'.liveOut.symm) fun i h1 h2 => ?_
    have hi : i < points.length := h.liveOut ▸ h1
    simpa [outAt, h1, h2] using hout i points[i] (List.getElem?_eq_getElem hi)
  cases l; cases l'
  simp_all

/-- Sets that have nothing but live names all come to the same. -/
theorem iterate_eq_iterate (h : Fits points seed) (hs : Sound points seed) (hk : points.length < k)
    (h' : Fits points seed') (hs' : Sound points seed') (hk' : points.length < k') :
    (Liveness.sweep points)^[k] seed = (Liveness.sweep points)^[k'] seed' := by
  refine Fits.ext (h.iterate k) (h'.iterate k') (fun n => ?_) fun n p hp => ?_
  · ext v
    rw [mem_inAt_iterate h hs (by omega), mem_inAt_iterate h' hs' (by omega)]
  · ext v
    rw [mem_outAt_iterate h hs hk hp, mem_outAt_iterate h' hs' hk' hp]

end

/-- The sets after `k` sweeps from empty ones. -/
def swept (points : List Point) (k : Nat) : Liveness := (sweep points)^[k] (empty points.length)

theorem sweep_swept {points : List Point} {k : Nat} (hk : points.length < k) :
    sweep points (swept points k) = swept points k := by
  rw [swept, ← iterate_succ]
  exact iterate_eq_iterate (fits_empty points) (sound_empty points) (by omega) (fits_empty points)
    (sound_empty points) hk

/-- Settling finds the first sets that a sweep leaves alone. -/
theorem settle_eq_iterate {points : List Point} {k fuel : Nat} {l : Liveness} (hk : k ≤ fuel)
    (h : sweep points ((sweep points)^[k] l) = (sweep points)^[k] l) :
    settle points fuel l = (sweep points)^[k] l := by
  induction fuel generalizing k l with
  | zero => rw [Nat.le_zero.mp hk]; rfl
  | succ fuel ih =>
    rw [settle]
    split
    · next hl => exact (Function.iterate_fixed hl k).symm
    · next hl =>
      cases k with
      | zero => exact absurd h hl
      | succ k => exact ih (by omega) h

theorem analyze_eq_swept (points : List Point) :
    analyze points = swept points (points.length + 1) := by
  have h := Nat.le_mul_self (points.length + 1)
  exact settle_eq_iterate (by unfold sweepBound; omega) (sweep_swept (Nat.lt_succ_self _))

/-! ## What the analysis computes -/

theorem fits_analyze (points : List Point) : Fits points (analyze points) := by
  rw [analyze_eq_swept]; exact (fits_empty points).iterate _

@[simp] theorem mem_inAt_analyze {points : List Point} {n : Nat} {v : String} :
    v ∈ (analyze points).inAt n ↔ Live points n v := by
  rw [analyze_eq_swept]
  exact mem_inAt_iterate (fits_empty points) (sound_empty points) (by omega)

theorem mem_outAt_analyze {points : List Point} {n : Nat} {v : String} :
    v ∈ (analyze points).outAt n ↔
      ∃ p, points[n]? = some p ∧ ∃ s ∈ p.succs, Live points s v := by
  by_cases hn : n < points.length
  · rw [analyze_eq_swept, swept,
      mem_outAt_iterate (fits_empty points) (sound_empty points) (by omega)
        (List.getElem?_eq_getElem hn)]
    simp [List.getElem?_eq_getElem hn]
  · have hsize := (fits_analyze points).liveOut
    simp [outAt, Array.getElem?_eq_none (hsize ▸ Nat.le_of_not_lt hn),
      List.getElem?_eq_none (Nat.le_of_not_lt hn)]

end IrAsm.Liveness

theorem IrAsm.Flow.analyze_ok_iff {fl : Flow} {function : String} {l : Liveness} :
    fl.analyze function = .ok l ↔ fl.inRange ∧ l = Liveness.analyze fl.points := by
  unfold analyze
  split
  · next hr => simp only [Except.ok.injEq, hr, true_and, eq_comm (a := l)]
  · next hr => simp [hr]
