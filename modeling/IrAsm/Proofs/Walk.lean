import Mathlib.Data.Finset.Card
import Mathlib.Data.Finset.Prod
import Mathlib.Data.Nat.Factorial.Basic
import Mathlib.Tactic.Linarith

/-!
# Numbers of steps in a finite graph

`Walk R t a b`: `t` steps of `R` lead from `a` to `b`. `Within R n`: all that `R` relates lies below
`n`, so that a walk of `n` steps comes to some place twice, and the loop between can be left out or
repeated.

Main result: if walks to some goal exist for all large numbers of steps, or for none, then `n * n`
steps are large in that sense (`exists_iff_of_large`). A walk can be shortened to fewer than `n * d`
steps without changing their number modulo `d`; if `d` is the length of a loop on the way, repeating
that loop gives all larger numbers with the same remainder.
-/

namespace IrAsm

inductive Walk (R : Nat → Nat → Prop) : Nat → Nat → Nat → Prop where
  | refl (a : Nat) : Walk R 0 a a
  | step {t a b c : Nat} : R a b → Walk R t b c → Walk R (t + 1) a c

def Within (R : Nat → Nat → Prop) (n : Nat) : Prop := ∀ a b, R a b → a < n ∧ b < n

namespace Walk

variable {R : Nat → Nat → Prop} {n d s t a b c : Nat}

theorem trans (h : Walk R s a b) (h' : Walk R t b c) : Walk R (s + t) a c := by
  induction h with
  | refl => rwa [Nat.zero_add]
  | step hr _ ih => rw [Nat.add_right_comm]; exact .step hr (ih h')

/-- A loop can be repeated. -/
theorem repeat_loop (h : Walk R d a a) (k : Nat) : Walk R (k * d) a a := by
  induction k with
  | zero => rw [Nat.zero_mul]; exact .refl a
  | succ k ih => rw [Nat.succ_mul]; exact ih.trans h

/-- The places that a walk comes to, one after another. -/
theorem exists_places (h : Walk R t a b) :
    ∃ w : Nat → Nat, w 0 = a ∧ w t = b ∧ ∀ i j, i ≤ j → j ≤ t → Walk R (j - i) (w i) (w j) := by
  induction h with
  | refl a =>
    refine ⟨fun _ => a, rfl, rfl, fun i j _ hj => ?_⟩
    rw [show j - i = 0 by omega]
    exact .refl a
  | @step t a b c hr _ ih =>
    obtain ⟨w, h0, ht, hw⟩ := ih
    refine ⟨fun | 0 => a | i + 1 => w i, rfl, ht, fun i j hij hj => ?_⟩
    cases i with
    | zero =>
      cases j with
      | zero => exact .refl a
      | succ j =>
        refine .step (b := w 0) (h0 ▸ hr) ?_
        simpa using hw 0 j (by omega) (by omega)
    | succ i =>
      obtain ⟨j, rfl⟩ : ∃ k, j = k + 1 := ⟨j - 1, by omega⟩
      rw [Nat.add_sub_add_right]
      exact hw i j (by omega) (by omega)

theorem lt_of_pos (hR : Within R n) (h : Walk R t a b) (ht : 0 < t) : a < n ∧ b < n := by
  induction h with
  | refl => omega
  | @step t a b c hr h ih =>
    obtain ⟨ha, hb⟩ := hR a b hr
    cases h with
    | refl => exact ⟨ha, hb⟩
    | step hr' h' => exact ⟨ha, (ih (by omega)).2⟩

/-- A walk of at least `n * d` steps has a loop near its start, the length of which is a multiple of
`d`. -/
theorem exists_loop (hR : Within R n) (hd : 0 < d) (h : Walk R t a b) (ht : n * d ≤ t)
    (ha : a < n) :
    ∃ i k m, 0 < k ∧ d ∣ k ∧ i + k ≤ n * d ∧ Walk R i a m ∧ Walk R k m m ∧
      Walk R (t - (i + k)) m b := by
  obtain ⟨w, rfl, rfl, hw⟩ := h.exists_places
  have hlt : ∀ i ≤ t, w i < n := by
    intro i hi
    rcases Nat.eq_zero_or_pos i with rfl | hpos
    · exact ha
    · exact ((hw 0 i (Nat.zero_le i) hi).lt_of_pos hR hpos).2
  -- among the first `n * d + 1` places, two are the same after numbers of steps that agree modulo
  -- `d`
  have hcard : (Finset.range n ×ˢ Finset.range d).card < (Finset.range (n * d + 1)).card := by
    rw [Finset.card_product, Finset.card_range, Finset.card_range, Finset.card_range]
    omega
  obtain ⟨i, hi, j, hj, hne, heq⟩ := Finset.exists_ne_map_eq_of_card_lt_of_maps_to hcard
    (f := fun i => (w i, i % d)) fun i hi => by
      simp only [Finset.coe_range, Set.mem_Iio] at hi
      simp only [Finset.coe_product, Finset.coe_range, Set.mem_prod, Set.mem_Iio]
      exact ⟨hlt i (by omega), Nat.mod_lt i hd⟩
  wlog hij : i < j generalizing i j
  · exact this j hj i hi hne.symm heq.symm (by omega)
  obtain ⟨hplace, hmod⟩ := Prod.mk.inj heq
  rw [Finset.mem_range] at hj
  refine ⟨i, j - i, w i, by omega, Nat.dvd_of_mod_eq_zero
    (Nat.sub_mod_eq_zero_of_mod_eq hmod.symm), by omega, ?_, ?_, ?_⟩
  · simpa using hw 0 i (by omega) (by omega)
  · have hloop := hw i j (by omega) (by omega)
    rwa [← hplace] at hloop
  · have hrest := hw j t (by omega) (by omega)
    rwa [← hplace, show t - j = t - (i + (j - i)) by omega] at hrest

/-- Leaving out loops, a walk gets shorter than `n * d` steps. -/
theorem exists_short (hR : Within R n) (hd : 0 < d) (ha : a < n) (h : Walk R t a b) :
    ∃ r k, r < n * d ∧ t = r + k * d ∧ Walk R r a b := by
  induction t using Nat.strong_induction_on with
  | _ t ih =>
    rcases Nat.lt_or_ge t (n * d) with hlt | hge
    · exact ⟨t, 0, hlt, by omega, h⟩
    · obtain ⟨i, k, m, hk, ⟨q, rfl⟩, hle, h1, -, h3⟩ := h.exists_loop hR hd hge ha
      obtain ⟨r, k', hr, heq, hshort⟩ := ih (i + (t - (i + d * q))) (by omega) (h1.trans h3)
      refine ⟨r, k' + q, hr, ?_, hshort⟩
      rw [Nat.add_mul, Nat.mul_comm q d]
      omega

variable {goal : Nat → Prop}

/-- A goal that is reached in `n` steps or more is reached in arbitrarily many. -/
theorem exists_longer (hR : Within R n) (ht : n ≤ t) (hpos : 0 < t) (h : Walk R t a b) (s : Nat) :
    ∃ u, s ≤ u ∧ Walk R u a b := by
  obtain ⟨i, k, m, hk, -, hle, h1, h2, h3⟩ :=
    h.exists_loop hR Nat.one_pos (by omega) (h.lt_of_pos hR hpos).1
  refine ⟨i + (s * k + (t - (i + k))), ?_, h1.trans ((h2.repeat_loop s).trans h3)⟩
  have := Nat.le_mul_of_pos_right s hk
  omega

/-- What is reached in every large number of steps is reached in every number from `n * n` on. -/
theorem exists_of_large (hR : Within R n) (hs : ∀ u ≥ s, ∃ b, Walk R u a b ∧ goal b)
    (ht : n * n ≤ t) : ∃ b, Walk R t a b ∧ goal b := by
  -- a large number of steps that differs from `t` by a multiple of the length of any loop
  have hlarge : s + n + 1 ≤ (s + n + 1) * n.factorial := Nat.le_mul_of_pos_right _ n.factorial_pos
  obtain ⟨b, hb, hgoal⟩ := hs (t + (s + n + 1) * n.factorial) (by omega)
  have ha : a < n := (hb.lt_of_pos hR (by omega)).1
  obtain ⟨i, d, m, hd, -, hle, h1, h2, h3⟩ := hb.exists_loop hR Nat.one_pos (by omega) ha
  rw [Nat.mul_one] at hle
  obtain ⟨q, hq⟩ : d ∣ (s + n + 1) * n.factorial :=
    Nat.dvd_mul_left_of_dvd (Nat.dvd_factorial hd (by omega)) _
  obtain ⟨r, k, hr, heq, hshort⟩ := h3.exists_short hR hd (h2.lt_of_pos hR hd).1
  -- the way to the loop and on to the goal has at most `t` steps, and differs from `t` by a
  -- multiple of `d`
  have hfit : i + r < n * n := by nlinarith
  have hsum : t + d * q = i + r + d * (k + 1) := by
    rw [Nat.mul_add, Nat.mul_comm d k]
    omega
  obtain ⟨x, hx⟩ : ∃ x, k + 1 = q + x := Nat.exists_eq_add_of_le (by nlinarith)
  rw [hx, Nat.mul_add, Nat.mul_comm d x] at hsum
  obtain rfl : t = i + (x * d + r) := by omega
  exact ⟨b, h1.trans ((h2.repeat_loop x).trans hshort), hgoal⟩

/-- If a goal is reached in all large numbers of steps or in none, `n * n` is such a number. -/
theorem exists_iff_of_large (hR : Within R n) (hn : 0 < n)
    (hs : ∀ u ≥ s, ((∃ b, Walk R u a b ∧ goal b) ↔ ∃ b, Walk R s a b ∧ goal b)) (ht : n * n ≤ t) :
    (∃ b, Walk R t a b ∧ goal b) ↔ ∃ b, Walk R s a b ∧ goal b := by
  constructor
  · rintro ⟨b, hb, hgoal⟩
    have hle : n ≤ n * n := Nat.le_mul_self n
    obtain ⟨u, hu, hlonger⟩ := hb.exists_longer hR (by omega) (by omega) s
    exact (hs u hu).mp ⟨b, hlonger, hgoal⟩
  · exact fun h => exists_of_large hR (fun u hu => (hs u hu).mpr h) ht

end Walk

end IrAsm
