import Mathlib.Data.List.Forall2

/-!
# Success

When a computation that can fail gives a result: each of its parts does. It fails with the error of
the first part that fails.
-/

namespace IrAsm

section
variable {ε ε' α β : Type}

@[simp] theorem bind_ok_iff {x : Except ε α} {k : α → Except ε β} {b : β} :
    x >>= k = .ok b ↔ ∃ a, x = .ok a ∧ k a = .ok b := by
  cases x with
  | error e => simp [bind, Except.bind]
  | ok a => simp [bind, Except.bind]

theorem bind_error_iff {x : Except ε α} {k : α → Except ε β} {e : ε} :
    x >>= k = .error e ↔ x = .error e ∨ ∃ a, x = .ok a ∧ k a = .error e := by
  cases x with
  | error e => simp [bind, Except.bind]
  | ok a => simp [bind, Except.bind]

@[simp] theorem pure_ok_iff {a b : α} : (pure a : Except ε α) = .ok b ↔ a = b := by
  simp [pure, Except.pure]

@[simp] theorem throw_ne_ok {e : ε} {b : α} : (throw e : Except ε α) ≠ .ok b := by
  simp [throw, throwThe, MonadExceptOf.throw]

@[simp] theorem map_ok_iff {x : Except ε α} {g : α → β} {b : β} :
    x.map g = .ok b ↔ ∃ a, x = .ok a ∧ g a = b := by
  cases x with
  | error e => simp [Except.map]
  | ok a => simp [Except.map]

theorem map_error_iff {x : Except ε α} {g : α → β} {e : ε} : x.map g = .error e ↔ x = .error e := by
  cases x with
  | error e => simp [Except.map]
  | ok a => simp [Except.map]

@[simp] theorem mapError_ok_iff {x : Except ε α} {g : ε → ε'} {a : α} :
    x.mapError g = .ok a ↔ x = .ok a := by
  cases x with
  | error e => simp [Except.mapError]
  | ok a => simp [Except.mapError]

theorem toOption_eq_some_iff {x : Except ε α} {a : α} : x.toOption = some a ↔ x = .ok a := by
  cases x with
  | error e => simp [Except.toOption]
  | ok b => simp [Except.toOption]

theorem exists_ok_of_toBool {x : Except ε α} (h : x.toBool = true) : ∃ a, x = .ok a := by
  cases x with
  | error e => cases h
  | ok a => exact ⟨a, rfl⟩

theorem ok_of_toBool {x : Except ε Unit} (h : x.toBool = true) : x = .ok () :=
  let ⟨(), hx⟩ := exists_ok_of_toBool h; hx

theorem mapM_ok_iff {k : α → Except ε β} {xs : List α} {ys : List β} :
    xs.mapM k = .ok ys ↔ List.Forall₂ (fun x y => k x = .ok y) xs ys := by
  induction xs generalizing ys with
  | nil => rw [List.mapM_nil, pure_ok_iff, List.forall₂_nil_left_iff, eq_comm]
  | cons x xs ih =>
    simp only [List.mapM_cons, bind_ok_iff, pure_ok_iff, List.forall₂_cons_left_iff]
    constructor
    · rintro ⟨y, hy, zs, hzs, rfl⟩; exact ⟨y, zs, hy, ih.mp hzs, rfl⟩
    · rintro ⟨y, zs, hy, hzs, rfl⟩; exact ⟨y, hy, zs, ih.mpr hzs, rfl⟩

theorem forM_ok_iff {k : α → Except ε Unit} {xs : List α} :
    xs.forM k = .ok () ↔ ∀ x ∈ xs, k x = .ok () := by
  induction xs with
  | nil => simp [List.forM, pure, Except.pure]
  | cons x xs ih =>
    rw [List.forM, bind_ok_iff, List.forall_mem_cons, ← ih]
    exact ⟨fun ⟨_, hx, hxs⟩ => ⟨hx, hxs⟩, fun ⟨hx, hxs⟩ => ⟨(), hx, hxs⟩⟩

theorem exists_of_mem_mapM {k : α → Except ε β} {xs : List α} {ys : List β} {y : β}
    (h : xs.mapM k = .ok ys) (hy : y ∈ ys) : ∃ x ∈ xs, k x = .ok y := by
  rw [mapM_ok_iff] at h
  induction h with
  | nil => cases hy
  | cons hk _ ih =>
    rcases List.mem_cons.mp hy with rfl | hy
    · exact ⟨_, .head _, hk⟩
    · obtain ⟨x, hx, hk⟩ := ih hy
      exact ⟨x, .tail _ hx, hk⟩

theorem exists_mem_of_mapM {k : α → Except ε β} {xs : List α} {ys : List β} {x : α}
    (h : xs.mapM k = .ok ys) (hx : x ∈ xs) : ∃ y ∈ ys, k x = .ok y := by
  rw [mapM_ok_iff] at h
  induction h with
  | nil => cases hx
  | cons hk _ ih =>
    rcases List.mem_cons.mp hx with rfl | hx
    · exact ⟨_, .head _, hk⟩
    · obtain ⟨y, hy, hk⟩ := ih hx
      exact ⟨y, .tail _ hy, hk⟩

theorem exists_mapM_ok {k : α → Except ε β} {xs : List α} (h : ∀ x ∈ xs, ∃ y, k x = .ok y) :
    ∃ ys, xs.mapM k = .ok ys := by
  induction xs with
  | nil => exact ⟨[], rfl⟩
  | cons x xs ih =>
    obtain ⟨y, hy⟩ := h x List.mem_cons_self
    obtain ⟨ys, hys⟩ := ih fun z hz => h z (List.mem_cons_of_mem _ hz)
    exact ⟨y :: ys, mapM_ok_iff.mpr (.cons hy (mapM_ok_iff.mp hys))⟩

end

end IrAsm
