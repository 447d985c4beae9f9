import IrAsm.Proofs.X86.Deletion

/-!
# The normal form of the passes

Lines are normal if none of them moves a place to itself and something else than comments stands
between any two jumps. Those are the lines of which the passes delete none (`runAll_eq_self_iff`).
Whichever passes have run before, and in whatever order, both passes together come to the same lines
(`runAll_run`), since what one pass deletes the two of them delete anyway. So lines have one normal
form.

Lines of text are told apart by their first character: a comment has a `#` there, blanks apart, a
jump a `j`, and a move an `m`.
-/

namespace IrAsm.X86

namespace Peephole

section
variable {α : Type} {shape : α → Shape}

/-! ## Passes before passes -/

theorem roundAfter_dropSelfMoves (afterJump : Bool) (lines : List α) :
    roundAfter shape afterJump (dropSelfMoves shape lines) = roundAfter shape afterJump lines := by
  rw [roundAfter, roundAfter, dropSelfMoves, dropSelfMoves, List.filter_filter]
  simp only [Bool.and_self]

/-- What the second pass deletes stands behind a jump, and so it does once the moves are gone. -/
theorem roundAfter_collapseJumps {a b : Bool} (h : a → b) (lines : List α) :
    roundAfter shape b (collapseJumps shape a lines) = roundAfter shape b lines := by
  induction lines generalizing a b with
  | nil => rfl
  | cons line rest ih =>
    cases hs : shape line with
    | comment => simp [collapseJumps, roundAfter_cons, jumped, hs, ih h]
    | selfMove =>
      simp [collapseJumps, roundAfter_cons, jumped, hs,
        ih (a := false) (absurd · Bool.false_ne_true)]
    | other =>
      simp [collapseJumps, roundAfter_cons, jumped, hs,
        ih (a := false) (absurd · Bool.false_ne_true)]
    | jump =>
      have hrest : roundAfter shape true (collapseJumps shape true rest) =
          roundAfter shape true rest :=
        ih id
      cases a with
      | false => simp [collapseJumps, roundAfter_cons, jumped, hs, hrest]
      | true =>
        obtain rfl : b = true := h rfl
        simp [collapseJumps, roundAfter_cons, jumped, hs, hrest]

theorem runAll_pass (p : Pass) (lines : List α) :
    runAll shape (p.run shape lines) = runAll shape lines := by
  rw [runAll_eq_round, runAll_eq_round]
  cases p with
  | moves => exact roundAfter_dropSelfMoves false lines
  | branches => exact roundAfter_collapseJumps id lines

theorem runAll_run (ps : List Pass) (lines : List α) :
    runAll shape (run shape ps lines) = runAll shape lines := by
  induction ps generalizing lines with
  | nil => rfl
  | cons p ps ih =>
    calc runAll shape (run shape (p :: ps) lines)
        = runAll shape (run shape ps (p.run shape lines)) := rfl
      _ = runAll shape (p.run shape lines) := ih _
      _ = runAll shape lines := runAll_pass p lines

/-! ## Normal lines -/

variable (shape) in
structure Normal (lines : List α) : Prop where
  moves : ∀ line ∈ lines, shape line ≠ .selfMove
  jumps : ∀ (m n : Nat) (a b : α), m < n → lines[m]? = some a → lines[n]? = some b →
    shape a = .jump → shape b = .jump →
    ∃ i line, m < i ∧ i < n ∧ lines[i]? = some line ∧ shape line ≠ .comment

/-- Comments do not part a line from the jump before it. -/
theorem jumpLast_of_jump {lines : List α} {m n : Nat} {a : α} (hmn : m < n) (hn : n ≤ lines.length)
    (ha : lines[m]? = some a) (hs : shape a = .jump)
    (h : ∀ i line, m < i → i < n → lines[i]? = some line → shape line = .comment) :
    jumpLast shape (lines.take n) := by
  induction n with
  | zero => omega
  | succ n ih =>
    rcases Nat.lt_succ_iff_lt_or_eq.mp hmn with hlt | rfl
    · have hget : lines[n]? = some lines[n] := List.getElem?_eq_getElem hn
      rw [jumpLast_take_succ hget, jumped, h n _ hlt n.lt_succ_self hget]
      exact ih hlt (Nat.le_of_succ_le hn) fun i line hi hin => h i line hi (Nat.lt_succ_of_lt hin)
    · rw [jumpLast_take_succ ha, jumped, hs]

/-- What is deleted is what normal lines do not have. -/
theorem normal_iff_not_deleted {lines : List α} :
    Normal shape lines ↔ ∀ n, ¬ Deleted shape lines n := by
  constructor
  · intro h n hdel
    obtain ⟨line, hline, hs | ⟨hs, hlast⟩⟩ := deleted_iff.mp hdel
    · exact h.moves line (List.mem_of_getElem? hline) hs
    · obtain ⟨m, hm, jump, hjump, hsj, hbetween⟩ :=
        exists_jump_of_jumpLast (Nat.le_of_lt hdel.1) hlast
      obtain ⟨i, l, hmi, hin, hl, hne⟩ := h.jumps m n _ _ hm hjump hline hsj hs
      obtain ⟨l', hl', hs'⟩ := hbetween i hmi hin
      obtain rfl : l = l' := Option.some.inj (hl.symm.trans hl')
      exact hs'.elim hne (h.moves l (List.mem_of_getElem? hl))
  · intro h
    refine ⟨fun line hline hs => ?_, fun m n a b hmn ha hb hsa hsb => ?_⟩
    · obtain ⟨n, hn⟩ := List.mem_iff_getElem?.mp hline
      exact h n (deleted_iff.mpr ⟨line, hn, .inl hs⟩)
    · by_contra hall
      refine h n (deleted_iff.mpr ⟨b, hb, .inr ⟨hsb, ?_⟩⟩)
      refine jumpLast_of_jump hmn (Nat.le_of_lt (List.getElem?_eq_some_iff.mp hb).1) ha hsa ?_
      intro i line hmi hin hi
      by_contra hs
      exact hall ⟨i, line, hmi, hin, hi, hs⟩

theorem kept_eq_zipIdx_iff {lines : List α} :
    kept shape lines = lines.zipIdx ↔ ∀ n, ¬ Deleted shape lines n := by
  constructor
  · rintro h n ⟨hn, hno⟩
    refine hno (lines[n], n) ?_ rfl
    rw [h, List.mem_zipIdx_iff_getElem?]
    exact List.getElem?_eq_getElem hn
  · intro h
    -- every index is there, so none is missing
    have hsub : List.range lines.length ⊆ (kept shape lines).map Prod.snd := by
      intro n hn
      by_contra hmem
      refine h n ⟨List.mem_range.mp hn, fun x hx he => hmem ?_⟩
      exact he ▸ List.mem_map_of_mem hx
    have hlen := (List.nodup_range.subperm hsub).length_le
    rw [List.length_range, List.length_map] at hlen
    exact (sublist_kept lines).eq_of_length_le (by rwa [List.length_zipIdx])

theorem runAll_eq_self_iff {lines : List α} : runAll shape lines = lines ↔ Normal shape lines := by
  rw [normal_iff_not_deleted, ← kept_eq_zipIdx_iff]
  constructor
  · intro h
    refine (sublist_kept lines).eq_of_length ?_
    rw [List.length_zipIdx, ← List.length_map Prod.fst, ← runAll_eq_kept, h]
  · intro h
    rw [runAll_eq_kept, h, List.zipIdx_map_fst]

theorem normal_runAll (lines : List α) : Normal shape (runAll shape lines) := by
  rw [← runAll_eq_self_iff, runAll_eq_round, runAll_eq_round, round_round]

/-- A normal form is reached in one way only. -/
theorem eq_runAll_of_normal {ps : List Pass} {lines : List α}
    (h : Normal shape (run shape ps lines)) : run shape ps lines = runAll shape lines :=
  (runAll_eq_self_iff.mpr h).symm.trans (runAll_run ps lines)

theorem filter_roundAfter {keep : α → Bool}
    (h : ∀ line, keep line → shape line ≠ .selfMove ∧ shape line ≠ .jump) (afterJump : Bool)
    (lines : List α) : (roundAfter shape afterJump lines).filter keep = lines.filter keep := by
  induction lines generalizing afterJump with
  | nil => rfl
  | cons line rest ih =>
    rw [roundAfter_cons, List.filter_append, ih, ← List.filter_append]
    by_cases hk : keep line
    · simp [h line hk]
    · split
      · simp [hk]
      · rfl

end

end Peephole

/-! ## Text -/

namespace LineText

open Peephole

/-- An instruction is not indented, and its mnemonic starts where the line does. -/
theorem instruction?_cases {line mnemonic operands : String}
    (h : instruction? line = some (mnemonic, operands)) :
    ∃ c, mnemonic.toList.head? = some c ∧ isComment line = (c == '#') := by
  unfold instruction? at h
  split at h
  · cases h
  · next c cs hline =>
    split at h
    · cases h
    · next hblank =>
      refine ⟨c, ?_, by simp [isComment, hline, Text.trimLeft, hblank]⟩
      have hprefix : [' '].isPrefixOf (c :: cs) = false := by
        simp only [List.isPrefixOf_cons_cons, Bool.and_eq_false_iff, beq_eq_false_iff_ne]
        exact .inl fun hc => hblank (hc ▸ rfl)
      rw [Text.splitAt?, hprefix] at h
      cases hsplit : Text.splitAt? [' '] cs with
      | none => simp [hsplit] at h; simp [← h.1, hline]
      | some parts => simp [hsplit] at h; simp [← h.1]

theorem exists_of_isJump {line : String} (h : isJump line) :
    ∃ mnemonic operands, instruction? line = some (mnemonic, operands) ∧
      mnemonic.toList.head? = some 'j' := by
  obtain ⟨⟨mnemonic, operands⟩, hi, hj⟩ := (Option.any_eq_true _ _).mp h
  exact ⟨mnemonic, operands, hi, beq_iff_eq.mp hj⟩

theorem exists_of_isSelfMove {line : String} (h : isSelfMove line) :
    ∃ operands, instruction? line = some ("movq", operands) := by
  obtain ⟨⟨mnemonic, operands⟩, hi, hm⟩ := (Option.any_eq_true _ _).mp h
  obtain rfl : mnemonic = "movq" := beq_iff_eq.mp (Bool.and_eq_true_iff.mp hm).1
  exact ⟨operands, hi⟩

theorem isComment_of_isJump {line : String} (h : isJump line) : isComment line = false := by
  obtain ⟨mnemonic, operands, hi, hj⟩ := exists_of_isJump h
  obtain ⟨c, hc, hcomment⟩ := instruction?_cases hi
  obtain rfl : c = 'j' := Option.some.inj (hc.symm.trans hj)
  exact hcomment

theorem isComment_of_isSelfMove {line : String} (h : isSelfMove line) : isComment line = false := by
  obtain ⟨operands, hi⟩ := exists_of_isSelfMove h
  obtain ⟨c, hc, hcomment⟩ := instruction?_cases hi
  obtain rfl : c = 'm' := Option.some.inj (hc.symm.trans (by decide))
  exact hcomment

theorem isJump_of_isSelfMove {line : String} (h : isSelfMove line) : isJump line = false := by
  obtain ⟨operands, hi⟩ := exists_of_isSelfMove h
  have hm : ("movq".toList.head? == some 'j') = false := by decide
  rw [isJump, hi]
  exact hm

theorem shape_eq_comment_iff {line : String} : shape line = .comment ↔ isComment line := by
  cases hc : isComment line with
  | true => simp [shape, hc]
  | false => cases hj : isJump line <;> cases hm : isSelfMove line <;> simp [shape, hc, hj, hm]

theorem shape_eq_jump_iff {line : String} : shape line = .jump ↔ isJump line := by
  cases hj : isJump line with
  | true => simp [shape, hj, isComment_of_isJump hj]
  | false => cases hc : isComment line <;> cases hm : isSelfMove line <;> simp [shape, hc, hj, hm]

theorem shape_eq_selfMove_iff {line : String} : shape line = .selfMove ↔ isSelfMove line := by
  cases hm : isSelfMove line with
  | true => simp [shape, hm, isComment_of_isSelfMove hm, isJump_of_isSelfMove hm]
  | false => cases hc : isComment line <;> cases hj : isJump line <;> simp [shape, hc, hj, hm]

/-- The passes have one normal form. Running all of them comes to it, whichever passes have run
before, and each of them once is enough. It has all lines but some jumps and moves, and nothing else
that passes reach is normal. -/
theorem passes_normalize (lines : List String) :
    (∀ ps, runAll shape (Peephole.run shape ps lines) = runAll shape lines) ∧
    runAll shape lines = Peephole.run shape [.moves, .branches] lines ∧
    (runAll shape lines).Sublist lines ∧
    (runAll shape lines).filter (fun line => !isSelfMove line && !isJump line) =
      lines.filter (fun line => !isSelfMove line && !isJump line) ∧
    (∀ line ∈ runAll shape lines, ¬ isSelfMove line) ∧
    (∀ (m n : Nat) (a b : String), m < n → (runAll shape lines)[m]? = some a →
      (runAll shape lines)[n]? = some b → isJump a → isJump b →
      ∃ i line, m < i ∧ i < n ∧ (runAll shape lines)[i]? = some line ∧ ¬ isComment line) ∧
    ∀ ps, Normal shape (Peephole.run shape ps lines) →
      Peephole.run shape ps lines = runAll shape lines := by
  have hround : runAll shape lines = roundAfter shape false lines := runAll_eq_round lines
  have hnormal : Normal shape (runAll shape lines) := normal_runAll lines
  obtain ⟨hmoves, hjumps⟩ := hnormal
  simp only [ne_eq, shape_eq_selfMove_iff, shape_eq_jump_iff, shape_eq_comment_iff] at hmoves hjumps
  refine ⟨fun ps => runAll_run ps lines, hround, ?_, ?_, hmoves, hjumps,
    fun ps => eq_runAll_of_normal⟩
  · rw [hround]
    exact sublist_roundAfter false lines
  · rw [hround]
    refine filter_roundAfter (fun line hline => ?_) false lines
    simpa [shape_eq_selfMove_iff, shape_eq_jump_iff] using hline

end LineText

end IrAsm.X86
