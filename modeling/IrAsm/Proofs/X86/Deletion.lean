import IrAsm.Proofs.X86.Refinement

/-!
# What the passes delete

`kept shape lines` are the lines that the passes leave, each with its index, and a line is `Deleted`
if its index is not there. Moves from a place to itself are, and jumps for which the last line
before them that is neither a comment nor such a move is a jump (`deleted_iff`): one round of the
passes leaves nothing for a second one (`runAll_eq_round`).

In emitted lines that jump is never a conditional one, since a label follows those. A conditional
jump is never deleted, since a comparison comes before it.
-/

namespace IrAsm.X86

namespace Peephole

section
variable {α β : Type} {shape : α → Shape}

/-! ## One round is enough -/

theorem collapseJumps_idem (afterJump : Bool) (lines : List α) :
    collapseJumps shape afterJump (collapseJumps shape afterJump lines) =
      collapseJumps shape afterJump lines := by
  induction lines generalizing afterJump with
  | nil => rfl
  | cons line rest ih =>
    cases hs : shape line with
    | jump => cases afterJump <;> simp [collapseJumps, hs, ih]
    | _ => simp [collapseJumps, hs, ih]

theorem sublist_collapseJumps (afterJump : Bool) (lines : List α) :
    (collapseJumps shape afterJump lines).Sublist lines := by
  induction lines generalizing afterJump with
  | nil => exact .slnil
  | cons line rest ih =>
    unfold collapseJumps
    split
    · exact (ih _).cons_cons _
    · exact (ih _).cons _
    · exact (ih _).cons_cons _
    · exact (ih _).cons_cons _

theorem sublist_round (lines : List α) : (round shape lines).Sublist lines :=
  (sublist_collapseJumps _ _).trans List.filter_sublist

theorem round_round (lines : List α) : round shape (round shape lines) = round shape lines := by
  have hnone : dropSelfMoves shape (round shape lines) = round shape lines := by
    refine List.filter_eq_self.mpr fun line hline => ?_
    exact (List.mem_filter.mp ((sublist_collapseJumps _ _).subset hline)).2
  rw [round, hnone]
  exact collapseJumps_idem false _

theorem runAll_eq_round (lines : List α) : runAll shape lines = round shape lines := by
  fun_induction runAll shape lines with
  | case1 lines _ => rfl
  | case2 lines _ ih => rw [ih, round_round]

/-! ## Lines with their indices -/

theorem map_collapseJumps (f : β → α) (afterJump : Bool) (lines : List β) :
    (collapseJumps (fun x => shape (f x)) afterJump lines).map f =
      collapseJumps shape afterJump (lines.map f) := by
  induction lines generalizing afterJump with
  | nil => rfl
  | cons line rest ih =>
    cases hs : shape (f line) with
    | jump => cases afterJump <;> simp [collapseJumps, hs, ih]
    | _ => simp [collapseJumps, hs, ih]

/-- The passes see nothing of a line but its shape. -/
theorem map_runAll (f : β → α) (lines : List β) :
    (runAll (fun x => shape (f x)) lines).map f = runAll shape (lines.map f) := by
  rw [runAll_eq_round, runAll_eq_round, round, round, map_collapseJumps, dropSelfMoves,
    dropSelfMoves, List.filter_map]
  rfl

variable (shape) in
def kept (lines : List α) : List (α × Nat) := runAll (fun x => shape x.1) lines.zipIdx

theorem runAll_eq_kept (lines : List α) : runAll shape lines = (kept shape lines).map Prod.fst := by
  rw [kept, map_runAll, List.zipIdx_map_fst]

theorem sublist_kept (lines : List α) : (kept shape lines).Sublist lines.zipIdx := by
  rw [kept, runAll_eq_round]
  exact sublist_round _

variable (shape) in
def Deleted (lines : List α) (n : Nat) : Prop :=
  n < lines.length ∧ ∀ x ∈ kept shape lines, x.2 ≠ n

instance (lines : List α) (n : Nat) : Decidable (Deleted shape lines n) :=
  inferInstanceAs (Decidable (_ ∧ _))

variable (shape) in
/-- Whether the last line that is neither a comment nor a move from a place to itself is a jump,
once `line` has come. -/
def jumped (afterJump : Bool) (line : α) : Bool :=
  match shape line with
  | .comment | .selfMove => afterJump
  | .jump => true
  | .other => false

variable (shape) in
def jumpLast (lines : List α) : Bool := lines.foldl (jumped shape) false

variable (shape) in
/-- Both passes, behind other lines. -/
def roundAfter (afterJump : Bool) (lines : List α) : List α :=
  collapseJumps shape afterJump (dropSelfMoves shape lines)

theorem sublist_roundAfter (afterJump : Bool) (lines : List α) :
    (roundAfter shape afterJump lines).Sublist lines :=
  (sublist_collapseJumps _ _).trans List.filter_sublist

theorem roundAfter_cons (afterJump : Bool) (line : α) (rest : List α) :
    roundAfter shape afterJump (line :: rest) =
      (if shape line = .selfMove ∨ shape line = .jump ∧ afterJump then [] else [line]) ++
        roundAfter shape (jumped shape afterJump line) rest := by
  cases hs : shape line with
  | jump => cases afterJump <;> simp [roundAfter, dropSelfMoves, collapseJumps, jumped, hs]
  | _ => simp [roundAfter, dropSelfMoves, collapseJumps, jumped, hs]

theorem roundAfter_append (afterJump : Bool) (before lines : List α) :
    roundAfter shape afterJump (before ++ lines) = roundAfter shape afterJump before ++
      roundAfter shape (before.foldl (jumped shape) afterJump) lines := by
  induction before generalizing afterJump with
  | nil => rfl
  | cons line before ih =>
    rw [List.cons_append, roundAfter_cons, roundAfter_cons, ih, List.append_assoc, List.foldl_cons]

theorem roundAfter_of_inert {lines : List α}
    (h : ∀ line ∈ lines, shape line = .other ∨ shape line = .comment) (afterJump : Bool) :
    roundAfter shape afterJump lines = lines := by
  induction lines generalizing afterJump with
  | nil => rfl
  | cons line rest ih =>
    rw [List.forall_mem_cons] at h
    rw [roundAfter_cons, ih h.2]
    rcases h.1 with hs | hs <;> simp [hs]

theorem roundAfter_of_other {lines : List α} (h : ∀ line ∈ lines, shape line = .other)
    (afterJump : Bool) : roundAfter shape afterJump lines = lines :=
  roundAfter_of_inert (fun line hline => .inl (h line hline)) afterJump

theorem infix_runAll {mid : List α} (h : ∀ line ∈ mid, shape line = .other)
    (before after : List α) : mid <:+: runAll shape (before ++ (mid ++ after)) := by
  have hround : runAll shape (before ++ (mid ++ after)) =
      roundAfter shape false (before ++ (mid ++ after)) := runAll_eq_round _
  rw [hround, roundAfter_append, roundAfter_append, roundAfter_of_other h]
  exact ⟨_, _, List.append_assoc ..⟩

theorem subset_runAll (lines : List α) : runAll shape lines ⊆ lines :=
  (congrArg (· ⊆ lines) (runAll_eq_round lines)).mpr (sublist_round lines).subset

theorem mem_runAll_of_other {lines : List α} {line : α} (h : shape line = .other) :
    line ∈ runAll shape lines ↔ line ∈ lines := by
  refine ⟨fun hl => subset_runAll lines hl, fun hl => ?_⟩
  obtain ⟨before, after, rfl⟩ := List.append_of_mem hl
  exact (infix_runAll (List.forall_mem_singleton.mpr h) before after).subset List.mem_cons_self

/-- The passes leave something of each part of the lines. -/
theorem exists_roundAfter_flatten (afterJump : Bool) (pieces : List (List α)) :
    ∃ pieces', roundAfter shape afterJump pieces.flatten = pieces'.flatten ∧
      List.Forall₂ (fun piece' piece => ∃ b, piece' = roundAfter shape b piece) pieces' pieces := by
  induction pieces generalizing afterJump with
  | nil => exact ⟨[], rfl, .nil⟩
  | cons piece pieces ih =>
    obtain ⟨pieces', hrest, hall⟩ := ih (piece.foldl (jumped shape) afterJump)
    refine ⟨roundAfter shape afterJump piece :: pieces', ?_, .cons ⟨afterJump, rfl⟩ hall⟩
    rw [List.flatten_cons, List.flatten_cons, roundAfter_append, hrest]

/-- A line stays, unless it moves a place to itself or jumps behind a jump. -/
theorem deleted_append {before rest : List α} {line : α} :
    Deleted shape (before ++ line :: rest) before.length ↔
      shape line = .selfMove ∨ shape line = .jump ∧ jumpLast shape before := by
  have hlast : before.zipIdx.foldl (jumped fun x => shape x.1) false = jumpLast shape before := by
    conv_rhs => rw [jumpLast, ← List.zipIdx_map_fst 0 before, List.foldl_map]
    rfl
  have hkept : kept shape (before ++ line :: rest) =
      roundAfter (fun x => shape x.1) false before.zipIdx ++
        ((if shape line = .selfMove ∨ shape line = .jump ∧ jumpLast shape before then []
          else [(line, before.length)]) ++
        roundAfter (fun x => shape x.1) (jumped shape (jumpLast shape before) line)
          (rest.zipIdx (before.length + 1))) := by
    rw [kept, runAll_eq_round, List.zipIdx_append, Nat.zero_add, List.zipIdx_cons]
    exact (roundAfter_append ..).trans (by rw [hlast, roundAfter_cons]; rfl)
  have hbefore : ∀ x ∈ roundAfter (fun x => shape x.1) false before.zipIdx,
      x.2 ≠ before.length := by
    intro x hx
    have hlt := (List.mem_zipIdx ((sublist_roundAfter _ _).subset hx)).2.1
    omega
  have hrest : ∀ b, ∀ x ∈ roundAfter (fun x => shape x.1) b (rest.zipIdx (before.length + 1)),
      x.2 ≠ before.length := by
    intro b x hx
    have hle := (List.mem_zipIdx ((sublist_roundAfter _ _).subset hx)).1
    omega
  rw [Deleted, hkept, List.forall_mem_append, List.forall_mem_append, iff_true_intro hbefore,
    iff_true_intro (hrest _)]
  split
  · next h => simp [h]
  · next h => simp [h]

theorem deleted_iff {lines : List α} {n : Nat} :
    Deleted shape lines n ↔ ∃ line, lines[n]? = some line ∧
      (shape line = .selfMove ∨ shape line = .jump ∧ jumpLast shape (lines.take n)) := by
  by_cases hn : n < lines.length
  · have hlen : (lines.take n).length = n := List.length_take_of_le (Nat.le_of_lt hn)
    have hdel :
        Deleted shape (lines.take n ++ lines[n] :: lines.drop (n + 1)) (lines.take n).length ↔ _ :=
      deleted_append
    rw [List.cons_getElem_drop_succ, List.take_append_drop, hlen] at hdel
    rw [hdel, List.getElem?_eq_getElem hn]
    simp
  · simp [Deleted, hn]

theorem jumpLast_take_succ {lines : List α} {n : Nat} {line : α} (h : lines[n]? = some line) :
    jumpLast shape (lines.take (n + 1)) = jumped shape (jumpLast shape (lines.take n)) line := by
  rw [List.take_add_one, h, jumpLast, List.foldl_append]
  rfl

/-- The jump that a deleted one stands behind. -/
theorem exists_jump_of_jumpLast {lines : List α} {n : Nat} (hn : n ≤ lines.length)
    (h : jumpLast shape (lines.take n)) : ∃ m < n, ∃ line, lines[m]? = some line ∧
      shape line = .jump ∧ ∀ i, m < i → i < n → ∃ l, lines[i]? = some l ∧
        (shape l = .comment ∨ shape l = .selfMove) := by
  induction n with
  | zero => cases h
  | succ n ih =>
    have hget : lines[n]? = some lines[n] := List.getElem?_eq_getElem hn
    rw [jumpLast_take_succ hget, jumped] at h
    -- a line that is passed over extends the lines between
    have hskip (hs : shape lines[n] = .comment ∨ shape lines[n] = .selfMove)
        (h : jumpLast shape (lines.take n)) : ∃ m < n + 1, ∃ line, lines[m]? = some line ∧
          shape line = .jump ∧ ∀ i, m < i → i < n + 1 → ∃ l, lines[i]? = some l ∧
            (shape l = .comment ∨ shape l = .selfMove) := by
      obtain ⟨m, hm, line, hline, hjump, hbetween⟩ := ih (Nat.le_of_succ_le hn) h
      refine ⟨m, Nat.lt_succ_of_lt hm, line, hline, hjump, fun i hi hin => ?_⟩
      rcases Nat.lt_succ_iff_lt_or_eq.mp hin with hin | rfl
      · exact hbetween i hi hin
      · exact ⟨_, hget, hs⟩
    split at h
    · next hs => exact hskip (.inl hs) h
    · next hs => exact hskip (.inr hs) h
    · next hs => exact ⟨n, n.lt_succ_self, _, hget, hs, fun i hi hin => by omega⟩
    · cases h

variable (shape) in
/-- A line that is passed over when one looks back from a jump. -/
def Skipped (lines : List α) (n : Nat) : Prop :=
  ∃ line, lines[n]? = some line ∧ (shape line = .comment ∨ shape line = .selfMove ∨
    shape line = .jump ∧ Deleted shape lines n)

end

end Peephole

/-! ## Conditional jumps -/

def Line.isCmp : Line → Bool
  | .code (.cmp _ _) => true
  | _ => false

/-- Conditional jumps stand right behind a comparison. -/
def Tested : Bool → List Line → Prop
  | _, [] => True
  | afterCmp, line :: rest => ((∃ t, line = .code (.je t)) → afterCmp) ∧ Tested line.isCmp rest

namespace Tested

variable {afterCmp : Bool} {lines rest : List Line}

theorem mono (h : Tested false lines) : Tested afterCmp lines := by
  cases lines with
  | nil => trivial
  | cons line rest => exact ⟨fun ht => absurd (h.1 ht) Bool.false_ne_true, h.2⟩

theorem append (h : Tested afterCmp lines) (hrest : Tested false rest) :
    Tested afterCmp (lines ++ rest) := by
  induction lines generalizing afterCmp with
  | nil => exact hrest.mono
  | cons line lines ih => exact ⟨h.1, ih h.2⟩

theorem of_ne (h : ∀ line ∈ lines, ∀ t, line ≠ .code (.je t)) : Tested afterCmp lines := by
  induction lines generalizing afterCmp with
  | nil => trivial
  | cons line lines ih =>
    rw [List.forall_mem_cons] at h
    exact ⟨fun ⟨t, ht⟩ => absurd ht (h.1 t), ih h.2⟩

/-- The comparison before a conditional jump. -/
theorem exists_cmp {n : Nat} {t : Label} (h : Tested false lines)
    (hn : lines[n]? = some (.code (.je t))) :
    ∃ m src dst, n = m + 1 ∧ lines[m]? = some (.code (.cmp src dst)) := by
  suffices ∀ afterCmp, Tested afterCmp lines → (n = 0 ∧ afterCmp) ∨
      ∃ m src dst, n = m + 1 ∧ lines[m]? = some (.code (.cmp src dst)) from
    (this false h).resolve_left fun h => absurd h.2 Bool.false_ne_true
  clear h
  induction lines generalizing n with
  | nil => simp at hn
  | cons line rest ih =>
    intro afterCmp h
    cases n with
    | zero => exact .inl ⟨rfl, h.1 ⟨t, by simpa using hn⟩⟩
    | succ n =>
      refine .inr ?_
      rcases ih (by simpa using hn) _ h.2 with ⟨rfl, hcmp⟩ | ⟨m, src, dst, rfl, hm⟩
      · obtain ⟨src, dst, rfl⟩ : ∃ src dst, line = .code (.cmp src dst) := by
          unfold Line.isCmp at hcmp
          split at hcmp
          · exact ⟨_, _, rfl⟩
          · cases hcmp
        exact ⟨0, src, dst, rfl, rfl⟩
      · exact ⟨m + 1, src, dst, rfl, hm⟩

end Tested

namespace Context

variable {c : Context} {s s' : State} {n : Nat} {i : IrAsm.Instr} {code : List Instr}
  {lines : List Line}

theorem tested_of_straight (h : Straight code) : Tested false (code.map .code) := by
  refine .of_ne fun line hline t ht => ?_
  obtain ⟨j, hj, rfl⟩ := List.mem_map.mp hline
  exact h t (Line.code.inj ht ▸ hj)

theorem tested_of_silent (h : ∀ line ∈ lines, line.isSilent) : Tested false lines :=
  .of_ne fun line hline t ht => by have := h line hline; rw [ht] at this; cases this

theorem tested_of_select (h : c.select s n i = .ok (s', code)) : Tested false (code.map .code) := by
  rcases straight_or_jumpIfZero h with hcode | ⟨loc, t, l, rfl, -⟩
  · exact tested_of_straight hcode
  · unfold Sequence.jumpIfZero
    split <;> simp [Tested, Line.isCmp]

theorem tested_emitPoints {ps : List (Point × Nat)} (h : c.emitPoints s ps = .ok lines) :
    Tested false lines := by
  induction ps generalizing s lines with
  | nil => cases h; trivial
  | cons p ps ih =>
    obtain ⟨p, idx⟩ := p
    obtain ⟨s', code, tail, hsel, htail, rfl⟩ := emitPoints_cons.mp h
    exact (tested_of_silent (c.isSilent_heading _ _)).append
      ((tested_of_select hsel).append (ih htail))

theorem tested_emit (h : c.emit = .ok lines) : Tested false lines := by
  obtain ⟨body, hb, rfl⟩ := emit_ok h
  refine .append (.of_ne fun line hline t ht => ?_) ((tested_emitPoints hb).append ?_)
  · have := c.shape_prologue line hline
    rw [ht] at this
    cases this
  · have hexit : Straight c.exitCode := fun t => by simp [exitCode]
    exact ⟨by simp, tested_of_straight hexit⟩

end Context

namespace Peephole

variable {lines : List Line} {n : Nat} {t : Label}

theorem not_deleted_je (htested : Tested false lines) (hn : lines[n]? = some (.code (.je t))) :
    ¬ Deleted Line.shape lines n := by
  obtain ⟨m, src, dst, rfl, hm⟩ := htested.exists_cmp hn
  rw [deleted_iff]
  rintro ⟨line, hline, hdel⟩
  obtain rfl := Option.some.inj (hn.symm.trans hline)
  rw [jumpLast_take_succ hm] at hdel
  simp [Line.shape, jumped] at hdel

/-- The jump before a deleted one is not conditional. -/
theorem exists_jmp_of_jumpLast (hguard : Guarded lines) (hn : n < lines.length)
    (hjump : ∀ l, lines[n]? ≠ some (.label l)) (h : jumpLast Line.shape (lines.take n)) :
    ∃ m < n, ∃ t, lines[m]? = some (.code (.jmp t)) ∧ ∀ i, m < i → i < n → ∃ line,
      lines[i]? = some line ∧ (line.shape = .comment ∨ line.shape = .selfMove) := by
  obtain ⟨m, hm, line, hline, hs, hbetween⟩ := exists_jump_of_jumpLast (Nat.le_of_lt hn) h
  rcases eq_jump_of_shape hs with ⟨t, rfl⟩ | ⟨t, rfl⟩
  · exact ⟨m, hm, t, hline, hbetween⟩
  · -- a label follows, and it is neither passed over nor a jump
    obtain ⟨hmlt, hm'⟩ := List.getElem?_eq_some_iff.mp hline
    have hchain := (List.isChain_iff_getElem.mp hguard) m (by omega)
    obtain ⟨l, hlabel⟩ := hchain t hm'
    have hl : lines[m + 1]? = some (.label l) := List.getElem?_eq_some_iff.mpr ⟨_, hlabel⟩
    rcases Nat.lt_or_ge (m + 1) n with hlt | hge
    · obtain ⟨line, hline, hs⟩ := hbetween (m + 1) m.lt_succ_self hlt
      cases hl.symm.trans hline
      simp [Line.shape] at hs
    · obtain rfl : n = m + 1 := by omega
      exact absurd hl (hjump l)

/-- Looking back from a deleted jump past all that is skipped, one finds an unconditional jump. -/
theorem exists_jmp_of_deleted {n : Nat} (hguard : Guarded lines) {line : Line}
    (hline : lines[n]? = some line) (hs : line.shape = .jump) (h : Deleted Line.shape lines n) :
    ∃ m < n, (∃ t, lines[m]? = some (.code (.jmp t))) ∧ ¬ Skipped Line.shape lines m ∧
      ∀ i, m < i → i < n → Skipped Line.shape lines i := by
  obtain ⟨line', hline', hdel⟩ := deleted_iff.mp h
  obtain rfl := Option.some.inj (hline.symm.trans hline')
  have hlast : jumpLast Line.shape (lines.take n) := by simpa [hs] using hdel
  obtain ⟨m, hm, t, ht, hbetween⟩ := exists_jmp_of_jumpLast hguard
    (List.getElem?_eq_some_iff.mp hline).1
      (fun l hl => by rw [hline] at hl; cases hl; cases hs) hlast
  have hskip : ∀ i, m < i → i < n → Skipped Line.shape lines i := fun i hi hin => by
    obtain ⟨l, hl, hs⟩ := hbetween i hi hin
    exact ⟨l, hl, hs.imp_right .inl⟩
  by_cases hd : Deleted Line.shape lines m
  · -- the jump is deleted as well, so there is one before it
    obtain ⟨k, hk, hjmp, hkept, hbefore⟩ := exists_jmp_of_deleted hguard ht rfl hd
    refine ⟨k, Nat.lt_trans hk hm, hjmp, hkept, fun i hi hin => ?_⟩
    rcases Nat.lt_trichotomy i m with him | rfl | him
    · exact hbefore i hi him
    · exact ⟨_, ht, .inr (.inr ⟨rfl, hd⟩)⟩
    · exact hskip i him hin
  · refine ⟨m, hm, ⟨t, ht⟩, ?_, hskip⟩
    rintro ⟨l, hl, hs⟩
    cases ht.symm.trans hl
    simp [Line.shape, hd] at hs
termination_by n

/-- A jump is not deleted if looking back from it one comes to a conditional jump. -/
theorem not_deleted_of_je (hguard : Guarded lines) (htested : Tested false lines)
    (hn : lines[n]? = some (.code (.je t))) {j : Nat} {line : Line} (hj : n < j)
    (hline : lines[j]? = some line) (hs : line.shape = .jump)
    (hskip : ∀ i, n < i → i < j → Skipped Line.shape lines i) : ¬ Deleted Line.shape lines j := by
  intro hdel
  obtain ⟨m, hm, ⟨t', ht'⟩, hkept, hbefore⟩ := exists_jmp_of_deleted hguard hline hs hdel
  rcases Nat.lt_trichotomy m n with hlt | rfl | hlt
  · obtain ⟨l, hl, hs⟩ := hbefore n hlt hj
    cases hn.symm.trans hl
    simp [Line.shape, not_deleted_je htested hn] at hs
  · cases hn.symm.trans ht'
  · exact hkept (hskip m hlt hm)

end Peephole

namespace Context

open Peephole

/-- The passes delete moves from a register to itself, and unconditional jumps behind an
unconditional jump that stays. Between the two there are only comments, such moves and deleted
jumps. Neither conditional jumps are deleted nor jumps right behind one. -/
theorem deleted_lines_dead {c : Context} {lines : List Line} (hv : c.function.verify = .ok ())
    (hb : Flow.build c.function = .ok c.flow) (h : c.emit = .ok lines) :
    runAll Line.shape lines = (kept Line.shape lines).map Prod.fst ∧
    (kept Line.shape lines).Sublist lines.zipIdx ∧
    (∀ n, Deleted Line.shape lines n →
      (∃ r, lines[n]? = some (.code (.mov (.reg r) (.reg r)))) ∨
      (∃ t, lines[n]? = some (.code (.jmp t))) ∧
        ∃ m < n, (∃ t, lines[m]? = some (.code (.jmp t))) ∧ ¬ Skipped Line.shape lines m ∧
          ∀ i, m < i → i < n → Skipped Line.shape lines i) ∧
    ∀ n t, lines[n]? = some (.code (.je t)) → ¬ Deleted Line.shape lines n ∧
      ∀ j line, n < j → lines[j]? = some line → line.shape = .jump →
        (∀ i, n < i → i < j → Skipped Line.shape lines i) → ¬ Deleted Line.shape lines j := by
  have hw := Function.wellFormed_of_verify hv
  have hguard := guarded_of_represents hw (Flow.represents_of_build hw hb) h
  have htested := tested_emit h
  refine ⟨runAll_eq_kept lines, sublist_kept lines, fun n hdel => ?_, fun n t hn =>
    ⟨not_deleted_je htested hn, fun j line hj => not_deleted_of_je hguard htested hn hj⟩⟩
  obtain ⟨line, hline, hs | ⟨hs, -⟩⟩ := deleted_iff.mp hdel
  · obtain ⟨src, rfl⟩ := eq_mov_of_shape hs
    obtain ⟨r, rfl⟩ := moves_emit h (List.mem_of_getElem? hline)
    exact .inl ⟨r, hline⟩
  · refine .inr ⟨?_, exists_jmp_of_deleted hguard hline hs hdel⟩
    rcases eq_jump_of_shape hs with ⟨t, rfl⟩ | ⟨t, rfl⟩
    · exact ⟨t, hline⟩
    · exact absurd hdel (not_deleted_je htested hline)

/-- A function with a move from a register to itself at line 9, and at line 17 a branch that control
never comes to, with the text of the branch in between. -/
def squeezed : Function where
  name := "f"
  ret := .void
  params := [⟨"a", .int 64⟩]
  blocks := [⟨some "entry", [⟨.bitcast, [.reg "a"], some "b", .int 64⟩,
      ⟨.br, [.reg "b", .label "yes", .label "no"], none, .void⟩]⟩,
    ⟨some "yes", [⟨.ret, [], none, .void⟩, ⟨.br, [.label "yes"], none, .void⟩]⟩,
    ⟨some "no", [⟨.ret, [], none, .void⟩]⟩]

theorem deleted_lines_dead_squeezed :
    squeezed.verify = .ok () ∧ ∃ (c : Context) (lines : List Line), c.function = squeezed ∧
      Flow.build squeezed = .ok c.flow ∧ c.emit = .ok lines ∧ Deleted Line.shape lines 9 ∧
      Deleted Line.shape lines 17 ∧ ∃ m < 17, (∃ t, lines[m]? = some (.code (.jmp t))) ∧
        ¬ Skipped Line.shape lines m ∧ ∀ i, m < i → i < 17 → Skipped Line.shape lines i := by
  have hv : squeezed.verify = .ok () := ok_of_toBool (by decide +kernel)
  have heval : ((Flow.build squeezed).toOption.bind fun fl =>
      (emit ⟨squeezed, fl, Liveness.analyze fl.points, ⟨.ofList [("a", 0), ("b", 0)]⟩,
        { optimize := true, annotate := true }⟩).toOption.map fun lines =>
          decide (Deleted Line.shape lines 9 ∧ Deleted Line.shape lines 17 ∧
            lines[17]? = some (.code (.jmp (.block "f" "yes"))))) = some true := by
    decide +kernel
  simp only [Option.bind_eq_some_iff, Option.map_eq_some_iff, toOption_eq_some_iff,
    decide_eq_true_eq] at heval
  obtain ⟨fl, hb, lines, hl, hmove, hjump, hline⟩ := heval
  refine ⟨hv, _, lines, rfl, hb, hl, hmove, hjump, ?_⟩
  rcases (deleted_lines_dead (c := ⟨squeezed, fl, _, _, _⟩) hv hb hl).2.2.1 17 hjump with
    ⟨r, hr⟩ | ⟨-, hex⟩
  · cases hline.symm.trans hr
  · exact hex

end Context

end IrAsm.X86
