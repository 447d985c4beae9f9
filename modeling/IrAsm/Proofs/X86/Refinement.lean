import IrAsm.Proofs.X86.Effect

/-!
# The passes add no runs

A run of the lines that the passes leave is one of the lines before them, less the deleted lines.
The machine stands before the same lines in both, so a deleted line can be put back wherever control
comes to it: a move from a register to itself changes nothing, and a deleted jump is never come to.

The bytes that a callee may change are those that the next line takes off the stack, so the passes
must not bring such a line up to a call. In orderly lines they cannot: each stands right behind its
call already (`Tight`).
-/

namespace IrAsm.X86

def Line.isCall : Line → Bool
  | .code (.call _) => true
  | _ => false

/-- Lines that take something off the stack stand right behind a call. -/
def Tight : Bool → List Line → Prop
  | _, [] => True
  | afterCall, line :: rest => (line.releases = none ∨ afterCall) ∧ Tight line.isCall rest

structure Orderly (lines : List Line) : Prop where
  guarded : Guarded lines
  tight : Tight false lines
  /-- Other moves from a place to itself could not be done. -/
  moves : ∀ src, .code (.mov src src) ∈ lines → ∃ r, src = .reg r

namespace Tight

variable {afterCall : Bool} {line : Line} {lines rest : List Line}

theorem mono (h : Tight false lines) : Tight afterCall lines := by
  cases lines with
  | nil => trivial
  | cons line rest => exact ⟨.inl (h.1.resolve_right Bool.false_ne_true), h.2⟩

theorem of_call (h : Tight afterCall lines) : Tight true lines := by
  cases lines with
  | nil => trivial
  | cons line rest => exact ⟨.inr rfl, h.2⟩

theorem append (h : Tight afterCall lines) (hrest : Tight false rest) :
    Tight afterCall (lines ++ rest) := by
  induction lines generalizing afterCall with
  | nil => exact hrest.mono
  | cons line lines ih => exact ⟨h.1, ih h.2⟩

theorem of_releases (h : ∀ line ∈ lines, line.releases = none) : Tight afterCall lines := by
  induction lines generalizing afterCall with
  | nil => trivial
  | cons line lines ih =>
    rw [List.forall_mem_cons] at h
    exact ⟨.inl h.1, ih h.2⟩

theorem suffix (h : Tight afterCall lines) (hr : rest <:+ lines) : Tight true rest := by
  induction lines generalizing afterCall with
  | nil => rw [List.suffix_nil.mp hr]; trivial
  | cons line lines ih =>
    rcases List.suffix_cons_iff.mp hr with rfl | hr
    · exact h.of_call
    · exact ih h.2 hr

theorem released_eq_zero (h : Tight false lines) : released lines = 0 := by
  cases lines with
  | nil => rfl
  | cons line rest => simp [released, h.1.resolve_right Bool.false_ne_true]

/-- Behind a line that is no call nothing is taken off the stack. -/
theorem tail (h : Tight afterCall (line :: rest)) (hline : line.isCall = false) :
    Tight false rest :=
  hline ▸ h.2

end Tight

/-! ## Steps -/

section
variable {top : Word} {prog lines rest : List Line} {m m' : Machine} {t : Label} {cpu : Cpu}

theorem suffix_of_target? (h : target? prog t = some lines) : lines <:+ prog := by
  induction prog with
  | nil => cases h
  | cons line prog ih =>
    rw [target?] at h
    split at h
    · cases h; exact List.suffix_refl _
    · exact (ih h).trans (List.suffix_cons _ _)

/-- The lines to come are always a rest of the program. -/
theorem Step.suffix (h : Step top prog m m') (hm : m.lines <:+ prog) : m'.lines <:+ prog := by
  cases h with
  | line hs _ =>
    rcases lines_of_step hs with ht | ⟨t, ht⟩
    · rw [ht]
      exact (List.tail_suffix _).trans hm
    · exact suffix_of_target? ht
  | call _ => exact (List.suffix_cons _ _).trans hm

/-- Where a jump leads does not depend on what follows it. -/
theorem Step.jmp (h : Step top prog ⟨cpu, .code (.jmp t) :: rest⟩ m') (rest' : List Line) :
    Step top prog ⟨cpu, .code (.jmp t) :: rest'⟩ m' := by
  cases h with
  | line hs _ => exact .line hs fun i r hi => by cases hi; trivial

end

namespace Peephole

section
variable {top : Word} {pass : List Line → List Line} {prog rest : List Line} {cpu : Cpu}
  {m m₁ : Machine}

/-- A line that a pass keeps led where it does now. -/
theorem step_before (htarget : ∀ t, target? (pass prog) t = (target? prog t).map pass) {line : Line}
    (hrel : released (pass rest) = released rest)
    (h : Step top (pass prog) ⟨cpu, line :: pass rest⟩ m₁) :
    ∃ m', Step top prog ⟨cpu, line :: rest⟩ m' ∧ m₁ = after pass m' := by
  cases h with
  | line hs hclear =>
    rw [step_after htarget] at hs
    obtain ⟨m', hm', rfl⟩ := Option.map_eq_some_iff.mp hs
    refine ⟨m', .line hm' fun i r hi => ?_, rfl⟩
    obtain ⟨rfl, rfl⟩ := List.cons.inj hi
    exact hclear i _ rfl
  | call hr => exact ⟨⟨_, rest⟩, .call (hrel ▸ hr), rfl⟩

/-- Runs follow from steps. -/
theorem steps_before (hstep : ∀ {m m₁}, m.lines <:+ prog → Step top (pass prog) (after pass m) m₁ →
      ∃ m', Steps top prog m m' ∧ m₁ = after pass m' ∧ m'.lines <:+ prog)
    (hm : m.lines <:+ prog) (h : Steps top (pass prog) (after pass m) m₁) :
    ∃ m', Steps top prog m m' ∧ m₁ = after pass m' ∧ m'.lines <:+ prog := by
  induction h with
  | refl => exact ⟨m, .refl, rfl, hm⟩
  | tail _ hs ih =>
    obtain ⟨d, hd, rfl, hdm⟩ := ih
    obtain ⟨m', hm', he, hsuf⟩ := hstep hdm hs
    exact ⟨m', hd.trans hm', he, hsuf⟩

end

/-! ## Moves -/

section
variable {top : Word} {prog lines rest : List Line} {line : Line} {cpu e : Cpu}

theorem dropSelfMoves_of_selfMove (h : line.shape = .selfMove) (rest : List Line) :
    dropSelfMoves Line.shape (line :: rest) = dropSelfMoves Line.shape rest := by
  simp [dropSelfMoves, h]

theorem dropSelfMoves_of_ne (h : line.shape ≠ .selfMove) (rest : List Line) :
    dropSelfMoves Line.shape (line :: rest) = line :: dropSelfMoves Line.shape rest := by
  simp [dropSelfMoves, h]

theorem isCall_of_shape (h : line.shape ≠ .other) : line.isCall = false := by
  cases line with
  | code i =>
    cases i with
    | call callee => exact absurd rfl h
    | _ => rfl
  | _ => rfl

theorem tight_dropSelfMoves {afterCall : Bool} (h : Tight afterCall lines) :
    Tight afterCall (dropSelfMoves Line.shape lines) := by
  induction lines generalizing afterCall with
  | nil => trivial
  | cons line rest ih =>
    by_cases hs : line.shape = .selfMove
    · rw [dropSelfMoves_of_selfMove hs]
      exact (ih (h.tail (isCall_of_shape (by simp [hs])))).mono
    · rw [dropSelfMoves_of_ne hs]
      exact ⟨h.1, ih h.2⟩

theorem released_dropSelfMoves (h : Tight true lines) :
    released (dropSelfMoves Line.shape lines) = released lines := by
  cases lines with
  | nil => rfl
  | cons line rest =>
    by_cases hs : line.shape = .selfMove
    · have hrest := h.tail (isCall_of_shape (by simp [hs]))
      rw [dropSelfMoves_of_selfMove hs, (tight_dropSelfMoves hrest).released_eq_zero]
      obtain ⟨src, rfl⟩ := eq_mov_of_shape hs
      rfl
    · rw [dropSelfMoves_of_ne hs]
      rfl

/-- The machine passes over the moves before a line that is kept. -/
theorem steps_selfMoves (hmoves : ∀ src, .code (.mov src src) ∈ lines → ∃ r, src = .reg r)
    (h : dropSelfMoves Line.shape lines = line :: rest) : ∃ rest',
      Steps top prog ⟨cpu, lines⟩ ⟨cpu, line :: rest'⟩ ∧ rest = dropSelfMoves Line.shape rest' ∧
        line :: rest' <:+ lines := by
  induction lines with
  | nil => cases h
  | cons l lines ih =>
    by_cases hs : l.shape = .selfMove
    · obtain ⟨src, rfl⟩ := eq_mov_of_shape hs
      obtain ⟨r, rfl⟩ := hmoves src (.head _)
      rw [dropSelfMoves_of_selfMove hs] at h
      obtain ⟨rest', hr, he, hsuf⟩ := ih (fun src hsrc => hmoves src (.tail _ hsrc)) h
      have hexec : (Instr.mov (.reg r) (.reg r)).exec cpu = some cpu := by
        simp [Instr.exec, Loc.isMemory, Cpu.write]
      refine ⟨rest', .head (.line (step_of_exec hexec) fun i _ hi => ?_) hr, he,
        hsuf.trans (List.suffix_cons _ _)⟩
      cases hi
      trivial
    · rw [dropSelfMoves_of_ne hs] at h
      obtain ⟨rfl, rfl⟩ := List.cons.inj h
      exact ⟨lines, .refl, rfl, List.suffix_refl _⟩

theorem exists_steps_of_step_dropSelfMoves (ho : Orderly prog) {m m₁ : Machine}
    (hm : m.lines <:+ prog)
    (h : Step top (dropSelfMoves Line.shape prog) (after (dropSelfMoves Line.shape) m) m₁) :
    ∃ m', Steps top prog m m' ∧ m₁ = after (dropSelfMoves Line.shape) m' ∧ m'.lines <:+ prog := by
  obtain ⟨cpu, lines⟩ := m
  cases hl : dropSelfMoves Line.shape lines with
  | nil =>
    rw [after, hl] at h
    cases h with
    | line hs _ => cases hs
  | cons line rest =>
    obtain ⟨rest', hr, rfl, hsuf⟩ :=
      steps_selfMoves (fun src hsrc => ho.moves src (hm.subset hsrc)) hl
    have htight := ho.tight.suffix ((List.suffix_cons _ _).trans (hsuf.trans hm))
    rw [after, hl] at h
    obtain ⟨m', hm', rfl⟩ :=
      step_before (target?_dropSelfMoves prog) (released_dropSelfMoves htight) h
    exact ⟨m', hr.tail hm', rfl, hm'.suffix (hsuf.trans hm)⟩

/-- A run without the moves is one with them. -/
theorem exists_steps_of_dropSelfMoves (ho : Orderly prog) {i : Instr}
    (h : Steps top (dropSelfMoves Line.shape prog) ⟨cpu, dropSelfMoves Line.shape prog⟩
      ⟨e, .code i :: rest⟩) : ∃ rest', Steps top prog ⟨cpu, prog⟩ ⟨e, .code i :: rest'⟩ := by
  have hprog : (Machine.mk cpu prog).lines <:+ prog := List.suffix_refl _
  obtain ⟨⟨e', lines⟩, hs, hm, hsuf⟩ :=
    steps_before (exists_steps_of_step_dropSelfMoves ho) hprog h
  obtain ⟨rfl, hl⟩ : e = e' ∧ Line.code i :: rest = dropSelfMoves Line.shape lines := by
    simpa [after] using hm
  obtain ⟨rest', hr, -⟩ := steps_selfMoves (fun src hsrc => ho.moves src (hsuf.subset hsrc)) hl.symm
  exact ⟨rest', hs.trans hr⟩

theorem orderly_dropSelfMoves (h : Orderly lines) : Orderly (dropSelfMoves Line.shape lines) where
  guarded := guarded_dropSelfMoves h.guarded
  tight := tight_dropSelfMoves h.tight
  moves src hsrc := h.moves src (List.mem_of_mem_filter hsrc)

/-! ## Jumps -/

theorem tight_collapseJumps {afterCall : Bool} (h : Tight afterCall lines) (afterJump : Bool) :
    Tight afterCall (collapseJumps Line.shape afterJump lines) := by
  induction lines generalizing afterCall afterJump with
  | nil => trivial
  | cons line rest ih =>
    unfold collapseJumps
    split
    · exact ⟨h.1, ih h.2 _⟩
    · next hs => exact (ih (h.tail (isCall_of_shape (by simp [hs]))) _).mono
    · exact ⟨h.1, ih h.2 _⟩
    · exact ⟨h.1, ih h.2 _⟩

theorem released_collapseJumps (lines : List Line) :
    released (collapseJumps Line.shape false lines) = released lines := by
  cases lines with
  | nil => rfl
  | cons line rest => cases hs : line.shape <;> simp [collapseJumps, hs, released]

theorem exists_steps_of_step_collapseJumps (ho : Orderly prog) {m m₁ : Machine}
    (hm : m.lines <:+ prog) (h : Step top (collapseJumps Line.shape false prog)
      (after (collapseJumps Line.shape false) m) m₁) :
    ∃ m', Steps top prog m m' ∧ m₁ = after (collapseJumps Line.shape false) m' ∧
      m'.lines <:+ prog := by
  obtain ⟨cpu, lines⟩ := m
  cases lines with
  | nil =>
    cases h with
    | line hs _ => cases hs
  | cons line rest =>
    obtain ⟨rest', hl, hrest⟩ := collapseJumps_cons (ho.guarded.suffix hm)
    have h : Step top (collapseJumps Line.shape false prog)
        ⟨cpu, line :: collapseJumps Line.shape false rest⟩ m₁ := by
      rw [after, hl] at h
      rcases hrest with rfl | ⟨t, rfl⟩
      · exact h
      · exact h.jmp _
    obtain ⟨m', hm', rfl⟩ :=
      step_before (target?_collapseJumps false prog) (released_collapseJumps rest) h
    exact ⟨m', .single hm', rfl, hm'.suffix hm⟩

/-- A run without the deleted jumps is one with them. -/
theorem exists_steps_of_collapseJumps (ho : Orderly prog) {i : Instr}
    (h : Steps top (collapseJumps Line.shape false prog) ⟨cpu, collapseJumps Line.shape false prog⟩
      ⟨e, .code i :: rest⟩) : ∃ rest', Steps top prog ⟨cpu, prog⟩ ⟨e, .code i :: rest'⟩ := by
  have hprog : (Machine.mk cpu prog).lines <:+ prog := List.suffix_refl _
  obtain ⟨⟨e', lines⟩, hs, hm, hsuf⟩ :=
    steps_before (exists_steps_of_step_collapseJumps ho) hprog h
  obtain ⟨rfl, hl⟩ : e = e' ∧ Line.code i :: rest = collapseJumps Line.shape false lines := by
    simpa [after] using hm
  cases lines with
  | nil => cases hl
  | cons line rest' =>
    obtain ⟨_, hl', -⟩ := collapseJumps_cons (ho.guarded.suffix hsuf)
    obtain ⟨rfl, -⟩ := List.cons.inj (hl.trans hl')
    exact ⟨rest', hs⟩

theorem mem_of_mem_collapseJumps {afterJump : Bool}
    (h : line ∈ collapseJumps Line.shape afterJump lines) : line ∈ lines := by
  induction lines generalizing afterJump with
  | nil => cases h
  | cons l lines ih =>
    unfold collapseJumps at h
    split at h
    · exact (List.mem_cons.mp h).elim (· ▸ .head _) fun h => .tail _ (ih h)
    · exact .tail _ (ih h)
    · exact (List.mem_cons.mp h).elim (· ▸ .head _) fun h => .tail _ (ih h)
    · exact (List.mem_cons.mp h).elim (· ▸ .head _) fun h => .tail _ (ih h)

theorem orderly_collapseJumps (h : Orderly lines) :
    Orderly (collapseJumps Line.shape false lines) where
  guarded := guarded_collapseJumps h.guarded false
  tight := tight_collapseJumps h.tight false
  moves src hsrc := h.moves src (mem_of_mem_collapseJumps hsrc)

/-- The passes add no runs to orderly lines. -/
theorem exists_steps_of_runAll (ho : Orderly prog) {i : Instr}
    (h : Steps top (runAll Line.shape prog) ⟨cpu, runAll Line.shape prog⟩ ⟨e, .code i :: rest⟩) :
    ∃ rest', Steps top prog ⟨cpu, prog⟩ ⟨e, .code i :: rest'⟩ := by
  refine (runAll_induction (P := fun lines => Orderly lines ∧ ∀ rest,
    Steps top lines ⟨cpu, lines⟩ ⟨e, .code i :: rest⟩ →
      ∃ rest', Steps top prog ⟨cpu, prog⟩ ⟨e, .code i :: rest'⟩) ?_
    ⟨ho, fun rest hr => ⟨rest, hr⟩⟩).2 rest h
  rintro lines ⟨ho, hlines⟩
  refine ⟨orderly_collapseJumps (orderly_dropSelfMoves ho), fun rest hr => ?_⟩
  obtain ⟨_, hr⟩ := exists_steps_of_collapseJumps (orderly_dropSelfMoves ho) hr
  obtain ⟨_, hr⟩ := exists_steps_of_dropSelfMoves ho hr
  exact hlines _ hr

end

end Peephole

/-! ## Emitted lines -/

/-- The instruction takes nothing off the stack. If it moves a place to itself, that is a
register. -/
def Instr.Steady (i : Instr) : Prop :=
  (Line.code i).releases = none ∧ ∀ src, i = .mov src src → ∃ r, src = .reg r

theorem Instr.steady_jmp (t : Label) : (Instr.jmp t).Steady := ⟨rfl, nofun⟩

theorem Instr.steady_je (t : Label) : (Instr.je t).Steady := ⟨rfl, nofun⟩

section
variable {i : Instr} {changed : List Reg} {code : List Instr}

theorem Instr.Quiet.steady (hi : i.Quiet changed) (hsp : .rsp ∉ changed) : i.Steady := by
  cases i with
  | mov src dst =>
    cases dst with
    | reg r =>
      refine ⟨rfl, fun src' h => ?_⟩
      cases h
      exact ⟨r, rfl⟩
    | _ => exact hi.elim
  | alu op src dst =>
    refine ⟨?_, nofun⟩
    have hne : dst ≠ .rsp := fun he => hsp (he ▸ hi)
    unfold Line.releases
    split
    · next h => cases h; exact absurd rfl hne
    · rfl
  | push | pop | jmp | je | call | ret => exact hi.elim
  | _ => exact ⟨rfl, nofun⟩

theorem Quiet.steady (hq : Quiet changed code) (hsp : .rsp ∉ changed) : ∀ i ∈ code, i.Steady :=
  fun i hi => (hq i hi).steady hsp

/-- Memory is moved to memory over the stack. -/
theorem Sequence.steady_move {src dst : Loc} (hdst : dst.isMemory) :
    ∀ i ∈ Sequence.move src dst, i.Steady := by
  unfold Sequence.move
  split
  · simp [Instr.Steady, Line.releases]
  · next hboth =>
    rw [List.forall_mem_singleton]
    refine ⟨rfl, fun src' h => ?_⟩
    cases h
    simp [hdst] at hboth

end

namespace Context

variable {c : Context} {s s' : State} {n : Nat} {i : IrAsm.Instr} {code : List Instr}
  {lines : List Line}

theorem steady_of_select (hop : i.opcode ≠ .call) (h : c.select s n i = .ok (s', code)) :
    ∀ j ∈ code, j.Steady := by
  have hscratch : Reg.rsp ∉ Reg.scratch := by decide
  cases hi : i.opcode with
  | call => exact absurd hi hop
  | br =>
    rw [select, hi] at h
    obtain ⟨-, ⟨l, k, -, -, rfl⟩ | ⟨cond, t, e, loc, -, -, -, rfl | ⟨w, -, rfl⟩⟩⟩ :=
      selectBranch_ok h
    · split <;> simp [Instr.steady_jmp]
    · obtain ⟨test, htest, hq⟩ := Sequence.exists_quiet_jumpIfZero loc (c.blockLabel e)
      rw [htest, List.forall_mem_append, List.forall_mem_singleton]
      exact ⟨hq.steady hscratch, Instr.steady_je _⟩
    · split <;> simp [Instr.steady_jmp]
  | ret =>
    rw [select, hi] at h
    obtain ⟨-, value, rfl, hvalue⟩ := selectRet_cases h
    have hq : Quiet Reg.scratch value := by
      rcases hvalue with rfl | ⟨_, loc, -, rfl⟩ <;> simp [Quiet, Instr.Quiet, Reg.scratch]
    rw [List.forall_mem_append, List.forall_mem_singleton]
    exact ⟨hq.steady hscratch, Instr.steady_jmp _⟩
  | store =>
    rw [select, hi] at h
    obtain ⟨a, b, rest, -, ⟨_, _, -, -, rfl⟩ | ⟨-, -, src, pre, dst, -, hm, rfl⟩⟩ :=
      selectStore_ok h
    · simp
    · rw [List.forall_mem_append]
      refine ⟨(quiet_memory (by decide) hm).steady hscratch, Sequence.steady_move ?_⟩
      rcases memory_ok hm with ⟨_, _, -, -, -, rfl⟩ | ⟨_, -, rfl, -⟩ <;> rfl
  | alloca =>
    rw [select, hi] at h
    cases h
    simp
  | _ =>
    obtain ⟨x, dst, -, hd, hq⟩ := computing_of_select (by simp [hi]) h
    refine hq.steady fun hmem => ?_
    rcases List.mem_cons.mp hmem with rfl | hmem
    · exact absurd (mem_palette_of_colored hd) (by decide)
    · exact hscratch hmem

theorem mem_palette_of_value {a : Operand} {q : Reg} (h : c.value s a = .ok (.reg q)) :
    q ∈ Reg.palette := by
  cases a with
  | reg x => exact mem_palette_of_register h
  | _ => cases h

/-- The passes leave the code of a call as it is. -/
theorem shape_selectCall (hsel : c.selectCall s n i = .ok (s', code)) :
    ∀ line ∈ code.map Line.code, line.shape = .other := by
  obtain ⟨args, callee, tail, hargs, -, rfl, htail⟩ := selectCall_ok hsel
  have hmov : ∀ x ∈ args.zip Reg.args, (Line.code (.mov x.1 (.reg x.2))).shape = .other := by
    intro x hx
    obtain ⟨hx, hq⟩ := List.of_mem_zip hx
    obtain ⟨a, -, ha⟩ := exists_of_mem_mapM hargs hx
    have hne : x.1 ≠ .reg x.2 := fun he =>
      Reg.not_mem_palette_of_args hq (mem_palette_of_value (he ▸ ha))
    simp [Line.shape, hne]
  have hrel : ∀ i ∈ Sequence.release args, (Line.code i).shape = .other := by
    unfold Sequence.release
    split <;> simp [Line.shape]
  have hresult : ∀ i ∈ tail, (Line.code i).shape = .other := by
    rcases htail with ⟨-, rfl⟩ | ⟨dst, hd, rfl⟩
    · simp
    · obtain ⟨x, -, hx⟩ := dest_ok_iff.mp hd
      have hne : Reg.rax ≠ dst := fun he => absurd (he ▸ mem_palette_of_colored hx) (by decide)
      simp [Line.shape, hne]
  rw [Sequence.call_eq, List.forall_mem_map]
  simp only [List.forall_mem_append, List.forall_mem_cons, List.forall_mem_map]
  exact ⟨⟨fun _ _ => rfl, hmov, fun _ _ => rfl, rfl, hrel, fun _ _ => rfl⟩, hresult⟩

/-- A call takes its arguments off the stack right behind it. -/
theorem tight_selectCall (hsel : c.selectCall s n i = .ok (s', code)) :
    Tight false (code.map .code) := by
  obtain ⟨args, callee, tail, -, -, rfl, htail⟩ := selectCall_ok hsel
  have htail : ∀ i ∈ tail, (Line.code i).releases = none := by
    rcases htail with ⟨-, rfl⟩ | ⟨dst, -, rfl⟩ <;> simp [Line.releases]
  have hrest : Tight false (((c.preserved s n i).reverse.map fun r => Line.code (.pop (.reg r))) ++
      tail.map .code) := by
    refine .append (.of_releases ?_) (.of_releases ?_) <;> rw [List.forall_mem_map]
    · exact fun _ _ => rfl
    · exact htail
  have hrel : Tight true ((Sequence.release args).map .code) := by
    unfold Sequence.release
    split
    · trivial
    · exact ⟨.inr rfl, trivial⟩
  rw [Sequence.call_eq]
  simp only [List.map_append, List.map_cons, List.map_map, List.append_assoc, List.cons_append]
  refine .append (.of_releases ?_) (.append (.of_releases ?_) (.append (.of_releases ?_)
    ⟨.inl rfl, hrel.append hrest⟩))
  all_goals
    rw [List.forall_mem_map]
    exact fun _ _ => rfl

theorem tight_of_select (h : c.select s n i = .ok (s', code)) : Tight false (code.map .code) := by
  by_cases hop : i.opcode = .call
  · rw [select, hop] at h
    exact tight_selectCall h
  · refine .of_releases ?_
    rw [List.forall_mem_map]
    exact fun j hj => (steady_of_select hop h j hj).1

theorem moves_of_select (h : c.select s n i = .ok (s', code)) {src : Loc}
    (hsrc : .mov src src ∈ code) : ∃ r, src = .reg r := by
  by_cases hop : i.opcode = .call
  · rw [select, hop] at h
    have := shape_selectCall h _ (List.mem_map_of_mem hsrc)
    simp [Line.shape] at this
  · exact (steady_of_select hop h _ hsrc).2 src rfl

theorem tight_of_silent (h : ∀ line ∈ lines, line.isSilent) : Tight false lines := by
  refine .of_releases fun line hline => ?_
  cases line with
  | code i => cases h _ hline
  | _ => rfl

theorem tight_emitPoints {ps : List (Point × Nat)} (h : c.emitPoints s ps = .ok lines) :
    Tight false lines := by
  induction ps generalizing s lines with
  | nil => cases h; trivial
  | cons p ps ih =>
    obtain ⟨p, idx⟩ := p
    obtain ⟨s', code, tail, hsel, htail, rfl⟩ := emitPoints_cons.mp h
    exact (tight_of_silent (c.isSilent_heading _ _)).append
      ((tight_of_select hsel).append (ih htail))

theorem moves_emitPoints {ps : List (Point × Nat)} (h : c.emitPoints s ps = .ok lines) {src : Loc}
    (hsrc : .code (.mov src src) ∈ lines) : ∃ r, src = .reg r := by
  induction ps generalizing s lines with
  | nil => cases h; cases hsrc
  | cons p ps ih =>
    obtain ⟨p, idx⟩ := p
    obtain ⟨s', code, tail, hsel, htail, rfl⟩ := emitPoints_cons.mp h
    simp only [List.mem_append] at hsrc
    rcases hsrc with hsrc | hsrc | hsrc
    · cases c.isSilent_heading _ _ _ hsrc
    · obtain ⟨j, hj, he⟩ := List.mem_map.mp hsrc
      cases he
      exact moves_of_select hsel hj
    · exact ih htail hsrc

theorem tight_epilogue (c : Context) : Tight false c.epilogue := by
  refine .of_releases ?_
  rw [epilogue, List.forall_mem_cons, List.forall_mem_map, exitCode, List.forall_mem_append,
    List.forall_mem_map]
  exact ⟨rfl, fun _ _ => rfl, by simp [Line.releases]⟩

theorem moves_emit (h : c.emit = .ok lines) {src : Loc} (hsrc : .code (.mov src src) ∈ lines) :
    ∃ r, src = .reg r := by
  obtain ⟨body, hb, rfl⟩ := emit_ok h
  simp only [List.mem_append] at hsrc
  rcases hsrc with hsrc | hsrc | hsrc
  · have := c.shape_prologue _ hsrc
    simp [Line.shape] at this
  · exact moves_emitPoints hb hsrc
  · have hsrc : src = .reg .rbp ∧ src = .reg .rsp := by simpa [epilogue, exitCode] using hsrc
    exact ⟨_, hsrc.1⟩

theorem orderly_emit (hc : c.Faithful) (h : c.emit = .ok lines) : Orderly lines := by
  refine ⟨guarded_emit hc h, ?_, fun src hsrc => moves_emit h hsrc⟩
  obtain ⟨body, hb, rfl⟩ := emit_ok h
  refine .append (.of_releases ?_) ((tight_emitPoints hb).append c.tight_epilogue)
  rw [prologue, List.forall_mem_append, List.forall_mem_map, entryCode, List.forall_mem_append,
    List.forall_mem_append, List.forall_mem_map, paramCopies_eq, List.forall_mem_map]
  exact ⟨by simp [Line.releases], ⟨by simp [Line.releases], fun _ _ => rfl⟩, fun _ _ => rfl⟩

end Context

end IrAsm.X86
