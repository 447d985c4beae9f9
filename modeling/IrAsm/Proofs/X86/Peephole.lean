import IrAsm.Proofs.X86.Machine
import IrAsm.X86.Peephole
import Mathlib.Data.List.Chain

/-!
# The peephole passes keep the meaning of code

Both passes delete lines that do nothing. A move from a register to itself changes no state. A jump
right behind an unconditional jump is never reached. Behind a conditional jump it could be, so the
second pass needs code in which a label follows each conditional jump (`Guarded`); selection makes
such code.

A run before a pass gives a run after it, line by line: the machine stands before the same lines,
less the deleted ones.
-/

namespace IrAsm.X86

/-- What follows a conditional jump is a label. -/
def Guarded (lines : List Line) : Prop :=
  lines.IsChain fun a b => ∀ t, a = .code (.je t) → ∃ l, b = .label l

namespace Guarded

theorem target {prog lines : List Line} {t : Label} (h : Guarded prog)
    (ht : target? prog t = some lines) : Guarded lines := by
  induction prog with
  | nil => cases ht
  | cons line rest ih =>
    rw [target?] at ht
    split at ht
    · cases ht; exact h
    · exact ih h.tail ht

theorem step {prog : List Line} {m m' : Machine} (hprog : Guarded prog)
    (hm : Guarded m.lines) (h : X86.step prog m = some m') : Guarded m'.lines := by
  rcases lines_of_step h with ht | ⟨t, ht⟩
  · exact ht ▸ hm.tail
  · exact hprog.target ht

/-- Lines may be deleted behind a line, but not a label right behind it. -/
theorem cons {line : Line} {rest rest' : List Line} (h : Guarded (line :: rest))
    (hrest : Guarded rest') (hnil : rest = [] → rest' = [])
    (hlabel : ∀ l, rest.head? = some (.label l) → rest'.head? = some (.label l)) :
    Guarded (line :: rest') := by
  refine List.isChain_cons.mpr ⟨fun b hb t ht => ?_, hrest⟩
  cases rest with
  | nil => simp [hnil rfl] at hb
  | cons a rest =>
    obtain ⟨l, rfl⟩ := (List.isChain_cons_cons.mp h).1 t ht
    rw [hlabel l rfl] at hb
    exact ⟨l, (Option.some.inj hb).symm⟩

end Guarded

namespace Peephole

section
variable {α : Type} {shape : α → Shape} {pre : List α}

/-- What every round keeps, `runAll` keeps. -/
theorem runAll_induction {P : List α → Prop}
    (h : ∀ lines, P lines → P (round shape lines)) {lines : List α} (hp : P lines) :
    P (runAll shape lines) := by
  fun_induction runAll shape lines with
  | case1 lines _ => exact h lines hp
  | case2 lines _ ih => exact ih (h lines hp)

theorem dropSelfMoves_append (hpre : ∀ line ∈ pre, shape line = .other) (lines : List α) :
    dropSelfMoves shape (pre ++ lines) = pre ++ dropSelfMoves shape lines := by
  rw [dropSelfMoves, List.filter_append, List.filter_eq_self.mpr (by simp +contextual [hpre])]
  rfl

theorem collapseJumps_append (hpre : ∀ line ∈ pre, shape line = .other) (lines : List α) :
    collapseJumps shape false (pre ++ lines) = pre ++ collapseJumps shape false lines := by
  induction pre with
  | nil => rfl
  | cons line pre ih =>
    rw [List.forall_mem_cons] at hpre
    simp [collapseJumps, hpre.1, ih hpre.2]

/-- Lines at the start of which the passes delete none stay there. -/
theorem exists_runAll_append (hpre : ∀ line ∈ pre, shape line = .other) (lines : List α) :
    ∃ rest, runAll shape (pre ++ lines) = pre ++ rest := by
  refine runAll_induction (P := fun ls => ∃ rest, ls = pre ++ rest) ?_ ⟨lines, rfl⟩
  rintro _ ⟨rest, rfl⟩
  rw [round, dropSelfMoves_append hpre, collapseJumps_append hpre]
  exact ⟨_, rfl⟩

theorem exists_collapseJumps_append (shape : α → Shape) (afterJump : Bool) (before lines : List α) :
    ∃ before' j, collapseJumps shape afterJump (before ++ lines) =
      before' ++ collapseJumps shape j lines := by
  induction before generalizing afterJump with
  | nil => exact ⟨[], afterJump, rfl⟩
  | cons line before ih =>
    cases hs : shape line with
    | comment =>
      obtain ⟨before', j, h⟩ := ih afterJump
      exact ⟨line :: before', j, by simp [collapseJumps, hs, h]⟩
    | jump =>
      obtain ⟨before', j, h⟩ := ih true
      cases afterJump with
      | true => exact ⟨before', j, by simp [collapseJumps, hs, h]⟩
      | false => exact ⟨line :: before', j, by simp [collapseJumps, hs, h]⟩
    | selfMove | other =>
      obtain ⟨before', j, h⟩ := ih false
      exact ⟨line :: before', j, by simp [collapseJumps, hs, h]⟩

/-- Lines in a row of which the passes delete none stay in a row. -/
theorem exists_runAll_infix (hpre : ∀ line ∈ pre, shape line = .other) (before later : List α) :
    ∃ before' later', runAll shape (before ++ (pre ++ later)) = before' ++ (pre ++ later') := by
  refine runAll_induction (P := fun ls => ∃ before later, ls = before ++ (pre ++ later)) ?_
    ⟨before, later, rfl⟩
  rintro _ ⟨before, later, rfl⟩
  obtain ⟨before', j, h⟩ := exists_collapseJumps_append shape false
    (dropSelfMoves shape before) (dropSelfMoves shape (pre ++ later))
  have hround : round shape (before ++ (pre ++ later)) =
      before' ++ collapseJumps shape j (pre ++ dropSelfMoves shape later) := by
    rw [← dropSelfMoves_append hpre, ← h, round, dropSelfMoves, dropSelfMoves, dropSelfMoves,
      List.filter_append]
  rw [hround]
  cases pre with
  | nil => exact ⟨before', _, rfl⟩
  | cons line rest =>
    rw [List.forall_mem_cons] at hpre
    refine ⟨before', collapseJumps shape false (dropSelfMoves shape later), ?_⟩
    rw [List.cons_append, List.cons_append, ← collapseJumps_append hpre.2]
    cases j <;> simp [collapseJumps, hpre.1]

end

/-! ## Runs -/

/-- The machine, with the lines that a pass leaves. -/
def after (pass : List Line → List Line) (m : Machine) : Machine := ⟨m.cpu, pass m.lines⟩

section
variable {pass : List Line → List Line} {prog : List Line}

/-- A line that a pass keeps leads where it did, in the lines that the pass leaves. -/
theorem step_after (htarget : ∀ t, target? (pass prog) t = (target? prog t).map pass) (cpu : Cpu)
    (line : Line) (rest : List Line) : step (pass prog) ⟨cpu, line :: pass rest⟩ =
      (step prog ⟨cpu, line :: rest⟩).map (after pass) := by
  cases line with
  | code i =>
    cases i with
    | jmp t => simp [step, htarget, Function.comp_def, after]
    | je t =>
      simp only [step, htarget]
      cases cpu.flags with
      | none => rfl
      | some fl => cases hz : fl.zero <;> simp [hz, Function.comp_def, after]
    | _ => simp [step, Function.comp_def, after]
  | _ => rfl

/-- Runs follow from steps, with an invariant of the machine. -/
theorem runs_after {P : Machine → Prop} (hstep : ∀ {m m'}, P m → step prog m = some m' →
      Runs (pass prog) (after pass m) (after pass m') ∧ P m')
    {m m' : Machine} (hm : P m) (h : Runs prog m m') :
    Runs (pass prog) (after pass m) (after pass m') := by
  induction h using Relation.ReflTransGen.head_induction_on with
  | refl => exact .refl
  | head hs _ ih =>
    obtain ⟨hr, hi⟩ := hstep hm hs
    exact hr.trans (ih hi)

end

theorem shape_of_defines {line : Line} {t : String} (h : line.defines t) : line.shape = .other := by
  cases line with
  | label l => rfl
  | _ => cases h

theorem target?_dropSelfMoves (prog : List Line) (t : Label) :
    target? (dropSelfMoves Line.shape prog) t =
      (target? prog t).map (dropSelfMoves Line.shape) := by
  induction prog with
  | nil => rfl
  | cons line rest ih =>
    by_cases hd : line.defines t.text
    · simp [dropSelfMoves, target?, hd, shape_of_defines hd]
    · by_cases hs : line.shape = .selfMove
      · simpa [dropSelfMoves, target?, hd, hs] using ih
      · simpa [dropSelfMoves, target?, hd, hs] using ih

/-- Whether or not a jump comes before does not matter to a label. -/
theorem target?_collapseJumps (afterJump : Bool) (prog : List Line) (t : Label) :
    target? (collapseJumps Line.shape afterJump prog) t =
      (target? prog t).map (collapseJumps Line.shape false) := by
  induction prog generalizing afterJump with
  | nil => rfl
  | cons line rest ih =>
    by_cases hd : line.defines t.text
    · cases afterJump <;> simp [collapseJumps, target?, hd, shape_of_defines hd]
    · unfold collapseJumps
      split <;> simp [target?, hd, ih]

theorem eq_mov_of_shape {line : Line} (h : line.shape = .selfMove) :
    ∃ src, line = .code (.mov src src) := by
  cases line with
  | code i =>
    cases i with
    | mov src dst =>
      by_cases he : src = dst
      · exact ⟨src, by rw [he]⟩
      · simp [Line.shape, he] at h
    | _ => cases h
  | _ => cases h

theorem eq_jump_of_shape {line : Line} (h : line.shape = .jump) :
    (∃ t, line = .code (.jmp t)) ∨ ∃ t, line = .code (.je t) := by
  cases line with
  | code i =>
    cases i with
    | jmp t => exact .inl ⟨t, rfl⟩
    | je t => exact .inr ⟨t, rfl⟩
    | mov src dst => rw [Line.shape] at h; split at h <;> cases h
    | _ => cases h
  | _ => cases h

/-- A move from a place to itself changes nothing. -/
theorem exec_selfMove {src : Loc} {c c' : Cpu} (h : (Instr.mov src src).exec c = some c') :
    c' = c := by
  cases src with
  | reg r => simpa [Instr.exec, Loc.isMemory, Cpu.write] using h.symm
  | _ => cases h

theorem runs_dropSelfMoves {prog : List Line} {m m' : Machine} (h : Runs prog m m') :
    Runs (dropSelfMoves Line.shape prog) (after (dropSelfMoves Line.shape) m)
      (after (dropSelfMoves Line.shape) m') := by
  refine runs_after (P := fun _ => True) ?_ trivial h
  rintro ⟨cpu, lines⟩ m' - hm
  refine ⟨?_, trivial⟩
  cases lines with
  | nil => cases hm
  | cons line rest =>
    by_cases hs : line.shape = .selfMove
    · obtain ⟨src, rfl⟩ := eq_mov_of_shape hs
      obtain ⟨c', hc, rfl⟩ := Option.map_eq_some_iff.mp hm
      rw [exec_selfMove hc]
      simp only [after, dropSelfMoves, hs, ne_eq, not_true_eq_false, decide_false,
        Bool.false_eq_true, not_false_eq_true, List.filter_cons_of_neg]
      exact .refl
    · have hl : dropSelfMoves Line.shape (line :: rest) =
          line :: dropSelfMoves Line.shape rest := by
        simp [dropSelfMoves, hs]
      refine .single ?_
      simp only [after, hl]
      rw [step_after (target?_dropSelfMoves prog), hm]
      rfl

/-- In guarded code the pass deletes nothing that can be reached from the line before: behind a
conditional jump there is a label. -/
theorem collapseJumps_cons {line : Line} {rest : List Line} (h : Guarded (line :: rest)) :
    ∃ rest', collapseJumps Line.shape false (line :: rest) = line :: rest' ∧
      (rest' = collapseJumps Line.shape false rest ∨ ∃ t, line = .code (.jmp t)) := by
  cases hs : line.shape with
  | jump =>
    refine ⟨collapseJumps Line.shape true rest, by simp [collapseJumps, hs], ?_⟩
    rcases eq_jump_of_shape hs with ⟨t, rfl⟩ | ⟨t, rfl⟩
    · exact .inr ⟨t, rfl⟩
    · cases rest with
      | nil => exact .inl rfl
      | cons line rest =>
        obtain ⟨l, rfl⟩ := (List.isChain_cons_cons.mp h).1 t rfl
        exact .inl rfl
  | _ => exact ⟨_, by simp [collapseJumps, hs], .inl rfl⟩

theorem runs_collapseJumps {prog : List Line} {m m' : Machine} (hprog : Guarded prog)
    (hm : Guarded m.lines) (h : Runs prog m m') :
    Runs (collapseJumps Line.shape false prog) (after (collapseJumps Line.shape false) m)
      (after (collapseJumps Line.shape false) m') := by
  refine runs_after (P := fun m => Guarded m.lines) ?_ hm h
  rintro ⟨cpu, lines⟩ m' hm hs
  refine ⟨.single ?_, hprog.step hm hs⟩
  cases lines with
  | nil => cases hs
  | cons line rest =>
    obtain ⟨rest', hl, hrest⟩ := collapseJumps_cons hm
    have hstep := step_after (target?_collapseJumps false prog) cpu line rest
    rw [hs] at hstep
    simp only [after, hl]
    rcases hrest with rfl | ⟨t, rfl⟩
    · exact hstep
    · exact hstep

theorem guarded_dropSelfMoves {lines : List Line} (h : Guarded lines) :
    Guarded (dropSelfMoves Line.shape lines) := by
  induction lines with
  | nil => exact h
  | cons line rest ih =>
    have hrest := ih h.tail
    by_cases hs : line.shape = .selfMove
    · simpa [dropSelfMoves, hs] using hrest
    · have hl : dropSelfMoves Line.shape (line :: rest) =
          line :: dropSelfMoves Line.shape rest := by
        simp [dropSelfMoves, hs]
      rw [hl]
      refine h.cons hrest (fun hnil => by rw [hnil]; rfl) fun l hl => ?_
      obtain ⟨rest', rfl⟩ := List.head?_eq_some_iff.mp hl
      rfl

theorem guarded_collapseJumps {lines : List Line} (h : Guarded lines) (afterJump : Bool) :
    Guarded (collapseJumps Line.shape afterJump lines) := by
  induction lines generalizing afterJump with
  | nil => exact h
  | cons line rest ih =>
    have hrest (b : Bool) : Guarded (line :: collapseJumps Line.shape b rest) := by
      refine h.cons (ih h.tail b) (fun hnil => by rw [hnil]; rfl) fun l hl => ?_
      obtain ⟨rest', rfl⟩ := List.head?_eq_some_iff.mp hl
      rfl
    unfold collapseJumps
    split
    · exact hrest _
    · exact ih h.tail _
    · exact hrest _
    · exact hrest _

/-- The passes keep what guarded code returns. -/
theorem returns_runAll {prog : List Line} {cpu : Cpu} {w : Word} (hg : Guarded prog)
    (h : Returns prog ⟨cpu, prog⟩ w) :
    Returns (runAll Line.shape prog) ⟨cpu, runAll Line.shape prog⟩ w := by
  refine (runAll_induction (P := fun prog => Guarded prog ∧ Returns prog ⟨cpu, prog⟩ w) ?_
    ⟨hg, h⟩).2
  rintro prog ⟨hg, m, hr, hret, hw⟩
  have hd := guarded_dropSelfMoves hg
  refine ⟨guarded_collapseJumps hd false, _,
    runs_collapseJumps hd hd (runs_dropSelfMoves hr), ?_, hw⟩
  obtain ⟨rest, hrest⟩ := List.head?_eq_some_iff.mp hret
  simp only [after, hrest]
  rfl

end Peephole

end IrAsm.X86
