import IrAsm.Module.Verify
import IrAsm.Proofs.Success
import Mathlib.Data.List.Nodup

/-!
# Verification accepts exactly the well-formed modules

`Function.WellFormed` states the rules for functions in one proposition, and `verify` accepts
exactly the functions that keep them (`verify_ok_iff`). The checks meet names one after another,
labels and results and globals, and refuse one that was met before. `NameSet.Adds` says what such a
loop does when it refuses none.
-/

namespace IrAsm

namespace Instr

/-- The names that instructions define, in order. -/
def results (is : List Instr) : List String := is.filterMap Instr.result

@[simp] theorem results_nil : results [] = [] := rfl

theorem results_cons (i : Instr) (is : List Instr) :
    results (i :: is) = i.result.toList ++ results is := by
  cases h : i.result with
  | none => simp [results, h]
  | some x => simp [results, h]

theorem mem_targets {i : Instr} {l : String} : l ∈ i.targets ↔ .label l ∈ i.operands := by
  rw [targets, List.mem_filterMap]
  constructor
  · rintro ⟨a, ha, hl⟩
    cases a with
    | label name => exact Option.some.inj hl ▸ ha
    | _ => cases hl
  · exact fun h => ⟨_, h, rfl⟩

/-- The labels that an instruction mentions are given, and a branch has one operand or three. -/
structure Shaped (labels : List String) (i : Instr) : Prop where
  targets : ∀ l ∈ i.targets, l ∈ labels
  operands : i.opcode = .br → i.operands.length = 1 ∨ i.operands.length = 3

theorem shaped_congr {i : Instr} {labels labels' : List String}
    (h : ∀ l, l ∈ labels ↔ l ∈ labels') : i.Shaped labels ↔ i.Shaped labels' :=
  ⟨fun hi => ⟨fun l hl => (h l).mp (hi.targets l hl), hi.operands⟩,
    fun hi => ⟨fun l hl => (h l).mpr (hi.targets l hl), hi.operands⟩⟩

end Instr

namespace Function

structure WellFormed (f : Function) : Prop where
  blocks : f.blocks ≠ []
  labeled : ∀ b ∈ f.blocks.tail, b.label.isSome
  labels : f.labels.Nodup
  ended : ∀ b ∈ f.blocks, ∃ last, b.instrs.getLast? = some last ∧ last.opcode.isTerminator
  results : (Instr.results f.instrs).Nodup
  params : ∀ x ∈ Instr.results f.instrs, x ∉ f.params.map Param.name
  shaped : ∀ i ∈ f.instrs, i.Shaped f.labels

end Function

/-! ## Names met one after another -/

namespace NameSet

variable {s s' : NameSet} {x : String} {xs : List String}

/-- Adding the names `xs` to `s` one after another meets none a second time and gives `s'`. -/
structure Adds (s : NameSet) (xs : List String) (s' : NameSet) : Prop where
  nodup : xs.Nodup
  fresh : ∀ x ∈ xs, x ∉ s
  mem_iff : ∀ x, x ∈ s' ↔ x ∈ xs ∨ x ∈ s

theorem adds_nil_iff : s.Adds [] s' ↔ s = s' := by
  constructor
  · intro h
    exact Std.ExtTreeSet.ext_mem fun x => by simp [h.mem_iff x]
  · rintro rfl
    exact ⟨List.nodup_nil, by simp, by simp⟩

theorem adds_cons_iff : s.Adds (x :: xs) s' ↔ x ∉ s ∧ Adds (s.insert x) xs s' := by
  constructor
  · rintro ⟨hnodup, hfresh, hmem⟩
    rw [List.nodup_cons] at hnodup
    rw [List.forall_mem_cons] at hfresh
    refine ⟨hfresh.1, hnodup.2, fun y hy hys => ?_, fun y => ?_⟩
    · rcases mem_insert_iff.mp hys with rfl | hys
      · exact hnodup.1 hy
      · exact hfresh.2 y hy hys
    · rw [hmem, mem_insert_iff, List.mem_cons, or_assoc, or_left_comm]
  · rintro ⟨hx, hnodup, hfresh, hmem⟩
    simp only [mem_insert_iff, not_or] at hfresh
    refine ⟨List.nodup_cons.mpr ⟨fun hxs => (hfresh x hxs).1 rfl, hnodup⟩,
      List.forall_mem_cons.mpr ⟨hx, fun y hy => (hfresh y hy).2⟩, fun y => ?_⟩
    rw [hmem, mem_insert_iff, List.mem_cons, or_assoc, or_left_comm]

theorem exists_adds (hnodup : xs.Nodup) (hfresh : ∀ x ∈ xs, x ∉ s) : ∃ s', s.Adds xs s' :=
  ⟨ofList xs ∪ s, hnodup, hfresh, fun x => by rw [Std.ExtTreeSet.mem_union_iff, mem_ofList]⟩

end NameSet

/-! ## Labels -/

theorem Function.checkLaterLabels_ok_iff {seen seen' : NameSet} {bs : List Block} :
    checkLaterLabels seen bs = .ok seen' ↔
      (∀ b ∈ bs, b.label.isSome) ∧ seen.Adds (bs.filterMap Block.label) seen' := by
  induction bs generalizing seen with
  | nil => simp [checkLaterLabels, NameSet.adds_nil_iff]
  | cons b bs ih =>
    cases hl : b.label with
    | none => simp [checkLaterLabels, Block.checkLabel, hl]
    | some l =>
      rw [List.filterMap_cons_some hl, NameSet.adds_cons_iff]
      by_cases hs : l ∈ seen
      · simp [checkLaterLabels, Block.checkLabel, hl, hs]
      · simp [checkLaterLabels, Block.checkLabel, hl, hs, ih]

theorem Function.checkLabels_ok_iff {f : Function} {seen : NameSet} :
    checkLabels f.blocks = .ok seen ↔
      (∀ b ∈ f.blocks.tail, b.label.isSome) ∧ NameSet.Adds ∅ f.labels seen := by
  unfold Function.labels
  cases f.blocks with
  | nil => simp [checkLabels, NameSet.adds_nil_iff]
  | cons b bs =>
    cases hl : b.label with
    | none => simp [checkLabels, Block.checkLabel, hl, checkLaterLabels_ok_iff]
    | some l =>
      rw [List.filterMap_cons_some hl, NameSet.adds_cons_iff]
      simp [checkLabels, Block.checkLabel, hl, checkLaterLabels_ok_iff]

/-! ## Instructions -/

theorem Instr.checkTargets_ok_iff {i : Instr} {labels : NameSet} :
    i.checkTargets labels = .ok () ↔ ∀ l ∈ i.targets, l ∈ labels := by
  unfold checkTargets
  split
  · next l hl =>
    have hmem := List.mem_of_find?_eq_some hl
    have hnot := List.find?_some hl
    rw [decide_eq_true_eq] at hnot
    exact iff_of_false (by simp) fun hall => hnot (hall l hmem)
  · next hnone => simpa using hnone

theorem Instr.checkShape_ok_iff {i : Instr} :
    i.checkShape = .ok () ↔ (i.opcode = .br → i.operands.length = 1 ∨ i.operands.length = 3) := by
  unfold checkShape
  split
  · next h => exact iff_of_false (by simp) fun hshape => by have := hshape h.1; tauto
  · next h => exact iff_of_true rfl fun hbr => by tauto

theorem Instr.check_ok_iff {i : Instr} {labels defined defined' : NameSet} :
    i.check labels defined = .ok defined' ↔
      defined.Adds i.result.toList defined' ∧ i.Shaped labels.toList := by
  have hresult : i.checkResult defined = .ok defined' ↔ defined.Adds i.result.toList defined' := by
    cases hr : i.result with
    | none => simp [checkResult, hr, NameSet.adds_nil_iff]
    | some x =>
      rw [Option.toList_some, NameSet.adds_cons_iff, NameSet.adds_nil_iff]
      by_cases hx : x ∈ defined
      · simp [checkResult, hr, hx]
      · simp [checkResult, hr, hx]
  rw [← hresult, check, bind_ok_iff]
  simp only [bind_ok_iff, pure_ok_iff]
  constructor
  · rintro ⟨_, hr, _, ht, _, hs, rfl⟩
    exact ⟨hr, fun l hl => by simpa using checkTargets_ok_iff.mp ht l hl, checkShape_ok_iff.mp hs⟩
  · rintro ⟨hr, ht, hs⟩
    exact ⟨_, hr, (), checkTargets_ok_iff.mpr fun l hl => by simpa using ht l hl, (),
      checkShape_ok_iff.mpr hs, rfl⟩

theorem Instr.foldlM_check_ok_iff {is : List Instr} {labels defined defined' : NameSet} :
    is.foldlM (Instr.check labels) defined = .ok defined' ↔
      defined.Adds (results is) defined' ∧ ∀ i ∈ is, i.Shaped labels.toList := by
  induction is generalizing defined with
  | nil => simp [NameSet.adds_nil_iff]
  | cons i is ih =>
    simp only [List.foldlM_cons, bind_ok_iff, check_ok_iff, ih, results_cons, List.forall_mem_cons]
    cases i.result with
    | none => simp [NameSet.adds_nil_iff, and_left_comm]
    | some x =>
      simp only [Option.toList_some, List.singleton_append, NameSet.adds_cons_iff,
        NameSet.adds_nil_iff]
      grind

/-! ## Functions -/

theorem Block.checkEnd_ok_iff {b : Block} :
    b.checkEnd = .ok () ↔ ∃ last, b.instrs.getLast? = some last ∧ last.opcode.isTerminator := by
  unfold checkEnd
  cases b.instrs.getLast? with
  | none => simp
  | some last => simp

/-- Checking blocks one after another checks the end of each and all instructions in order. -/
theorem Block.foldlM_check_ok_iff {bs : List Block} {labels defined defined' : NameSet} :
    bs.foldlM (Block.check labels) defined = .ok defined' ↔
      (∀ b ∈ bs, b.checkEnd = .ok ()) ∧
        (bs.flatMap Block.instrs).foldlM (Instr.check labels) defined = .ok defined' := by
  induction bs generalizing defined with
  | nil => simp
  | cons b bs ih =>
    simp only [List.foldlM_cons, Block.check, bind_ok_iff, ih, List.flatMap_cons,
      List.foldlM_append, List.forall_mem_cons]
    constructor
    · rintro ⟨d, ⟨_, hend, hd⟩, hbs, h⟩
      exact ⟨⟨hend, hbs⟩, d, hd, h⟩
    · rintro ⟨⟨hend, hbs⟩, d, hd, h⟩
      exact ⟨d, ⟨(), hend, hd⟩, hbs, h⟩

theorem Function.check_ok_iff {f : Function} : f.check = .ok () ↔ f.blocks ≠ [] ∧
    ∃ labels, checkLabels f.blocks = .ok labels ∧ ∃ d,
      f.blocks.foldlM (Block.check labels) (NameSet.ofList (f.params.map Param.name)) = .ok d := by
  rw [check, bind_ok_iff]
  by_cases hb : f.blocks = []
  · simp [hb]
  · simp [hb, Functor.map]

theorem Function.verify_ok_iff {f : Function} : f.verify = .ok () ↔ f.WellFormed := by
  rw [verify, mapError_ok_iff, check_ok_iff]
  simp only [checkLabels_ok_iff, Block.foldlM_check_ok_iff, Block.checkEnd_ok_iff,
    Instr.foldlM_check_ok_iff]
  constructor
  · rintro ⟨hblocks, labels, ⟨hlabeled, hlabels⟩, d, hended, hresults, hshaped⟩
    have hmem : ∀ l, l ∈ labels.toList ↔ l ∈ f.labels := fun l => by simp [hlabels.mem_iff]
    exact ⟨hblocks, hlabeled, hlabels.nodup, hended, hresults.nodup,
      fun x hx => by simpa using hresults.fresh x hx,
      fun i hi => (Instr.shaped_congr hmem).mp (hshaped i hi)⟩
  · intro h
    obtain ⟨labels, hlabels⟩ := NameSet.exists_adds (s := ∅) h.labels (by simp)
    obtain ⟨d, hd⟩ := NameSet.exists_adds (s := NameSet.ofList (f.params.map Param.name)) h.results
      fun x hx => by simpa using h.params x hx
    have hmem : ∀ l, l ∈ labels.toList ↔ l ∈ f.labels := fun l => by simp [hlabels.mem_iff]
    exact ⟨h.blocks, labels, ⟨h.labeled, hlabels⟩, d, h.ended, hd,
      fun i hi => (Instr.shaped_congr hmem).mpr (h.shaped i hi)⟩

theorem Function.wellFormed_of_verify {f : Function} (h : f.verify = .ok ()) : f.WellFormed :=
  verify_ok_iff.mp h

/-! ## Modules -/

namespace Module

theorem checkGlobals_ok_iff {seen : NameSet} {globals : List Global} :
    checkGlobals seen globals = .ok () ↔ ∃ seen', seen.Adds (globals.map Global.name) seen' := by
  induction globals generalizing seen with
  | nil => simp [checkGlobals, NameSet.adds_nil_iff]
  | cons g rest ih =>
    rw [checkGlobals, List.map_cons]
    simp only [NameSet.adds_cons_iff, exists_and_left, ← ih]
    by_cases hg : g.name ∈ seen
    · simp [hg]
    · simp [hg]

theorem verify_ok_iff {m : Module} : m.verify = .ok () ↔
    (m.globals.map Global.name).Nodup ∧ ∀ f ∈ m.functions, f.verify = .ok () := by
  have hglobals : checkGlobals ∅ m.globals = .ok () ↔ (m.globals.map Global.name).Nodup :=
    checkGlobals_ok_iff.trans
      ⟨fun ⟨_, h⟩ => h.nodup, fun h => NameSet.exists_adds h (by simp)⟩
  simp only [verify, bind_ok_iff, mapError_ok_iff, hglobals, exists_const, forM_ok_iff]

/-- Verification accepts exactly the modules with distinct globals in whose functions there is a
block; only the first block may be without a label; labels are distinct; each block ends with `br`
or `ret`; results are distinct and no parameters; each label among the operands is that of a block;
and a branch has one operand or three. -/
theorem accepted_iff (m : Module) : m.verify = .ok () ↔
    (m.globals.map Global.name).Nodup ∧ ∀ f ∈ m.functions,
      f.blocks ≠ [] ∧ (∀ b ∈ f.blocks.tail, b.label ≠ none) ∧ f.labels.Nodup ∧
      (∀ b ∈ f.blocks, ∃ last, b.instrs.getLast? = some last ∧
        (last.opcode = .br ∨ last.opcode = .ret)) ∧
      (f.instrs.filterMap Instr.result).Nodup ∧
      (∀ x ∈ f.instrs.filterMap Instr.result, x ∉ f.params.map Param.name) ∧
      (∀ i ∈ f.instrs, ∀ l, .label l ∈ i.operands → l ∈ f.labels) ∧
      ∀ i ∈ f.instrs, i.opcode = .br → i.operands.length = 1 ∨ i.operands.length = 3 := by
  rw [verify_ok_iff]
  refine and_congr_right fun _ => forall₂_congr fun f _ => Function.verify_ok_iff.trans ?_
  have hends (last : Instr) :
      last.opcode.isTerminator ↔ last.opcode = .br ∨ last.opcode = .ret := by
    cases last.opcode <;> simp [Opcode.isTerminator]
  have htargets (i : Instr) : (∀ l ∈ i.targets, l ∈ f.labels) ↔
      ∀ l, .label l ∈ i.operands → l ∈ f.labels := by
    simp only [Instr.mem_targets]
  constructor
  · intro h
    exact ⟨h.blocks, fun b hb => Option.isSome_iff_ne_none.mp (h.labeled b hb), h.labels,
      fun b hb => by simpa only [hends] using h.ended b hb, h.results, h.params,
      fun i hi => (htargets i).mp (h.shaped i hi).targets, fun i hi => (h.shaped i hi).operands⟩
  · rintro ⟨hblocks, hlabeled, hlabels, hended, hresults, hparams, hmentioned, hbranches⟩
    exact ⟨hblocks, fun b hb => Option.isSome_iff_ne_none.mpr (hlabeled b hb), hlabels,
      fun b hb => by simpa only [hends] using hended b hb, hresults, hparams,
      fun i hi => ⟨(htargets i).mpr (hmentioned i hi), hbranches i hi⟩⟩

end Module

end IrAsm
