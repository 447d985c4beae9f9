import IrAsm.Proofs.Partition
import IrAsm.Proofs.X86.Operands
import Mathlib.Data.List.Dedup

/-!
# Accesses to the frame

Counted from `%rbp` upward, a frame has the saved frame pointer, the return address and the
arguments that are on the stack; downward, it has the slots of the locals, and the saved registers
below what the prologue reserves. Code names words of it by their displacement from `%rbp`, and all
of them are arguments or slots. A local that is never bound to an argument has its slot to itself.
What the prologue puts into the other parts is in `Restoration`.
-/

namespace IrAsm

variable {f : Function} {fl : Flow} {x : String}

/-- The stack locals of a function, each once. -/
def Function.locals (f : Function) : List String :=
  (f.instrs.filterMap fun i => if i.opcode = .alloca then i.result else none).dedup

theorem Function.mem_locals : x ∈ f.locals ↔ ∃ i ∈ f.instrs, i.Allocates x := by
  simp [locals, Instr.Allocates]

theorem Flow.perm_locals (h : build f = .ok fl) : fl.allocas.Perm f.locals := by
  refine (List.perm_ext_iff_of_nodup (nodup_allocas h) (List.nodup_dedup _)).mpr fun x => ?_
  rw [(collected_of_build h).allocas]
  exact Function.mem_locals.symm

namespace X86

/-- The displacement of an operand from `%rbp`. -/
def Loc.displacement? : Loc → Option Int
  | .frame d => some d
  | .indirect r => if r = .rbp then some 0 else none
  | _ => none

/-- The parts of a frame, from the top down. -/
inductive Region where
  | caller
  | arguments
  | returnAddress
  | framePointer
  | locals
  | savedRegisters
  deriving DecidableEq, Repr

/-- The part to which a byte belongs, by its displacement from `%rbp`. -/
def Region.ofByte (f : Function) (b : Int) : Region :=
  if b < -(8 * (f.locals.length : Int)) then .savedRegisters
  else if b < 0 then .locals
  else if b < 8 then .framePointer
  else if b < 16 then .returnAddress
  else if b < 16 + 8 * ((f.params.length - Reg.args.length : Nat) : Int) then .arguments
  else .caller

namespace Context

variable {c : Context} {d : Int}

/-- The words of a frame, counted by locals and parameters. -/
theorem FrameWord.cases (h : c.FrameWord d) :
    (∃ k : Nat, 1 ≤ k ∧ k ≤ c.flow.allocas.length ∧ d = -(8 * (k : Int))) ∨
      ∃ k : Nat, 4 ≤ k ∧ k < c.function.params.length ∧ d = 16 + 8 * ((k : Int) - 4) := by
  cases h with
  | @slot j hj => exact .inl ⟨j + 1, by omega, by omega, by omega⟩
  | @argument k hle hlt =>
    have hle : 4 ≤ k := hle
    have hargs : Reg.args.length = 4 := rfl
    exact .inr ⟨k, hle, hlt, by rw [Frame.argumentDepth, hargs]; omega⟩

/-- A word of the frame has bytes of one part only. -/
theorem FrameWord.region (hlen : c.flow.allocas.length = c.function.locals.length)
    (h : c.FrameWord d) :
    (∀ b, d ≤ b → b < d + 8 → Region.ofByte c.function b = .locals) ∨
      ∀ b, d ≤ b → b < d + 8 → Region.ofByte c.function b = .arguments := by
  have hargs : Reg.args.length = 4 := rfl
  rcases h.cases with ⟨k, hk, hle, rfl⟩ | ⟨k, hk, hlt, rfl⟩
  · refine .inl fun b hlo hhi => ?_
    rw [Region.ofByte, if_neg (by omega), if_pos (by omega)]
  · refine .inr fun b hlo hhi => ?_
    rw [Region.ofByte, if_neg (by omega), if_neg (by omega), if_neg (by omega), if_neg (by omega),
      if_pos (by omega)]

theorem frameWord_of_displacement? {l : Loc} (hl : l.Placed c.Accesses)
    (hd : l.displacement? = some d) : c.FrameWord d := by
  cases l with
  | frame e =>
    cases hd
    cases hl rfl with
    | frame hword => exact hword
  | indirect r =>
    cases hl rfl with
    | indirect hr =>
      have hne : r ≠ .rbp := by rintro rfl; exact absurd hr (by decide)
      rw [Loc.displacement?, if_neg hne] at hd
      cases hd
  | _ => cases hd

/-- At every point the local `x` is in slot `k`, and no other local is. -/
def OwnSlot (c : Context) (x : String) (k : Nat) : Prop :=
  ∀ n s, c.StateAt n s → s.frame.displacement? x = some (-(8 * (k : Int))) ∧
    ∀ y ≠ x, s.frame.displacement? y ≠ some (-(8 * (k : Int)))

theorem exists_ownSlot (hx : x ∈ c.flow.allocas)
    (hfree : ∀ p ∈ c.flow.points, c.binding? x p.instr = none) :
    ∃ k : Nat, 1 ≤ k ∧ k ≤ c.flow.allocas.length ∧ c.OwnSlot x k := by
  -- the word of `x` is the same at all points, so take it from the first one
  have hword (n : Nat) : c.wordAt x n = c.wordAt x 0 :=
    wordAt_eq_initial fun m _ q hq => hfree q (List.mem_of_getElem? hq)
  obtain ⟨d, hd⟩ := Option.isSome_iff_exists.mp (isSome_wordAt.mpr hx : (c.wordAt x 0).isSome)
  rcases wordAt_cases hd with ⟨j, hj, rfl⟩ | ⟨q, hq, index, hbind, -⟩
  · refine ⟨j + 1, by omega, (List.getElem?_eq_some_iff.mp hj).1,
      fun n s hs => ⟨?_, fun y hy he => ?_⟩⟩
    · rw [hs.displacement?_eq, hword, hd]
      congr 1
    · rw [hs.displacement?_eq] at he
      rcases wordAt_cases he with ⟨i, hi, hij⟩ | ⟨q, -, index, hindex, harg⟩
      · obtain rfl : i = j := by omega
        exact hy (Option.some.inj (hi.symm.trans hj))
      · rw [Frame.argumentDepth] at harg
        omega
  · rw [hfree q hq] at hbind
    cases hbind

end Context

end X86

namespace Function

open X86

/-- Every operand at a displacement from `%rbp` is the slot of a local or an argument on the stack.
None of its bytes belong to the saved frame pointer, the return address, the saved registers or the
frame of the caller. A local that no store binds to an argument has a slot to itself. -/
theorem frame_accesses_bounded {f : Function} {config : Config} {out : CompiledFunction}
    (h : f.compile config = .ok out) :
    (∀ (j : X86.Instr) (l : Loc) (d : Int), .code j ∈ out.lines → l ∈ j.operands →
      l.displacement? = some d →
        ((∃ k : Nat, 1 ≤ k ∧ k ≤ f.locals.length ∧ d = -(8 * (k : Int))) ∨
          ∃ k : Nat, 4 ≤ k ∧ k < f.params.length ∧ d = 16 + 8 * ((k : Int) - 4)) ∧
        ∀ b, d ≤ b → b < d + 8 → Region.ofByte f b = .locals ∨ Region.ofByte f b = .arguments) ∧
    ∃ c : Context, c.function = f ∧ c.config = config ∧
      f.analyze = .ok (c.flow, c.liveness, c.flow.interference) ∧ out.report.coloring = c.coloring ∧
      ∀ x ∈ f.locals, (∀ p ∈ c.flow.points, c.binding? x p.instr = none) →
        ∃ k : Nat, 1 ≤ k ∧ k ≤ f.locals.length ∧ c.OwnSlot x k := by
  obtain ⟨c, rfl, rfl, hb, -, ha, -, -, hcol, lines, hl, hout⟩ := compile_ok h
  have hperm := Flow.perm_locals hb
  have hsub : out.lines ⊆ lines := by
    rw [hout]
    split
    · exact Peephole.subset_runAll lines
    · exact List.Subset.refl _
  refine ⟨fun j l d hj hl' hd => ?_, c, rfl, rfl, ha, hcol, fun x hx hfree => ?_⟩
  · have hword :=
      Context.frameWord_of_displacement? ((Context.forms_emit hl (hsub hj)).placed hl') hd
    refine ⟨?_, fun b hlo hhi => ?_⟩
    · rw [← hperm.length_eq]
      exact hword.cases
    · exact (hword.region hperm.length_eq).imp (fun hr => hr b hlo hhi) fun hr => hr b hlo hhi
  · rw [← hperm.length_eq]
    exact Context.exists_ownSlot (hperm.mem_iff.mpr hx) hfree

/-- Binds the local `x` to an argument and stores to the local `y`. -/
def twoSlots : Function where
  name := "f"
  ret := .int 64
  params := [⟨"a", .int 64⟩, ⟨"b", .int 64⟩, ⟨"c", .int 64⟩, ⟨"d", .int 64⟩, ⟨"e", .int 64⟩]
  blocks := [⟨none, [⟨.alloca, [], some "x", .int 64⟩, ⟨.alloca, [], some "y", .int 64⟩,
    ⟨.store, [.reg "e", .reg "x"], none, .int 64⟩, ⟨.store, [.reg "b", .reg "y"], none, .int 64⟩,
    ⟨.load, [.reg "x"], some "v", .int 64⟩, ⟨.ret, [.reg "v"], none, .int 64⟩]⟩]

theorem frame_accesses_bounded_twoSlots : ∃ out, twoSlots.compile { optimize := false } = .ok out ∧
    Line.code (.mov (.frame 16) (.reg .r8)) ∈ out.lines ∧
    Line.code (.mov (.reg .r9) (.frame (-16))) ∈ out.lines ∧
    (∀ b, 16 ≤ b → b < 16 + 8 → Region.ofByte twoSlots b = .locals ∨
      Region.ofByte twoSlots b = .arguments) ∧
    ∃ c : Context, c.function = twoSlots ∧ ∃ k : Nat, 1 ≤ k ∧ k ≤ 2 ∧ c.OwnSlot "y" k := by
  have hlines : (twoSlots.compile { optimize := false }).toOption.any fun out =>
      Line.code (.mov (.frame 16) (.reg .r8)) ∈ out.lines &&
      Line.code (.mov (.reg .r9) (.frame (-16))) ∈ out.lines := by
    decide +kernel
  simp only [Option.any_eq_true, toOption_eq_some_iff, Bool.and_eq_true,
    decide_eq_true_eq] at hlines
  obtain ⟨out, hout, hload, hstore⟩ := hlines
  obtain ⟨haccess, c, hc, -, ha, -, hslots⟩ := frame_accesses_bounded hout
  refine ⟨out, hout, hload, hstore, (haccess _ _ _ hload (.head _) rfl).2, c, hc, ?_⟩
  obtain ⟨fl, hb, -, hfl⟩ := analyze_ok_iff.mp ha
  obtain rfl : c.flow = fl := congrArg Prod.fst hfl
  have hreg : c.stackParam? "b" = none := by rw [Context.stackParam?, hc]; decide
  have hfree : ∀ i ∈ twoSlots.instrs, c.binding? "y" i = none := by
    simp [twoSlots, Function.instrs, Context.binding?, hreg]
  exact hslots "y" (by decide) fun p hp => hfree _ (Flow.instr_mem_of_build hb hp)

end Function

end IrAsm
