import IrAsm.Proofs.X86.Call
import IrAsm.Proofs.X86.Sequence
import Mathlib.Algebra.Order.Ring.Int

/-!
# What code leaves alone

`c.Spares top c' changed`: from `c` to `c'` no registers but `changed` get other values, and the
stack from `%rsp` up to `top` keeps its contents. Code that only computes spares everything but its
result register and scratch. Registers that are pushed before other code and popped behind it are
spared too, so a call spares what the convention gives and the registers it saves.
-/

namespace IrAsm.X86

/-- The registers that a callee may change. -/
def Reg.volatile : List Reg := [.rax, .rcx, .rdx, .rsi, .rdi, .r8, .r9, .r10, .r11]

theorem Reg.mem_kept {r : Reg} (h : r ∉ volatile) : r ∈ kept := by
  cases r <;> revert h <;> decide

theorem Reg.not_mem_of_callerSaved {r : Reg} (h : r ∈ callerSaved) : r ∉ args ∧ r ∉ kept := by
  revert r; decide

/-! ## Below the stack pointer -/

section
variable {lo top b : Word}

theorem Within.push (h : Within lo top b) (hroom : (top - lo).toNat + 8 < 2 ^ 64) :
    Within (lo - 8) top b ∧ ¬ InWord (lo - 8) b := by
  unfold Within InWord at *
  bv_omega

theorem InWord.within (h : InWord (lo - 8) b) (hroom : (top - lo).toNat + 8 < 2 ^ 64) :
    Within (lo - 8) top b := by
  unfold Within InWord at *
  bv_omega

end

namespace Cpu

/-- There is room for `n` words below `%rsp`. -/
def Room (top : Word) (n : Nat) (c : Cpu) : Prop := (top - c.regs .rsp).toNat + 8 * n < 2 ^ 64

structure Spares (top : Word) (c c' : Cpu) (changed : Reg → Prop) : Prop where
  regs : ∀ r, ¬ changed r → c'.regs r = c.regs r
  mem : ∀ b, Within (c.regs .rsp) top b → c'.mem b = c.mem b
  globals : c'.globals = c.globals

namespace Spares

variable {top : Word} {c c' d : Cpu} {changed more : Reg → Prop}

theorem trans (h : c.Spares top d changed) (h' : d.Spares top c' changed) (hsp : ¬ changed .rsp) :
    c.Spares top c' changed where
  regs r hr := (h'.regs r hr).trans (h.regs r hr)
  mem b hb := (h'.mem b (h.regs .rsp hsp ▸ hb)).trans (h.mem b hb)
  globals := h'.globals.trans h.globals

theorem store (h : c.Spares top c' changed) (a w : Word) :
    (c.store a w).Spares top (c'.store a w) changed where
  regs := h.regs
  mem b hb := by
    simp only [Cpu.store]
    rw [h.mem b hb]
  globals := h.globals

theorem mono (h : c.Spares top c' changed) (hsub : ∀ r, changed r → more r) :
    c.Spares top c' more := ⟨fun r hr => h.regs r fun hc => hr (hsub r hc), h.mem, h.globals⟩

end Spares

theorem Keeps.spares {top : Word} {c c' : Cpu} {changed : List Reg} (h : c.Keeps c' changed) :
    c.Spares top c' (· ∈ changed) := ⟨h.regs, fun b _ => congrFun h.mem b, h.globals⟩

/-- The state after a push. -/
def push (c : Cpu) (w : Word) : Cpu := (c.setReg .rsp (c.regs .rsp - 8)).store (c.regs .rsp - 8) w

section
variable {top : Word} {c c' : Cpu} {n : Nat} {w : Word}

@[simp] theorem rsp_push (c : Cpu) (w : Word) : (c.push w).regs .rsp = c.regs .rsp - 8 := by
  simp [push]

theorem Room.push (h : c.Room top (n + 1)) (w : Word) : (c.push w).Room top n := by
  unfold Room at *
  rw [rsp_push]
  bv_omega

/-- Less room is left after pushes. -/
theorem Room.below {m : Nat} (h : c.Room top (m + n))
    (hsp : c'.regs .rsp = c.regs .rsp - BitVec.ofNat 64 (8 * m)) : c'.Room top n := by
  unfold Room at *
  rw [hsp]
  bv_omega

theorem Room.lt (h : c.Room top (n + 1)) : (top - c.regs .rsp).toNat + 8 < 2 ^ 64 := by
  unfold Room at h
  omega

/-- What lies above the pushed word is as it was. -/
theorem spares_push (h : c.Room top (n + 1)) (w : Word) : c.Spares top (c.push w) (· = .rsp) where
  regs r hr := by simp [Cpu.push, hr]
  mem _ hb := mem_store_of_not_inWord (hb.push h.lt).2
  globals := rfl

/-- After other code the pushed word is still there. -/
theorem load_pushed (h : c.Room top (n + 1)) {changed : Reg → Prop}
    (hs : (c.push w).Spares top c' changed) : c'.load (c.regs .rsp - 8) = w := by
  have hload : c'.load (c.regs .rsp - 8) = (c.push w).load (c.regs .rsp - 8) :=
    load_congr fun b hb => hs.mem b (by rw [rsp_push]; exact hb.within h.lt)
  rw [hload]
  exact load_store ..

end

end Cpu

@[simp] theorem exec_push (c : Cpu) (src : Loc) :
    (Instr.push src).exec c = some (c.push (c.read src)) := rfl

@[simp] theorem exec_pop_reg (c : Cpu) (dst : Reg) : (Instr.pop (.reg dst)).exec c =
    some ((c.setReg .rsp (c.regs .rsp + 8)).setReg dst (c.load (c.regs .rsp))) := rfl

section
variable {top : Word} {c c' d : Cpu}

theorem spares_pushes {locs : List Loc} (hroom : c.Room top locs.length)
    (h : run (locs.map .push) c = some d) : c.Spares top d (· = .rsp) ∧
      d.regs .rsp = c.regs .rsp - BitVec.ofNat 64 (8 * locs.length) := by
  induction locs generalizing c with
  | nil =>
    cases h
    exact ⟨⟨fun _ _ => rfl, fun _ _ => rfl, rfl⟩, by simp⟩
  | cons l locs ih =>
    rw [List.map_cons, run_cons, exec_push, Option.bind_some] at h
    obtain ⟨hs, hsp⟩ := ih (hroom.push _) h
    have hfirst := Cpu.spares_push hroom (c.read l)
    refine ⟨⟨fun r hr => (hs.regs r hr).trans (hfirst.regs r hr), fun b hb => ?_,
      hs.globals.trans hfirst.globals⟩, ?_⟩
    · rw [hs.mem b (by rw [Cpu.rsp_push]; exact (hb.push hroom.lt).1), hfirst.mem b hb]
    · rw [hsp, Cpu.rsp_push, List.length_cons]
      bv_omega

theorem spares_saves {saved : List Reg} (hroom : c.Room top saved.length)
    (h : run (saved.map fun r => .push (.reg r)) c = some d) : c.Spares top d (· = .rsp) ∧
      d.regs .rsp = c.regs .rsp - BitVec.ofNat 64 (8 * saved.length) := by
  rw [← List.length_map Loc.reg] at hroom ⊢
  exact spares_pushes hroom (by rwa [List.map_map])

/-- Registers that are pushed before and popped behind code that spares the stack. -/
theorem spares_bracket {saved : List Reg} {changed : Reg → Prop} {c₁ c₂ : Cpu}
    (hroom : c.Room top saved.length) (hsaved : .rsp ∉ saved) (hsp : ¬ changed .rsp)
    (hpush : run (saved.map fun r => .push (.reg r)) c = some c₁) (hs : c₁.Spares top c₂ changed)
    (hpop : run (saved.reverse.map fun r => .pop (.reg r)) c₂ = some c') :
    c.Spares top c' fun r => changed r ∧ r ∉ saved := by
  induction saved generalizing c c' with
  | nil =>
    cases hpush
    cases hpop
    exact hs.mono fun r hr => ⟨hr, List.not_mem_nil⟩
  | cons q saved ih =>
    rw [List.mem_cons, not_or] at hsaved
    rw [List.map_cons, run_cons, exec_push, Option.bind_some, Cpu.read_reg] at hpush
    rw [List.reverse_cons, List.map_append, run_append] at hpop
    obtain ⟨e, he, hpop⟩ := Option.bind_eq_some_iff.mp hpop
    have hin := ih (hroom.push _) hsaved.2 hpush he
    have hesp : e.regs .rsp = c.regs .rsp - 8 := by
      rw [hin.regs .rsp fun h => hsp h.1, Cpu.rsp_push]
    have hload : e.load (e.regs .rsp) = c.regs q := hesp ▸ Cpu.load_pushed hroom hin
    obtain rfl : (e.setReg .rsp (e.regs .rsp + 8)).setReg q (e.load (e.regs .rsp)) = c' := by
      simpa using hpop
    have hfirst := Cpu.spares_push hroom (c.regs q)
    refine ⟨fun r hr => ?_, fun b hb => ?_, hin.globals.trans hfirst.globals⟩
    · simp only [Cpu.regs_setReg]
      split
      · next hq => rw [hload, hq]
      · next hq =>
        split
        · next hr' => rw [hesp, hr', BitVec.sub_add_cancel]
        · next hr' =>
          have hnot : ¬ (changed r ∧ r ∉ saved) := fun h => hr ⟨h.1, by simp [hq, h.2]⟩
          rw [hin.regs r hnot, hfirst.regs r hr']
    · have hwithin : Within ((c.push (c.regs q)).regs .rsp) top b := by
        rw [Cpu.rsp_push]
        exact (hb.push hroom.lt).1
      exact (hin.mem b hwithin).trans (hfirst.mem b hb)

end

/-- Code of instructions that can all be done and leave a register alone. -/
theorem exists_run {code : List Instr} {r : Reg}
    (h : ∀ i ∈ code, ∀ c, ∃ d, i.exec c = some d ∧ d.regs r = c.regs r) (c : Cpu) :
    ∃ d, run code c = some d ∧ d.regs r = c.regs r := by
  induction code generalizing c with
  | nil => exact ⟨c, rfl, rfl⟩
  | cons i code ih =>
    rw [List.forall_mem_cons] at h
    obtain ⟨d, hd, hr⟩ := h.1 c
    obtain ⟨e, he, hr'⟩ := ih h.2 d
    exact ⟨e, by rw [run_cons, hd, Option.bind_some, he], hr'.trans hr⟩

/-! ## Code that computes -/

/-- The instruction changes no memory, and no registers but some of `changed`. -/
def Instr.Quiet (changed : List Reg) : Instr → Prop
  | .mov _ (.reg r) | .alu _ _ r | .lea _ _ r => r ∈ changed
  | .set _ => .rax ∈ changed
  | .imul _ | .idiv _ => .rax ∈ changed ∧ .rdx ∈ changed
  | .cqto => .rdx ∈ changed
  | .cmp _ _ => True
  | _ => False

def Quiet (changed : List Reg) (code : List Instr) : Prop := ∀ i ∈ code, i.Quiet changed

section
variable {top : Word} {changed : List Reg} {code : List Instr} {c c' : Cpu} {i : Instr}

theorem Cpu.keeps_divide {y : Word} (hrax : .rax ∈ changed) (hrdx : .rdx ∈ changed)
    (h : c.divide y = some c') : c.Keeps c' changed := by
  simp only [Cpu.divide, Option.ite_none_left_eq_some, Option.some.injEq] at h
  obtain ⟨-, rfl⟩ := h
  exact (((Keeps.refl c changed).setReg _ hrax).setReg _ hrdx).withFlags _

theorem Instr.Quiet.exec (hi : i.Quiet changed) (h : i.exec c = some c') : c.Keeps c' changed := by
  have hrefl := Cpu.Keeps.refl c changed
  cases i with
  | mov src dst =>
    cases dst with
    | reg r =>
      rw [exec_mov_reg, Option.some.injEq] at h
      exact h ▸ hrefl.setReg _ hi
    | _ => exact hi.elim
  | alu op src dst => cases h; exact (hrefl.setReg _ hi).withFlags _
  | lea base index dst => cases h; exact hrefl.setReg _ hi
  | set p =>
    obtain ⟨fl, -, rfl⟩ := Option.map_eq_some_iff.mp h
    exact hrefl.setReg _ hi
  | cqto => cases h; exact hrefl.setReg _ hi
  | imul src =>
    cases src with
    | imm v => cases h
    | _ => cases h; exact ((hrefl.setReg _ hi.1).setReg _ hi.2).withFlags _
  | idiv src =>
    cases src with
    | imm v => cases h
    | _ => exact Cpu.keeps_divide hi.1 hi.2 h
  | cmp src dst =>
    cases dst with
    | imm v => cases h
    | _ =>
      simp only [Instr.exec, Option.ite_none_left_eq_some, Option.some.injEq] at h
      obtain ⟨-, rfl⟩ := h
      exact hrefl.withFlags _
  | _ => exact hi.elim

theorem Instr.Quiet.isDirect (hi : i.Quiet changed) : i.isDirect := by
  cases i with
  | mov src dst =>
    cases dst with
    | reg r => rfl
    | _ => exact hi.elim
  | push | pop | jmp | je | call | ret => exact hi.elim
  | _ => rfl

theorem Quiet.run (hq : Quiet changed code) (h : run code c = some c') : c.Keeps c' changed := by
  induction code generalizing c with
  | nil => cases h; exact .refl _ _
  | cons i code ih =>
    have hq := List.forall_mem_cons.mp hq
    obtain ⟨d, hd, h⟩ := Option.bind_eq_some_iff.mp h
    exact (hq.1.exec hd).trans (ih hq.2 h)

theorem Quiet.completes {o : Option Label} (hq : Quiet changed code)
    (h : Completes top code c o c') : o = none ∧ c.Keeps c' changed := by
  obtain ⟨ho, hrun⟩ := (completes_iff_run fun i hi => (hq i hi).isDirect).mp h
  exact ⟨ho, hq.run hrun⟩

theorem Quiet.append {code' : List Instr} (h : Quiet changed code) (h' : Quiet changed code') :
    Quiet changed (code ++ code') := List.forall_mem_append.mpr ⟨h, h'⟩

end

namespace Sequence

variable {scratch : Reg}

theorem quiet_move (src : Loc) (dst : Reg) : Quiet (dst :: Reg.scratch) (move src (.reg dst)) := by
  simp [Quiet, move, Loc.isMemory, Instr.Quiet]

theorem quiet_stage {changed : List Reg} (h : scratch ∈ changed) (l : Loc) :
    Quiet changed (stage scratch l).1 := by
  cases l <;> simp [Quiet, stage, Instr.Quiet, h]

theorem quiet_stageImm {changed : List Reg} (h : scratch ∈ changed) (l : Loc) :
    Quiet changed (stageImm scratch l).1 := by
  cases l <;> simp [Quiet, stageImm, Instr.Quiet, h]

theorem quiet_arith (op : Arith) (lhs rhs : Loc) (dst : Reg) :
    Quiet (dst :: Reg.scratch) (arith op lhs rhs dst) := by
  have hstage : Quiet (dst :: Reg.scratch) (stageImm .rcx rhs).1 :=
    quiet_stageImm (by simp [Reg.scratch]) rhs
  cases op with
  | mul | sdiv | srem =>
    simp only [arith, multiply, divide]
    refine .append (.append ?_ hstage) ?_ <;> simp [Quiet, Instr.Quiet, Reg.scratch]
  | sub =>
    simp only [arith, subtract]
    split <;> simp [Quiet, Instr.Quiet, Reg.scratch]
  | add | or | and =>
    simp only [arith, commutative]
    split <;> simp [Quiet, Instr.Quiet]

theorem quiet_compare (p : Predicate) (lhs rhs : Loc) (dst : Reg) :
    Quiet (dst :: Reg.scratch) (compare p lhs rhs dst) := by
  cases lhs <;> simp [Quiet, compare, Instr.Quiet, Reg.scratch]

theorem quiet_elementAddress (base index : Loc) (dst : Reg) :
    Quiet (dst :: Reg.scratch) (elementAddress base index dst) := by
  refine .append (.append (quiet_stage ?_ base) (quiet_stage (by simp [Reg.scratch]) index)) ?_
  · split <;> simp [Reg.scratch]
  · simp [Quiet, Instr.Quiet]

theorem exists_quiet_jumpIfZero (cond : Loc) (target : Label) :
    ∃ test, jumpIfZero cond target = test ++ [.je target] ∧ Quiet Reg.scratch test := by
  cases cond with
  | imm v => exact ⟨[_, _], rfl, by simp [Quiet, Instr.Quiet, Reg.scratch]⟩
  | _ => exact ⟨[_], rfl, by simp [Quiet, Instr.Quiet]⟩

/-! ## Calls -/

section
variable {top : Word} {preserved : List Reg} {args : List Loc} {callee : String} {c c' d : Cpu}
  {o : Option Label}

/-- The bytes of the arguments that are passed on the stack. -/
def stackedBytes (args : List Loc) : Word :=
  BitVec.ofNat 64 (8 * (args.drop Reg.args.length).length)

/-- Takes the arguments off the stack. -/
def release (args : List Loc) : List Instr :=
  if (args.drop Reg.args.length).isEmpty then [] else [.alu .add (.imm (stackedBytes args)) .rsp]

theorem call_eq (preserved : List Reg) (args : List Loc) (callee : String) :
    call preserved args callee = preserved.map (fun r => .push (.reg r)) ++
      ((args.zip Reg.args).map (fun x => .mov x.1 (.reg x.2)) ++
        ((args.drop Reg.args.length).reverse.map .push ++ .call callee ::
          (release args ++ preserved.reverse.map fun r => .pop (.reg r)))) := by
  simp [call, release, stackedBytes]

theorem run_release (h : run (release args) c = some d) :
    d.regs .rsp = c.regs .rsp + stackedBytes args ∧ c.Keeps d [.rsp] := by
  unfold release at h
  split at h
  · next hnil =>
    cases h
    rw [List.isEmpty_iff] at hnil
    exact ⟨by simp [stackedBytes, hnil], .refl _ _⟩
  · obtain rfl : _ = d := by simpa using h
    exact ⟨by simp [Alu.eval], ((Cpu.Keeps.refl c _).setReg _ (.head _)).withFlags _⟩

theorem released_release (preserved : List Reg) (args : List Loc) {tail : List Instr}
    (htail : released (tail.map .code) = 0) : released ((release args ++
      (preserved.reverse.map (fun r => Instr.pop (.reg r)) ++ tail)).map .code) =
        stackedBytes args := by
  unfold release
  split
  · next hnil =>
    rw [List.isEmpty_iff] at hnil
    cases preserved.reverse with
    | nil => simpa [stackedBytes, hnil] using htail
    | cons r rs => simp [stackedBytes, hnil, released, Line.releases]
  · rfl

/-- A call goes through pushes, moves of arguments, the callee and pops. -/
theorem completes_call {tail : List Instr} (htail : released (tail.map .code) = 0) :
    Completes top (call preserved args callee ++ tail) c o c' ↔
      ∃ c₁ c₂ c₃ c₄ c₅ c₆, run (preserved.map fun r => .push (.reg r)) c = some c₁ ∧
        run ((args.zip Reg.args).map fun x => .mov x.1 (.reg x.2)) c₁ = some c₂ ∧
        run ((args.drop Reg.args.length).reverse.map .push) c₂ = some c₃ ∧
        c₃.Returned top (stackedBytes args) c₄ ∧ run (release args) c₄ = some c₅ ∧
        run (preserved.reverse.map fun r => .pop (.reg r)) c₅ = some c₆ ∧
        Completes top tail c₆ o c' := by
  have hsave : ∀ i ∈ preserved.map fun r => Instr.push (.reg r), i.isDirect := by
    simp [Instr.isDirect]
  have hmov : ∀ i ∈ (args.zip Reg.args).map fun x => Instr.mov x.1 (.reg x.2), i.isDirect := by
    rw [List.forall_mem_map]
    exact fun _ _ => rfl
  have hpush : ∀ i ∈ (args.drop Reg.args.length).reverse.map Instr.push, i.isDirect := by
    rw [List.forall_mem_map]
    exact fun _ _ => rfl
  have hrel : ∀ i ∈ release args, i.isDirect := by
    unfold release
    split <;> simp [Instr.isDirect]
  have hpop : ∀ i ∈ preserved.reverse.map fun r => Instr.pop (.reg r), i.isDirect := by
    simp [Instr.isDirect]
  simp only [call_eq, List.append_assoc, List.cons_append, completes_append hsave,
    completes_append hmov, completes_append hpush, completes_call_cons, released_release _ _ htail,
    completes_append hrel, completes_append hpop]
  constructor
  · rintro ⟨c₁, h₁, c₂, h₂, c₃, h₃, c₄, h₄, c₅, h₅, c₆, h₆, h⟩
    exact ⟨c₁, c₂, c₃, c₄, c₅, c₆, h₁, h₂, h₃, h₄, h₅, h₆, h⟩
  · rintro ⟨c₁, c₂, c₃, c₄, c₅, c₆, h₁, h₂, h₃, h₄, h₅, h₆, h⟩
    exact ⟨c₁, h₁, c₂, h₂, c₃, h₃, c₄, h₄, c₅, h₅, c₆, h₆, h⟩

/-- What is pushed and released around a callee is below the stack that it leaves alone. -/
theorem spares_callee {c₁ c₂ c₃ c₄ c₅ : Cpu} (hroom : c₁.Room top args.length)
    (hmov : run ((args.zip Reg.args).map fun x => .mov x.1 (.reg x.2)) c₁ = some c₂)
    (hpush : run ((args.drop Reg.args.length).reverse.map .push) c₂ = some c₃)
    (hcallee : c₃.Returned top (stackedBytes args) c₄) (hrel : run (release args) c₄ = some c₅) :
    c₁.Spares top c₅ (· ∈ Reg.volatile) := by
  have hquiet : Quiet Reg.args ((args.zip Reg.args).map fun x => .mov x.1 (.reg x.2)) := by
    rw [Quiet, List.forall_mem_map]
    exact fun x hx => (List.of_mem_zip hx).2
  have hk := hquiet.run hmov
  have hsp₂ : c₂.regs .rsp = c₁.regs .rsp := hk.regs .rsp (by decide)
  have hroom₂ : c₂.Room top (args.drop Reg.args.length).reverse.length := by
    unfold Cpu.Room at *
    rw [hsp₂, List.length_reverse, List.length_drop]
    omega
  obtain ⟨hs, hsp₃⟩ := spares_pushes hroom₂ hpush
  obtain ⟨hsp₅, hrel⟩ := run_release hrel
  have hbase : c₃.regs .rsp + stackedBytes args = c₂.regs .rsp := by
    rw [hsp₃, List.length_reverse, stackedBytes, BitVec.sub_add_cancel]
  refine ⟨fun r hr => ?_, fun b hb => ?_, ?_⟩
  · have hkept := Reg.mem_kept hr
    by_cases hsp : r = .rsp
    · rw [hsp, hsp₅, hcallee.regs .rsp (hsp ▸ hkept), hbase, hsp₂]
    · have hargs : r ∉ Reg.args := fun h => hr ((by decide : Reg.args ⊆ Reg.volatile) h)
      rw [hrel.regs r (by simpa using hsp), hcallee.regs r hkept, hs.regs r hsp, hk.regs r hargs]
  · rw [← hsp₂] at hb
    rw [congrFun hrel.mem b, hcallee.mem b (hbase ▸ hb), hs.mem b hb, congrFun hk.mem b]
  · rw [hrel.globals, hcallee.globals, hs.globals, hk.globals]

/-- A call changes the registers that its callee may change, less those that it saves. -/
theorem spares_call {tail : List Instr} (htail : released (tail.map .code) = 0)
    (hroom : c.Room top (preserved.length + args.length)) (hsp : .rsp ∉ preserved)
    (h : Completes top (call preserved args callee ++ tail) c o c') :
    ∃ d, c.Spares top d (fun r => r ∈ Reg.volatile ∧ r ∉ preserved) ∧
      Completes top tail d o c' := by
  obtain ⟨c₁, c₂, c₃, c₄, c₅, c₆, hsave, hmov, hpush, hcallee, hrel, hpop, h⟩ :=
    (completes_call htail).mp h
  have hroom₀ : c.Room top preserved.length := by
    unfold Cpu.Room at *
    omega
  obtain ⟨-, hsp₁⟩ := spares_saves hroom₀ hsave
  exact ⟨c₆, spares_bracket hroom₀ hsp (by decide) hsave
    (spares_callee (hroom.below hsp₁) hmov hpush hcallee hrel) hpop, h⟩

/-- A callee may change a register that is not saved, and then the call does too. -/
theorem exists_completes_call {tail : List Instr} (htail : released (tail.map .code) = 0) {r : Reg}
    (hvol : r ∈ Reg.callerSaved) (hr : r ∉ preserved) (args : List Loc) (callee : String)
    (top : Word) (c : Cpu) :
    ∃ d, d.regs r = c.regs r + 1 ∧ ∀ o c', Completes top tail d o c' →
      Completes top (call preserved args callee ++ tail) c o c' := by
  obtain ⟨hargs, hkept⟩ := Reg.not_mem_of_callerSaved hvol
  have hsp : r ≠ .rsp := fun he => hkept (he ▸ List.mem_cons_self)
  have hpush (l : Loc) (c : Cpu) : ∃ d, (Instr.push l).exec c = some d ∧ d.regs r = c.regs r :=
    ⟨_, rfl, by simp [hsp]⟩
  have hsave : ∀ i ∈ preserved.map fun q => Instr.push (.reg q),
      ∀ c, ∃ d, i.exec c = some d ∧ d.regs r = c.regs r := by
    rw [List.forall_mem_map]
    exact fun q _ => hpush _
  have hmov : ∀ i ∈ (args.zip Reg.args).map fun x => Instr.mov x.1 (.reg x.2),
      ∀ c, ∃ d, i.exec c = some d ∧ d.regs r = c.regs r := by
    rw [List.forall_mem_map]
    intro x hx c
    have hne : r ≠ x.2 := fun he => hargs (he ▸ (List.of_mem_zip hx).2)
    exact ⟨_, exec_mov_reg .., by simp [hne]⟩
  have hstack : ∀ i ∈ (args.drop Reg.args.length).reverse.map Instr.push,
      ∀ c, ∃ d, i.exec c = some d ∧ d.regs r = c.regs r := by
    rw [List.forall_mem_map]
    exact fun l _ => hpush l
  have hrel : ∀ i ∈ release args, ∀ c, ∃ d, i.exec c = some d ∧ d.regs r = c.regs r := by
    unfold release
    split
    · simp
    · simp [hsp]
  have hpop : ∀ i ∈ preserved.reverse.map fun q => Instr.pop (.reg q),
      ∀ c, ∃ d, i.exec c = some d ∧ d.regs r = c.regs r := by
    rw [List.forall_mem_map]
    intro q hq c
    have hne : r ≠ q := fun he => hr (he ▸ List.mem_reverse.mp hq)
    exact ⟨_, rfl, by simp [hne, hsp]⟩
  obtain ⟨c₁, h₁, hr₁⟩ := exists_run hsave c
  obtain ⟨c₂, h₂, hr₂⟩ := exists_run hmov c₁
  obtain ⟨c₃, h₃, hr₃⟩ := exists_run hstack c₂
  obtain ⟨c₅, h₅, hr₅⟩ := exists_run hrel (c₃.setReg r (c₃.regs r + 1))
  obtain ⟨c₆, h₆, hr₆⟩ := exists_run hpop c₅
  have hcallee := Cpu.returned_setReg hkept top (stackedBytes args) c₃ (c₃.regs r + 1)
  refine ⟨c₆, ?_, fun o c' h =>
    (completes_call htail).mpr ⟨c₁, c₂, c₃, _, c₅, c₆, h₁, h₂, h₃, hcallee, h₅, h₆, h⟩⟩
  rw [hr₆, hr₅, Cpu.regs_setReg, if_pos rfl, hr₃, hr₂, hr₁]

end

/-! ## Stores -/

section
variable {top : Word} {c c' : Cpu} {src : Loc} {o : Option Label}

theorem completes_push_pop {dst : Loc} :
    Completes top [.push src, .pop dst] c o c' ↔ o = none ∧
      (Instr.pop dst).Clear top (c.push (c.read src)) ∧
      (Instr.pop dst).exec (c.push (c.read src)) = some c' := by
  rw [completes_cons rfl]
  simp only [exec_push, Option.some.injEq, exists_eq_left', completes_cons (i := .pop dst) rfl,
    completes_nil]
  constructor
  · rintro ⟨-, d, hd, hclear, rfl, rfl⟩; exact ⟨rfl, hclear, hd⟩
  · rintro ⟨rfl, hclear, hd⟩; exact ⟨trivial, _, hd, hclear, rfl, rfl⟩

/-- A value that is moved over the stack leaves nothing there. -/
theorem spares_pop (hroom : c.Room top 1) (w : Word) :
    c.Spares top ((c.push w).setReg .rsp ((c.push w).regs .rsp + 8)) fun _ => False := by
  have hs := Cpu.spares_push hroom w
  refine ⟨fun r _ => ?_, hs.mem, hs.globals⟩
  by_cases hr : r = .rsp
  · rw [hr, Cpu.regs_setReg, if_pos rfl, Cpu.rsp_push, BitVec.sub_add_cancel]
  · simpa [hr] using hs.regs r hr

/-- A move to memory is one write, with the stack as it was. -/
theorem exists_of_completes_move {dst : Loc} (hroom : c.Room top 1) (hdst : dst.isMemory)
    (h : Completes top (move src dst) c o c') : o = none ∧
      ∃ e : Cpu, c.Spares top e (fun _ => False) ∧ e.write dst (c.read src) = some c' ∧
        ∀ r, dst = .indirect r → r ≠ .rsp → Off (c.regs .rsp) top (c.regs r) := by
  unfold move at h
  split at h
  · obtain ⟨rfl, hclear, hpop⟩ := completes_push_pop.mp h
    refine ⟨rfl, _, spares_pop hroom (c.read src), ?_, fun r hr hsp => ?_⟩
    · rw [← hpop, Instr.exec, Cpu.rsp_push, Cpu.push, Cpu.load_store]
    · subst hr
      simpa [Instr.Clear, BitVec.sub_add_cancel, Cpu.push, hsp] using hclear
  · next hboth =>
    have hmov : (Instr.mov src dst).exec c = c.write dst (c.read src) := if_neg hboth
    obtain ⟨d, hd, hclear, hnil⟩ := (completes_cons rfl).mp h
    obtain ⟨rfl, rfl⟩ := completes_nil.mp hnil
    refine ⟨rfl, c, ⟨fun _ _ => rfl, fun _ _ => rfl, rfl⟩, hmov ▸ hd, fun r hr _ => ?_⟩
    subst hr
    exact hclear

/-- A store to a word of the frame. -/
theorem spares_move_frame {d : Int} (hroom : c.Room top 1)
    (h : Completes top (move src (.frame d)) c o c') : o = none ∧
      (c.store (c.regs .rbp + BitVec.ofInt 64 d) (c.read src)).Spares top c' fun _ => False := by
  obtain ⟨ho, e, hs, hw, -⟩ := exists_of_completes_move hroom rfl h
  cases hw
  rw [hs.regs .rbp not_false]
  exact ⟨ho, hs.store _ _⟩

/-- A store through a pointer. -/
theorem spares_move_indirect {r : Reg} (hroom : c.Room top 1) (hr : r ≠ .rsp)
    (h : Completes top (move src (.indirect r)) c o c') :
    o = none ∧ c.Spares top c' fun _ => False := by
  obtain ⟨ho, e, hs, hw, hoff⟩ := exists_of_completes_move hroom rfl h
  cases hw
  refine ⟨ho, hs.regs, fun b hb => ?_, hs.globals⟩
  rw [hs.regs r not_false, Cpu.mem_store_of_off (hoff r rfl hr) hb]
  exact hs.mem b hb

end

end Sequence

end IrAsm.X86
