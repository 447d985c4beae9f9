import IrAsm.Proofs.X86.Deletion
import IrAsm.Proofs.X86.Execution

/-!
# The stack and the saved registers

`stackDepth d code` is how many bytes are on the stack behind `code` if there are `d` before it,
counted from some place on. There is no such number if the code goes below that place, jumps away
while something is still there, or moves the stack pointer otherwise. The code of a point leaves
nothing on the stack (`Neutral`), and of the palette it writes only registers that the prologue
saves.

The prologue saves a number of registers, the lowest colors first. So that depends on the colors in
use being the lowest ones. The epilogue pops what the prologue pushes; that a run gets the values
back is in `Restoration`.
-/

namespace IrAsm

namespace X86

/-! ## Registers that are written -/

/-- The registers that an instruction writes. What a call changes is up to the callee. -/
def Instr.written : Instr → List Reg
  | .mov _ (.reg r) | .alu _ _ r | .lea _ _ r => [r]
  | .pop (.reg r) => [.rsp, r]
  | .push _ | .pop _ => [.rsp]
  | .set _ => [.rax]
  | .imul _ | .idiv _ => [.rax, .rdx]
  | .cqto => [.rdx]
  | _ => []

section
variable {i : Instr} {changed : List Reg} {c c' : Cpu} {r : Reg} {code : List Instr} {d d' e : Nat}

theorem Instr.Quiet.written (h : i.Quiet changed) : i.written ⊆ changed := by
  cases i with
  | mov src dst =>
    cases dst with
    | reg r => exact List.cons_subset.mpr ⟨h, List.nil_subset _⟩
    | _ => exact h.elim
  | alu | lea | set | cqto => exact List.cons_subset.mpr ⟨h, List.nil_subset _⟩
  | imul | idiv => exact List.cons_subset.mpr ⟨h.1, List.cons_subset.mpr ⟨h.2, List.nil_subset _⟩⟩
  | cmp => exact List.nil_subset _
  | _ => exact h.elim

theorem Cpu.regs_write {dst : Loc} {w : Word} (h : c.write dst w = some c') (hr : dst ≠ .reg r) :
    c'.regs r = c.regs r := by
  cases dst with
  | imm v => cases h
  | reg q =>
    cases h
    have hne : r ≠ q := fun he => hr (he ▸ rfl)
    simp [hne]
  | _ => cases h; rfl

/-- No other register gets another value. -/
theorem Instr.regs_exec (h : i.exec c = some c') (hr : r ∉ i.written) : c'.regs r = c.regs r := by
  cases i with
  | mov src dst =>
    simp only [Instr.exec, Option.ite_none_left_eq_some] at h
    refine Cpu.regs_write h.2 ?_
    rintro rfl
    simp [Instr.written] at hr
  | push src =>
    cases h
    simp only [Instr.written, List.mem_singleton] at hr
    simp [hr]
  | pop dst =>
    have hsp : r ≠ .rsp := by rintro rfl; cases dst <;> simp [Instr.written] at hr
    have hdst : dst ≠ .reg r := by rintro rfl; simp [Instr.written] at hr
    rw [Cpu.regs_write h hdst]
    simp [hsp]
  | jmp | je | call | ret => cases h
  | cmp src dst =>
    have hk : c.Keeps c' [] := Instr.Quiet.exec (i := .cmp src dst) trivial h
    exact hk.regs r hr
  | alu op src dst => exact (Instr.Quiet.exec (i := .alu op src dst) (.head _) h).regs r hr
  | lea base index dst => exact (Instr.Quiet.exec (i := .lea base index dst) (.head _) h).regs r hr
  | set p => exact (Instr.Quiet.exec (i := .set p) (.head _) h).regs r hr
  | cqto => exact (Instr.Quiet.exec (i := .cqto) (.head _) h).regs r hr
  | imul src => exact (Instr.Quiet.exec (i := .imul src) ⟨.head _, .tail _ (.head _)⟩ h).regs r hr
  | idiv src => exact (Instr.Quiet.exec (i := .idiv src) ⟨.head _, .tail _ (.head _)⟩ h).regs r hr

/-! ## Depth -/

/-- The bytes on the stack after an instruction. -/
def Instr.depth (d : Nat) : Instr → Option Nat
  | .push _ => some (d + 8)
  | .pop dst => if 8 ≤ d ∧ dst ≠ .reg .rsp then some (d - 8) else none
  | .alu op src dst =>
    match (Line.code (.alu op src dst)).releases with
    | some n => if n.toNat ≤ d then some (d - n.toNat) else none
    | none => if dst = .rsp then none else some d
  | .mov _ dst => if dst = .reg .rsp then none else some d
  | .lea _ _ dst => if dst = .rsp then none else some d
  | .jmp _ | .je _ => if d = 0 then some 0 else none
  | .ret => none
  | .cmp _ _ | .set _ | .imul _ | .cqto | .idiv _ | .call _ => some d

def stackDepth (d : Nat) (code : List Instr) : Option Nat := code.foldlM Instr.depth d

theorem stackDepth_cons : stackDepth d (i :: code) = (i.depth d).bind (stackDepth · code) := rfl

theorem stackDepth_append {code' : List Instr} : stackDepth d (code ++ code') =
    (stackDepth d code).bind (stackDepth · code') := List.foldlM_append

theorem eq_of_releases {line : Line} {n : Word} (h : line.releases = some n) :
    line = .code (.alu .add (.imm n) .rsp) := by
  unfold Line.releases at h
  split at h
  · cases h; rfl
  · cases h

/-- The place from which the bytes are counted stays where it is. -/
theorem Instr.rsp_exec (h : i.exec c = some c') (hd : i.depth d = some d') :
    c'.regs .rsp + BitVec.ofNat 64 d' = c.regs .rsp + BitVec.ofNat 64 d := by
  -- a register other than the stack pointer is written
  have hkeep (hsp : .rsp ∉ i.written) (he : some d = some d') :
      c'.regs .rsp + BitVec.ofNat 64 d' = c.regs .rsp + BitVec.ofNat 64 d := by
    rw [Instr.regs_exec h hsp, Option.some.inj he]
  cases i with
  | push src =>
    cases hd
    cases h
    simp only [Cpu.regs_store, Cpu.regs_setReg, if_pos]
    bv_omega
  | pop dst =>
    simp only [Instr.depth, Option.ite_none_right_eq_some, Option.some.injEq] at hd
    obtain ⟨⟨hle, hdst⟩, rfl⟩ := hd
    rw [Cpu.regs_write h hdst]
    simp only [Cpu.regs_setReg, if_pos]
    bv_omega
  | alu op src dst =>
    rw [Instr.depth] at hd
    split at hd
    · next n hn =>
      simp only [Option.ite_none_right_eq_some, Option.some.injEq] at hd
      obtain ⟨hle, rfl⟩ := hd
      cases eq_of_releases hn
      cases h
      simp only [Cpu.read_imm, Cpu.regs_setReg, if_pos]
      bv_omega
    · simp only [Option.ite_none_left_eq_some] at hd
      exact hkeep (by simpa [Instr.written] using Ne.symm hd.1) hd.2
  | mov src dst =>
    simp only [Instr.depth, Option.ite_none_left_eq_some] at hd
    refine hkeep (fun hm => hd.1 ?_) hd.2
    cases dst with
    | reg r => simpa [Instr.written, eq_comm] using hm
    | _ => cases hm
  | lea base index dst =>
    simp only [Instr.depth, Option.ite_none_left_eq_some] at hd
    exact hkeep (by simpa [Instr.written] using Ne.symm hd.1) hd.2
  | jmp | je | call | ret => cases h
  | cmp | set | imul | cqto | idiv => exact hkeep (by simp [Instr.written]) hd

theorem rsp_of_passes {top : Word} {rest : List Instr} (h : Passes top code c rest c')
    (hd : stackDepth d code = some e) : ∃ d', stackDepth d' rest = some e ∧
      c'.regs .rsp + BitVec.ofNat 64 d' = c.regs .rsp + BitVec.ofNat 64 d := by
  induction h generalizing d with
  | refl => exact ⟨d, hd, rfl⟩
  | exec hi _ _ ih =>
    obtain ⟨d₁, hd₁, hd⟩ := Option.bind_eq_some_iff.mp hd
    obtain ⟨d', hd', hsp⟩ := ih hd
    exact ⟨d', hd', hsp.trans (Instr.rsp_exec hi hd₁)⟩
  | call hr _ ih =>
    obtain ⟨d', hd', hsp⟩ := ih (d := d) hd
    exact ⟨d', hd', by rw [hsp, hr.regs .rsp (by decide)]⟩
  | skip _ _ _ ih =>
    obtain ⟨d₁, hd₁, hd⟩ := Option.bind_eq_some_iff.mp hd
    obtain ⟨rfl, rfl⟩ : d = 0 ∧ 0 = d₁ := by simpa [Instr.depth] using hd₁
    exact ih hd

/-- Where control leaves code that leaves nothing on the stack, the stack pointer is back. -/
theorem rsp_of_completes {top : Word} {o : Option Label} (h : Completes top code c o c')
    (hd : stackDepth 0 code = some e) (he : 2 ^ 64 ∣ e) : c'.regs .rsp = c.regs .rsp := by
  obtain ⟨rest, hp, hl⟩ := h
  obtain ⟨d', hd', hsp⟩ := rsp_of_passes hp hd
  have hzero : BitVec.ofNat 64 d' = 0 := by
    cases hl with
    | done =>
      obtain rfl : d' = e := by simpa [stackDepth] using hd'
      rw [← BitVec.toNat_inj]
      simpa using Nat.mod_eq_zero_of_dvd he
    | jmp | je =>
      obtain ⟨_, hj, -⟩ := Option.bind_eq_some_iff.mp hd'
      obtain ⟨rfl, -⟩ : d' = 0 ∧ _ := by simpa [Instr.depth] using hj
      rfl
  simpa [hzero] using hsp

theorem Instr.Quiet.depth (h : i.Quiet changed) (hsp : .rsp ∉ changed) (d : Nat) :
    i.depth d = some d := by
  have hw : .rsp ∉ i.written := fun hm => hsp (h.written hm)
  cases i with
  | mov src dst =>
    cases dst with
    | reg r => exact if_neg fun he => hw (by simp [Instr.written, Loc.reg.inj he])
    | _ => exact h.elim
  | alu op src dst =>
    have hne : dst ≠ .rsp := fun he => hw (by simp [Instr.written, he])
    have hnone : (Line.code (.alu op src dst)).releases = none := by
      cases hr : (Line.code (.alu op src dst)).releases with
      | none => rfl
      | some n => cases eq_of_releases hr; exact absurd rfl hne
    simp [Instr.depth, hnone, hne]
  | lea base index dst => exact if_neg fun he => hw (by simp [Instr.written, he])
  | push | pop | jmp | je | call | ret => exact h.elim
  | cmp | set | imul | cqto | idiv => rfl

theorem Quiet.stackDepth (h : Quiet changed code) (hsp : .rsp ∉ changed) (d : Nat) :
    stackDepth d code = some d := by
  induction code with
  | nil => rfl
  | cons i code ih =>
    have h := List.forall_mem_cons.mp h
    exact Option.bind_eq_some_iff.mpr ⟨d, h.1.depth hsp d, ih h.2⟩

theorem stackDepth_pushes (locs : List Loc) (d : Nat) :
    stackDepth d (locs.map .push) = some (d + 8 * locs.length) := by
  induction locs generalizing d with
  | nil => rfl
  | cons l locs ih =>
    refine (ih (d + 8)).trans (congrArg some ?_)
    rw [List.length_cons]
    omega

theorem stackDepth_pops {regs : List Reg} (h : .rsp ∉ regs) (d : Nat) :
    stackDepth (d + 8 * regs.length) (regs.map fun r => .pop (.reg r)) = some d := by
  induction regs with
  | nil => rfl
  | cons r regs ih =>
    rw [List.mem_cons, not_or] at h
    have hpop : (Instr.pop (.reg r)).depth (d + 8 * (r :: regs).length) =
        some (d + 8 * regs.length) := by
      have hle : 8 ≤ d + 8 * (r :: regs).length := by rw [List.length_cons]; omega
      rw [Instr.depth, if_pos ⟨hle, fun he => h.1 (Loc.reg.inj he).symm⟩, List.length_cons]
      congr 1
    exact Option.bind_eq_some_iff.mpr ⟨_, hpop, ih h.2⟩

/-- The callee's arguments are taken off the stack, as far as a word can count their bytes. -/
theorem stackDepth_release (args : List Loc) (d : Nat) :
    stackDepth (d + 8 * (args.drop Reg.args.length).length) (Sequence.release args) =
      some (d + 2 ^ 64 * (8 * (args.drop Reg.args.length).length / 2 ^ 64)) := by
  unfold Sequence.release
  split
  · next hnil =>
    rw [List.isEmpty_iff] at hnil
    rw [hnil]
    rfl
  · have hbytes : (Sequence.stackedBytes args).toNat =
        8 * (args.drop Reg.args.length).length % 2 ^ 64 := BitVec.toNat_ofNat ..
    have hdepth (e : Nat) : stackDepth e [.alu .add (.imm (Sequence.stackedBytes args)) .rsp] =
        if (Sequence.stackedBytes args).toNat ≤ e then
          some (e - (Sequence.stackedBytes args).toNat) else none := by
      simp [stackDepth, Instr.depth, Line.releases]
    rw [hdepth, hbytes, if_pos (by omega)]
    congr 1
    omega

end

/-! ## Code of a point -/

/-- The code leaves nothing on the stack. A word cannot count the bytes of `2 ^ 61` arguments or
more, so of so many some would be left. -/
def Neutral (operands : Nat) (code : List Instr) : Prop :=
  ∃ d, stackDepth 0 code = some d ∧ 2 ^ 64 ∣ d ∧ (operands < 2 ^ 61 → d = 0)

theorem neutral_of_zero {code : List Instr} (h : stackDepth 0 code = some 0) (operands : Nat) :
    Neutral operands code := ⟨0, h, Nat.dvd_zero _, fun _ => rfl⟩

namespace Context

variable {c : Context} {s s' : State} {n m : Nat} {p : Point} {i : IrAsm.Instr} {code : List Instr}
  {r : Reg} {x : String}

/-- What the code of a point is made of: it computes, or ends in a jump, or stores, or is that of a
call. -/
theorem code_cases (h : c.select s n i = .ok (s', code)) :
    (∃ changed, (∀ r ∈ changed, r ∈ Reg.scratch ∨ ∃ x, c.colored x = .ok r) ∧ Quiet changed code) ∨
    (∃ test t, Quiet Reg.scratch test ∧ (code = test ++ [.jmp t] ∨ code = test ++ [.je t])) ∨
    (∃ pre src dst, Quiet Reg.scratch pre ∧ dst.isMemory ∧ code = pre ++ Sequence.move src dst) ∨
    c.selectCall s n i = .ok (s', code) := by
  have hnil : ∀ r ∈ ([] : List Reg), r ∈ Reg.scratch ∨ ∃ x, c.colored x = .ok r := by simp
  by_cases hop : i.opcode ∈ [.br, .call, .ret, .store, .alloca]
  · simp only [List.mem_cons, List.not_mem_nil, or_false] at hop
    rcases hop with hop | hop | hop | hop | hop <;> rw [select, hop] at h
    · obtain ⟨-, ⟨l, k, -, -, rfl⟩ | ⟨cond, l, e, loc, -, -, -, rfl | ⟨v, -, rfl⟩⟩⟩ :=
        selectBranch_ok h
      · split
        · exact .inl ⟨[], hnil, by simp [Quiet]⟩
        · exact .inr (.inl ⟨[], _, by simp [Quiet], .inl rfl⟩)
      · obtain ⟨test, htest, hq⟩ := Sequence.exists_quiet_jumpIfZero loc (c.blockLabel e)
        exact .inr (.inl ⟨test, _, hq, .inr htest⟩)
      · split
        · exact .inr (.inl ⟨[], _, by simp [Quiet], .inl rfl⟩)
        · exact .inl ⟨[], hnil, by simp [Quiet]⟩
    · exact .inr (.inr (.inr h))
    · obtain ⟨-, value, rfl, hvalue⟩ := selectRet_cases h
      refine .inr (.inl ⟨value, _, ?_, .inl rfl⟩)
      rcases hvalue with rfl | ⟨_, loc, -, rfl⟩ <;> simp [Quiet, Instr.Quiet, Reg.scratch]
    · obtain ⟨_, _, _, -, ⟨_, _, -, -, rfl⟩ | ⟨-, -, src, pre, dst, -, hm, rfl⟩⟩ := selectStore_ok h
      · exact .inl ⟨[], hnil, by simp [Quiet]⟩
      · refine .inr (.inr (.inl ⟨pre, src, dst, quiet_memory (by decide) hm, ?_, rfl⟩))
        rcases memory_ok hm with ⟨_, _, -, -, -, rfl⟩ | ⟨_, -, rfl, -⟩ <;> rfl
    · cases h
      exact .inl ⟨[], hnil, by simp [Quiet]⟩
  · obtain ⟨x, dst, -, hx, hq⟩ := computing_of_select hop h
    refine .inl ⟨_, fun r hr => ?_, hq⟩
    rcases List.mem_cons.mp hr with rfl | hr
    · exact .inr ⟨x, hx⟩
    · exact .inl hr

theorem ne_rsp_of_colored (h : c.colored x = .ok r) : r ≠ .rsp := fun he =>
  absurd (he ▸ mem_palette_of_colored h) (by decide)

theorem stackDepth_move {dst : Loc} (src : Loc) (h : dst.isMemory) (d : Nat) :
    stackDepth d (Sequence.move src dst) = some d := by
  have hdst : dst ≠ .reg .rsp := by rintro rfl; cases h
  unfold Sequence.move
  split
  · simp [stackDepth, Instr.depth, hdst]
  · simp [stackDepth, Instr.depth, hdst]

/-- A call takes off the stack what it puts there. -/
theorem neutral_selectCall (h : c.selectCall s n i = .ok (s', code)) :
    Neutral i.operands.length code := by
  obtain ⟨args, callee, tail, hargs, -, rfl, htail⟩ := selectCall_ok h
  have hlen : args.length ≤ i.operands.length := by
    rw [← (mapM_ok_iff.mp hargs).length_eq, List.length_dropLast]
    omega
  have hsave : stackDepth 0 ((c.preserved s n i).map fun r => .push (.reg r)) =
      some (8 * (c.preserved s n i).length) := by
    have hpush := stackDepth_pushes ((c.preserved s n i).map .reg) 0
    rwa [List.map_map, List.length_map, Nat.zero_add] at hpush
  have hmov : Quiet Reg.args ((args.zip Reg.args).map fun x => .mov x.1 (.reg x.2)) := by
    rw [Quiet, List.forall_mem_map]
    exact fun x hx => (List.of_mem_zip hx).2
  have hpop : stackDepth (2 ^ 64 * (8 * (args.drop Reg.args.length).length / 2 ^ 64) +
      8 * (c.preserved s n i).reverse.length)
        ((c.preserved s n i).reverse.map fun r => .pop (.reg r)) =
      some (2 ^ 64 * (8 * (args.drop Reg.args.length).length / 2 ^ 64)) :=
    stackDepth_pops (fun hm => rsp_not_mem_preserved (List.mem_reverse.mp hm)) _
  have htail (d : Nat) : stackDepth d tail = some d := by
    rcases htail with ⟨-, rfl⟩ | ⟨dst, hd, rfl⟩
    · rfl
    · obtain ⟨x, -, hx⟩ := dest_ok_iff.mp hd
      have hq : Quiet [dst] [.mov (.reg .rax) (.reg dst)] := by simp [Quiet, Instr.Quiet]
      exact hq.stackDepth (by simpa using (ne_rsp_of_colored hx).symm) d
  refine ⟨2 ^ 64 * (8 * (args.drop Reg.args.length).length / 2 ^ 64), ?_, Nat.dvd_mul_right .., ?_⟩
  · rw [List.length_reverse, Nat.add_comm] at hpop
    simp only [Sequence.call_eq, List.append_assoc, List.cons_append, stackDepth_append,
      stackDepth_cons, hsave, hmov.stackDepth (by decide), stackDepth_pushes, List.length_reverse,
      Instr.depth, stackDepth_release, hpop, htail, Option.bind_some]
  · intro hops
    rw [List.length_drop, Nat.div_eq_of_lt (by omega), Nat.mul_zero]

theorem neutral_of_select (h : c.select s n i = .ok (s', code)) :
    Neutral i.operands.length code := by
  rcases code_cases h with ⟨changed, hchanged, hq⟩ | ⟨test, t, hq, hcode⟩ |
    ⟨pre, src, dst, hq, hdst, rfl⟩ | h
  · refine neutral_of_zero (hq.stackDepth (fun hsp => ?_) 0) _
    rcases hchanged _ hsp with hsp | ⟨x, hx⟩
    · exact absurd hsp (by decide)
    · exact ne_rsp_of_colored hx rfl
  · refine neutral_of_zero ?_ _
    rcases hcode with rfl | rfl <;> rw [stackDepth_append, hq.stackDepth (by decide)] <;> rfl
  · refine neutral_of_zero ?_ _
    rw [stackDepth_append, hq.stackDepth (by decide), Option.bind_some, stackDepth_move src hdst]
  · exact neutral_selectCall h

/-! ## Saved registers -/

/-- What is colored is saved, also if only the colors in use are. -/
theorem mem_saved_of_colored
    (hfind : Coloring.find c.flow.interference c.flow.temporaries c.config.registers =
      .ok c.coloring)
    (h : c.colored x = .ok r) : r ∈ c.saved := by
  obtain ⟨k, hk, hr⟩ := Option.bind_eq_some_iff.mp (colored_ok_iff.mp h)
  have hlt : k < if c.config.optimize then c.coloring.colorsNeeded else c.config.registers := by
    split
    · exact (Coloring.contiguous_of_find Flow.adj_symm hfind).lt_colorsNeeded hk
    · exact (Flow.proper_of_find hfind).lt hk
  have hget : c.saved[k]? = some r := (List.getElem?_take_of_lt hlt).trans hr
  exact List.mem_of_getElem? hget

/-- Of the palette the instruction writes saved registers only. -/
def Saves (c : Context) (i : Instr) : Prop := ∀ r ∈ i.written, r ∈ Reg.palette → r ∈ c.saved

section
variable (hfind : Coloring.find c.flow.interference c.flow.temporaries c.config.registers =
  .ok c.coloring)
include hfind

theorem saves_of_quiet {changed : List Reg} (hq : Quiet changed code)
    (hchanged : ∀ r ∈ changed, r ∈ Reg.palette → ∃ x, c.colored x = .ok r) :
    ∀ j ∈ code, c.Saves j := by
  intro j hj r hr hpal
  obtain ⟨x, hx⟩ := hchanged r ((hq j hj).written hr) hpal
  exact mem_saved_of_colored hfind hx

theorem saves_of_quiet_scratch (hq : Quiet Reg.scratch code) : ∀ j ∈ code, c.Saves j :=
  saves_of_quiet hfind hq fun _ hr hpal => absurd hr (Reg.not_mem_scratch hpal)

theorem saves_paramCopies : ∀ j ∈ c.paramCopies, c.Saves j := by
  rw [paramCopies_eq, List.forall_mem_map]
  intro x hx r hr hpal
  obtain rfl := List.mem_singleton.mp hr
  obtain ⟨p, -, hcol⟩ := mem_copies.mp hx
  exact mem_saved_of_colored hfind hcol

theorem saves_selectCall (h : c.selectCall s n i = .ok (s', code)) : ∀ j ∈ code, c.Saves j := by
  obtain ⟨args, callee, tail, -, -, rfl, htail⟩ := selectCall_ok h
  have hpush (l : Loc) : c.Saves (.push l) := fun r hr hpal => by
    obtain rfl := List.mem_singleton.mp hr
    exact absurd hpal (by decide)
  have hmov : ∀ x ∈ args.zip Reg.args, c.Saves (.mov x.1 (.reg x.2)) := fun x hx r hr hpal => by
    obtain rfl := List.mem_singleton.mp hr
    exact absurd hpal (Reg.not_mem_palette_of_args (List.of_mem_zip hx).2)
  have hrel : ∀ j ∈ Sequence.release args, c.Saves j := by
    unfold Sequence.release
    split
    · simp
    · rw [List.forall_mem_singleton]
      intro r hr hpal
      obtain rfl := List.mem_singleton.mp hr
      exact absurd hpal (by decide)
  have hpop : ∀ q ∈ (c.preserved s n i).reverse, c.Saves (.pop (.reg q)) := fun q hq r hr hpal => by
    obtain ⟨-, x, -, -, hx⟩ := mem_preserved.mp (List.mem_reverse.mp hq)
    rcases List.mem_cons.mp hr with rfl | hr
    · exact absurd hpal (by decide)
    · obtain rfl := List.mem_singleton.mp hr
      exact mem_saved_of_colored hfind (colored_of_register hx)
  have htail : ∀ j ∈ tail, c.Saves j := by
    rcases htail with ⟨-, rfl⟩ | ⟨dst, hd, rfl⟩
    · simp
    · obtain ⟨x, -, hx⟩ := dest_ok_iff.mp hd
      rw [List.forall_mem_singleton]
      intro r hr hpal
      obtain rfl := List.mem_singleton.mp hr
      exact mem_saved_of_colored hfind hx
  rw [Sequence.call_eq]
  simp only [List.forall_mem_append, List.forall_mem_cons, List.forall_mem_map]
  have hcall : c.Saves (.call callee) := fun r hr => absurd hr List.not_mem_nil
  exact ⟨⟨fun _ _ => hpush _, hmov, fun _ _ => hpush _, hcall, hrel, hpop⟩, htail⟩

theorem saves_of_select (h : c.select s n i = .ok (s', code)) : ∀ j ∈ code, c.Saves j := by
  rcases code_cases h with ⟨changed, hchanged, hq⟩ | ⟨test, t, hq, hcode⟩ |
    ⟨pre, src, dst, hq, hdst, rfl⟩ | h
  · refine saves_of_quiet hfind hq fun r hr hpal => (hchanged r hr).resolve_left ?_
    exact Reg.not_mem_scratch hpal
  · have hjump : ∀ j, j = Instr.jmp t ∨ j = .je t → c.Saves j := by
      rintro j (rfl | rfl) r hr <;> cases hr
    have htest := saves_of_quiet_scratch hfind hq
    rcases hcode with rfl | rfl
    · exact List.forall_mem_append.mpr ⟨htest, List.forall_mem_singleton.mpr (hjump _ (.inl rfl))⟩
    · exact List.forall_mem_append.mpr ⟨htest, List.forall_mem_singleton.mpr (hjump _ (.inr rfl))⟩
  · refine List.forall_mem_append.mpr ⟨saves_of_quiet_scratch hfind hq, fun j hj r hr hpal => ?_⟩
    have hsp : r = .rsp := by
      unfold Sequence.move at hj
      cases dst with
      | imm | reg => cases hdst
      | _ =>
        split at hj
        · rcases List.mem_pair.mp hj with rfl | rfl <;> exact List.mem_singleton.mp hr
        · rw [List.mem_singleton.mp hj] at hr
          cases hr
    exact absurd (hsp ▸ hpal) (by decide)
  · exact saves_selectCall hfind h

end

/-- What holds of the code of an instruction. -/
structure Disciplined (c : Context) (i : IrAsm.Instr) (code : List Instr) : Prop where
  neutral : Neutral i.operands.length code
  saves : ∀ j ∈ code, c.Saves j
  rsp : ∀ {top cpu o cpu'}, Completes top code cpu o cpu' → cpu'.regs .rsp = cpu.regs .rsp
  regs : ∀ j ∈ code, ∀ {cpu cpu'}, j.exec cpu = some cpu' → ∀ r ∈ Reg.palette, r ∉ c.saved →
    cpu'.regs r = cpu.regs r

theorem disciplined_of_neutral (hn : Neutral i.operands.length code) (hs : ∀ j ∈ code, c.Saves j) :
    c.Disciplined i code where
  neutral := hn
  saves := hs
  rsp h := by
    obtain ⟨d, hd, hdvd, -⟩ := hn
    exact rsp_of_completes h hd hdvd
  regs j hj _ _ hexec r hpal hr := Instr.regs_exec hexec fun hw => hr (hs j hj r hw hpal)

end Context

/-! ## Lines of a point -/

def Line.instr? : Line → Option Instr
  | .code i => some i
  | _ => none

def codeOf (lines : List Line) : List Instr := lines.filterMap Line.instr?

theorem codeOf_append (lines lines' : List Line) :
    codeOf (lines ++ lines') = codeOf lines ++ codeOf lines' := List.filterMap_append ..

theorem codeOf_map_code (code : List Instr) : codeOf (code.map .code) = code := by
  rw [codeOf, List.filterMap_map]
  exact List.filterMap_some

theorem codeOf_of_silent {lines : List Line} (h : ∀ line ∈ lines, line.isSilent) :
    codeOf lines = [] := by
  refine List.filterMap_eq_nil_iff.mpr fun line hline => ?_
  cases line with
  | code i => cases h _ hline
  | _ => rfl

/-- Lines that the passes delete put nothing on the stack and take nothing off it. -/
theorem depth_of_shape {i : Instr} {d e : Nat} (hs : (Line.code i).shape ≠ .other)
    (h : i.depth d = some e) : e = d := by
  cases i with
  | mov src dst =>
    simp only [Instr.depth, Option.ite_none_left_eq_some, Option.some.injEq] at h
    exact h.2.symm
  | jmp | je =>
    simp only [Instr.depth, Option.ite_none_right_eq_some, Option.some.injEq] at h
    omega
  | _ => exact absurd rfl hs

theorem stackDepth_roundAfter {lines : List Line} {d e : Nat}
    (h : stackDepth d (codeOf lines) = some e) (afterJump : Bool) :
    stackDepth d (codeOf (Peephole.roundAfter Line.shape afterJump lines)) = some e := by
  induction lines generalizing d afterJump with
  | nil => exact h
  | cons line rest ih =>
    rw [Peephole.roundAfter_cons, codeOf_append]
    cases line with
    | code i =>
      obtain ⟨d', hd', hrest⟩ := Option.bind_eq_some_iff.mp h
      split
      · next hdel =>
        have hne : (Line.code i).shape ≠ .other := by
          rcases hdel with hs | ⟨hs, -⟩ <;> simp [hs]
        obtain rfl := depth_of_shape hne hd'
        exact ih hrest _
      · exact Option.bind_eq_some_iff.mpr ⟨d', hd', ih hrest _⟩
    | _ =>
      split
      · exact ih h _
      · exact ih h _

namespace Context

variable {c : Context} {s : State} {n m : Nat} {p : Point} {i : IrAsm.Instr} {code : List Instr}
  {lines : List Line}

/-- The lines of the points from `m` on, point by point. -/
theorem exists_pieces {c : Context} {s : State} {m : Nat} {lines : List Line} (hs : c.StateAt m s)
    (hm : m ≤ c.flow.points.length)
    (h : c.emitPoints s (c.flow.points.zipIdx.drop m) = .ok lines) :
    ∃ pieces : List (List Line), lines = pieces.flatten ∧ m + pieces.length = c.flow.points.length ∧
      ∀ n piece, pieces[n]? = some piece → ∃ p code, c.flow.points[m + n]? = some p ∧
        c.CodeAt (m + n) code ∧ piece = c.heading (m + n) p.instr ++ code.map .code := by
  by_cases hlt : m < c.flow.points.length
  · have hp : c.flow.points[m]? = some c.flow.points[m] := List.getElem?_eq_getElem hlt
    rw [drop_zipIdx hp] at h
    obtain ⟨s', code, tail, hsel, htail, rfl⟩ := emitPoints_cons.mp h
    obtain ⟨pieces, rfl, hlen, hall⟩ := exists_pieces (hs.succ hp hsel) hlt htail
    refine ⟨(c.heading m c.flow.points[m].instr ++ code.map .code) :: pieces, by simp, ?_, ?_⟩
    · rw [List.length_cons]
      omega
    · intro n piece hn
      cases n with
      | zero =>
        obtain rfl := Option.some.inj hn
        exact ⟨_, code, hp, ⟨_, s, s', hp, hs, hsel⟩, rfl⟩
      | succ n =>
        obtain ⟨p, code, hp', hcode, rfl⟩ := hall n piece hn
        rw [show m + (n + 1) = m + 1 + n by omega]
        exact ⟨p, code, hp', hcode, rfl⟩
  · rw [List.drop_eq_nil_of_le (by simpa using hlt)] at h
    cases h
    exact ⟨[], rfl, by rw [List.length_nil]; omega, fun n piece hn => by simp at hn⟩
termination_by c.flow.points.length - m

theorem shape_epilogue (c : Context) : ∀ line ∈ c.epilogue, line.shape = .other := by
  have hpop : ∀ r ∈ c.saved.reverse, (Line.code (.pop (.reg r))).shape = .other := fun _ _ => rfl
  rw [epilogue, List.forall_mem_cons, List.forall_mem_map, exitCode, List.forall_mem_append,
    List.forall_mem_map]
  exact ⟨rfl, hpop, by simp [Line.shape]⟩

/-- The passes leave the prologue and the epilogue as they are, and something of the lines of each
point. -/
theorem exists_runAll_pieces (c : Context) (pieces : List (List Line)) :
    ∃ pieces' : List (List Line),
      Peephole.runAll Line.shape (c.prologue ++ (pieces.flatten ++ c.epilogue)) =
        c.prologue ++ (pieces'.flatten ++ c.epilogue) ∧
      List.Forall₂ (fun piece' piece => ∃ b, piece' = Peephole.roundAfter Line.shape b piece)
        pieces' pieces := by
  obtain ⟨pieces', hpieces, hall⟩ :=
    Peephole.exists_roundAfter_flatten (c.prologue.foldl (Peephole.jumped Line.shape) false) pieces
  refine ⟨pieces', ?_, hall⟩
  rw [Peephole.runAll_eq_round]
  refine (Peephole.roundAfter_append false _ _).trans ?_
  rw [Peephole.roundAfter_append, Peephole.roundAfter_of_other c.shape_prologue, hpieces,
    Peephole.roundAfter_of_other c.shape_epilogue]

end Context

/-! ## Functions -/

def Instr.pushed? : Instr → Option Reg
  | .push (.reg r) => some r
  | _ => none

def Instr.popped? : Instr → Option Reg
  | .pop (.reg r) => some r
  | _ => none

namespace Context

theorem pushed_entryCode (c : Context) : c.entryCode.filterMap Instr.pushed? = .rbp :: c.saved := by
  have hpush : (c.saved.map fun r => Instr.push (.reg r)).filterMap Instr.pushed? = c.saved := by
    rw [List.filterMap_map]
    exact List.filterMap_some
  have hcopies : c.paramCopies.filterMap Instr.pushed? = [] := by
    rw [paramCopies_eq, List.filterMap_map]
    exact List.filterMap_eq_nil_iff.mpr fun _ _ => rfl
  rw [entryCode, List.filterMap_append, List.filterMap_append, hpush, hcopies, List.append_nil]
  rfl

theorem popped_exitCode (c : Context) :
    c.exitCode.filterMap Instr.popped? = (.rbp :: c.saved).reverse := by
  have hpop : (c.saved.reverse.map fun r => Instr.pop (.reg r)).filterMap Instr.popped? =
      c.saved.reverse := by
    rw [List.filterMap_map]
    exact List.filterMap_some
  rw [exitCode, List.filterMap_append, hpop, List.reverse_cons]
  rfl

/-- The lines of a point, and what the passes leave of them. -/
def Settled (c : Context) (n : Nat) (piece : List Line) : Prop :=
  ∃ p code, c.flow.points[n]? = some p ∧ c.CodeAt n code ∧
    piece.Sublist (c.heading n p.instr ++ code.map .code) ∧ c.Disciplined p.instr code ∧
    c.Disciplined p.instr (codeOf piece)

theorem codeOf_point (c : Context) (n : Nat) (i : IrAsm.Instr) (code : List Instr) :
    codeOf (c.heading n i ++ code.map .code) = code := by
  rw [codeOf_append, codeOf_of_silent (c.isSilent_heading _ _), codeOf_map_code, List.nil_append]

section
variable {c : Context} {n : Nat} {p : Point} {code : List Instr}
  (hfind : Coloring.find c.flow.interference c.flow.temporaries c.config.registers = .ok c.coloring)
  (hp : c.flow.points[n]? = some p) (hcode : c.CodeAt n code)
include hfind hp hcode

theorem disciplined_of_codeAt : c.Disciplined p.instr code := by
  obtain ⟨q, s, s', hq, -, hsel⟩ := hcode
  obtain rfl := Option.some.inj (hp.symm.trans hq)
  exact disciplined_of_neutral (neutral_of_select hsel) (saves_of_select hfind hsel)

theorem settled_of_codeAt : c.Settled n (c.heading n p.instr ++ code.map .code) := by
  have hdisc := disciplined_of_codeAt hfind hp hcode
  exact ⟨p, code, hp, hcode, .refl _, hdisc, (c.codeOf_point n p.instr code).symm ▸ hdisc⟩

theorem settled_of_roundAfter (afterJump : Bool) : c.Settled n
    (Peephole.roundAfter Line.shape afterJump (c.heading n p.instr ++ code.map .code)) := by
  have hdisc := disciplined_of_codeAt hfind hp hcode
  have hsub : (Peephole.roundAfter Line.shape afterJump
      (c.heading n p.instr ++ code.map .code)).Sublist _ := Peephole.sublist_roundAfter ..
  refine ⟨p, code, hp, hcode, hsub, hdisc, disciplined_of_neutral ?_ fun j hj => ?_⟩
  · obtain ⟨d, hd, hrest⟩ := hdisc.neutral
    rw [← c.codeOf_point n p.instr code] at hd
    exact ⟨d, stackDepth_roundAfter hd afterJump, hrest⟩
  · exact hdisc.saves j (c.codeOf_point n p.instr code ▸ (hsub.filterMap _).subset hj)

end

end Context

end X86

namespace Function

/-- The lines of a compiled function are a prologue, the lines of each point in order, and an
epilogue. The epilogue pops what the prologue pushes, in reverse order. The code of a point leaves
nothing on the stack, never goes below where it started and jumps only if nothing is left there,
before the passes and after them. Of the palette neither it nor the copies of the parameters write a
register that is not saved. -/
theorem stack_disciplined {f : Function} {config : Config} {out : CompiledFunction}
    (h : f.compile config = .ok out) :
    ∃ (c : X86.Context) (pieces : List (List X86.Line)), c.function = f ∧ c.config = config ∧
      f.analyze = .ok (c.flow, c.liveness, c.flow.interference) ∧ out.report.coloring = c.coloring ∧
      out.lines = c.prologue ++ (pieces.flatten ++ c.epilogue) ∧
      c.saved = X86.Reg.saved
        (if config.optimize then out.report.coloring.colorsNeeded else config.registers) ∧
      c.entryCode.filterMap X86.Instr.pushed? = .rbp :: c.saved ∧
      c.exitCode.filterMap X86.Instr.popped? = (.rbp :: c.saved).reverse ∧
      (∀ j ∈ c.paramCopies, c.Saves j) ∧ pieces.length = c.flow.points.length ∧
      ∀ n piece, pieces[n]? = some piece → c.Settled n piece := by
  obtain ⟨c, rfl, rfl, -, -, ha, -, hfind, hcol, lines, hl, hout⟩ := compile_ok h
  obtain ⟨body, hb, rfl⟩ := X86.Context.emit_ok hl
  obtain ⟨pieces, rfl, hlen, hall⟩ :=
    X86.Context.exists_pieces .zero (Nat.zero_le _) hb
  simp only [Nat.zero_add] at hlen hall
  have hsaved : c.saved = X86.Reg.saved (if c.config.optimize then out.report.coloring.colorsNeeded
      else c.config.registers) := by
    rw [hcol]
    rfl
  have hcopies := X86.Context.saves_paramCopies hfind
  split at hout
  · obtain ⟨pieces', hrun, hleft⟩ := c.exists_runAll_pieces pieces
    refine ⟨c, pieces', rfl, rfl, ha, hcol, hout.trans hrun, hsaved, c.pushed_entryCode,
      c.popped_exitCode, hcopies, hleft.length_eq.trans hlen, fun n piece hn => ?_⟩
    obtain ⟨hlt, rfl⟩ := List.getElem?_eq_some_iff.mp hn
    have hlt' : n < pieces.length := hleft.length_eq ▸ hlt
    obtain ⟨b, hb⟩ := hleft.get hlt hlt'
    obtain ⟨p, code, hp, hcode, hpiece⟩ := hall n _ (List.getElem?_eq_getElem hlt')
    rw [List.get_eq_getElem, List.get_eq_getElem, hpiece] at hb
    exact hb ▸ X86.Context.settled_of_roundAfter hfind hp hcode b
  · refine ⟨c, pieces, rfl, rfl, ha, hcol, hout, hsaved, c.pushed_entryCode,
      c.popped_exitCode, hcopies, hlen, fun n piece hn => ?_⟩
    obtain ⟨p, code, hp, hcode, rfl⟩ := hall n piece hn
    exact X86.Context.settled_of_codeAt hfind hp hcode

/-- A function that passes two arguments on the stack, with a parameter that it reads after the
call. -/
def spread : Function where
  name := "f"
  ret := .int 64
  params := [⟨"a", .int 64⟩]
  blocks := [⟨none, [
    ⟨.call, [.reg "a", .imm 1, .imm 2, .imm 3, .imm 4, .reg "a", .callee "g"], some "b", .int 64⟩,
    ⟨.arith .add, [.reg "a", .reg "b"], some "c", .int 64⟩,
    ⟨.ret, [.reg "c"], none, .int 64⟩]⟩]

theorem stack_disciplined_spread :
    ∃ (out : CompiledFunction) (c : X86.Context) (pieces : List (List X86.Line)),
      spread.compile {} = .ok out ∧ c.function = spread ∧
      out.lines = c.prologue ++ (pieces.flatten ++ c.epilogue) ∧ c.saved = [.r8, .r9] ∧
      ∃ piece, pieces[0]? = some piece ∧ c.Settled 0 piece := by
  have heval : (spread.compile {}).toOption.map (fun out => out.report.coloring.colorsNeeded) =
      some 2 := by
    decide +kernel
  simp only [Option.map_eq_some_iff, toOption_eq_some_iff] at heval
  obtain ⟨out, hout, hcolors⟩ := heval
  have hpoints : spread.analyze.toOption.map (fun x => x.1.points.length) = some 3 := by
    decide +kernel
  obtain ⟨c, pieces, hf, -, ha, -, hlines, hsaved, -, -, -, hlen, hall⟩ := stack_disciplined hout
  simp only [ha, Except.toOption, Option.map_some, Option.some.injEq] at hpoints
  have hget : pieces[0]? = some pieces[0] := List.getElem?_eq_getElem (by omega)
  refine ⟨out, c, pieces, hout, hf, hlines, ?_, _, hget, hall 0 _ hget⟩
  rw [hsaved, hcolors]
  rfl

end Function

end IrAsm
