import IrAsm.Proofs.X86.Displacements
import IrAsm.Proofs.X86.Locals
import IrAsm.Proofs.X86.Stack

/-!
# What a function gives back

Of the parts of a frame, code names those of the locals and the arguments only. The others hold what
belongs to the caller (`Entrusted`): the prologue pushes its frame pointer and the saved registers,
and the return address is there already. No point stores to these words, and none changes a register
that a callee has to keep, unless it is saved (`Restorable`). So a run that has come from the entry
of a function to its return gives back `%rsp`, `%rbp`, the saved registers and all others that it
has to keep.
-/

namespace IrAsm

namespace X86

/-! ## Pushes and pops -/

section
variable {top : Word} {c d : Cpu} {regs : List Reg}

/-- When all registers are pushed, each is in the word of its push. -/
theorem load_saves (hroom : c.Room top regs.length) (hsp : .rsp ∉ regs)
    (h : run (regs.map fun r => .push (.reg r)) c = some d) {k : Nat} {r : Reg}
    (hk : regs[k]? = some r) :
    d.load (c.regs .rsp - BitVec.ofNat 64 (8 * (k + 1))) = c.regs r := by
  induction regs generalizing c k with
  | nil => cases hk
  | cons q regs ih =>
    rw [List.mem_cons, not_or] at hsp
    rw [List.map_cons, run_cons, exec_push, Option.bind_some, Cpu.read_reg] at h
    have hroom' : (c.push (c.regs q)).Room top regs.length := hroom.push _
    cases k with
    | zero =>
      cases hk
      exact Cpu.load_pushed hroom (spares_saves hroom' h).1
    | succ k =>
      have hr : r ≠ .rsp := fun he => hsp.2 (he ▸ List.mem_of_getElem? hk)
      have hword : c.regs .rsp - BitVec.ofNat 64 (8 * (k + 1 + 1)) =
          (c.push (c.regs q)).regs .rsp - BitVec.ofNat 64 (8 * (k + 1)) := by
        rw [Cpu.rsp_push]
        bv_omega
      rw [hword, ih hroom' hsp.2 h hk]
      exact (Cpu.spares_push hroom (c.regs q)).regs r hr

/-- Pops where the stack has the value of each register. -/
theorem restored_of_pops {value : Reg → Word} (hsp : .rsp ∉ regs)
    (hvalue : ∀ k r, regs[k]? = some r → c.load (c.regs .rsp + BitVec.ofNat 64 (8 * k)) = value r)
    (h : run (regs.map fun r => .pop (.reg r)) c = some d) :
    d.mem = c.mem ∧ (∀ r ∈ regs, d.regs r = value r) ∧
      ∀ r, r ∉ regs → r ≠ .rsp → d.regs r = c.regs r := by
  induction regs generalizing c with
  | nil =>
    cases h
    exact ⟨rfl, by simp, fun _ _ _ => rfl⟩
  | cons q regs ih =>
    rw [List.mem_cons, not_or] at hsp
    rw [List.map_cons, run_cons, exec_pop_reg, Option.bind_some] at h
    have hfirst : c.load (c.regs .rsp) = value q := by simpa using hvalue 0 q rfl
    generalize hpop : (c.setReg .rsp (c.regs .rsp + 8)).setReg q (c.load (c.regs .rsp)) = c' at h
    have hsp' : c'.regs .rsp = c.regs .rsp + 8 := by simp [← hpop, hsp.1]
    have hrest : ∀ k r, regs[k]? = some r →
        c'.load (c'.regs .rsp + BitVec.ofNat 64 (8 * k)) = value r := by
      intro k r hk
      have hword : c.regs .rsp + 8 + BitVec.ofNat 64 (8 * k) =
          c.regs .rsp + BitVec.ofNat 64 (8 * (k + 1)) := by
        bv_omega
      rw [hsp', hword, ← hvalue (k + 1) r hk, ← hpop]
      rfl
    obtain ⟨hmem, hin, hout⟩ := ih hsp.2 hrest h
    refine ⟨by rw [hmem, ← hpop]; rfl, fun r hr => ?_, fun r hr hne => ?_⟩
    · by_cases hr' : r ∈ regs
      · exact hin r hr'
      · obtain rfl : r = q := (List.mem_cons.mp hr).resolve_right hr'
        rw [hout r hr' (Ne.symm hsp.1), ← hpop, Cpu.regs_setReg, if_pos rfl, hfirst]
    · rw [List.mem_cons, not_or] at hr
      rw [hout r hr.2 hne, ← hpop, Cpu.regs_setReg, if_neg hr.1, Cpu.regs_setReg, if_neg hne]

end

theorem ofInt_neg_eight_mul (j : Nat) :
    BitVec.ofInt 64 (-(8 * (j : Int))) = -BitVec.ofNat 64 (8 * j) := by
  rw [BitVec.ofInt_neg, ← BitVec.ofInt_natCast, Int.natCast_mul]
  rfl

namespace Context

variable {c : Context} {cpu e e' : Cpu} {past : List (Nat × Cpu)} {n : Nat} {code : List Instr}
  {o : Option Label} {part : Region} {d : Int} {w : Word}

/-! ## The words of the caller -/

/-- A function that is called in `cpu` has the word `w` of its caller at displacement `d`, in the
given part of the frame. -/
inductive Entrusted (c : Context) (cpu : Cpu) : Region → Int → Word → Prop where
  | framePointer : c.Entrusted cpu .framePointer 0 (cpu.regs .rbp)
  | returnAddress : c.Entrusted cpu .returnAddress 8 (cpu.load (cpu.regs .rsp))
  | savedRegister {k : Nat} {r : Reg} : c.saved[k]? = some r →
      c.Entrusted cpu .savedRegisters (-(8 * (c.flow.allocas.length + k + 1 : Nat))) (cpu.regs r)

theorem Entrusted.region (hlen : c.flow.allocas.length = c.function.locals.length)
    (h : c.Entrusted cpu part d w) {b : Int} (hlo : d ≤ b) (hhi : b < d + 8) :
    Region.ofByte c.function b = part := by
  unfold Region.ofByte
  cases h with
  | framePointer => rw [if_neg (by omega), if_neg (by omega), if_pos (by omega)]
  | returnAddress =>
    rw [if_neg (by omega), if_neg (by omega), if_neg (by omega), if_pos (by omega)]
  | savedRegister _ => rw [if_pos (by omega)]

/-- Down to `%rsp` these parts of the frame have no other words. -/
theorem exists_entrusted (hlen : c.flow.allocas.length = c.function.locals.length) (cpu : Cpu)
    {b : Int} (hlo : -(c.bytesBelow : Int) ≤ b)
    (hb : Region.ofByte c.function b ∈ [.framePointer, .returnAddress, .savedRegisters]) :
    ∃ d w, d ≤ b ∧ b < d + 8 ∧ c.Entrusted cpu (Region.ofByte c.function b) d w := by
  unfold Region.ofByte at *
  split_ifs at * with hsaved hlocal hpointer hreturn hargument
  · -- the byte is `8 * (k + 1)` below the slots at most, and more than `8 * k`
    unfold bytesBelow at hlo
    obtain ⟨k, hk, hk'⟩ : ∃ k : Nat, -(8 * (c.flow.allocas.length + k + 1 : Nat) : Int) ≤ b ∧
        b < -(8 * (c.flow.allocas.length + k + 1 : Nat) : Int) + 8 :=
      ⟨((-b - 1) / 8 - c.flow.allocas.length).toNat, by omega, by omega⟩
    have hlt : k < c.saved.length := by omega
    exact ⟨_, _, hk, hk', .savedRegister (List.getElem?_eq_getElem hlt)⟩
  · simp at hb
  · exact ⟨0, _, by omega, by omega, .framePointer⟩
  · exact ⟨8, _, by omega, by omega, .returnAddress⟩
  · simp at hb
  · simp at hb

theorem Entrusted.inFrame (h : c.Entrusted cpu part d w) : c.InFrame d := by
  have hargs : 16 ≤ c.bytesAbove := Nat.le_add_right ..
  cases h with
  | framePointer => exact ⟨by omega, by omega, by omega⟩
  | returnAddress => exact ⟨by omega, by omega, by omega⟩
  | @savedRegister k r hk =>
    have hlt : k < c.saved.length := (List.getElem?_eq_some_iff.mp hk).1
    refine ⟨by omega, ?_, by omega⟩
    unfold bytesBelow
    omega

/-- No store goes there. -/
theorem Entrusted.not_puts (h : c.Entrusted cpu part d w) (n : Nat) (loc : Loc) :
    ¬ c.Puts n d loc := by
  rintro ⟨x, -, hword⟩
  rcases (frameWord_of_wordAt hword).cases with ⟨k, hk, hle, hd⟩ | ⟨k, hk, -, hd⟩
  · cases h <;> omega
  · cases h <;> omega

theorem rsp_rbp_not_mem_saved : .rsp ∉ c.saved ∧ .rbp ∉ c.saved := by
  have hsub : c.saved ⊆ Reg.palette := List.take_subset ..
  exact ⟨fun h => absurd (hsub h) (by decide), fun h => absurd (hsub h) (by decide)⟩

section
variable {d₁ d₂ : Cpu} (hin : c.Enters cpu d₁ d₂ e)
include hin

theorem Enters.mem_eq : e.mem = d₂.mem := (c.quiet_paramCopies.run hin.copies).mem

theorem Enters.load_framePointer (hfits : c.Fits 1) :
    e.load (cpu.regs .rsp - 8) = cpu.regs .rbp := by
  have hspares := (spares_saves hin.room hin.saves).1
  have hload : e.load (cpu.regs .rsp - 8) =
      (cpu.push (cpu.regs .rbp)).load (cpu.regs .rsp - 8) := by
    refine Cpu.load_congr fun b hb => ?_
    rw [hin.mem_eq, hspares.mem b ?_, hin.mem]
    rw [hin.rsp]
    unfold Fits bytesAbove bytesBelow at hfits
    unfold InWord at hb
    unfold Within stackTop
    generalize 8 * (c.function.params.length - Reg.args.length) = above at *
    generalize c.flow.allocas.length = slots at *
    bv_omega
  rw [hload]
  exact Cpu.load_store ..

theorem Enters.load_savedRegister {k : Nat} {r : Reg} (hk : c.saved[k]? = some r) :
    e.load (d₁.regs .rsp - BitVec.ofNat 64 (8 * (k + 1))) = cpu.regs r := by
  have hr := List.mem_of_getElem? hk
  have hload : e.load (d₁.regs .rsp - BitVec.ofNat 64 (8 * (k + 1))) =
      d₂.load (d₁.regs .rsp - BitVec.ofNat 64 (8 * (k + 1))) :=
    Cpu.load_congr fun b _ => congrFun hin.mem_eq b
  rw [hload, load_saves hin.room rsp_rbp_not_mem_saved.1 hin.saves hk]
  exact hin.regs r (fun he => rsp_rbp_not_mem_saved.1 (he ▸ hr))
    fun he => rsp_rbp_not_mem_saved.2 (he ▸ hr)

end

/-- The prologue puts the words of the caller where they belong. -/
theorem Entrusted.read_entry (hfits : c.Fits 1) (hrun : run c.entryCode cpu = some e)
    (h : c.Entrusted cpu part d w) : e.read (.frame d) = w := by
  obtain ⟨d₁, d₂, hin⟩ := exists_enters hfits hrun
  obtain ⟨-, hrbp, habove⟩ := framed_entryCode hfits hrun
  rw [Cpu.read, hrbp]
  cases h with
  | framePointer =>
    have hword : cpu.regs .rsp - 8 + BitVec.ofInt 64 0 = cpu.regs .rsp - 8 := by simp
    rw [hword, hin.load_framePointer hfits]
  | returnAddress =>
    have hword : cpu.regs .rsp - 8 + BitVec.ofInt 64 8 = cpu.regs .rsp := by bv_omega
    rw [hword]
    refine Cpu.load_congr fun b hb => habove b ?_
    have hb : InWord (cpu.regs .rsp + BitVec.ofNat 64 0) b := by simpa using hb
    unfold Fits bytesAbove at hfits
    exact within_of_inWord (by omega) (by omega) hb
  | @savedRegister k r hk =>
    have hword : cpu.regs .rsp - 8 +
        BitVec.ofInt 64 (-(8 * (c.flow.allocas.length + k + 1 : Nat))) =
          d₁.regs .rsp - BitVec.ofNat 64 (8 * (k + 1)) := by
      rw [ofInt_neg_eight_mul, hin.rsp, Nat.add_assoc, Nat.mul_add, BitVec.ofNat_add,
        BitVec.ofNat_add]
      generalize BitVec.ofNat 64 (8 * c.flow.allocas.length) = x
      generalize BitVec.ofNat 64 (8 * (k + 1)) = y
      bv_omega
    rw [hword, hin.load_savedRegister hk]

/-! ## Points -/

/-- From `e` the epilogue can give back what the function found when it was called in `cpu`. -/
structure Restorable (c : Context) (cpu e : Cpu) : Prop where
  framed : c.Framed (c.stackTop cpu) e
  words : ∀ {part d w}, c.Entrusted cpu part d w → e.read (.frame d) = w
  regs : ∀ r ∈ Reg.kept, r ≠ .rsp → r ≠ .rbp → r ∉ c.saved → e.regs r = cpu.regs r

section
variable (hc : c.Faithful) (hroom : c.Roomy)
  (hfind : Coloring.find c.flow.interference c.flow.temporaries c.config.registers = .ok c.coloring)
include hfind

theorem quiet_paramCopies_saved : Quiet c.saved c.paramCopies := by
  rw [Quiet, paramCopies_eq, List.forall_mem_map]
  intro x hx
  obtain ⟨p, -, hcol⟩ := mem_copies.mp hx
  exact mem_saved_of_colored hfind hcol

theorem restorable_entryCode (hfits : c.Fits 1) (hrun : run c.entryCode cpu = some e) :
    c.Restorable cpu e where
  framed := (framed_entryCode hfits hrun).1
  words h := h.read_entry hfits hrun
  regs r _ hsp hbp hr := by
    obtain ⟨d, d', hin⟩ := exists_enters hfits hrun
    rw [((quiet_paramCopies_saved hfind).run hin.copies).regs r hr,
      (spares_saves hin.room hin.saves).1.regs r hsp, hin.regs r hsp hbp]

include hroom

/-- No point touches what the epilogue relies on. -/
theorem Restorable.completes (h : c.Restorable cpu e) (hcode : c.CodeAt n code)
    (hcomp : Completes (c.stackTop cpu) code e o e') : c.Restorable cpu e' := by
  have ⟨p, s, s', hp, hs, hsel⟩ := hcode
  have hfits := hroom p (List.mem_of_getElem? hp)
  refine ⟨h.framed.completes hp hs hsel hfits hcomp, fun hw => ?_, fun r hkept hsp hbp hr => ?_⟩
  · rw [read_frame_of_not_puts hroom hw.inFrame h.framed hcode hcomp (hw.not_puts n), h.words hw]
  · have hclob : ¬ c.Clobbers s n p.instr r :=
      not_clobbers_of_kept hkept fun x hcol => hr (mem_saved_of_colored hfind hcol)
    rw [regs_of_completes hp hs hsel hfits h.framed hcomp hclob, h.regs r hkept hsp hbp hr]

include hc

theorem Executes.restorable (h : c.Executes cpu past n e) : c.Restorable cpu e := by
  induction h with
  | start hrun => exact restorable_entryCode hfind (hroom.fits hc) hrun
  | visit _ hcode hcomp _ ih => exact ih.completes hroom hfind hcode hcomp

theorem Finishes.restorable (h : c.Finishes cpu e) : c.Restorable cpu e := by
  cases h with
  | behind hex _ => exact hex.restorable hc hroom hfind
  | jump hex hcode hcomp =>
    exact (hex.restorable hc hroom hfind).completes hroom hfind hcode hcomp

end

/-! ## The epilogue -/

/-- The frame pointer is below the return address. -/
theorem Framed.rbp (h : c.Framed (c.stackTop cpu) e) : e.regs .rbp = cpu.regs .rsp - 8 := by
  have htop := h.top
  unfold stackTop bytesAbove at htop
  rw [BitVec.ofNat_add, BitVec.ofNat_add] at htop
  generalize BitVec.ofNat 64 (8 * (c.function.params.length - Reg.args.length)) = x at htop
  bv_omega

/-- The epilogue up to the return. -/
def restoringCode (c : Context) : List Instr :=
  c.saved.reverse.map (fun r => .pop (.reg r)) ++ [.mov (.reg .rbp) (.reg .rsp), .pop (.reg .rbp)]

/-- Each saved register is where the epilogue pops it. -/
theorem Restorable.load_saved (h : c.Restorable cpu e) {k : Nat} {r : Reg}
    (hk : c.saved.reverse[k]? = some r) :
    e.load (e.regs .rsp + BitVec.ofNat 64 (8 * k)) = cpu.regs r := by
  have hlt : k < c.saved.length := by simpa using (List.getElem?_eq_some_iff.mp hk).1
  rw [List.getElem?_reverse hlt] at hk
  have hword : e.regs .rbp +
      BitVec.ofInt 64 (-(8 * (c.flow.allocas.length + (c.saved.length - 1 - k) + 1 : Nat))) =
        e.regs .rsp + BitVec.ofNat 64 (8 * k) := by
    have hbelow : 8 * (c.flow.allocas.length + (c.saved.length - 1 - k) + 1) + 8 * k =
        c.bytesBelow := by
      unfold bytesBelow
      omega
    rw [ofInt_neg_eight_mul, h.framed.rsp, ← hbelow, BitVec.ofNat_add]
    generalize BitVec.ofNat 64 (8 * (c.flow.allocas.length + (c.saved.length - 1 - k) + 1)) = x
    generalize BitVec.ofNat 64 (8 * k) = y
    bv_omega
  rw [← hword]
  exact h.words (.savedRegister hk)

theorem Restorable.restores (h : c.Restorable cpu e) (hrun : run c.restoringCode e = some e') :
    (∀ r, r ∈ Reg.kept ∨ r ∈ c.saved → e'.regs r = cpu.regs r) ∧
      e'.load (e'.regs .rsp) = cpu.load (cpu.regs .rsp) := by
  obtain ⟨hsp, hbp⟩ : .rsp ∉ c.saved.reverse ∧ .rbp ∉ c.saved.reverse := by
    simpa using rsp_rbp_not_mem_saved
  rw [restoringCode, run_append] at hrun
  obtain ⟨b, hpops, hlast⟩ := Option.bind_eq_some_iff.mp hrun
  obtain ⟨hmem, hin, hout⟩ := restored_of_pops hsp (fun k r hk => h.load_saved hk) hpops
  have hrbp : b.regs .rbp = e.regs .rbp := hout .rbp hbp (by decide)
  have hload (a : Word) : b.load a = e.load a := Cpu.load_congr fun x _ => congrFun hmem x
  have hpointer : e.load (e.regs .rbp) = cpu.regs .rbp := by
    simpa [Cpu.read] using h.words .framePointer
  have haddress : e.load (e.regs .rbp + 8) = cpu.load (cpu.regs .rsp) := by
    simpa [Cpu.read] using h.words .returnAddress
  -- the slots are dropped, and the frame pointer of the caller is popped
  obtain rfl : ((b.setReg .rsp (b.regs .rbp)).setReg .rsp (b.regs .rbp + 8)).setReg .rbp
      ((b.setReg .rsp (b.regs .rbp)).load (b.regs .rbp)) = e' := by
    simpa using hlast
  refine ⟨fun r hr => ?_, ?_⟩
  · by_cases hr₁ : r = .rbp
    · rw [hr₁, Cpu.regs_setReg, if_pos rfl, ← hpointer, ← hrbp]
      exact hload _
    · by_cases hr₂ : r = .rsp
      · rw [hr₂, Cpu.regs_setReg, if_neg (by decide), Cpu.regs_setReg, if_pos rfl, hrbp,
          h.framed.rbp, BitVec.sub_add_cancel]
      · rw [Cpu.regs_setReg, if_neg hr₁, Cpu.regs_setReg, if_neg hr₂, Cpu.regs_setReg, if_neg hr₂]
        by_cases hs : r ∈ c.saved
        · exact hin r (List.mem_reverse.mpr hs)
        · rw [hout r (fun hm => hs (List.mem_reverse.mp hm)) hr₂]
          exact h.regs r (hr.resolve_right hs) hr₂ hr₁ hs
  · rw [Cpu.regs_setReg, if_neg (by decide), Cpu.regs_setReg, if_pos rfl, ← haddress, ← hrbp]
    exact hload _

/-- A run that has come to a return has done all of the epilogue before it. -/
theorem Stands.finishes_of_ret {rest : List Line} (h : c.Stands cpu ⟨e, .code .ret :: rest⟩) :
    ∃ b, c.Finishes cpu b ∧ run c.restoringCode b = some e := by
  generalize hlines : Line.code .ret :: rest = lines at h
  cases h with
  | silent hl _ =>
    cases hlines
    cases hl
  | @entry e i done later body hcode _ _ =>
    cases hlines
    have hdirect : Instr.ret.isDirect := c.isDirect_entryCode .ret (by simp [hcode])
    cases hdirect
  | @inside past n p s s' b e i code later tail _ _ _ hsel _ hpass =>
    cases hlines
    obtain ⟨d, hd, -, -⟩ := neutral_of_select hsel
    obtain ⟨d', hd', -⟩ := rsp_of_passes hpass hd
    cases hd'
  | @exit b e done later hfin hcode hrun =>
    obtain ⟨i, later, rfl, hi, -⟩ := List.map_eq_cons_iff.mp hlines.symm
    cases hi
    have hsplit : c.restoringCode ++ .ret :: [] = done ++ .ret :: later := by
      rw [← hcode, restoringCode, exitCode, List.append_assoc]
      rfl
    have hret : .ret ∉ c.restoringCode := by simp [restoringCode]
    obtain ⟨rfl, -⟩ := (List.append_cons_inj_of_notMem hret List.not_mem_nil).mp hsplit
    exact ⟨b, hfin, hrun⟩

end Context

end X86

namespace Function

/-- The coloring of a compilation was found for its interference graph. -/
theorem find_of_compile {f : Function} {config : Config} {out : CompiledFunction} {c : X86.Context}
    (h : f.compile config = .ok out)
    (ha : f.analyze = .ok (c.flow, c.liveness, c.flow.interference))
    (hcol : out.report.coloring = c.coloring) :
    Coloring.find c.flow.interference c.flow.temporaries config.registers = .ok c.coloring := by
  obtain ⟨c', rfl, rfl, -, -, ha', -, hfind, hcol', -⟩ := compile_ok h
  obtain ⟨hflow, -⟩ := Prod.mk.inj (Except.ok.inj (ha.symm.trans ha'))
  rw [hflow, ← hcol, hcol']
  exact hfind

section
variable {f : Function} {config : Config} {out : CompiledFunction} (hv : f.verify = .ok ())
  (hfits : f.Fits) (h : f.compile config = .ok out)
include hv hfits h

/-- The parts of the frame for the frame pointer, the return address and the saved registers consist
of the words of the caller, and have them when the prologue is done and at every later point. -/
theorem frame_holds_caller :
    ∃ c : X86.Context, c.function = f ∧ c.config = config ∧
      f.analyze = .ok (c.flow, c.liveness, c.flow.interference) ∧ out.report.coloring = c.coloring ∧
      ∀ cpu : X86.Cpu,
        (∀ part d w, c.Entrusted cpu part d w →
          ∀ b, d ≤ b → b < d + 8 → X86.Region.ofByte f b = part) ∧
        (∀ b, -(c.bytesBelow : Int) ≤ b →
          X86.Region.ofByte f b ∈ [.framePointer, .returnAddress, .savedRegisters] →
          ∃ d w, d ≤ b ∧ b < d + 8 ∧ c.Entrusted cpu (X86.Region.ofByte f b) d w) ∧
        (∀ e, X86.run c.entryCode cpu = some e →
          ∀ part d w, c.Entrusted cpu part d w → e.read (.frame d) = w) ∧
        ∀ past n e, c.Executes cpu past n e →
          ∀ part d w, c.Entrusted cpu part d w → e.read (.frame d) = w := by
  obtain ⟨c, hc, hroom, rfl, rfl, ha, hcol, -⟩ := exists_standing hv hfits h
  have hfind := find_of_compile h ha hcol
  obtain ⟨fl, hb, -, hfl⟩ := analyze_ok_iff.mp ha
  obtain rfl : c.flow = fl := congrArg Prod.fst hfl
  have hlen := (Flow.perm_locals hb).length_eq
  refine ⟨c, rfl, rfl, ha, hcol, fun cpu => ⟨?_, ?_, ?_, ?_⟩⟩
  · exact fun part d w hw b hlo hhi => hw.region hlen hlo hhi
  · exact fun b hlo hb => X86.Context.exists_entrusted hlen cpu hlo hb
  · exact fun e hrun part d w hw => hw.read_entry (hroom.fits hc) hrun
  · exact fun past n e hex part d w hw => (hex.restorable hc hroom hfind).words hw

/-- A run from the entry of a compiled function to its return gives back `%rsp`, `%rbp`, the saved
registers and all others that a callee has to keep, and finds the return address where it was. -/
theorem registers_restored :
    ∃ c : X86.Context, c.function = f ∧ c.config = config ∧
      f.analyze = .ok (c.flow, c.liveness, c.flow.interference) ∧ out.report.coloring = c.coloring ∧
      ∀ cpu e rest,
        X86.Steps (c.stackTop cpu) out.lines ⟨cpu, out.lines⟩ ⟨e, .code .ret :: rest⟩ →
        (∀ r, r ∈ X86.Reg.kept ∨ r ∈ c.saved → e.regs r = cpu.regs r) ∧
          e.load (e.regs .rsp) = cpu.load (cpu.regs .rsp) := by
  obtain ⟨c, hc, hroom, rfl, rfl, ha, hcol, hstands, -⟩ := exists_standing hv hfits h
  have hfind := find_of_compile h ha hcol
  refine ⟨c, rfl, rfl, ha, hcol, fun cpu e rest hsteps => ?_⟩
  obtain ⟨rest', hstand⟩ := hstands cpu e .ret rest hsteps
  obtain ⟨b, hfin, hrun⟩ := hstand.finishes_of_ret
  exact (hfin.restorable hc hroom hfind).restores hrun

end

end Function

end IrAsm
