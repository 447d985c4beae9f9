import IrAsm.Proofs.X86.Machine
import IrAsm.X86.Sequence

/-!
# What the code sequences compute

Each sequence leaves the value of its operation in the result register, whichever places the
operands are in and whether or not they share that register. It changes nothing else but scratch
registers and the flags.
-/

namespace IrAsm.X86

/-- The registers that sequences use besides those of their operands. -/
def Reg.scratch : List Reg := [.rax, .rcx, .rdx]

theorem Reg.not_mem_scratch {r : Reg} (h : r ∈ palette) : r ∉ scratch := by
  revert r; decide

theorem Reg.ne_rbp {r : Reg} (h : r ∈ palette ++ scratch) : r ≠ .rbp := by
  revert r; decide

namespace Loc

/-- The places of operands. -/
def IsOperand : Loc → Prop
  | .reg r => r ∈ Reg.palette
  | .indirect _ => False
  | _ => True

/-- What is read at this place does not depend on `r`. -/
def Avoids (l : Loc) (r : Reg) : Prop :=
  match l with
  | .reg q | .indirect q => q ≠ r
  | .frame _ => r ≠ .rbp
  | _ => True

theorem IsOperand.avoids_scratch {l : Loc} {r : Reg} (h : l.IsOperand) (hr : r ∈ Reg.scratch) :
    l.Avoids r := by
  cases l with
  | reg q => exact fun he => Reg.not_mem_scratch h (he ▸ hr)
  | indirect q => exact h.elim
  | frame d => exact Reg.ne_rbp (List.mem_append_right _ hr)
  | _ => trivial

theorem IsOperand.avoids {l : Loc} {r : Reg} (h : l.IsOperand) (hr : r ∈ Reg.palette)
    (hne : l ≠ .reg r) : l.Avoids r := by
  cases l with
  | reg q => exact fun he => hne (congrArg Loc.reg he)
  | indirect q => exact h.elim
  | frame d => exact Reg.ne_rbp (List.mem_append_left _ hr)
  | _ => trivial

end Loc

namespace Cpu

/-- `c'` differs from `c` in no more than flags and the registers `changed`. -/
structure Keeps (c c' : Cpu) (changed : List Reg) : Prop where
  regs : ∀ r ∉ changed, c'.regs r = c.regs r
  mem : c'.mem = c.mem
  globals : c'.globals = c.globals

namespace Keeps

variable {c c' : Cpu} {changed : List Reg}

theorem refl (c : Cpu) (changed : List Reg) : c.Keeps c changed := ⟨fun _ _ => rfl, rfl, rfl⟩

theorem trans {d : Cpu} (h : c.Keeps c' changed) (h' : c'.Keeps d changed) :
    c.Keeps d changed where
  regs r hr := (h'.regs r hr).trans (h.regs r hr)
  mem := h'.mem.trans h.mem
  globals := h'.globals.trans h.globals

theorem setReg (h : c.Keeps c' changed) {r : Reg} (w : Word) (hr : r ∈ changed) :
    c.Keeps (c'.setReg r w) changed where
  regs q hq := by
    have hne : q ≠ r := fun he => hq (he ▸ hr)
    simp [hne, h.regs q hq]
  mem := h.mem
  globals := h.globals

theorem mono {more : List Reg} (h : c.Keeps c' changed) (hsub : changed ⊆ more) :
    c.Keeps c' more := ⟨fun r hr => h.regs r fun hmem => hr (hsub hmem), h.mem, h.globals⟩

theorem withFlags (h : c.Keeps c' changed) (fl : Option Flags) :
    c.Keeps { c' with flags := fl } changed := ⟨h.regs, h.mem, h.globals⟩

end Keeps

theorem read_setReg {c : Cpu} {l : Loc} {r : Reg} (w : Word) (h : l.Avoids r) :
    (c.setReg r w).read l = c.read l := by
  cases l with
  | reg q => simp [show q ≠ r from h]
  | indirect q => simp [read, load, show q ≠ r from h]
  | frame d => simp [read, load, (show r ≠ .rbp from h).symm]
  | _ => rfl

end Cpu

@[simp] theorem exec_mov_reg (c : Cpu) (src : Loc) (dst : Reg) :
    (Instr.mov src (.reg dst)).exec c = some (c.setReg dst (c.read src)) := by
  simp [Instr.exec, Loc.isMemory, Cpu.write]

@[simp] theorem exec_alu (c : Cpu) (op : Alu) (src : Loc) (dst : Reg) :
    (Instr.alu op src dst).exec c =
      some { c.setReg dst (op.eval (c.regs dst) (c.read src)).1 with
        flags := some (op.eval (c.regs dst) (c.read src)).2 } := rfl

@[simp] theorem exec_cqto (c : Cpu) :
    Instr.cqto.exec c = some (c.setReg .rdx (if (c.regs .rax).msb then -1 else 0)) := rfl

@[simp] theorem exec_cmp_reg (c : Cpu) (src : Loc) (r : Reg) :
    (Instr.cmp src (.reg r)).exec c =
      some { c with flags := some (.ofSub (c.regs r) (c.read src)) } := by
  simp [Instr.exec, Loc.isMemory]

theorem exec_set {c : Cpu} {fl : Flags} (p : Predicate) (hfl : c.flags = some fl)
    (hrax : c.regs .rax = 0) :
    (Instr.set p).exec c = some (c.setReg .rax (if fl.holds p then 1 else 0)) := by
  have hbyte (b : Bool) : (0 : Word).extractLsb' 8 56 ++ (if b then 1#8 else 0#8) =
      if b then 1 else 0 := by
    cases b <;> rfl
  rw [Instr.exec, hfl, hrax, Option.map_some, hbyte]

/-- Leaves `w` in `dst`, and changes nothing else but scratch registers and flags. -/
def Computes (code : List Instr) (dst : Reg) (w : Word) (c : Cpu) : Prop :=
  ∃ c', run code c = some c' ∧ c'.regs dst = w ∧ c.Keeps c' (dst :: Reg.scratch)

namespace Sequence

variable {c : Cpu} {lhs rhs : Loc} {dst : Reg} {w : Word}

theorem computes_move (src : Loc) (dst : Reg) (c : Cpu) :
    Computes (move src (.reg dst)) dst (c.read src) c := by
  have h : move src (.reg dst) = [.mov src (.reg dst)] := by simp [move, Loc.isMemory]
  refine ⟨c.setReg dst (c.read src), by simp [h], by simp, ?_⟩
  exact (Cpu.Keeps.refl c _).setReg _ List.mem_cons_self

/-- An operation on a copy of its first operand. The second one is read once the copy is made. -/
theorem computes_mov_alu (op : Alu) (src src' : Loc)
    (h : (c.setReg dst (c.read src)).read src' = c.read src') :
    Computes [.mov src (.reg dst), .alu op src' dst] dst
      (op.eval (c.read src) (c.read src')).1 c := by
  simp only [Computes, run_cons, run_nil, exec_mov_reg, exec_alu, Option.bind_some,
    Option.some.injEq, exists_eq_left']
  refine ⟨by simp [h], Cpu.Keeps.withFlags ?_ _⟩
  exact ((Cpu.Keeps.refl c _).setReg _ List.mem_cons_self).setReg _ List.mem_cons_self

theorem computes_commutative (op : Alu) (hcomm : ∀ x y, (op.eval x y).1 = (op.eval y x).1)
    (hr : rhs.IsOperand) (hd : dst ∈ Reg.palette) :
    Computes (commutative op lhs rhs dst) dst (op.eval (c.read lhs) (c.read rhs)).1 c := by
  by_cases h : rhs = .reg dst
  · subst h
    rw [commutative, if_pos rfl, hcomm]
    exact computes_mov_alu _ _ _ (by simp)
  · rw [commutative, if_neg h]
    exact computes_mov_alu _ _ _ (Cpu.read_setReg _ (hr.avoids hd h))

/-- Code that starts with a move to a scratch register. -/
theorem computes_cons_mov {code : List Instr} {src : Loc} {r : Reg} (hr : r ∈ Reg.scratch)
    (h : Computes code dst w (c.setReg r (c.read src))) :
    Computes (.mov src (.reg r) :: code) dst w c := by
  obtain ⟨c', hrun, hw, hk⟩ := h
  refine ⟨c', by simpa using hrun, hw, ?_⟩
  exact ((Cpu.Keeps.refl c _).setReg _ (List.mem_cons_of_mem _ hr)).trans hk

theorem computes_subtract (hl : lhs.IsOperand) (hr : rhs.IsOperand) (hd : dst ∈ Reg.palette) :
    Computes (subtract lhs rhs dst) dst (c.read lhs - c.read rhs) c := by
  by_cases h : rhs = .reg dst
  · subst h
    rw [subtract, if_pos rfl]
    apply computes_cons_mov (by decide)
    have hne : Reg.rax ≠ dst := fun he => Reg.not_mem_scratch hd (he ▸ by decide)
    have hl' := Cpu.read_setReg (c := c) (c.regs dst) (hl.avoids_scratch (r := .rax) (by decide))
    have hsub : Computes _ dst _ (c.setReg .rax (c.regs dst)) :=
      computes_mov_alu .sub lhs (.reg .rax) (by simp [hne])
    simpa [Alu.eval, hl'] using hsub
  · rw [subtract, if_neg h]
    exact computes_mov_alu _ _ _ (Cpu.read_setReg _ (hr.avoids hd h))

/-- Multiplication and division put the first operand into `%rax`, and a second one that is an
immediate into `%rcx`. -/
theorem exists_staged (lhs : Loc) (hr : rhs.IsOperand) (c : Cpu) :
    ∃ d, run ([.mov lhs (.reg .rax)] ++ (stageImm .rcx rhs).1) c = some d ∧ c.Keeps d Reg.scratch ∧
      (∀ v, (stageImm .rcx rhs).2 ≠ .imm v) ∧ (stageImm .rcx rhs).2.Avoids .rdx ∧
      d.regs .rax = c.read lhs ∧ d.read (stageImm .rcx rhs).2 = c.read rhs := by
  have hk : c.Keeps (c.setReg .rax (c.read lhs)) Reg.scratch :=
    (Cpu.Keeps.refl c _).setReg _ (by decide)
  by_cases hv : ∃ v, rhs = .imm v
  · obtain ⟨v, rfl⟩ := hv
    exact ⟨(c.setReg .rax (c.read lhs)).setReg .rcx v, by simp [stageImm], hk.setReg _ (by decide),
      nofun, nofun, by simp, by simp [stageImm]⟩
  · rw [not_exists] at hv
    have hs : stageImm .rcx rhs = ([], rhs) := by
      cases rhs with
      | imm v => exact absurd rfl (hv v)
      | _ => rfl
    rw [hs]
    exact ⟨_, by simp, hk, hv, hr.avoids_scratch (by decide), by simp,
      Cpu.read_setReg _ (hr.avoids_scratch (by decide))⟩

theorem computes_staged (tail : Loc → List Instr) (hr : rhs.IsOperand)
    (h : ∀ (d : Cpu) (l : Loc), (∀ v, l ≠ .imm v) → l.Avoids .rdx → d.regs .rax = c.read lhs →
      d.read l = c.read rhs → Computes (tail l) dst w d) :
    Computes ([.mov lhs (.reg .rax)] ++ (stageImm .rcx rhs).1 ++ tail (stageImm .rcx rhs).2)
      dst w c := by
  obtain ⟨d, hrun, hk, hv, hl, hx, hy⟩ := exists_staged lhs hr c
  obtain ⟨c', hrun', hw, hk'⟩ := h d _ hv hl hx hy
  refine ⟨c', ?_, hw, (hk.mono fun _ => List.mem_cons_of_mem _).trans hk'⟩
  rw [run_append, hrun]
  exact hrun'

/-- Code that ends in a move from a scratch register. -/
theorem computes_append_mov {code : List Instr} {c' : Cpu} (r : Reg) (hrun : run code c = some c')
    (hk : c.Keeps c' Reg.scratch) (hw : c'.regs r = w) :
    Computes (code ++ [.mov (.reg r) (.reg dst)]) dst w c := by
  refine ⟨c'.setReg dst (c'.regs r), by simp [run_append, hrun], by simp [hw], ?_⟩
  exact (hk.mono fun _ => List.mem_cons_of_mem _).setReg _ List.mem_cons_self

theorem setWidth_mul_signExtend (x y : Word) :
    (x.signExtend 128 * y.signExtend 128).setWidth 64 = x * y := by
  have h (x : Word) : (x.signExtend 128).setWidth 64 = x := by
    ext i hi
    rw [BitVec.getElem_setWidth, BitVec.getLsbD_signExtend, BitVec.getLsbD_eq_getElem hi]
    simp [hi, Nat.lt_trans hi (by decide : 64 < 128)]
  rw [BitVec.setWidth_mul _ _ (by decide), h, h]

theorem computes_multiply (hr : rhs.IsOperand) :
    Computes (multiply lhs rhs dst) dst (c.read lhs * c.read rhs) c := by
  refine computes_staged (fun l => [Instr.imul l] ++ [Instr.mov (.reg .rax) (.reg dst)]) hr ?_
  intro d l hv _ hx hy
  have himul : ∃ e, run [.imul l] d =
      some { (d.setReg .rax (d.regs .rax * d.read l)).setReg .rdx e with flags := none } := by
    rw [← setWidth_mul_signExtend]
    cases l with
    | imm v => exact absurd rfl (hv v)
    | _ => exact ⟨_, rfl⟩
  obtain ⟨e, himul⟩ := himul
  refine computes_append_mov .rax himul (.withFlags ?_ _) (by simp [hx, hy])
  exact ((Cpu.Keeps.refl d _).setReg _ (by decide)).setReg _ (by decide)

/-- The dividend that `cqto` makes. -/
theorem toInt_sign_append (x : Word) :
    ((if x.msb then -1 else 0 : Word) ++ x).toInt = x.toInt := by
  have h : (if x.msb then -1 else 0 : Word) ++ x = x.signExtend 128 :=
    (BitVec.signExtend_eq_append_of_le (by decide)).symm
  rw [h, BitVec.toInt_signExtend_of_le (by decide)]

theorem divide_sign (hx : c.regs .rdx = if (c.regs .rax).msb then -1 else 0) {y : Word}
    (hf : Word.divFaults (c.regs .rax) y = false) :
    c.divide y = some { (c.setReg .rax ((c.regs .rax).sdiv y)).setReg .rdx ((c.regs .rax).srem y)
      with flags := none } := by
  simp only [Word.divFaults, Bool.or_eq_false_iff, beq_eq_false_iff_ne] at hf
  obtain ⟨hy, hf⟩ := hf
  have hne : c.regs .rax ≠ BitVec.intMin 64 ∨ y ≠ -1#64 := by
    simpa [Decidable.or_iff_not_imp_left] using hf
  have hq := BitVec.toInt_sdiv_of_ne_or_ne _ _ hne
  rw [Cpu.divide, hx, toInt_sign_append, ← hq, BitVec.ofInt_toInt,
    if_neg (not_or.mpr ⟨hy, fun h => h rfl⟩), ← BitVec.toInt_srem, BitVec.ofInt_toInt]

theorem divide_eq_none (hx : c.regs .rdx = if (c.regs .rax).msb then -1 else 0) {y : Word}
    (hf : Word.divFaults (c.regs .rax) y = true) : c.divide y = none := by
  rw [Cpu.divide, hx, toInt_sign_append]
  simp only [Word.divFaults, Bool.or_eq_true, beq_iff_eq, Bool.and_eq_true] at hf
  rcases hf with hy | ⟨hmin, rfl⟩
  · exact if_pos (.inl hy)
  · rw [hmin]
    exact if_pos (.inr (by decide))

theorem run_cqto_idiv {l : Loc} (hv : ∀ v, l ≠ .imm v) (hl : l.Avoids .rdx)
    (hf : Word.divFaults (c.regs .rax) (c.read l) = false) :
    ∃ c', run [.cqto, .idiv l] c = some c' ∧ c.Keeps c' Reg.scratch ∧
      c'.regs .rax = (c.regs .rax).sdiv (c.read l) ∧
      c'.regs .rdx = (c.regs .rax).srem (c.read l) := by
  have hidiv (d : Cpu) : (Instr.idiv l).exec d = d.divide (d.read l) := by
    cases l with
    | imm v => exact absurd rfl (hv v)
    | _ => rfl
  have hrun : run [.cqto, .idiv l] c =
      (c.setReg .rdx (if (c.regs .rax).msb then -1 else 0)).divide (c.read l) := by
    simp only [run_cons, exec_cqto, Option.bind_some, hidiv, Cpu.read_setReg _ hl]
    exact Option.bind_fun_some _
  rw [divide_sign (by simp) (by simpa using hf)] at hrun
  refine ⟨_, hrun, .withFlags ?_ _, by simp, by simp⟩
  exact (((Cpu.Keeps.refl c _).setReg _ (by decide)).setReg _ (by decide)).setReg _ (by decide)

theorem computes_divide {half : Reg} (hr : rhs.IsOperand)
    (hf : Word.divFaults (c.read lhs) (c.read rhs) = false)
    (hw : ∀ d : Cpu, d.regs .rax = (c.read lhs).sdiv (c.read rhs) →
      d.regs .rdx = (c.read lhs).srem (c.read rhs) → d.regs half = w) :
    Computes (divide half lhs rhs dst) dst w c := by
  refine computes_staged (fun l => [Instr.cqto, .idiv l] ++ [.mov (.reg half) (.reg dst)]) hr ?_
  intro d l hv hl hx hy
  rw [← hx, ← hy] at hf hw
  obtain ⟨d', hrun, hk, hq, hm⟩ := run_cqto_idiv hv hl hf
  exact computes_append_mov half hrun hk (hw d' hq hm)

/-- Arithmetic that does not fault. -/
theorem computes_arith {op : Arith} (hl : lhs.IsOperand) (hr : rhs.IsOperand)
    (hd : dst ∈ Reg.palette) (h : op.eval? (c.read lhs) (c.read rhs) = some w) :
    Computes (arith op lhs rhs dst) dst w c := by
  cases op with
  | add =>
    cases h
    exact computes_commutative .add (fun x y => BitVec.add_comm x y) hr hd
  | or =>
    cases h
    exact computes_commutative .or (fun x y => BitVec.or_comm x y) hr hd
  | and =>
    cases h
    exact computes_commutative .and (fun x y => BitVec.and_comm x y) hr hd
  | sub =>
    cases h
    exact computes_subtract hl hr hd
  | mul =>
    cases h
    exact computes_multiply hr
  | sdiv =>
    simp only [Arith.eval?, Word.div?, Option.ite_none_left_eq_some, Bool.not_eq_true,
      Option.some.injEq] at h
    exact computes_divide hr h.1 fun d hq _ => hq.trans h.2
  | srem =>
    simp only [Arith.eval?, Word.rem?, Option.ite_none_left_eq_some, Bool.not_eq_true,
      Option.some.injEq] at h
    exact computes_divide hr h.1 fun d _ hm => hm.trans h.2

theorem computes_set_mov {p : Predicate} {test : List Instr} {d : Cpu} (hrun : run test c = some d)
    (hk : c.Keeps d Reg.scratch) (hrax : d.regs .rax = 0)
    (hfl : d.flags = some (.ofSub (c.read lhs) (c.read rhs))) :
    Computes (test ++ [.set p, .mov (.reg .rax) (.reg dst)]) dst
      (p.eval (c.read lhs) (c.read rhs)) c := by
  have hset := exec_set p hfl hrax
  rw [Flags.holds_ofSub] at hset
  rw [show [Instr.set p, .mov (.reg .rax) (.reg dst)] = [.set p] ++ [.mov (.reg .rax) (.reg dst)]
    from rfl, ← List.append_assoc]
  have hrun' : run (test ++ [.set p]) c =
      some (d.setReg .rax (p.eval (c.read lhs) (c.read rhs))) := by
    simp [run_append, hrun, hset, Predicate.eval]
  exact computes_append_mov .rax hrun' (hk.setReg _ (by decide)) (by simp)

theorem computes_compare {p : Predicate} (hl : lhs.IsOperand) (hr : rhs.IsOperand) :
    Computes (compare p lhs rhs dst) dst (p.eval (c.read lhs) (c.read rhs)) c := by
  have hread (w : Word) : (c.setReg .rax w).read rhs = c.read rhs :=
    Cpu.read_setReg w (hr.avoids_scratch (by decide))
  by_cases hq : ∃ q, lhs = .reg q
  · obtain ⟨q, rfl⟩ := hq
    have hne : q ≠ .rax := hl.avoids_scratch (by decide)
    have hrun : run [.mov (.imm 0) (.reg .rax), .cmp rhs (.reg q)] c =
        some { c.setReg .rax 0 with flags := some (.ofSub (c.regs q) (c.read rhs)) } := by
      simp [hread, hne]
    exact computes_set_mov hrun (((Cpu.Keeps.refl c _).setReg _ (by decide)).withFlags _) rfl rfl
  · have htest : compare p lhs rhs dst =
        [.mov lhs (.reg .rax), .cmp rhs (.reg .rax), .mov (.imm 0) (.reg .rax)] ++
          [.set p, .mov (.reg .rax) (.reg dst)] := by
      cases lhs with
      | reg q => exact absurd ⟨q, rfl⟩ hq
      | _ => rfl
    have hrun : run [.mov lhs (.reg .rax), .cmp rhs (.reg .rax), .mov (.imm 0) (.reg .rax)] c =
        some (Cpu.setReg { c.setReg .rax (c.read lhs) with
          flags := some (.ofSub (c.read lhs) (c.read rhs)) } .rax 0) := by
      simp [hread]
    have hk :=
      ((Cpu.Keeps.refl c Reg.scratch).setReg (r := .rax) (c.read lhs) (by decide)).withFlags
        (some (.ofSub (c.read lhs) (c.read rhs)))
    rw [htest]
    exact computes_set_mov hrun (hk.setReg _ (by decide)) rfl rfl

/-- A conditional jump is `je` after code that compares the condition with zero. -/
theorem exists_jumpIfZero (cond : Loc) (target : Label) (c : Cpu) :
    ∃ code c' fl, jumpIfZero cond target = code ++ [.je target] ∧ run code c = some c' ∧
      c.Keeps c' Reg.scratch ∧ c'.flags = some fl ∧ fl.zero = (c.read cond == 0) := by
  by_cases hv : ∃ v, cond = .imm v
  · obtain ⟨v, rfl⟩ := hv
    have hk := ((Cpu.Keeps.refl c Reg.scratch).setReg (r := .rax) v (by decide)).withFlags
      (some (.ofSub v 0))
    exact ⟨[.mov (.imm v) (.reg .rax), .cmp (.imm 0) (.reg .rax)], _, _, rfl, by simp, hk, rfl,
      Flags.zero_ofSub v 0⟩
  · have hcode : jumpIfZero cond target = [.cmp (.imm 0) cond] ++ [.je target] := by
      cases cond with
      | imm v => exact absurd ⟨v, rfl⟩ hv
      | _ => rfl
    have hcmp : (Instr.cmp (.imm 0) cond).exec c =
        some { c with flags := some (.ofSub (c.read cond) 0) } := by
      cases cond with
      | imm v => exact absurd ⟨v, rfl⟩ hv
      | _ => rfl
    exact ⟨_, _, _, hcode, by rw [run_cons, hcmp]; rfl, (Cpu.Keeps.refl c _).withFlags _, rfl,
      Flags.zero_ofSub _ 0⟩

/-- A conditional jump is taken if the condition is zero. -/
theorem runs_jumpIfZero {prog lines : List Line} {cond : Loc} {target : Label} {c : Cpu}
    (ht : c.read cond = 0 → target? prog target = some lines) (rest : List Line) :
    ∃ c', Runs prog ⟨c, (jumpIfZero cond target).map .code ++ rest⟩
        ⟨c', if c.read cond = 0 then lines else rest⟩ ∧ c.Keeps c' Reg.scratch := by
  obtain ⟨code, c', fl, hcode, hrun, hk, hfl, hzero⟩ := exists_jumpIfZero cond target c
  refine ⟨c', ?_, hk⟩
  rw [hcode, List.map_append, List.append_assoc]
  refine (Runs.code hrun).tail ?_
  by_cases hz : c.read cond = 0
  · simp [step, hfl, hzero, hz, ht hz]
  · rw [if_neg hz]
    simp [step, hfl, hzero.trans (beq_eq_false_iff_ne.mpr hz)]

end Sequence

end IrAsm.X86
