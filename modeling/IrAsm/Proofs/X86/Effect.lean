import IrAsm.Proofs.X86.States

/-!
# What the code of a point does

The code of a point changes a word of the frame only if its instruction stores to a stack local
(`Stores`), and then it changes that word and no register. Otherwise it spares the stack and all
registers but scratch, that of the result, and those that a callee may change and the call does not
save (`Clobbers`).
-/

namespace IrAsm.X86.Context

variable {c : Context} {s s' : State} {n m : Nat} {p : Point} {i : IrAsm.Instr} {code : List Instr}
  {top : Word} {cpu cpu' : Cpu} {o : Option Label} {r : Reg} {x v : String} {loc : Loc} {d : Int}

/-! ## Calls -/

theorem mem_preserved : r ∈ c.preserved s n i ↔ r ∈ Reg.callerSaved ∧
    ∃ x ∈ c.liveness.outAt n, i.result ≠ some x ∧ c.register s x = .ok (.reg r) := by
  simp only [preserved, List.mem_filter, List.any_eq_true, Std.ExtTreeSet.mem_toList, isPreserved,
    Bool.and_eq_true, bne_iff_ne, beq_iff_eq, toOption_eq_some_iff, Liveness.outAt]

theorem rsp_not_mem_preserved : .rsp ∉ c.preserved s n i := fun h =>
  absurd (mem_preserved.mp h).1 (by decide)

theorem length_preserved_le : (c.preserved s n i).length ≤ Reg.callerSaved.length :=
  List.length_filter_le ..

/-- The registers that the code of an instruction may change. -/
inductive Clobbers (c : Context) (s : State) (n : Nat) (i : IrAsm.Instr) : Reg → Prop where
  | scratch {r : Reg} : r ∈ Reg.scratch → c.Clobbers s n i r
  | result {r : Reg} {x : String} : x ∈ i.writes → c.colored x = .ok r → c.Clobbers s n i r
  | call {r : Reg} : i.opcode = .call → r ∈ Reg.volatile → r ∉ c.preserved s n i →
      c.Clobbers s n i r

/-- A register that a callee keeps changes only if something is colored with it. -/
theorem not_clobbers_of_kept (hr : r ∈ Reg.kept) (hx : ∀ x, c.colored x ≠ .ok r) :
    ¬ c.Clobbers s n i r := by
  have hv : r ∉ Reg.volatile := (by decide : ∀ q ∈ Reg.kept, q ∉ Reg.volatile) r hr
  rintro (hs | ⟨-, hcol⟩ | ⟨-, hr', -⟩)
  · exact hv ((by decide : Reg.scratch ⊆ Reg.volatile) hs)
  · exact hx _ hcol
  · exact hv hr'

theorem not_clobbers_rsp : ¬ c.Clobbers s n i .rsp :=
  not_clobbers_of_kept (by decide) fun _ hcol => absurd (mem_palette_of_colored hcol) (by decide)

theorem not_clobbers_rbp : ¬ c.Clobbers s n i .rbp :=
  not_clobbers_of_kept (by decide) fun _ hcol => absurd (mem_palette_of_colored hcol) (by decide)

/-- What a call changes: what its callee may change and it does not save, and its result. -/
theorem spares_selectCall (hop : i.opcode = .call)
    (hfits : c.Fits (Reg.callerSaved.length + i.operands.length + 1))
    (hsel : c.selectCall s n i = .ok (s', code)) (hf : c.Framed top cpu)
    (h : Completes top code cpu o cpu') : o = none ∧ cpu.Spares top cpu' (c.Clobbers s n i) := by
  obtain ⟨args, callee, tail, hargs, -, rfl, htail⟩ := selectCall_ok hsel
  have hlen : args.length ≤ i.operands.length := by
    rw [← (mapM_ok_iff.mp hargs).length_eq, List.length_dropLast]
    omega
  have hroom : cpu.Room top ((c.preserved s n i).length + args.length) := by
    have := hf.room hfits
    have : (c.preserved s n i).length ≤ _ := length_preserved_le
    unfold Cpu.Room at *
    omega
  have hrel : released (tail.map .code) = 0 := by
    rcases htail with ⟨-, rfl⟩ | ⟨dst, -, rfl⟩ <;> rfl
  obtain ⟨e, hs, h⟩ := Sequence.spares_call hrel hroom rsp_not_mem_preserved h
  have hs : cpu.Spares top e (c.Clobbers s n i) := hs.mono fun r hr => .call hop hr.1 hr.2
  rcases htail with ⟨-, rfl⟩ | ⟨dst, hd, rfl⟩
  · obtain ⟨rfl, rfl⟩ := completes_nil.mp h
    exact ⟨rfl, hs⟩
  · obtain ⟨rfl, hrun⟩ := (completes_iff_run (by simp [Instr.isDirect])).mp h
    obtain rfl : e.setReg dst (e.regs .rax) = cpu' := by simpa using hrun
    obtain ⟨x, hx, hcol⟩ := dest_ok_iff.mp hd
    have hw : x ∈ i.writes := Flow.mem_writes_of_result (by simp [hop]) (by simp [hop]) hx
    refine ⟨rfl, fun r hr => ?_, hs.mem, hs.globals⟩
    have hne : r ≠ dst := fun he => hr (.result hw (he ▸ hcol))
    rw [Cpu.regs_setReg, if_neg hne]
    exact hs.regs r hr

/-! ## Results -/

/-- The code only computes, and leaves the value in the register of the result. -/
def Computing (c : Context) (i : IrAsm.Instr) (code : List Instr) : Prop :=
  ∃ x dst, x ∈ i.writes ∧ c.colored x = .ok dst ∧ Quiet (dst :: Reg.scratch) code

theorem computing_of_dest {dst : Reg} (hs : i.opcode ≠ .store) (hb : i.opcode ≠ .br)
    (hd : c.dest i = .ok dst) (hq : Quiet (dst :: Reg.scratch) code) : c.Computing i code := by
  obtain ⟨x, hx, hcol⟩ := dest_ok_iff.mp hd
  exact ⟨x, dst, Flow.mem_writes_of_result hs hb hx, hcol, hq⟩

theorem computing_selectPair {eval? : Word → Word → Option Word}
    {seq : Loc → Loc → Reg → List Instr}
    (hseq : ∀ lhs rhs dst, Quiet (dst :: Reg.scratch) (seq lhs rhs dst)) (hs : i.opcode ≠ .store)
    (hb : i.opcode ≠ .br) (h : c.selectPair s i eval? seq = .ok (s', code)) :
    c.Computing i code := by
  obtain ⟨_, _, _, lhs, rhs, dst, -, -, -, hd, hcode⟩ := selectPair_ok h
  refine computing_of_dest hs hb hd ?_
  rcases hcode with ⟨_, _, w, -, -, -, -, rfl⟩ | ⟨-, rfl⟩
  · simp [Quiet, Instr.Quiet]
  · exact hseq lhs rhs dst

theorem quiet_memory {changed : List Reg} (hrax : .rax ∈ changed) {a : Operand}
    (h : c.memory s a = .ok (code, loc)) : Quiet changed code := by
  rcases memory_ok h with ⟨_, _, -, -, rfl, -⟩ | ⟨l, rfl, -, -⟩
  · simp [Quiet]
  · exact Sequence.quiet_stage hrax l

theorem computing_of_select (hop : i.opcode ∉ [.br, .call, .ret, .store, .alloca])
    (h : c.select s n i = .ok (s', code)) : c.Computing i code := by
  have hs : i.opcode ≠ .store := fun he => hop (by simp [he])
  have hb : i.opcode ≠ .br := fun he => hop (by simp [he])
  cases hi : i.opcode with
  | arith op =>
    rw [select, hi] at h
    exact computing_selectPair (Sequence.quiet_arith op) hs hb h
  | icmp q =>
    rw [select, hi] at h
    exact computing_selectPair (Sequence.quiet_compare q) hs hb h
  | getelementptr =>
    rw [select, hi] at h
    obtain ⟨_, _, base, index, dst, -, -, hd, -, rfl⟩ := selectAddress_ok h
    exact computing_of_dest hs hb hd (Sequence.quiet_elementAddress base index dst)
  | bitcast =>
    rw [select, hi] at h
    obtain ⟨_, _, src, dst, -, -, hd, -, rfl⟩ := selectBitcast_ok h
    exact computing_of_dest hs hb hd (Sequence.quiet_move src dst)
  | load =>
    rw [select, hi] at h
    obtain ⟨_, _, pre, src, dst, -, hm, hd, -, rfl⟩ := selectLoad_ok h
    have hpre : Quiet (dst :: Reg.scratch) pre := quiet_memory (by simp [Reg.scratch]) hm
    exact computing_of_dest hs hb hd (hpre.append (Sequence.quiet_move src dst))
  | unsupported name => rw [select, hi] at h; cases h
  | _ => exact absurd (by simp [hi]) hop

/-! ## Stores -/

/-- The instruction at `n` stores what is at `loc` to the local `x`, and is no binding. -/
def Stores (c : Context) (n : Nat) (x : String) (loc : Loc) : Prop :=
  ∃ p s a rest, c.flow.points[n]? = some p ∧ c.StateAt n s ∧ p.instr.opcode = .store ∧
    p.instr.operands = a :: .reg x :: rest ∧ x ∈ c.flow.allocas ∧ c.binding? x p.instr = none ∧
    c.value s a = .ok loc

/-- The instruction at `n` stores what is at `loc` to the word at displacement `d`. -/
def Puts (c : Context) (n : Nat) (d : Int) (loc : Loc) : Prop :=
  ∃ x, c.Stores n x loc ∧ c.wordAt x n = some d

/-- Selection binds an argument where the text says. -/
theorem bound?_eq_some_iff_binding? (hs : c.StateAt n s) {a : Operand} {rest : List Operand}
    {index : Nat} (hop : i.opcode = .store) (hab : i.operands = a :: .reg x :: rest) :
    c.bound? s a (.reg x) = some (x, index) ↔
      x ∈ c.flow.allocas ∧ c.binding? x i = some index := by
  rw [bound?_eq_some_iff, binding?_eq_some_iff, hs.contains_iff]
  constructor
  · rintro ⟨arg, rfl, -, hx, hindex⟩; exact ⟨hx, hop, arg, rest, hab, hindex⟩
  · rintro ⟨hx, -, arg, rest', hops, hindex⟩
    obtain ⟨rfl, -⟩ : a = .reg arg ∧ _ := by simpa using hab.symm.trans hops
    exact ⟨arg, rfl, rfl, hx, hindex⟩

section
variable (hp : c.flow.points[n]? = some p) (hs : c.StateAt n s)
  (hsel : c.select s n p.instr = .ok (s', code)) (hroom : cpu.Room top 1)
  (h : Completes top code cpu o cpu')
include hp hs hsel hroom h

/-- A store to a local changes its word and nothing else. -/
theorem spares_of_puts (hputs : c.Puts n d loc) : o = none ∧
    (cpu.store (cpu.regs .rbp + BitVec.ofInt 64 d) (cpu.read loc)).Spares top cpu'
      fun _ => False := by
  obtain ⟨x, ⟨q, t, a, rest, hq, ht, hop, hops, hslot, hbind, hloc⟩, hd⟩ := hputs
  obtain rfl := Option.some.inj (hp.symm.trans hq)
  obtain rfl := hs.unique ht
  rw [select, hop] at hsel
  obtain ⟨a', b, rest', hab, hcases⟩ := selectStore_ok hsel
  obtain ⟨rfl, rfl, rfl⟩ : a = a' ∧ Operand.reg x = b ∧ rest = rest' := by
    simpa using hops.symm.trans hab
  rcases hcases with ⟨y, index, hb, -⟩ | ⟨-, -, src, pre, dst, hsrc, hm, rfl⟩
  · obtain ⟨-, -, hy, -⟩ := bound?_eq_some_iff.mp hb
    obtain rfl := Operand.reg.inj hy
    rw [((bound?_eq_some_iff_binding? hs hop hops).mp hb).2] at hbind
    cases hbind
  · obtain rfl := Except.ok.inj (hsrc.symm.trans hloc)
    rw [← hs.displacement?_eq] at hd
    obtain ⟨rfl, rfl⟩ : [] = pre ∧ Loc.frame d = dst := by simpa [memory, hd] using hm
    exact Sequence.spares_move_frame hroom h

/-- Other stores spare the frame. -/
theorem spares_of_store (hop : p.instr.opcode = .store) (hno : ∀ d loc, ¬ c.Puts n d loc) :
    o = none ∧ cpu.Spares top cpu' (c.Clobbers s n p.instr) := by
  rw [select, hop] at hsel
  obtain ⟨a, b, rest, hab, ⟨_, _, -, -, rfl⟩ | ⟨hb, -, src, pre, dst, hsrc, hm, rfl⟩⟩ :=
    selectStore_ok hsel
  · obtain ⟨rfl, rfl⟩ := completes_nil.mp h
    exact ⟨rfl, fun _ _ => rfl, fun _ _ => rfl, rfl⟩
  · have hpre := quiet_memory (by decide : .rax ∈ Reg.scratch) hm
    rcases memory_ok hm with ⟨x, d, rfl, hd, -, -⟩ | ⟨l, -, rfl, hl⟩
    · -- a local that is not bound here would be stored to
      rw [hs.displacement?_eq] at hd
      have hslot : x ∈ c.flow.allocas := isSome_wordAt.mp (Option.isSome_of_eq_some hd)
      have hbind : c.binding? x p.instr = none := by
        by_contra hbind
        obtain ⟨index, hbind⟩ := Option.ne_none_iff_exists'.mp hbind
        rw [(bound?_eq_some_iff_binding? hs hop hab).mpr ⟨hslot, hbind⟩] at hb
        cases hb
      exact absurd ⟨x, ⟨p, s, a, rest, hp, hs, hop, hab, hslot, hbind, hsrc⟩, hd⟩ (hno d src)
    · obtain ⟨e, hrun, h⟩ := (completes_append fun i hi => (hpre i hi).isDirect).mp h
      have hk := hpre.run hrun
      have hsp : e.regs .rsp = cpu.regs .rsp := hk.regs .rsp (by decide)
      have hroom' : e.Room top 1 := by
        unfold Cpu.Room at *
        rwa [hsp]
      have hne : (Sequence.stage .rax l).2 ≠ .rsp := by
        rcases hl with ⟨x, -, -, hx⟩ | ⟨g, -, rfl⟩
        · cases l with
          | reg q =>
            rintro (rfl : q = .rsp)
            exact absurd (mem_palette_of_register hx) (by decide)
          | _ => simp [Sequence.stage]
        · simp [Sequence.stage]
      obtain ⟨ho, hmove⟩ := Sequence.spares_move_indirect hroom' hne h
      have hfirst : cpu.Spares top e (c.Clobbers s n p.instr) :=
        hk.spares.mono fun r hr => .scratch hr
      exact ⟨ho, hfirst.trans (hmove.mono fun _ hr => hr.elim) not_clobbers_rsp⟩

end

/-! ## Branches and returns -/

/-- A branch changes scratch only. Control goes on to the next point if that starts one of its
targets, or to the label of one. -/
theorem of_completes_selectBranch (hsel : c.selectBranch s n i = .ok (s', code))
    (h : Completes top code cpu o cpu') : cpu.Keeps cpu' Reg.scratch ∧
      (o = none ∧ (∃ l ∈ i.targets, c.flow.start? l = some (n + 1)) ∨
        ∃ l ∈ i.targets, o = some (c.blockLabel l)) := by
  obtain ⟨-, ⟨l, k, hops, hl, rfl⟩ | ⟨cond, t, e, loc, hops, ht, -, hcode⟩⟩ := selectBranch_ok hsel
  · have htarget : l ∈ i.targets := by simp [Instr.targets, hops, Operand.label?]
    split at h
    · next hk =>
      obtain ⟨rfl, rfl⟩ := completes_nil.mp h
      exact ⟨.refl _ _, .inl ⟨rfl, l, htarget, hk ▸ hl⟩⟩
    · obtain ⟨rfl, rfl⟩ := completes_jmp.mp h
      exact ⟨.refl _ _, .inr ⟨l, htarget, rfl⟩⟩
  · have htrue : t ∈ i.targets := by simp [Instr.targets, hops, Operand.label?]
    have hfalse : e ∈ i.targets := by simp [Instr.targets, hops, Operand.label?]
    rcases hcode with rfl | ⟨w, -, rfl⟩
    · obtain ⟨test, htest, hq⟩ := Sequence.exists_quiet_jumpIfZero loc (c.blockLabel e)
      rw [htest] at h
      obtain ⟨d, hrun, h⟩ := (completes_append fun i hi => (hq i hi).isDirect).mp h
      obtain ⟨ho, rfl⟩ := of_completes_je h
      refine ⟨hq.run hrun, ?_⟩
      rcases ho with rfl | rfl
      · exact .inl ⟨rfl, t, htrue, ht⟩
      · exact .inr ⟨e, hfalse, rfl⟩
    · split at h
      · obtain ⟨rfl, rfl⟩ := completes_jmp.mp h
        exact ⟨.refl _ _, .inr ⟨e, hfalse, rfl⟩⟩
      · obtain ⟨rfl, rfl⟩ := completes_nil.mp h
        exact ⟨.refl _ _, .inl ⟨rfl, t, htrue, ht⟩⟩

theorem of_completes_selectRet (hsel : c.selectRet s i = .ok (s', code))
    (h : Completes top code cpu o cpu') :
    cpu.Keeps cpu' Reg.scratch ∧ o = some (.exit c.function.name) := by
  obtain ⟨-, value, rfl, hvalue⟩ := selectRet_cases hsel
  have hq : Quiet Reg.scratch value := by
    rcases hvalue with rfl | ⟨_, loc, -, rfl⟩ <;> simp [Quiet, Instr.Quiet, Reg.scratch]
  obtain ⟨d, hrun, h⟩ := (completes_append fun i hi => (hq i hi).isDirect).mp h
  obtain ⟨ho, rfl⟩ := completes_jmp.mp h
  exact ⟨hq.run hrun, ho⟩

/-! ## All points -/

section
variable (hp : c.flow.points[n]? = some p) (hs : c.StateAt n s)
  (hsel : c.select s n p.instr = .ok (s', code))
  (hfits : c.Fits (Reg.callerSaved.length + p.instr.operands.length + 1)) (hf : c.Framed top cpu)
  (h : Completes top code cpu o cpu')
include hp hs hsel hfits hf h

/-- What is not a store to a local spares the frame. -/
theorem spares_of_not_puts (hno : ∀ d loc, ¬ c.Puts n d loc) :
    cpu.Spares top cpu' (c.Clobbers s n p.instr) := by
  have hscratch (hk : cpu.Keeps cpu' Reg.scratch) : cpu.Spares top cpu' (c.Clobbers s n p.instr) :=
    hk.spares.mono fun r hr => .scratch hr
  have hroom : cpu.Room top 1 := hf.room (hfits.mono (by omega))
  cases hop : p.instr.opcode with
  | br => rw [select, hop] at hsel; exact hscratch (of_completes_selectBranch hsel h).1
  | ret => rw [select, hop] at hsel; exact hscratch (of_completes_selectRet hsel h).1
  | call => rw [select, hop] at hsel; exact (spares_selectCall hop hfits hsel hf h).2
  | store => exact (spares_of_store hp hs hsel hroom h hop hno).2
  | alloca =>
    rw [select, hop] at hsel
    cases hsel
    obtain ⟨rfl, rfl⟩ := completes_nil.mp h
    exact hscratch (.refl _ _)
  | _ =>
    obtain ⟨x, dst, hx, hd, hq⟩ := computing_of_select (by simp [hop]) hsel
    refine (hq.completes h).2.spares.mono fun r hr => ?_
    rcases List.mem_cons.mp hr with rfl | hr
    · exact .result hx hd
    · exact .scratch hr

/-- Whether it stores to a local or not, a point spares the other registers. -/
theorem regs_of_completes (hr : ¬ c.Clobbers s n p.instr r) : cpu'.regs r = cpu.regs r := by
  by_cases hputs : ∃ d loc, c.Puts n d loc
  · obtain ⟨d, loc, hputs⟩ := hputs
    have hroom : cpu.Room top 1 := hf.room (hfits.mono (by omega))
    obtain ⟨-, hspares⟩ := spares_of_puts hp hs hsel hroom h hputs
    exact hspares.regs r not_false
  · push Not at hputs
    exact (spares_of_not_puts hp hs hsel hfits hf h hputs).regs r hr

/-- The frame is as it was when control leaves a point. -/
theorem Framed.completes : c.Framed top cpu' :=
  hf.congr (regs_of_completes hp hs hsel hfits hf h not_clobbers_rsp)
    (regs_of_completes hp hs hsel hfits hf h not_clobbers_rbp)

/-- Where control goes from a point. -/
theorem outcome_of_completes :
    (p.instr.opcode = .ret ∧ o = some (.exit c.function.name)) ∨
    (p.instr.opcode = .br ∧ (o = none ∧ (∃ l ∈ p.instr.targets, c.flow.start? l = some (n + 1)) ∨
      ∃ l ∈ p.instr.targets, o = some (c.blockLabel l))) ∨
    (p.instr.opcode ≠ .ret ∧ p.instr.opcode ≠ .br ∧ o = none) := by
  have hroom : cpu.Room top 1 := hf.room (hfits.mono (by omega))
  cases hop : p.instr.opcode with
  | br => rw [select, hop] at hsel; exact .inr (.inl ⟨rfl, (of_completes_selectBranch hsel h).2⟩)
  | ret => rw [select, hop] at hsel; exact .inl ⟨rfl, (of_completes_selectRet hsel h).2⟩
  | call =>
    rw [select, hop] at hsel
    exact .inr (.inr ⟨by simp, by simp, (spares_selectCall hop hfits hsel hf h).1⟩)
  | store =>
    refine .inr (.inr ⟨by simp, by simp, ?_⟩)
    by_cases hputs : ∃ d loc, c.Puts n d loc
    · obtain ⟨d, loc, hputs⟩ := hputs
      exact (spares_of_puts hp hs hsel hroom h hputs).1
    · push Not at hputs
      exact (spares_of_store hp hs hsel hroom h hop hputs).1
  | alloca =>
    rw [select, hop] at hsel
    cases hsel
    exact .inr (.inr ⟨by simp, by simp, (completes_nil.mp h).1⟩)
  | _ =>
    obtain ⟨x, dst, -, -, hq⟩ := computing_of_select (by simp [hop]) hsel
    exact .inr (.inr ⟨by simp, by simp, (hq.completes h).1⟩)

end

end IrAsm.X86.Context
