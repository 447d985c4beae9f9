import IrAsm.Proofs.Integers
import IrAsm.Proofs.X86.Sequence
import IrAsm.Proofs.X86.States

/-!
# Operations on two values

The code of an operation performs it wherever its operands are, also where the result takes the
register of one of them or of both: it leaves in the result register the word that the operation
yields on integers, and it stops at a division exactly if there is no such word. Folding computes
that word beforehand, and does so exactly if the code would not stop.
-/

namespace IrAsm.X86

/-- The code of an operation on two values. -/
def sequence? : Opcode → Option (Loc → Loc → Reg → List Instr)
  | .arith op => some (Sequence.arith op)
  | .icmp p => some (Sequence.compare p)
  | .getelementptr => some Sequence.elementAddress
  | _ => none

/-- The code comes to a division that has no quotient. -/
def DivideError (code : List Instr) (c : Cpu) : Prop :=
  ∃ before l after d, code = before ++ .idiv l :: after ∧ run before c = some d ∧
    (∀ v, l ≠ .imm v) ∧ d.divide (d.read l) = none

/-- The code leaves the word of which `P` holds in `dst`, and changes nothing else but scratch
registers and flags. It stops at a division exactly if there is no such word. -/
structure Performs (code : List Instr) (dst : Reg) (P : Word → Prop) (c : Cpu) : Prop where
  computes : ∀ w, P w → Computes code dst w c
  faults : DivideError code c ↔ ∀ w, ¬ P w

section
variable {code : List Instr} {dst : Reg} {c : Cpu} {w : Word} {P : Word → Prop}

theorem DivideError.run_eq_none (h : DivideError code c) : run code c = none := by
  obtain ⟨before, l, after, d, rfl, hrun, hl, hd⟩ := h
  have hidiv : (Instr.idiv l).exec d = d.divide (d.read l) := by
    cases l with
    | imm v => exact absurd rfl (hl v)
    | _ => rfl
  rw [run_append, hrun, Option.bind_some, run_cons, hidiv, hd]
  rfl

theorem Computes.not_divideError (h : Computes code dst w c) : ¬ DivideError code c := by
  intro he
  obtain ⟨c', hrun, -⟩ := h
  rw [he.run_eq_none] at hrun
  cases hrun

theorem Computes.performs (h : Computes code dst w c) (hP : ∀ v, P v ↔ v = w) :
    Performs code dst P c where
  computes v hv := (hP v).mp hv ▸ h
  faults := iff_of_false h.not_divideError fun hno => hno w ((hP w).mpr rfl)

end

/-- What is read at a place depends on no more than its register and memory. -/
theorem Cpu.Keeps.read_eq {c c' : Cpu} {changed : List Reg} (h : c.Keeps c' changed) {l : Loc}
    (hl : ∀ r ∈ changed, l.Avoids r) : c'.read l = c.read l := by
  cases l with
  | reg q => exact h.regs q fun hq => hl q hq rfl
  | indirect q => simp [read, load, h.mem, h.regs q fun hq => hl q hq rfl]
  | frame d => simp [read, load, h.mem, h.regs .rbp fun hq => hl _ hq rfl]
  | global g => simp [read, load, h.mem, h.globals]
  | imm v => rfl

namespace Sequence

variable {c : Cpu} {lhs rhs : Loc} {dst : Reg}

theorem divideError_divide {half : Reg} (hr : rhs.IsOperand)
    (hf : Word.divFaults (c.read lhs) (c.read rhs) = true) :
    DivideError (divide half lhs rhs dst) c := by
  obtain ⟨d, hrun, -, hv, hl, hx, hy⟩ := exists_staged lhs hr c
  refine ⟨[.mov lhs (.reg .rax)] ++ (stageImm .rcx rhs).1 ++ [.cqto], (stageImm .rcx rhs).2,
    [.mov (.reg half) (.reg dst)], d.setReg .rdx (if (d.regs .rax).msb then -1 else 0),
    ?_, ?_, hv, ?_⟩
  · simp [divide]
  · rw [run_append, hrun]
    rfl
  · rw [Cpu.read_setReg _ hl, hy]
    refine divide_eq_none ?_ ?_
    · simp
    · simpa [hx] using hf

theorem performs_arith {op : Arith} (hl : lhs.IsOperand) (hr : rhs.IsOperand)
    (hd : dst ∈ Reg.palette) :
    Performs (arith op lhs rhs dst) dst ((Opcode.arith op).Yields (c.read lhs) (c.read rhs)) c := by
  cases he : op.eval? (c.read lhs) (c.read rhs) with
  | some w =>
    refine (computes_arith hl hr hd he).performs fun v => ?_
    rw [Opcode.yields_arith_iff, he, Option.some.injEq, eq_comm]
  | none =>
    have hno (w : Word) : ¬ (Opcode.arith op).Yields (c.read lhs) (c.read rhs) w := by
      simp [Opcode.yields_arith_iff, he]
    refine ⟨fun w hw => absurd hw (hno w), iff_of_true ?_ hno⟩
    -- only divisions have no value
    cases op with
    | sdiv =>
      exact divideError_divide hr (by simpa [Arith.eval?, Word.div?] using he)
    | srem =>
      exact divideError_divide hr (by simpa [Arith.eval?, Word.rem?] using he)
    | _ => cases he

theorem performs_compare {p : Predicate} (hl : lhs.IsOperand) (hr : rhs.IsOperand) :
    Performs (compare p lhs rhs dst) dst ((Opcode.icmp p).Yields (c.read lhs) (c.read rhs)) c :=
  (computes_compare hl hr).performs fun _ => Opcode.yields_icmp_iff

/-! ## Addresses -/

theorem exists_stage (scratch : Reg) (l : Loc) (c : Cpu) :
    ∃ d, run (stage scratch l).1 c = some d ∧ d.regs (stage scratch l).2 = c.read l ∧
      c.Keeps d [scratch] := by
  by_cases hr : ∃ r, l = .reg r
  · obtain ⟨r, rfl⟩ := hr
    exact ⟨c, rfl, rfl, .refl c _⟩
  · have hs : stage scratch l = ([.mov l (.reg scratch)], scratch) := by
      cases l with
      | reg r => exact absurd ⟨r, rfl⟩ hr
      | _ => rfl
    rw [hs]
    exact ⟨c.setReg scratch (c.read l), by simp, by simp,
      (Cpu.Keeps.refl c _).setReg _ List.mem_cons_self⟩

/-- The base is out of the way of the index: in `%rcx`, or in a register of the palette. -/
theorem computes_elementAddress {base index : Loc} (hb : base.IsOperand) (hi : index.IsOperand) :
    Computes (elementAddress base index dst) dst (c.read base + 8 * c.read index) c := by
  have hindex : index ≠ .reg .rcx := by
    rintro rfl
    exact hi.avoids_scratch (by decide) rfl
  have hne : (stage .rcx base).2 ≠ .rax := by
    cases base with
    | reg r => exact hb.avoids_scratch (by decide)
    | _ => nofun
  obtain ⟨d, hrun, hx, hk⟩ := exists_stage .rcx base c
  obtain ⟨e, hrun', hy, hk'⟩ := exists_stage .rax index d
  rw [hk.read_eq fun r hr => hi.avoids_scratch (by simp_all [Reg.scratch])] at hy
  rw [← hk'.regs _ (by simpa using hne)] at hx
  have hcode : elementAddress base index dst =
      (stage .rcx base).1 ++
        ((stage .rax index).1 ++ [.lea (stage .rcx base).2 (stage .rax index).2 dst]) := by
    simp [elementAddress, hindex]
  refine ⟨e.setReg dst (c.read base + 8 * c.read index), ?_, by simp, ?_⟩
  · rw [hcode, run_append, hrun, Option.bind_some, run_append, hrun', Option.bind_some,
      run_cons, Instr.exec, hx, hy]
    rfl
  · refine Cpu.Keeps.setReg (.trans (hk.mono ?_) (hk'.mono ?_)) _ List.mem_cons_self
    · simp [Reg.scratch]
    · simp [Reg.scratch]

theorem performs_elementAddress (hl : lhs.IsOperand) (hr : rhs.IsOperand) :
    Performs (elementAddress lhs rhs dst) dst
      (Opcode.getelementptr.Yields (c.read lhs) (c.read rhs)) c :=
  (computes_elementAddress hl hr).performs fun _ => Opcode.yields_getelementptr_iff

end Sequence

theorem performs_of_sequence? {op : Opcode} {seq : Loc → Loc → Reg → List Instr}
    (h : sequence? op = some seq) {lhs rhs : Loc} {dst : Reg} (hl : lhs.IsOperand)
    (hr : rhs.IsOperand) (hd : dst ∈ Reg.palette) (c : Cpu) :
    Performs (seq lhs rhs dst) dst (op.Yields (c.read lhs) (c.read rhs)) c := by
  cases op with
  | arith op => cases h; exact Sequence.performs_arith hl hr hd
  | icmp p => cases h; exact Sequence.performs_compare hl hr
  | getelementptr => cases h; exact Sequence.performs_elementAddress hl hr
  | _ => cases h

/-! ## Selection -/

namespace Context

variable {c : Context} {s : State} {idx : Nat} {i : IrAsm.Instr} {a b : Operand}
  {lhs rhs : Loc} {dst : Reg}

theorem isOperand_of_value {l : Loc} (h : c.value s a = .ok l) : l.IsOperand := by
  cases a with
  | imm v => cases h; trivial
  | global g => cases h; trivial
  | reg x =>
    rcases register_cases h with ⟨v, -, rfl⟩ | ⟨-, ⟨index, -, rfl⟩ | ⟨-, -, r, hr, rfl⟩⟩
    · trivial
    · trivial
    · exact mem_palette_of_colored hr
  | _ => cases h

theorem mem_palette_of_dest (h : c.dest i = .ok dst) : dst ∈ Reg.palette := by
  obtain ⟨x, -, hx⟩ := dest_ok_iff.mp h
  exact mem_palette_of_colored hx

theorem selectPair_of_values {eval? : Word → Word → Option Word}
    {seq : Loc → Loc → Reg → List Instr} {rest : List Operand} (hops : i.operands = a :: b :: rest)
    (ha : c.value s a = .ok lhs) (hb : c.value s b = .ok rhs) (hd : c.dest i = .ok dst) :
    c.selectPair s i eval? seq = .ok (match c.fold? eval? lhs rhs with
      | some v => (s.learn i.result v, [.mov (.imm v) (.reg dst)])
      | none => (s, seq lhs rhs dst)) := by
  simp only [selectPair, bind_ok_iff, operand_ok_iff]
  refine ⟨a, by simp [hops], lhs, ha, b, by simp [hops], rhs, hb, dst, hd, ?_⟩
  cases c.fold? eval? lhs rhs <;> rfl

/-- An operation that is not folded has its code. -/
theorem select_eq_sequence {seq : Loc → Loc → Reg → List Instr}
    (hseq : sequence? i.opcode = some seq) (hp : i.pair? = some (a, b)) (ha : c.value s a = .ok lhs)
    (hb : c.value s b = .ok rhs) (hd : c.dest i = .ok dst)
    (hfold : c.fold? i.opcode.eval? lhs rhs = none) :
    c.select s idx i = .ok (s, seq lhs rhs dst) := by
  rcases Instr.pair?_cases hp with ⟨hop, first, rest, hops, hzero, rfl⟩ | ⟨hne, rest, hops⟩
  · rw [hop] at hseq
    cases hseq
    simp only [select, hop, selectAddress, hops, if_pos hzero, hd, hb, ha]
    rfl
  · cases hop : i.opcode with
    | arith op =>
      rw [hop] at hseq hfold
      cases hseq
      have hfold : c.fold? op.eval? lhs rhs = none := hfold
      rw [select, hop]
      simp only [selectPair_of_values hops ha hb hd, hfold]
    | icmp p =>
      rw [hop] at hseq hfold
      cases hseq
      have hfold : c.fold? (fun x y => some (p.eval x y)) lhs rhs = none := hfold
      rw [select, hop]
      simp only [selectPair_of_values hops ha hb hd, hfold]
    | getelementptr => exact absurd hop hne
    | _ => rw [hop] at hseq; cases hseq

/-- The code of an operation performs it on the integers, for all places of its operands and its
result, and selection gives that code to every operation that is not folded. -/
theorem operations_exact {op : Opcode} {seq : Loc → Loc → Reg → List Instr}
    (hseq : sequence? op = some seq) :
    (∀ (lhs rhs : Loc) (dst : Reg), lhs.IsOperand → rhs.IsOperand → dst ∈ Reg.palette → ∀ cpu,
      Performs (seq lhs rhs dst) dst (op.Yields (cpu.read lhs) (cpu.read rhs)) cpu) ∧
    ∀ (c : Context) (s : State) (idx : Nat) (i : IrAsm.Instr) (a b : Operand) (lhs rhs : Loc)
    (dst : Reg),
      i.opcode = op → i.pair? = some (a, b) → c.value s a = .ok lhs → c.value s b = .ok rhs →
      c.dest i = .ok dst → c.fold? op.eval? lhs rhs = none →
      c.select s idx i = .ok (s, seq lhs rhs dst) ∧ lhs.IsOperand ∧ rhs.IsOperand ∧
      dst ∈ Reg.palette := by
  refine ⟨fun lhs rhs dst hl hr hd cpu => performs_of_sequence? hseq hl hr hd cpu, ?_⟩
  rintro c s idx i a b lhs rhs dst rfl hp ha hb hd hfold
  exact ⟨select_eq_sequence hseq hp ha hb hd hfold, isOperand_of_value ha, isOperand_of_value hb,
    mem_palette_of_dest hd⟩

/-- Returns the quotient of two operands. -/
def quotient (a b : Operand) : Function where
  name := "f"
  ret := .int 64
  params := [⟨"x", .int 64⟩]
  blocks := [⟨none, [⟨.arith .sdiv, [a, b], some "y", .int 64⟩, ⟨.ret, [.reg "y"], none, .void⟩]⟩]

/-- The quotient takes the register of the divisor. -/
theorem operations_exact_quotient :
    ∃ (c : Context) (i : IrAsm.Instr) (code : List Instr),
      c.function = quotient (.imm 7) (.reg "x") ∧
      Flow.build c.function = .ok c.flow ∧ c.function.body[0]? = some i ∧
      c.select c.initial 0 i = .ok (c.initial, code) ∧
      (∀ cpu, cpu.regs .r8 = 0 → DivideError code cpu) ∧
      ∀ cpu, cpu.regs .r8 = -2 → Computes code .r8 (-3) cpu := by
  have heval : ((Flow.build (quotient (.imm 7) (.reg "x"))).toOption.map fun fl =>
      let c : Context := ⟨quotient (.imm 7) (.reg "x"), fl, Liveness.analyze fl.points,
        ⟨.ofList [("x", 0), ("y", 0)]⟩, {}⟩
      ((c.value c.initial (.reg "x")).toOption, (c.colored "y").toOption)) =
        some (some (.reg .r8), some .r8) := by
    decide +kernel
  simp only [Option.map_eq_some_iff, toOption_eq_some_iff, Prod.mk.injEq] at heval
  obtain ⟨fl, hb, hx, hy⟩ := heval
  let c : Context := ⟨quotient (.imm 7) (.reg "x"), fl, Liveness.analyze fl.points,
    ⟨.ofList [("x", 0), ("y", 0)]⟩, {}⟩
  let i : IrAsm.Instr := ⟨.arith .sdiv, [.imm 7, .reg "x"], some "y", .int 64⟩
  have hdest : c.dest i = .ok .r8 := hy
  have hseq : sequence? (.arith .sdiv) = some (Sequence.arith .sdiv) := rfl
  obtain ⟨hperforms, hselect⟩ := operations_exact hseq
  obtain ⟨hsel, hl, hr, hdst⟩ := hselect c c.initial 0 i _ _ _ _ _ rfl rfl rfl hx hdest rfl
  have hcode := hperforms _ _ _ hl hr hdst
  refine ⟨c, i, _, rfl, hb, rfl, hsel, fun cpu hcpu => (hcode cpu).faults.mpr fun w hw => hw.1 hcpu,
    fun cpu hcpu => (hcode cpu).computes _ ?_⟩
  rw [Cpu.read_imm, Cpu.read_reg, hcpu]
  exact ⟨by decide, by decide⟩

/-! ## Folding -/

def optimizing (c : Context) (o : Bool) : Context :=
  { c with config := { c.config with optimize := o } }

/-- An operation on literals is folded to the word that its code leaves, and folded exactly if its
code does not stop at a division. -/
theorem folding_agrees {u v : Word} {rest : List Operand}
    (hops : i.operands = .imm u :: .imm v :: rest) (hd : c.dest i = .ok dst) :
    (∀ op, i.opcode = .arith op → ∃ code, (c.optimizing false).select s idx i = .ok (s, code) ∧
      (c.optimizing true).select s idx i = .ok (match op.eval? u v with
        | some w => (s.learn i.result w, [.mov (.imm w) (.reg dst)])
        | none => (s, code)) ∧
      ∀ cpu, ((∃ w, op.eval? u v = some w) ↔ ¬ DivideError code cpu) ∧
        ∀ w, op.eval? u v = some w → Computes code dst w cpu) ∧
    ∀ p, i.opcode = .icmp p → ∃ code, (c.optimizing false).select s idx i = .ok (s, code) ∧
      (c.optimizing true).select s idx i =
        .ok (s.learn i.result (p.eval u v), [.mov (.imm (p.eval u v)) (.reg dst)]) ∧
      ∀ cpu, Computes code dst (p.eval u v) cpu := by
  have hdst := mem_palette_of_dest hd
  constructor
  · intro op hop
    refine ⟨Sequence.arith op (.imm u) (.imm v) dst, ?_, ?_, fun cpu => ?_⟩
    · rw [select, hop]
      exact selectPair_of_values hops rfl rfl hd
    · rw [select, hop]
      exact selectPair_of_values hops rfl rfl hd
    · have hp : Performs (Sequence.arith op (.imm u) (.imm v) dst) dst
          ((Opcode.arith op).Yields u v) cpu :=
        Sequence.performs_arith trivial trivial hdst
      refine ⟨?_, fun w hw => hp.computes w (Opcode.yields_arith_iff.mpr hw)⟩
      rw [hp.faults, not_forall_not]
      simp only [Opcode.yields_arith_iff]
  · intro p hop
    refine ⟨Sequence.compare p (.imm u) (.imm v) dst, ?_, ?_, fun cpu => ?_⟩
    · rw [select, hop]
      exact selectPair_of_values hops rfl rfl hd
    · rw [select, hop]
      exact selectPair_of_values hops rfl rfl hd
    · exact Sequence.computes_compare trivial trivial

theorem folding_agrees_quotient :
    ∃ (c : Context) (i : IrAsm.Instr) (code : List Instr),
      c.function = quotient (.imm 7) (.imm (-2)) ∧
      Flow.build c.function = .ok c.flow ∧ c.function.body[0]? = some i ∧
      (c.optimizing false).select c.initial 0 i = .ok (c.initial, code) ∧
      (c.optimizing true).select c.initial 0 i =
        .ok (c.initial.learn (some "y") (-3), [.mov (.imm (-3)) (.reg .r8)]) ∧
      ∀ cpu, ¬ DivideError code cpu ∧ Computes code .r8 (-3) cpu := by
  have heval : ((Flow.build (quotient (.imm 7) (.imm (-2)))).toOption.map fun fl =>
      let c : Context := ⟨quotient (.imm 7) (.imm (-2)), fl, Liveness.analyze fl.points,
        ⟨.ofList [("y", 0)]⟩, {}⟩
      (c.colored "y").toOption) = some (some .r8) := by
    decide +kernel
  simp only [Option.map_eq_some_iff, toOption_eq_some_iff] at heval
  obtain ⟨fl, hb, hy⟩ := heval
  let c : Context :=
    ⟨quotient (.imm 7) (.imm (-2)), fl, Liveness.analyze fl.points, ⟨.ofList [("y", 0)]⟩, {}⟩
  let i : IrAsm.Instr := ⟨.arith .sdiv, [.imm 7, .imm (-2)], some "y", .int 64⟩
  have hdest : c.dest i = .ok .r8 := hy
  have hw : Arith.sdiv.eval? 7 (-2) = some (-3) := by decide
  obtain ⟨code, hoff, hon, hcode⟩ := (folding_agrees rfl hdest).1 .sdiv rfl
  rw [hw] at hon
  exact ⟨c, i, code, rfl, hb, rfl, hoff, hon,
    fun cpu => ⟨(hcode cpu).1.mp ⟨_, hw⟩, (hcode cpu).2 _ hw⟩⟩

end Context

end IrAsm.X86
