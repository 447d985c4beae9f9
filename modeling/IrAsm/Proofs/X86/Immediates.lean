import IrAsm.Proofs.X86.Displacements

/-!
# Immediates

Only a move to a register has an encoding for an immediate of 64 bits. All other instructions with
an immediate have 32 bits for it, which are extended with their sign (`Instr.Short`).

Multiplication, division, addresses, branches and the left side of a comparison put immediates into
a register first. The other operations, stores and calls that push arguments take them as they are
(`bareOperands`). So exactly those operands have to be short, if they are literals or folded to one,
and so do the bytes of the frame and of pushed arguments, by which the code moves the stack pointer.
-/

namespace IrAsm

/-- The value is that of 32 bits, extended with their sign. -/
def Word.Short (v : Word) : Prop := -2 ^ 31 ≤ v.toInt ∧ v.toInt < 2 ^ 31

instance (v : Word) : Decidable v.Short := inferInstanceAs (Decidable (_ ∧ _))

namespace X86

/-- A short immediate, or none. -/
def Loc.Short : Loc → Prop
  | .imm v => v.Short
  | _ => True

theorem Loc.short_of_isImm {l : Loc} (h : l.isImm = false) : l.Short := by
  cases l with
  | imm v => cases h
  | _ => trivial

theorem Loc.short_of_isMemory {l : Loc} (h : l.isMemory) : l.Short := by
  cases l with
  | imm v => cases h
  | _ => trivial

namespace Instr

/-- No encoding of the instruction has 64 bits for an immediate. -/
def isNarrow : Instr → Bool
  | .mov _ dst => dst.isMemory
  | .push _ | .alu _ _ _ | .cmp _ _ => true
  | _ => false

/-- The immediates of the instruction fit into their place. -/
def Short (i : Instr) : Prop := i.isNarrow → ∀ l ∈ i.operands, l.Short

variable {src dst l : Loc} {r : Reg}

theorem short_of_isNarrow {i : Instr} (h : i.isNarrow = false) : i.Short := fun hn =>
  absurd hn (by simp [h])

@[simp] theorem short_mov_reg : (mov src (.reg r)).Short := short_of_isNarrow rfl

theorem short_mov_memory (h : dst.isMemory) : (mov src dst).Short ↔ src.Short := by
  simp [Short, isNarrow, operands, h, Loc.short_of_isMemory h]

@[simp] theorem short_push : (push l).Short ↔ l.Short := by simp [Short, isNarrow, operands]

@[simp] theorem short_pop : (pop l).Short := short_of_isNarrow rfl

@[simp] theorem short_alu {op : Alu} : (alu op src r).Short ↔ src.Short := by
  simp [Short, isNarrow, operands, Loc.Short]

@[simp] theorem short_cmp : (cmp src dst).Short ↔ src.Short ∧ dst.Short := by
  simp [Short, isNarrow, operands]

@[simp] theorem short_set {p : Predicate} : (set p).Short := short_of_isNarrow rfl

@[simp] theorem short_imul : (imul l).Short := short_of_isNarrow rfl

@[simp] theorem short_cqto : cqto.Short := short_of_isNarrow rfl

@[simp] theorem short_idiv : (idiv l).Short := short_of_isNarrow rfl

@[simp] theorem short_lea {base index : Reg} : (lea base index r).Short := short_of_isNarrow rfl

@[simp] theorem short_jmp {t : Label} : (jmp t).Short := short_of_isNarrow rfl

@[simp] theorem short_je {t : Label} : (je t).Short := short_of_isNarrow rfl

@[simp] theorem short_call {callee : String} : (call callee).Short := short_of_isNarrow rfl

@[simp] theorem short_ret : ret.Short := short_of_isNarrow rfl

/-- The passes do not delete instructions with immediates that do not fit. -/
theorem shape_of_not_short {i : Instr} (h : ¬ i.Short) : (Line.code i).shape = .other := by
  cases i with
  | mov src dst =>
    refine if_neg ?_
    rintro rfl
    cases hm : src.isMemory with
    | false => exact h (short_of_isNarrow hm)
    | true => exact h ((short_mov_memory hm).mpr (Loc.short_of_isMemory hm))
  | jmp | je => exact absurd (short_of_isNarrow rfl) h
  | _ => rfl

end Instr

/-! ## Sequences -/

abbrev Fitting (code : List Instr) : Prop := Every Instr.Short code

section
variable {lhs rhs src dst l : Loc} {r : Reg}

@[simp] theorem short_reg : (Loc.reg r).Short := trivial

theorem short_zero : (0 : Word).Short := by decide

namespace Sequence

@[simp] theorem fitting_move_reg : Fitting (move src (.reg r)) := by simp [move, Loc.isMemory]

theorem fitting_move_memory (h : dst.isMemory) : Fitting (move src dst) ↔ src.Short := by
  unfold move
  split
  · simp
  · simp [Instr.short_mov_memory h]

@[simp] theorem fitting_stage : Fitting (stage r l).1 := by
  unfold stage
  split <;> simp

@[simp] theorem fitting_stageImm : Fitting (stageImm r l).1 := by
  unfold stageImm
  split <;> simp

theorem fitting_commutative {op : Alu} :
    Fitting (commutative op lhs rhs r) ↔ if rhs = .reg r then lhs.Short else rhs.Short := by
  unfold commutative
  split <;> simp

theorem fitting_subtract : Fitting (subtract lhs rhs r) ↔ rhs.Short := by
  unfold subtract
  split
  · next h => simp [h]
  · simp

theorem fitting_multiply : Fitting (multiply lhs rhs r) := by simp [multiply]

theorem fitting_divide {half : Reg} : Fitting (divide half lhs rhs r) := by simp [divide]

theorem fitting_compare {p : Predicate} : Fitting (compare p lhs rhs r) ↔ rhs.Short := by
  cases lhs <;> simp [compare]

theorem fitting_elementAddress {base index : Loc} : Fitting (elementAddress base index r) := by
  simp [elementAddress]

theorem fitting_jumpIfZero {target : Label} : Fitting (jumpIfZero l target) := by
  have hzero : (Loc.imm 0).Short := short_zero
  cases l <;> simpa [jumpIfZero, Loc.Short] using hzero

theorem fitting_call {preserved : List Reg} {args : List Loc} {callee : String} :
    Fitting (call preserved args callee) ↔
      (∀ a ∈ args.drop Reg.args.length, a.Short) ∧ (stackedBytes args).Short := by
  have hrelease : Fitting (release args) ↔ (stackedBytes args).Short := by
    unfold release
    split
    · next hnil =>
      rw [List.isEmpty_iff] at hnil
      simp only [every_nil, true_iff, stackedBytes, hnil]
      exact short_zero
    · simp [Loc.Short]
  simp only [call_eq, every_append, every_cons, every_map, hrelease, List.mem_reverse,
    Instr.short_push, Instr.short_mov_reg, Instr.short_pop, Instr.short_call, short_reg,
    implies_true, true_and, and_true]

end Sequence

end

/-! ## Operands that are taken as they are -/

/-- The value of an operand that is an immediate in the code. -/
def State.literal? (s : State) : Operand → Option Word
  | .imm v => some v
  | .reg x => s.known[x]?
  | _ => none

namespace Context

variable {c : Context} {s s' : State} {n : Nat} {i : IrAsm.Instr} {a b : Operand} {lhs rhs l : Loc}
  {code : List Instr} {lines : List Line} {dst : Reg}

/-- An operation on these two values is folded, unless it has no value. -/
def folds (c : Context) (s : State) (a b : Operand) : Bool :=
  c.config.optimize && (s.literal? a).isSome && (s.literal? b).isSome

/-- The operand is in the register for the result. -/
def inResult (c : Context) (s : State) (i : IrAsm.Instr) (a : Operand) : Bool :=
  (c.value s a).toOption = (c.dest i).toOption.map Loc.reg

/-- The operands that are taken as they are by instructions which are not moves to a register. -/
def bareOperands (c : Context) (s : State) (i : IrAsm.Instr) : List Operand :=
  match i.opcode, i.operands with
  | .arith op, a :: b :: _ =>
    if c.folds s a b ∨ op ∈ [.mul, .sdiv, .srem] then []
    else if op ≠ .sub ∧ c.inResult s i b then [a]
    else [b]
  | .icmp _, a :: b :: _ => if c.folds s a b then [] else [b]
  | .store, a :: b :: _ => if (c.bound? s a b).isSome then [] else [a]
  | .call, operands => operands.dropLast.drop Reg.args.length
  | _, _ => []

def ShortLiterals (c : Context) (s : State) (i : IrAsm.Instr) : Prop :=
  ∀ a ∈ c.bareOperands s i, ∀ v, s.literal? a = some v → v.Short

/-- What the code of an instruction takes as it is fits. -/
@[mk_iff]
structure ShortOperands (c : Context) (s : State) (i : IrAsm.Instr) : Prop where
  literals : c.ShortLiterals s i
  /-- A call takes the arguments that it pushes off the stack again. -/
  pushed : i.opcode = .call → Word.Short (BitVec.ofNat 64 (8 * (c.bareOperands s i).length))

theorem shortOperands_of_nil (h : c.bareOperands s i = []) : c.ShortOperands s i :=
  ⟨by simp [ShortLiterals, h], fun _ => by rw [h]; exact short_zero⟩

theorem value_cases (h : c.value s a = .ok l) :
    (∃ v, s.literal? a = some v ∧ l = .imm v) ∨ s.literal? a = none ∧ l.isImm = false := by
  cases a with
  | imm v => cases h; exact .inl ⟨v, rfl, rfl⟩
  | reg x =>
    rcases register_cases h with ⟨v, hv, rfl⟩ | ⟨hx, ⟨_, -, rfl⟩ | ⟨-, -, _, -, rfl⟩⟩
    · exact .inl ⟨v, hv, rfl⟩
    · exact .inr ⟨hx, rfl⟩
    · exact .inr ⟨hx, rfl⟩
  | global g => cases h; exact .inr ⟨rfl, rfl⟩
  | _ => cases h

theorem short_value_iff (h : c.value s a = .ok l) :
    l.Short ↔ ∀ v, s.literal? a = some v → v.Short := by
  rcases value_cases h with ⟨v, hv, rfl⟩ | ⟨hnone, himm⟩
  · simp [hv, Loc.Short]
  · simp [hnone, Loc.short_of_isImm himm]

theorem isSome_fold? {eval? : Word → Word → Option Word} (htotal : ∀ u v, (eval? u v).isSome)
    (ha : c.value s a = .ok lhs) (hb : c.value s b = .ok rhs) :
    (c.fold? eval? lhs rhs).isSome = c.folds s a b := by
  rcases value_cases ha with ⟨u, hu, rfl⟩ | ⟨hu, himm⟩
  · rcases value_cases hb with ⟨v, hv, rfl⟩ | ⟨hv, himm⟩
    · cases ho : c.config.optimize <;> simp [fold?, folds, hu, hv, ho, htotal]
    · cases rhs with
      | imm v => cases himm
      | _ => simp [fold?, folds, hv]
  · cases lhs with
    | imm u => cases himm
    | _ => simp [fold?, folds, hu]

/-! ## Points -/

/-- The code of an operation is a move to a register, or that of its sequence if it is not
folded. -/
theorem selectPair_cases {eval? : Word → Word → Option Word} {seq : Loc → Loc → Reg → List Instr}
    (h : c.selectPair s i eval? seq = .ok (s', code)) :
    ∃ a b rest lhs rhs dst, i.operands = a :: b :: rest ∧ c.value s a = .ok lhs ∧
      c.value s b = .ok rhs ∧ c.dest i = .ok dst ∧
      ((c.fold? eval? lhs rhs).isSome ∧ Fitting code ∨
        (c.fold? eval? lhs rhs).isSome = false ∧ code = seq lhs rhs dst) := by
  obtain ⟨a, b, rest, lhs, rhs, dst, hops, ha, hb, hd, -⟩ := selectPair_ok h
  refine ⟨a, b, rest, lhs, rhs, dst, hops, ha, hb, hd, ?_⟩
  rw [selectPair_of_values hops ha hb hd] at h
  cases hf : c.fold? eval? lhs rhs with
  | none =>
    rw [hf] at h
    cases h
    exact .inr ⟨rfl, rfl⟩
  | some v =>
    rw [hf] at h
    cases h
    exact .inl ⟨rfl, by simp⟩

theorem inResult_eq (hb : c.value s b = .ok rhs) (hd : c.dest i = .ok dst) :
    c.inResult s i b = decide (rhs = .reg dst) := by
  simp [inResult, hb, hd, Except.toOption]

theorem fitting_arith {op : Arith} (hop : i.opcode = .arith op)
    (h : c.selectPair s i op.eval? (Sequence.arith op) = .ok (s', code)) :
    Fitting code ↔ c.ShortLiterals s i := by
  obtain ⟨a, b, rest, lhs, rhs, dst, hops, ha, hb, hd, hcode⟩ := selectPair_cases h
  have hbare : c.bareOperands s i = if c.folds s a b ∨ op ∈ [.mul, .sdiv, .srem] then []
      else if op ≠ .sub ∧ c.inResult s i b then [a] else [b] := by
    simp only [bareOperands, hop, hops]
  by_cases hscratch : op ∈ [.mul, .sdiv, .srem]
  · have hfit : Fitting code := by
      rcases hcode with ⟨-, hfit⟩ | ⟨-, rfl⟩
      · exact hfit
      · simp only [List.mem_cons, List.not_mem_nil, or_false] at hscratch
        rcases hscratch with rfl | rfl | rfl
        · exact Sequence.fitting_multiply
        · exact Sequence.fitting_divide
        · exact Sequence.fitting_divide
    simp [ShortLiterals, hbare, hscratch, hfit]
  · have htotal : ∀ u v, (op.eval? u v).isSome := by
      intro u v
      cases op with
      | mul | sdiv | srem => simp at hscratch
      | _ => rfl
    rw [isSome_fold? htotal ha hb] at hcode
    rcases hcode with ⟨hf, hfit⟩ | ⟨hf, rfl⟩
    · simp [ShortLiterals, hbare, hf, hfit]
    · rw [ShortLiterals, hbare, if_neg (by simp [hf, hscratch]), inResult_eq hb hd]
      cases op with
      | sub => simp [Sequence.arith, Sequence.fitting_subtract, short_value_iff hb]
      | mul | sdiv | srem => simp at hscratch
      | add | or | and =>
        by_cases hr : rhs = .reg dst
        · simp [Sequence.arith, Sequence.fitting_commutative, hr, short_value_iff ha]
        · simp [Sequence.arith, Sequence.fitting_commutative, hr, short_value_iff hb]

theorem fitting_icmp {p : Predicate} (hop : i.opcode = .icmp p)
    (h : c.selectPair s i (fun x y => some (p.eval x y)) (Sequence.compare p) = .ok (s', code)) :
    Fitting code ↔ c.ShortLiterals s i := by
  obtain ⟨a, b, rest, lhs, rhs, dst, hops, ha, hb, -, hcode⟩ := selectPair_cases h
  have hbare : c.bareOperands s i = if c.folds s a b then [] else [b] := by
    simp only [bareOperands, hop, hops]
  rw [isSome_fold? (fun _ _ => rfl) ha hb] at hcode
  rcases hcode with ⟨hf, hfit⟩ | ⟨hf, rfl⟩
  · simp [ShortLiterals, hbare, hf, hfit]
  · simp [ShortLiterals, hbare, hf, Sequence.fitting_compare, short_value_iff hb]

theorem fitting_selectStore (hop : i.opcode = .store) (h : c.selectStore s i = .ok (s', code)) :
    Fitting code ↔ c.ShortLiterals s i := by
  obtain ⟨a, b, rest, hops, hcode⟩ := selectStore_ok h
  have hbare : c.bareOperands s i = if (c.bound? s a b).isSome then [] else [a] := by
    simp only [bareOperands, hop, hops]
  rcases hcode with ⟨x, index, hbound, -, rfl⟩ | ⟨hbound, -, src, pre, dst, ha, hm, rfl⟩
  · simp [ShortLiterals, hbare, hbound]
  · have hmem : Fitting pre ∧ dst.isMemory := by
      rcases memory_ok hm with ⟨_, _, -, -, rfl, rfl⟩ | ⟨_, rfl, rfl, -⟩
      · exact ⟨every_nil, rfl⟩
      · exact ⟨Sequence.fitting_stage, rfl⟩
    simp [ShortLiterals, hbare, hbound, hmem.1, Sequence.fitting_move_memory hmem.2,
      short_value_iff ha]

theorem fitting_selectCall (hop : i.opcode = .call) (h : c.selectCall s n i = .ok (s', code)) :
    Fitting code ↔ c.ShortLiterals s i ∧
      Word.Short (BitVec.ofNat 64 (8 * (c.bareOperands s i).length)) := by
  obtain ⟨args, callee, tail, hargs, -, rfl, htail⟩ := selectCall_ok h
  have hbare : c.bareOperands s i = i.operands.dropLast.drop Reg.args.length := by
    simp only [bareOperands, hop]
  have htail : Fitting tail := by
    rcases htail with ⟨-, rfl⟩ | ⟨dst, -, rfl⟩ <;> simp
  -- the arguments that are pushed are those of the operands from the fifth on
  have hpushed : (c.bareOperands s i).mapM (c.value s) = .ok (args.drop Reg.args.length) := by
    rw [hbare]
    exact mapM_ok_iff.mpr (List.forall₂_drop _ (mapM_ok_iff.mp hargs))
  have hshort : (∀ l ∈ args.drop Reg.args.length, l.Short) ↔ c.ShortLiterals s i := by
    constructor
    · intro hall a ha
      obtain ⟨l, hl, hv⟩ := exists_mem_of_mapM hpushed ha
      exact (short_value_iff hv).mp (hall l hl)
    · intro hall l hl
      obtain ⟨a, ha, hv⟩ := exists_of_mem_mapM hpushed hl
      exact (short_value_iff hv).mpr (hall a ha)
  rw [(mapM_ok_iff.mp hpushed).length_eq, ← hshort]
  exact every_append.trans ((and_iff_left htail).trans Sequence.fitting_call)

/-- The code of a point fits exactly if what it takes as it is does. -/
theorem fitting_select_iff (h : c.select s n i = .ok (s', code)) :
    Fitting code ↔ c.ShortOperands s i := by
  have hnone (hfit : Fitting code) (hbare : c.bareOperands s i = []) :
      Fitting code ↔ c.ShortOperands s i :=
    iff_of_true hfit (shortOperands_of_nil hbare)
  unfold select at h
  split at h
  · next op hop => rw [shortOperands_iff, fitting_arith hop h]; simp [hop]
  · next p hop => rw [shortOperands_iff, fitting_icmp hop h]; simp [hop]
  · next hop =>
    refine hnone ?_ (by simp [bareOperands, hop])
    obtain ⟨-, ⟨_, _, -, -, rfl⟩ | ⟨_, _, _, _, -, -, -, rfl | ⟨_, -, rfl⟩⟩⟩ := selectBranch_ok h
    · split <;> simp
    · exact Sequence.fitting_jumpIfZero
    · split <;> simp
  · next hop => rw [shortOperands_iff, fitting_selectCall hop h]; simp [hop]
  · next hop =>
    refine hnone ?_ (by simp [bareOperands, hop])
    obtain ⟨-, value, rfl, rfl | ⟨_, _, -, rfl⟩⟩ := selectRet_cases h <;> simp
  · next hop =>
    obtain ⟨_, _, _, _, _, -, -, -, -, rfl⟩ := selectAddress_ok h
    exact hnone Sequence.fitting_elementAddress (by simp [bareOperands, hop])
  · next hop =>
    obtain ⟨_, _, _, _, -, -, -, -, rfl⟩ := selectBitcast_ok h
    exact hnone Sequence.fitting_move_reg (by simp [bareOperands, hop])
  · next hop =>
    obtain ⟨_, _, pre, _, _, -, hm, -, -, rfl⟩ := selectLoad_ok h
    refine hnone ?_ (by simp [bareOperands, hop])
    rcases memory_ok hm with ⟨_, _, -, -, rfl, -⟩ | ⟨_, rfl, -, -⟩ <;> simp
  · next hop => rw [shortOperands_iff, fitting_selectStore hop h]; simp [hop]
  · next hop => cases h; exact hnone every_nil (by simp [bareOperands, hop])
  · cases h

/-! ## Functions -/

theorem fitting_entryCode_iff (c : Context) :
    Fitting c.entryCode ↔ Word.Short (BitVec.ofNat 64 (8 * c.flow.allocas.length)) := by
  have hsave : Fitting (c.saved.map fun r => .push (.reg r)) := every_map.mpr fun r _ => by simp
  have hcopies : Fitting c.paramCopies := by
    rw [paramCopies_eq]
    exact every_map.mpr fun x _ => by simp
  simp [entryCode, hsave, hcopies, initial, Frame.plan, Loc.Short]

theorem fitting_exitCode (c : Context) : Fitting c.exitCode := by
  have hrestore : Fitting (c.saved.reverse.map fun r => .pop (.reg r)) :=
    every_map.mpr fun r _ => by simp
  exact every_append.mpr ⟨hrestore, by simp⟩

theorem short_emit_iff (h : c.emit = .ok lines) : (∀ j, .code j ∈ lines → j.Short) ↔
    Word.Short (BitVec.ofNat 64 (8 * c.flow.allocas.length)) ∧
      ∀ n p s, c.flow.points[n]? = some p → c.StateAt n s → c.ShortOperands s p.instr := by
  simp only [mem_emit h]
  constructor
  · intro hall
    refine ⟨(fitting_entryCode_iff c).mp fun j hj => hall j (.inl hj), fun n p s hp hs => ?_⟩
    obtain ⟨body, hb, -⟩ := emit_ok h
    obtain ⟨t, t', code, _, _, ht, hsel, -⟩ := exists_code hb hp
    obtain rfl := hs.unique ht
    have hcode : c.CodeAt n code := ⟨p, s, t', hp, hs, hsel⟩
    exact (fitting_select_iff hsel).mp fun j hj => hall j (.inr (.inl ⟨n, code, hcode, hj⟩))
  · rintro ⟨hframe, hpoints⟩ j (hj | ⟨n, code, ⟨p, s, s', hp, hs, hsel⟩, hj⟩ | hj)
    · exact (fitting_entryCode_iff c).mpr hframe j hj
    · exact (fitting_select_iff hsel).mpr (hpoints n p s hp hs) j hj
    · exact c.fitting_exitCode j hj

end Context

end X86

namespace Function

open X86

/-- The immediates of a compiled function fit exactly if the bytes of its frame are short, and at
each point what the code takes as it is. -/
theorem immediates_fit_iff {f : Function} {config : Config} {out : CompiledFunction}
    (h : f.compile config = .ok out) :
    ∃ c : Context, c.function = f ∧ c.config = config ∧
      f.analyze = .ok (c.flow, c.liveness, c.flow.interference) ∧ out.report.coloring = c.coloring ∧
      ((∀ j, .code j ∈ out.lines → j.Short) ↔
        Word.Short (BitVec.ofNat 64 (8 * f.locals.length)) ∧
          ∀ n p s, c.flow.points[n]? = some p → c.StateAt n s → c.ShortOperands s p.instr) := by
  obtain ⟨c, rfl, rfl, hb, -, ha, -, -, hcol, lines, hl, hout⟩ := compile_ok h
  have hmem : (∀ j, .code j ∈ out.lines → j.Short) ↔ ∀ j, .code j ∈ lines → j.Short := by
    rw [hout]
    split
    · refine forall_congr' fun j =>
        ⟨fun hj hl => by_contra fun hs => hs (hj ?_), fun hj hl => hj ?_⟩
      · exact (Peephole.mem_runAll_of_other (Instr.shape_of_not_short hs)).mpr hl
      · exact Peephole.subset_runAll lines hl
    · exact Iff.rfl
  refine ⟨c, rfl, rfl, ha, hcol, ?_⟩
  rw [hmem, Context.short_emit_iff hl, (Flow.perm_locals hb).length_eq]

/-- Multiplies by an immediate of more than 32 bits, which goes through `%rcx`. -/
def scaled : Function where
  name := "f"
  ret := .int 64
  params := [⟨"a", .int 64⟩]
  blocks := [⟨none, [⟨.arith .mul, [.reg "a", .imm 4294967296], some "s", .int 64⟩,
    ⟨.ret, [.reg "s"], none, .int 64⟩]⟩]

theorem immediates_fit_iff_scaled : ∃ out, scaled.compile { optimize := false } = .ok out ∧
    Line.code (.mov (.imm 4294967296) (.reg .rcx)) ∈ out.lines ∧
    ∀ j, .code j ∈ out.lines → j.Short := by
  have hlines : (scaled.compile { optimize := false }).toOption.any fun out =>
      Line.code (.mov (.imm 4294967296) (.reg .rcx)) ∈ out.lines := by
    decide +kernel
  simp only [Option.any_eq_true, toOption_eq_some_iff, decide_eq_true_eq] at hlines
  obtain ⟨out, hout, hmov⟩ := hlines
  obtain ⟨c, -, -, ha, -, hiff⟩ := immediates_fit_iff hout
  obtain ⟨fl, hb, -, hfl⟩ := analyze_ok_iff.mp ha
  obtain rfl : c.flow = fl := congrArg Prod.fst hfl
  refine ⟨out, hout, hmov, hiff.mpr ⟨by decide, fun n p s hp hs => ?_⟩⟩
  have hbare : ∀ i ∈ scaled.instrs, c.bareOperands s i = [] := by
    simp [scaled, Function.instrs, Context.bareOperands]
  exact Context.shortOperands_of_nil
    (hbare _ (Flow.instr_mem_of_build hb (List.mem_of_getElem? hp)))

/-- Adds an immediate of more than 32 bits. -/
def widened : Function where
  name := "f"
  ret := .int 64
  params := [⟨"a", .int 64⟩]
  blocks := [⟨none, [⟨.arith .add, [.reg "a", .imm 4294967296], some "s", .int 64⟩,
    ⟨.ret, [.reg "s"], none, .int 64⟩]⟩]

/-- The immediate is taken as it is. -/
theorem not_short_widened : widened.verify = .ok () ∧ ∃ out, widened.compile {} = .ok out ∧
    Line.code (.alu .add (.imm 4294967296) .r8) ∈ out.lines ∧
      ¬ (Instr.alu .add (.imm 4294967296) .r8).Short := by
  have hv : widened.verify = .ok () := ok_of_toBool (by decide +kernel)
  obtain ⟨out, hout⟩ : ∃ out, widened.compile {} = .ok out :=
    exists_ok_of_toBool (by decide +kernel)
  have hlines : ((Flow.build widened).toOption.bind fun fl =>
      (Coloring.find fl.interference fl.temporaries 8).toOption.bind fun coloring =>
        (Context.emit ⟨widened, fl, Liveness.analyze fl.points, coloring, {}⟩).toOption.map
          fun lines =>
          decide (Line.code (.alu .add (.imm 4294967296) .r8) ∈ lines)) = some true := by
    decide +kernel
  obtain ⟨⟨_, fl, live, coloring, _⟩, rfl, rfl, hb, hlive, -, -, hfind, -, lines, hl, hdel⟩ :=
    compile_ok hout
  dsimp only at hb hlive hfind hl
  subst hlive
  have hshort : ¬ (Instr.alu .add (.imm 4294967296) .r8).Short := by
    rw [Instr.short_alu]
    exact (by decide : ¬ Word.Short 4294967296)
  have hmem : Line.code (.alu .add (.imm 4294967296) .r8) ∈ lines := by
    simpa [hb, hfind, hl, Except.toOption] using hlines
  refine ⟨hv, out, hout, ?_, hshort⟩
  rw [hdel]
  exact (Peephole.mem_runAll_of_other rfl).mpr hmem

end Function

end IrAsm
