import IrAsm.Proofs.Eval
import IrAsm.Proofs.X86.Context

/-!
# What selection does at one point

Where the operands of an instruction are, what its code is, and how the state changes. What is known
about a register after folding is a constant of the function (`Sound`).
-/

namespace IrAsm.X86

namespace Context

variable {c : Context} {s s' : State} {idx : Nat} {i : IrAsm.Instr} {code : List Instr}

/-- What is known is constant. -/
def Sound (c : Context) (s : State) : Prop :=
  ∀ {x : String} {v : Word}, s.known[x]? = some v → c.function.Constant (.reg x) v

theorem sound_initial (c : Context) : c.Sound c.initial := by
  intro x v h
  simp [initial] at h

/-! ## Operands -/

theorem operand_ok_iff {n : Nat} {a : Operand} : operand i n = .ok a ↔ i.operands[n]? = some a := by
  unfold operand
  cases i.operands[n]? with
  | none => simp
  | some b => simp

theorem dest_ok_iff {r : Reg} :
    c.dest i = .ok r ↔ ∃ x, i.result = some x ∧ c.colored x = .ok r := by
  unfold dest
  cases i.result with
  | none => simp
  | some x => simp

theorem constant_of_value {a : Operand} {v : Word} (hs : c.Sound s)
    (h : c.value s a = .ok (.imm v)) : c.function.Constant a v := by
  cases a with
  | imm w => cases h; exact .imm _
  | reg x =>
    simp only [value, register] at h
    split at h
    · next hk => cases h; exact hs hk
    · cases h
    · split at h
      · cases h
      · simp at h
  | _ => cases h

/-- Folding learns constants. -/
theorem Sound.learn (hs : c.Sound s) (hi : i ∈ c.function.body) {a b : Operand}
    {rest : List Operand} {u v w : Word} (hab : i.operands = a :: b :: rest)
    (ha : c.value s a = .ok (.imm u)) (hb : c.value s b = .ok (.imm v))
    (hw : i.opcode.eval? u v = some w) : c.Sound (s.learn i.result w) := by
  intro x v' hx
  unfold State.learn at hx
  split at hx
  · next y hy =>
    rw [Std.ExtTreeMap.getElem?_insert] at hx
    split at hx
    · next he =>
      cases hx
      obtain rfl : y = x := by simpa using he
      exact .reg hi hy hab (constant_of_value hs ha) (constant_of_value hs hb) hw
    · exact hs hx
  · exact hs hx

theorem eq_imm_of_fold? {eval? : Word → Word → Option Word} {lhs rhs : Loc} {w : Word}
    (h : c.fold? eval? lhs rhs = some w) :
    ∃ u v, lhs = .imm u ∧ rhs = .imm v ∧ eval? u v = some w := by
  unfold fold? at h
  split at h
  · next u v =>
    split at h
    · exact ⟨u, v, rfl, rfl, h⟩
    · cases h
  · cases h

/-! ## Instructions -/

/-- An operation on two values is folded, or its code is that of the operation. -/
theorem selectPair_ok {eval? : Word → Word → Option Word} {seq : Loc → Loc → Reg → List Instr}
    (h : c.selectPair s i eval? seq = .ok (s', code)) :
    ∃ a b rest lhs rhs dst, i.operands = a :: b :: rest ∧ c.value s a = .ok lhs ∧
      c.value s b = .ok rhs ∧ c.dest i = .ok dst ∧
      ((∃ u v w, lhs = .imm u ∧ rhs = .imm v ∧ eval? u v = some w ∧ s' = s.learn i.result w ∧
          code = [.mov (.imm w) (.reg dst)]) ∨
        s' = s ∧ code = seq lhs rhs dst) := by
  simp only [selectPair, bind_ok_iff, operand_ok_iff] at h
  obtain ⟨a, ha, lhs, hl, b, hb, rhs, hr, dst, hd, h⟩ := h
  rw [← List.head?_eq_getElem?, List.head?_eq_some_iff] at ha
  obtain ⟨tail, hab⟩ := ha
  rw [hab, List.getElem?_cons_succ, ← List.head?_eq_getElem?, List.head?_eq_some_iff] at hb
  obtain ⟨rest, rfl⟩ := hb
  refine ⟨a, b, rest, lhs, rhs, dst, hab, hl, hr, hd, ?_⟩
  split at h
  · next w hf =>
    cases h
    obtain ⟨u, v, rfl, rfl, hw⟩ := eq_imm_of_fold? hf
    exact .inl ⟨u, v, w, rfl, rfl, hw, rfl, rfl⟩
  · cases h
    exact .inr ⟨rfl, rfl⟩

theorem selectBranch_ok (h : c.selectBranch s idx i = .ok (s', code)) : s' = s ∧
    ((∃ l n, i.operands = [.label l] ∧ c.flow.start? l = some n ∧
        code = if n = idx + 1 then [] else [.jmp (c.blockLabel l)]) ∨
      ∃ cond whenTrue whenFalse loc, i.operands = [cond, .label whenTrue, .label whenFalse] ∧
        c.flow.start? whenTrue = some (idx + 1) ∧ c.value s cond = .ok loc ∧
        (code = Sequence.jumpIfZero loc (c.blockLabel whenFalse) ∨
          ∃ v, loc = .imm v ∧ code = if v = 0 then [.jmp (c.blockLabel whenFalse)] else [])) := by
  unfold selectBranch at h
  split at h
  · next l hl =>
    simp only [bind_ok_iff, pure_ok_iff, Flow.start_ok_iff, Prod.mk.injEq] at h
    obtain ⟨n, hn, rfl, rfl⟩ := h
    exact ⟨rfl, .inl ⟨l, n, hl, hn, rfl⟩⟩
  · next cond whenTrue whenFalse hl =>
    simp only [bind_ok_iff, Flow.start_ok_iff] at h
    obtain ⟨n, hn, h⟩ := h
    split at h
    · simp at h
    · next hn' =>
      rw [not_not] at hn'
      simp only [bind_ok_iff] at h
      obtain ⟨loc, hloc, h⟩ := h
      split at h
      · next v _ =>
        cases h
        exact ⟨rfl, .inr ⟨cond, whenTrue, whenFalse, _, hl, hn' ▸ hn, hloc, .inr ⟨v, rfl, rfl⟩⟩⟩
      · cases h
        exact ⟨rfl, .inr ⟨cond, whenTrue, whenFalse, _, hl, hn' ▸ hn, hloc, .inl rfl⟩⟩
  · cases h

theorem selectRet_ok {a : Operand} {rest : List Operand} (hi : i.operands = a :: rest)
    (h : c.selectRet s i = .ok (s', code)) :
    ∃ loc, c.value s a = .ok loc ∧
      code = [.mov loc (.reg .rax), .jmp (.exit c.function.name)] := by
  simp only [selectRet, hi, bind_ok_iff, pure_ok_iff, Prod.mk.injEq] at h
  obtain ⟨loc, hl, -, rfl⟩ := h
  exact ⟨loc, hl, rfl⟩

theorem selectBitcast_ok (h : c.selectBitcast s i = .ok (s', code)) :
    ∃ a rest src dst, i.operands = a :: rest ∧ c.value s a = .ok src ∧ c.dest i = .ok dst ∧
      s' = s ∧ code = Sequence.move src (.reg dst) := by
  simp only [selectBitcast, bind_ok_iff, operand_ok_iff, pure_ok_iff, Prod.mk.injEq] at h
  obtain ⟨a, ha, src, hs, dst, hd, rfl, rfl⟩ := h
  rw [← List.head?_eq_getElem?, List.head?_eq_some_iff] at ha
  obtain ⟨rest, hrest⟩ := ha
  exact ⟨a, rest, src, dst, hrest, hs, hd, rfl, rfl⟩

theorem selectCall_ok (h : c.selectCall s idx i = .ok (s', code)) :
    ∃ args callee tail, i.operands.dropLast.mapM (c.value s) = .ok args ∧ s' = s ∧
      code = Sequence.call (c.preserved s idx i) args callee ++ tail ∧
      (i.result = none ∧ tail = [] ∨
        ∃ dst, c.dest i = .ok dst ∧ tail = [.mov (.reg .rax) (.reg dst)]) := by
  unfold selectCall at h
  split at h
  · next callee _ =>
    simp only [bind_ok_iff] at h
    obtain ⟨args, hargs, h⟩ := h
    split at h
    · simp only [bind_ok_iff, pure_ok_iff, Prod.mk.injEq] at h
      obtain ⟨dst, hd, rfl, rfl⟩ := h
      exact ⟨args, callee, _, hargs, rfl, rfl, .inr ⟨dst, hd, rfl⟩⟩
    · next hr =>
      cases h
      exact ⟨args, callee, [], hargs, rfl, by simp, .inl ⟨by simpa using hr, rfl⟩⟩
  · cases h

theorem selectRet_cases (h : c.selectRet s i = .ok (s', code)) : s' = s ∧
    ∃ value, code = value ++ [.jmp (.exit c.function.name)] ∧
      (value = [] ∨ ∃ a loc, c.value s a = .ok loc ∧ value = [.mov loc (.reg .rax)]) := by
  unfold selectRet at h
  split at h
  · cases h; exact ⟨rfl, [], rfl, .inl rfl⟩
  · next a _ _ =>
    simp only [bind_ok_iff, pure_ok_iff, Prod.mk.injEq] at h
    obtain ⟨loc, hloc, rfl, rfl⟩ := h
    exact ⟨rfl, [_], rfl, .inr ⟨a, loc, hloc, rfl⟩⟩

theorem selectAddress_ok (h : c.selectAddress s i = .ok (s', code)) :
    ∃ a b base index dst, c.value s a = .ok base ∧ c.value s b = .ok index ∧ c.dest i = .ok dst ∧
      s' = s ∧ code = Sequence.elementAddress base index dst := by
  unfold selectAddress at h
  split at h
  · dsimp only at h
    split at h
    · simp only [bind_ok_iff, pure_ok_iff, Prod.mk.injEq] at h
      obtain ⟨dst, hd, index, hi, base, hb, rfl, rfl⟩ := h
      exact ⟨_, _, base, index, dst, hb, hi, hd, rfl, rfl⟩
    · cases h
  · cases h

/-- Memory is the word of a stack local, or lies at an address that is made available. -/
theorem memory_ok {a : Operand} {loc : Loc} (h : c.memory s a = .ok (code, loc)) :
    (∃ x d, a = .reg x ∧ s.frame.displacement? x = some d ∧ code = [] ∧ loc = .frame d) ∨
      ∃ l, code = (Sequence.stage .rax l).1 ∧ loc = .indirect (Sequence.stage .rax l).2 ∧
        ((∃ x, a = .reg x ∧ s.frame.displacement? x = none ∧ c.register s x = .ok l) ∨
          ∃ g, a = .global g ∧ l = .global g) := by
  unfold memory at h
  split at h
  · next x =>
    split at h
    · next d hd => cases h; exact .inl ⟨x, d, rfl, hd, rfl, rfl⟩
    · next hd =>
      simp only [bind_ok_iff, pure_ok_iff, Prod.mk.injEq] at h
      obtain ⟨l, hl, rfl, rfl⟩ := h
      exact .inr ⟨l, rfl, rfl, .inl ⟨x, rfl, hd, hl⟩⟩
  · next g => cases h; exact .inr ⟨_, rfl, rfl, .inr ⟨g, rfl, rfl⟩⟩
  · cases h

theorem selectLoad_ok (h : c.selectLoad s i = .ok (s', code)) :
    ∃ a rest pre src dst, i.operands = a :: rest ∧ c.memory s a = .ok (pre, src) ∧
      c.dest i = .ok dst ∧ s' = s ∧ code = pre ++ Sequence.move src (.reg dst) := by
  simp only [selectLoad, bind_ok_iff, operand_ok_iff, pure_ok_iff, Prod.mk.injEq] at h
  obtain ⟨dst, hd, a, ha, ⟨pre, src⟩, hm, rfl, rfl⟩ := h
  rw [← List.head?_eq_getElem?, List.head?_eq_some_iff] at ha
  obtain ⟨rest, hrest⟩ := ha
  exact ⟨a, rest, pre, src, dst, hrest, hm, hd, rfl, rfl⟩

/-- An argument is bound if it is on the stack and stored to a stack local. -/
theorem bound?_eq_some_iff {a b : Operand} {x : String} {index : Nat} :
    c.bound? s a b = some (x, index) ↔
      ∃ arg, a = .reg arg ∧ b = .reg x ∧ s.frame.contains x ∧ c.stackParam? arg = some index := by
  unfold bound?
  split
  · next arg name =>
    split
    · simp only [Option.map_eq_some_iff, Prod.mk.injEq, Operand.reg.injEq]
      constructor
      · rintro ⟨_, hi, rfl, rfl⟩; exact ⟨arg, rfl, rfl, ‹_›, hi⟩
      · rintro ⟨_, rfl, rfl, -, hi⟩; exact ⟨_, hi, rfl, rfl⟩
    · next hslot =>
      simp only [reduceCtorEq, Operand.reg.injEq, false_iff, not_exists, not_and]
      rintro _ rfl rfl hx
      exact absurd hx hslot
  · next hreg =>
    simp only [reduceCtorEq, false_iff, not_exists, not_and]
    rintro arg rfl rfl
    exact absurd rfl (hreg arg x rfl)

/-- A store binds an argument, or its code moves a value to memory. -/
theorem selectStore_ok (h : c.selectStore s i = .ok (s', code)) :
    ∃ a b rest, i.operands = a :: b :: rest ∧
      ((∃ x index, c.bound? s a b = some (x, index) ∧
          s' = { s with frame := s.frame.bindArgument x index } ∧ code = []) ∨
        c.bound? s a b = none ∧ s' = s ∧ ∃ src pre dst, c.value s a = .ok src ∧
          c.memory s b = .ok (pre, dst) ∧ code = pre ++ Sequence.move src dst) := by
  simp only [selectStore, bind_ok_iff, operand_ok_iff] at h
  obtain ⟨a, ha, b, hb, h⟩ := h
  rw [← List.head?_eq_getElem?, List.head?_eq_some_iff] at ha
  obtain ⟨tail, hab⟩ := ha
  rw [hab, List.getElem?_cons_succ, ← List.head?_eq_getElem?, List.head?_eq_some_iff] at hb
  obtain ⟨rest, rfl⟩ := hb
  refine ⟨a, b, rest, hab, ?_⟩
  split at h
  · next x index hbound => cases h; exact .inl ⟨x, index, hbound, rfl, rfl⟩
  · next hbound =>
    simp only [bind_ok_iff, pure_ok_iff, Prod.mk.injEq] at h
    obtain ⟨src, hsrc, ⟨pre, dst⟩, hm, rfl, rfl⟩ := h
    exact .inr ⟨hbound, rfl, src, pre, dst, hsrc, hm, rfl⟩

/-! ## Jumps -/

/-- Code without conditional jumps. -/
def Straight (code : List Instr) : Prop := ∀ t, Instr.je t ∉ code

theorem straight_move (src dst : Loc) : Straight (Sequence.move src dst) := by
  intro t
  unfold Sequence.move
  split <;> simp

theorem straight_stage (scratch : Reg) (l : Loc) : Straight (Sequence.stage scratch l).1 := by
  intro t
  unfold Sequence.stage
  split <;> simp

theorem straight_stageImm (scratch : Reg) (l : Loc) : Straight (Sequence.stageImm scratch l).1 := by
  intro t
  unfold Sequence.stageImm
  split <;> simp

theorem straight_arith (op : Arith) (lhs rhs : Loc) (dst : Reg) :
    Straight (Sequence.arith op lhs rhs dst) := by
  intro t
  have hstage := straight_stageImm .rcx rhs t
  cases op with
  | mul | sdiv | srem =>
    simpa [Sequence.arith, Sequence.multiply, Sequence.divide] using hstage
  | sub => unfold Sequence.arith Sequence.subtract; dsimp only; split <;> simp
  | _ => unfold Sequence.arith Sequence.commutative; dsimp only; split <;> simp

theorem straight_compare (p : Predicate) (lhs rhs : Loc) (dst : Reg) :
    Straight (Sequence.compare p lhs rhs dst) := by
  intro t
  cases lhs <;> simp [Sequence.compare]

theorem straight_call (preserved : List Reg) (args : List Loc) (callee : String) :
    Straight (Sequence.call preserved args callee) := by
  intro t h
  simp [Sequence.call] at h
  exact absurd (List.mem_of_mem_drop h) (by simp)

theorem straight_elementAddress (base index : Loc) (dst : Reg) :
    Straight (Sequence.elementAddress base index dst) := by
  intro t
  have hbase (r : Reg) := straight_stage r base t
  have hindex := straight_stage .rax index t
  simp [Sequence.elementAddress, hbase, hindex]

theorem straight_memory {a : Operand} {loc : Loc} (h : c.memory s a = .ok (code, loc)) :
    Straight code := by
  rcases memory_ok h with ⟨_, _, -, -, rfl, -⟩ | ⟨l, rfl, -, -⟩
  · simp [Straight]
  · exact straight_stage _ _

/-- Nothing new is known after code that does not branch. -/
def Plain (s s' : State) (code : List Instr) : Prop := s'.known = s.known ∧ Straight code

theorem plain_selectCall (h : c.selectCall s idx i = .ok (s', code)) : Plain s s' code := by
  obtain ⟨args, callee, tail, -, rfl, rfl, htail⟩ := selectCall_ok h
  refine ⟨rfl, fun t => ?_⟩
  have hcall := straight_call (c.preserved s' idx i) args callee t
  rcases htail with ⟨-, rfl⟩ | ⟨dst, -, rfl⟩
  · simpa using hcall
  · simp [hcall]

theorem plain_selectRet (h : c.selectRet s i = .ok (s', code)) : Plain s s' code := by
  obtain ⟨rfl, value, rfl, rfl | ⟨_, loc, -, rfl⟩⟩ := selectRet_cases h
  · exact ⟨rfl, fun t => by simp⟩
  · exact ⟨rfl, fun t => by simp⟩

theorem plain_selectAddress (h : c.selectAddress s i = .ok (s', code)) : Plain s s' code := by
  obtain ⟨_, _, base, index, dst, -, -, -, rfl, rfl⟩ := selectAddress_ok h
  exact ⟨rfl, straight_elementAddress _ _ _⟩

theorem plain_selectLoad (h : c.selectLoad s i = .ok (s', code)) : Plain s s' code := by
  obtain ⟨_, _, pre, src, dst, -, hm, -, rfl, rfl⟩ := selectLoad_ok h
  exact ⟨rfl, fun t => by simp [straight_memory hm t, straight_move _ _ t]⟩

theorem plain_selectStore (h : c.selectStore s i = .ok (s', code)) : Plain s s' code := by
  obtain ⟨_, _, _, -, ⟨x, index, -, rfl, rfl⟩ | ⟨-, rfl, src, pre, dst, -, hm, rfl⟩⟩ :=
    selectStore_ok h
  · exact ⟨rfl, fun t => by simp⟩
  · exact ⟨rfl, fun t => by simp [straight_memory hm t, straight_move _ _ t]⟩

/-- What selection does at a point: it takes a pair of values, or branches, or its code is plain. -/
theorem select_cases (h : c.select s idx i = .ok (s', code)) :
    (∃ seq, (∀ lhs rhs dst, Straight (seq lhs rhs dst)) ∧
      c.selectPair s i i.opcode.eval? seq = .ok (s', code)) ∨
    (i.opcode = .br ∧ c.selectBranch s idx i = .ok (s', code)) ∨ Plain s s' code := by
  unfold select at h
  split at h
  · next op hop =>
    rw [hop]
    exact .inl ⟨_, straight_arith op, h⟩
  · next p hp =>
    rw [hp]
    exact .inl ⟨_, straight_compare p, h⟩
  · next hb => exact .inr (.inl ⟨hb, h⟩)
  · exact .inr (.inr (plain_selectCall h))
  · exact .inr (.inr (plain_selectRet h))
  · exact .inr (.inr (plain_selectAddress h))
  · obtain ⟨_, _, src, dst, -, -, -, rfl, rfl⟩ := selectBitcast_ok h
    exact .inr (.inr ⟨rfl, straight_move _ _⟩)
  · exact .inr (.inr (plain_selectLoad h))
  · exact .inr (.inr (plain_selectStore h))
  · cases h; exact .inr (.inr ⟨rfl, fun t => by simp⟩)
  · cases h

theorem Sound.select (hs : c.Sound s) (hi : i ∈ c.function.body)
    (h : c.select s idx i = .ok (s', code)) : c.Sound s' := by
  rcases select_cases h with ⟨seq, -, h⟩ | ⟨-, h⟩ | ⟨hk, -⟩
  · obtain ⟨a, b, rest, lhs, rhs, dst, hab, ha, hb, -, hfold | ⟨rfl, -⟩⟩ := selectPair_ok h
    · obtain ⟨u, v, w, rfl, rfl, hw, rfl, -⟩ := hfold
      exact hs.learn hi hab ha hb hw
    · exact hs
  · obtain ⟨rfl, -⟩ := selectBranch_ok h
    exact hs
  · intro x v hx
    exact hs (hk ▸ hx)

/-- A conditional jump is made by a branch, where the next point starts a block. -/
theorem straight_or_jumpIfZero (h : c.select s idx i = .ok (s', code)) :
    Straight code ∨
      ∃ loc t l, code = Sequence.jumpIfZero loc t ∧ c.flow.start? l = some (idx + 1) := by
  rcases select_cases h with ⟨seq, hseq, h⟩ | ⟨-, h⟩ | ⟨-, hs⟩
  · obtain ⟨_, _, _, lhs, rhs, dst, -, -, -, -, hfold | ⟨-, rfl⟩⟩ := selectPair_ok h
    · obtain ⟨u, v, w, -, -, -, -, rfl⟩ := hfold
      exact .inl fun t => by simp
    · exact .inl (hseq lhs rhs dst)
  · obtain ⟨-, ⟨l, n, -, -, rfl⟩ | ⟨cond, l, e, loc, -, hl, -, rfl | ⟨v, -, rfl⟩⟩⟩ :=
      selectBranch_ok h
    · exact .inl fun t => by split <;> simp
    · exact .inr ⟨loc, _, l, rfl, hl⟩
    · exact .inl fun t => by split <;> simp
  · exact .inl hs

/-- A conditional jump stands at the end of the code of a point, where the next point starts a
block. -/
theorem straight_or_je (h : c.select s idx i = .ok (s', code)) :
    Straight code ∨ ∃ pre t l, code = pre ++ [.je t] ∧ Straight pre ∧
      c.flow.start? l = some (idx + 1) := by
  rcases straight_or_jumpIfZero h with hs | ⟨loc, t, l, rfl, hl⟩
  · exact .inl hs
  · refine .inr ?_
    unfold Sequence.jumpIfZero
    split
    · exact ⟨[_, _], t, l, rfl, fun t => by simp, hl⟩
    · exact ⟨[_], t, l, rfl, fun t => by simp, hl⟩

end Context

end IrAsm.X86
