import IrAsm.Proofs.Eval

/-!
# Operations on integers

What the operations mean for the signed values of words: sums, differences and products are taken
modulo `2 ^ 64`, a quotient is rounded toward zero, and its remainder has the sign of the dividend.
A quotient that is the value of no word does not exist, and then there is no remainder either.

`Opcode.Yields` says so without reference to how one computes with words, and the operations on
words give just the words that it allows.
-/

namespace IrAsm

namespace Word

variable {x y q r : Word}

/-- `q` is the quotient of `x` and `y`. -/
def IsQuotient (x y q : Word) : Prop := y ≠ 0 ∧ q.toInt = x.toInt.tdiv y.toInt

/-- The least word divided by minus one would be too large. -/
theorem not_isQuotient_of_divFaults (h : divFaults x y = true) : ¬ IsQuotient x y q := by
  rintro ⟨hy, hq⟩
  simp only [divFaults, Bool.or_eq_true, beq_iff_eq, Bool.and_eq_true, hy, false_or] at h
  obtain ⟨rfl, rfl⟩ := h
  have hlt := BitVec.toInt_lt (x := q)
  rw [hq] at hlt
  exact absurd hlt (by decide)

theorem isQuotient_sdiv (h : divFaults x y = false) : IsQuotient x y (x.sdiv y) := by
  simp only [divFaults, Bool.or_eq_false_iff, beq_eq_false_iff_ne] at h
  obtain ⟨hy, h⟩ := h
  refine ⟨hy, BitVec.toInt_sdiv_of_ne_or_ne _ _ ?_⟩
  simpa [Decidable.or_iff_not_imp_left] using h

theorem IsQuotient.unique (h : IsQuotient x y q) (h' : IsQuotient x y r) : q = r :=
  BitVec.toInt_inj.mp (h.2.trans h'.2.symm)

theorem div?_eq_some_iff : x.div? y = some q ↔ IsQuotient x y q := by
  unfold div?
  split
  · next h => simp [not_isQuotient_of_divFaults h]
  · next h =>
    have hq := isQuotient_sdiv (by simpa using h)
    rw [Option.some.injEq]
    exact ⟨fun he => he ▸ hq, fun hq' => hq.unique hq'⟩

theorem rem?_eq_some_iff :
    x.rem? y = some r ↔ (∃ q, IsQuotient x y q) ∧ r.toInt = x.toInt.tmod y.toInt := by
  unfold rem?
  split
  · next h => simp [not_isQuotient_of_divFaults h]
  · next h =>
    have hq := isQuotient_sdiv (by simpa using h)
    rw [Option.some.injEq, ← BitVec.toInt_srem, BitVec.toInt_inj, eq_comm]
    exact ⟨fun he => ⟨⟨_, hq⟩, he⟩, And.right⟩

end Word

def Predicate.Compares : Predicate → Int → Int → Prop
  | .eq, m, n => m = n
  | .ne, m, n => m ≠ n
  | .slt, m, n => m < n
  | .sle, m, n => m ≤ n
  | .sgt, m, n => n < m
  | .sge, m, n => n ≤ m

theorem Predicate.holds_iff {p : Predicate} {x y : Word} :
    p.holds x y ↔ p.Compares x.toInt y.toInt := by
  cases p <;>
    simp [holds, Compares, BitVec.toInt_inj, BitVec.slt_iff_toInt_lt, BitVec.sle_iff_toInt_le]

namespace Opcode

/-- The operation gives `w` on operands with the values `x` and `y`. -/
def Yields : Opcode → Word → Word → Word → Prop
  | .arith .add, x, y, w => w = .ofInt 64 (x.toInt + y.toInt)
  | .arith .sub, x, y, w => w = .ofInt 64 (x.toInt - y.toInt)
  | .arith .mul, x, y, w => w = .ofInt 64 (x.toInt * y.toInt)
  | .arith .sdiv, x, y, w => x.IsQuotient y w
  | .arith .srem, x, y, w => (∃ q, x.IsQuotient y q) ∧ w.toInt = x.toInt.tmod y.toInt
  | .arith .or, x, y, w => ∀ n, w.getLsbD n = (x.getLsbD n || y.getLsbD n)
  | .arith .and, x, y, w => ∀ n, w.getLsbD n = (x.getLsbD n && y.getLsbD n)
  | .icmp p, x, y, w => p.Compares x.toInt y.toInt ∧ w = 1 ∨ ¬ p.Compares x.toInt y.toInt ∧ w = 0
  | .getelementptr, x, y, w => w = .ofInt 64 (x.toInt + 8 * y.toInt)
  | _, _, _, _ => False

theorem yields_arith_iff {op : Arith} {x y w : Word} :
    (Opcode.arith op).Yields x y w ↔ op.eval? x y = some w := by
  cases op with
  | add => simp [Yields, Arith.eval?, BitVec.ofInt_add, eq_comm]
  | sub =>
    simp [Yields, Arith.eval?, Int.sub_eq_add_neg, BitVec.sub_eq_add_neg, BitVec.ofInt_add,
      BitVec.ofInt_neg, eq_comm]
  | mul => simp [Yields, Arith.eval?, BitVec.ofInt_mul, eq_comm]
  | sdiv => exact Word.div?_eq_some_iff.symm
  | srem => exact Word.rem?_eq_some_iff.symm
  | or =>
    rw [Yields, Arith.eval?, Option.some.injEq]
    exact ⟨fun h => BitVec.eq_of_getLsbD_eq fun n _ => by rw [BitVec.getLsbD_or, h],
      fun h n => by rw [← h, BitVec.getLsbD_or]⟩
  | and =>
    rw [Yields, Arith.eval?, Option.some.injEq]
    exact ⟨fun h => BitVec.eq_of_getLsbD_eq fun n _ => by rw [BitVec.getLsbD_and, h],
      fun h n => by rw [← h, BitVec.getLsbD_and]⟩

theorem yields_icmp_iff {p : Predicate} {x y w : Word} :
    (Opcode.icmp p).Yields x y w ↔ w = p.eval x y := by
  simp only [Yields, Predicate.eval, ← Predicate.holds_iff]
  cases p.holds x y <;> simp

theorem yields_getelementptr_iff {x y w : Word} :
    Opcode.getelementptr.Yields x y w ↔ w = x + 8 * y := by
  simp [Yields, BitVec.ofInt_add, BitVec.ofInt_mul]

theorem yields_iff_of_eval? {op : Opcode} {x y v w : Word} (h : op.eval? x y = some v) :
    op.Yields x y w ↔ w = v := by
  cases op with
  | arith op =>
    have h : op.eval? x y = some v := h
    rw [yields_arith_iff, h, Option.some.injEq, eq_comm]
  | icmp p => cases h; exact yields_icmp_iff
  | _ => cases h

end Opcode

namespace Instr

/-- The operands of an operation on two values. An address has a base and an index, with no more
than zeros between them. -/
def pair? (i : Instr) : Option (Operand × Operand) :=
  match i.opcode, i.operands with
  | .getelementptr, base :: first :: rest =>
    if (first :: rest).dropLast.all (· == .imm 0) then
      some (base, (first :: rest).getLast (List.cons_ne_nil _ _))
    else none
  | .getelementptr, _ => none
  | _, a :: b :: _ => some (a, b)
  | _, _ => none

theorem pair?_cases {i : Instr} {a b : Operand} (h : i.pair? = some (a, b)) :
    (i.opcode = .getelementptr ∧ ∃ first rest, i.operands = a :: first :: rest ∧
      (first :: rest).dropLast.all (· == .imm 0) ∧
      b = (first :: rest).getLast (List.cons_ne_nil _ _)) ∨
    i.opcode ≠ .getelementptr ∧ ∃ rest, i.operands = a :: b :: rest := by
  unfold pair? at h
  split at h
  · next base first rest hop hops =>
    split at h
    · next hzero =>
      cases h
      exact .inl ⟨hop, first, rest, hops, hzero, rfl⟩
    · cases h
  · cases h
  · next a' b' rest hops hop =>
    cases h
    exact .inr ⟨hop, rest, hops⟩
  · cases h

theorem pair?_of_operands {i : Instr} {a b : Operand} {rest : List Operand}
    (hop : i.opcode ≠ .getelementptr) (hops : i.operands = a :: b :: rest) :
    i.pair? = some (a, b) := by
  cases h : i.opcode with
  | getelementptr => exact absurd h hop
  | _ => simp [pair?, h, hops]

end Instr

end IrAsm
