import IrAsm.Proofs.Flow

/-!
# Evaluation

What a function computes if it keeps to registers and literals. `f.Evaluates n env w`: with the
registers `env`, control comes from point `n` to a `ret` of `w`. On its way it reads no register
without a value, and no division faults.

An operation on constants is a constant, whatever the path that leads to it, since each name is
defined at one place. `Admits` is what evaluation keeps: registers that are constants have that
value, and stack locals have none.
-/

namespace IrAsm

/-- The registers that have a value. -/
abbrev Env := String → Option Word

def Env.set (env : Env) (x : String) (w : Word) : Env := fun y => if y = x then some w else env y

def Operand.eval (env : Env) : Operand → Option Word
  | .reg x => env x
  | .imm w => some w
  | _ => none

/-- The value of an operation on two words. -/
def Opcode.eval? : Opcode → Word → Word → Option Word
  | .arith op, x, y => op.eval? x y
  | .icmp p, x, y => some (p.eval x y)
  | _, _, _ => none

namespace Instr

/-- The value that an instruction gives its result. -/
def value? (env : Env) (i : Instr) : Option Word :=
  match i.opcode, i.operands with
  | .bitcast, a :: _ => a.eval env
  | op, a :: b :: _ => do op.eval? (← a.eval env) (← b.eval env)
  | _, _ => none

/-- The label that a branch goes to. A condition holds if it is not zero. -/
def target? (env : Env) (i : Instr) : Option String :=
  match i.operands with
  | [.label l] => some l
  | [cond, .label whenTrue, .label whenFalse] => do
    return if (← cond.eval env) ≠ 0 then whenTrue else whenFalse
  | _ => none

/-- Names are defined once. -/
theorem eq_of_result {is : List Instr} (h : (results is).Nodup) {i j : Instr} (hi : i ∈ is)
    (hj : j ∈ is) {x : String} (hx : i.result = some x) (hx' : j.result = some x) : i = j := by
  induction is with
  | nil => cases hi
  | cons k is ih =>
    rw [results_cons, List.nodup_append'] at h
    obtain ⟨-, htail, hdisj⟩ := h
    have hmem {j : Instr} (hj : j ∈ is) (hx : j.result = some x) : x ∈ results is :=
      List.mem_filterMap.mpr ⟨j, hj, hx⟩
    rcases List.mem_cons.mp hi with rfl | hi'
    · rcases List.mem_cons.mp hj with rfl | hj'
      · rfl
      · exact absurd (hmem hj' hx') (hdisj (by simp [hx]))
    · rcases List.mem_cons.mp hj with rfl | hj'
      · exact absurd (hmem hi' hx) (hdisj (by simp [hx']))
      · exact ih htail hi' hj'

theorem index_unique {is : List Instr} (h : (results is).Nodup) {m n : Nat} {i j : Instr}
    (hi : is[m]? = some i) (hj : is[n]? = some j) {x : String} (hx : i.result = some x)
    (hx' : j.result = some x) : m = n := by
  have hpair := List.pairwise_iff_getElem.mp (List.pairwise_filterMap.mp h)
  obtain ⟨hm, rfl⟩ := List.getElem?_eq_some_iff.mp hi
  obtain ⟨hn, rfl⟩ := List.getElem?_eq_some_iff.mp hj
  rcases Nat.lt_trichotomy m n with hlt | rfl | hlt
  · exact absurd rfl (hpair m n hm hn hlt x hx x hx')
  · rfl
  · exact absurd rfl (hpair n m hn hm hlt x hx' x hx)

theorem value?_cases {env : Env} {i : Instr} {w : Word} (h : i.value? env = some w) :
    (i.opcode = .bitcast ∧ ∃ a rest, i.operands = a :: rest ∧ a.eval env = some w) ∨
    ∃ a b rest u v, i.operands = a :: b :: rest ∧ a.eval env = some u ∧ b.eval env = some v ∧
      i.opcode.eval? u v = some w := by
  unfold value? at h
  split at h
  · next a rest hop hab => exact .inl ⟨hop, a, rest, hab, h⟩
  · next a b rest hab _ =>
    simp only [Option.bind_eq_bind, Option.bind_eq_some_iff] at h
    obtain ⟨u, hu, v, hv, h⟩ := h
    exact .inr ⟨a, b, rest, u, v, hab, hu, hv, h⟩
  · cases h

/-- An instruction that gives its result a value goes on with the next point. -/
theorem opcode_of_value? {env : Env} {i : Instr} {w : Word} (h : i.value? env = some w) :
    i.opcode ≠ .br ∧ i.opcode ≠ .ret ∧ i.opcode ≠ .store := by
  rcases value?_cases h with ⟨hop, -⟩ | ⟨_, _, _, _, _, -, -, -, hop⟩
  · simp [hop]
  · refine ⟨?_, ?_, ?_⟩ <;> intro he <;> rw [he] at hop <;> cases hop

theorem target?_mem {env : Env} {i : Instr} {l : String} (h : i.target? env = some l) :
    l ∈ i.targets := by
  refine List.mem_filterMap.mpr ⟨.label l, ?_, rfl⟩
  unfold target? at h
  split at h
  · next hl => cases h; simp [hl]
  · next hl =>
    simp only [Option.bind_eq_bind, Option.bind_eq_some_iff, Option.pure_def] at h
    obtain ⟨w, -, h⟩ := h
    cases h
    rw [hl]
    split <;> simp
  · cases h

end Instr

namespace Function

inductive Evaluates (f : Function) : Nat → Env → Word → Prop where
  | ret {n : Nat} {env : Env} {i : Instr} {a : Operand} {rest : List Operand} {w : Word} :
      f.body[n]? = some i → i.opcode = .ret → i.operands = a :: rest → a.eval env = some w →
      Evaluates f n env w
  | br {n m : Nat} {env : Env} {i : Instr} {l : String} {w : Word} :
      f.body[n]? = some i → i.opcode = .br → i.target? env = some l → f.start? l = some m →
      Evaluates f m env w → Evaluates f n env w
  | assign {n : Nat} {env : Env} {i : Instr} {x : String} {v w : Word} :
      f.body[n]? = some i → i.result = some x → i.value? env = some v →
      Evaluates f (n + 1) (env.set x v) w → Evaluates f n env w

/-- The registers on entry: each parameter has its argument. -/
def entry (f : Function) (args : List Word) : Env := fun x => (f.paramIndex? x).bind (args[·]?)

/-- Operands that have the same value wherever they are read. -/
inductive Constant (f : Function) : Operand → Word → Prop where
  | imm (w : Word) : f.Constant (.imm w) w
  | reg {i : Instr} {x : String} {a b : Operand} {rest : List Operand} {u v w : Word} :
      i ∈ f.body → i.result = some x → i.operands = a :: b :: rest → f.Constant a u →
      f.Constant b v → i.opcode.eval? u v = some w → f.Constant (.reg x) w

structure Admits (f : Function) (env : Env) : Prop where
  constant : ∀ {a : Operand} {v w : Word}, f.Constant a v → a.eval env = some w → w = v
  slot : ∀ {i : Instr} {x : String}, i ∈ f.instrs → i.opcode = .alloca → i.result = some x →
    env x = none

theorem entry_eq_none {f : Function} {args : List Word} {x : String}
    (h : x ∉ f.params.map Param.name) : f.entry args x = none := by
  have hidx : f.paramIndex? x = none := by
    rw [paramIndex?, List.findIdx?_eq_none_iff]
    exact fun p hp => beq_eq_false_iff_ne.mpr fun he => h (he ▸ List.mem_map_of_mem hp)
  rw [entry, hidx, Option.bind_none]

theorem admits_entry {f : Function} (hf : f.WellFormed) (args : List Word) :
    f.Admits (f.entry args) := by
  have hnone {i : Instr} {x : String} (hi : i ∈ f.instrs) (hx : i.result = some x) :
      f.entry args x = none :=
    entry_eq_none (hf.params x (List.mem_filterMap.mpr ⟨i, hi, hx⟩))
  refine ⟨fun hc he => ?_, fun hi _ hx => hnone hi hx⟩
  cases hc with
  | imm v => exact (Option.some.inj he).symm
  | reg hi hx => rw [Operand.eval, hnone (mem_body.mp hi).1 hx] at he; cases he

/-- One instruction more. -/
theorem Admits.set {f : Function} {env : Env} (h : f.Admits env) (hf : f.WellFormed) {i : Instr}
    (hi : i ∈ f.body) {x : String} {w : Word} (hx : i.result = some x)
    (hw : i.value? env = some w) : f.Admits (env.set x w) := by
  have hinstr := (mem_body.mp hi).1
  refine ⟨fun {a v w'} hc he => ?_, fun {j y} hj ha hy => ?_⟩
  · cases hc with
    | imm v => exact (Option.some.inj he).symm
    | @reg j y _ _ _ _ _ _ hj hy hab ha hb hop =>
      by_cases hyx : y = x
      · have hji : j = i := Instr.eq_of_result hf.results (mem_body.mp hj).1 hinstr (hyx ▸ hy) hx
        have hw' : w = w' := by simpa [Operand.eval, Env.set, hyx] using he
        rw [hji] at hab hop
        rcases Instr.value?_cases hw with ⟨hcast, -⟩ | ⟨_, _, _, _, _, hab', ha', hb', hop'⟩
        · rw [hcast] at hop; cases hop
        · rw [hab'] at hab
          cases hab
          rw [h.constant ha ha', h.constant hb hb', hop] at hop'
          exact hw' ▸ (Option.some.inj hop').symm
      · refine h.constant (.reg hj hy hab ha hb hop) ?_
        simpa [Operand.eval, Env.set, hyx] using he
  · have hne : y ≠ x := by
      rintro rfl
      obtain rfl := Instr.eq_of_result hf.results hj hinstr hy hx
      exact (mem_body.mp hi).2 ha
    simpa [Env.set, hne] using h.slot hj ha hy

end Function

end IrAsm
