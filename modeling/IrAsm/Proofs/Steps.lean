import IrAsm.Proofs.Integers
import Mathlib.Logic.Relation

/-!
# Executions

`f.Step place (n, env) (m, env')`: at point `n` with the registers `env`, an execution goes on to
point `m` with the registers `env'`. It reads no register without a value, and has no step where a
division has no quotient. What memory holds and what callees return is left open: a load or a call
gives any word. So the executions with any memory, callees and arguments are among these. `place`
says where the globals lie.

A constant has its value in every execution and on every path (`steady_of_reaches`), since each name
is defined at one point. So the point that defines it gives just that value, and does not stop
(`Steady.gives_iff`).
-/

namespace IrAsm

def Operand.valueIn (place : String → Word) (env : Env) : Operand → Option Word
  | .reg x => env x
  | .imm w => some w
  | .global g => some (place g)
  | _ => none

namespace Instr

/-- The registers that the instruction reads have values. -/
def Defined (env : Env) (i : Instr) : Prop := ∀ x, .reg x ∈ i.operands → (env x).isSome

/-- What the instruction gives depends on more than its operands. -/
def isOpen (i : Instr) : Bool :=
  match i.opcode with
  | .load | .call | .unsupported _ => true
  | .getelementptr => i.pair?.isNone
  | _ => false

/-- The instruction can give its result the value `w`. -/
inductive Gives (place : String → Word) (env : Env) (i : Instr) : Word → Prop where
  | pair {a b : Operand} {x y w : Word} : i.pair? = some (a, b) → a.valueIn place env = some x →
      b.valueIn place env = some y → i.opcode.Yields x y w → Gives place env i w
  | copy {a : Operand} {rest : List Operand} {w : Word} : i.opcode = .bitcast →
      i.operands = a :: rest → a.valueIn place env = some w → Gives place env i w
  | outside (w : Word) : i.isOpen → Gives place env i w

/-- The block that a branch goes to. -/
def takes? (place : String → Word) (env : Env) (i : Instr) : Option String :=
  match i.operands with
  | [.label l] => some l
  | [cond, .label whenTrue, .label whenFalse] =>
    (cond.valueIn place env).map fun v => if v = 0 then whenFalse else whenTrue
  | _ => none

theorem takes?_of_value {place : String → Word} {env : Env} {i : Instr} {cond : Operand}
    {whenTrue whenFalse : String} {v : Word}
    (hops : i.operands = [cond, .label whenTrue, .label whenFalse])
    (hv : cond.valueIn place env = some v) :
    i.takes? place env = some (if v = 0 then whenFalse else whenTrue) := by
  simp [takes?, hops, hv]

/-- An operation that has a value gives it, and nothing else. -/
theorem gives_iff_of_eval? {place : String → Word} {env : Env} {i : Instr} {a b : Operand}
    {rest : List Operand} {x y v w : Word} (hops : i.operands = a :: b :: rest)
    (ha : a.valueIn place env = some x) (hb : b.valueIn place env = some y)
    (hv : i.opcode.eval? x y = some v) : i.Gives place env w ↔ w = v := by
  have hop : i.opcode ≠ .getelementptr := fun he => by rw [he] at hv; cases hv
  have hpair := pair?_of_operands hop hops
  rw [← Opcode.yields_iff_of_eval? hv]
  refine ⟨fun h => ?_, .pair hpair ha hb⟩
  cases h with
  | pair hpair' ha' hb' hw =>
    cases hpair.symm.trans hpair'
    cases ha.symm.trans ha'
    cases hb.symm.trans hb'
    exact hw
  | copy hcast => rw [hcast] at hv; cases hv
  | outside w hopen =>
    cases hi : i.opcode with
    | arith op => simp [isOpen, hi] at hopen
    | icmp p => simp [isOpen, hi] at hopen
    | _ => rw [hi] at hv; cases hv

end Instr

namespace Function

variable {f : Function} {place : String → Word} {env : Env} {i : Instr} {n : Nat}

inductive Step (f : Function) (place : String → Word) : Nat × Env → Nat × Env → Prop where
  | assign {n : Nat} {env : Env} {i : Instr} {x : String} {w : Word} : f.body[n]? = some i →
      i.Defined env → i.result = some x → i.Gives place env w →
      f.Step place (n, env) (n + 1, env.set x w)
  | pass {n : Nat} {env : Env} {i : Instr} : f.body[n]? = some i → i.Defined env →
      i.opcode = .store ∨ i.isOpen ∧ i.result = none → f.Step place (n, env) (n + 1, env)
  | jump {n m : Nat} {env : Env} {i : Instr} {l : String} : f.body[n]? = some i → i.Defined env →
      i.opcode = .br → i.takes? place env = some l → f.start? l = some m →
      f.Step place (n, env) (m, env)

/-- The registers on entry: parameters have their arguments, and stack locals have addresses. -/
def Begins (f : Function) (env : Env) : Prop :=
  ∀ x, (env x).isSome ↔
    x ∈ f.params.map Param.name ∨ ∃ i ∈ f.instrs, i.opcode = .alloca ∧ i.result = some x

theorem begins_none (hp : f.params = []) (ha : ∀ i ∈ f.instrs, i.opcode ≠ .alloca) :
    f.Begins fun _ => none := by
  intro x
  refine iff_of_false (by simp) ?_
  rintro (hx | ⟨i, hi, hop, -⟩)
  · simp [hp] at hx
  · exact ha i hi hop

/-- Some execution comes to point `n` with the registers `env`. -/
def Reaches (f : Function) (place : String → Word) (n : Nat) (env : Env) : Prop :=
  ∃ start, f.Begins start ∧ Relation.ReflTransGen (f.Step place) (0, start) (n, env)

/-- What holds on entry and is kept by every step holds wherever an execution comes. -/
theorem Reaches.invariant {P : Nat → Env → Prop} (hbegin : ∀ env, f.Begins env → P 0 env)
    (hstep : ∀ {n env m env'}, P n env → f.Step place (n, env) (m, env') → P m env')
    (h : f.Reaches place n env) : P n env := by
  obtain ⟨start, hstart, hsteps⟩ := h
  suffices hinv : ∀ p, Relation.ReflTransGen (f.Step place) (0, start) p →
      P p.1 p.2 from hinv _ hsteps
  intro p hp
  induction hp with
  | refl => exact hbegin start hstart
  | tail _ hnext ih => exact hstep ih hnext

/-- Some execution takes the block `l` at the branch at point `n`. -/
def Takes (f : Function) (n : Nat) (l : String) : Prop :=
  ∃ place env i, f.Reaches place n env ∧ f.body[n]? = some i ∧ i.opcode = .br ∧ i.Defined env ∧
    i.takes? place env = some l

/-- Constants have no other value. -/
def Steady (f : Function) (env : Env) : Prop :=
  ∀ x v w, f.Constant (.reg x) v → env x = some w → w = v

/-- Points that define the same name are one. -/
theorem WellFormed.index_unique (hf : f.WellFormed) {m n : Nat} {i j : Instr}
    (hi : f.body[m]? = some i) (hj : f.body[n]? = some j) {x : String} (hx : i.result = some x)
    (hx' : j.result = some x) : m = n := by
  have hbody : f.body = f.instrs.filter (·.opcode ≠ .alloca) := by
    rw [instrs, List.filter_flatMap]
    rfl
  have hsub : (Instr.results f.body).Sublist (Instr.results f.instrs) :=
    (hbody ▸ List.filter_sublist).filterMap _
  exact Instr.index_unique (hf.results.sublist hsub) hi hj hx hx'

namespace Steady

theorem valueIn (h : f.Steady env) {a : Operand} {v : Word} (hc : f.Constant a v)
    (ha : a ∈ i.operands) (hdef : i.Defined env) : a.valueIn place env = some v := by
  cases a with
  | imm w => cases hc; rfl
  | reg x =>
    obtain ⟨w, hw⟩ := Option.isSome_iff_exists.mp (hdef x ha)
    obtain rfl := h x v w hc hw
    exact hw
  | _ => cases hc

/-- The point that defines a constant gives its value, and nothing else. -/
theorem gives_iff (h : f.Steady env) (hf : f.WellFormed) (hi : i ∈ f.body) {x : String}
    (hx : i.result = some x) {v : Word} (hc : f.Constant (.reg x) v) (hdef : i.Defined env)
    {w : Word} : i.Gives place env w ↔ w = v := by
  cases hc with
  | @reg j _ a b rest u u' _ hj hy hops ha hb hop =>
    obtain rfl := Instr.eq_of_result hf.results (mem_body.mp hi).1 (mem_body.mp hj).1 hx hy
    exact Instr.gives_iff_of_eval? hops (h.valueIn ha (by simp [hops]) hdef)
      (h.valueIn hb (by simp [hops]) hdef) hop

theorem step (h : f.Steady env) (hf : f.WellFormed) {m : Nat} {env' : Env}
    (hstep : f.Step place (n, env) (m, env')) : f.Steady env' := by
  cases hstep with
  | @assign _ _ i y w hi hdef hy hw =>
    intro x v w' hc hx
    by_cases hxy : x = y
    · subst hxy
      obtain rfl : w = w' := by simpa [Env.set] using hx
      exact (h.gives_iff hf (List.mem_of_getElem? hi) hy hc hdef).mp hw
    · exact h x v w' hc (by simpa [Env.set, hxy] using hx)
  | pass => exact h
  | jump => exact h

end Steady

/-- Parameters and stack locals are no constants. -/
theorem steady_of_begins (hf : f.WellFormed) (h : f.Begins env) : f.Steady env := by
  intro x v w hc hx
  cases hc with
  | @reg i _ _ _ _ _ _ _ hi hy =>
    obtain ⟨hinstr, halloca⟩ := mem_body.mp hi
    rcases (h x).mp (by simp [hx]) with hparam | ⟨j, hj, hop, hjx⟩
    · exact absurd hparam (hf.params x (List.mem_filterMap.mpr ⟨i, hinstr, hy⟩))
    · obtain rfl := Instr.eq_of_result hf.results hinstr hj hy hjx
      exact absurd hop halloca

theorem steady_of_reaches (hf : f.WellFormed) (h : f.Reaches place n env) : f.Steady env :=
  h.invariant (P := fun _ env => f.Steady env) (fun _ => steady_of_begins hf) fun hsteady =>
    hsteady.step hf

/-- A branch on a constant takes the same block in every execution. -/
theorem takes_of_constant (hf : f.WellFormed) (hi : f.body[n]? = some i) {cond : Operand}
    {whenTrue whenFalse : String} (hops : i.operands = [cond, .label whenTrue, .label whenFalse])
    {v : Word} (hc : f.Constant cond v) {l : String} (h : f.Takes n l) :
    l = if v = 0 then whenFalse else whenTrue := by
  obtain ⟨place, env, j, hreach, hj, -, hdef, hl⟩ := h
  obtain rfl := Option.some.inj (hi.symm.trans hj)
  have hv : cond.valueIn place env = some v :=
    (steady_of_reaches hf hreach).valueIn hc (by simp [hops]) hdef
  rw [Instr.takes?_of_value hops hv] at hl
  exact (Option.some.inj hl).symm

end Function

end IrAsm
