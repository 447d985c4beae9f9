import IrAsm.Proofs.Steps
import IrAsm.Proofs.X86.States

/-!
# Known values in executions

Selection folds in the order of the text, and control takes the points in another order, some of
them many times or never. Still, a name that selection knows has one definition, and whenever an
execution comes to it the definition gives the known value. So a branch on a known condition takes
the same block in every execution, and selection emits a jump if that is the second block; the first
one follows anyway.

All executions take the second block also where both blocks are the same one, and where no execution
comes to the branch. Then the condition alone decides about the jump.
-/

namespace IrAsm.X86.Context

variable {c : Context} {s s' : State} {n : Nat} {i : IrAsm.Instr} {code : List Instr}

theorem StateAt.sound (hc : Flow.Represents c.function c.flow) (h : c.StateAt n s) : c.Sound s := by
  induction h with
  | zero => exact c.sound_initial
  | succ _ hp hsel ih => exact Sound.select ih (hc.instr_mem_body (List.mem_of_getElem? hp)) hsel

/-- The point that defines a known name stands above, and there is no other. -/
theorem StateAt.exists_definition (hf : c.function.WellFormed)
    (hc : Flow.Represents c.function c.flow) (h : c.StateAt n s) {x : String} {v : Word}
    (hx : s.known[x]? = some v) :
    ∃ m i, m < n ∧ c.function.body[m]? = some i ∧ i.result = some x ∧
      ∀ k j, c.function.body[k]? = some j → j.result = some x → k = m := by
  obtain ⟨-, m, p, hm, hp, hw, -⟩ := h.exists_of_known (Option.isSome_of_eq_some hx)
  have hi : c.function.body[m]? = some p.instr := by simp [← hc.instrs, hp]
  have hr := Flow.mem_writes hw
  exact ⟨m, p.instr, hm, hi, hr, fun k j hj hjx => hf.index_unique hj hi hjx hr⟩

theorem code_of_known (ho : c.config.optimize = true) (hop : i.opcode = .br) {cond : Operand}
    {t e : String} (hops : i.operands = [cond, .label t, .label e]) {v : Word}
    (hv : c.value s cond = .ok (.imm v)) (h : c.select s n i = .ok (s', code)) :
    code = if v = 0 then [.jmp (c.blockLabel e)] else [] := by
  simp only [select, hop, selectBranch, hops, bind_ok_iff] at h
  obtain ⟨start, -, h⟩ := h
  split at h
  · simp at h
  · obtain ⟨loc, hloc, h⟩ := bind_ok_iff.mp h
    obtain rfl : loc = .imm v := Except.ok.inj (hloc.symm.trans hv)
    rw [ho] at h
    cases h
    rfl

/-- What is known is what executions compute, and a branch on a known condition is resolved as they
take it. -/
theorem known_values_computed (hv : c.function.verify = .ok ())
    (hb : Flow.build c.function = .ok c.flow) (ho : c.config.optimize = true) (hs : c.StateAt n s) :
    (∀ x v, s.known[x]? = some v → ∃ m i, m < n ∧ c.function.body[m]? = some i ∧ i.result = some x ∧
      (∀ k j, c.function.body[k]? = some j → j.result = some x → k = m) ∧
      ∀ place env, c.function.Reaches place m env → i.Defined env →
        ∀ w, i.Gives place env w ↔ w = v) ∧
    ∀ i cond t e v s' code, c.function.body[n]? = some i → i.opcode = .br →
      i.operands = [cond, .label t, .label e] →
      cond = .imm v ∨ (∃ x, cond = .reg x ∧ s.known[x]? = some v) →
      c.select s n i = .ok (s', code) →
      code = (if v = 0 then [.jmp (c.blockLabel e)] else []) ∧
      (∀ l, c.function.Takes n l → l = if v = 0 then e else t) ∧
      (t ≠ e → (∃ l, c.function.Takes n l) →
        (.jmp (c.blockLabel e) ∈ code ↔ ∀ l, c.function.Takes n l → l = e)) := by
  have hf := Function.wellFormed_of_verify hv
  have hc := Flow.represents_of_build hf hb
  have hsound : c.Sound s := hs.sound hc
  constructor
  · intro x v hx
    obtain ⟨m, i, hm, hi, hr, hunique⟩ := hs.exists_definition hf hc hx
    refine ⟨m, i, hm, hi, hr, hunique, fun place env hreach hdef w => ?_⟩
    exact (Function.steady_of_reaches hf hreach).gives_iff hf (List.mem_of_getElem? hi) hr
      (hsound hx) hdef
  · intro i cond t e v s' code hi hop hops hcond hsel
    have hvalue : c.value s cond = .ok (.imm v) := by
      rcases hcond with rfl | ⟨x, rfl, hx⟩
      · rfl
      · simp [value, register, hx]
    have hcode := code_of_known ho hop hops hvalue hsel
    have htakes {l : String} (h : c.function.Takes n l) : l = if v = 0 then e else t :=
      Function.takes_of_constant hf hi hops (constant_of_value hsound hvalue) h
    refine ⟨hcode, fun l h => htakes h, ?_⟩
    rintro hne ⟨l, hl⟩
    by_cases hz : v = 0
    · rw [if_pos hz] at hcode
      refine iff_of_true (by simp [hcode]) fun l' h => ?_
      rw [htakes h, if_pos hz]
    · rw [if_neg hz] at hcode
      refine iff_of_false (by simp [hcode]) fun hall => hne ?_
      rw [← hall l hl, htakes hl, if_neg hz]

/-- A loop that no execution leaves. -/
def looping : Function where
  name := "f"
  ret := .int 64
  params := []
  blocks := [⟨some "entry", [⟨.icmp .slt, [.imm 3, .imm 3], some "p", .int 1⟩,
      ⟨.br, [.reg "p", .label "out", .label "entry"], none, .void⟩]⟩,
    ⟨some "out", [⟨.ret, [.imm 1], none, .void⟩]⟩]

theorem known_values_computed_looping :
    looping.verify = .ok () ∧ ∃ (c : Context) (s s' : State) (i : IrAsm.Instr) (code : List Instr),
      c.function = looping ∧ Flow.build looping = .ok c.flow ∧ c.config.optimize = true ∧
      c.StateAt 1 s ∧ s.known["p"]? = some 0 ∧ looping.body[1]? = some i ∧
      c.select s 1 i = .ok (s', code) ∧ looping.Takes 1 "entry" ∧ .jmp (.block "f" "entry") ∈ code ∧
      ∀ l, looping.Takes 1 l → l = "entry" := by
  have hv : looping.verify = .ok () := ok_of_toBool (by decide +kernel)
  let test : IrAsm.Instr := ⟨.icmp .slt, [.imm 3, .imm 3], some "p", .int 1⟩
  let branch : IrAsm.Instr := ⟨.br, [.reg "p", .label "out", .label "entry"], none, .void⟩
  have heval : ((Flow.build looping).toOption.bind fun fl =>
      let c : Context := ⟨looping, fl, Liveness.analyze fl.points, ⟨.ofList [("p", 0)]⟩, {}⟩
      (c.select c.initial 0 test).toOption.bind fun r =>
        (c.select r.1 1 branch).toOption.map fun _ => r.1.known["p"]?) = some (some 0) := by
    decide +kernel
  simp only [Option.bind_eq_some_iff, Option.map_eq_some_iff, toOption_eq_some_iff] at heval
  obtain ⟨fl, hb, ⟨s, code₀⟩, hsel₀, ⟨s', code⟩, hsel, hp⟩ := heval
  have hc := Flow.represents_of_build (Function.wellFormed_of_verify hv) hb
  obtain ⟨p, hpoint, hinstr⟩ := hc.exists_point (n := 0) (i := test) rfl
  let c : Context := ⟨looping, fl, Liveness.analyze fl.points, ⟨.ofList [("p", 0)]⟩, {}⟩
  have hs : c.StateAt 1 s := .succ .zero hpoint (hinstr ▸ hsel₀)
  -- no register has a value on entry, and the comparison gives `p` the value zero
  have htakes : looping.Takes 1 "entry" := by
    refine ⟨fun _ => 0, Env.set (fun _ => none) "p" 0, branch,
      ⟨_, Function.begins_none rfl (by decide), .single ?_⟩, rfl, rfl, ?_, rfl⟩
    · have hzero : test.Gives (fun _ => 0) (fun _ => none) 0 :=
        .pair rfl rfl rfl (Opcode.yields_icmp_iff.mpr (by decide))
      exact .assign rfl (by simp [Instr.Defined]) rfl hzero
    · simp [Instr.Defined, Env.set, branch]
  obtain ⟨-, hall, hjump⟩ :=
    (known_values_computed (c := c) hv hb rfl hs).2 branch
      (.reg "p") "out" "entry" 0 s' code rfl rfl rfl (.inr ⟨"p", rfl, hp⟩) hsel
  exact ⟨hv, c, s, s', branch, code, rfl, hb, rfl, hs, hp, rfl, hsel, htakes,
    (hjump (by decide) ⟨_, htakes⟩).mpr hall, hall⟩

/-- A branch to one block, and one that no execution comes to. -/
def decided : Function where
  name := "f"
  ret := .int 64
  params := []
  blocks := [⟨some "entry", [⟨.br, [.imm 1, .label "on", .label "on"], none, .void⟩]⟩,
    ⟨some "on", [⟨.ret, [.imm 0], none, .void⟩]⟩,
    ⟨some "dead", [⟨.br, [.imm 1, .label "a", .label "b"], none, .void⟩]⟩,
    ⟨some "a", [⟨.ret, [.imm 1], none, .void⟩]⟩, ⟨some "b", [⟨.ret, [.imm 2], none, .void⟩]⟩]

theorem reaches_decided {place : String → Word} {n : Nat} {env : Env}
    (h : decided.Reaches place n env) : n = 0 ∨ n = 1 := by
  refine h.invariant (P := fun n _ => n = 0 ∨ n = 1) (fun _ _ => .inl rfl) fun hn hstep => ?_
  cases hstep with
  | assign hi _ hx _ => rcases hn with rfl | rfl <;> (cases hi; cases hx)
  | pass hi _ hop => rcases hn with rfl | rfl <;> (cases hi; simp [Instr.isOpen] at hop)
  | jump hi _ hop hl hm =>
    rcases hn with rfl | rfl
    · cases hi
      cases hl
      cases hm
      exact .inr rfl
    · cases hi
      cases hop

/-- All executions take the second block of a branch, since it is the first one too or since there
are none, and there is no jump to it. -/
theorem no_jump_decided :
    decided.verify = .ok () ∧ ∃ c : Context, c.function = decided ∧
      Flow.build decided = .ok c.flow ∧ c.config.optimize = true ∧
      (∃ i s s' code, decided.body[0]? = some i ∧ i.opcode = .br ∧
        i.operands = [.imm 1, .label "on", .label "on"] ∧ c.StateAt 0 s ∧
        c.select s 0 i = .ok (s', code) ∧ (∃ l, decided.Takes 0 l) ∧
        ¬ (.jmp (c.blockLabel "on") ∈ code ↔ ∀ l, decided.Takes 0 l → l = "on")) ∧
      ∃ i s s' code, decided.body[2]? = some i ∧ i.opcode = .br ∧
        i.operands = [.imm 1, .label "a", .label "b"] ∧ c.StateAt 2 s ∧
        c.select s 2 i = .ok (s', code) ∧
        ¬ (.jmp (c.blockLabel "b") ∈ code ↔ ∀ l, decided.Takes 2 l → l = "b") := by
  have hv : decided.verify = .ok () := ok_of_toBool (by decide +kernel)
  let first : IrAsm.Instr := ⟨.br, [.imm 1, .label "on", .label "on"], none, .void⟩
  let exit : IrAsm.Instr := ⟨.ret, [.imm 0], none, .void⟩
  let second : IrAsm.Instr := ⟨.br, [.imm 1, .label "a", .label "b"], none, .void⟩
  have heval : ((Flow.build decided).toOption.bind fun fl =>
      let c : Context := ⟨decided, fl, Liveness.analyze fl.points, ⟨∅⟩, {}⟩
      (c.select c.initial 0 first).toOption.bind fun r =>
        (c.select r.1 1 exit).toOption.bind fun r' =>
          (c.select r'.1 2 second).toOption.map fun r'' => (r.2, r''.2)) = some ([], []) := by
    decide +kernel
  simp only [Option.bind_eq_some_iff, Option.map_eq_some_iff, toOption_eq_some_iff,
    Prod.mk.injEq] at heval
  obtain ⟨fl, hb, ⟨s₁, code₀⟩, hsel₀, ⟨s₂, code₁⟩, hsel₁, ⟨s₃, code₂⟩, hsel₂, rfl, rfl⟩ := heval
  have hc := Flow.represents_of_build (Function.wellFormed_of_verify hv) hb
  obtain ⟨p, hp, hpi⟩ := hc.exists_point (n := 0) (i := first) rfl
  obtain ⟨q, hq, hqi⟩ := hc.exists_point (n := 1) (i := exit) rfl
  let c : Context := ⟨decided, fl, Liveness.analyze fl.points, ⟨∅⟩, {}⟩
  have hs : c.StateAt 2 s₂ := .succ (.succ .zero hp (hpi ▸ hsel₀)) hq (hqi ▸ hsel₁)
  have htakes : decided.Takes 0 "on" :=
    ⟨fun _ => 0, fun _ => none, first, ⟨_, Function.begins_none rfl (by decide), .refl⟩, rfl, rfl,
      by simp [Instr.Defined, first], rfl⟩
  refine ⟨hv, c, rfl, hb, rfl, ⟨first, _, _, _, rfl, rfl, rfl, .zero, hsel₀, ⟨_, htakes⟩, ?_⟩,
    second, _, _, _, rfl, rfl, rfl, hs, hsel₂, ?_⟩
  · refine fun h => List.not_mem_nil (h.mpr fun l hl => ?_)
    obtain ⟨place, env, i, -, hi, -, -, hl⟩ := hl
    cases hi
    cases hl
    rfl
  · refine fun h => List.not_mem_nil (h.mpr fun l hl => ?_)
    obtain ⟨place, env, i, hreach, -⟩ := hl
    exact absurd (reaches_decided hreach) (by decide)

end IrAsm.X86.Context
