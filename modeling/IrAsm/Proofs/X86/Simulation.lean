import IrAsm.Proofs.X86.Layout
import IrAsm.Proofs.X86.Sequence

/-!
# Compiled code computes what its function does

`c.Holds n env cpu`: before point `n`, each live name that has a value has it in its register. The
code of a point takes the machine from such a state to one of the next point, since it writes no
register but that of its result, which no other name has that is live there. So a machine that
starts with the arguments in their registers comes to the end with the value in `%rax` that the
function returns (`returns_of_evaluates`), and the peephole passes keep that.
-/

namespace IrAsm

namespace X86

namespace Context

variable {c : Context} {s s' : State} {n : Nat} {p : Point} {env : Env} {cpu cpu' : Cpu}
  {code : List Instr} {w : Word}

structure Holds (c : Context) (n : Nat) (env : Env) (cpu : Cpu) : Prop where
  admits : c.function.Admits env
  live : ∀ {x : String} {w : Word}, Liveness.Live c.flow.points n x → env x = some w →
    ∃ r, c.colored x = .ok r ∧ cpu.regs r = w

/-- All arguments are passed in registers. -/
theorem stackParam?_eq_none (h : c.function.params.length ≤ Reg.args.length) (x : String) :
    c.stackParam? x = none := by
  rw [stackParam?, Option.filter_eq_none_iff]
  intro index hindex
  have hlt := (List.findIdx?_eq_some_iff_getElem.mp hindex).1
  simp
  omega

section
variable (hc : c.Faithful) (hparams : c.function.params.length ≤ Reg.args.length) (hs : c.Sound s)
  (h : c.Holds n env cpu) (hp : c.flow.points[n]? = some p)
include hc hparams hs h hp

/-- An operand is read where selection says. -/
theorem read_of_value {a : Operand} {loc : Loc} (ha : a ∈ p.instr.operands)
    (hv : c.value s a = .ok loc) (hw : a.eval env = some w) :
    loc.IsOperand ∧ cpu.read loc = w := by
  cases a with
  | imm v => cases hv; cases hw; exact ⟨trivial, rfl⟩
  | reg x =>
    simp only [value, register, stackParam?_eq_none hparams] at hv
    split at hv
    · next v _ hk =>
      cases hv
      exact ⟨trivial, (h.admits.constant (hs hk) hw).symm⟩
    · next hnone => cases hnone
    · split at hv
      · cases hv
      · obtain ⟨q, hq, rfl⟩ := map_ok_iff.mp hv
        have hslot : x ∉ c.flow.allocas := by
          intro hx
          obtain ⟨i, hi, ha, hr⟩ := (hc.flow.allocas x).mp hx
          rw [Operand.eval, h.admits.slot hi ha hr] at hw
          cases hw
        have huse := hc.flow.mem_uses (List.mem_of_getElem? hp) ha hslot
        obtain ⟨r, hr, hread⟩ := h.live ⟨0, .here hp huse⟩ hw
        obtain rfl := Except.ok.inj (hq.symm.trans hr)
        exact ⟨mem_palette_of_colored hr, hread⟩
  | _ => cases hw

/-- The code of a pair computes the value of its operation, if the sequence for it does. -/
theorem computes_of_selectPair {eval? : Word → Word → Option Word}
    {seq : Loc → Loc → Reg → List Instr}
    (hseq : ∀ {lhs rhs dst}, lhs.IsOperand → rhs.IsOperand → dst ∈ Reg.palette →
      eval? (cpu.read lhs) (cpu.read rhs) = some w → Computes (seq lhs rhs dst) dst w cpu)
    (hsel : c.selectPair s p.instr eval? seq = .ok (s', code)) {a b : Operand}
    {rest : List Operand} {u v : Word} (hab : p.instr.operands = a :: b :: rest)
    (hu : a.eval env = some u) (hv : b.eval env = some v) (hw : eval? u v = some w) :
    ∃ dst, c.dest p.instr = .ok dst ∧ Computes code dst w cpu := by
  obtain ⟨a', b', _, lhs, rhs, dst, hab', ha, hb, hd, hcode⟩ := selectPair_ok hsel
  obtain ⟨rfl, rfl, rfl⟩ : a = a' ∧ b = b' ∧ _ := by simpa using hab.symm.trans hab'
  refine ⟨dst, hd, ?_⟩
  obtain ⟨hl, hlread⟩ := read_of_value hc hparams hs h hp (by simp [hab]) ha hu
  obtain ⟨hr, hrread⟩ := read_of_value hc hparams hs h hp (by simp [hab]) hb hv
  rcases hcode with ⟨x, y, w', rfl, rfl, hw', -, rfl⟩ | ⟨-, rfl⟩
  · obtain rfl : x = u := hlread
    obtain rfl : y = v := hrread
    obtain rfl := Option.some.inj (hw'.symm.trans hw)
    exact Sequence.computes_move (.imm w') dst cpu
  · obtain ⟨_, -, hdst⟩ := dest_ok_iff.mp hd
    exact hseq hl hr (mem_palette_of_colored hdst) (by rwa [hlread, hrread])

/-- The code of an instruction that gives its result a value computes that value. -/
theorem computes_of_select (hsel : c.select s n p.instr = .ok (s', code))
    (hw : p.instr.value? env = some w) :
    ∃ dst, c.dest p.instr = .ok dst ∧ Computes code dst w cpu := by
  rcases Instr.value?_cases hw with ⟨hop, a, rest, hab, ha⟩ | ⟨a, b, rest, u, v, hab, hu, hv, hw⟩
  · rw [select, hop] at hsel
    obtain ⟨a', _, src, dst, hab', hsrc, hd, -, rfl⟩ := selectBitcast_ok hsel
    obtain ⟨rfl, rfl⟩ : a = a' ∧ _ := by simpa using hab.symm.trans hab'
    obtain ⟨-, rfl⟩ := read_of_value hc hparams hs h hp (by simp [hab]) hsrc ha
    exact ⟨dst, hd, Sequence.computes_move src dst cpu⟩
  · cases hop : p.instr.opcode with
    | arith op =>
      rw [hop] at hw
      rw [select, hop] at hsel
      exact computes_of_selectPair hc hparams hs h hp Sequence.computes_arith hsel hab hu hv hw
    | icmp q =>
      rw [hop] at hw
      rw [select, hop] at hsel
      refine computes_of_selectPair hc hparams hs h hp (fun hl hr _ hw => ?_) hsel hab hu hv hw
      cases hw
      exact Sequence.computes_compare hl hr
    | _ => rw [hop] at hw; cases hw

end

/-! ## Steps -/

/-- A new value takes no register of a name that stays live. -/
theorem Holds.assign (h : c.Holds n env cpu) (hc : c.Faithful) (hreach : c.flow.Reachable n)
    (hp : c.flow.points[n]? = some p) (hsucc : n + 1 ∈ p.succs) {x : String} {dst : Reg}
    (hx : p.instr.result = some x) (hw : p.instr.value? env = some w)
    (hd : c.colored x = .ok dst) (hv : cpu'.regs dst = w)
    (hk : cpu.Keeps cpu' (dst :: Reg.scratch)) : c.Holds (n + 1) (env.set x w) cpu' := by
  have hmem := List.mem_of_getElem? hp
  refine ⟨h.admits.set hc.wellFormed (hc.flow.instr_mem_body hmem) hx hw, fun {y w'} hlive hy => ?_⟩
  by_cases hyx : y = x
  · subst hyx
    exact ⟨dst, hd, by simpa [Env.set, hv] using hy⟩
  · have hy' : env y = some w' := by simpa [Env.set, hyx] using hy
    have hnot : y ∉ p.defs := by
      intro hyd
      rw [hc.flow.defs p hmem] at hyd
      exact hyx (Option.some.inj ((Flow.mem_writes hyd).symm.trans hx))
    obtain ⟨r, hr, hval⟩ := h.live (hlive.later hp hnot hsucc) hy'
    have hxd : x ∈ p.defs := by
      rw [hc.flow.defs p hmem]
      obtain ⟨hbr, -, hstore⟩ := Instr.opcode_of_value? hw
      exact Flow.mem_writes_of_result hstore hbr hx
    have hout := Liveness.mem_outAt_analyze.mpr ⟨p, hp, n + 1, hsucc, hlive⟩
    have hne : r ≠ dst := hc.colored_ne
      (hc.flow.adj_out (hc.flow.adj_in hreach) (.inl hout) (.inr ⟨p, hp, hxd⟩) hyx) hyx hr hd
    refine ⟨r, hr, (hk.regs r ?_).trans hval⟩
    simp [hne, Reg.not_mem_scratch (mem_palette_of_colored hr)]

theorem Holds.branch (h : c.Holds n env cpu) (hc : c.Faithful) (hp : c.flow.points[n]? = some p)
    (hbr : p.instr.opcode = .br) {m : Nat} (hm : m ∈ p.succs) (hk : cpu.Keeps cpu' Reg.scratch) :
    c.Holds m env cpu' := by
  refine ⟨h.admits, fun {y w'} hlive hy => ?_⟩
  have hnot : y ∉ p.defs := by
    rw [hc.flow.defs p (List.mem_of_getElem? hp)]
    simp [Instr.writes, hbr]
  obtain ⟨r, hr, hval⟩ := h.live (hlive.later hp hnot hm) hy
  exact ⟨r, hr, (hk.regs r (Reg.not_mem_scratch (mem_palette_of_colored hr))).trans hval⟩

/-! ## Runs -/

theorem run_pops {saved : List Reg} (hsaved : ∀ r ∈ saved, r ∈ Reg.palette) (cpu : Cpu) :
    ∃ d, run (saved.map fun r => .pop (.reg r)) cpu = some d ∧ d.regs .rax = cpu.regs .rax := by
  induction saved generalizing cpu with
  | nil => exact ⟨cpu, rfl, rfl⟩
  | cons q saved ih =>
    rw [List.forall_mem_cons] at hsaved
    obtain ⟨d, hd, hrax⟩ :=
      ih hsaved.2 ((cpu.setReg .rsp (cpu.regs .rsp + 8)).setReg q (cpu.load (cpu.regs .rsp)))
    have hq : Reg.rax ≠ q := fun he => absurd hsaved.1 (he ▸ by decide)
    exact ⟨d, hd, hrax.trans (by simp [hq])⟩

/-- The epilogue returns what is in `%rax`. -/
theorem returns_epilogue (c : Context) (prog : List Line) (cpu : Cpu) :
    Returns prog ⟨cpu, c.epilogue⟩ (cpu.regs .rax) := by
  have hsaved : ∀ r ∈ c.saved.reverse, r ∈ Reg.palette := fun r hr =>
    List.mem_of_mem_take (List.mem_reverse.mp hr)
  obtain ⟨d, hpop, hd⟩ := run_pops hsaved cpu
  obtain ⟨e, hframe, he⟩ : ∃ e : Cpu,
      run [.mov (.reg .rbp) (.reg .rsp), .pop (.reg .rbp)] d = some e ∧ e.regs .rax = d.regs .rax :=
    ⟨_, rfl, by simp⟩
  have hexit : c.epilogue = [.label (.exit c.function.name)] ++
      (((c.saved.reverse.map fun r => Instr.pop (.reg r)) ++
        [Instr.mov (.reg .rbp) (.reg .rsp), .pop (.reg .rbp)]).map .code ++ [.code .ret]) := by
    simp [epilogue, exitCode]
  rw [hexit]
  refine ⟨_, .trans (Runs.silent (by simp [Line.isSilent])) (Runs.code ?_), rfl, he.trans hd⟩
  rw [run_append, hpop, Option.bind_some, hframe]

theorem at_next (hc : c.Faithful) (hs : c.Sound s) (hp : c.flow.points[n]? = some p)
    (hsel : c.select s n p.instr = .ok (s', code)) {tail : List Line}
    (htail : c.emitPoints s' (c.flow.points.zipIdx.drop (n + 1)) = .ok tail)
    (hlt : n + 1 < c.flow.points.length) : c.At (n + 1) (tail ++ c.epilogue) :=
  at_of_emitPoints (hs.select (hc.flow.instr_mem_body (List.mem_of_getElem? hp)) hsel)
    (List.getElem?_eq_getElem hlt) htail

section
variable (hc : c.Faithful) (hparams : c.function.params.length ≤ Reg.args.length)
  {body lines : List Line} (hbody : c.emitPoints c.initial c.flow.points.zipIdx = .ok body)
  (h : c.Holds n env cpu) (hat : c.At n lines) (hp : c.flow.points[n]? = some p)
include hc hparams h hat hp

/-- The code of an instruction that gives its result a value leads to the next point. -/
theorem runs_assign (prog : List Line) (hlt : n + 1 < c.flow.points.length)
    (hw : p.instr.value? env = some w) :
    ∃ cpu' lines' dst, Runs prog ⟨cpu, lines⟩ ⟨cpu', lines'⟩ ∧ c.At (n + 1) lines' ∧
      c.dest p.instr = .ok dst ∧ cpu'.regs dst = w ∧ cpu.Keeps cpu' (dst :: Reg.scratch) := by
  obtain ⟨q, s, s', silent, code, tail, hq, hs, hsel, htail, hsilent, rfl⟩ := hat
  obtain rfl := Option.some.inj (hq.symm.trans hp)
  obtain ⟨dst, hd, cpu', hrun, hv, hk⟩ := computes_of_select hc hparams hs h hp hsel hw
  exact ⟨cpu', _, dst, (Runs.silent hsilent).trans (Runs.code hrun),
    at_next hc hs hp hsel htail hlt, hd, hv, hk⟩

include hbody

/-- The code of a branch leads to the start of the block that it goes to. -/
theorem runs_branch (hbr : p.instr.opcode = .br) {l : String} {m : Nat}
    (hl : p.instr.target? env = some l) (hm : c.flow.start? l = some m) :
    ∃ cpu' lines', Runs (c.prologue ++ (body ++ c.epilogue)) ⟨cpu, lines⟩ ⟨cpu', lines'⟩ ∧
      c.At m lines' ∧ cpu.Keeps cpu' Reg.scratch := by
  obtain ⟨q, s, s', silent, code, tail, hq, hs, hsel, htail, hsilent, rfl⟩ := hat
  obtain rfl := Option.some.inj (hq.symm.trans hp)
  have hfall (he : m = n + 1) : c.At m (tail ++ c.epilogue) :=
    he ▸ at_next hc hs hp hsel htail (he ▸ hc.start_lt hm)
  obtain ⟨lines', htarget, hat⟩ := exists_target_block hc hbody hm
  have hjmp (rest : List Line) : step (c.prologue ++ (body ++ c.epilogue))
      ⟨cpu, .code (.jmp (c.blockLabel l)) :: rest⟩ = some ⟨cpu, lines'⟩ := by
    simp [step, htarget]
  rw [select, hbr] at hsel
  obtain ⟨-, ⟨l', m', hops, hm', rfl⟩ | ⟨cond, t, e, loc, hops, ht, hloc, hcode⟩⟩ :=
    selectBranch_ok hsel
  · obtain rfl : l' = l := by simpa [Instr.target?, hops] using hl
    obtain rfl := Option.some.inj (hm'.symm.trans hm)
    by_cases he : m' = n + 1
    · rw [if_pos he]
      exact ⟨cpu, _, Runs.silent hsilent, hfall he, .refl cpu _⟩
    · rw [if_neg he]
      exact ⟨cpu, _, (Runs.silent hsilent).tail (hjmp _), hat, .refl cpu _⟩
  · obtain ⟨v, hv, hl⟩ : ∃ v, cond.eval env = some v ∧ (if v ≠ 0 then t else e) = l := by
      simpa [Instr.target?, hops, Option.bind_eq_some_iff] using hl
    obtain ⟨-, hread⟩ := read_of_value hc hparams hs h hp (by simp [hops]) hloc hv
    have htrue (hz : v ≠ 0) : m = n + 1 := by
      rw [if_pos hz] at hl
      exact Option.some.inj (hm.symm.trans (hl ▸ ht))
    have hfalse (hz : v = 0) : e = l := by simpa [hz] using hl
    rcases hcode with rfl | ⟨v', rfl, rfl⟩
    · obtain ⟨cpu', hrun, hk⟩ := Sequence.runs_jumpIfZero
        (fun hz => (hfalse (hread ▸ hz)).symm ▸ htarget) (tail ++ c.epilogue)
      refine ⟨cpu', _, (Runs.silent hsilent).trans hrun, ?_, hk⟩
      rw [hread]
      split
      · exact hat
      · next hz => exact hfall (htrue hz)
    · rw [show v' = v from hread]
      by_cases hz : v = 0
      · rw [if_pos hz, hfalse hz]
        exact ⟨cpu, _, (Runs.silent hsilent).tail (hjmp _), hat, .refl cpu _⟩
      · rw [if_neg hz]
        exact ⟨cpu, _, Runs.silent hsilent, hfall (htrue hz), .refl cpu _⟩

/-- The code of a `ret` leads to the epilogue, with the value in `%rax`. -/
theorem returns_ret (hret : p.instr.opcode = .ret) {a : Operand} {rest : List Operand}
    (ha : p.instr.operands = a :: rest) (hw : a.eval env = some w) :
    Returns (c.prologue ++ (body ++ c.epilogue)) ⟨cpu, lines⟩ w := by
  obtain ⟨q, s, s', silent, code, tail, hq, hs, hsel, htail, hsilent, rfl⟩ := hat
  obtain rfl := Option.some.inj (hq.symm.trans hp)
  rw [select, hret] at hsel
  obtain ⟨loc, hv, rfl⟩ := selectRet_ok ha hsel
  obtain ⟨-, hread⟩ := read_of_value hc hparams hs h hp (by simp [ha]) hv hw
  have hmov : run [.mov loc (.reg .rax)] cpu = some (cpu.setReg .rax w) := by simp [hread]
  have hjmp : step (c.prologue ++ (body ++ c.epilogue))
      ⟨cpu.setReg .rax w, .code (.jmp (.exit c.function.name)) :: (tail ++ c.epilogue)⟩ =
        some ⟨cpu.setReg .rax w, c.epilogue⟩ := by
    simp [step, target_exit hbody]
  have hexit := c.returns_epilogue (c.prologue ++ (body ++ c.epilogue)) (cpu.setReg .rax w)
  rw [Cpu.regs_setReg, if_pos rfl] at hexit
  have hcode : Runs (c.prologue ++ (body ++ c.epilogue)) ⟨cpu, .code (.mov loc (.reg .rax)) ::
      .code (.jmp (.exit c.function.name)) :: (tail ++ c.epilogue)⟩ _ := (Runs.code hmov).tail hjmp
  exact .of_runs ((Runs.silent hsilent).trans hcode) hexit

end

/-! ## The whole function -/

theorem succ_lt_of_last {f : Function} {last i : IrAsm.Instr} (hlast : f.body.getLast? = some last)
    (hret : last.opcode = .ret) (hi : f.body[n]? = some i) (hne : i.opcode ≠ .ret) :
    n + 1 < f.body.length := by
  have hlt := (List.getElem?_eq_some_iff.mp hi).1
  refine Nat.lt_of_le_of_ne hlt fun he => hne ?_
  rw [List.getLast?_eq_getElem?, ← he, Nat.add_sub_cancel, hi] at hlast
  rw [Option.some.inj hlast, hret]

/-- What a function evaluates to from a point on, its code returns. -/
theorem returns_of_evaluates (hc : c.Faithful)
    (hparams : c.function.params.length ≤ Reg.args.length) {body : List Line}
    (hbody : c.emitPoints c.initial c.flow.points.zipIdx = .ok body) {last : IrAsm.Instr}
    (hlast : c.function.body.getLast? = some last) (hret : last.opcode = .ret)
    (he : c.function.Evaluates n env w) {lines : List Line} (h : c.Holds n env cpu)
    (hreach : c.flow.Reachable n) (hat : c.At n lines) :
    Returns (c.prologue ++ (body ++ c.epilogue)) ⟨cpu, lines⟩ w := by
  induction he generalizing cpu lines with
  | ret hi hop ha hw =>
    obtain ⟨p, hp, rfl⟩ := hc.flow.exists_point hi
    exact returns_ret hc hparams hbody h hat hp hop ha hw
  | @br n m env i l w hi hop hl hm _ ih =>
    obtain ⟨p, hp, rfl⟩ := hc.flow.exists_point hi
    have hlt := succ_lt_of_last hlast hret hi (by simp [hop])
    obtain ⟨cpu', lines', hrun, hat', hk⟩ :=
      runs_branch hc hparams hbody h hat hp hop hl ((hc.flow.start l).trans hm)
    have hsucc : m ∈ p.succs := by
      rw [hc.flow.succs hp, if_pos hop]
      exact ⟨by omega, l, Instr.target?_mem hl, hm⟩
    exact .of_runs hrun (ih (h.branch hc hp hop hsucc hk) (hreach.step hp hsucc) hat')
  | @assign n env i x v w hi hx hv _ ih =>
    obtain ⟨p, hp, rfl⟩ := hc.flow.exists_point hi
    obtain ⟨hbr, hne, -⟩ := Instr.opcode_of_value? hv
    have hlt := succ_lt_of_last hlast hret hi hne
    obtain ⟨cpu', lines', dst, hrun, hat', hd, hreg, hk⟩ :=
      runs_assign hc hparams h hat hp _ (hc.flow.length ▸ hlt) hv
    have hsucc : n + 1 ∈ p.succs := by
      rw [hc.flow.succs hp, if_neg hbr]
      exact ⟨by omega, rfl⟩
    obtain ⟨y, hy, hd⟩ := dest_ok_iff.mp hd
    obtain rfl := Option.some.inj (hx.symm.trans hy)
    exact .of_runs hrun
      (ih (h.assign hc hreach hp hsucc hx hv hd hreg hk) (hreach.step hp hsucc) hat')

/-- The prologue puts the arguments where the first point looks for them. -/
theorem holds_entry (hc : c.Faithful) (hparams : c.function.params.length ≤ Reg.args.length)
    (hd : c.Delivers cpu cpu') {args : List Word}
    (hargs : ∀ (i : Nat) (a : Word) (r : Reg), args[i]? = some a → Reg.args[i]? = some r →
      cpu.regs r = a) : c.Holds 0 (c.function.entry args) cpu' := by
  refine ⟨Function.admits_entry hc.wellFormed args, fun {x w} hlive hx => ?_⟩
  obtain ⟨i, hi, ha⟩ := Option.bind_eq_some_iff.mp hx
  obtain ⟨hlt, hname, -⟩ := List.findIdx?_eq_some_iff_getElem.mp hi
  have hreg : Reg.args[i]? = some Reg.args[i] :=
    List.getElem?_eq_getElem (Nat.lt_of_lt_of_le hlt hparams)
  rw [← Liveness.mem_inAt_analyze, ← hc.liveness, ← eq_of_beq hname] at hlive
  obtain ⟨r, hr, hval⟩ := hd i _ _ (List.getElem?_eq_getElem hlt) hreg hlive
  exact ⟨r, eq_of_beq hname ▸ hr, hval.trans (hargs i w _ ha hreg)⟩

end Context

end X86

namespace Function

/-- Compiled code returns what the function evaluates to, for every configuration and all arguments.
The evaluation may meet all instructions that work on registers and literals. -/
theorem compiled_code_returns {f : Function} {config : Config} {out : CompiledFunction} {fl : Flow}
    {last : Instr} {args : List Word} {w : Word} {cpu : X86.Cpu} (hv : f.verify = .ok ())
    (hparams : f.params.length ≤ X86.Reg.args.length) (hnames : (f.params.map Param.name).Nodup)
    (hlast : f.body.getLast? = some last) (hret : last.opcode = .ret)
    (hfl : Flow.build f = .ok fl) (hreach : ∀ n < fl.points.length, fl.Reachable n)
    (h : f.compile config = .ok out) (he : f.Evaluates 0 (f.entry args) w)
    (hargs : ∀ (i : Nat) (a : Word) (r : X86.Reg), args[i]? = some a → X86.Reg.args[i]? = some r →
      cpu.regs r = a) :
    X86.Returns out.lines ⟨cpu, out.lines⟩ w := by
  obtain ⟨c, hc, rfl, rfl, ha, -, lines, hl, hout⟩ := exists_context (wellFormed_of_verify hv) h
  obtain rfl : fl = c.flow := by
    simp only [analyze, hfl, bind_ok_iff, pure_ok_iff, Except.ok.injEq, exists_eq_left',
      Prod.mk.injEq] at ha
    obtain ⟨_, -, hfl, -⟩ := ha
    exact hfl
  obtain ⟨body, hbody, rfl⟩ := X86.Context.emit_ok hl
  have hd := (X86.Context.delivers_iff hc).mpr (X86.Context.not_overwrites hc hnames hreach)
  have hreturns : X86.Returns (c.prologue ++ (body ++ c.epilogue))
      ⟨cpu, c.prologue ++ (body ++ c.epilogue)⟩ w := by
    obtain ⟨cpu', hrun, hruns⟩ :=
      c.runs_prologue (c.prologue ++ (body ++ c.epilogue)) (body ++ c.epilogue) cpu
    have hpos : 0 < c.flow.points.length := by
      rw [hc.flow.length]
      exact List.length_pos_of_mem (List.mem_of_getLast? hlast)
    have hat := X86.Context.at_of_emitPoints (n := 0) c.sound_initial
      (List.getElem?_eq_getElem hpos) hbody
    exact .of_runs hruns (X86.Context.returns_of_evaluates hc hparams hbody hlast hret he
      (X86.Context.holds_entry hc hparams (hd cpu cpu' hrun) hargs) .entry hat)
  rw [hout]
  split
  · exact X86.Peephole.returns_runAll (X86.Context.guarded_emit hc hl) hreturns
  · exact hreturns

/-- The distance of two parameters. -/
def distance : Function where
  name := "f"
  ret := .int 64
  params := [⟨"a", .int 64⟩, ⟨"b", .int 64⟩]
  blocks := [
    ⟨some "entry", [⟨.icmp .slt, [.reg "a", .reg "b"], some "less", .int 64⟩,
      ⟨.br, [.reg "less", .label "up", .label "down"], none, .void⟩]⟩,
    ⟨some "up", [⟨.arith .sub, [.reg "b", .reg "a"], some "x", .int 64⟩,
      ⟨.ret, [.reg "x"], none, .int 64⟩]⟩,
    ⟨some "down", [⟨.arith .sub, [.reg "a", .reg "b"], some "y", .int 64⟩,
      ⟨.ret, [.reg "y"], none, .int 64⟩]⟩]

theorem compiled_code_returns_distance :
    distance.verify = .ok () ∧ ∃ out, distance.compile {} = .ok out ∧
      distance.Evaluates 0 (distance.entry [10, 3]) 7 ∧
      X86.Returns out.lines ⟨⟨fun r => if r = .rdi then 10 else if r = .rsi then 3 else 0,
        fun _ => 0, none, fun _ => 0⟩, out.lines⟩ 7 := by
  have hv : distance.verify = .ok () := ok_of_toBool (by decide +kernel)
  obtain ⟨fl, hfl⟩ : ∃ fl, Flow.build distance = .ok fl := exists_ok_of_toBool (by decide +kernel)
  obtain ⟨out, hout⟩ : ∃ out, distance.compile {} = .ok out :=
    exists_ok_of_toBool (by decide +kernel)
  have hsuccs : (Flow.build distance).toOption.map (fun fl => fl.points.map Point.succs) =
      some [[1], [2, 4], [3], [4], [5], []] := by
    decide +kernel
  simp only [hfl, Except.toOption, Option.map_some, Option.some.injEq] at hsuccs
  have hlen : fl.points.length = 6 := by simpa using congrArg List.length hsuccs
  have he : distance.Evaluates 0 (distance.entry [10, 3]) 7 := by
    refine .assign (v := 0) rfl rfl (by decide +kernel) ?_
    refine .br (l := "down") (m := 4) rfl rfl (by decide +kernel) (by decide +kernel) ?_
    refine .assign (v := 7) rfl rfl (by decide +kernel) ?_
    exact .ret rfl rfl rfl (by decide +kernel)
  refine ⟨hv, out, hout, he, ?_⟩
  refine compiled_code_returns hv (by decide) (by decide) rfl rfl hfl
    (fun n hn => Flow.reachable_of_succs ?_ hn) hout he ?_
  · rw [hsuccs, hlen]
    decide
  · rintro (_ | _ | i) a r ha hr
    · cases ha; cases hr; rfl
    · cases ha; cases hr; rfl
    · cases ha

end Function

end IrAsm
