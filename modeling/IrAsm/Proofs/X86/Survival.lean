import IrAsm.Proofs.X86.Execution

/-!
# Values across calls

`c.Survives n v`: whatever the callee of the call at point `n` does within the convention, the place
in which a point that can be executed later looks for `v` has the value that it had before the call.
Words of the frame and literals do. A register does if the callee keeps it or the call saves it, and
the call saves the registers of the names that are live after it and not known by then.

What is known goes by the order of the text. So a name that is folded above the call is not saved,
and if a point above its definition can be executed after the call, that point still reads the
register: `v` is `Stale`. That is the only case in which a value is lost (`survives_iff`).
-/

namespace IrAsm

/-- Control can go from `n` to `m`, and `v` is written at no point on the way. -/
inductive Function.Onward (f : Function) (fl : Flow) (v : String) : Nat → Nat → Prop where
  | next {n m : Nat} : f.Next n m → f.Onward fl v n m
  | later {n k m : Nat} {q : Point} : f.Next n k → fl.points[k]? = some q → v ∉ q.defs →
      f.Onward fl v k m → f.Onward fl v n m

namespace X86

theorem Reg.mem_callerSaved {r : Reg} (h : r ∈ palette) (hv : r ∈ volatile) : r ∈ callerSaved := by
  revert r; decide

namespace Context

variable {c : Context} {s s' t : State} {n m : Nat} {p : Point} {code : List Instr} {v : String}
  {top : Word} {cpu cpu' : Cpu} {r : Reg}

/-- Point `m` reads `v` and can be executed after point `n`, with `v` not written since. -/
def ReadsLater (c : Context) (n : Nat) (v : String) (m : Nat) : Prop :=
  c.function.Onward c.flow v n m ∧ ∃ q, c.flow.points[m]? = some q ∧ v ∈ q.uses

def Survives (c : Context) (n : Nat) (v : String) : Prop :=
  ∀ (top : Word) (p : Point) (s s' : State) (code : List Instr) (cpu cpu' : Cpu),
    c.flow.points[n]? = some p → c.StateAt n s → c.select s n p.instr = .ok (s', code) →
    c.Framed top cpu → Completes top code cpu none cpu' →
    ∀ m t loc, c.ReadsLater n v m → c.StateAt m t → c.place t v = .ok loc →
      cpu'.read loc = cpu.read loc

/-- A point that can be executed after the call looks for `v` in a register that a callee may change
and the call does not save. -/
def Stale (c : Context) (n : Nat) (v : String) : Prop :=
  ∃ p s r m t, c.flow.points[n]? = some p ∧ c.StateAt n s ∧ r ∈ Reg.callerSaved ∧
    r ∉ c.preserved s n p.instr ∧ c.ReadsLater n v m ∧ c.StateAt m t ∧ c.place t v = .ok (.reg r)

theorem place_cases {loc : Loc} (ht : c.StateAt m t) (h : c.place t v = .ok loc) :
    (∃ w, loc = .imm w) ∨ (∃ d, c.FrameWord d ∧ loc = .frame d) ∨
      t.known[v]? = none ∧ c.stackParam? v = none ∧ v ∉ c.flow.allocas ∧
        ∃ r, c.colored v = .ok r ∧ loc = .reg r := by
  unfold place at h
  split at h
  · next d hd =>
    cases h
    rw [ht.displacement?_eq] at hd
    exact .inr (.inl ⟨d, frameWord_of_wordAt hd, rfl⟩)
  · rcases register_cases h with
      ⟨w, -, rfl⟩ | ⟨hk, ⟨index, hindex, rfl⟩ | ⟨hparam, hslot, r, hr, rfl⟩⟩
    · exact .inl ⟨w, rfl⟩
    · exact .inr (.inl ⟨_, frameWord_of_register h, rfl⟩)
    · have hslot : v ∉ c.flow.allocas := by
        rw [← ht.contains_iff, hslot]
        simp
      exact .inr (.inr ⟨hk, hparam, hslot, r, hr, rfl⟩)

/-- A result does not take the register of another name that is live behind it. -/
theorem colored_ne_of_live (hc : c.Faithful) (hp : c.flow.points[n]? = some p)
    (hv : v ∈ c.liveness.outAt n) (hres : v ∉ p.instr.writes) {x : String} {q : Reg}
    (hx : x ∈ p.instr.writes) (hq : c.colored x = .ok q) (hr : c.colored v = .ok r) : q ≠ r := by
  have hne : x ≠ v := fun he => hres (he ▸ hx)
  rw [← hc.flow.defs p (List.mem_of_getElem? hp)] at hx
  rw [hc.liveness] at hv
  exact hc.colored_ne (Flow.adj_of_write hp hx hv hne) hne hq hr

/-- Code changes the register of a name that is live behind it only if a callee may and the call
does not save it. -/
theorem mem_callerSaved_of_clobbers (hc : c.Faithful) (hp : c.flow.points[n]? = some p)
    (hv : v ∈ c.liveness.outAt n) (hres : v ∉ p.instr.writes) (hr : c.colored v = .ok r)
    (h : c.Clobbers s n p.instr r) : r ∈ Reg.callerSaved ∧ r ∉ c.preserved s n p.instr := by
  have hpal := mem_palette_of_colored hr
  rcases h with hs | ⟨hx, hq⟩ | ⟨-, hvol, hsaved⟩
  · exact absurd hs (Reg.not_mem_scratch hpal)
  · exact absurd rfl (colored_ne_of_live hc hp hv hres hx hq hr)
  · exact ⟨Reg.mem_callerSaved hpal hvol, hsaved⟩

section
variable (hc : c.Faithful) (hp : c.flow.points[n]? = some p) (hop : p.instr.opcode = .call)
  (hv : v ∈ c.liveness.outAt n) (hres : p.instr.result ≠ some v)
include hc hp hop hv hres

theorem survives_of_not_stale (hroom : c.Roomy) (hst : ¬ c.Stale n v) : c.Survives n v := by
  intro top q s s' code cpu cpu' hq hs hsel hf h m t loc hm ht hloc
  obtain rfl := Option.some.inj (hp.symm.trans hq)
  have hfits := hroom p (List.mem_of_getElem? hp)
  rw [select, hop] at hsel
  obtain ⟨-, hspares⟩ := spares_selectCall hop hfits hsel hf h
  rcases place_cases ht hloc with ⟨w, rfl⟩ | ⟨d, hd, rfl⟩ | ⟨-, -, -, r, hr, rfl⟩
  · rfl
  · exact hf.read_frame hfits hspares not_clobbers_rbp hd.inFrame
  · refine hspares.regs r fun hclob => ?_
    have hwrites : v ∉ p.instr.writes := fun hw => hres (Flow.mem_writes hw)
    obtain ⟨hcaller, hsaved⟩ := mem_callerSaved_of_clobbers hc hp hv hwrites hr hclob
    exact hst ⟨p, s, r, m, t, hp, hs, hcaller, hsaved, hm, ht, hloc⟩

/-- The callee can add one to the register. -/
theorem not_survives_of_stale {body : List Line}
    (hbody : c.emitPoints c.initial c.flow.points.zipIdx = .ok body) (hst : c.Stale n v) :
    ¬ c.Survives n v := by
  obtain ⟨q, s, r, m, t, hq, hs, hcaller, hsaved, hm, ht, hloc⟩ := hst
  obtain rfl := Option.some.inj (hp.symm.trans hq)
  obtain ⟨s₁, s', code, -, -, hs₁, hsel, -⟩ := exists_code hbody hp
  obtain rfl := hs.unique hs₁
  intro hsurv
  let cpu : Cpu :=
    ⟨fun r => if r = .rsp then -BitVec.ofNat 64 c.bytesBelow else 0, fun _ => 0, none, fun _ => 0⟩
  have hf : c.Framed (BitVec.ofNat 64 c.bytesAbove) cpu := ⟨by simp [cpu], by simp [cpu]⟩
  have hcolored : c.colored v = .ok r := by
    rcases place_cases ht hloc with ⟨w, hw⟩ | ⟨d, -, hd⟩ | ⟨-, -, -, q, hq, he⟩
    · cases hw
    · cases hd
    · cases he
      exact hq
  have hsel' := hsel
  rw [select, hop] at hsel'
  obtain ⟨args, callee, tail, -, -, rfl, htail⟩ := selectCall_ok hsel'
  have hrel : released (tail.map .code) = 0 := by
    rcases htail with ⟨-, rfl⟩ | ⟨dst, -, rfl⟩ <;> rfl
  obtain ⟨d, hd, hcall⟩ := Sequence.exists_completes_call hrel hcaller hsaved args callee
    (BitVec.ofNat 64 c.bytesAbove) cpu
  obtain ⟨cpu', htail, hr⟩ : ∃ cpu', Completes (BitVec.ofNat 64 c.bytesAbove) tail d none cpu' ∧
      cpu'.regs r = d.regs r := by
    rcases htail with ⟨-, rfl⟩ | ⟨dst, hdst, rfl⟩
    · exact ⟨d, completes_nil.mpr ⟨rfl, rfl⟩, rfl⟩
    · obtain ⟨x, hx, hq⟩ := dest_ok_iff.mp hdst
      have hw : x ∈ p.instr.writes := Flow.mem_writes_of_result (by simp [hop]) (by simp [hop]) hx
      have hne :=
        (colored_ne_of_live hc hp hv (fun hw => hres (Flow.mem_writes hw)) hw hq hcolored).symm
      exact ⟨_, (completes_iff_run (by simp [Instr.isDirect])).mpr ⟨rfl, rfl⟩, by simp [hne]⟩
  have hkept := hsurv _ p s s' _ cpu cpu' hp hs hsel hf (hcall _ _ htail) m t _ hm ht hloc
  rw [Cpu.read_reg, Cpu.read_reg, hr, hd] at hkept
  bv_omega

omit hop in
/-- A stale name was folded above the call, and is read later at a point above that. -/
theorem Stale.backward (hst : c.Stale n v) : c.config.optimize = true ∧
    ∃ k m q, m ≤ k ∧ k < n ∧ c.flow.points[k]? = some q ∧ v ∈ q.defs ∧ c.ReadsLater n v m := by
  obtain ⟨q, s, r, m, t, hq, hs, hcaller, hsaved, hm, ht, hloc⟩ := hst
  obtain rfl := Option.some.inj (hp.symm.trans hq)
  rcases place_cases ht hloc with ⟨w, hw⟩ | ⟨d, -, hd⟩ | ⟨hk, hparam, hslot, q, hr, he⟩
  · cases hw
  · cases hd
  · cases he
    have hknown : s.known[v]?.isSome := by
      by_contra hnone
      have hslot' : s.frame.contains v = false := by
        rw [Bool.eq_false_iff]
        exact fun hx => hslot (hs.contains_iff.mp hx)
      have hreg : c.register s v = .ok (.reg r) := by
        simp [register, Option.not_isSome_iff_eq_none.mp hnone, hparam, hslot', hr]
      exact hsaved (mem_preserved.mpr ⟨hcaller, v, hv, hres, hreg⟩)
    obtain ⟨ho, k, q, hkn, hq, hw, hlater⟩ := hs.exists_of_known hknown
    refine ⟨ho, k, m, q, ?_, hkn, hq, ?_, hm⟩
    · by_contra hlt
      have := hlater m t (by omega) ht
      rw [hk] at this
      cases this
    · rw [hc.flow.defs q (List.mem_of_getElem? hq)]
      exact hw

theorem survives_iff (hroom : c.Roomy) {body : List Line}
    (hbody : c.emitPoints c.initial c.flow.points.zipIdx = .ok body) :
    c.Survives n v ↔ ¬ c.Stale n v :=
  ⟨fun hs hst => not_survives_of_stale hc hp hop hv hres hbody hst hs,
    survives_of_not_stale hc hp hop hv hres hroom⟩

end

/-- The code of a call stands in a row among the lines of the function, whether or not the passes
run. -/
theorem exists_call_code {body lines : List Line} (hp : c.flow.points[n]? = some p)
    (hop : p.instr.opcode = .call) (hbody : c.emitPoints c.initial c.flow.points.zipIdx = .ok body)
    (hlines : lines = if c.config.optimize then
        Peephole.runAll Line.shape (c.prologue ++ (body ++ c.epilogue))
      else c.prologue ++ (body ++ c.epilogue)) :
    ∃ code before later, c.CodeAt n code ∧ lines = before ++ (code.map .code ++ later) := by
  obtain ⟨s, s', code, before, tail, hs, hsel, -, -, rfl⟩ := exists_code hbody hp
  have hshape : ∀ line ∈ code.map Line.code, line.shape = .other := by
    rw [select, hop] at hsel
    exact shape_selectCall hsel
  have hsplit : c.prologue ++ (before ++ (c.heading n p.instr ++ (code.map .code ++ tail)) ++
      c.epilogue) = c.prologue ++ before ++ c.heading n p.instr ++
        (code.map .code ++ (tail ++ c.epilogue)) := by
    simp
  rw [hsplit] at hlines
  refine ⟨code, ?_⟩
  split at hlines
  · obtain ⟨before', later, h⟩ := Peephole.exists_runAll_infix hshape
      (c.prologue ++ before ++ c.heading n p.instr) (tail ++ c.epilogue)
    exact ⟨before', later, ⟨p, s, s', hp, hs, hsel⟩, hlines.trans h⟩
  · exact ⟨_, _, ⟨p, s, s', hp, hs, hsel⟩, hlines⟩

end Context

end X86

namespace Function

/-- The lines of a compiled function execute its points, with the frame set up at each. A call keeps
the value of a name that is live behind it, its own result apart, exactly if the name is not stale.
Without folding no name is, and with it only one that is written above the call and read later at a
point above that. -/
theorem values_survive_calls_iff {f : Function} {config : Config} {out : CompiledFunction}
    (hv : f.verify = .ok ()) (hfits : f.Fits) (h : f.compile config = .ok out) :
    ∃ fl live graph, f.analyze = .ok (fl, live, graph) ∧
      let c : X86.Context := ⟨f, fl, live, out.report.coloring, config⟩
      c.Accounts out.lines ∧
      (∀ cpu past n e, c.Executes cpu past n e → c.Framed (c.stackTop cpu) e) ∧
      ∀ n p, fl.points[n]? = some p → p.instr.opcode = .call →
        (∃ code before later, c.CodeAt n code ∧ out.lines = before ++ (code.map .code ++ later)) ∧
        ∀ v ∈ live.outAt n, p.instr.result ≠ some v →
          (c.Survives n v ↔ ¬ c.Stale n v) ∧
          (c.Stale n v → config.optimize = true ∧ ∃ k m q, m ≤ k ∧ k < n ∧ fl.points[k]? = some q ∧
            v ∈ q.defs ∧ c.ReadsLater n v m) := by
  obtain ⟨c, hc, hroom, rfl, rfl, ha, hcol, hacc, body, hbody, hout⟩ := exists_accounting hv hfits h
  refine ⟨c.flow, c.liveness, _, ha, ?_⟩
  rw [hcol]
  refine ⟨hacc, fun cpu past n e hex => hex.framed hc hroom, fun n p hp hop => ⟨?_, ?_⟩⟩
  · exact X86.Context.exists_call_code hp hop hbody hout
  · intro v hlive hres
    exact ⟨X86.Context.survives_iff hc hp hop hlive hres hroom hbody, fun hst =>
      hst.backward hc hp hlive hres⟩

/-- A function with a value that is in use across a call. -/
def acrossCall : Function where
  name := "f"
  ret := .int 64
  params := [⟨"a", .int 64⟩]
  blocks := [⟨none, [⟨.arith .add, [.reg "a", .imm 1], some "b", .int 64⟩,
    ⟨.call, [.callee "g"], none, .void⟩, ⟨.ret, [.reg "b"], none, .int 64⟩]⟩]

theorem values_survive_calls_iff_acrossCall :
    acrossCall.verify = .ok () ∧ acrossCall.Fits ∧
      ∃ out fl live graph, acrossCall.compile {} = .ok out ∧
        acrossCall.analyze = .ok (fl, live, graph) ∧ "b" ∈ live.outAt 1 ∧
        (X86.Context.mk acrossCall fl live out.report.coloring {}).Survives 1 "b" := by
  have hv : acrossCall.verify = .ok () := ok_of_toBool (by decide +kernel)
  have hfits : acrossCall.Fits := by unfold Fits; decide
  obtain ⟨out, hout⟩ : ∃ out, acrossCall.compile {} = .ok out :=
    exists_ok_of_toBool (by decide +kernel)
  obtain ⟨fl, live, graph, ha, -, -, hcalls⟩ := values_survive_calls_iff hv hfits hout
  have hpoints : acrossCall.analyze.toOption.map (fun x => (decide ("b" ∈ x.2.1.outAt 1),
      x.1.points.map fun p => (p.instr, decide ("b" ∈ p.uses)))) =
      some (true, [(⟨.arith .add, [.reg "a", .imm 1], some "b", .int 64⟩, false),
        (⟨.call, [.callee "g"], none, .void⟩, false),
        (⟨.ret, [.reg "b"], none, .int 64⟩, true)]) := by
    decide +kernel
  simp only [ha, Except.toOption, Option.map_some, Option.some.injEq, Prod.mk.injEq,
    decide_eq_true_eq] at hpoints
  obtain ⟨hlive, hpoints⟩ := hpoints
  have hget (n : Nat) := congrArg (·[n]?) hpoints
  simp only [List.getElem?_map] at hget
  obtain ⟨p, hp, hcall⟩ := Option.map_eq_some_iff.mp (hget 1)
  obtain ⟨hinstr, -⟩ := Prod.mk.inj hcall
  obtain ⟨-, hvals⟩ := hcalls 1 p hp (by rw [hinstr])
  obtain ⟨hiff, hback⟩ := hvals "b" hlive (by simp [hinstr])
  refine ⟨hv, hfits, out, fl, live, graph, hout, ha, hlive, hiff.mpr fun hst => ?_⟩
  -- a stale name would be read above the call, but only the point below does
  obtain ⟨-, k, m, -, hm, hk, -, -, -, q, hq, huse⟩ := hback hst
  obtain rfl : m = 0 := by omega
  obtain ⟨q', hq', hno⟩ := Option.map_eq_some_iff.mp (hget 0)
  obtain rfl := Option.some.inj (hq.symm.trans hq')
  simp [huse] at hno

/-- A function that reads a value above the point that writes it, after a call below. -/
def readAbove : Function where
  name := "f"
  ret := .int 64
  params := []
  blocks := [⟨none, [⟨.br, [.label "b"], none, .void⟩]⟩,
    ⟨some "a", [⟨.ret, [.reg "v"], none, .int 64⟩]⟩,
    ⟨some "b", [⟨.arith .add, [.imm 1, .imm 2], some "v", .int 64⟩,
      ⟨.call, [.callee "g"], none, .void⟩, ⟨.br, [.label "a"], none, .void⟩]⟩,
    ⟨some "c", [⟨.ret, [.imm 0], none, .int 64⟩]⟩]

def readAboveLines : List X86.Line :=
  [.globl "f", .label (.entry "f"), .code (.push (.reg .rbp)), .code (.mov (.reg .rsp) (.reg .rbp)),
    .code (.alu .sub (.imm 0) .rsp), .code (.push (.reg .r8)), .code (.jmp (.block "f" "b")),
    .label (.block "f" "a"), .code (.mov (.reg .r8) (.reg .rax)), .code (.jmp (.exit "f")),
    .label (.block "f" "b"), .code (.mov (.imm 3) (.reg .r8)), .code (.call "g"),
    .code (.jmp (.block "f" "a")), .label (.block "f" "c"), .code (.mov (.imm 0) (.reg .rax)),
    .code (.jmp (.exit "f")), .label (.exit "f"), .code (.pop (.reg .r8)),
    .code (.mov (.reg .rbp) (.reg .rsp)), .code (.pop (.reg .rbp)), .code .ret]

/-- Whether it returns 3 or 4 is up to the callee: the value is in `%r8`, and the call does not save
it. -/
theorem callee_decides_readAbove :
    readAbove.verify = .ok () ∧ ∃ out cpu, readAbove.compile {} = .ok out ∧
      ∀ (top w : Word), w ∈ [3, 4] → ∃ e rest,
        X86.Steps top out.lines ⟨cpu, out.lines⟩ ⟨e, .code .ret :: rest⟩ ∧ e.regs .rax = w := by
  have hv : readAbove.verify = .ok () := ok_of_toBool (by decide +kernel)
  have hlines : (readAbove.compile {}).toOption.map CompiledFunction.lines =
      some readAboveLines := by
    decide +kernel
  obtain ⟨out, hout, hlines⟩ := Option.map_eq_some_iff.mp hlines
  let cpu : X86.Cpu := ⟨fun _ => 0, fun _ => 0, none, fun _ => 0⟩
  refine ⟨hv, out, cpu, toOption_eq_some_iff.mp hout, fun top w hw => ?_⟩
  rw [hlines]
  have hrun : ((X86.advance readAboveLines 9 ⟨cpu, readAboveLines⟩).bind fun m =>
      (X86.advance readAboveLines 8 ⟨m.cpu.setReg .r8 w, m.lines.tail⟩).map fun m' =>
        (m.lines.head?, m'.lines.head?, m'.cpu.regs .rax)) =
      some (some (.code (.call "g")), some (.code .ret), w) := by
    simp only [List.mem_cons, List.not_mem_nil, or_false] at hw
    rcases hw with rfl | rfl
    · decide +kernel
    · decide +kernel
  obtain ⟨⟨d, lines⟩, hd, hrun⟩ := Option.bind_eq_some_iff.mp hrun
  obtain ⟨⟨e, lines'⟩, he, hrun⟩ := Option.map_eq_some_iff.mp hrun
  simp only [Prod.mk.injEq, List.head?_eq_some_iff] at hrun
  obtain ⟨⟨rest, rfl⟩, ⟨rest', rfl⟩, hw⟩ := hrun
  have hdirect : ∀ line ∈ readAboveLines, line.isIndirect = false := by decide
  have hsuf : (X86.Machine.mk cpu readAboveLines).lines <:+ readAboveLines := List.suffix_refl _
  obtain ⟨hcall, hsuf⟩ := X86.steps_of_advance hdirect top hsuf hd
  obtain ⟨hret, -⟩ := X86.steps_of_advance hdirect top ((List.suffix_cons _ _).trans hsuf) he
  have hback := d.returned_setReg (by decide : .r8 ∉ X86.Reg.kept) top (X86.released rest) w
  exact ⟨e, rest', hcall.trans (.head (.call hback) hret), hw⟩

end Function

end IrAsm
