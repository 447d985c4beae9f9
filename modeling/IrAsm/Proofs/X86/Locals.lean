import IrAsm.Proofs.X86.Survival

/-!
# Stack locals and parameters

A stack local stands for a word of the frame. That is its own slot, or the word of an argument on
the stack once a store above has bound the local to it: such a store has no code, and it is the
order of the text that decides, not that of execution. Words are memory: a load has what the latest
store to the word put there, and if there was none, the word of an argument has what the function
was called with. So a local that is never bound has what was stored to it last, and an argument on
the stack stays what it was until a local that stands for it is stored to.

A parameter that is passed in a register is in the register of its color wherever it is read, if the
prologue delivers it and the live sets cover the paths of the function.
-/

namespace IrAsm

namespace X86

/-- `Latest puts past (some w)`: of the points of `past` that store, the latest stored `w`. With
`none` there is no such point. -/
inductive Latest (puts : Nat → Loc → Prop) : List (Nat × Cpu) → Option Word → Prop where
  | none : Latest puts [] none
  | store {n : Nat} {loc : Loc} {e : Cpu} {past : List (Nat × Cpu)} : puts n loc →
      Latest puts ((n, e) :: past) (some (e.read loc))
  | other {n : Nat} {e : Cpu} {past : List (Nat × Cpu)} {w : Option Word} : (∀ loc, ¬ puts n loc) →
      Latest puts past w → Latest puts ((n, e) :: past) w

theorem Latest.congr {puts puts' : Nat → Loc → Prop} (h : ∀ n loc, puts n loc ↔ puts' n loc)
    {past : List (Nat × Cpu)} {w : Option Word} (hl : Latest puts past w) :
    Latest puts' past w := by
  obtain rfl : puts = puts' := funext fun n => funext fun loc => propext (h n loc)
  exact hl

theorem latest_none {puts : Nat → Loc → Prop} (h : ∀ n loc, ¬ puts n loc)
    (past : List (Nat × Cpu)) : Latest puts past none := by
  induction past with
  | nil => exact .none
  | cons v past ih => exact .other (h v.1) ih

namespace Context

variable {c : Context} {cpu e e' : Cpu} {past : List (Nat × Cpu)} {n : Nat} {p : Point} {s : State}
  {code : List Instr} {o : Option Label} {x : String} {d : Int} {index : Nat}

/-! ## Words -/

theorem within_of_inWord {lo b : Word} {below above : Nat} (h : below + 8 ≤ above)
    (hlt : above < 2 ^ 64) (hb : InWord (lo + BitVec.ofNat 64 below) b) :
    Within lo (lo + BitVec.ofNat 64 above) b := by
  unfold InWord at hb
  unfold Within
  bv_omega

/-- Where an argument on the stack arrives. -/
theorem read_argument (hfits : c.Fits 1) (hrun : run c.entryCode cpu = some e)
    (hle : Reg.args.length ≤ index) (hlt : index < c.function.params.length) :
    e.read (.frame (-Frame.argumentDepth index)) = cpu.argument index := by
  obtain ⟨-, hrbp, hmem⟩ := framed_entryCode hfits hrun
  have hdepth : -Frame.argumentDepth index =
      ((8 * (index - Reg.args.length) + 8 + 8 : Nat) : Int) := by
    unfold Frame.argumentDepth
    omega
  have haddr : e.regs .rbp + BitVec.ofInt 64 (-Frame.argumentDepth index) =
      cpu.regs .rsp + BitVec.ofNat 64 (8 * (index - Reg.args.length) + 8) := by
    rw [hrbp, hdepth, BitVec.ofInt_natCast, BitVec.ofNat_add]
    generalize BitVec.ofNat 64 (8 * (index - Reg.args.length) + 8) = y
    bv_omega
  rw [Cpu.read, haddr, Cpu.argument, List.getElem?_eq_none hle]
  refine Cpu.load_congr fun b hb => hmem b ?_
  unfold Fits bytesAbove at hfits
  exact within_of_inWord (by omega) (by omega) hb

section
variable (hc : c.Faithful) (hroom : c.Roomy) (hd : c.InFrame d)
include hroom hd

section
variable (hf : c.Framed (c.stackTop cpu) e) (hcode : c.CodeAt n code)
  (h : Completes (c.stackTop cpu) code e o e')
include hf hcode h

/-- A store to a word is all that its code does to the frame. -/
theorem read_frame_eq_store {d' : Int} {loc : Loc} (hputs : c.Puts n d' loc) : e'.read (.frame d) =
    (e.store (e.regs .rbp + BitVec.ofInt 64 d') (e.read loc)).read (.frame d) := by
  obtain ⟨p, s, s', hp, hs, hsel⟩ := hcode
  have hfits := hroom p (List.mem_of_getElem? hp)
  obtain ⟨-, hspares⟩ := spares_of_puts hp hs hsel (hf.room (hfits.mono (by omega))) h hputs
  have hstored : c.Framed (c.stackTop cpu)
      (e.store (e.regs .rbp + BitVec.ofInt 64 d') (e.read loc)) := ⟨hf.rsp, hf.top⟩
  exact hstored.read_frame hfits hspares not_false hd

theorem read_frame_of_puts {loc : Loc} (hputs : c.Puts n d loc) : e'.read (.frame d) = e.read loc :=
  (read_frame_eq_store hroom hd hf hcode h hputs).trans (Cpu.load_store ..)

/-- A point that does not store to a word leaves it alone. -/
theorem read_frame_of_not_puts (hno : ∀ loc, ¬ c.Puts n d loc) :
    e'.read (.frame d) = e.read (.frame d) := by
  have ⟨p, s, s', hp, hs, hsel⟩ := hcode
  have hfits := hroom p (List.mem_of_getElem? hp)
  by_cases hputs : ∃ d' loc, c.Puts n d' loc
  · obtain ⟨d', loc, hputs⟩ := hputs
    rw [read_frame_eq_store hroom hd hf hcode h hputs]
    have hne : d ≠ d' := fun he => hno loc (he ▸ hputs)
    obtain ⟨x, -, hword⟩ := hputs
    exact Cpu.load_store_of_apart (hd.apart hfits (frameWord_of_wordAt hword).inFrame hne _)
  · push Not at hputs
    exact hf.read_frame hfits (spares_of_not_puts hp hs hsel hfits hf h hputs) not_clobbers_rbp hd

end

include hc

/-- A word has what the latest store put there, or what it had when the prologue was done. -/
theorem Executes.read_frame (h : c.Executes cpu past n e) {e₀ : Cpu}
    (hrun : run c.entryCode cpu = some e₀) {w : Option Word} (hl : Latest (c.Puts · d ·) past w) :
    e.read (.frame d) = w.getD (e₀.read (.frame d)) := by
  induction h generalizing w with
  | start hrun' =>
    cases hl
    rw [Option.some.inj (hrun'.symm.trans hrun)]
    rfl
  | visit hex hcode hcomp _ ih =>
    have hf := hex.framed hc hroom
    cases hl with
    | store hputs => exact read_frame_of_puts hroom hd hf hcode hcomp hputs
    | other hno hl => exact (read_frame_of_not_puts hroom hd hf hcode hcomp hno).trans (ih hl)

end

theorem Executes.exists_entry (h : c.Executes cpu past n e) :
    ∃ e₀, run c.entryCode cpu = some e₀ := by
  induction h with
  | start hrun => exact ⟨_, hrun⟩
  | visit _ _ _ _ ih => exact ih

/-- A word has what the latest store to it put there. If there was none and it is that of an
argument, it has what the function was called with. -/
def Remembers (c : Context) (cpu : Cpu) (past : List (Nat × Cpu)) (e : Cpu) (d : Int) : Prop :=
  (∀ w, Latest (c.Puts · d ·) past (some w) → e.read (.frame d) = w) ∧
    ∀ index, Reg.args.length ≤ index → index < c.function.params.length →
      d = -Frame.argumentDepth index → Latest (c.Puts · d ·) past none →
      e.read (.frame d) = cpu.argument index

theorem Executes.remembers (hc : c.Faithful) (hroom : c.Roomy) (h : c.Executes cpu past n e)
    (hd : c.FrameWord d) : c.Remembers cpu past e d := by
  obtain ⟨e₀, hrun⟩ := h.exists_entry
  refine ⟨fun w hl => h.read_frame hc hroom hd.inFrame hrun hl, fun index hle hlt hdepth hl => ?_⟩
  rw [h.read_frame hc hroom hd.inFrame hrun hl, hdepth]
  exact read_argument (hroom.fits hc) hrun hle hlt

/-! ## Locals -/

/-- A load from a local is one move from its word. -/
theorem exists_load {body : List Line}
    (hbody : c.emitPoints c.initial c.flow.points.zipIdx = .ok body)
    (hp : c.flow.points[n]? = some p) (hop : p.instr.opcode = .load) {rest : List Operand}
    (hops : p.instr.operands = .reg x :: rest) (hx : x ∈ c.flow.allocas) :
    ∃ d dst, c.wordAt x n = some d ∧ c.dest p.instr = .ok dst ∧
      c.CodeAt n [.mov (.frame d) (.reg dst)] := by
  obtain ⟨s, s', code, -, -, hs, hsel, -⟩ := exists_code hbody hp
  obtain ⟨d, hd⟩ := Option.isSome_iff_exists.mp ((isSome_wordAt (n := n)).mpr hx)
  have hload := hsel
  rw [select, hop] at hload
  obtain ⟨a, rest', pre, src, dst, hops', hm, hdst, -, rfl⟩ := selectLoad_ok hload
  obtain ⟨rfl, -⟩ : Operand.reg x = a ∧ rest = rest' := by simpa using hops.symm.trans hops'
  rw [memory, hs.displacement?_eq, hd] at hm
  obtain ⟨rfl, rfl⟩ := Prod.mk.inj (Except.ok.inj hm)
  exact ⟨d, dst, hd, hdst, p, s, s', hp, hs, hsel⟩

/-- Only stores to a local that is never bound go to its word. -/
theorem puts_iff_stores (hbind : ∀ q ∈ c.flow.points, c.binding? x q.instr = none)
    (hd : c.wordAt x n = some d) (m : Nat) (loc : Loc) : c.Puts m d loc ↔ c.Stores m x loc := by
  have hword (m : Nat) : c.wordAt x m = some d := by
    rw [← hd, wordAt_eq_initial fun k _ q hq => hbind q (List.mem_of_getElem? hq),
      wordAt_eq_initial fun k _ q hq => hbind q (List.mem_of_getElem? hq)]
  refine ⟨fun h => ?_, fun h => ⟨x, h, hword m⟩⟩
  obtain ⟨y, hy, hyd⟩ := h
  obtain ⟨e, he, hde⟩ := Option.map_eq_some_iff.mp (hword 0)
  obtain ⟨j, hj, rfl⟩ := Frame.depth?_plan he
  rcases wordAt_cases hyd with ⟨k, hk, hkd⟩ | ⟨_, -, index, -, hid⟩
  · obtain rfl : j = k := by omega
    obtain rfl := Option.some.inj (hj.symm.trans hk)
    exact hy
  · unfold Frame.argumentDepth at hid
    omega

/-! ## Parameters -/

section
variable (hc : c.Faithful) (hx : x ∈ c.function.params.map Param.name)
include hc hx

theorem result_ne_of_param (hp : p ∈ c.flow.points) : p.instr.result ≠ some x := fun hresult =>
  hc.wellFormed.params x (List.mem_filterMap.mpr
    ⟨p.instr, (Function.mem_body.mp (hc.flow.instr_mem_body hp)).1, hresult⟩) hx

theorem not_mem_allocas_of_param : x ∉ c.flow.allocas := by
  intro hslot
  obtain ⟨i, hi, -, hresult⟩ := (hc.flow.allocas x).mp hslot
  exact hc.wellFormed.params x (List.mem_filterMap.mpr ⟨i, hi, hresult⟩) hx

/-- A parameter is never folded. -/
theorem known_eq_none_of_param (hs : c.StateAt n s) : s.known[x]? = none := by
  by_contra hsome
  obtain ⟨-, k, q, -, hq, hw, -⟩ := hs.exists_of_known (Option.isSome_iff_ne_none.mpr hsome)
  exact result_ne_of_param hc hx (List.mem_of_getElem? hq) (Flow.mem_writes hw)

end

section
variable (h : c.function.paramIndex? x = some index)
include h

theorem exists_param_of_paramIndex? : ∃ q, c.function.params[index]? = some q ∧ q.name = x := by
  obtain ⟨hlt, hname, -⟩ := List.findIdx?_eq_some_iff_getElem.mp h
  exact ⟨_, List.getElem?_eq_getElem hlt, by simpa using hname⟩

theorem mem_params_of_paramIndex? : x ∈ c.function.params.map Param.name := by
  obtain ⟨q, hq, hname⟩ := exists_param_of_paramIndex? h
  exact List.mem_map.mpr ⟨q, List.mem_of_getElem? hq, hname⟩

end

/-- Only stores to a local that is bound to an argument go to its word. -/
theorem not_puts_argument (hle : Reg.args.length ≤ index)
    (hbind : ∀ y, ∀ q ∈ c.flow.points, c.binding? y q.instr ≠ some index) (m : Nat) (loc : Loc) :
    ¬ c.Puts m (-Frame.argumentDepth index) loc := by
  rintro ⟨y, -, hword⟩
  unfold Frame.argumentDepth at hword
  rcases wordAt_cases hword with ⟨j, -, hd⟩ | ⟨q, hq, k, hk, hd⟩
  · omega
  · obtain ⟨hk', -⟩ := bounds_of_binding? hk
    unfold Frame.argumentDepth at hd
    obtain rfl : index = k := by omega
    exact hbind y q hq hk

theorem register_of_stackParam? (hc : c.Faithful) (hs : c.StateAt n s)
    (h : c.stackParam? x = some index) :
    c.register s x = .ok (.frame (-Frame.argumentDepth index)) := by
  have hx := mem_params_of_paramIndex? (Option.filter_eq_some_iff.mp h).1
  simp [register, known_eq_none_of_param hc hx hs, h]

section
variable {arg r : Reg} (hc : c.Faithful)
  (hindex : c.function.paramIndex? x = some index) (harg : Reg.args[index]? = some arg)
include hc hindex harg

theorem register_of_param (hs : c.StateAt n s) (hr : c.colored x = .ok r) :
    c.register s x = .ok (.reg r) := by
  have hx := mem_params_of_paramIndex? hindex
  have hparam : c.stackParam? x = none := by
    have hlt := (List.getElem?_eq_some_iff.mp harg).1
    simp [stackParam?, hindex, hlt]
  have hslot : s.frame.contains x = false := by
    rw [Bool.eq_false_iff]
    exact fun hslot => not_mem_allocas_of_param hc hx (hs.contains_iff.mp hslot)
  simp [register, known_eq_none_of_param hc hx hs, hparam, hslot, hr]

/-- A point leaves alone the register of a parameter that is live behind it. -/
theorem regs_param_of_completes (hroom : c.Roomy) (hf : c.Framed (c.stackTop cpu) e)
    (hcode : c.CodeAt n code) (h : Completes (c.stackTop cpu) code e o e')
    (hlive : x ∈ c.liveness.outAt n) (hr : c.colored x = .ok r) : e'.regs r = e.regs r := by
  obtain ⟨p, s, s', hp, hs, hsel⟩ := hcode
  have hmem := List.mem_of_getElem? hp
  refine regs_of_completes hp hs hsel (hroom p hmem) hf h fun hclob => ?_
  have hresult := result_ne_of_param hc (mem_params_of_paramIndex? hindex) hmem
  obtain ⟨hcaller, hsaved⟩ := mem_callerSaved_of_clobbers hc hp hlive
    (fun hw => hresult (Flow.mem_writes hw)) hr hclob
  exact hsaved (mem_preserved.mpr
    ⟨hcaller, _, hlive, hresult, register_of_param hc hindex harg hs hr⟩)

theorem Executes.regs_param (hroom : c.Roomy) (hno : ¬ c.Overwrites) (h : c.Executes cpu past n e)
    (hentry : x ∈ c.liveness.inAt 0) (hlive : ∀ v ∈ past, x ∈ c.liveness.outAt v.1)
    (hr : c.colored x = .ok r) : e.regs r = cpu.argument index := by
  induction h with
  | @start e hrun =>
    obtain ⟨q, hq, rfl⟩ := exists_param_of_paramIndex? hindex
    obtain ⟨r', hr', hv⟩ := (delivers_iff hc).mpr hno cpu e hrun index q arg hq harg hentry
    obtain rfl := Except.ok.inj (hr.symm.trans hr')
    rw [hv, Cpu.argument, harg]
  | visit hex hcode hcomp _ ih =>
    rw [List.forall_mem_cons] at hlive
    have hf := hex.framed hc hroom
    exact (regs_param_of_completes hc hindex harg hroom hf hcode hcomp hlive.1 hr).trans
      (ih hlive.2)

end

/-- A name that is read at the point to which an execution has come, and is written nowhere, is live
at all points before. -/
theorem Executes.live (hc : c.Faithful) (hroom : c.Roomy) (hcovers : c.function.Covers c.flow)
    (h : c.Executes cpu past n e) (hp : c.flow.points[n]? = some p) (hread : x ∈ p.uses)
    (hkept : ∀ q ∈ c.flow.points, x ∉ q.defs) :
    x ∈ c.liveness.inAt 0 ∧ ∀ v ∈ past, x ∈ c.liveness.outAt v.1 := by
  have hpath := h.path hc hroom
  have hout : ∀ v ∈ past, x ∈ c.liveness.outAt v.1 := by
    intro v hv
    rw [hc.liveness]
    have hmem : v.1 ∈ (past.map Prod.fst).reverse := List.mem_reverse.mpr (List.mem_map_of_mem hv)
    obtain ⟨a, ha⟩ := List.mem_iff_getElem?.mp hmem
    have hlt := (List.getElem?_eq_some_iff.mp ha).1
    refine hcovers _ x v.1 hpath
      ⟨a, (past.map Prod.fst).reverse.length, ?_, hlt, ⟨n, p, ?_, hp, hread⟩, ?_⟩
    · rw [List.getElem?_append_left hlt, ha]
    · simp
    · exact fun _ _ q _ _ _ hq => hkept q (List.mem_of_getElem? hq)
  refine ⟨?_, hout⟩
  rw [hc.liveness, Liveness.mem_inAt_analyze]
  obtain ⟨hhead, -⟩ := hpath
  cases hrev : (past.map Prod.fst).reverse with
  | nil =>
    rw [hrev] at hhead
    obtain rfl : n = 0 := by simpa using hhead
    exact ⟨0, .here hp hread⟩
  | cons k rest =>
    rw [hrev] at hhead
    obtain rfl : k = 0 := by simpa using hhead
    have hmem : 0 ∈ (past.map Prod.fst).reverse := by simp [hrev]
    obtain ⟨v, hv, hv0⟩ := List.mem_map.mp (List.mem_reverse.mp hmem)
    have hlive := hout v hv
    rw [hv0, hc.liveness, Liveness.mem_outAt_analyze] at hlive
    obtain ⟨q, hq, m, hm, hlive⟩ := hlive
    exact hlive.later hq (hkept q (List.mem_of_getElem? hq)) hm

/-- What the point to which an execution has come finds in locals and parameters. -/
structure Reads (c : Context) (cpu : Cpu) (past : List (Nat × Cpu)) (n : Nat) (e : Cpu)
    (p : Point) : Prop where
  /-- A load moves the word of the local to the register of its result. If the local is bound
  nowhere, the word has what was stored to the local last. -/
  load : ∀ x rest, p.instr.opcode = .load → p.instr.operands = .reg x :: rest → x ∈ c.flow.allocas →
    ∃ d dst, c.wordAt x n = some d ∧ c.dest p.instr = .ok dst ∧
      c.CodeAt n [.mov (.frame d) (.reg dst)] ∧ c.Remembers cpu past e d ∧
      ((∀ q ∈ c.flow.points, c.binding? x q.instr = none) →
        ∀ w, Latest (c.Stores · x ·) past (some w) → e.read (.frame d) = w)
  /-- A parameter on the stack is looked for in its word. If no local is bound to it anywhere, that
  has what the function was called with. -/
  stackParam : ∀ x index, c.stackParam? x = some index →
    ∃ s, c.StateAt n s ∧ c.register s x = .ok (.frame (-Frame.argumentDepth index)) ∧
      c.Remembers cpu past e (-Frame.argumentDepth index) ∧
      ((∀ y, ∀ q ∈ c.flow.points, c.binding? y q.instr ≠ some index) →
        e.read (.frame (-Frame.argumentDepth index)) = cpu.argument index)
  /-- A parameter in a register has what the function was called with. -/
  registerParam : c.function.Covers c.flow → ¬ c.Overwrites → ∀ x index, .reg x ∈ p.instr.operands →
    c.function.paramIndex? x = some index → index < Reg.args.length →
    ∃ s r, c.StateAt n s ∧ c.register s x = .ok (.reg r) ∧ e.regs r = cpu.argument index

section
variable (hc : c.Faithful) (hroom : c.Roomy) {body : List Line}
  (hbody : c.emitPoints c.initial c.flow.points.zipIdx = .ok body) (h : c.Executes cpu past n e)
  (hp : c.flow.points[n]? = some p)
include hc hroom hbody h hp

theorem Executes.registerParam (hcovers : c.function.Covers c.flow) (hno : ¬ c.Overwrites)
    (hx : .reg x ∈ p.instr.operands) (hindex : c.function.paramIndex? x = some index)
    (hlt : index < Reg.args.length) :
    ∃ s r, c.StateAt n s ∧ c.register s x = .ok (.reg r) ∧ e.regs r = cpu.argument index := by
  have hparam := mem_params_of_paramIndex? hindex
  have hread := hc.flow.mem_uses (List.mem_of_getElem? hp) hx (not_mem_allocas_of_param hc hparam)
  have hkept : ∀ k ∈ c.flow.points, x ∉ k.defs := by
    intro k hk hdef
    rw [hc.flow.defs k hk] at hdef
    exact result_ne_of_param hc hparam hk (Flow.mem_writes hdef)
  obtain ⟨hentry, hlive⟩ := h.live hc hroom hcovers hp hread hkept
  obtain ⟨r, hr⟩ :=
    hc.exists_colored (Flow.mem_temporaries.mpr ⟨p, List.mem_of_getElem? hp, .inl hread⟩)
  obtain ⟨s, -, -, -, -, hs, -⟩ := exists_code hbody hp
  have harg := List.getElem?_eq_getElem hlt
  exact ⟨s, r, hs, register_of_param hc hindex harg hs hr,
    h.regs_param hc hindex harg hroom hno hentry hlive hr⟩

theorem Executes.reads : c.Reads cpu past n e p where
  load x rest hop hops hx := by
    obtain ⟨d, dst, hd, hdst, hcode⟩ := exists_load hbody hp hop hops hx
    have hmem := h.remembers hc hroom (frameWord_of_wordAt hd)
    refine ⟨d, dst, hd, hdst, hcode, hmem, fun hbind w hl => hmem.1 w ?_⟩
    exact hl.congr fun m loc => (puts_iff_stores hbind hd m loc).symm
  stackParam x index hx := by
    obtain ⟨s, -, -, -, -, hs, -⟩ := exists_code hbody hp
    obtain ⟨hle, hlt⟩ := stackParam?_bounds hx
    have hmem := h.remembers hc hroom (.argument hle hlt)
    refine ⟨s, hs, register_of_stackParam? hc hs hx, hmem, fun hbind => ?_⟩
    exact hmem.2 index hle hlt rfl (latest_none (not_puts_argument hle hbind) past)
  registerParam hcovers hno _ _ hx hindex hlt :=
    h.registerParam hc hroom hbody hp hcovers hno hx hindex hlt

end

end Context

end X86

namespace Function

/-- Locals and parameters on the stack are memory. The lines of a compiled function execute its
points along its paths, and at each point a local or parameter has what `Reads` says. -/
theorem locals_are_memory {f : Function} {config : Config} {out : CompiledFunction}
    (hv : f.verify = .ok ()) (hfits : f.Fits) (h : f.compile config = .ok out) :
    ∃ fl live graph, f.analyze = .ok (fl, live, graph) ∧
      let c : X86.Context := ⟨f, fl, live, out.report.coloring, config⟩
      c.Accounts out.lines ∧
      ∀ cpu past n e, c.Executes cpu past n e → f.Path ((past.map Prod.fst).reverse ++ [n]) ∧
        ∀ p, fl.points[n]? = some p → c.Reads cpu past n e p := by
  obtain ⟨c, hc, hroom, rfl, rfl, ha, hcol, hacc, body, hbody, -⟩ := exists_accounting hv hfits h
  refine ⟨c.flow, c.liveness, _, ha, ?_⟩
  rw [hcol]
  exact ⟨hacc, fun cpu past n e hex => ⟨hex.path hc hroom, fun p hp => hex.reads hc hroom hbody hp⟩⟩

/-- A function that binds a local to its fifth argument, stores to it and loads it. -/
def reloaded : Function where
  name := "f"
  ret := .int 64
  params := [⟨"a", .int 64⟩, ⟨"b", .int 64⟩, ⟨"c", .int 64⟩, ⟨"d", .int 64⟩, ⟨"e", .int 64⟩]
  blocks := [⟨none, [
    ⟨.alloca, [], some "x", .int 64⟩,
    ⟨.store, [.reg "e", .reg "x"], none, .int 64⟩,
    ⟨.store, [.imm 7, .reg "x"], none, .int 64⟩,
    ⟨.load, [.reg "x"], some "y", .int 64⟩,
    ⟨.ret, [.reg "y"], none, .int 64⟩]⟩]

/-- Control comes to the load from the store only. -/
theorem eq_one_of_next_reloaded {n : Nat} (h : reloaded.Next n 2) : n = 1 := by
  obtain ⟨ins, hins, hto⟩ := h
  match n with
  | 0 | 2 | 3 => cases hins; cases hto
  | 1 => rfl

theorem locals_are_memory_reloaded :
    reloaded.verify = .ok () ∧ reloaded.Fits ∧
      ∃ out fl live graph, reloaded.compile {} = .ok out ∧
        reloaded.analyze = .ok (fl, live, graph) ∧
        let c : X86.Context := ⟨reloaded, fl, live, out.report.coloring, {}⟩
        ∀ cpu past e, c.Executes cpu past 2 e → ∃ d dst, c.wordAt "x" 2 = some d ∧
          c.CodeAt 2 [.mov (.frame d) (.reg dst)] ∧ e.read (.frame d) = 7 := by
  have hv : reloaded.verify = .ok () := ok_of_toBool (by decide +kernel)
  have hfits : reloaded.Fits := by unfold Fits; decide
  obtain ⟨out, hout⟩ : ∃ out, reloaded.compile {} = .ok out :=
    exists_ok_of_toBool (by decide +kernel)
  obtain ⟨fl, live, graph, ha, -, hreads⟩ := locals_are_memory hv hfits hout
  have hflow : reloaded.analyze.toOption.map (fun x => (x.1.allocas, x.1.points.map Point.instr)) =
      some (["x"], reloaded.body) := by
    decide +kernel
  simp only [ha, Except.toOption, Option.map_some, Option.some.injEq, Prod.mk.injEq] at hflow
  obtain ⟨hslots, hpoints⟩ := hflow
  have hget (n : Nat) := congrArg (·[n]?) hpoints
  simp only [List.getElem?_map] at hget
  refine ⟨hv, hfits, out, fl, live, graph, hout, ha, ?_⟩
  intro c cpu past e hex
  obtain ⟨hpath, hat⟩ := hreads cpu past 2 e hex
  obtain ⟨p, hp, hload⟩ := Option.map_eq_some_iff.mp (hget 2)
  obtain ⟨d, dst, hd, -, hcode, hmem, -⟩ := (hat p hp).load "x" [] (by rw [hload]) (by rw [hload])
    (by simp [hslots])
  refine ⟨d, dst, hd, hcode, hmem.1 7 ?_⟩
  cases hex with
  | @visit past n _ b _ _ _ _ hcode' _ _ =>
    obtain rfl :=
      eq_one_of_next_reloaded (hpath.next (a := past.length) (i := n) (by simp) (by simp))
    obtain ⟨q, s, -, hq, hs, -⟩ := hcode'
    obtain ⟨q', hq', hstore⟩ := Option.map_eq_some_iff.mp (hget 1)
    obtain rfl := Option.some.inj (hq.symm.trans hq')
    have hbind : c.binding? "x" q.instr = none := by rw [hstore]; rfl
    have hword : c.wordAt "x" 2 = c.wordAt "x" 1 :=
      X86.Context.wordAt_succ fun k hk => Option.some.inj (hq.symm.trans hk) ▸ hbind
    have hputs : c.Puts 1 d (.imm 7) := ⟨"x", ⟨q, s, .imm 7, [], hq, hs, by rw [hstore],
      by rw [hstore], by simp [c, hslots], hbind, rfl⟩, hword.symm.trans hd⟩
    have hlatest : X86.Latest (c.Puts · d ·) ((1, b) :: past) (some (b.read (.imm 7))) :=
      .store hputs
    exact hlatest

/-- A function that stores to a local that is bound to its fifth argument, and returns the
argument. -/
def rebound : Function where
  name := "f"
  ret := .int 64
  params := [⟨"a", .int 64⟩, ⟨"b", .int 64⟩, ⟨"c", .int 64⟩, ⟨"d", .int 64⟩, ⟨"e", .int 64⟩]
  blocks := [⟨none, [
    ⟨.alloca, [], some "slot", .int 64⟩,
    ⟨.store, [.reg "e", .reg "slot"], none, .int 64⟩,
    ⟨.store, [.imm 7, .reg "slot"], none, .int 64⟩,
    ⟨.ret, [.reg "e"], none, .int 64⟩]⟩]

def reboundLines : List X86.Line :=
  [.globl "f", .label (.entry "f"), .code (.push (.reg .rbp)), .code (.mov (.reg .rsp) (.reg .rbp)),
    .code (.alu .sub (.imm 8) .rsp), .code (.push (.reg .r8)), .code (.mov (.imm 7) (.frame 16)),
    .code (.mov (.frame 16) (.reg .rax)), .code (.jmp (.exit "f")), .label (.exit "f"),
    .code (.pop (.reg .r8)), .code (.mov (.reg .rbp) (.reg .rsp)), .code (.pop (.reg .rbp)),
    .code .ret]

/-- Called with 5, it returns 7: the store went to the word of the argument. -/
theorem store_overwrites_argument_rebound :
    rebound.verify = .ok () ∧ ∃ out cpu, rebound.compile {} = .ok out ∧ cpu.argument 4 = 5 ∧
      ∀ top, ∃ e rest, X86.Steps top out.lines ⟨cpu, out.lines⟩ ⟨e, .code .ret :: rest⟩ ∧
        e.regs .rax = 7 := by
  have hv : rebound.verify = .ok () := ok_of_toBool (by decide +kernel)
  have hlines : (rebound.compile {}).toOption.map CompiledFunction.lines = some reboundLines := by
    decide +kernel
  obtain ⟨out, hout, hlines⟩ := Option.map_eq_some_iff.mp hlines
  let cpu : X86.Cpu := ⟨fun _ => 0, fun b => if b = 8 then 5 else 0, none, fun _ => 0⟩
  have harg : cpu.argument 4 = 5 := by decide +kernel
  refine ⟨hv, out, cpu, toOption_eq_some_iff.mp hout, harg, fun top => ?_⟩
  rw [hlines]
  have hrun : (X86.advance reboundLines 13 ⟨cpu, reboundLines⟩).map (fun m =>
      (m.lines.head?, m.cpu.regs .rax)) = some (some (.code .ret), 7) := by
    decide +kernel
  obtain ⟨⟨e, lines⟩, he, hrun⟩ := Option.map_eq_some_iff.mp hrun
  simp only [Prod.mk.injEq, List.head?_eq_some_iff] at hrun
  obtain ⟨⟨rest, rfl⟩, hw⟩ := hrun
  have hdirect : ∀ line ∈ reboundLines, line.isIndirect = false := by decide
  obtain ⟨hret, -⟩ := X86.steps_of_advance hdirect top (List.suffix_refl _) he
  exact ⟨e, rest, hret, hw⟩

end Function

end IrAsm
