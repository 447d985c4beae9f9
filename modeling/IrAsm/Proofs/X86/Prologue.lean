import IrAsm.Proofs.X86.Context
import IrAsm.Proofs.X86.Machine
import IrAsm.Proofs.X86.Peephole

/-!
# The prologue

The prologue sets up the frame, saves registers and copies arguments to the registers of their
parameters, one after another. A copy may overwrite an earlier one: parameters that are live on
entry have different registers, but a parameter that is only read where control never comes has a
register too, and is not live on entry. `delivers_iff`: the parameters that are live on entry
arrive, unless a later one has the register of one of them. If all points can be reached, none has.
-/

namespace IrAsm

namespace X86

theorem Reg.not_mem_palette_of_args {r : Reg} (h : r ∈ args) : r ∉ palette := by
  revert r; decide

theorem Reg.ne_of_args {r : Reg} (h : r ∈ args) : r ≠ .rsp ∧ r ≠ .rbp := by
  revert r; decide

theorem Reg.args_inj {i j : Nat} {r : Reg} (hi : args[i]? = some r) (hj : args[j]? = some r) :
    i = j :=
  (List.getElem?_inj (List.getElem?_eq_some_iff.mp hi).1 (by decide)).mp (hi.trans hj.symm)

/-! ## Copies -/

/-- Copies registers one after another, from the first of each pair to the second. -/
def Cpu.copyAll (c : Cpu) (copies : List (Reg × Reg)) : Cpu :=
  copies.foldl (fun c x => c.setReg x.2 (c.regs x.1)) c

theorem run_copies (copies : List (Reg × Reg)) (c : Cpu) :
    run (copies.map fun x => .mov (.reg x.1) (.reg x.2)) c = some (c.copyAll copies) := by
  induction copies generalizing c with
  | nil => rfl
  | cons x copies ih =>
    rw [List.map_cons, run_cons]
    exact ih _

namespace Cpu

variable {copies : List (Reg × Reg)}

theorem regs_copyAll_of_ne {r : Reg} (h : ∀ x ∈ copies, x.2 ≠ r) (c : Cpu) :
    (c.copyAll copies).regs r = c.regs r := by
  induction copies generalizing c with
  | nil => rfl
  | cons x copies ih =>
    rw [List.forall_mem_cons] at h
    refine (ih h.2 _).trans ?_
    simp [h.1.symm]

/-- If no copy overwrites a source, a register that is copied to has the value of one of its
sources. -/
theorem exists_regs_copyAll {r : Reg} (hsrc : ∀ x ∈ copies, ∀ y ∈ copies, x.1 ≠ y.2)
    (h : ∃ x ∈ copies, x.2 = r) (c : Cpu) :
    ∃ x ∈ copies, x.2 = r ∧ (c.copyAll copies).regs r = c.regs x.1 := by
  induction copies generalizing c with
  | nil => simp at h
  | cons x copies ih =>
    by_cases hlater : ∃ y ∈ copies, y.2 = r
    · obtain ⟨y, hy, hr, hv⟩ := ih (fun a ha b hb => hsrc a (.tail _ ha) b (.tail _ hb)) hlater
        (c.setReg x.2 (c.regs x.1))
      refine ⟨y, .tail _ hy, hr, hv.trans ?_⟩
      simp [hsrc y (.tail _ hy) x (.head _)]
    · have hx : x.2 = r := by simpa [hlater] using h
      push Not at hlater
      refine ⟨x, .head _, hx, (regs_copyAll_of_ne hlater _).trans ?_⟩
      simp [hx]

/-- After a copy the register keeps its value, or takes that of a later copy to it. -/
theorem regs_copyAll_append {before later : List (Reg × Reg)} {a r : Reg}
    (hsrc : ∀ x ∈ before ++ (a, r) :: later, ∀ y ∈ before ++ (a, r) :: later, x.1 ≠ y.2) (c : Cpu) :
    (∀ x ∈ later, x.2 ≠ r) ∧ (c.copyAll (before ++ (a, r) :: later)).regs r = c.regs a ∨
      ∃ x ∈ later, x.2 = r ∧ (c.copyAll (before ++ (a, r) :: later)).regs r = c.regs x.1 := by
  have hbefore : ∀ x ∈ (a, r) :: later, (c.copyAll before).regs x.1 = c.regs x.1 := fun x hx =>
    regs_copyAll_of_ne (fun y hy =>
      (hsrc x (List.mem_append_right _ hx) y (List.mem_append_left _ hy)).symm) c
  have hcopy : c.copyAll (before ++ (a, r) :: later) =
      ((c.copyAll before).setReg r (c.regs a)).copyAll later := by
    rw [← hbefore (a, r) List.mem_cons_self]
    simp [copyAll, List.foldl_append]
  rw [hcopy]
  by_cases hex : ∃ x ∈ later, x.2 = r
  · right
    obtain ⟨x, hx, hxr, hv⟩ := exists_regs_copyAll
      (fun x hx y hy => hsrc x (by simp [hx]) y (by simp [hy])) hex
      ((c.copyAll before).setReg r (c.regs a))
    refine ⟨x, hx, hxr, hv.trans ?_⟩
    have hne : x.1 ≠ r := hsrc x (by simp [hx]) (a, r) (by simp)
    simp [hne, hbefore x (.tail _ hx)]
  · left
    push Not at hex
    exact ⟨hex, (regs_copyAll_of_ne hex _).trans (by simp)⟩

end Cpu

namespace Context

variable {c : Context}

/-- The copies that the prologue makes for the given parameters. -/
def copies (c : Context) (ps : List (Param × Reg)) : List (Reg × Reg) :=
  ps.filterMap fun (p, arg) => ((c.coloring.get? p.name).bind Reg.ofColor?).map (arg, ·)

theorem paramCopies_eq (c : Context) : c.paramCopies =
    (c.copies (c.function.params.zip Reg.args)).map fun x => .mov (.reg x.1) (.reg x.2) := by
  simp only [paramCopies, copies, List.map_filterMap, Option.map_map, Function.comp_def]

theorem mem_copies {ps : List (Param × Reg)} {arg r : Reg} :
    (arg, r) ∈ c.copies ps ↔ ∃ p, (p, arg) ∈ ps ∧ c.colored p.name = .ok r := by
  simp only [copies, List.mem_filterMap, Option.map_eq_some_iff, Prod.mk.injEq, Prod.exists,
    colored_ok_iff]
  constructor
  · rintro ⟨p, _, hp, _, hr, rfl, rfl⟩; exact ⟨p, hp, hr⟩
  · rintro ⟨p, hp, hr⟩; exact ⟨p, arg, hp, r, hr, rfl, rfl⟩

theorem run_pushes (saved : List Reg) (cpu : Cpu) :
    ∃ d, run (saved.map fun r => .push (.reg r)) cpu = some d ∧
      ∀ r, r ≠ .rsp → d.regs r = cpu.regs r := by
  induction saved generalizing cpu with
  | nil => exact ⟨cpu, rfl, fun _ _ => rfl⟩
  | cons q saved ih =>
    obtain ⟨d, hd, hregs⟩ :=
      ih ((cpu.setReg .rsp (cpu.regs .rsp - 8)).store (cpu.regs .rsp - 8) (cpu.regs q))
    refine ⟨d, hd, fun r hr => (hregs r hr).trans ?_⟩
    simp [hr]

/-- The prologue without the copies. -/
def setupCode (c : Context) : List Instr :=
  [.push (.reg .rbp), .mov (.reg .rsp) (.reg .rbp),
    .alu .sub (.imm (BitVec.ofNat 64 c.initial.frame.size)) .rsp] ++
    c.saved.map fun r => .push (.reg r)

theorem entryCode_eq (c : Context) : c.entryCode = c.setupCode ++ c.paramCopies := rfl

/-- Before the copies, only the stack and the frame pointer change. -/
theorem run_setupCode (c : Context) (cpu : Cpu) :
    ∃ d : Cpu, run c.setupCode cpu = some d ∧ ∀ r, r ≠ .rsp → r ≠ .rbp → d.regs r = cpu.regs r := by
  obtain ⟨d, hframe, hd⟩ : ∃ d : Cpu, run [.push (.reg .rbp), .mov (.reg .rsp) (.reg .rbp),
      .alu .sub (.imm (BitVec.ofNat 64 c.initial.frame.size)) .rsp] cpu = some d ∧
      ∀ r, r ≠ .rsp → r ≠ .rbp → d.regs r = cpu.regs r := by
    refine ⟨_, rfl, fun r hsp hbp => ?_⟩
    simp [hsp, hbp]
  obtain ⟨e, hpush, he⟩ := run_pushes c.saved d
  refine ⟨e, ?_, fun r hsp hbp => (he r hsp).trans (hd r hsp hbp)⟩
  rw [setupCode, run_append, hframe, Option.bind_some, hpush]

theorem run_entryCode (c : Context) (cpu : Cpu) :
    ∃ d : Cpu, run c.entryCode cpu = some (d.copyAll (c.copies (c.function.params.zip Reg.args))) ∧
      ∀ r, r ≠ .rsp → r ≠ .rbp → d.regs r = cpu.regs r := by
  obtain ⟨d, hd, hregs⟩ := c.run_setupCode cpu
  refine ⟨d, ?_, hregs⟩
  rw [entryCode_eq, run_append, hd, Option.bind_some, paramCopies_eq, run_copies]

/-! ## Arguments -/

/-- Each parameter that is live on entry and arrives in a register is now in the register of its
color. -/
def Delivers (c : Context) (cpu cpu' : Cpu) : Prop :=
  ∀ (i : Nat) (p : Param) (arg : Reg), c.function.params[i]? = some p → Reg.args[i]? = some arg →
    p.name ∈ c.liveness.inAt 0 → ∃ r, c.colored p.name = .ok r ∧ cpu'.regs r = cpu.regs arg

/-- A parameter that is live on entry shares its color with a later one. -/
def Overwrites (c : Context) : Prop :=
  ∃ (i j : Nat) (p q : Param), i < j ∧ j < Reg.args.length ∧ c.function.params[i]? = some p ∧
    c.function.params[j]? = some q ∧ p.name ∈ c.liveness.inAt 0 ∧
    c.coloring.get? q.name = c.coloring.get? p.name

theorem mem_args_of_copies {x : Reg × Reg}
    (h : x ∈ c.copies (c.function.params.zip Reg.args)) : x.1 ∈ Reg.args := by
  obtain ⟨p, hp, -⟩ := mem_copies.mp h
  exact (List.of_mem_zip hp).2

theorem mem_palette_of_copies {ps : List (Param × Reg)} {x : Reg × Reg} (h : x ∈ c.copies ps) :
    x.2 ∈ Reg.palette := by
  obtain ⟨p, -, hr⟩ := mem_copies.mp h
  exact mem_palette_of_colored hr

/-- No copy overwrites an argument. -/
theorem copies_disjoint (c : Context) : ∀ x ∈ c.copies (c.function.params.zip Reg.args),
    ∀ y ∈ c.copies (c.function.params.zip Reg.args), x.1 ≠ y.2 := fun _ hx _ hy he =>
  Reg.not_mem_palette_of_args (mem_args_of_copies hx) (he ▸ mem_palette_of_copies hy)

/-- The copies around that of a parameter. -/
theorem exists_copies_split {i : Nat} {p : Param} {arg r : Reg}
    (hp : c.function.params[i]? = some p) (ha : Reg.args[i]? = some arg)
    (hr : c.colored p.name = .ok r) :
    ∃ before later, c.copies (c.function.params.zip Reg.args) = before ++ (arg, r) :: later ∧
      ∀ a s, (a, s) ∈ later ↔ ∃ j q, i < j ∧ c.function.params[j]? = some q ∧
        Reg.args[j]? = some a ∧ c.colored q.name = .ok s := by
  have hi : (c.function.params.zip Reg.args)[i]? = some (p, arg) :=
    List.getElem?_zip_eq_some.mpr ⟨hp, ha⟩
  obtain ⟨hlt, hget⟩ := List.getElem?_eq_some_iff.mp hi
  refine ⟨c.copies ((c.function.params.zip Reg.args).take i),
    c.copies ((c.function.params.zip Reg.args).drop (i + 1)), ?_, fun a s => ?_⟩
  · have hcopy : c.copies [(p, arg)] = [(arg, r)] := by
      simp only [copies, List.filterMap_cons, colored_ok_iff.mp hr]
      rfl
    have hsplit := List.take_append_drop i (c.function.params.zip Reg.args)
    rw [List.drop_eq_getElem_cons hlt, hget, ← List.singleton_append] at hsplit
    rw [← List.singleton_append, ← hcopy]
    simp only [copies, ← List.filterMap_append]
    rw [hsplit]
  · rw [mem_copies]
    simp only [List.mem_iff_getElem?, List.getElem?_drop, List.getElem?_zip_eq_some]
    constructor
    · rintro ⟨q, ⟨k, hq, hs⟩, hc⟩
      exact ⟨i + 1 + k, q, by omega, hq, hs, hc⟩
    · rintro ⟨j, q, hj, hq, hs, hc⟩
      have hk : i + 1 + (j - (i + 1)) = j := by omega
      exact ⟨q, ⟨j - (i + 1), by rwa [hk], by rwa [hk]⟩, hc⟩

/-- What ends up in the register of a parameter: its argument, or that of a later parameter that has
the same register. -/
theorem regs_copyAll_param {i : Nat} {p : Param} {arg r : Reg}
    (hp : c.function.params[i]? = some p) (ha : Reg.args[i]? = some arg)
    (hr : c.colored p.name = .ok r) (d : Cpu) :
    (∀ j q, i < j → j < Reg.args.length → c.function.params[j]? = some q →
        c.colored q.name ≠ .ok r) ∧
      (d.copyAll (c.copies (c.function.params.zip Reg.args))).regs r = d.regs arg ∨
    ∃ j q arg', i < j ∧ c.function.params[j]? = some q ∧ Reg.args[j]? = some arg' ∧
      c.colored q.name = .ok r ∧
      (d.copyAll (c.copies (c.function.params.zip Reg.args))).regs r = d.regs arg' := by
  obtain ⟨before, later, hsplit, hlater⟩ := exists_copies_split hp ha hr
  have hsrc := c.copies_disjoint
  rw [hsplit] at hsrc ⊢
  rcases Cpu.regs_copyAll_append hsrc d with ⟨hno, hv⟩ | ⟨x, hx, hxr, hv⟩
  · refine .inl ⟨fun j q hj hlen hq hc => ?_, hv⟩
    exact hno _ ((hlater _ r).mpr ⟨j, q, hj, hq, List.getElem?_eq_getElem hlen, hc⟩) rfl
  · obtain ⟨j, q, hj, hq, ha', hc⟩ := (hlater x.1 x.2).mp hx
    exact .inr ⟨j, q, x.1, hj, hq, ha', hxr ▸ hc, hv⟩

/-- The parameters that are live on entry arrive whatever they are, exactly if none of them shares
its color with a later one. -/
theorem delivers_iff (h : c.Faithful) :
    (∀ cpu cpu', run c.entryCode cpu = some cpu' → c.Delivers cpu cpu') ↔ ¬ c.Overwrites := by
  constructor
  · rintro hd ⟨i, j, p, q, hij, hj, hp, hq, hlive, hcolor⟩
    have ha : Reg.args[i]? = some Reg.args[i] := List.getElem?_eq_getElem (Nat.lt_trans hij hj)
    -- all registers but that of the argument hold zero
    let cpu : Cpu := ⟨fun r => if r = Reg.args[i] then 1 else 0, fun _ => 0, none, fun _ => 0⟩
    obtain ⟨d, hrun, hregs⟩ := c.run_entryCode cpu
    obtain ⟨r, hr, hv⟩ := hd cpu _ hrun i p _ hp ha hlive
    rcases regs_copyAll_param hp ha hr d with ⟨hno, -⟩ | ⟨k, q', arg, hk, -, ha', -, hv'⟩
    · rw [colored_ok_iff, ← hcolor, ← colored_ok_iff] at hr
      exact hno j q hij hj hq hr
    · have hne : arg ≠ Reg.args[i] := fun he =>
        absurd (Reg.args_inj (he ▸ ha') ha) (Nat.ne_of_gt hk)
      obtain ⟨hsp, hbp⟩ := Reg.ne_of_args (List.mem_of_getElem? ha')
      rw [hv', hregs arg hsp hbp] at hv
      simp [cpu, hne] at hv
  · intro hno cpu cpu' hrun i p arg hp ha hlive
    obtain ⟨d, hrun', hregs⟩ := c.run_entryCode cpu
    obtain rfl := Option.some.inj (hrun.symm.trans hrun')
    rw [h.liveness, Liveness.mem_inAt_analyze] at hlive
    obtain ⟨r, hr⟩ := h.exists_colored hlive.mem_temporaries
    refine ⟨r, hr, ?_⟩
    rcases regs_copyAll_param hp ha hr d with ⟨-, hv⟩ | ⟨j, q, arg', hij, hq, ha', hr', -⟩
    · obtain ⟨hsp, hbp⟩ := Reg.ne_of_args (List.mem_of_getElem? ha)
      exact hv.trans (hregs arg hsp hbp)
    · refine absurd ⟨i, j, p, q, hij, ?_, hp, hq, ?_, ?_⟩ hno
      · exact (List.getElem?_eq_some_iff.mp ha').1
      · rwa [h.liveness, Liveness.mem_inAt_analyze]
      · exact get?_eq_of_colored hr' hr

/-- If all points can be reached, a parameter that has a color is live on entry. -/
theorem live_of_colored (h : c.Faithful) (hreach : ∀ n < c.flow.points.length, c.flow.Reachable n)
    {q : Param} (hq : q ∈ c.function.params) {r : Reg} (hr : c.colored q.name = .ok r) :
    Liveness.Live c.flow.points 0 q.name := by
  have hdefs : ∀ pt ∈ c.flow.points, q.name ∉ pt.defs := fun pt hpt hd =>
    h.wellFormed.params _ (h.flow.mem_results hpt hd) (List.mem_map_of_mem hq)
  obtain ⟨pt, hpt, hread⟩ := Flow.mem_temporaries.mp (h.mem_temporaries_of_colored hr)
  obtain ⟨n, hn⟩ := List.mem_iff_getElem?.mp hpt
  have hlive : Liveness.Live c.flow.points n q.name :=
    ⟨0, .here hn (hread.resolve_right (hdefs pt hpt))⟩
  exact (hreach n (List.getElem?_eq_some_iff.mp hn).1).live hdefs hlive

theorem not_overwrites (h : c.Faithful) (hnames : (c.function.params.map Param.name).Nodup)
    (hreach : ∀ n < c.flow.points.length, c.flow.Reachable n) : ¬ c.Overwrites := by
  rintro ⟨i, j, p, q, hij, -, hp, hq, hlive, hcolor⟩
  rw [h.liveness, Liveness.mem_inAt_analyze] at hlive
  obtain ⟨r, hr⟩ := h.exists_colored hlive.mem_temporaries
  have hr' : c.colored q.name = .ok r := by rwa [colored_ok_iff, hcolor, ← colored_ok_iff]
  have hne : p.name ≠ q.name := by
    intro he
    have hi : (c.function.params.map Param.name)[i]? = some p.name := by simp [hp]
    have hj : (c.function.params.map Param.name)[j]? = some p.name := by simp [hq, he]
    have := (List.getElem?_inj (List.getElem?_eq_some_iff.mp hi).1 hnames).mp (hi.trans hj.symm)
    omega
  have hlive' := live_of_colored h hreach (List.mem_of_getElem? hq) hr'
  exact h.colored_ne (h.flow.adj_in .entry _ _ hlive hlive' hne) hne hr hr' rfl

/-- The passes leave the prologue as it is. -/
theorem shape_prologue (c : Context) : ∀ line ∈ c.prologue, line.shape = .other := by
  have hcopy : ∀ line ∈ c.paramCopies.map Line.code, line.shape = .other := by
    rw [paramCopies_eq, List.map_map, List.forall_mem_map]
    intro x hx
    have hne : Loc.reg x.1 ≠ .reg x.2 := fun he =>
      c.copies_disjoint x hx x hx (Loc.reg.inj he)
    simp [Line.shape, hne]
  have hpush : ∀ line ∈ (c.saved.map fun r => Instr.push (.reg r)).map Line.code,
      line.shape = .other := by
    rw [List.map_map, List.forall_mem_map]
    exact fun _ _ => rfl
  simp only [prologue, entryCode, List.map_append, List.forall_mem_append]
  exact ⟨by simp [Line.shape], ⟨by simp [Line.shape], hpush⟩, hcopy⟩

theorem emit_ok {lines : List Line} (h : c.emit = .ok lines) :
    ∃ body, c.emitPoints c.initial c.flow.points.zipIdx = .ok body ∧
      lines = c.prologue ++ (body ++ c.epilogue) := by
  simp only [emit, bind_ok_iff, pure_ok_iff, List.append_assoc] at h
  obtain ⟨body, hb, rfl⟩ := h
  exact ⟨body, hb, rfl⟩

theorem runs_prologue (c : Context) (prog rest : List Line) (cpu : Cpu) :
    ∃ cpu', run c.entryCode cpu = some cpu' ∧
      Runs prog ⟨cpu, c.prologue ++ rest⟩ ⟨cpu', rest⟩ := by
  obtain ⟨d, hrun, -⟩ := c.run_entryCode cpu
  refine ⟨_, hrun, ?_⟩
  rw [prologue, List.append_assoc]
  exact .trans (Runs.silent (by simp [Line.isSilent])) (Runs.code hrun)

end Context

end X86

namespace Function

/-- The prologue of every compiled function runs to its end. It delivers all live parameters exactly
if none of them shares its color with a later one, and that is so if all points can be reached. -/
theorem live_params_delivered_iff {f : Function} {config : Config} {out : CompiledFunction}
    (hv : f.verify = .ok ()) (hnames : (f.params.map Param.name).Nodup)
    (h : f.compile config = .ok out) :
    ∃ fl live graph rest, f.analyze = .ok (fl, live, graph) ∧
      let c : X86.Context := ⟨f, fl, live, out.report.coloring, config⟩
      out.lines = c.prologue ++ rest ∧
      (∀ cpu, ∃ cpu', X86.run c.entryCode cpu = some cpu' ∧
        X86.Runs out.lines ⟨cpu, out.lines⟩ ⟨cpu', rest⟩) ∧
      ((∀ cpu cpu', X86.run c.entryCode cpu = some cpu' → c.Delivers cpu cpu') ↔ ¬ c.Overwrites) ∧
      ((∀ n < fl.points.length, fl.Reachable n) → ¬ c.Overwrites) := by
  obtain ⟨c, hc, rfl, rfl, ha, hcol, lines, hl, hout⟩ := exists_context (wellFormed_of_verify hv) h
  obtain ⟨body, -, rfl⟩ := X86.Context.emit_ok hl
  obtain ⟨rest, hrest⟩ : ∃ rest, out.lines = c.prologue ++ rest := by
    rw [hout]
    split
    · exact X86.Peephole.exists_runAll_append c.shape_prologue _
    · exact ⟨_, rfl⟩
  refine ⟨c.flow, c.liveness, _, rest, ha, ?_⟩
  rw [hcol, hrest]
  exact ⟨rfl, c.runs_prologue _ rest, X86.Context.delivers_iff hc,
    X86.Context.not_overwrites hc hnames⟩

theorem live_params_delivered_iff_difference :
    difference.verify = .ok () ∧ (difference.params.map Param.name).Nodup ∧
      ∃ out fl live graph, difference.compile {} = .ok out ∧
        difference.analyze = .ok (fl, live, graph) ∧
        ∀ cpu cpu',
          X86.run (X86.Context.mk difference fl live out.report.coloring {}).entryCode cpu =
            some cpu' →
          (X86.Context.mk difference fl live out.report.coloring {}).Delivers cpu cpu' := by
  have hv : difference.verify = .ok () := ok_of_toBool (by decide +kernel)
  have hnames : (difference.params.map Param.name).Nodup := by decide
  obtain ⟨out, hout⟩ : ∃ out, difference.compile {} = .ok out :=
    exists_ok_of_toBool (by decide +kernel)
  obtain ⟨fl, live, graph, rest, ha, -, -, hiff, hreach⟩ := live_params_delivered_iff hv hnames hout
  have hsuccs : difference.analyze.toOption.map (fun x => x.1.points.map Point.succs) =
      some [[1], []] := by
    decide +kernel
  simp only [ha, Except.toOption, Option.map_some, Option.some.injEq] at hsuccs
  have hlen : fl.points.length = 2 := by simpa using congrArg List.length hsuccs
  refine ⟨hv, hnames, out, fl, live, graph, hout, ha, hiff.mpr (hreach fun n hn => ?_)⟩
  refine Flow.reachable_of_succs ?_ hn
  rw [hsuccs, hlen]
  decide

/-- A function that reads its second parameter only where control never comes. -/
def deadRead : Function where
  name := "f"
  ret := .int 64
  params := [⟨"a", .int 64⟩, ⟨"b", .int 64⟩]
  blocks := [⟨some "entry", [⟨.br, [.label "out"], none, .void⟩]⟩,
    ⟨some "dead", [⟨.ret, [.reg "b"], none, .int 64⟩]⟩,
    ⟨some "out", [⟨.ret, [.reg "a"], none, .int 64⟩]⟩]

/-- Its second argument overwrites the first one, which is live. -/
theorem not_delivers_deadRead :
    deadRead.verify = .ok () ∧ (deadRead.params.map Param.name).Nodup ∧
      ∃ out fl live graph, deadRead.compile {} = .ok out ∧
        deadRead.analyze = .ok (fl, live, graph) ∧
        ¬ ∀ cpu cpu',
          X86.run (X86.Context.mk deadRead fl live out.report.coloring {}).entryCode cpu =
            some cpu' →
          (X86.Context.mk deadRead fl live out.report.coloring {}).Delivers cpu cpu' := by
  have hv : deadRead.verify = .ok () := ok_of_toBool (by decide +kernel)
  obtain ⟨out, hout⟩ : ∃ out, deadRead.compile {} = .ok out :=
    exists_ok_of_toBool (by decide +kernel)
  have hcolors : (deadRead.compile {}).toOption.map
      (fun out => (out.report.coloring.get? "a", out.report.coloring.get? "b")) =
        some (some 0, some 0) := by
    decide +kernel
  have hlive : deadRead.analyze.toOption.map (fun x => decide ("a" ∈ x.2.1.inAt 0)) =
      some true := by
    decide +kernel
  obtain ⟨⟨_, fl, live, _, _⟩, hc, rfl, rfl, ha, rfl, -⟩ :=
    exists_context (wellFormed_of_verify hv) hout
  simp only [hout, ha, Except.toOption, Option.map_some, Option.some.injEq, Prod.mk.injEq,
    decide_eq_true_eq] at hcolors hlive
  refine ⟨hv, by decide, out, fl, live, _, hout, ha,
    fun hd => (X86.Context.delivers_iff hc).mp hd ?_⟩
  exact ⟨0, 1, ⟨"a", .int 64⟩, ⟨"b", .int 64⟩, by decide, by decide, rfl, rfl, hlive,
    hcolors.2.trans hcolors.1.symm⟩

end Function

end IrAsm
