import IrAsm.Proofs.Separation

/-!
# What selection can rely on

A successful compilation runs selection on the flow of the function, on its liveness and on a proper
coloring of it (`Context.Faithful`). Every temporary then has a register of the palette, and names
that are live together at a reachable point have different ones.
-/

namespace IrAsm

namespace X86

theorem Reg.ofColor?_inj {m n : Nat} {r : Reg} (hm : ofColor? m = some r)
    (hn : ofColor? n = some r) : m = n :=
  (List.getElem?_inj (List.getElem?_eq_some_iff.mp hm).1 (by decide)).mp (hm.trans hn.symm)

namespace Context

structure Faithful (c : Context) : Prop where
  wellFormed : c.function.WellFormed
  flow : Flow.Represents c.function c.flow
  liveness : c.liveness = Liveness.analyze c.flow.points
  proper : c.coloring.Proper c.flow.interference c.config.registers c.flow.temporaries
  registers : c.config.registers ≤ Reg.palette.length

theorem colored_ok_iff {c : Context} {x : String} {r : Reg} :
    c.colored x = .ok r ↔ (c.coloring.get? x).bind Reg.ofColor? = some r := by
  unfold colored
  cases (c.coloring.get? x).bind Reg.ofColor? with
  | none => simp
  | some q => simp

theorem mem_palette_of_colored {c : Context} {x : String} {r : Reg} (h : c.colored x = .ok r) :
    r ∈ Reg.palette := by
  obtain ⟨n, -, hn⟩ := Option.bind_eq_some_iff.mp (colored_ok_iff.mp h)
  exact List.mem_of_getElem? hn

theorem get?_eq_of_colored {c : Context} {x y : String} {r : Reg} (hx : c.colored x = .ok r)
    (hy : c.colored y = .ok r) : c.coloring.get? x = c.coloring.get? y := by
  obtain ⟨m, hm, hr⟩ := Option.bind_eq_some_iff.mp (colored_ok_iff.mp hx)
  obtain ⟨n, hn, hr'⟩ := Option.bind_eq_some_iff.mp (colored_ok_iff.mp hy)
  rw [hm, hn, Reg.ofColor?_inj hr hr']

theorem exists_colored_of_proper {c : Context}
    (h : c.coloring.Proper c.flow.interference c.config.registers c.flow.temporaries)
    (hk : c.config.registers ≤ Reg.palette.length) {x : String} (hx : x ∈ c.flow.temporaries) :
    ∃ r, c.colored x = .ok r := by
  obtain ⟨n, hn⟩ := Option.isSome_iff_exists.mp ((h.isSome_iff x).mpr hx)
  have hlt : n < Reg.palette.length := Nat.lt_of_lt_of_le (h.lt hn) hk
  have hr : Reg.ofColor? n = some Reg.palette[n] := List.getElem?_eq_getElem hlt
  exact ⟨_, colored_ok_iff.mpr (Option.bind_eq_some_iff.mpr ⟨n, hn, hr⟩)⟩

namespace Faithful

variable {c : Context}

theorem exists_colored (h : c.Faithful) {x : String} (hx : x ∈ c.flow.temporaries) :
    ∃ r, c.colored x = .ok r :=
  exists_colored_of_proper h.proper h.registers hx

theorem start_lt (h : c.Faithful) {l : String} {n : Nat} (hl : c.flow.start? l = some n) :
    n < c.flow.points.length := by
  rw [h.flow.length]
  exact h.wellFormed.start_lt ((h.flow.start l).symm.trans hl)

theorem instr_mem (h : c.Faithful) {q : Point × Nat} (hq : q ∈ c.flow.points.zipIdx) :
    q.1.instr ∈ c.function.body :=
  h.flow.instr_mem_body (List.mem_of_getElem? (List.mem_zipIdx_iff_getElem?.mp hq))

theorem mem_temporaries_of_colored (h : c.Faithful) {x : String} {r : Reg}
    (hr : c.colored x = .ok r) : x ∈ c.flow.temporaries := by
  obtain ⟨n, hn, -⟩ := Option.bind_eq_some_iff.mp (colored_ok_iff.mp hr)
  exact (h.proper.isSome_iff x).mp (Option.isSome_of_eq_some hn)

theorem colored_ne (h : c.Faithful) {x y : String} {q r : Reg} (hadj : c.flow.interference.Adj x y)
    (hxy : x ≠ y) (hx : c.colored x = .ok q) (hy : c.colored y = .ok r) : q ≠ r := by
  rintro rfl
  obtain ⟨m, hm, -⟩ := Option.bind_eq_some_iff.mp (colored_ok_iff.mp hx)
  exact h.proper.ne hxy hadj hm (get?_eq_of_colored hy hx ▸ hm)

end Faithful

end Context

end X86

theorem Config.check_ok_iff {config : Config} : config.check = .ok () ↔
    1 ≤ config.registers ∧ config.registers ≤ X86.Reg.palette.length := by
  simp only [check]
  split
  · next h => exact iff_of_true rfl h
  · next h => exact iff_of_false (by simp) h

/-- What a successful compilation consists of. -/
theorem Function.compile_ok {f : Function} {config : Config} {out : CompiledFunction}
    (h : f.compile config = .ok out) :
    ∃ c : X86.Context, c.function = f ∧ c.config = config ∧ Flow.build f = .ok c.flow ∧
      c.liveness = Liveness.analyze c.flow.points ∧
      f.analyze = .ok (c.flow, c.liveness, c.flow.interference) ∧
      config.registers ≤ X86.Reg.palette.length ∧
      Coloring.find c.flow.interference c.flow.temporaries config.registers = .ok c.coloring ∧
      out.report.coloring = c.coloring ∧ ∃ lines, c.emit = .ok lines ∧
        out.lines =
          if config.optimize then X86.Peephole.runAll X86.Line.shape lines else lines := by
  simp only [compile, bind_ok_iff, pure_ok_iff, mapError_ok_iff] at h
  obtain ⟨_, hcheck, _, ha, coloring, hc, lines, hl, rfl⟩ := h
  have hk := (Config.check_ok_iff.mp hcheck).2
  obtain ⟨fl, hb, -, rfl⟩ := analyze_ok_iff.mp ha
  exact ⟨⟨f, fl, _, coloring, config⟩, rfl, rfl, hb, rfl, ha, hk, hc, rfl, lines, hl, rfl⟩

/-- What the successful compilation of a verified function consists of. -/
theorem Function.exists_context {f : Function} {config : Config} {out : CompiledFunction}
    (hf : f.WellFormed) (h : f.compile config = .ok out) :
    ∃ c : X86.Context, c.Faithful ∧ c.function = f ∧ c.config = config ∧
      f.analyze = .ok (c.flow, c.liveness, c.flow.interference) ∧
      out.report.coloring = c.coloring ∧ ∃ lines, c.emit = .ok lines ∧
        out.lines =
          if config.optimize then X86.Peephole.runAll X86.Line.shape lines else lines := by
  obtain ⟨c, rfl, rfl, hb, hlive, ha, hk, hc, hcol, hlines⟩ := compile_ok h
  exact ⟨c, ⟨hf, Flow.represents_of_build hf hb, hlive, Flow.proper_of_find hc, hk⟩, rfl,
    rfl, ha, hcol, hlines⟩

end IrAsm
