import IrAsm.Proofs.X86.Peephole
import IrAsm.Proofs.X86.Prologue
import IrAsm.Proofs.X86.Select

/-!
# Where the code of a point stands

`c.At n lines`: the lines start with the code of point `n`, silent lines apart, and the code of the
later points and the epilogue follow. A jump to the label of a block comes to such lines of the
point where the block starts, a jump to the exit comes to the epilogue. The labels of a function
have different texts.

What follows a conditional jump is a label, so the emitted lines are `Guarded`.
-/

namespace IrAsm.X86

/-! ## Texts of labels -/

namespace Label

theorem toList_text_block (function l : String) : (block function l).text.toList =
    ['.', 'L'] ++ function.toList ++ ['_'] ++ l.toList := by
  simp [text]

theorem toList_text_exit (function : String) : (exit function).text.toList =
    function.toList ++ ['_', 'e'] ++ ['n', 'd'] := by
  simp [text]

theorem text_block_inj {function l l' : String}
    (h : (block function l).text = (block function l').text) : l = l' := by
  rw [← String.toList_inj, toList_text_block, toList_text_block, List.append_cancel_left_eq] at h
  exact String.toList_inj.mp h

theorem text_entry_ne_block (function l : String) :
    (entry function).text ≠ (block function l).text := by
  intro h
  have hlen := congrArg (fun s => s.toList.length) h
  simp [text] at hlen
  omega

theorem text_entry_ne_exit (function : String) : (entry function).text ≠ (exit function).text := by
  intro h
  have hlen := congrArg (fun s => s.toList.length) h
  simp [text] at hlen

/-- The texts are as long as each other if the name of the block has one letter. Then the block has
an underscore where the exit has a letter. -/
theorem text_block_ne_exit (function l : String) :
    (block function l).text ≠ (exit function).text := by
  intro h
  have h := congrArg String.toList h
  rw [toList_text_block, toList_text_exit, List.append_assoc] at h
  have hlen := congrArg List.length h
  simp only [List.length_append, List.length_cons, List.length_nil] at hlen
  have hlast := List.append_inj_right' h (by simp; omega)
  simp at hlast

end Label

namespace Context

variable {c : Context} {s s' : State}

/-! ## Lines of points -/

/-- The lines of one point and of those after it. -/
theorem emitPoints_cons {p : Point} {idx : Nat} {rest : List (Point × Nat)} {lines : List Line} :
    c.emitPoints s ((p, idx) :: rest) = .ok lines ↔
      ∃ s' code tail, c.select s idx p.instr = .ok (s', code) ∧ c.emitPoints s' rest = .ok tail ∧
        lines = c.heading idx p.instr ++ (code.map .code ++ tail) := by
  simp only [emitPoints, bind_ok_iff, pure_ok_iff, List.append_assoc]
  constructor
  · rintro ⟨⟨s', code⟩, hs, tail, ht, rfl⟩; exact ⟨s', code, tail, hs, ht, rfl⟩
  · rintro ⟨s', code, tail, hs, ht, rfl⟩; exact ⟨(s', code), hs, tail, ht, rfl⟩

theorem isSilent_heading (c : Context) (idx : Nat) (i : IrAsm.Instr) :
    ∀ line ∈ c.heading idx i, line.isSilent := by
  intro line h
  rcases List.mem_append.mp h with h | h
  · obtain ⟨l, -, rfl⟩ := List.mem_map.mp h
    rfl
  · split at h
    · rw [List.mem_singleton.mp h]; rfl
    · cases h

theorem eq_label_of_heading {idx : Nat} {i : IrAsm.Instr} {line : Line} {t : String}
    (h : line ∈ c.heading idx i) (ht : line.defines t) :
    ∃ l ∈ c.flow.labelsAt idx, line = .label (c.blockLabel l) := by
  rcases List.mem_append.mp h with h | h
  · obtain ⟨l, hl, rfl⟩ := List.mem_map.mp h
    exact ⟨l, hl, rfl⟩
  · split at h
    · rw [List.mem_singleton.mp h] at ht; cases ht
    · cases h

theorem emitPoints_append {ps qs : List (Point × Nat)} {lines : List Line} (hs : c.Sound s)
    (hps : ∀ p ∈ ps, p.1.instr ∈ c.function.body) (h : c.emitPoints s (ps ++ qs) = .ok lines) :
    ∃ s' before after, c.Sound s' ∧ c.emitPoints s ps = .ok before ∧
      c.emitPoints s' qs = .ok after ∧ lines = before ++ after := by
  induction ps generalizing s lines with
  | nil => exact ⟨s, [], lines, hs, rfl, h, rfl⟩
  | cons p ps ih =>
    obtain ⟨p, idx⟩ := p
    rw [List.forall_mem_cons] at hps
    obtain ⟨s₁, code, tail, hsel, ht, rfl⟩ := emitPoints_cons.mp h
    obtain ⟨s', before, after, hs', hb, ha, rfl⟩ := ih (hs.select hps.1 hsel) hps.2 ht
    refine ⟨s', c.heading idx p.instr ++ (code.map .code ++ before), after, hs', ?_, ha, by simp⟩
    exact emitPoints_cons.mpr ⟨s₁, code, before, hsel, hb, rfl⟩

/-- The lines of a point define no labels but those of the blocks that start there. -/
theorem exists_of_defines {ps : List (Point × Nat)} {lines : List Line}
    (h : c.emitPoints s ps = .ok lines) {line : Line} (hl : line ∈ lines) {t : String}
    (ht : line.defines t) :
    ∃ p ∈ ps, ∃ l ∈ c.flow.labelsAt p.2, (c.blockLabel l).text = t := by
  induction ps generalizing s lines with
  | nil => cases h; cases hl
  | cons p ps ih =>
    obtain ⟨p, idx⟩ := p
    obtain ⟨s', code, tail, -, htail, rfl⟩ := emitPoints_cons.mp h
    simp only [List.mem_append] at hl
    rcases hl with hl | hl | hl
    · obtain ⟨l, hl', rfl⟩ := eq_label_of_heading hl ht
      exact ⟨_, .head _, l, hl', by simpa [Line.defines] using ht⟩
    · obtain ⟨i, -, rfl⟩ := List.mem_map.mp hl
      cases ht
    · obtain ⟨q, hq, hex⟩ := ih htail hl
      exact ⟨q, .tail _ hq, hex⟩

/-! ## Positions -/

def At (c : Context) (n : Nat) (lines : List Line) : Prop :=
  ∃ (p : Point) (s s' : State) (silent : List Line) (code : List Instr) (tail : List Line),
    c.flow.points[n]? = some p ∧ c.Sound s ∧ c.select s n p.instr = .ok (s', code) ∧
    c.emitPoints s' (c.flow.points.zipIdx.drop (n + 1)) = .ok tail ∧
    (∀ line ∈ silent, line.isSilent) ∧ lines = silent ++ (code.map .code ++ (tail ++ c.epilogue))

theorem drop_zipIdx {n : Nat} {p : Point} (hp : c.flow.points[n]? = some p) :
    c.flow.points.zipIdx.drop n = (p, n) :: c.flow.points.zipIdx.drop (n + 1) := by
  obtain ⟨hlt, rfl⟩ := List.getElem?_eq_some_iff.mp hp
  rw [List.drop_eq_getElem_cons (by simpa using hlt), List.getElem_zipIdx, Nat.zero_add]

theorem at_of_emitPoints {n : Nat} {p : Point} {lines : List Line} (hs : c.Sound s)
    (hp : c.flow.points[n]? = some p)
    (h : c.emitPoints s (c.flow.points.zipIdx.drop n) = .ok lines) :
    c.At n (lines ++ c.epilogue) := by
  rw [drop_zipIdx hp] at h
  obtain ⟨s', code, tail, hsel, htail, rfl⟩ := emitPoints_cons.mp h
  exact ⟨p, s, s', c.heading n p.instr, code, tail, hp, hs, hsel, htail,
    c.isSilent_heading n p.instr, by simp⟩

theorem defines_prologue {line : Line} {t : String} (h : line ∈ c.prologue) (ht : line.defines t) :
    (Label.entry c.function.name).text = t := by
  simp only [prologue, List.mem_append, List.mem_cons, List.not_mem_nil, or_false] at h
  rcases h with (rfl | rfl) | h
  · cases ht
  · simpa [Line.defines] using ht
  · obtain ⟨i, -, rfl⟩ := List.mem_map.mp h
    cases ht

theorem lt_of_mem_take {n : Nat} {q : Point × Nat} (h : q ∈ c.flow.points.zipIdx.take n) :
    q.2 < n := by
  obtain ⟨k, hk⟩ := List.mem_iff_getElem?.mp h
  rw [List.getElem?_take, List.getElem?_zipIdx] at hk
  split at hk
  · obtain ⟨p, -, rfl⟩ := Option.map_eq_some_iff.mp hk
    simpa
  · cases hk

/-- The lines before the label of a block define other labels. -/
theorem defines_before (hc : c.Faithful) {l : String} {n : Nat} {before : List Line}
    {ls : List String} (hl : c.flow.start? l = some n)
    (hbefore : c.emitPoints s (c.flow.points.zipIdx.take n) = .ok before) (hfresh : l ∉ ls) :
    ∀ line ∈ c.prologue ++ before ++ ls.map fun l => Line.label (c.blockLabel l),
      line.defines (c.blockLabel l).text = false := by
  intro line hline
  rw [Bool.eq_false_iff]
  intro ht
  simp only [List.mem_append] at hline
  rcases hline with (hline | hline) | hline
  · exact Label.text_entry_ne_block _ _ (defines_prologue hline ht)
  · obtain ⟨q, hq, l', hl', htext⟩ := exists_of_defines hbefore hline ht
    rw [hc.flow.mem_labelsAt, Label.text_block_inj htext, hl, Option.some.injEq] at hl'
    have := lt_of_mem_take hq
    omega
  · obtain ⟨l', hl', rfl⟩ := List.mem_map.mp hline
    have htext : (c.blockLabel l').text = (c.blockLabel l).text := by simpa [Line.defines] using ht
    exact hfresh (Label.text_block_inj htext ▸ hl')

/-- The lines that a jump to a block comes to: the labels there are silent. -/
theorem exists_target (hc : c.Faithful) {l : String} {n : Nat} {before : List Line}
    (hl : c.flow.start? l = some n)
    (hbefore : c.emitPoints s (c.flow.points.zipIdx.take n) = .ok before) (i : IrAsm.Instr)
    (code : List Instr) (tail : List Line) :
    ∃ silent, (∀ line ∈ silent, line.isSilent) ∧ target? (c.prologue ++ (before ++ (c.heading n i ++
      (code.map .code ++ tail)) ++ c.epilogue)) (c.blockLabel l) =
        some (silent ++ (code.map .code ++ (tail ++ c.epilogue))) := by
  obtain ⟨ls, ls', hls, hfresh⟩ := List.eq_append_cons_of_mem (hc.flow.mem_labelsAt.mpr hl)
  have hpre := defines_before hc hl hbefore hfresh
  have hsplit : c.prologue ++ (before ++ (c.heading n i ++ (code.map .code ++ tail)) ++
      c.epilogue) = c.prologue ++ before ++ ls.map (fun l => Line.label (c.blockLabel l)) ++
      Line.label (c.blockLabel l) :: (ls'.map (fun l => Line.label (c.blockLabel l)) ++
        (if c.config.annotate then [.comment i.text] else []) ++
        (code.map .code ++ (tail ++ c.epilogue))) := by
    simp [heading, hls]
  rw [hsplit]
  refine ⟨_ :: _, fun line hline => ?_, target?_append hpre (by simp [Line.defines])⟩
  refine c.isSilent_heading n i line ?_
  rw [heading, hls, List.map_append, List.append_assoc]
  exact List.mem_append_right _ hline

/-- A jump to a block comes to the code of the point where the block starts. -/
theorem exists_target_block (hc : c.Faithful) {body : List Line}
    (h : c.emitPoints c.initial c.flow.points.zipIdx = .ok body) {l : String} {n : Nat}
    (hl : c.flow.start? l = some n) :
    ∃ lines, target? (c.prologue ++ (body ++ c.epilogue)) (c.blockLabel l) = some lines ∧
      c.At n lines := by
  obtain ⟨p, hp⟩ : ∃ p, c.flow.points[n]? = some p := ⟨_, List.getElem?_eq_getElem (hc.start_lt hl)⟩
  rw [← List.take_append_drop n c.flow.points.zipIdx] at h
  obtain ⟨s, before, after, hs, hbefore, hafter, rfl⟩ :=
    emitPoints_append c.sound_initial (fun q hq => hc.instr_mem (List.mem_of_mem_take hq)) h
  rw [drop_zipIdx hp] at hafter
  obtain ⟨s', code, tail, hsel, htail, rfl⟩ := emitPoints_cons.mp hafter
  obtain ⟨silent, hsilent, htarget⟩ := exists_target hc hl hbefore p.instr code tail
  exact ⟨_, htarget, p, s, s', silent, code, tail, hp, hs, hsel, htail, hsilent, rfl⟩

theorem target_exit {body : List Line}
    (h : c.emitPoints c.initial c.flow.points.zipIdx = .ok body) :
    target? (c.prologue ++ (body ++ c.epilogue)) (.exit c.function.name) = some c.epilogue := by
  rw [← List.append_assoc]
  refine target?_append (fun line hline => ?_) (by simp [Line.defines])
  rw [Bool.eq_false_iff]
  intro ht
  rcases List.mem_append.mp hline with hline | hline
  · exact Label.text_entry_ne_exit _ (defines_prologue hline ht)
  · obtain ⟨_, -, l, -, hl⟩ := exists_of_defines h hline ht
    exact Label.text_block_ne_exit _ l hl

/-! ## Conditional jumps -/

theorem guarded_append {pre rest : List Line} (hpre : ∀ line ∈ pre, ∀ t, line ≠ .code (.je t))
    (hrest : Guarded rest) : Guarded (pre ++ rest) := by
  induction pre with
  | nil => exact hrest
  | cons line pre ih =>
    rw [List.forall_mem_cons] at hpre
    exact List.isChain_cons.mpr ⟨fun _ _ t ht => absurd ht (hpre.1 t), ih hpre.2⟩

theorem guarded_of_silent {pre rest : List Line} (hpre : ∀ line ∈ pre, line.isSilent)
    (hrest : Guarded rest) : Guarded (pre ++ rest) :=
  guarded_append
    (fun line hline t ht => by have := hpre line hline; rw [ht] at this; cases this) hrest

theorem guarded_of_straight {code : List Instr} {rest : List Line} (hcode : Straight code)
    (hrest : Guarded rest) : Guarded (code.map .code ++ rest) := by
  refine guarded_append (fun line hline t ht => ?_) hrest
  obtain ⟨i, hi, rfl⟩ := List.mem_map.mp hline
  exact hcode t (Line.code.inj ht ▸ hi)

/-- Where a block starts, the lines start with its label. -/
theorem head?_of_emitPoints (hw : c.function.WellFormed) (hf : Flow.Represents c.function c.flow)
    {n : Nat} {l : String} {lines : List Line} (hl : c.flow.start? l = some n)
    (h : c.emitPoints s (c.flow.points.zipIdx.drop n) = .ok lines) :
    ∃ l', lines.head? = some (.label l') := by
  have hlt : n < c.flow.points.length := by
    rw [hf.length]
    exact hw.start_lt ((hf.start l).symm.trans hl)
  rw [drop_zipIdx (List.getElem?_eq_getElem hlt)] at h
  obtain ⟨s', code, tail, -, -, rfl⟩ := emitPoints_cons.mp h
  have hmem := hf.mem_labelsAt.mpr hl
  cases hls : c.flow.labelsAt n with
  | nil => simp [hls] at hmem
  | cons l' ls => exact ⟨_, by simp [heading, hls]; rfl⟩

theorem guarded_epilogue (c : Context) : Guarded c.epilogue := by
  have hcode : Straight c.exitCode := fun t => by simp [exitCode]
  have hexit : Guarded (c.exitCode.map .code ++ []) := guarded_of_straight hcode .nil
  rw [List.append_nil] at hexit
  have hlabel : ∀ line ∈ [Line.label (.exit c.function.name)], line.isSilent := by
    simp [Line.isSilent]
  exact guarded_of_silent hlabel hexit

theorem guarded_emitPoints {c : Context} {s : State} (hw : c.function.WellFormed)
    (hf : Flow.Represents c.function c.flow) {n : Nat} {lines : List Line}
    (h : c.emitPoints s (c.flow.points.zipIdx.drop n) = .ok lines) :
    Guarded (lines ++ c.epilogue) := by
  by_cases hn : n < c.flow.points.length
  · rw [drop_zipIdx (List.getElem?_eq_getElem hn)] at h
    obtain ⟨s', code, tail, hsel, htail, rfl⟩ := emitPoints_cons.mp h
    have hrest := guarded_emitPoints hw hf htail
    rw [List.append_assoc, List.append_assoc]
    refine guarded_of_silent (c.isSilent_heading _ _) ?_
    rcases straight_or_je hsel with hcode | ⟨pre, t, l, rfl, hpre, hl⟩
    · exact guarded_of_straight hcode hrest
    · obtain ⟨l', hl'⟩ := head?_of_emitPoints hw hf hl htail
      obtain ⟨tail', rfl⟩ := List.head?_eq_some_iff.mp hl'
      rw [List.map_append, List.append_assoc]
      exact guarded_of_straight hpre (List.isChain_cons_cons.mpr ⟨fun _ _ => ⟨l', rfl⟩, hrest⟩)
  · rw [List.drop_eq_nil_of_le (by simpa using hn)] at h
    cases h
    exact c.guarded_epilogue
termination_by c.flow.points.length - n

theorem guarded_of_represents (hw : c.function.WellFormed)
    (hf : Flow.Represents c.function c.flow) {lines : List Line} (h : c.emit = .ok lines) :
    Guarded lines := by
  obtain ⟨body, hb, rfl⟩ := emit_ok h
  refine guarded_append (fun line hline t ht => ?_) (guarded_emitPoints hw hf (n := 0) hb)
  have := c.shape_prologue line hline
  rw [ht] at this
  cases this

theorem guarded_emit (hc : c.Faithful) {lines : List Line} (h : c.emit = .ok lines) :
    Guarded lines :=
  guarded_of_represents hc.wellFormed hc.flow h

end Context

end IrAsm.X86
