import IrAsm.Proofs.X86.Stack

/-!
# Annotations

With annotations every program point has a comment before its code. Selection does not look at them,
and the passes look through them: the passes delete no comment (`comments_roundAfter`), and what
they delete of the other lines is the same with and without comments (`bare_roundAfter`). So the
annotated lines of a function, less the comments, are its lines.
-/

namespace IrAsm

section
variable {ε α β γ δ : Type} {x y : Except ε α} {g : α → γ}

theorem cases_of_map_eq (h : x.map g = y.map g) :
    (∃ e, x = .error e ∧ y = .error e) ∨ ∃ a b, x = .ok a ∧ y = .ok b ∧ g a = g b := by
  cases x with
  | error e =>
    cases y with
    | error e' => cases h; exact .inl ⟨e, rfl, rfl⟩
    | ok b => cases h
  | ok a =>
    cases y with
    | error e => cases h
    | ok b => exact .inr ⟨a, b, rfl, rfl, Except.ok.inj h⟩

/-- What two computations have in common under `g`, computations that go on from them have under
`g'`. -/
theorem map_bind_congr {k k' : α → Except ε β} {g' : β → δ} (h : x.map g = y.map g)
    (hk : ∀ a b, g a = g b → (k a).map g' = (k' b).map g') :
    (x >>= k).map g' = (y >>= k').map g' := by
  obtain ⟨e, rfl, rfl⟩ | ⟨a, b, rfl, rfl, hab⟩ := cases_of_map_eq h
  · rfl
  · exact hk a b hab

end

/-- The comments for the program points, if they are asked for. -/
def Flow.annotations (fl : Flow) (a : Bool) : List X86.Line :=
  if a then fl.points.map fun p => .comment p.instr.text else []

namespace X86

namespace Peephole

section
variable {α : Type} (shape : α → Shape)

/-- The lines that are no comments. -/
def bare (lines : List α) : List α := lines.filter (shape · ≠ .comment)

def comments (lines : List α) : List α := lines.filter (shape · = .comment)

variable {shape}

theorem bare_append (lines lines' : List α) :
    bare shape (lines ++ lines') = bare shape lines ++ bare shape lines' := List.filter_append ..

theorem comments_append (lines lines' : List α) :
    comments shape (lines ++ lines') = comments shape lines ++ comments shape lines' :=
  List.filter_append ..

theorem bare_of_forall {lines : List α} (h : ∀ line ∈ lines, shape line ≠ .comment) :
    bare shape lines = lines := List.filter_eq_self.mpr (by simpa using h)

theorem comments_of_forall {lines : List α} (h : ∀ line ∈ lines, shape line ≠ .comment) :
    comments shape lines = [] := List.filter_eq_nil_iff.mpr (by simpa using h)

/-- Comments do not change what the passes delete. -/
theorem bare_roundAfter (afterJump : Bool) (lines : List α) :
    bare shape (roundAfter shape afterJump lines) =
      roundAfter shape afterJump (bare shape lines) := by
  induction lines generalizing afterJump with
  | nil => rfl
  | cons line rest ih =>
    rw [roundAfter_cons, bare_append, ih]
    cases hs : shape line with
    | comment => simp [bare, jumped, hs]
    | selfMove | other => simp [bare, roundAfter_cons, hs]
    | jump => cases afterJump <;> simp [bare, roundAfter_cons, hs]

/-- The passes delete no comments. -/
theorem comments_roundAfter (afterJump : Bool) (lines : List α) :
    comments shape (roundAfter shape afterJump lines) = comments shape lines := by
  induction lines generalizing afterJump with
  | nil => rfl
  | cons line rest ih =>
    rw [roundAfter_cons, comments_append, ih]
    cases hs : shape line with
    | comment | selfMove | other => simp [comments, hs]
    | jump => cases afterJump <;> simp [comments, hs]

/-- Lines that differ only in comments differ only in comments after the passes. -/
theorem bare_runAll {lines lines' : List α} (h : bare shape lines = bare shape lines') :
    bare shape (runAll shape lines) = bare shape (runAll shape lines') := by
  rw [runAll_eq_round, runAll_eq_round]
  exact (bare_roundAfter false lines).trans (h ▸ (bare_roundAfter false lines').symm)

theorem comments_runAll (lines : List α) :
    comments shape (runAll shape lines) = comments shape lines := by
  rw [runAll_eq_round]
  exact comments_roundAfter false lines

end

end Peephole

open Peephole

/-! ## Text -/

theorem eq_comment_of_shape {line : Line} (h : line.shape = .comment) :
    ∃ text, line = .comment text := by
  cases line with
  | comment text => exact ⟨text, rfl⟩
  | code i =>
    cases i with
    | mov src dst => rw [Line.shape] at h; split at h <;> cases h
    | _ => cases h
  | _ => cases h

theorem isComment_text {line : Line} (h : line.shape = .comment) :
    LineText.isComment line.text := by
  obtain ⟨text, rfl⟩ := eq_comment_of_shape h
  simp [LineText.isComment, Line.text, Text.trimLeft, Text.isBlank]

/-- The texts that are no comments are among those of lines that are none. A label with a name that
starts with `#` is a comment as a text only. -/
theorem filter_text (lines : List Line) :
    (lines.map Line.text).filter (!LineText.isComment ·) =
      ((bare Line.shape lines).map Line.text).filter (!LineText.isComment ·) := by
  induction lines with
  | nil => rfl
  | cons line rest ih =>
    by_cases hs : line.shape = .comment
    · simpa [bare, hs, isComment_text hs] using ih
    · simp only [bare, List.map_cons, List.filter_cons, hs, ne_eq, not_false_eq_true, decide_true,
        if_true] at ih ⊢
      rw [ih]

/-! ## Lines -/

namespace Context

def annotated (c : Context) (a : Bool) : Context :=
  { c with config := { c.config with annotate := a } }

/-- Annotations do not change the code. -/
theorem select_annotated (c : Context) (a : Bool) : (c.annotated a).select = c.select := rfl

theorem shape_code_ne_comment (i : Instr) : (Line.code i).shape ≠ .comment := fun h => by
  obtain ⟨text, htext⟩ := eq_comment_of_shape h
  cases htext

theorem comments_heading (c : Context) (idx : Nat) (i : IrAsm.Instr) :
    comments Line.shape (c.heading idx i) =
      if c.config.annotate then [.comment i.text] else [] := by
  rw [heading, comments_append, comments_of_forall (by simp [Line.shape])]
  split <;> rfl

theorem bare_heading (c : Context) (idx : Nat) (i : IrAsm.Instr) :
    bare Line.shape (c.heading idx i) =
      (c.flow.labelsAt idx).map fun l => .label (c.blockLabel l) := by
  rw [heading, bare_append, bare_of_forall (by simp [Line.shape])]
  split <;> simp [bare, Line.shape]

/-- There is one comment for each point. -/
theorem comments_emitPoints {c : Context} {s : State} {ps : List (Point × Nat)} {lines : List Line}
    (h : c.emitPoints s ps = .ok lines) : comments Line.shape lines =
      if c.config.annotate then ps.map fun p => .comment p.1.instr.text else [] := by
  induction ps generalizing s lines with
  | nil => cases h; simp [comments]
  | cons p ps ih =>
    obtain ⟨p, idx⟩ := p
    obtain ⟨s', code, tail, -, htail, rfl⟩ := emitPoints_cons.mp h
    have hcode : comments Line.shape (code.map .code) = [] :=
      comments_of_forall (List.forall_mem_map.mpr fun i _ => shape_code_ne_comment i)
    rw [comments_append, comments_append, comments_heading, hcode, ih htail]
    split <;> simp

/-- Selection fails alike with and without annotations, or gives lines that differ only in
comments. -/
theorem bare_emitPoints (c : Context) (a b : Bool) (s : State) (ps : List (Point × Nat)) :
    ((c.annotated a).emitPoints s ps).map (bare Line.shape) =
      ((c.annotated b).emitPoints s ps).map (bare Line.shape) := by
  induction ps generalizing s with
  | nil => rfl
  | cons p ps ih =>
    obtain ⟨p, idx⟩ := p
    rw [emitPoints, emitPoints, select_annotated, select_annotated]
    refine map_bind_congr (g := id) rfl fun x y hxy => ?_
    obtain rfl := hxy
    refine map_bind_congr (ih x.1) fun lines lines' h => congrArg Except.ok ?_
    simp only [bare_append, bare_heading, h]
    rfl

theorem bare_emit (c : Context) (a b : Bool) :
    (c.annotated a).emit.map (bare Line.shape) = (c.annotated b).emit.map (bare Line.shape) := by
  refine map_bind_congr (bare_emitPoints c a b c.initial c.flow.points.zipIdx)
    fun lines lines' h => congrArg Except.ok ?_
  simp only [bare_append, h]
  rfl

theorem comments_emit {c : Context} {lines : List Line} (h : c.emit = .ok lines) :
    comments Line.shape lines = c.flow.annotations c.config.annotate := by
  obtain ⟨body, hb, rfl⟩ := emit_ok h
  have hpoints : c.flow.points.zipIdx.map (fun p => Line.comment p.1.instr.text) =
      c.flow.points.map fun p => .comment p.instr.text := by
    conv_rhs => rw [← List.zipIdx_map_fst 0 c.flow.points, List.map_map]
    rfl
  have hprologue : comments Line.shape c.prologue = [] := comments_of_forall fun line hline => by
    rw [c.shape_prologue line hline]
    decide
  have hepilogue : comments Line.shape c.epilogue = [] := comments_of_forall fun line hline => by
    rw [c.shape_epilogue line hline]
    decide
  rw [comments_append, comments_append, hprologue, hepilogue, comments_emitPoints hb, hpoints]
  simp [Flow.annotations]

end Context

end X86

namespace Function

open X86 Peephole

/-- All that compilation gives, less the comments. -/
theorem bare_compile (f : Function) (config : Config) (a b : Bool) :
    (f.compile { config with annotate := a }).map
        (fun out => (out.name, bare Line.shape out.lines, out.report)) =
      (f.compile { config with annotate := b }).map
        fun out => (out.name, bare Line.shape out.lines, out.report) := by
  -- neither the check nor the analyses nor the coloring look at the annotations
  refine map_bind_congr (g := id) rfl fun _ _ _ => map_bind_congr (g := id) rfl fun x y hxy => ?_
  obtain rfl := hxy
  refine map_bind_congr (g := id) rfl fun coloring _ hc => ?_
  obtain rfl := hc
  obtain ⟨fl, live, graph⟩ := x
  refine map_bind_congr (Context.bare_emit ⟨f, fl, live, coloring, config⟩ a b)
    fun lines lines' h => ?_
  cases config.optimize with
  | true => simp [Except.map, pure, Except.pure, bare_runAll h]
  | false => simp [Except.map, pure, Except.pure, h]

theorem comments_compile {f : Function} {config : Config} {out : CompiledFunction}
    (h : f.compile config = .ok out) :
    ∃ fl, Flow.build f = .ok fl ∧
      comments Line.shape out.lines = fl.annotations config.annotate := by
  obtain ⟨c, rfl, rfl, hb, -, -, -, -, -, lines, hl, hlines⟩ := compile_ok h
  refine ⟨c.flow, hb, ?_⟩
  rw [hlines, ← Context.comments_emit hl]
  split
  · exact comments_runAll lines
  · rfl

/-- Whether a function is compiled with annotations or without changes nothing but comments: both
runs fail with the same error, or both give the same lines, comments apart. The comments of an
annotated run are the texts of the program points in order, whatever the passes delete. -/
theorem annotation_invisible (f : Function) (config : Config) (a b : Bool) :
    (∃ e, f.compile { config with annotate := a } = .error e ∧
      f.compile { config with annotate := b } = .error e) ∨
    ∃ out out' fl, f.compile { config with annotate := a } = .ok out ∧
      f.compile { config with annotate := b } = .ok out' ∧ Flow.build f = .ok fl ∧
      out'.name = out.name ∧ out'.report = out.report ∧
      bare Line.shape out'.lines = bare Line.shape out.lines ∧
      (out'.lines.map Line.text).filter (!LineText.isComment ·) =
        (out.lines.map Line.text).filter (!LineText.isComment ·) ∧
      comments Line.shape out.lines = fl.annotations a ∧
      ((fl.annotations a).map Line.text).Sublist (out.lines.map Line.text) := by
  obtain herror | ⟨out, out', ha, hb, h⟩ := cases_of_map_eq (bare_compile f config a b)
  · exact .inl herror
  · obtain ⟨hname, hlines, hreport⟩ : out.name = out'.name ∧
        bare Line.shape out.lines = bare Line.shape out'.lines ∧ out.report = out'.report := by
      simpa using h
    obtain ⟨fl, hfl, hcomments⟩ := comments_compile ha
    have hsub : (comments Line.shape out.lines).Sublist out.lines := List.filter_sublist
    rw [hcomments] at hsub
    refine .inr ⟨out, out', fl, ha, hb, hfl, hname.symm, hreport.symm, hlines.symm, ?_, hcomments,
      hsub.map _⟩
    rw [filter_text, filter_text out.lines, hlines]

end Function

end IrAsm
