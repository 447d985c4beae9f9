import IrAsm.Proofs.Bounds
import IrAsm.Proofs.X86.Stack

/-!
# The labels of a function

`definitions lines` are the labels that lines define, in order, and `references lines` are those
that they jump to. A compiled function defines its entry, its blocks in order and its exit
(`definitions_of_compile`), and all these have different texts. It jumps to nothing else
(`mem_symbols_of_references`). The passes delete no label.

The label of a block is emitted where its first point comes. Blocks follow each other in the table
of labels, each at its start, so going through the points in order one meets the labels in the order
of the blocks.
-/

namespace IrAsm

/-! ## The table of labels -/

namespace Function

/-- The labels of blocks and the points at which they start, if the first of the blocks starts at
`n`. -/
def startsFrom : Nat → List Block → List (String × Nat)
  | _, [] => []
  | n, b :: bs => (b.label.map (·, n)).toList ++ startsFrom (n + b.body.length) bs

variable {n : Nat} {bs : List Block}

theorem keys_startsFrom : (startsFrom n bs).map Prod.fst = bs.filterMap Block.label := by
  induction bs generalizing n with
  | nil => rfl
  | cons b bs ih =>
    rw [startsFrom, List.map_append, ih, List.filterMap_cons]
    cases b.label with
    | none => rfl
    | some l => rfl

theorem le_of_mem_startsFrom {x : String × Nat} (h : x ∈ startsFrom n bs) : n ≤ x.2 := by
  induction bs generalizing n with
  | nil => cases h
  | cons b bs ih =>
    rcases List.mem_append.mp h with h | h
    · obtain ⟨l, -, rfl⟩ := Option.map_eq_some_iff.mp (Option.mem_toList.mp h)
      exact Nat.le_refl n
    · have := ih h
      omega

theorem pairwise_startsFrom : (startsFrom n bs).Pairwise fun x y => x.2 ≤ y.2 := by
  induction bs generalizing n with
  | nil => exact .nil
  | cons b bs ih =>
    refine List.pairwise_append.mpr ⟨?_, ih, fun x hx y hy => ?_⟩
    · cases b.label with
      | none => exact .nil
      | some l => exact List.pairwise_singleton ..
    · obtain ⟨l, -, rfl⟩ := Option.map_eq_some_iff.mp (Option.mem_toList.mp hx)
      have := le_of_mem_startsFrom hy
      omega

/-- Blocks that share no label are where their bodies are. -/
theorem start?_of_blocks {f : Function} {before after : List Block} {b : Block} {l : String}
    (h : f.blocks = before ++ b :: after) (hl : b.label = some l) (hn : f.labels.Nodup) :
    f.start? l = some (before.flatMap Block.body).length := by
  have hfresh : l ∉ before.filterMap Block.label := by
    rw [labels, h, List.filterMap_append, List.filterMap_cons, hl] at hn
    exact fun hm => (List.nodup_append.mp hn).2.2 l hm l List.mem_cons_self rfl
  have hfrom : ∀ (m : Nat) (bs : List Block), l ∉ bs.filterMap Block.label →
      startFrom l m (bs ++ b :: after) = some (m + (bs.flatMap Block.body).length) := by
    intro m bs
    induction bs generalizing m with
    | nil => simp [startFrom, hl]
    | cons b' bs ih =>
      intro hnot
      have hne : b'.label ≠ some l :=
        fun he => hnot (List.mem_filterMap.mpr ⟨b', List.mem_cons_self, he⟩)
      have hrest : l ∉ bs.filterMap Block.label := fun hm => by
        obtain ⟨b'', hb'', he⟩ := List.mem_filterMap.mp hm
        exact hnot (List.mem_filterMap.mpr ⟨b'', List.mem_cons_of_mem _ hb'', he⟩)
      rw [List.cons_append, startFrom, if_neg hne, ih _ hrest, List.flatMap_cons,
        List.length_append, Nat.add_assoc]
  rw [start?, h, hfrom 0 before hfresh, Nat.zero_add]

/-- A labelled block starts at its first point. -/
theorem WellFormed.exists_start {f : Function} (hf : f.WellFormed) {b : Block} (hb : b ∈ f.blocks)
    {l : String} (hl : b.label = some l) :
    ∃ n i, f.start? l = some n ∧ b.body.head? = some i ∧ f.body[n]? = some i := by
  obtain ⟨before, after, hblocks⟩ := List.append_of_mem hb
  have hpos := hf.body_pos hb
  obtain ⟨i, rest, hi⟩ : ∃ i rest, b.body = i :: rest := by
    cases hbody : b.body with
    | nil => rw [hbody] at hpos; cases hpos
    | cons i rest => exact ⟨i, rest, rfl⟩
  refine ⟨_, i, start?_of_blocks hblocks hl hf.labels, by rw [hi]; rfl, ?_⟩
  rw [body, hblocks, List.flatMap_append, List.flatMap_cons, hi]
  simp

end Function

namespace Flow

theorem setStart_of_not_mem {label : String} {n : Nat} {ls : List (String × Nat)}
    (h : label ∉ ls.map Prod.fst) : setStart label n ls = ls ++ [(label, n)] := by
  induction ls with
  | nil => rfl
  | cons x ls ih =>
    obtain ⟨l, m⟩ := x
    rw [List.map_cons, List.mem_cons, not_or] at h
    rw [setStart, if_neg (Ne.symm h.1), ih h.2]
    rfl

theorem labels_foldl_addBlock {bs : List Block} {fl : Flow}
    (h : (fl.labels.map Prod.fst ++ bs.filterMap Block.label).Nodup) :
    (bs.foldl addBlock fl).labels = fl.labels ++ Function.startsFrom fl.points.length bs := by
  induction bs generalizing fl with
  | nil => simp [Function.startsFrom]
  | cons b bs ih =>
    have hlabels : (fl.addBlock b).labels =
        fl.labels ++ (b.label.map (·, fl.points.length)).toList := by
      unfold addBlock
      rw [labels_foldl_addInstr]
      cases hl : b.label with
      | none => simp
      | some l =>
        rw [List.filterMap_cons, hl, List.nodup_append] at h
        exact setStart_of_not_mem fun hm => h.2.2 l hm l List.mem_cons_self rfl
    have hkeys : (fl.addBlock b).labels.map Prod.fst ++ bs.filterMap Block.label =
        fl.labels.map Prod.fst ++ (b :: bs).filterMap Block.label := by
      rw [hlabels, List.map_append, List.filterMap_cons]
      cases b.label <;> simp
    rw [List.foldl_cons, ih (hkeys ▸ h), hlabels, length_addBlock, Function.startsFrom,
      List.append_assoc]

/-- The table has the blocks in order. -/
theorem labels_of_build {f : Function} {fl : Flow} (hn : f.labels.Nodup) (h : build f = .ok fl) :
    fl.labels = Function.startsFrom 0 f.blocks := by
  simp only [build, bind_ok_iff, pure_ok_iff] at h
  obtain ⟨points, -, rfl⟩ := h
  exact @labels_foldl_addBlock f.blocks empty hn

/-- In a table that goes up, the entries of `n` come before all later ones. -/
theorem filter_le_eq {ls : List (String × Nat)} (h : ls.Pairwise fun x y => x.2 ≤ y.2) (n : Nat) :
    ls.filter (n ≤ ·.2) = ls.filter (·.2 == n) ++ ls.filter (n + 1 ≤ ·.2) := by
  induction ls with
  | nil => rfl
  | cons x ls ih =>
    obtain ⟨hx, hrest⟩ := List.pairwise_cons.mp h
    simp only [List.filter_cons, decide_eq_true_eq, beq_iff_eq]
    rcases Nat.lt_trichotomy x.2 n with hlt | heq | hgt
    · rw [if_neg (by omega), if_neg (by omega), if_neg (by omega), ih hrest]
    · rw [if_pos (by omega), if_pos heq, if_neg (by omega), ih hrest]
      rfl
    · -- nothing that follows is at `n` any more
      have hnone : ls.filter (·.2 == n) = [] := by
        refine List.filter_eq_nil_iff.mpr fun y hy => ?_
        have := hx y hy
        rw [beq_iff_eq]
        omega
      rw [if_pos (by omega), if_neg (by omega), if_pos (by omega), ih hrest, hnone]
      rfl

end Flow

namespace X86

/-! ## Lines -/

def Line.label? : Line → Option Label
  | .label l => some l
  | _ => none

def Instr.target? : Instr → Option Label
  | .jmp t | .je t => some t
  | _ => none

def Line.target? : Line → Option Label
  | .code i => i.target?
  | _ => none

def definitions (lines : List Line) : List Label := lines.filterMap Line.label?

def references (lines : List Line) : List Label := lines.filterMap Line.target?

theorem definitions_cons (line : Line) (lines : List Line) :
    definitions (line :: lines) = line.label?.toList ++ definitions lines := by
  rw [definitions, List.filterMap_cons]
  cases line.label? with
  | none => rfl
  | some l => rfl

theorem definitions_append (lines lines' : List Line) :
    definitions (lines ++ lines') = definitions lines ++ definitions lines' :=
  List.filterMap_append ..

theorem references_append (lines lines' : List Line) :
    references (lines ++ lines') = references lines ++ references lines' := List.filterMap_append ..

theorem definitions_code (code : List Instr) : definitions (code.map .code) = [] := by
  rw [definitions, List.filterMap_map]
  exact List.filterMap_eq_nil_iff.mpr fun _ _ => rfl

theorem references_of_silent {lines : List Line} (h : ∀ line ∈ lines, line.isSilent) :
    references lines = [] := by
  refine List.filterMap_eq_nil_iff.mpr fun line hline => ?_
  cases line with
  | code i => cases h _ hline
  | _ => rfl

theorem mem_references {lines : List Line} {t : Label} :
    t ∈ references lines ↔ .code (.jmp t) ∈ lines ∨ .code (.je t) ∈ lines := by
  rw [references, List.mem_filterMap]
  constructor
  · rintro ⟨line, hline, ht⟩
    cases line with
    | code i =>
      cases i with
      | jmp t' => cases ht; exact .inl hline
      | je t' => cases ht; exact .inr hline
      | _ => cases ht
    | _ => cases ht
  · rintro (h | h)
    · exact ⟨_, h, rfl⟩
    · exact ⟨_, h, rfl⟩

/-- The number of lines that define a label with this text. -/
theorem countP_defines (lines : List Line) (t : String) :
    lines.countP (·.defines t) = ((definitions lines).map Label.text).count t := by
  induction lines with
  | nil => rfl
  | cons line lines ih =>
    rw [definitions_cons, List.countP_cons, ih]
    cases line with
    | label l =>
      rw [Line.label?, Option.toList_some, List.singleton_append, List.map_cons, List.count_cons]
      rfl
    | _ => rfl

theorem Instr.Quiet.target?_eq_none {j : Instr} {changed : List Reg} (h : j.Quiet changed) :
    j.target? = none := by
  cases j with
  | jmp | je => exact h.elim
  | _ => rfl

theorem Sequence.target?_eq_none_of_move {src dst : Loc} {j : Instr} (h : j ∈ move src dst) :
    j.target? = none := by
  unfold move at h
  split at h
  · rcases List.mem_pair.mp h with rfl | rfl <;> rfl
  · rw [List.mem_singleton.mp h]
    rfl

theorem references_of_other {lines : List Line} (h : ∀ line ∈ lines, line.shape = .other) :
    references lines = [] := by
  refine List.filterMap_eq_nil_iff.mpr fun line hline => ?_
  have hshape := h line hline
  cases line with
  | code i =>
    cases i with
    | jmp | je => cases hshape
    | _ => rfl
  | _ => rfl

/-! ## What the passes leave -/

namespace Peephole

theorem definitions_roundAfter (afterJump : Bool) (lines : List Line) :
    definitions (roundAfter Line.shape afterJump lines) = definitions lines := by
  induction lines generalizing afterJump with
  | nil => rfl
  | cons line lines ih =>
    rw [roundAfter_cons, definitions_append, ih]
    split
    · next hdel =>
      -- a line that is deleted is no label
      have hnone : line.label? = none := by
        cases line with
        | label l => simp [Line.shape] at hdel
        | _ => rfl
      rw [definitions_cons, hnone]
      rfl
    · exact (definitions_append [line] lines).symm

theorem definitions_runAll (lines : List Line) :
    definitions (runAll Line.shape lines) = definitions lines := by
  rw [runAll_eq_round]
  exact definitions_roundAfter false lines

theorem references_runAll {lines : List Line} {t : Label}
    (h : t ∈ references (runAll Line.shape lines)) : t ∈ references lines := by
  rw [runAll_eq_round] at h
  exact ((sublist_round lines).filterMap _).subset h

section
variable {α : Type} {shape : α → Shape}

/-- The passes delete neither labels nor comments, and behind such lines a jump is the first
again. -/
theorem roundAfter_false_append {pre : List α}
    (h : ∀ line ∈ pre, shape line = .other ∨ shape line = .comment) (rest : List α) :
    roundAfter shape false (pre ++ rest) = pre ++ roundAfter shape false rest := by
  induction pre with
  | nil => rfl
  | cons line pre ih =>
    rw [List.forall_mem_cons] at h
    rw [List.cons_append, roundAfter_cons]
    rcases h.1 with hs | hs
    · simp [hs, jumped, ih h.2]
    · simp [hs, jumped, ih h.2]

theorem roundAfter_of_cons_other {line : α} (h : shape line = .other) (afterJump : Bool)
    (rest : List α) :
    roundAfter shape afterJump (line :: rest) = line :: roundAfter shape false rest := by
  rw [roundAfter_cons]
  simp [h, jumped]

/-- What the passes leave of lines behind a line that they see nothing in. -/
theorem exists_runAll_split {line : α} (hline : shape line = .other) {pre : List α}
    (hpre : ∀ l ∈ pre, shape l = .other ∨ shape l = .comment) (before mid after : List α) :
    ∃ before' after', runAll shape (before ++ line :: (pre ++ (mid ++ after))) =
      before' ++ line :: (pre ++ (runAll shape mid ++ after')) := by
  have hround : runAll shape (before ++ line :: (pre ++ (mid ++ after))) =
      roundAfter shape false (before ++ line :: (pre ++ (mid ++ after))) := runAll_eq_round _
  have hmid : runAll shape mid = roundAfter shape false mid := runAll_eq_round _
  rw [hround, hmid, roundAfter_append, roundAfter_of_cons_other hline, roundAfter_false_append hpre,
    roundAfter_append]
  exact ⟨_, _, rfl⟩

end

end Peephole

/-! ## Points -/

namespace Context

variable {c : Context} {s s' : State} {n : Nat} {i : IrAsm.Instr} {code : List Instr}
  {lines : List Line}

theorem definitions_heading (c : Context) (n : Nat) (i : IrAsm.Instr) :
    definitions (c.heading n i) = (c.flow.labelsAt n).map c.blockLabel := by
  have hcomment : definitions (if c.config.annotate then [.comment i.text] else []) = [] := by
    split <;> rfl
  rw [heading, definitions_append, hcomment, List.append_nil, definitions, List.filterMap_map,
    ← List.filterMap_eq_map]
  rfl

/-- The points from `m` on define the labels of the blocks that start there or later. -/
theorem definitions_emitPoints {c : Context} {s : State} {m : Nat} {lines : List Line}
    (hup : c.flow.labels.Pairwise fun x y => x.2 ≤ y.2)
    (hlt : ∀ x ∈ c.flow.labels, x.2 < c.flow.points.length)
    (h : c.emitPoints s (c.flow.points.zipIdx.drop m) = .ok lines) :
    definitions lines = (c.flow.labels.filter (m ≤ ·.2)).map fun x => c.blockLabel x.1 := by
  by_cases hm : m < c.flow.points.length
  · rw [drop_zipIdx (List.getElem?_eq_getElem hm)] at h
    obtain ⟨s', code, tail, -, htail, rfl⟩ := emitPoints_cons.mp h
    rw [definitions_append, definitions_append, definitions_heading, definitions_code,
      definitions_emitPoints hup hlt htail, Flow.filter_le_eq hup m, Flow.labelsAt]
    simp
  · rw [List.drop_eq_nil_of_le (by simpa using hm)] at h
    cases h
    have hnone : c.flow.labels.filter (m ≤ ·.2) = [] := by
      refine List.filter_eq_nil_iff.mpr fun x hx => ?_
      have := hlt x hx
      simp only [decide_eq_true_eq]
      omega
    rw [hnone]
    rfl
termination_by c.flow.points.length - m

/-- The code of a point jumps to a block that the instruction mentions, or to the exit. -/
theorem target_of_select (h : c.select s n i = .ok (s', code)) {j : Instr}
    (hj : j ∈ code) {t : Label} (ht : j.target? = some t) :
    t = .exit c.function.name ∨ ∃ l ∈ i.targets, t = c.blockLabel l := by
  have hquiet {changed : List Reg} (hq : j.Quiet changed) : False := by
    rw [hq.target?_eq_none] at ht
    cases ht
  by_cases hop : i.opcode ∈ [.br, .call, .ret, .store, .alloca]
  · simp only [List.mem_cons, List.not_mem_nil, or_false] at hop
    rcases hop with hop | hop | hop | hop | hop <;> rw [select, hop] at h
    · obtain ⟨-, ⟨l, k, hl, -, rfl⟩ | ⟨cond, l, e, loc, hl, -, -, hcode⟩⟩ := selectBranch_ok h
      · split at hj
        · cases hj
        · rw [List.mem_singleton.mp hj] at ht
          cases ht
          exact .inr ⟨l, by simp [IrAsm.Instr.targets, hl, Operand.label?], rfl⟩
      · refine .inr ⟨e, by simp [IrAsm.Instr.targets, hl, Operand.label?], ?_⟩
        rcases hcode with rfl | ⟨v, -, rfl⟩
        · obtain ⟨test, htest, hq⟩ := Sequence.exists_quiet_jumpIfZero loc (c.blockLabel e)
          rw [htest] at hj
          rcases List.mem_append.mp hj with hj | hj
          · exact (hquiet (hq j hj)).elim
          · rw [List.mem_singleton.mp hj] at ht
            exact (Option.some.inj ht).symm
        · split at hj
          · rw [List.mem_singleton.mp hj] at ht
            exact (Option.some.inj ht).symm
          · cases hj
    · have hshape := shape_selectCall h _ (List.mem_map_of_mem hj)
      cases j with
      | jmp | je => cases hshape
      | _ => cases ht
    · obtain ⟨-, value, rfl, hvalue⟩ := selectRet_cases h
      rcases List.mem_append.mp hj with hj | hj
      · rcases hvalue with rfl | ⟨_, loc, -, rfl⟩
        · cases hj
        · rw [List.mem_singleton.mp hj] at ht
          cases ht
      · rw [List.mem_singleton.mp hj] at ht
        exact .inl (Option.some.inj ht).symm
    · obtain ⟨_, _, _, -, ⟨_, _, -, -, rfl⟩ | ⟨-, -, src, pre, dst, -, hm, rfl⟩⟩ := selectStore_ok h
      · cases hj
      · rcases List.mem_append.mp hj with hj | hj
        · exact (hquiet (quiet_memory (by decide : .rax ∈ Reg.scratch) hm j hj)).elim
        · rw [Sequence.target?_eq_none_of_move hj] at ht
          cases ht
    · cases h
      cases hj
  · obtain ⟨x, dst, -, -, hq⟩ := computing_of_select hop h
    exact (hquiet (hq j hj)).elim

theorem references_emitPoints {ps : List (Point × Nat)}
    (h : c.emitPoints s ps = .ok lines) {t : Label} (ht : t ∈ references lines) :
    t = .exit c.function.name ∨ ∃ p ∈ ps, ∃ l ∈ p.1.instr.targets, t = c.blockLabel l := by
  induction ps generalizing s lines with
  | nil => cases h; cases ht
  | cons p ps ih =>
    obtain ⟨p, idx⟩ := p
    obtain ⟨s', code, tail, hsel, htail, rfl⟩ := emitPoints_cons.mp h
    rw [references_append, references_append, references_of_silent (c.isSilent_heading _ _),
      List.nil_append] at ht
    rcases List.mem_append.mp ht with ht | ht
    · rw [references, List.filterMap_map] at ht
      obtain ⟨j, hj, ht⟩ := List.mem_filterMap.mp ht
      exact (target_of_select hsel hj ht).imp_right fun ⟨l, hl, he⟩ => ⟨_, .head _, l, hl, he⟩
    · exact (ih htail ht).imp_right fun ⟨q, hq, hex⟩ => ⟨q, .tail _ hq, hex⟩

end Context

end X86

/-! ## Functions -/

namespace Function

/-- The labels of a function: its entry, its blocks and its exit. -/
def symbols (f : Function) : List X86.Label :=
  .entry f.name :: (f.labels.map (.block f.name) ++ [.exit f.name])

theorem block_mem_symbols {f : Function} {l : String} (h : l ∈ f.labels) :
    .block f.name l ∈ f.symbols :=
  List.mem_cons_of_mem _ (List.mem_append_left _ (List.mem_map_of_mem h))

/-- They have different texts. -/
theorem nodup_symbols {f : Function} (h : f.labels.Nodup) :
    (f.symbols.map X86.Label.text).Nodup := by
  have hblocks : ((f.labels.map (X86.Label.block f.name)).map X86.Label.text).Nodup := by
    rw [List.map_map]
    exact h.map fun _ _ he => X86.Label.text_block_inj he
  rw [symbols, List.map_cons, List.map_append, List.nodup_cons, List.nodup_append]
  refine ⟨fun hm => ?_, hblocks, List.nodup_singleton _, fun t ht t' ht' he => ?_⟩
  · rcases List.mem_append.mp hm with hm | hm
    · rw [List.map_map] at hm
      obtain ⟨l, -, hl⟩ := List.mem_map.mp hm
      exact X86.Label.text_entry_ne_block f.name l hl.symm
    · exact X86.Label.text_entry_ne_exit f.name (List.mem_singleton.mp hm)
  · rw [List.map_map] at ht
    obtain ⟨l, -, rfl⟩ := List.mem_map.mp ht
    exact X86.Label.text_block_ne_exit f.name l (he.trans (List.mem_singleton.mp ht'))

end Function

namespace X86.Context

variable {c : Context} {lines : List Line}

theorem definitions_emit (hw : c.function.WellFormed) (hb : Flow.build c.function = .ok c.flow)
    (h : c.emit = .ok lines) : definitions lines = c.function.symbols := by
  obtain ⟨body, hbody, rfl⟩ := emit_ok h
  have hlabels := Flow.labels_of_build hw.labels hb
  have hrep := Flow.represents_of_build hw hb
  have hup : c.flow.labels.Pairwise fun x y => x.2 ≤ y.2 := hlabels ▸ Function.pairwise_startsFrom
  have hall : c.flow.labels.filter (0 ≤ ·.2) = c.flow.labels := by simp
  have hblocks : definitions body = c.function.labels.map (.block c.function.name) := by
    rw [definitions_emitPoints hup (fun x hx => hrep.label_lt hw hx) (m := 0) hbody, hall,
      Function.labels, ← Function.keys_startsFrom (n := 0), ← hlabels, List.map_map]
    rfl
  have hpro : definitions c.prologue = [.entry c.function.name] := by
    rw [prologue, definitions_append, definitions_code, List.append_nil]
    rfl
  have hepi : definitions c.epilogue = [.exit c.function.name] := by
    rw [epilogue, definitions_cons, definitions_code]
    rfl
  rw [definitions_append, definitions_append, hpro, hblocks, hepi]
  rfl

/-- Whatever the lines jump to is a label of the function. -/
theorem references_emit (hw : c.function.WellFormed) (hb : Flow.build c.function = .ok c.flow)
    (h : c.emit = .ok lines) {t : Label} (ht : t ∈ references lines) : t ∈ c.function.symbols := by
  obtain ⟨body, hbody, rfl⟩ := emit_ok h
  rw [references_append, references_append, references_of_other c.shape_prologue,
    references_of_other c.shape_epilogue, List.nil_append, List.append_nil] at ht
  rcases references_emitPoints hbody ht with rfl | ⟨p, hp, l, hl, rfl⟩
  · simp [Function.symbols]
  · have hp' : p.1 ∈ c.flow.points := List.mem_of_getElem? (List.mem_zipIdx_iff_getElem?.mp hp)
    exact Function.block_mem_symbols ((hw.shaped _ (Flow.instr_mem_of_build hb hp')).targets l hl)

end X86.Context

namespace Function

variable {f : Function} {config : Config} {out : CompiledFunction}

theorem definitions_of_compile (hf : f.WellFormed) (h : f.compile config = .ok out) :
    X86.definitions out.lines = f.symbols := by
  obtain ⟨c, rfl, rfl, hb, -, -, -, -, -, lines, hl, hout⟩ := compile_ok h
  rw [hout]
  split
  · rw [X86.Peephole.definitions_runAll]
    exact X86.Context.definitions_emit hf hb hl
  · exact X86.Context.definitions_emit hf hb hl

theorem mem_symbols_of_references (hf : f.WellFormed) (h : f.compile config = .ok out)
    {t : X86.Label} (ht : t ∈ X86.references out.lines) : t ∈ f.symbols := by
  obtain ⟨c, rfl, rfl, hb, -, -, -, -, -, lines, hl, hout⟩ := compile_ok h
  rw [hout] at ht
  split at ht
  · exact X86.Context.references_emit hf hb hl (X86.Peephole.references_runAll ht)
  · exact X86.Context.references_emit hf hb hl ht

/-- Each label of a function is defined by one line. -/
theorem countP_defines_eq_one (hf : f.WellFormed) (h : f.compile config = .ok out) {t : X86.Label}
    (ht : t ∈ f.symbols) : out.lines.countP (·.defines t.text) = 1 := by
  rw [X86.countP_defines, definitions_of_compile hf h]
  exact List.count_eq_one_of_mem (nodup_symbols hf.labels) (List.mem_map_of_mem ht)

end Function

/-! ## Blocks -/

namespace X86.Context

/-- What the passes leave of lines, if they are run. -/
def optimized (c : Context) (lines : List Line) : List Line :=
  if c.config.optimize then Peephole.runAll Line.shape lines else lines

/-- The block labelled `l` opens with the instruction `i` at point `n`: its label is followed by
other labels at most, then by the text of `i` if it is asked for, and then by the code of the
point. -/
structure Opens (c : Context) (lines : List Line) (l : String) (n : Nat) (i : IrAsm.Instr) :
    Prop where
  start : c.flow.start? l = some n
  point : ∃ p, c.flow.points[n]? = some p ∧ p.instr = i
  code : ∃ before between code after, c.CodeAt n code ∧ (∀ line ∈ between, ∃ l', line = .label l') ∧
    lines = before ++ .label (c.blockLabel l) ::
      (between ++ ((if c.config.annotate then [.comment i.text] else []) ++
        (c.optimized (code.map .code) ++ after)))

theorem exists_optimized_split (c : Context) {line : Line} (hline : line.shape = .other)
    {pre : List Line} (hpre : ∀ l ∈ pre, l.shape = .other ∨ l.shape = .comment)
    (before mid after : List Line) :
    ∃ before' after', c.optimized (before ++ line :: (pre ++ (mid ++ after))) =
      before' ++ line :: (pre ++ (c.optimized mid ++ after')) := by
  unfold optimized
  split
  · exact Peephole.exists_runAll_split hline hpre before mid after
  · exact ⟨before, after, rfl⟩

theorem opens_of_emit {c : Context} {lines : List Line} (hw : c.function.WellFormed)
    (hrep : Flow.Represents c.function c.flow) (h : c.emit = .ok lines) {b : Block}
    (hb : b ∈ c.function.blocks) {l : String} (hl : b.label = some l) :
    ∃ n i, b.body.head? = some i ∧ c.Opens (c.optimized lines) l n i := by
  obtain ⟨n, i, hstart, hhead, hi⟩ := hw.exists_start hb hl
  obtain ⟨p, hp, rfl⟩ := hrep.exists_point hi
  have hstart' : c.flow.start? l = some n := (hrep.start l).trans hstart
  obtain ⟨body, hbody, rfl⟩ := emit_ok h
  obtain ⟨s, s', code, before, tail, hs, hsel, -, -, rfl⟩ := exists_code hbody hp
  obtain ⟨ls, ls', hls⟩ := List.append_of_mem (hrep.mem_labelsAt.mpr hstart')
  let between : List Line := ls'.map fun l' => .label (c.blockLabel l')
  let comment : List Line := if c.config.annotate then [.comment p.instr.text] else []
  have hshape : ∀ line ∈ between ++ comment, line.shape = .other ∨ line.shape = .comment := by
    intro line hline
    rcases List.mem_append.mp hline with hline | hline
    · obtain ⟨l', -, rfl⟩ := List.mem_map.mp hline
      exact .inl rfl
    · dsimp only [comment] at hline
      split at hline
      · rw [List.mem_singleton.mp hline]
        exact .inr rfl
      · cases hline
  have hlines : c.prologue ++
      (before ++ (c.heading n p.instr ++ (code.map .code ++ tail)) ++ c.epilogue) =
        (c.prologue ++ (before ++ ls.map fun l' => .label (c.blockLabel l'))) ++
          .label (c.blockLabel l) ::
            ((between ++ comment) ++ (code.map .code ++ (tail ++ c.epilogue))) := by
    rw [heading, hls]
    simp [between, comment]
  have hlabel : (Line.label (c.blockLabel l)).shape = .other := rfl
  obtain ⟨before', after', hsplit⟩ := c.exists_optimized_split hlabel hshape
    (c.prologue ++ (before ++ ls.map fun l' => .label (c.blockLabel l'))) (code.map .code)
    (tail ++ c.epilogue)
  refine ⟨n, p.instr, hhead, hstart', ⟨p, hp, rfl⟩, before', between, code, after',
    ⟨p, s, s', hp, hs, hsel⟩, ?_, ?_⟩
  · rintro line hline
    obtain ⟨l', -, rfl⟩ := List.mem_map.mp hline
    exact ⟨_, rfl⟩
  · rw [hlines, hsplit, List.append_assoc]

end X86.Context

namespace Function

/-- Whatever a verified function jumps to is a label that exactly one of its lines defines. The
label of each block stands where the code of its first point starts. -/
theorem jumps_land {f : Function} {config : Config} {out : CompiledFunction}
    (hv : f.verify = .ok ()) (h : f.compile config = .ok out) :
    (∀ t, .code (.jmp t) ∈ out.lines ∨ .code (.je t) ∈ out.lines →
      out.lines.countP (·.defines t.text) = 1) ∧
    ∃ c : X86.Context, c.function = f ∧ c.config = config ∧
      f.analyze = .ok (c.flow, c.liveness, c.flow.interference) ∧ out.report.coloring = c.coloring ∧
      ∀ b ∈ f.blocks, ∀ l, b.label = some l →
        out.lines.countP (·.defines (c.blockLabel l).text) = 1 ∧
        ∃ n i, b.body.head? = some i ∧ c.Opens out.lines l n i := by
  have hf := wellFormed_of_verify hv
  refine ⟨fun t ht => countP_defines_eq_one hf h
    (mem_symbols_of_references hf h (X86.mem_references.mpr ht)), ?_⟩
  obtain ⟨c, hc, rfl, rfl, ha, hcol, lines, hl, hout⟩ := exists_context hf h
  refine ⟨c, rfl, rfl, ha, hcol, fun b hb l hbl => ⟨countP_defines_eq_one hf h ?_, ?_⟩⟩
  · exact block_mem_symbols (List.mem_filterMap.mpr ⟨b, hb, hbl⟩)
  · rw [hout]
    exact X86.Context.opens_of_emit hf hc.flow hl hb hbl

/-- A loop whose body has no code of its own but the jump back. -/
def waiting : Function where
  name := "f"
  ret := .void
  params := [⟨"a", .int 64⟩]
  blocks := [⟨none, [⟨.br, [.label "head"], none, .void⟩]⟩,
    ⟨some "head", [⟨.icmp .eq, [.reg "a", .imm 0], some "c", .int 64⟩,
      ⟨.br, [.reg "c", .label "done", .label "body"], none, .void⟩]⟩,
    ⟨some "done", [⟨.ret, [], none, .void⟩]⟩,
    ⟨some "body", [⟨.alloca, [], some "x", .int 64⟩, ⟨.br, [.label "head"], none, .void⟩]⟩]

theorem jumps_land_waiting :
    waiting.verify = .ok () ∧ ∃ (out : CompiledFunction) (c : X86.Context),
      waiting.compile { optimize := true, annotate := true } = .ok out ∧ c.function = waiting ∧
      .code (.je (.block "f" "body")) ∈ out.lines ∧ out.lines.countP (·.defines ".Lf_body") = 1 ∧
      .code (.jmp (.block "f" "head")) ∈ out.lines ∧ out.lines.countP (·.defines ".Lf_head") = 1 ∧
      ∃ n, c.Opens out.lines "body" n ⟨.br, [.label "head"], none, .void⟩ := by
  have hv : waiting.verify = .ok () := ok_of_toBool (by decide +kernel)
  have heval : (waiting.compile { optimize := true, annotate := true }).toOption.map
      (fun out => decide (.code (.je (.block "f" "body")) ∈ out.lines ∧
        .code (.jmp (.block "f" "head")) ∈ out.lines)) = some true := by
    decide +kernel
  simp only [Option.map_eq_some_iff, toOption_eq_some_iff, decide_eq_true_eq] at heval
  obtain ⟨out, hout, hje, hjmp⟩ := heval
  obtain ⟨hland, c, hf, -, -, -, hblocks⟩ := jumps_land hv hout
  have hbody : waiting.blocks[3]? = some _ := rfl
  obtain ⟨-, n, i, hi, hopens⟩ := hblocks _ (List.mem_of_getElem? hbody) "body" rfl
  obtain rfl := Option.some.inj hi
  exact ⟨hv, out, c, hout, hf, hje, hland _ (.inr hje), hjmp, hland _ (.inl hjmp), n, hopens⟩

end Function

end IrAsm
