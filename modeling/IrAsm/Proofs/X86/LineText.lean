import IrAsm.Proofs.Scan
import IrAsm.Proofs.X86.Annotation
import IrAsm.Proofs.X86.NormalForm
import IrAsm.Proofs.X86.Operands
import IrAsm.Proofs.X86.Symbols

/-!
# Lines and their texts

The passes run on lines, and they could as well run on texts: what they do to the texts of the lines
of a function is what they do to the lines (`text_runAll`). So the assembly file of a module is the
one that `Module.compileText` gives, with the passes on text.

The text of an instruction tells its mnemonic, and so whether it is a jump. Whether it moves a place
to itself can be told from the text because operands that an instruction may have together differ in
their texts if they differ at all (`Loc.eq_of_text`), and because a text that is cut in two equal
halves was cut between the operands (`eq_of_splitAt?`), whatever commas there are in the names. A
label whose name starts with `#` is a comment as a text. The passes do not see the difference, since
no such label stands between two jumps.
-/

namespace IrAsm

/-! ## Cutting text -/

namespace Text

variable {sep cs before after : List Char} {c d : Char}

/-- A separator is found where its first character is. -/
theorem splitAt?_append (h : c ∉ before) (sep after : List Char) :
    splitAt? (c :: sep) (before ++ (c :: sep ++ after)) = some (before, after) := by
  induction before with
  | nil => simp [splitAt?]
  | cons b before ih =>
    rw [List.mem_cons, not_or] at h
    have hprefix : (c :: sep).isPrefixOf (b :: (before ++ (c :: sep ++ after))) = false := by
      rw [List.isPrefixOf_cons_cons, beq_false_of_ne h.1, Bool.false_and]
    rw [List.cons_append, splitAt?, hprefix, ih h.2]
    rfl

theorem eq_append_of_splitAt? (h : splitAt? sep cs = some (before, after)) :
    cs = before ++ (sep ++ after) := by
  induction cs generalizing before with
  | nil =>
    rw [splitAt?] at h
    split at h
    · next hsep => cases h; simpa using hsep
    · cases h
  | cons b cs ih =>
    rw [splitAt?] at h
    split at h
    · next hprefix =>
      obtain ⟨tail, htail⟩ := List.isPrefixOf_iff_prefix.mp hprefix
      cases h
      rw [← htail, List.drop_left, List.nil_append]
    · obtain ⟨⟨front, rest⟩, hcut, he⟩ := Option.map_eq_some_iff.mp h
      cases he
      rw [ih hcut, List.cons_append]

/-- What stands before the first separator has no separator in it. -/
theorem splitAt?_before (h : splitAt? (c :: sep) cs = some (before, after)) :
    splitAt? (c :: sep) before = none := by
  induction cs generalizing before with
  | nil => cases h
  | cons b cs ih =>
    rw [splitAt?] at h
    split at h
    · cases h; rfl
    · next hprefix =>
      obtain ⟨⟨front, rest⟩, hcut, he⟩ := Option.map_eq_some_iff.mp h
      cases he
      have hfront : ¬ (c :: sep).isPrefixOf (b :: front) := by
        intro hp
        refine hprefix (List.isPrefixOf_iff_prefix.mpr ?_)
        rw [eq_append_of_splitAt? hcut, ← List.cons_append]
        exact (List.isPrefixOf_iff_prefix.mp hp).trans (List.prefix_append _ _)
      rw [splitAt?, if_neg hfront, ih hcut]
      rfl

/-- A separator of two different characters is found inside of the text before it, or where it
stands. -/
theorem splitAt?_pair (hcd : c ≠ d) (front rest : List Char) :
    splitAt? [c, d] (front ++ c :: d :: rest) =
      match splitAt? [c, d] front with
      | some (before, after) => some (before, after ++ c :: d :: rest)
      | none => some (front, rest) := by
  induction front with
  | nil => simp [splitAt?]
  | cons b front ih =>
    -- the last character before the separator does not start another one
    have hprefix : [c, d].isPrefixOf (b :: (front ++ c :: d :: rest)) =
        [c, d].isPrefixOf (b :: front) := by
      cases front with
      | nil => simp [List.isPrefixOf, hcd.symm]
      | cons => rfl
    rw [List.cons_append, splitAt?, splitAt?, hprefix, ih]
    split
    · next hfound =>
      cases front with
      | nil => simp [List.isPrefixOf] at hfound
      | cons => rfl
    · cases splitAt? [c, d] front <;> rfl

/-- If the halves are equal, the text was cut where it was put together. -/
theorem eq_of_splitAt? (hcd : c ≠ d) {front rest half : List Char}
    (h : splitAt? [c, d] (front ++ c :: d :: rest) = some (half, half)) : front = rest := by
  rw [splitAt?_pair hcd] at h
  split at h
  · next before after hcut =>
    -- the first half would hold the separator that stands in the second
    obtain ⟨rfl, he⟩ := Prod.mk.inj (Option.some.inj h)
    have hnone := splitAt?_before hcut
    rw [← he, splitAt?_pair hcd] at hnone
    split at hnone <;> cases hnone
  · obtain ⟨rfl, rfl⟩ := Prod.mk.inj (Option.some.inj h)
    rfl

end Text

namespace X86

/-! ## Operands -/

theorem Reg.head?_text (r : Reg) : r.text.toList.head? = some '%' := by
  cases r <;> rfl

theorem Reg.notMem_text (r : Reg) : ',' ∉ r.text.toList ∧ ')' ∉ r.text.toList := by
  cases r <;> decide

theorem Reg.text_inj {r r' : Reg} (h : r.text = r'.text) : r = r' := by
  cases r <;> cases r' <;> first | rfl | exact absurd h (by decide)

namespace Loc

theorem notMem_text {l : Loc} (h : l.isMemory = false) : ')' ∉ l.text.toList := by
  cases l with
  | imm value =>
    have hdigits (n : Nat) : ')' ∉ (toString n).toList := fun hmem =>
      absurd (Decimal.isDigit_of_mem_toString hmem) (by decide)
    rcases value.text_cases with ⟨n, -, hn⟩ | ⟨n, -, hn⟩
    · simpa [text, hn] using hdigits n
    · simpa [text, hn] using hdigits n
  | reg r => exact r.notMem_text.2
  | frame | global | indirect => cases h

/-- Memory is told by the bracket at the end. -/
theorem isMemory_iff_text {l : Loc} : l.isMemory ↔ l.text.toList.getLast? = some ')' := by
  constructor
  · intro h
    cases l with
    | imm | reg => cases h
    | frame | global => simp [text]
    | indirect r =>
      have htext : (indirect r).text.toList = ('(' :: r.text.toList) ++ [')'] := by simp [text]
      rw [htext, List.getLast?_concat]
  · intro hlast
    by_contra h
    exact notMem_text (Bool.eq_false_of_not_eq_true h) (List.mem_of_getLast? hlast)

/-- Operands that are not both memory, and of which the second is no constant, differ in their texts
if they differ at all. -/
theorem eq_of_text {src dst : Loc} (h : src.text = dst.text)
    (hmem : src.isMemory → dst.isMemory = false) (himm : dst.isImm = false) : src = dst := by
  have hsame : src.isMemory = dst.isMemory := by
    rw [Bool.eq_iff_iff, isMemory_iff_text, isMemory_iff_text, h]
  have hsrc : src.isMemory = false := by
    by_contra hs
    rw [Bool.not_eq_false] at hs
    exact Bool.false_ne_true ((hmem hs).symm.trans (hsame ▸ hs))
  cases dst with
  | imm => cases himm
  | frame | global | indirect => cases hsrc.symm.trans hsame
  | reg r' =>
    cases src with
    | frame | global | indirect => cases hsrc
    | reg r => exact congrArg Loc.reg (Reg.text_inj h)
    | imm value =>
      -- a constant starts with `$`
      have hhead := r'.head?_text
      rw [show r'.text = "$" ++ value.text from h.symm] at hhead
      simp at hhead

end Loc

/-! ## Instructions -/

namespace LineText

open Peephole

variable {line mnemonic operands : String}

/-- A word and a space in front make an instruction. -/
theorem instruction?_append {c : Char} (hhead : mnemonic.toList.head? = some c)
    (hblank : Text.isBlank c = false) (hspace : ' ' ∉ mnemonic.toList) (operands : String) :
    instruction? (mnemonic ++ " " ++ operands) = some (mnemonic, operands) := by
  obtain ⟨cs, hcs⟩ := List.head?_eq_some_iff.mp hhead
  have hline : (mnemonic ++ " " ++ operands).toList =
      mnemonic.toList ++ ' ' :: operands.toList := by simp
  have hcut : Text.splitAt? [' '] (mnemonic.toList ++ ' ' :: operands.toList) =
      some (mnemonic.toList, operands.toList) := Text.splitAt?_append hspace [] _
  unfold instruction?
  rw [hline]
  rw [hcs, List.cons_append] at hcut ⊢
  simp [hblank, hcut, ← hcs]

theorem shape_eq_jump (h : instruction? line = some (mnemonic, operands))
    (hhead : mnemonic.toList.head? = some 'j') : shape line = .jump := by
  rw [shape_eq_jump_iff, isJump, h]
  simpa using hhead

/-- Comments, jumps and moves are told by the first character. -/
theorem shape_eq_other {c : Char} (h : instruction? line = some (mnemonic, operands))
    (hhead : mnemonic.toList.head? = some c) (hc : c ∉ ['#', 'j', 'm']) : shape line = .other := by
  simp only [List.mem_cons, List.not_mem_nil, or_false, not_or] at hc
  obtain ⟨c', hc', hcomment⟩ := instruction?_cases h
  obtain rfl : c = c' := Option.some.inj (hhead.symm.trans hc')
  have hjump : isJump line = false := by
    simpa [isJump, h, hhead] using hc.2.1
  have hmove : isSelfMove line = false := by
    by_contra hmove
    obtain ⟨operands', hi⟩ := exists_of_isSelfMove (by simpa using hmove)
    obtain ⟨rfl, -⟩ := Prod.mk.inj (Option.some.inj (h.symm.trans hi))
    exact hc.2.2 (Option.some.inj (hhead.symm.trans rfl))
  simp [shape, hcomment, hjump, hmove, hc.1]

end LineText

namespace Instr

def mnemonic : Instr → String
  | .mov .. => "movq"
  | .push _ => "pushq"
  | .pop _ => "popq"
  | .alu op .. => op.text
  | .cmp .. => "cmpq"
  | .set p => setText p
  | .imul _ => "imulq"
  | .cqto => "cqto"
  | .idiv _ => "idivq"
  | .lea .. => "leaq"
  | .jmp _ => "jmp"
  | .je _ => "je"
  | .call _ => "call"
  | .ret => "retq"

/-- What follows the mnemonic. -/
def operandText : Instr → String
  | .mov src dst | .cmp src dst => src.text ++ ", " ++ dst.text
  | .push l | .pop l | .imul l | .idiv l => l.text
  | .alu _ src dst => src.text ++ ", " ++ dst.text
  | .set _ => "%al"
  | .lea base index dst => "(" ++ base.text ++ "," ++ index.text ++ ",8), " ++ dst.text
  | .jmp t | .je t => t.text
  | .call callee => callee ++ "@PLT"
  | .cqto | .ret => ""

theorem text_eq (i : Instr) :
    i.text = if i = .cqto ∨ i = .ret then i.mnemonic else i.mnemonic ++ " " ++ i.operandText := by
  cases i <;> simp [text, mnemonic, operandText, ← String.toList_inj]

/-- The first letter of the mnemonic. -/
def initial : Instr → Char
  | .mov .. => 'm'
  | .jmp _ | .je _ => 'j'
  | .push _ | .pop _ => 'p'
  | .alu .sub .. | .set _ => 's'
  | .alu .or .. => 'o'
  | .alu .. => 'a'
  | .cmp .. | .cqto | .call _ => 'c'
  | .imul _ | .idiv _ => 'i'
  | .lea .. => 'l'
  | .ret => 'r'

theorem head?_mnemonic (i : Instr) : i.mnemonic.toList.head? = some i.initial := by
  cases i with
  | alu op => cases op <;> simp [mnemonic, initial, Alu.text]
  | set p => cases p <;> simp [mnemonic, initial, setText]
  | _ => simp [mnemonic, initial]

theorem isBlank_initial (i : Instr) : Text.isBlank i.initial = false := by
  unfold initial
  split <;> decide

theorem notMem_mnemonic (i : Instr) : ' ' ∉ i.mnemonic.toList := by
  cases i with
  | alu op => cases op <;> simp [mnemonic, Alu.text]
  | set p => cases p <;> simp [mnemonic, setText]
  | _ => simp [mnemonic]

/-- An instruction is read back from its text. -/
theorem instruction?_text (i : Instr) :
    LineText.instruction? i.text = some (i.mnemonic, i.operandText) := by
  rw [text_eq]
  split
  · next h => rcases h with rfl | rfl <;> decide
  · exact LineText.instruction?_append i.head?_mnemonic i.isBlank_initial i.notMem_mnemonic _

theorem isSelfMove_text_mov {src dst : Loc} : LineText.isSelfMove (mov src dst).text ↔
    ∃ half, Text.splitAt? [',', ' '] (src.text.toList ++ ',' :: ' ' :: dst.text.toList) =
      some (half, half) := by
  rw [LineText.isSelfMove, instruction?_text, Option.any_some]
  simp [mnemonic, operandText, Option.any_eq_true]

theorem shape_text_mov {ok : Loc → Prop} {src dst : Loc} (h : (mov src dst).Formed ok)
    (hreg : src = dst → ∃ r, src = .reg r) :
    LineText.shape (mov src dst).text = (Line.code (mov src dst)).shape := by
  have hself : LineText.isSelfMove (mov src dst).text ↔ src = dst := by
    rw [isSelfMove_text_mov]
    constructor
    · rintro ⟨half, hcut⟩
      have htext : src.text.toList = dst.text.toList := Text.eq_of_splitAt? (by decide) hcut
      exact Loc.eq_of_text (String.toList_inj.mp htext) h.2.2.1 h.2.2.2
    · intro he
      obtain ⟨r, rfl⟩ := hreg he
      subst he
      exact ⟨r.text.toList, Text.splitAt?_append r.notMem_text.1 [' '] _⟩
  have hread := (mov src dst).instruction?_text
  obtain ⟨c, hc, hcomment⟩ := LineText.instruction?_cases hread
  obtain rfl : c = 'm' := Option.some.inj (hc.symm.trans (head?_mnemonic _))
  have hjump : LineText.isJump (mov src dst).text = false := by
    simp [LineText.isJump, hread, hc]
  simp [LineText.shape, Line.shape, hcomment, hjump, hself]

/-- The text of an instruction tells what the passes see of it. -/
theorem shape_text {ok : Loc → Prop} {i : Instr} (h : i.Formed ok)
    (hreg : ∀ src, i = .mov src src → ∃ r, src = .reg r) :
    LineText.shape i.text = (Line.code i).shape := by
  have hread := i.instruction?_text
  have hhead := i.head?_mnemonic
  cases i with
  | mov src dst => exact shape_text_mov h fun he => hreg src (he ▸ rfl)
  | jmp | je => exact LineText.shape_eq_jump hread hhead
  | alu op => cases op <;> exact LineText.shape_eq_other hread hhead (by simp [initial])
  | _ => exact LineText.shape_eq_other hread hhead (by simp [initial])

end Instr

/-! ## Lines -/

/-- A line with a tab in front is no instruction. -/
theorem LineText.shape_of_tab {line : String} (h : line.toList.head? = some '\t') :
    shape line = if isComment line then .comment else .other := by
  obtain ⟨cs, hcs⟩ := List.head?_eq_some_iff.mp h
  have hnone : instruction? line = none := by
    unfold instruction?
    rw [hcs]
    rfl
  simp [shape, isJump, isSelfMove, hnone]

namespace Line

theorem shape_text_globl (f : String) : LineText.shape (globl f).text = .other := by
  rw [LineText.shape_of_tab (by simp [text])]
  simp [LineText.isComment, text, Text.trimLeft, Text.isBlank]

theorem shape_text_block (f l : String) : LineText.shape (label (.block f l)).text = .other := by
  rw [LineText.shape_of_tab (by simp [text])]
  simp [LineText.isComment, text, Label.text, Text.trimLeft, Text.isBlank]

theorem shape_text_comment (s : String) : LineText.shape (comment s).text = .comment :=
  LineText.shape_eq_comment_iff.mpr (isComment_text rfl)

/-- A label is seen as nothing, or as a comment. -/
theorem shape_text_label (l : Label) :
    LineText.shape (label l).text = .other ∨ LineText.shape (label l).text = .comment := by
  rw [LineText.shape_of_tab (by simp [text])]
  split
  · exact .inr rfl
  · exact .inl rfl

example :
    (label (.entry "#f")).shape = .other ∧
    LineText.shape (label (.entry "#f")).text = .comment := by
  decide

end Line

namespace Peephole

section
variable {α : Type} {shape shape' : α → Shape} {lines : List α}

theorem roundAfter_congr (h : ∀ line ∈ lines, shape line = shape' line) (afterJump : Bool) :
    roundAfter shape afterJump lines = roundAfter shape' afterJump lines := by
  induction lines generalizing afterJump with
  | nil => rfl
  | cons line lines ih =>
    rw [List.forall_mem_cons] at h
    rw [roundAfter_cons, roundAfter_cons, jumped, jumped, h.1, ih h.2]

/-- Lines before and after that are neither jumps nor moves stay, and do not change what is deleted
between them. -/
theorem runAll_between {before after : List α}
    (hbefore : ∀ line ∈ before, shape line = .other ∨ shape line = .comment)
    (hafter : ∀ line ∈ after, shape line = .other ∨ shape line = .comment) (lines : List α) :
    runAll shape (before ++ (lines ++ after)) =
      before ++ (roundAfter shape false lines ++ after) := by
  have hround : runAll shape (before ++ (lines ++ after)) =
      roundAfter shape false (before ++ (lines ++ after)) := runAll_eq_round _
  rw [hround, roundAfter_false_append hbefore, roundAfter_append, roundAfter_of_inert hafter]

end

end Peephole

/-! ## Functions -/

namespace Context

open Peephole

variable {c : Context} {s : State} {lines : List Line} {line : Line}

theorem mem_emitPoints {ps : List (Point × Nat)} (h : c.emitPoints s ps = .ok lines)
    (hline : line ∈ lines) :
    (∃ l, line = .label (c.blockLabel l)) ∨ (∃ text, line = .comment text) ∨
    ∃ i, line = .code i := by
  induction ps generalizing s lines with
  | nil => cases h; cases hline
  | cons p ps ih =>
    obtain ⟨p, idx⟩ := p
    obtain ⟨s', code, tail, -, htail, rfl⟩ := emitPoints_cons.mp h
    simp only [List.mem_append] at hline
    rcases hline with hline | hline | hline
    · rcases List.mem_append.mp hline with hlabel | hcomment
      · obtain ⟨l, -, rfl⟩ := List.mem_map.mp hlabel
        exact .inl ⟨l, rfl⟩
      · split at hcomment
        · exact .inr (.inl ⟨_, List.mem_singleton.mp hcomment⟩)
        · cases hcomment
    · obtain ⟨i, -, rfl⟩ := List.mem_map.mp hline
      exact .inr (.inr ⟨i, rfl⟩)
    · exact ih htail hline

theorem shape_text_code (h : c.emit = .ok lines) {i : Instr} (hi : .code i ∈ lines) :
    LineText.shape (Line.code i).text = (Line.code i).shape :=
  Instr.shape_text (forms_emit h hi) fun _ he => moves_emit h (he ▸ hi)

theorem shape_text_of_other (h : c.emit = .ok lines) (hline : line ∈ lines)
    (hs : line.shape = .other) :
    LineText.shape line.text = .other ∨ LineText.shape line.text = .comment := by
  cases line with
  | globl f => exact .inl (Line.shape_text_globl f)
  | label l => exact Line.shape_text_label l
  | comment => cases hs
  | code i => exact .inl ((shape_text_code h hline).trans hs)

/-- What the passes do to the texts of lines is what they do to the lines. -/
theorem text_runAll (h : c.emit = .ok lines) :
    (runAll Line.shape lines).map Line.text = runAll LineText.shape (lines.map Line.text) := by
  obtain ⟨body, hb, rfl⟩ := emit_ok h
  have hbody : ∀ line ∈ body, line.shape = LineText.shape line.text := by
    intro line hline
    rcases mem_emitPoints hb hline with ⟨l, rfl⟩ | ⟨text, rfl⟩ | ⟨i, rfl⟩
    · rw [blockLabel, Line.shape_text_block]
      rfl
    · rw [Line.shape_text_comment]
      rfl
    · exact (shape_text_code h (by simp [hline])).symm
  -- the labels that texts may show as comments are in the prologue and in the epilogue
  have hlines := runAll_between (fun line hline => .inl (c.shape_prologue line hline))
    (fun line hline => .inl (c.shape_epilogue line hline)) body
  have htexts : runAll (fun line => LineText.shape line.text) (c.prologue ++ (body ++ c.epilogue)) =
      c.prologue ++ (roundAfter (fun line => LineText.shape line.text) false body ++ c.epilogue) :=
    runAll_between
      (fun line hline => shape_text_of_other h (by simp [hline]) (c.shape_prologue line hline))
      (fun line hline => shape_text_of_other h (by simp [hline]) (c.shape_epilogue line hline)) body
  rw [← map_runAll, hlines, htexts, roundAfter_congr hbody]

end Context

end X86

namespace Function

open X86 Peephole

/-- Compiles a function to text. The passes run on the texts of the lines. -/
def compileText (f : Function) (config : Config) : Except Error (List String) := do
  config.check
  let (flow, liveness, graph) ← f.analyze
  let coloring ← (Coloring.find graph flow.temporaries config.registers).mapError fun stuck =>
    Error.infeasible f.name config.registers stuck.toList
  let lines ← X86.Context.emit ⟨f, flow, liveness, coloring, config⟩
  let texts := lines.map Line.text
  return if config.optimize then runAll LineText.shape texts else texts

theorem map_compile (f : Function) (config : Config) :
    (f.compile config).map (fun out => out.lines.map Line.text) = f.compileText config := by
  unfold compile compileText
  cases config.check with
  | error e => rfl
  | ok _ =>
    cases f.analyze with
    | error e => rfl
    | ok analysis =>
      obtain ⟨fl, live, graph⟩ := analysis
      simp only [bind, Except.bind]
      split
      · rfl
      · next coloring _ =>
        cases hl : Context.emit ⟨f, fl, live, coloring, config⟩ with
        | error e => rfl
        | ok lines =>
          cases config.optimize with
          | true => exact congrArg Except.ok (Context.text_runAll hl)
          | false => rfl

/-- The passes have nothing left to delete in the text of a function. -/
theorem normal_compileText {f : Function} {config : Config} {texts : List String}
    (ho : config.optimize) (h : f.compileText config = .ok texts) :
    Normal LineText.shape texts := by
  simp only [compileText, bind_ok_iff, pure_ok_iff, ho, if_true] at h
  obtain ⟨-, -, -, -, -, -, lines, -, rfl⟩ := h
  exact normal_runAll _

end Function

/-- Verifies a module and compiles its functions to text. -/
def Module.compileText (m : Module) (config : Config) : Except Error String := do
  config.check
  m.verify
  let functions ← m.functions.mapM (·.compileText config)
  X86.Assembly.text config.fileName m.globals functions

theorem map_mapM {ε α β γ : Type} {g : α → Except ε β} (t : β → γ) (xs : List α) :
    (xs.mapM g).map (List.map t) = xs.mapM fun x => (g x).map t := by
  induction xs with
  | nil => rfl
  | cons x xs ih =>
    rw [List.mapM_cons, List.mapM_cons, ← ih]
    cases g x with
    | error e => rfl
    | ok y => cases xs.mapM g <;> rfl

/-- The assembly file of a module is what it would be if the passes ran on its text. -/
theorem Module.map_compile (m : Module) (config : Config) :
    (m.compile config).map Compilation.assembly = m.compileText config := by
  unfold compile compileText
  cases config.check with
  | error e => rfl
  | ok _ =>
    cases m.verify with
    | error e => rfl
    | ok _ =>
      have hfns := map_mapM (g := fun f : Function => f.compile config)
        (fun out => out.lines.map X86.Line.text) m.functions
      simp only [Function.map_compile] at hfns
      simp only [bind, Except.bind]
      rw [← hfns]
      cases m.functions.mapM (·.compile config) with
      | error e => rfl
      | ok fns =>
        cases h : X86.Assembly.text config.fileName m.globals
          (fns.map fun out => out.lines.map X86.Line.text) with
        | error e => simp [Except.map, h]
        | ok text => simp [Except.map, h, pure, Except.pure]

end IrAsm
