import IrAsm.Proofs.SourceText

/-!
# Instructions are read back from their text

The text of an instruction holds one type. For an operation whose source line has one type too, that
text is a source line: `Instr.lexemes` is what it is cut into, and the instruction is read from
these. Not every instruction is read from anything: `ret` has no value if and only if its type is
`void`, since the word `void` ends it. The instructions that can be read are the legible ones, and
each of them is read back from its text, on a line of its own in any function.
-/

namespace IrAsm

open Lexeme

namespace Operand

/-- Names that can be written without quotes. -/
def Named : Operand → Prop
  | .reg x | .global x | .label x | .callee x => IsName x
  | .imm _ => True

instance : (a : Operand) → Decidable a.Named
  | .reg x | .global x | .label x | .callee x => inferInstanceAs (Decidable (IsName x))
  | .imm _ => inferInstanceAs (Decidable True)

variable {rest : List Char}

theorem scans_text {a : Operand} (ha : a.Named) (h : Ends isNameChar rest) :
    Scans (a.text.toList ++ rest) a.lexemes rest := by
  cases a with
  | reg x => exact String.toList_append ▸ Scans.localName ha h
  | global x => exact String.toList_append ▸ Scans.globalName ha h
  | callee x => exact String.toList_append ▸ Scans.globalName ha h
  | imm v => exact Scans.wordText v (h.mono fun _ => isNameChar_of_isDigit)
  | label x =>
    have hlabel := Scans.text (w := "label") rfl (Ty.ends_blank ('%' :: (x.toList ++ rest)))
    rw [text, String.toList_append, List.append_assoc]
    exact hlabel.trans ((Scans.blank _).trans (Scans.localName ha h))

/-- A value is one lexeme, and no punctuation mark. -/
theorem lexemes_of_isValue {a : Operand} (ha : a.isValue) :
    ∃ l, a.lexemes = [l] ∧ ∀ p, l ≠ .punct p := by
  cases a with
  | reg x | global x | imm v => exact ⟨_, rfl, nofun⟩
  | label x | callee x => cases ha

end Operand

namespace Opcode

/-- The operations whose source line has one type. -/
def isSingleType : Opcode → Bool
  | .alloca | .arith _ | .icmp _ | .ret => true
  | _ => false

/-- The word by which an operation is read. -/
def mnemonic : Opcode → String
  | .icmp _ => "icmp"
  | op => op.text

/-- The lexemes between the mnemonic and the type. -/
def modifiers : Opcode → List Lexeme
  | .icmp p => [.word p.text]
  | _ => []

theorem scans_text {op : Opcode} (hop : op.isSingleType) {rest : List Char}
    (h : Ends isWordChar rest) :
    Scans (op.text.toList ++ rest) (.word op.mnemonic :: op.modifiers) rest := by
  cases op with
  | alloca => exact Scans.text rfl h
  | ret => exact Scans.text rfl h
  | arith op => exact Scans.text (by cases op <;> rfl) h
  | icmp p =>
    have hicmp := Scans.text (w := "icmp") rfl (Ty.ends_blank (p.text.toList ++ rest))
    have hp := Scans.text (w := p.text) (by cases p <;> rfl) h
    rw [text, String.toList_append, List.append_assoc]
    exact hicmp.trans ((Scans.blank _).trans hp)
  | _ => cases hop

end Opcode

namespace Instr

def resultLexemes : Option String → List Lexeme
  | none => []
  | some x => [.localName x, .punct .equal]

/-- The lexemes behind the mnemonic. -/
def bodyLexemes (i : Instr) : List Lexeme :=
  i.opcode.modifiers ++ (i.ty.lexemes ++ Parser.commas (i.operands.map Operand.lexemes))

/-- The lexemes of an instruction. -/
def lexemes (i : Instr) : List Lexeme :=
  resultLexemes i.result ++ .word i.opcode.mnemonic :: i.bodyLexemes

/-- Names that can be written without quotes. -/
structure Named (i : Instr) : Prop where
  result : ∀ x ∈ i.result, IsName x
  operands : ∀ a ∈ i.operands, a.Named

/-! ## From text to lexemes -/

theorem operandsText_eq : ∀ as : List Operand, operandsText as = commaText Operand.text as
  | [] | [_] => rfl
  | a :: b :: as => by rw [operandsText, commaText, operandsText_eq (b :: as)]

theorem scans_resultText {result : Option String} (h : ∀ x ∈ result, IsName x) (rest : List Char) :
    Scans ((resultText result).toList ++ rest) (resultLexemes result) rest := by
  cases result with
  | none => exact Scans.refl rest
  | some x =>
    have hx := Scans.localName (h x rfl) (ends_cons (c := ' ') rfl ('=' :: ' ' :: rest))
    simp only [resultText, String.toList_append, List.append_assoc]
    exact hx.trans ((Scans.blank _).trans ((Scans.punct .equal _).trans (Scans.blank rest)))

/-- The type, and the operands if there are any. -/
theorem scans_tail (t : Ty) {as : List Operand} (has : ∀ a ∈ as, a.Named) (rest : List Char) :
    Scans (t.text.toList ++
      ((if as.isEmpty then "" else " " ++ operandsText as).toList ++ '\n' :: rest))
      (t.lexemes ++ Parser.commas (as.map Operand.lexemes)) ('\n' :: rest) := by
  cases as with
  | nil => exact (Ty.scans_text t (ends_cons rfl rest)).trans (Scans.refl _)
  | cons a as =>
    have hoperands :=
      Scans.commaText (fun a ha => Operand.scans_text (has a ha)) (ends_cons (c := '\n') rfl rest)
    rw [List.isEmpty_cons, if_neg Bool.false_ne_true, operandsText_eq, String.toList_append,
      List.append_assoc]
    exact (Ty.scans_text t (Ty.ends_blank _)).trans ((Scans.blank _).trans hoperands)

theorem scansLine_text {i : Instr} (hop : i.opcode.isSingleType) (hi : i.Named) :
    ScansLine i.text i.lexemes := by
  intro rest
  have hopcode := Opcode.scans_text hop (Ty.ends_blank (i.ty.text.toList ++
    ((if i.operands.isEmpty then "" else " " ++ operandsText i.operands).toList ++ '\n' :: rest)))
  have hall := (scans_resultText hi.result _).trans
    (hopcode.trans ((Scans.blank _).trans (scans_tail i.ty hi.operands rest)))
  simpa [text, lexemes, bodyLexemes] using hall

/-! ## From lexemes to the instruction -/

/-- The word `void` ends a `ret`, so its type says whether it has a value. -/
def FitsRet (operands : List Operand) (ty : Ty) : Prop :=
  if operands = [] then ty = .void else ty.lead ≠ .word "void"

/-- The instructions that can be read. -/
structure Legible (i : Instr) : Prop where
  regular : i.Regular
  ret : i.opcode = .ret → FitsRet i.operands i.ty

theorem reads_result (result : Option String) :
    readResult.Reads (resultLexemes result) result fun l => l.kind = .word := by
  intro n s hs
  cases result with
  | some x => rfl
  | none =>
    rw [resultLexemes, TokenStream.prepend_nil, readResult, Parser.bind_eq rfl, Parser.bind_eq rfl]
    cases hl : s.next.lexeme with
    | word w => rfl
    | _ => rw [hl] at hs; cases hs

theorem isFlag_lead (t : Ty) : isFlag t.lead = false := by
  have hne {w : String} (h : Ty.startsWith (.word w) = false) : (t.lead == .word w) = false :=
    beq_eq_false_iff_ne.mpr (t.lead_ne h)
  simp only [isFlag, hne (w := "nsw") rfl, hne (w := "nuw") rfl, hne (w := "exact") rfl,
    hne (w := "inbounds") rfl, hne (w := "volatile") rfl, Bool.or_self]

section
variable {Q : Lexeme → Prop}

/-- A type in front of a value. -/
theorem reads_type {β : Type} {k : Ty → Parser β} {b : β} (t : Ty) {a : Operand} (ha : a.isValue)
    {ls : List Lexeme} (hk : (k t).Reads (a.lexemes ++ ls) b Q) :
    (Ty.read >>= k).Reads (t.lexemes ++ (a.lexemes ++ ls)) b Q := by
  obtain ⟨l, hl, hpunct⟩ := Operand.lexemes_of_isValue ha
  refine (Ty.reads t).bind hk fun l' hl' => ?_
  rw [hl] at hl'
  obtain rfl : l' = l := hl'
  exact ⟨hpunct _, hpunct _⟩

theorem reads_pair (op : Opcode) (t : Ty) {a b : Operand} (ha : a.isValue) (hb : b.isValue) :
    (readPair op).Reads (t.lexemes ++ Parser.commas [a.lexemes, b.lexemes]) (op, [a, b], t) Q :=
  reads_type t ha ((Operand.reads ha).andThen ((Parser.Reads.expectPunct .comma).andThen
    ((Operand.reads hb).andNothing (.pure _))))

theorem reads_ret_void : readRet.Reads [.word "void"] (.ret, [], .void) Q :=
  .atWord ((Parser.Reads.advance _).andNothing (.pure _))

theorem reads_ret_value {t : Ty} {a : Operand} (ht : t.lead ≠ .word "void") (ha : a.isValue) :
    readRet.Reads (t.lexemes ++ a.lexemes) (.ret, [a], t) Q := by
  have hread : (Ty.read >>= fun t => Operand.read >>= fun a => pure (Opcode.ret, [a], t)).Reads
      (t.lexemes ++ (a.lexemes ++ [])) (.ret, [a], t) Q :=
    reads_type t ha ((Operand.reads ha).andThen (.pure _))
  obtain ⟨ls, hls⟩ := t.lexemes_eq_cons
  rw [List.append_nil, hls, List.cons_append] at hread
  rw [hls, List.cons_append]
  refine .atWord ?_
  rw [beq_eq_false_iff_ne.mpr ht]
  exact hread

/-- What stands behind the mnemonic is read. -/
theorem reads_body {i : Instr} (hop : i.opcode.isSingleType) (hi : i.Legible) :
    (readBody i.opcode.mnemonic).Reads i.bodyLexemes (i.opcode, i.operands, i.ty)
      fun l => l = .newline := by
  obtain ⟨opcode, operands, result, ty⟩ := i
  obtain ⟨hregular, hret⟩ := hi
  cases hregular with
  | alloca =>
    have hty : Ty.read.Reads ty.lexemes ty fun l => l = .newline := (Ty.reads ty).mono (by
      rintro l rfl
      exact ⟨nofun, nofun⟩)
    change Parser.Reads _ (ty.lexemes ++ []) _ _
    rw [List.append_nil]
    exact hty.andNothing (.pure _)
  | arith op ha hb =>
    have hbody : readBody op.text = readPair (.arith op) := by cases op <;> rfl
    exact hbody ▸ reads_pair _ _ ha hb
  | icmp p ha hb =>
    refine (Parser.Reads.expect (.word p.text)).andThen ?_
    rw [show (Lexeme.word p.text).text = p.text from rfl, Predicate.ofText?_text]
    exact reads_pair _ _ ha hb
  | retVoid =>
    obtain rfl : ty = .void := by simpa [FitsRet] using hret rfl
    exact reads_ret_void
  | ret ha => exact reads_ret_value (by simpa [FitsRet] using hret rfl) ha
  | _ => cases hop

/-- The first lexeme behind the mnemonic is no flag and no colon. -/
theorem bodyLexemes_eq_cons (i : Instr) :
    ∃ l ls, i.bodyLexemes = l :: ls ∧ isFlag l = false ∧ l ≠ .punct .colon := by
  obtain ⟨ls, hls⟩ := i.ty.lexemes_eq_cons
  rw [bodyLexemes, hls]
  cases i.opcode with
  | icmp p => exact ⟨_, _, rfl, by cases p <;> rfl, nofun⟩
  | _ => exact ⟨_, _, rfl, isFlag_lead i.ty, i.ty.lead_ne rfl⟩

theorem isCallMarker_mnemonic {op : Opcode} (hop : op.isSingleType) :
    isCallMarker (.word op.mnemonic) = false := by
  cases op with
  | arith op => cases op <;> rfl
  | alloca | ret | icmp p => rfl
  | _ => cases hop

/-- The result, the mnemonic and what stands behind it, up to the end of the line. -/
theorem reads_of_body {mnemonic : String} {ls : List Lexeme} {i : Instr}
    (hmarker : isCallMarker (.word mnemonic) = false)
    (hflags : ∀ l, Parser.Ahead (fun l => l = .newline) ls l → isFlag l = false)
    (hbody : (readBody mnemonic).Reads ls (i.opcode, i.operands, i.ty) fun l => l = .newline) :
    Instr.read.Reads (resultLexemes i.result ++ .word mnemonic :: ls) i fun l => l = .newline := by
  have hline : Parser.skipLine.Reads [] () fun l => l = .newline := Parser.Reads.skipWhile.mono (by
    rintro l rfl
    rfl)
  refine (reads_result i.result).bind (.passing ?_ ((Parser.Reads.expect (.word mnemonic)).andThen
    (.passing hflags (hbody.andNothing (hline.andNothing (.pure _)))))) ?_
  · rintro l rfl
    exact hmarker
  · rintro l rfl
    rfl

theorem reads_lexemes {i : Instr} (hop : i.opcode.isSingleType) (hi : i.Legible) :
    Instr.read.Reads i.lexemes i fun l => l = .newline := by
  refine reads_of_body (isCallMarker_mnemonic hop) ?_ (reads_body hop hi)
  obtain ⟨l, ls, hls, hflag, -⟩ := i.bodyLexemes_eq_cons
  rw [hls]
  rintro l rfl
  exact hflag

end

theorem line_text {i : Instr} (hop : i.opcode.isSingleType) (hnamed : i.Named) (hi : i.Legible) :
    Statement.Line i.text (.instr i) := by
  obtain ⟨l, ls, hls, -, hcolon⟩ := i.bodyLexemes_eq_cons
  have hread := reads_lexemes hop hi
  refine ⟨i.lexemes, scansLine_text hop hnamed, ?_⟩
  rw [lexemes, hls] at hread ⊢
  -- a word in front of a colon would be a label
  cases hresult : i.result with
  | none =>
    rw [hresult] at hread
    exact Statement.onLine_instr (.inl rfl) hcolon hread
  | some x =>
    rw [hresult] at hread
    exact Statement.onLine_instr (.inr rfl) nofun hread

end Instr

/-! ## What can be read -/

namespace Instr

/-- Some source text holds the instruction. -/
def Readable (i : Instr) : Prop :=
  ∃ source m, Module.parse source = .ok m ∧ ∃ f ∈ m.functions, i ∈ f.instrs

def Body.FitsRet (body : Body) : Prop := body.1 = .ret → Instr.FitsRet body.2.1 body.2.2

theorem fitsRet_readRet : readRet.Yields Body.FitsRet := by
  intro s body s' h
  rw [readRet, Parser.bind_eq rfl] at h
  split at h
  · cases h
    exact fun _ => (if_pos rfl).mpr rfl
  -- the type was read where no `void` stands
  · next hvoid =>
    obtain ⟨⟨ty, s₁⟩, hty, h⟩ := bind_ok_iff.mp h
    obtain ⟨⟨a, s₂⟩, -, h⟩ := bind_ok_iff.mp h
    cases h
    intro _
    rw [Instr.FitsRet, if_neg (by simp)]
    exact fun hlead => hvoid (by simp [Ty.next_of_read hty hlead])

theorem fitsRet_readPair {op : Opcode} (hop : op ≠ .ret) : (readPair op).Yields Body.FitsRet :=
  .after fun _ => .after fun _ => .after fun _ => .after fun _ => .pure fun h => absurd h hop

theorem fitsRet_readBody (mnemonic : String) : (readBody mnemonic).Yields Body.FitsRet := by
  unfold readBody
  split
  · exact .after fun _ => .pure nofun
  · exact .after fun _ => .after fun _ => .after fun _ => .after fun _ =>
      .after fun _ => .pure nofun
  · exact .after fun _ => .after fun _ => .after fun _ => .after fun _ => .pure nofun
  · refine .after fun found => ?_
    split
    · exact .after fun _ => .pure nofun
    · exact .after fun _ => .after fun _ => .after fun _ => .after fun _ => .after fun _ =>
        .after fun _ =>
        .pure nofun
  · refine .after fun keyword => ?_
    split
    · exact fitsRet_readPair nofun
    · exact .fail
  · exact .after fun _ => .after fun _ => .after fun _ => .after fun _ =>
      .after fun _ => .pure nofun
  · exact fitsRet_readRet
  · exact .after fun _ => .after fun _ => .after fun _ => .after fun _ =>
      .after fun _ => .pure nofun
  · refine .after fun _ => .after fun _ => .after fun found => ?_
    split
    · exact .after fun _ => .after fun _ => .pure nofun
    · exact .fail
  · split
    · exact fitsRet_readPair nofun
    · intro s body s' h
      cases h
      exact nofun

theorem legible_read : Instr.read.Yields Legible := by
  intro s i s' h
  refine ⟨yields_read s i s' h, ?_⟩
  have hfits : Instr.read.Yields fun i => Body.FitsRet (i.opcode, i.operands, i.ty) :=
    .after fun _ => .after fun _ => .after fun mnemonic => .after fun _ =>
      (fitsRet_readBody mnemonic).bind fun _ hbody => .after fun _ => .pure hbody
  exact hfits s i s' h

theorem legible_of_readable {i : Instr} (h : i.Readable) : i.Legible := by
  obtain ⟨source, m, hm, f, hf, hi⟩ := h
  exact (Module.built_of_parse legible_read hm f hf).of_mem hi

theorem readable_of_legible {i : Instr} (hop : i.opcode.isSingleType) (hnamed : i.Named)
    (hi : i.Legible) : i.Readable := by
  let f : Function := ⟨"f", .void, [], [⟨none, [i]⟩]⟩
  have hf : f.Named := ⟨(by decide +kernel : IsName "f"), nofun⟩
  have hparse := Function.parse_source hf (.cons (line_text hop hnamed hi) .nil) rfl
  exact ⟨_, _, hparse, f, List.mem_singleton_self f, by simp [f, Function.instrs]⟩

/-- An instruction of an operation with one type, whose names need no quotes, is read from some
source if and only if it is legible, and then it is read back from its text, on a line of its own
among any lines of any function. -/
theorem text_line_reads_back {i : Instr} (hop : i.opcode.isSingleType) (hnamed : i.Named) :
    (i.Readable ↔ i.Legible) ∧
    (i.Readable → ∀ (f : Function) (before after : List (String × Statement)), f.Named →
      (∀ line ∈ before ++ after, Statement.Line line.1 line.2) →
      f.blocks = Block.group (before.map Prod.snd ++ .instr i :: after.map Prod.snd) →
      Module.parse (f.source (before.map Prod.fst ++ i.text :: after.map Prod.fst)) =
        .ok ⟨[], [f]⟩ ∧ i ∈ f.instrs) := by
  refine ⟨⟨legible_of_readable, readable_of_legible hop hnamed⟩, ?_⟩
  intro hi f before after hf hlines hblocks
  have hline := line_text hop hnamed (legible_of_readable hi)
  refine ⟨Function.parse_source_line hf hlines hline hblocks, ?_⟩
  rw [Function.instrs, hblocks]
  exact Block.mem_group_of_instr (by simp)

def retVoid : Instr := ⟨.ret, [], none, .void⟩

theorem line_retVoid : Statement.Line "ret void" (.instr retVoid) := by
  have htext : retVoid.text = "ret void" := by decide +kernel
  have hnamed : retVoid.Named := ⟨nofun, nofun⟩
  have hlegible : retVoid.Legible := ⟨.retVoid, fun _ => (if_pos rfl).mpr rfl⟩
  exact htext ▸ line_text rfl hnamed hlegible

/-- A comparison with the least integer, of a type that ends like a call; the names look like a
number and like a keyword. -/
def hardComparison : Instr where
  opcode := .icmp .sle
  operands := [.reg "label", .imm (.intMin 64)]
  result := some "-1.$"
  ty := .ptr (.func (.ptr (.array 2 (.int 64))) [.ptr (.int 8)])

def hardFunction : Function :=
  ⟨"void", .void, [⟨"ptr", .rawPtr⟩], [⟨none, [hardComparison, retVoid]⟩]⟩

def hardText : String :=
  "define void @void(ptr %ptr) \x7b\n" ++
  "%-1.$ = icmp sle [2 x i64]* (i8*)* %label, -9223372036854775808\n" ++
  "ret void\n" ++
  "\x7d\n"

theorem text_line_reads_back_hardComparison :
    hardComparison.Readable ∧ Module.parse hardText = .ok ⟨[], [hardFunction]⟩ := by
  have hnamed : hardComparison.Named := ⟨by decide +kernel, by decide +kernel⟩
  have hf : hardFunction.Named := ⟨by decide +kernel, by decide +kernel⟩
  have htext : hardFunction.source [hardComparison.text, "ret void"] = hardText := by decide +kernel
  obtain ⟨hiff, hback⟩ := text_line_reads_back (i := hardComparison) rfl hnamed
  have hreadable := hiff.mpr ⟨.icmp .sle rfl rfl, nofun⟩
  have hparse := hback hreadable hardFunction [] [("ret void", .instr retVoid)] hf
    (by simpa using line_retVoid) rfl
  exact ⟨hreadable, htext ▸ hparse.1⟩

end Instr

end IrAsm
