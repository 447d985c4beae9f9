import IrAsm.Proofs.Reading

/-!
# Functions written line by line

A source text that holds one function: its first line, a line for each statement, and a brace. A
statement is on a line of its own (`Statement.Line`) if the line is cut into lexemes from which the
statement is read, up to the end of the line. A function with such lines is read from its text
(`Function.parse_source`), whatever else the lines hold.
-/

namespace IrAsm

/-- The lines, with a line end behind each of them. -/
def unlines : List String → String
  | [] => ""
  | text :: rest => text ++ "\n" ++ unlines rest

theorem unlines_append (lines lines' : List String) :
    unlines (lines ++ lines') = unlines lines ++ unlines lines' := by
  induction lines with
  | nil => simp [unlines]
  | cons text lines ih => simp [unlines, ih, String.append_assoc]

/-- Texts with commas between them. -/
def commaText {α : Type} (text : α → String) : List α → String
  | [] => ""
  | [a] => text a
  | a :: b :: rest => text a ++ ", " ++ commaText text (b :: rest)

theorem Lexeme.Scans.commaText {α : Type} {text : α → String} {lexemes : α → List Lexeme}
    {rest : List Char} :
    ∀ {as : List α},
      (∀ a ∈ as, ∀ {rest}, Ends isNameChar rest →
        Scans ((text a).toList ++ rest) (lexemes a) rest) →
      Ends isNameChar rest →
      Scans ((commaText text as).toList ++ rest) (Parser.commas (as.map lexemes)) rest
  | [], _, _ => Scans.refl rest
  | [a], has, h => has a List.mem_cons_self h
  | a :: b :: as, has, h => by
    rw [List.forall_mem_cons] at has
    have htail := commaText has.2 h
    have ha :=
      has.1 (ends_cons (c := ',') rfl (' ' :: ((IrAsm.commaText text (b :: as)).toList ++ rest)))
    simp only [IrAsm.commaText, String.toList_append, List.append_assoc]
    exact ha.trans ((Scans.punct .comma _).trans ((Scans.blank _).trans htail))

/-- The text is one line and is cut into the lexemes `ls`. -/
def Lexeme.ScansLine (text : String) (ls : List Lexeme) : Prop :=
  ∀ rest, Scans (text.toList ++ '\n' :: rest) ls ('\n' :: rest)

namespace TokenStream

/-- The stream with lines of lexemes in front, from line `n` on. -/
def prependLines : Nat → List (List Lexeme) → TokenStream → TokenStream
  | _, [], s => s
  | n, ls :: rest, s => (prependLines (n + 1) rest s).prepend n (ls ++ [.newline])

theorem size_le_prependLines (n : Nat) (lss : List (List Lexeme)) (s : TokenStream) :
    s.size ≤ (s.prependLines n lss).size := by
  induction lss generalizing n with
  | nil => exact Nat.le_refl _
  | cons ls lss ih =>
    rw [prependLines, size_prepend]
    exact Nat.le_add_left_of_le (ih (n + 1))

theorem scanFrom_newline (n : Nat) (cs : List Char) :
    scanFrom n ('\n' :: cs) = (scanFrom (n + 1) cs).map (prepend n [.newline]) := by
  rw [scanFrom]
  rfl

theorem scanFrom_unlines {lines : List String} {lss : List (List Lexeme)}
    (h : List.Forall₂ Lexeme.ScansLine lines lss) (n : Nat) (cs : List Char) :
    scanFrom n ((unlines lines).toList ++ cs) =
      (scanFrom (n + lines.length) cs).map (prependLines n lss) := by
  induction h generalizing n with
  | nil =>
    change scanFrom n cs = (scanFrom n cs).map id
    cases scanFrom n cs with
    | error e => rfl
    | ok s => rfl
  | @cons text ls lines lss htext _ ih =>
    have hlines : (unlines (text :: lines)).toList ++ cs =
        text.toList ++ '\n' :: ((unlines lines).toList ++ cs) := by simp [unlines]
    rw [hlines, htext _ n, scanFrom_newline, ih, List.length_cons, Nat.add_comm lines.length,
      Nat.add_assoc]
    cases scanFrom (n + (1 + lines.length)) cs with
    | error e => rfl
    | ok s => simp only [Except.map, prependLines, prepend_append]

end TokenStream

/-! ## Statements -/

/-- The statement is read from the lexemes of one line. -/
def Statement.OnLine (function : String) (ls : List Lexeme) (st : Statement) : Prop :=
  (Statement.read function).Reads ls (some st, true) fun l => l = .newline

/-- The text, as a line of a function body, holds the statement and nothing else. -/
def Statement.Line (text : String) (st : Statement) : Prop :=
  ∃ ls, Lexeme.ScansLine text ls ∧ ∀ function, OnLine function ls st

theorem Statement.exists_lexemes {lines : List String} {body : List Statement}
    (h : List.Forall₂ Line lines body) :
    ∃ lss, List.Forall₂ Lexeme.ScansLine lines lss ∧
      ∀ function, List.Forall₂ (OnLine function) lss body := by
  induction h with
  | nil => exact ⟨[], .nil, fun _ => .nil⟩
  | cons hline _ ih =>
    obtain ⟨ls, hscan, hread⟩ := hline
    obtain ⟨lss, hscans, hreads⟩ := ih
    exact ⟨ls :: lss, .cons hscan hscans, fun function => .cons (hread function) (hreads function)⟩

theorem Statement.forall₂_line {lines : List (String × Statement)}
    (h : ∀ line ∈ lines, Line line.1 line.2) :
    List.Forall₂ Line (lines.map Prod.fst) (lines.map Prod.snd) := by
  rw [List.forall₂_map_left_iff, List.forall₂_map_right_iff, List.forall₂_same]
  exact h

theorem Statement.read_newline (function : String) (n : Nat) (s : TokenStream) :
    Statement.read function (s.prepend n [.newline]) = Statement.read function s := by
  rfl

/-- On which line a line end stands does not matter. -/
theorem Statement.collect_newline (function : String) (m n : Nat) (s : TokenStream) :
    Parser.collect (Statement.read function) (s.prepend m [.newline]) =
      Parser.collect (Statement.read function) (s.prepend n [.newline]) := by
  rw [Parser.collect, Parser.collect, read_newline, read_newline, TokenStream.size_prepend,
    TokenStream.size_prepend]

/-- The statements on lines of their own are collected, and then what is behind them. -/
theorem Statement.collect_lines {function : String} {lss : List (List Lexeme)}
    {body : List Statement} (h : List.Forall₂ (OnLine function) lss body) (m n : Nat)
    (s : TokenStream) :
    Parser.collect (Statement.read function) ((s.prependLines n lss).prepend m [.newline]) =
      (Parser.collect (Statement.read function) (s.prepend n [.newline])).map
        fun r => (body ++ r.1, r.2) := by
  induction h generalizing m n with
  | nil =>
    change Parser.collect _ (s.prepend m [.newline]) = _
    rw [collect_newline function m n]
    cases Parser.collect (Statement.read function) (s.prepend n [.newline]) with
    | error e => rfl
    | ok r => rfl
  | @cons ls st lss body hst _ ih =>
    -- the line end in front belongs to this statement, the one behind it to the next
    have hread := hst n ((s.prependLines (n + 1) lss).prepend n [.newline]) rfl
    rw [← TokenStream.prepend_append, ← read_newline function m] at hread
    rw [TokenStream.prependLines, Parser.collect_more hread (by simp), ih,
      collect_newline function (n + 1) n]
    cases Parser.collect (Statement.read function) (s.prepend n [.newline]) with
    | error e => rfl
    | ok r => rfl

/-- An instruction starts with a word or a register, and no colon is behind that. -/
theorem Statement.onLine_instr {l l' : Lexeme} {ls : List Lexeme} {i : Instr}
    (hl : l.kind = .word ∨ l.kind = .localName) (hl' : l' ≠ .punct .colon)
    (h : Instr.read.Reads (l :: l' :: ls) i fun l => l = .newline) (function : String) :
    OnLine function (l :: l' :: ls) (.instr i) := by
  intro n s hs
  have hskip : Parser.skipNewlines (s.prepend n (l :: l' :: ls)) =
      .ok ((), s.prepend n (l :: l' :: ls)) := by
    cases l with
    | word w | localName x => rfl
    | _ => rcases hl with h | h <;> cases h
  have hinstr := Parser.bind_eq (k := fun i => pure (some (Statement.instr i), true)) (h n s hs)
  rw [Statement.read, Parser.bind_eq hskip, Parser.bind_eq rfl, Parser.bind_eq rfl]
  have hcolon : ((s.prepend n (l :: l' :: ls)).ahead 1).lexeme = l' := rfl
  have hfirst : (s.prepend n (l :: l' :: ls)).next.lexeme = l := rfl
  rw [hcolon, hfirst, beq_eq_false_iff_ne.mpr hl']
  cases l with
  | word w | localName x => exact hinstr
  | _ => rcases hl with h | h <;> cases h

/-! ## Functions -/

namespace Param

def text (p : Param) : String := p.ty.text ++ " %" ++ p.name

def lexemes (p : Param) : List Lexeme := p.ty.lexemes ++ [.localName p.name]

theorem reads (p : Param) {Q : Lexeme → Prop} : Param.read.Reads p.lexemes p Q := by
  have hname : (Parser.expect .localName >>= fun name => pure { name, ty := p.ty }).Reads
      [.localName p.name] p Q := (Parser.Reads.expect (.localName p.name)).andThen (.pure p)
  have hskip : (Parser.skipWhile fun l => l.kind == .word).Reads [] () _ := Parser.Reads.skipWhile
  refine (Ty.reads p.ty).bind (hskip.bind hname ?_) ?_
  · rintro l rfl
    rfl
  · rintro l rfl
    exact ⟨nofun, nofun⟩

theorem scans_text {p : Param} (hp : Lexeme.IsName p.name) {rest : List Char}
    (h : Lexeme.Ends Lexeme.isNameChar rest) :
    Lexeme.Scans (p.text.toList ++ rest) p.lexemes rest := by
  have hty := Ty.scans_text p.ty (Ty.ends_blank ('%' :: (p.name.toList ++ rest)))
  simp only [text, String.toList_append, List.append_assoc]
  exact hty.trans ((Lexeme.Scans.blank _).trans (Lexeme.Scans.localName hp h))

end Param

namespace Function

/-- The first line of a function. -/
def headText (f : Function) : String :=
  "define " ++ f.ret.text ++ " @" ++ f.name ++ "(" ++ commaText Param.text f.params ++ ") \x7b"

/-- The function with the given lines as its body. -/
def source (f : Function) (lines : List String) : String :=
  unlines (f.headText :: (lines ++ ["\x7d"]))

def headLexemes (f : Function) : List Lexeme :=
  .word "define" :: (f.ret.lexemes ++ .globalName f.name :: .punct .leftParen ::
    (Parser.commas (f.params.map Param.lexemes) ++ [.punct .rightParen, .punct .leftBrace]))

/-- Names that can be written without quotes. -/
structure Named (f : Function) : Prop where
  name : Lexeme.IsName f.name
  params : ∀ p ∈ f.params, Lexeme.IsName p.name

theorem scansLine_headText {f : Function} (hf : f.Named) :
    Lexeme.ScansLine f.headText f.headLexemes := by
  intro rest
  let close := ' ' :: '\x7b' :: '\n' :: rest
  let params := (commaText Param.text f.params).toList ++ ')' :: close
  let name := f.name.toList ++ '(' :: params
  let ret := f.ret.text.toList ++ ' ' :: '@' :: name
  have hdefine : Lexeme.Scans ("define".toList ++ ' ' :: ret) [.word "define"] (' ' :: ret) :=
    Lexeme.Scans.text rfl (Ty.ends_blank ret)
  have hret : Lexeme.Scans ret f.ret.lexemes (' ' :: '@' :: name) :=
    Ty.scans_text f.ret (Ty.ends_blank ('@' :: name))
  have hname : Lexeme.Scans ('@' :: name) [.globalName f.name] ('(' :: params) :=
    Lexeme.Scans.globalName hf.name (Lexeme.ends_cons rfl params)
  have hparams : Lexeme.Scans params (Parser.commas (f.params.map Param.lexemes)) (')' :: close) :=
    Lexeme.Scans.commaText (fun p hp => Param.scans_text (hf.params p hp))
      (Lexeme.ends_cons rfl close)
  have hclose : Lexeme.Scans close [.punct .leftBrace] ('\n' :: rest) :=
    (Lexeme.Scans.blank _).trans (Lexeme.Scans.punct .leftBrace ('\n' :: rest))
  have hall := hdefine.trans ((Lexeme.Scans.blank _).trans (hret.trans ((Lexeme.Scans.blank _).trans
    (hname.trans ((Lexeme.Scans.punct .leftParen _).trans (hparams.trans
      ((Lexeme.Scans.punct .rightParen _).trans hclose)))))))
  simpa [headText, headLexemes, ret, name, params, close] using hall

theorem read_head (f : Function) (n : Nat) (s : TokenStream) :
    Function.read (s.prepend n f.headLexemes) =
      (Parser.collect (Statement.read f.name) s).map fun r =>
        ({ f with blocks := Block.group r.1 }, r.2) := by
  have hparams : (Parser.listUpTo .rightParen Param.read).Reads
      (Parser.commas (f.params.map Param.lexemes) ++ [.punct .rightParen]) f.params
        fun _ => True := by
    refine .listUpTo (by decide) (fun p _ => p.reads) fun p _ => ?_
    obtain ⟨ls, hls⟩ := p.ty.lexemes_eq_cons
    exact ⟨_, _, by rw [Param.lexemes, hls, List.cons_append], p.ty.lead_ne rfl⟩
  -- the streams that the parts of the line are read from, the last part first
  let body := s.prepend n [.punct .leftBrace]
  let params := body.prepend n (Parser.commas (f.params.map Param.lexemes) ++ [.punct .rightParen])
  let name := params.prepend n [.globalName f.name, .punct .leftParen]
  let ret := name.prepend n f.ret.lexemes
  have hhead : s.prepend n f.headLexemes = ret.prepend n [.word "define"] := by
    simp [headLexemes, ret, name, params, body, TokenStream.prepend]
  have hdefine : Parser.advance (ret.prepend n [.word "define"]) = .ok ((), ret) := rfl
  have hqualifier : Parser.skipWhile Instr.isQualifier ret = .ok ((), ret) := by
    refine Parser.Reads.skipWhile n ret ?_
    obtain ⟨ls, hls⟩ := f.ret.lexemes_eq_cons
    simp only [ret, hls]
    exact Instr.isQualifier_lead f.ret
  have hname : Parser.expect .globalName name =
      .ok (f.name, params.prepend n [.punct .leftParen]) := rfl
  have hparen : Parser.expectPunct .leftParen (params.prepend n [.punct .leftParen]) =
      .ok ((), params) := rfl
  have hbrace : Parser.skipWhile (· != .punct .leftBrace) body = .ok ((), body) := rfl
  have hstop : name.next.lexeme ≠ .punct .star ∧ name.next.lexeme ≠ .punct .leftParen := by
    constructor <;> (intro h; cases h)
  rw [hhead, Function.read, Parser.bind_eq hdefine, Parser.bind_eq hqualifier,
    Parser.bind_eq (Ty.reads f.ret n name hstop), Parser.bind_eq hname, Parser.bind_eq hparen,
    Parser.bind_eq (hparams n body trivial), Parser.bind_eq hbrace, Parser.bind_eq rfl]
  have hbody : body.next.lexeme ≠ .eof := by intro h; cases h
  have hpass : Parser.advance body = .ok ((), s) := rfl
  rw [if_neg hbody]
  exact (Parser.bind_eq hpass).trans (Parser.bind_pure_eq _ _ s)

/-- The first line and statements on lines of their own are read, and then what is behind them. -/
theorem read_lines (f : Function) {lss : List (List Lexeme)} {body : List Statement}
    (h : List.Forall₂ (Statement.OnLine f.name) lss body) (n : Nat) (s : TokenStream) :
    Function.read (s.prependLines n (f.headLexemes :: lss)) =
      (Parser.collect (Statement.read f.name) (s.prepend n [.newline])).map
        fun r => ({ f with blocks := Block.group (body ++ r.1) }, r.2) := by
  rw [TokenStream.prependLines, TokenStream.prepend_append, read_head, Statement.collect_lines h,
    Statement.collect_newline f.name (n + 1) n]
  cases Parser.collect (Statement.read f.name) (s.prepend n [.newline]) with
  | error e => rfl
  | ok r => rfl

end Function

namespace Module

theorem Item.read_head (f : Function) (lss : List (List Lexeme)) (n : Nat) (s : TokenStream) :
    Item.read (s.prependLines n (f.headLexemes :: lss)) =
      (Function.read (s.prependLines n (f.headLexemes :: lss))).map
        fun r => ((some (.function r.1), true), r.2) := by
  have hskip : Parser.skipNewlines (s.prependLines n (f.headLexemes :: lss)) =
      .ok ((), s.prependLines n (f.headLexemes :: lss)) := rfl
  rw [Item.read, Parser.bind_eq hskip, Parser.bind_eq rfl]
  exact Parser.bind_pure_eq Function.read _ _

/-- A text with a function on its first lines is cut into the lexemes of these lines and those of
the rest. -/
theorem parse_lines {f : Function} (hf : f.Named) {lines : List String} {body : List Statement}
    (h : List.Forall₂ Statement.Line lines body) (rest : String) :
    ∃ lss, List.Forall₂ (Statement.OnLine f.name) lss body ∧
      parse (unlines (f.headText :: lines) ++ rest) = do
        let s ← TokenStream.scanFrom (lines.length + 2) rest.toList
        let (m, _) ← read (s.prependLines 1 (f.headLexemes :: lss))
        return m := by
  obtain ⟨lss, hscans, hreads⟩ := Statement.exists_lexemes h
  have hscan :=
    TokenStream.scanFrom_unlines (.cons (Function.scansLine_headText hf) hscans) 1 rest.toList
  refine ⟨lss, hreads f.name, ?_⟩
  rw [parse, TokenStream.scan, String.toList_append, hscan, List.length_cons, Nat.add_comm 1]
  cases TokenStream.scanFrom (lines.length + 1 + 1) rest.toList with
  | error e => rfl
  | ok s => rfl

end Module

namespace Function

/-- A function is read from its text. -/
theorem parse_source {f : Function} (hf : f.Named) {lines : List String} {body : List Statement}
    (hbody : List.Forall₂ Statement.Line lines body) (hblocks : f.blocks = Block.group body) :
    Module.parse (f.source lines) = .ok ⟨[], [f]⟩ := by
  obtain ⟨lss, hreads, hparse⟩ := Module.parse_lines hf hbody (unlines ["\x7d"])
  rw [← unlines_append, List.cons_append, ← source] at hparse
  let n := lines.length + 2
  let last : TokenStream := .prepend n [.newline] ⟨[], n + 1⟩
  let s : TokenStream := last.prepend n [.punct .rightBrace]
  have hscan : TokenStream.scanFrom n (unlines ["\x7d"]).toList = .ok s := by
    refine (Lexeme.Scans.punct .rightBrace ['\n'] n).trans ?_
    rw [TokenStream.scanFrom_newline, TokenStream.scanFrom]
    rfl
  have hclose : Parser.collect (Statement.read f.name) (s.prepend 1 [.newline]) = .ok ([], last) :=
    Parser.collect_done (show Statement.read f.name _ = .ok ((none, false), _) from rfl)
  have hitem : Module.Item.read (s.prependLines 1 (f.headLexemes :: lss)) =
      .ok ((some (.function f), true), last) := by
    have hread := read_lines f hreads 1 s
    simp only [hclose, Except.map, List.append_nil, ← hblocks] at hread
    rw [Module.Item.read_head, hread]
    rfl
  have hend : Parser.collect Module.Item.read last = .ok ([], ⟨[], n + 1⟩) :=
    Parser.collect_done (show Module.Item.read _ = .ok ((none, false), _) from rfl)
  have hsize : last.size < (s.prependLines 1 (f.headLexemes :: lss)).size := by
    have hs : s.size = 1 + last.size := TokenStream.size_prepend
    have hlines := TokenStream.size_le_prependLines 1 (f.headLexemes :: lss) s
    omega
  have hcollect := Parser.collect_more hitem hsize
  rw [hend] at hcollect
  rw [hparse, hscan]
  change (Module.read _ >>= _) = _
  rw [Module.read, Parser.bind_eq hcollect]
  rfl

/-- Lines with their statements, and one more among them. -/
theorem parse_source_line {f : Function} (hf : f.Named) {before after : List (String × Statement)}
    (hlines : ∀ line ∈ before ++ after, Statement.Line line.1 line.2) {text : String}
    {st : Statement} (hline : Statement.Line text st)
    (hblocks : f.blocks = Block.group (before.map Prod.snd ++ st :: after.map Prod.snd)) :
    Module.parse (f.source (before.map Prod.fst ++ text :: after.map Prod.fst)) =
      .ok ⟨[], [f]⟩ := by
  have hall : ∀ line ∈ before ++ (text, st) :: after, Statement.Line line.1 line.2 := by
    intro line hmem
    rcases List.mem_append.mp hmem with h | h
    · exact hlines line (List.mem_append_left _ h)
    rcases List.mem_cons.mp h with rfl | h
    · exact hline
    · exact hlines line (List.mem_append_right _ h)
  have hbody := Statement.forall₂_line hall
  rw [List.map_append, List.map_append] at hbody
  exact parse_source hf hbody hblocks

end Function

end IrAsm
