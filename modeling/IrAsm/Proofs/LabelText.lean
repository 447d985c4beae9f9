import IrAsm.Proofs.InstrText

/-!
# Labels that can be defined

A branch names its target behind a sigil, where a name is any text of name characters. In front of a
colon the same text is cut into lexemes like any other, and only one word or one integer there
defines a label. So the labels that a branch can name and a line can define are the words without a
minus sign and the integers (`isLabel`); a line with another name never defines it.
-/

namespace IrAsm

open Lexeme

namespace Lexeme

/-- One or more digits. -/
def isNumeral (cs : List Char) : Bool := !cs.isEmpty && cs.all Char.isDigit

/-- A word, which starts with a letter, an underscore or a dot and has no minus sign, or an
integer. -/
def isLabel (name : String) : Bool :=
  match name.toList with
  | [] => false
  | c :: cs =>
    (c.isAlpha || c == '_' || c == '.') && !cs.contains '-' || isNumeral (c :: cs) ||
      c == '-' && isNumeral cs

variable {c : Char} {cs rest : List Char}

theorem not_special_of_isNameChar (h : isNameChar c) : c ∉ special := by
  have hspecial : special.all fun d => !isNameChar d := by decide
  intro hc
  simpa [h] using List.all_eq_true.mp hspecial c hc

theorem ofChar?_of_isNameChar (h : isNameChar c) : Punct.ofChar? c = none := by
  unfold Punct.ofChar?
  split <;> first | rfl | cases h

/-- A name character starts an integer or a word, or nothing. -/
theorem scan_nameChar {l : Option Lexeme} (h : isNameChar c) (hscan : scan c cs = .ok (l, rest)) :
    (startsInteger c cs ∧ l = some (.integer (String.ofList (c :: cs.takeWhile Char.isDigit)))) ∨
    (isWordStart c ∧ l = some (.word (String.ofList (c :: cs.takeWhile isWordChar)))) := by
  have hc := not_special_of_isNameChar h
  by_cases hint : startsInteger c cs
  · rw [scan_integer hc hint] at hscan
    cases hscan
    exact .inl ⟨hint, rfl⟩
  by_cases hword : isWordStart c
  · rw [scan_word hc (by simpa using hint) hword] at hscan
    cases hscan
    exact .inr ⟨hword, rfl⟩
  · simp only [special, List.mem_cons, List.not_mem_nil, or_false, not_or] at hc
    have hpunct := ofChar?_of_isNameChar h
    simp only [scan, beq_iff_eq, Bool.or_eq_true, hc, or_self, if_false, hint, hword,
      hpunct] at hscan
    cases hscan

/-- Where everything is taken, everything belongs there. -/
theorem forall_of_takeWhile_eq {p : Char → Bool} (h : (cs ++ rest).takeWhile p = cs) :
    ∀ c ∈ cs, p c := by
  rw [← h]
  exact List.all_eq_true.mp List.all_takeWhile

theorem isLabel_of_integer {name : String} (hlist : name.toList = c :: cs)
    (hstart : startsInteger c (cs ++ ':' :: rest)) (hcs : ∀ d ∈ cs, d.isDigit) : isLabel name := by
  have hall : cs.all Char.isDigit := List.all_eq_true.mpr hcs
  rcases Bool.or_eq_true_iff.mp hstart with hdigit | hminus
  · simp [isLabel, isNumeral, hlist, hdigit, hall]
  · obtain ⟨hc, hhead⟩ := Bool.and_eq_true_iff.mp hminus
    cases cs with
    | nil => simp at hhead
    | cons d ds => simp [isLabel, isNumeral, hlist, hc, hall]

theorem isLabel_of_word {name : String} (hname : IsName name) (hlist : name.toList = c :: cs)
    (hstart : isWordStart c) (hcs : ∀ d ∈ cs, isWordChar d) : isLabel name := by
  have hc : isNameChar c := hname.2 c (hlist ▸ List.mem_cons_self)
  have hminus : '-' ∉ cs := fun h => by cases hcs _ h
  have hsharp : c ≠ '#' := by rintro rfl; cases hc
  have hbang : c ≠ '!' := by rintro rfl; cases hc
  simp only [isWordStart, Bool.or_eq_true, beq_iff_eq, hsharp, hbang, or_false] at hstart
  simp [isLabel, hlist, hstart, hminus]

/-- Only a definable name is one lexeme in front of a colon. -/
theorem isLabel_of_scan {name : String} (hname : IsName name) {l : Option Lexeme} {left : List Char}
    (hlist : name.toList = c :: cs) (hscan : scan c (cs ++ ':' :: rest) = .ok (l, left))
    (hl : l = some (.word name) ∨ l = some (.integer name)) : isLabel name := by
  have hc : isNameChar c := hname.2 c (hlist ▸ List.mem_cons_self)
  have htake {p : Char → Bool} (h : name = String.ofList (c :: (cs ++ ':' :: rest).takeWhile p)) :
      ∀ d ∈ cs, p d := by
    have hlist' := congrArg String.toList h
    rw [hlist, String.toList_ofList] at hlist'
    exact forall_of_takeWhile_eq (List.cons.inj hlist').2.symm
  rcases scan_nameChar hc hscan with ⟨hstart, rfl⟩ | ⟨hstart, rfl⟩
  · rcases hl with hl | hl
    · cases hl
    · exact isLabel_of_integer hlist hstart (htake (Lexeme.integer.inj (Option.some.inj hl)).symm)
  · rcases hl with hl | hl
    · exact isLabel_of_word hname hlist hstart (htake (Lexeme.word.inj (Option.some.inj hl)).symm)
    · cases hl

theorem isWord_of_isLabel {name : String} (hname : IsName name) (hlist : name.toList = c :: cs)
    (hstart : c.isAlpha || c == '_' || c == '.') (hminus : !cs.contains '-') : isWord name := by
  have hcs : ∀ d ∈ cs, isWordChar d := by
    intro d hd
    have hd' : isNameChar d := hname.2 d (hlist ▸ List.mem_cons_of_mem _ hd)
    have hne : d ≠ '-' := by rintro rfl; simp [hd] at hminus
    simpa [isNameChar, isWordChar, hne] using hd'
  have hc : isWordStart c := by
    simp only [isWordStart, Bool.or_eq_true] at hstart ⊢
    tauto
  simp only [isWord, hlist, hc, Bool.true_and]
  exact List.all_eq_true.mpr hcs

/-- A definable name is one word or one integer. -/
theorem scansLine_label {name : String} (hname : IsName name) (h : isLabel name) :
    ScansLine (name ++ ":") [.word name, .punct .colon] ∨
      ScansLine (name ++ ":") [.integer name, .punct .colon] := by
  obtain ⟨c, cs, hlist, -⟩ := hname.exists_cons
  have hline {l : Lexeme} (hl : ∀ rest, Scans (name.toList ++ ':' :: rest) [l] (':' :: rest)) :
      ScansLine (name ++ ":") [l, .punct .colon] := by
    intro rest
    rw [String.toList_append, List.append_assoc]
    exact (hl ('\n' :: rest)).trans (Scans.punct .colon ('\n' :: rest))
  have hend (rest : List Char) : Ends Char.isDigit (':' :: rest) := ends_cons rfl rest
  simp only [isLabel, hlist, Bool.or_eq_true, Bool.and_eq_true] at h
  rcases h with (⟨hstart, hminus⟩ | hnum) | ⟨hc, hnum⟩
  · have hword := isWord_of_isLabel hname hlist (by simpa using hstart) (by simpa using hminus)
    exact .inl (hline fun rest => Scans.text hword (ends_cons rfl rest))
  · obtain ⟨-, hdigits⟩ := Bool.and_eq_true_iff.mp hnum
    obtain ⟨hc, hcs⟩ := List.forall_mem_cons.mp (List.all_eq_true.mp hdigits)
    refine .inr (hline fun rest => ?_)
    have hscan := Scans.integer hc hcs (hend rest)
    rwa [← hlist, String.ofList_toList, ← List.cons_append, ← hlist] at hscan
  · obtain ⟨hne, hdigits⟩ := Bool.and_eq_true_iff.mp hnum
    obtain rfl := eq_of_beq hc
    cases cs with
    | nil => cases hne
    | cons d ds =>
      obtain ⟨hd, hds⟩ := List.forall_mem_cons.mp (List.all_eq_true.mp hdigits)
      refine .inr (hline fun rest => ?_)
      have hscan := Scans.negative hd hds (hend rest)
      rwa [← hlist, String.ofList_toList, ← List.cons_append, ← hlist] at hscan

end Lexeme

namespace Statement

theorem onLine_label {l : Lexeme} {name : String} (hl : l = .word name ∨ l = .integer name)
    (function : String) : OnLine function [l, .punct .colon] (.label name) := by
  rcases hl with rfl | rfl <;> exact fun _ _ _ => rfl

theorem line_label {name : String} (hname : IsName name) (h : isLabel name) :
    Line (name ++ ":") (.label name) := by
  rcases scansLine_label hname h with hscan | hscan
  · exact ⟨_, hscan, onLine_label (.inl rfl)⟩
  · exact ⟨_, hscan, onLine_label (.inr rfl)⟩

/-- A label is read from a word or an integer only. -/
theorem next_of_read_label {function name : String} {more : Bool} {s s' : TokenStream}
    (hne : s.next.lexeme ≠ .newline)
    (h : Statement.read function s = .ok ((some (.label name), more), s')) :
    s.next.lexeme = .word name ∨ s.next.lexeme = .integer name := by
  have hskip : Parser.skipNewlines s = .ok ((), s) :=
    Parser.Reads.skipWhile 0 s (beq_eq_false_iff_ne.mpr hne)
  rw [Statement.read, Parser.bind_eq hskip, Parser.bind_eq rfl, Parser.bind_eq rfl] at h
  have hinstr : ¬ (Instr.read >>= fun i => pure (some (.instr i), true)) s =
      .ok ((some (Statement.label name), more), s') := by
    rw [Parser.bind_pure_eq, map_ok_iff]
    rintro ⟨r, -, hr⟩
    cases hr
  generalize s.next.lexeme = l at h ⊢
  generalize ((s.ahead 1).lexeme == .punct .colon) = labelled at h
  cases l with
  | word w =>
    cases labelled with
    | true => cases h; exact .inl rfl
    | false => exact absurd h hinstr
  | integer w =>
    cases labelled with
    | true => cases h; exact .inr rfl
    | false => exact absurd h hinstr
  | punct p =>
    cases p with
    | rightBrace => cases h
    | _ => exact absurd h hinstr
  | eof => cases h
  | _ => exact absurd h hinstr

/-- Nothing is read only at the end of the body. -/
theorem yields_read_none (function : String) :
    (Statement.read function).Yields fun x => x.1 = none → x.2 = false := by
  refine .after fun _ => .after fun second => .after fun first => ?_
  split
  · exact .after fun _ => .pure fun _ => rfl
  · exact .fail
  · exact .after fun _ => .after fun _ => .pure nofun
  · exact .after fun _ => .after fun _ => .pure nofun
  · exact .after fun _ => .pure nofun

theorem read_of_collect {function : String} {st : Statement} {body : List Statement}
    {s s' : TokenStream} (h : Parser.collect (Statement.read function) s = .ok (st :: body, s')) :
    ∃ more rest, Statement.read function s = .ok ((some st, more), rest) := by
  obtain ⟨found, more, rest, others, hread, hlist, hmore⟩ := Parser.collect_ok h
  cases found with
  | none =>
    rw [hmore (yields_read_none function _ _ _ hread rfl)] at hlist
    cases hlist
  | some st' =>
    obtain ⟨rfl, -⟩ := List.cons.inj hlist
    exact ⟨more, rest, hread⟩

end Statement

theorem TokenStream.scan_of_scanFrom {n : Nat} {c : Char} {cs : List Char} {s : TokenStream}
    (h : scanFrom n (c :: cs) = .ok s) :
    ∃ l left, Lexeme.scan c cs = .ok (l, left) ∧ ∀ x ∈ l, s.next.lexeme = x := by
  rw [scanFrom] at h
  split at h
  · cases h
  · next l left hscan =>
    obtain ⟨s', -, rfl⟩ := map_ok_iff.mp h
    refine ⟨l, left, hscan, ?_⟩
    rintro x rfl
    rfl

namespace Function

variable {f : Function} {lines : List String} {body tail : List Statement} {rest : String}

/-- The statements behind those on lines of their own are collected from what is behind these. -/
theorem collect_of_parse (hf : f.Named) (hlines : List.Forall₂ Statement.Line lines body)
    (hblocks : f.blocks = Block.group (body ++ tail))
    (h : Module.parse (unlines (f.headText :: lines) ++ rest) = .ok ⟨[], [f]⟩) :
    ∃ s s', TokenStream.scanFrom (lines.length + 2) rest.toList = .ok s ∧
      Parser.collect (Statement.read f.name) (s.prepend 1 [.newline]) = .ok (tail, s') := by
  obtain ⟨lss, hreads, hparse⟩ := Module.parse_lines hf hlines rest
  rw [hparse] at h
  obtain ⟨s, hscan, h⟩ := bind_ok_iff.mp h
  obtain ⟨⟨m, s'⟩, hread, h⟩ := bind_ok_iff.mp h
  cases h
  rw [Module.read, Parser.bind_pure_eq] at hread
  obtain ⟨⟨items, last⟩, hitems, hm⟩ := map_ok_iff.mp hread
  obtain ⟨found, more, left, others, hitem, rfl, -⟩ := Parser.collect_ok hitems
  rw [Module.Item.read_head, read_lines f hreads] at hitem
  obtain ⟨⟨g, left'⟩, hg, hfound⟩ := map_ok_iff.mp hitem
  obtain ⟨⟨tail', s'⟩, hcollect, hgroup⟩ := map_ok_iff.mp hg
  cases hfound
  cases hgroup
  -- the function that is read is `f`, and grouping is injective
  have hgroup : Block.group (body ++ tail') = f.blocks := by
    have hfunctions := congrArg Module.functions (Prod.mk.inj hm).1
    exact congrArg Function.blocks (List.cons.inj hfunctions).1
  have hbody := congrArg (List.flatMap Block.statements) (hgroup.trans hblocks)
  rw [Block.statements_group, Block.statements_group] at hbody
  obtain rfl := List.append_cancel_left hbody
  exact ⟨s, s', hscan, hcollect⟩

theorem source_append (f : Function) (lines : List String) (text : String) (after : List String) :
    f.source (lines ++ text :: after) =
      unlines (f.headText :: lines) ++ (text ++ ("\n" ++ unlines (after ++ ["\x7d"]))) := by
  simp only [source, List.append_assoc, List.cons_append, unlines, unlines_append,
    String.append_assoc]

theorem isLabel_of_parse {name : String} (hname : IsName name) (hf : f.Named)
    (hlines : List.Forall₂ Statement.Line lines body)
    (hblocks : f.blocks = Block.group (body ++ .label name :: tail))
    (h : Module.parse (unlines (f.headText :: lines) ++ (name ++ ":" ++ rest)) = .ok ⟨[], [f]⟩) :
    isLabel name := by
  obtain ⟨s, s', hscan, hcollect⟩ := collect_of_parse hf hlines hblocks h
  obtain ⟨more, left, hread⟩ := Statement.read_of_collect hcollect
  rw [Statement.read_newline] at hread
  obtain ⟨c, cs, hlist, hc⟩ := hname.exists_cons
  have htext : (name ++ ":" ++ rest).toList = c :: (cs ++ ':' :: rest.toList) := by
    simp [hlist]
  rw [htext] at hscan
  obtain ⟨l, left, hfirst, hnext⟩ := TokenStream.scan_of_scanFrom hscan
  -- the first lexeme of the line is the one that the label is read from
  have hl : l = some s.next.lexeme ∧ s.next.lexeme ≠ .newline := by
    rcases scan_nameChar hc hfirst with ⟨-, rfl⟩ | ⟨-, rfl⟩ <;> rw [hnext _ rfl] <;>
      exact ⟨rfl, nofun⟩
  refine isLabel_of_scan hname hlist hfirst ?_
  rw [hl.1]
  exact (Statement.next_of_read_label hl.2 hread).imp (congrArg some) (congrArg some)

end Function

/-! ## Branches -/

namespace Instr

/-- A branch to a label. -/
def jump (target : String) : Instr := ⟨.br, [.label target], none, .void⟩

def jumpText (target : String) : String := "br label %" ++ target

theorem line_jump {target : String} (h : IsName target) :
    Statement.Line (jumpText target) (.instr (jump target)) := by
  have hread : Instr.read.Reads [.word "br", .word "label", .localName target] (jump target)
      fun l => l = .newline := by
    refine reads_of_body (i := jump target) rfl ?_
      (.atWord ((Operand.reads_label target).andNothing (.pure _)))
    rintro l rfl
    rfl
  have hcolon : Lexeme.word "label" ≠ .punct .colon := nofun
  refine ⟨_, fun rest => ?_, Statement.onLine_instr (.inl rfl) hcolon hread⟩
  have hlabel := Operand.scans_text (a := .label target) h (ends_cons (c := '\n') rfl rest)
  have hbr := Scans.text (w := "br") rfl
    (Ty.ends_blank ((Operand.label target).text.toList ++ '\n' :: rest))
  have hall := hbr.trans ((Scans.blank _).trans hlabel)
  simpa [jumpText, Operand.text, Operand.lexemes] using hall

end Instr

/-- A branch can name any text of name characters. A line with that name and a colon, among lines
that hold such a branch, starts a block of that label if and only if the name is a word or an
integer. -/
theorem Function.label_defined_iff {name : String} (hname : IsName name) :
    Statement.Line (Instr.jumpText name) (.instr (.jump name)) ∧
    ∀ (f : Function) (before after : List (String × Statement)), f.Named →
      (∀ line ∈ before ++ after, Statement.Line line.1 line.2) →
      (Instr.jumpText name, .instr (.jump name)) ∈ before ++ after →
      f.blocks = Block.group (before.map Prod.snd ++ .label name :: after.map Prod.snd) →
      name ∈ f.labels ∧ .jump name ∈ f.instrs ∧
      (Module.parse (f.source (before.map Prod.fst ++ (name ++ ":") :: after.map Prod.fst)) =
        .ok ⟨[], [f]⟩ ↔ isLabel name) := by
  refine ⟨Instr.line_jump hname, fun f before after hf hlines hjump hblocks => ⟨?_, ?_, ?_, ?_⟩⟩
  · rw [labels, hblocks]
    exact Block.mem_group_of_label (by simp)
  · rw [instrs, hblocks]
    refine Block.mem_group_of_instr ?_
    have hmem := List.mem_map_of_mem (f := Prod.snd) hjump
    rw [List.map_append] at hmem
    rcases List.mem_append.mp hmem with h | h
    · exact List.mem_append_left _ h
    · exact List.mem_append_right _ (List.mem_cons_of_mem _ h)
  · intro h
    have hbefore :=
      Statement.forall₂_line fun line hline => hlines line (List.mem_append_left _ hline)
    rw [source_append] at h
    exact isLabel_of_parse hname hf hbefore hblocks h
  · exact fun h => parse_source_line hf hlines (Statement.line_label hname h) hblocks

/-- A function that branches to the label `-5`. -/
def Function.negativeLabel : Function :=
  ⟨"f", .void, [], [⟨none, [.jump "-5"]⟩, ⟨some "-5", [.retVoid]⟩]⟩

theorem Function.label_defined_iff_negativeLabel :
    Module.parse "define void @f() \x7b\nbr label %-5\n-5:\nret void\n\x7d\n" =
      .ok ⟨[], [negativeLabel]⟩ := by
  have hf : negativeLabel.Named := ⟨by decide +kernel, by decide +kernel⟩
  have hname : IsName "-5" := by decide +kernel
  obtain ⟨hjump, hiff⟩ := label_defined_iff hname
  have hlines :
      ∀ line ∈ [(Instr.jumpText "-5", Statement.instr (.jump "-5"))] ++
        [("ret void", .instr .retVoid)], Statement.Line line.1 line.2 := by
    simpa using ⟨hjump, Instr.line_retVoid⟩
  obtain ⟨-, -, hparse⟩ := hiff negativeLabel _ _ hf hlines List.mem_cons_self rfl
  have htext : negativeLabel.source [Instr.jumpText "-5", "-5" ++ ":", "ret void"] =
      "define void @f() \x7b\nbr label %-5\n-5:\nret void\n\x7d\n" := by decide +kernel
  exact htext ▸ hparse.mpr rfl

def Function.dashText : String :=
  "define void @f() \x7b\n  br label %a-b\na-b:\n  ret void\n\x7d\n"

/-- The branch names `a-b`, but its line is not cut there. -/
theorem Function.dash_label_not_read : IsName "a-b" ∧
    Module.parse dashText = .error ⟨3, .invalidCharacter '-'⟩ := by
  have hchars : dashText.toList = _ := String.toList_ofList
  refine ⟨by decide +kernel, ?_⟩
  rw [Module.parse, TokenStream.scan, hchars]
  decide +kernel

end IrAsm
