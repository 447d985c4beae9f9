import IrAsm.Proofs.Reading

/-!
# Progress

`p.Passes n`: whenever the parser `p` gives a result it has passed at least `n` tokens.
`item.Progresses`: whenever `item` says that a repetition goes on it has passed a token. All
repetitions repeat such items, so none of them is ended by the check that something was read
(`collect_eq`).
-/

namespace IrAsm

/-- A token that is no end of the text can be passed. -/
theorem TokenStream.size_tail_lt {s : TokenStream} (h : s.next.lexeme ≠ .eof) :
    s.tail.size < s.size := by
  obtain ⟨tokens, endLine⟩ := s
  cases tokens with
  | nil => exact absurd rfl h
  | cons t ts => exact Nat.lt_succ_self _

namespace Parser

variable {α β : Type} {p : Parser α} {k : α → Parser β} {s s' : TokenStream} {m n : Nat}

def PassesAt (s : TokenStream) (p : Parser α) (n : Nat) : Prop :=
  ∀ a s', p s = .ok (a, s') → s'.size + n ≤ s.size

def Passes (p : Parser α) (n : Nat) : Prop := ∀ s, PassesAt s p n

def ProgressesAt (s : TokenStream) (item : Parser (Option α × Bool)) : Prop :=
  ∀ found s', item s = .ok ((found, true), s') → s'.size < s.size

def Progresses (item : Parser (Option α × Bool)) : Prop := ∀ s, ProgressesAt s item

theorem bind_ok {b : β} (h : (p >>= k) s = .ok (b, s')) :
    ∃ a t, p s = .ok (a, t) ∧ k a t = .ok (b, s') := by
  obtain ⟨⟨a, t⟩, hp, hk⟩ := bind_ok_iff.mp (show p s >>= (fun x => k x.1 x.2) = _ from h)
  exact ⟨a, t, hp, hk⟩

namespace PassesAt

theorem bind (h : PassesAt s p m) (hk : ∀ a, (k a).Passes n) : PassesAt s (p >>= k) (m + n) := by
  intro b s' hb
  obtain ⟨a, t, hp, hk'⟩ := bind_ok hb
  have hfirst := h a t hp
  have hsecond := hk a t b s' hk'
  omega

theorem mono (h : PassesAt s p n) (hm : m ≤ n) : PassesAt s p m := fun a s' hp =>
  Nat.le_trans (Nat.add_le_add_left hm _) (h a s' hp)

theorem advance (h : s.next.lexeme ≠ .eof) : PassesAt s Parser.advance 1 := by
  rintro a s' hs
  cases hs
  exact TokenStream.size_tail_lt h

theorem skipWhile {q : Lexeme → Bool} (heof : s.next.lexeme ≠ .eof) (h : q s.next.lexeme) :
    PassesAt s (Parser.skipWhile q) 1 := by
  rintro a s' hs
  cases hs
  obtain ⟨tokens, endLine⟩ := s
  cases tokens with
  | nil => exact absurd rfl heof
  | cons t ts =>
    have ht : q t.lexeme = true := h
    simp only [TokenStream.size, List.dropWhile_cons, ht, if_true, List.length_cons]
    exact Nat.succ_le_succ (List.dropWhile_sublist _).length_le

end PassesAt

namespace Passes

theorem bind (h : p.Passes m) (hk : ∀ a, (k a).Passes n) : (p >>= k).Passes (m + n) :=
  fun s => (h s).bind hk

theorem mono (h : p.Passes n) (hm : m ≤ n) : p.Passes m := fun s => (h s).mono hm

/-- What comes first passes enough. -/
theorem first (h : p.Passes n) (hk : ∀ a, (k a).Passes 0) : (p >>= k).Passes n := h.bind hk

/-- What comes then passes enough. -/
theorem andThen (h : p.Passes 0) (hk : ∀ a, (k a).Passes n) : (p >>= k).Passes n := fun s =>
  (h.bind hk s).mono (Nat.le_add_left n 0)

theorem pure (a : α) : Passes (pure a) 0 := by
  rintro s b s' hs
  cases hs
  exact Nat.le_refl _

theorem fail {fault : ParseFault} : (Parser.fail fault : Parser α).Passes n := by
  rintro s a s' hs
  cases hs

theorem peek : Parser.peek.Passes 0 := by
  rintro s a s' hs
  cases hs
  exact Nat.le_refl _

theorem peekSecond : Parser.peekSecond.Passes 0 := by
  rintro s a s' hs
  cases hs
  exact Nat.le_refl _

theorem advance : Parser.advance.Passes 0 := by
  rintro s a s' hs
  cases hs
  simp [TokenStream.size, TokenStream.tail]

theorem skipWhile (q : Lexeme → Bool) : (Parser.skipWhile q).Passes 0 := by
  rintro s a s' hs
  cases hs
  exact (List.dropWhile_sublist _).length_le

theorem atWord (w : String) : (Parser.atWord w).Passes 0 := peek.andThen fun _ => pure _

theorem eat (p : Punct) : (Parser.eat p).Passes 0 := by
  refine peek.andThen fun l => ?_
  split
  · exact advance.andThen fun _ => pure true
  · exact pure false

theorem expect {k : Kind} (hk : k ≠ .eof) : (Parser.expect k).Passes 1 := by
  intro s
  change PassesAt s (if s.next.lexeme.kind = k then _ else _) 1
  split
  · next heq =>
    refine (PassesAt.advance ?_).bind fun _ => pure _
    intro heof
    rw [heof] at heq
    exact hk heq.symm
  · exact fail s

theorem expectPunct (p : Punct) : (Parser.expectPunct p).Passes 1 :=
  (expect (by simp)).first fun _ => pure ()

theorem collect {item : Parser (Option α × Bool)} (h : item.Passes 0) :
    (collect item).Passes 0 := by
  intro s as s' has
  fun_induction Parser.collect item s generalizing as s' with
  | case1 => cases has
  | case2 => cases has
  | case3 s found more rest hitem _ others last hrest ih =>
    cases has
    exact Nat.le_trans (ih _ _ hrest) (h _ _ _ hitem)
  | case4 s found more rest hitem _ =>
    cases has
    exact h _ _ _ hitem

theorem entry (close : Punct) {item : Parser α} (h : item.Passes 0) :
    (entry close item).Passes 0 := by
  refine peek.andThen fun l => ?_
  split
  · exact pure _
  · exact h.andThen fun a => (eat .comma).andThen fun more => pure _

theorem listUpTo (close : Punct) {item : Parser α} (h : item.Passes 0) :
    (listUpTo close item).Passes 1 := by
  rw [listUpTo_eq]
  exact (collect (h.entry close)).andThen fun items => (expectPunct close).first fun _ => pure items

end Passes

namespace Progresses

theorem bind {k : α → Parser (Option β × Bool)} (h : p.Passes 0) (hk : ∀ a, (k a).Progresses) :
    (p >>= k).Progresses := by
  intro s found s' hs
  obtain ⟨a, t, hp, hk'⟩ := bind_ok hs
  exact Nat.lt_of_lt_of_le (hk a t found s' hk') (h s a t hp)

theorem pure_false (found : Option α) : Progresses (pure (found, false)) := by
  rintro s _ s' hs
  cases hs

theorem of_passes {item : Parser (Option α × Bool)} (h : item.Passes 1) : item.Progresses :=
  fun s _ s' hs => h s _ s' hs

theorem fail {fault : ParseFault} : Progresses (Parser.fail fault : Parser (Option α × Bool)) :=
  of_passes .fail

/-- What is done depends on the lexeme ahead. -/
theorem peek {k : Lexeme → Parser (Option α × Bool)}
    (h : ∀ s l, s.next.lexeme = l → ProgressesAt s (k l)) :
    (Parser.peek >>= k).Progresses := fun s => h s _ rfl

theorem entry (close : Punct) {item : Parser α} (h : item.Passes 1) :
    (entry close item).Progresses := by
  refine bind .peek fun l => ?_
  split
  · exact pure_false none
  · exact of_passes (h.first fun a => (Passes.eat .comma).andThen fun more => .pure _)

end Progresses

/-- Where each item that goes on has passed a token, the check for that can be left out. -/
theorem collect_eq {item : Parser (Option α × Bool)} (h : item.Progresses) (s : TokenStream) :
    collect item s = (item >>= fun x =>
      if x.2 then collect item >>= fun others => pure (x.1.toList ++ others)
      else pure x.1.toList) s := by
  cases hitem : item s with
  | error e =>
    rw [collect, hitem]
    change _ = item s >>= _
    rw [hitem]
    rfl
  | ok x =>
    obtain ⟨⟨found, more⟩, rest⟩ := x
    rw [Parser.bind_eq hitem]
    cases more with
    | false => exact collect_done hitem
    | true =>
      rw [collect_more hitem (h s found rest hitem), if_pos rfl, bind_pure_eq]

end Parser

/-! ## Types and operands -/

theorem Ty.length_readFrom {endLine : Nat} {want : Want} {stack : List Frame}
    {tokens rest : List Token} {t : Ty} (h : readFrom endLine want stack tokens = .ok (t, rest)) :
    rest.length ≤ tokens.length := by
  fun_induction readFrom endLine want stack tokens with
  | case1 => cases h; exact Nat.le_refl _
  | case2 => cases h
  | case3 => cases h; exact Nat.le_refl _
  | case4 _ _ _ _ _ _ _ _ ih => exact Nat.le_succ_of_le (ih h)
  | case5 => cases h

theorem Ty.passes_read : Ty.read.Passes 1 := by
  rintro ⟨tokens, endLine⟩ t s' h
  obtain ⟨⟨u, rest⟩, hread, hs⟩ := map_ok_iff.mp h
  cases hs
  cases tokens with
  | nil => cases hread
  | cons token tokens =>
    rw [readFrom] at hread
    simp only [Want.complete?] at hread
    split at hread
    · exact Nat.succ_le_succ (length_readFrom hread)
    · cases hread

namespace Operand

open IrAsm.Parser

theorem passes_read : Operand.read.Passes 0 := by
  refine Passes.peek.andThen fun l => ?_
  split
  · exact Passes.advance.andThen fun _ => .pure _
  · exact Passes.advance.andThen fun _ => .pure _
  · split
    · exact Passes.advance.andThen fun _ => .pure _
    · exact .fail
  · split
    · exact Passes.advance.andThen fun _ => .pure _
    · exact .fail
  · exact .fail

theorem passes_readLabel : Operand.readLabel.Passes 0 := by
  refine (Passes.atWord _).andThen fun found => ?_
  split
  · exact Passes.advance.andThen fun _ => ((Passes.expect (by simp)).mono (Nat.zero_le 1)).andThen
      fun _ => .pure _
  · exact Passes.peek.andThen fun _ => .fail

end Operand

/-! ## Instructions -/

namespace Instr

open IrAsm.Parser

/-- Reads an argument of a call. -/
def readArgument : Parser Operand := do
  let _ ← Ty.read
  Parser.skipWhile Operand.isAttribute
  Operand.read

/-- Reads one more index of an address. -/
def readIndex : Parser (Option Operand × Bool) := do
  if !(← Parser.eat .comma) then
    return (none, false)
  else if ← Parser.atWord "align" then
    return (none, false)
  else
    let _ ← Ty.read
    return (some (← Operand.read), true)

/-- The register that a lexeme names. -/
def regOf? : Lexeme → Option Operand
  | .localName reg => some (.reg reg)
  | _ => none

/-- Passes a token of the line, and keeps a register. -/
def readRegister : Parser (Option Operand × Bool) := do
  let l ← Parser.peek
  if l = .newline ∨ l = .eof then
    return (none, false)
  else
    Parser.advance
    return (regOf? l, true)

theorem passes_readArgument : readArgument.Passes 1 :=
  Ty.passes_read.first fun _ => (Passes.skipWhile _).andThen fun _ => Operand.passes_read

theorem passes_readIndex : readIndex.Passes 0 := by
  refine (Passes.eat _).andThen fun comma => ?_
  split
  · exact .pure _
  · refine (Passes.atWord _).andThen fun align => ?_
    split
    · exact .pure _
    · exact (Ty.passes_read.mono (Nat.zero_le 1)).andThen fun _ =>
        Operand.passes_read.andThen fun _ => .pure _

theorem progresses_readIndex : readIndex.Progresses := by
  refine .bind (.eat _) fun comma => ?_
  split
  · exact .pure_false none
  · refine .bind (.atWord _) fun align => ?_
    split
    · exact .pure_false none
    · exact .of_passes (Ty.passes_read.first fun _ => Operand.passes_read.andThen fun _ => .pure _)

theorem progresses_readRegister : readRegister.Progresses := by
  refine .peek fun s l hl => ?_
  split
  · exact Progresses.pure_false none s
  · next hne =>
    have hpass :=
      (PassesAt.advance (hl ▸ (not_or.mp hne).2)).bind fun _ => Passes.pure (regOf? l, true)
    exact fun found s' hs => hpass _ s' hs

theorem passes_type : Ty.read.Passes 0 := Ty.passes_read.mono (Nat.zero_le 1)

theorem passes_punct (p : Punct) : (expectPunct p).Passes 0 :=
  (Passes.expectPunct p).mono (Nat.zero_le 1)

theorem passes_readPair (op : Opcode) : (readPair op).Passes 0 :=
  passes_type.andThen fun _ => Operand.passes_read.andThen fun _ =>
    (passes_punct _).andThen fun _ =>
    Operand.passes_read.andThen fun _ => .pure _

theorem passes_readStore : readStore.Passes 0 :=
  passes_type.andThen fun _ => Operand.passes_read.andThen fun _ =>
    (passes_punct _).andThen fun _ =>
    passes_type.andThen fun _ => Operand.passes_read.andThen fun _ => .pure _

theorem passes_readLoad : readLoad.Passes 0 :=
  passes_type.andThen fun _ => (passes_punct _).andThen fun _ => passes_type.andThen fun _ =>
    Operand.passes_read.andThen fun _ => .pure _

theorem passes_readBr : readBr.Passes 0 := by
  refine (Passes.atWord _).andThen fun found => ?_
  split
  · exact Operand.passes_readLabel.andThen fun _ => .pure _
  · exact passes_type.andThen fun _ => Operand.passes_read.andThen fun _ =>
      (passes_punct _).andThen fun _ =>
      Operand.passes_readLabel.andThen fun _ => (passes_punct _).andThen fun _ =>
      Operand.passes_readLabel.andThen fun _ => .pure _

theorem passes_readIcmp : readIcmp.Passes 0 := by
  refine ((Passes.expect (by simp)).mono (Nat.zero_le 1)).andThen fun keyword => ?_
  split
  · exact passes_readPair _
  · exact .fail

theorem passes_readCall : readCall.Passes 0 :=
  (Passes.skipWhile _).andThen fun _ => passes_type.andThen fun _ =>
    ((Passes.expect (by simp)).mono (Nat.zero_le 1)).andThen fun _ =>
      (passes_punct _).andThen fun _ =>
    ((Passes.listUpTo _ (passes_readArgument.mono (Nat.zero_le 1))).mono (Nat.zero_le 1)).andThen
      fun _ => .pure _

theorem passes_readRet : readRet.Passes 0 := by
  refine (Passes.atWord _).andThen fun found => ?_
  split
  · exact Passes.advance.andThen fun _ => .pure _
  · exact passes_type.andThen fun _ => Operand.passes_read.andThen fun _ => .pure _

theorem passes_readGetelementptr : readGetelementptr.Passes 0 :=
  passes_type.andThen fun _ => (passes_punct _).andThen fun _ => passes_type.andThen fun _ =>
    Operand.passes_read.andThen fun _ => (Passes.collect passes_readIndex).andThen fun _ => .pure _

theorem passes_readBitcast : readBitcast.Passes 0 := by
  refine passes_type.andThen fun _ => Operand.passes_read.andThen fun _ =>
    (Passes.atWord _).andThen fun found => ?_
  split
  · exact Passes.advance.andThen fun _ => passes_type.andThen fun _ => .pure _
  · exact .fail

theorem passes_readUnknown (name : String) : (readUnknown name).Passes 0 := by
  rintro s body s' h
  cases h
  exact (List.dropWhile_sublist _).length_le

theorem passes_readBody (mnemonic : String) : (readBody mnemonic).Passes 0 := by
  unfold readBody
  split
  · exact passes_type.andThen fun _ => .pure _
  · exact passes_readStore
  · exact passes_readLoad
  · exact passes_readBr
  · exact passes_readIcmp
  · exact passes_readCall
  · exact passes_readRet
  · exact passes_readGetelementptr
  · exact passes_readBitcast
  · split
    · exact passes_readPair _
    · exact passes_readUnknown _

theorem passes_readResult : readResult.Passes 0 := by
  refine Passes.peek.andThen fun first => Passes.peekSecond.andThen fun second => ?_
  split
  · exact Passes.advance.andThen fun _ => Passes.advance.andThen fun _ => .pure _
  · exact .pure _

/-- An instruction has a mnemonic at least. -/
theorem passes_read : Instr.read.Passes 1 :=
  passes_readResult.andThen fun _ => (Passes.skipWhile _).andThen fun _ =>
    (Passes.expect (by simp)).first fun _ => (Passes.skipWhile _).andThen fun _ =>
    (passes_readBody _).andThen fun _ => (Passes.skipWhile _).andThen fun _ => .pure _

end Instr

/-! ## Functions and modules -/

open IrAsm.Parser

namespace Statement

theorem passes_read (function : String) : (Statement.read function).Passes 0 := by
  refine (Passes.skipWhile _).andThen fun _ => Passes.peekSecond.andThen fun second =>
    Passes.peek.andThen fun first => ?_
  split
  · exact Passes.advance.andThen fun _ => .pure _
  · exact .fail
  · exact Passes.advance.andThen fun _ => Passes.advance.andThen fun _ => .pure _
  · exact Passes.advance.andThen fun _ => Passes.advance.andThen fun _ => .pure _
  · exact (Instr.passes_read.mono (Nat.zero_le 1)).andThen fun _ => .pure _

theorem progresses_read (function : String) : (Statement.read function).Progresses := by
  refine .bind (.skipWhile _) fun _ => .bind .peekSecond fun second => .peek fun s l hl => ?_
  have hlabel (name : String) (h : l ≠ .eof) : ProgressesAt s (do
      Parser.advance
      Parser.advance
      return (some (Statement.label name), true)) := fun _ s' hs =>
    (PassesAt.advance (hl ▸ h)).bind (fun _ => Passes.advance.andThen fun _ => .pure _) _ s' hs
  split
  · exact Progresses.bind .advance (fun _ => .pure_false none) s
  · exact Progresses.fail s
  · exact hlabel _ (by simp)
  · exact hlabel _ (by simp)
  · exact Progresses.of_passes (Instr.passes_read.first fun _ => .pure _) s

end Statement

theorem Param.passes_read : Param.read.Passes 1 :=
  Ty.passes_read.first fun _ => (Passes.skipWhile _).andThen fun _ =>
    ((Passes.expect (by simp)).mono (Nat.zero_le 1)).andThen fun _ => .pure _

theorem Function.passes_read : Function.read.Passes 1 := by
  refine Passes.advance.andThen fun _ => (Passes.skipWhile _).andThen fun _ =>
    Ty.passes_read.first fun ret =>
    ((Passes.expect (by simp)).mono (Nat.zero_le 1)).andThen fun name =>
      (Instr.passes_punct _).andThen fun _ =>
    ((Passes.listUpTo _ (Param.passes_read.mono (Nat.zero_le 1))).mono (Nat.zero_le 1)).andThen
      fun params =>
    (Passes.skipWhile _).andThen fun _ => Passes.peek.andThen fun l => ?_
  have hbody : Passes (do
      Parser.advance
      let body ← Parser.collect (Statement.read name)
      return ({ name, ret, params, blocks := Block.group body } : Function)) 0 :=
    Passes.advance.andThen fun _ => (Passes.collect (Statement.passes_read name)).andThen
      fun _ => .pure _
  dsimp only
  split
  · exact Passes.fail.andThen fun _ => hbody
  · exact hbody

theorem Global.passes_read : Global.read.Passes 1 := by
  refine (Passes.expect (by simp)).first fun name => (Instr.passes_punct _).andThen fun _ =>
    (Passes.skipWhile _).andThen fun _ => Passes.peek.andThen fun l => ?_
  have hvalue : Passes (do
      Parser.advance
      let ty ← Ty.read
      let value ← Parser.peek
      if isZero value then
        Parser.skipLine
        return ({ name, ty } : Global)
      else
        Parser.fail (.nonzeroGlobal name value)) 0 := by
    refine Passes.advance.andThen fun _ => Instr.passes_type.andThen fun _ =>
      Passes.peek.andThen fun _ => ?_
    split
    · exact (Passes.skipWhile _).andThen fun _ => .pure _
    · exact .fail
  dsimp only
  split
  · exact Passes.fail.andThen fun _ => hvalue
  · exact hvalue

namespace Module

theorem Item.progresses_read : Item.read.Progresses := by
  refine .bind (.skipWhile _) fun _ => .peek fun s l hl => ?_
  have hskip (h : l ≠ .eof) (h' : l ≠ .newline) : ProgressesAt s (do
      Parser.skipLine
      return ((none : Option Item), true)) := fun _ s' hs =>
    (PassesAt.skipWhile (hl ▸ h) (by simpa [hl] using h')).bind (fun _ => Passes.pure _) _ s' hs
  split
  · exact Progresses.pure_false none s
  · exact Progresses.of_passes (Global.passes_read.first fun _ => .pure _) s
  · exact Progresses.of_passes (Function.passes_read.first fun _ => .pure _) s
  · exact hskip (by simp) (by simp)
  · exact hskip (by simp) (by simp)
  · exact hskip (by simp) (by simp)
  · exact hskip (by simp) (by simp)
  · exact Progresses.fail s

end Module

end IrAsm
