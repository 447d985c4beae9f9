import IrAsm.Proofs.Cursor
import IrAsm.Proofs.TypeGrammar

/-!
# Recursive descent

The readers of the language at a cursor. Each construct of the grammar has its reader, the readers
of types call each other, and what stands several times is read in a loop. With turns enough for the
tokens no call and no loop is cut off: a module is read to its end or up to a fault, and as
`Module.read` reads it (`follows_definitions`).
-/

namespace IrAsm

namespace Descent

/-! ## Readers -/

/-- Fails at a token that has been passed. -/
def failAt {α : Type} (t : Token) (fault : ParseFault) : Descent α := throw (.fault ⟨t.line, fault⟩)

def seekIn (stop bad : Lexeme → Bool) (fault : ParseFault) : Nat → Descent Unit
  | 0 => cut
  | n + 1 => do
    let l ← peek
    if stop l then
      return ()
    else if bad l then
      fail fault
    else
      pass
      seekIn stop bad fault n

/-- Passes tokens up to one that satisfies `stop`, but fails at one that is `bad`. -/
def seek (stop bad : Lexeme → Bool) (fault : ParseFault) : Descent Unit :=
  within (seekIn stop bad fault)

/-- Goes to the end of the line. -/
def skipLine : Descent Unit := skipWhile fun l => l != .newline && l != .eof

def skipNewlines : Descent Unit := skipWhile (· == .newline)

/-- Items with commas between them, up to `close`, which is passed. -/
def listUpTo {α : Type} (close : Punct) (item : Descent α) : Descent (List α) := do
  let items ← loop do
    if (← peek) = .punct close then
      return (none, false)
    else
      let a ← item
      return (some a, ← eat .comma)
  expectPunct close
  return items

mutual

/-- Reads a type. -/
def typeIn : Nat → Descent Ty
  | 0 => cut
  | n + 1 => do
    let t ← advance
    match t.lexeme with
    | .word w =>
      match Ty.ofWord? w with
      | some ty => suffixesIn n ty
      | none => failAt t (.expectedType t.lexeme)
    | .punct .leftBracket =>
      let digits ← expect .integer
      match Decimal.unsigned64 digits.toList with
      | .ok length =>
        if ← atWord "x" then
          pass
          let elem ← typeIn n
          expectPunct .rightBracket
          suffixesIn n (.array (UInt64.ofNat length) elem)
        else
          fail .expectedTimes
      | .error fault => failAt t (.numeral fault)
    | _ => failAt t (.expectedType t.lexeme)

/-- Reads the pointer marks and parameters behind a type. -/
def suffixesIn : Nat → Ty → Descent Ty
  | 0, _ => cut
  | n + 1, ty => do
    match ← peek with
    | .punct .star =>
      pass
      suffixesIn n ty.ptr
    | .punct .leftParen =>
      pass
      let params ← parametersIn n
      expectPunct .rightParen
      suffixesIn n (.func ty params)
    | _ => return ty

/-- Reads the parameters of a function type. -/
def parametersIn : Nat → Descent (List Ty)
  | 0 => cut
  | n + 1 => do
    if (← peek) = .punct .rightParen then
      return []
    else
      let found ←
        if ← atWord "..." then do
          pass
          pure none
        else do
          pure (some (← typeIn n))
      if ← eat .comma then
        return found.toList ++ (← parametersIn n)
      else
        return found.toList

end

def type : Descent Ty := within typeIn

/-- Reads a value. -/
def operand : Descent Operand := do
  let t ← advance
  match t.lexeme with
  | .localName name => return .reg name
  | .globalName name => return .global name
  | .integer digits =>
    match Word.ofText digits with
    | .ok value => return .imm value
    | .error fault => failAt t (.numeral fault)
  | .word w =>
    match Operand.constant? w with
    | some value => return .imm value
    | none => failAt t (.expectedValue t.lexeme)
  | _ => failAt t (.expectedValue t.lexeme)

/-- Reads a branch target. -/
def label : Descent Operand := do
  if ← atWord "label" then
    pass
    return .label (← expect .localName)
  else
    fail (.expectedLabel (← peek))

def pair (op : Opcode) : Descent Instr.Body := do
  let ty ← type
  let lhs ← operand
  expectPunct .comma
  let rhs ← operand
  return (op, [lhs, rhs], ty)

def store : Descent Instr.Body := do
  let ty ← type
  let value ← operand
  expectPunct .comma
  let _ ← type
  let pointer ← operand
  return (.store, [value, pointer], ty)

def load : Descent Instr.Body := do
  let ty ← type
  expectPunct .comma
  let _ ← type
  let pointer ← operand
  return (.load, [pointer], ty)

def br : Descent Instr.Body := do
  if ← atWord "label" then
    return (.br, [← label], .void)
  else
    let _ ← type
    let cond ← operand
    expectPunct .comma
    let whenTrue ← label
    expectPunct .comma
    let whenFalse ← label
    return (.br, [cond, whenTrue, whenFalse], .void)

def icmp : Descent Instr.Body := do
  let keyword ← expect .word
  match Predicate.ofText? keyword with
  | some p => pair (.icmp p)
  | none => fail (.unknownPredicate keyword)

/-- Reads an argument of a call. -/
def argument : Descent Operand := do
  let _ ← type
  skipWhile Operand.isAttribute
  operand

def call : Descent Instr.Body := do
  skipWhile Instr.isQualifier
  let ty ← type
  let callee ← expect .globalName
  expectPunct .leftParen
  let args ← listUpTo .rightParen argument
  let ty := match ty with
    | .func ret _ => ret
    | _ => ty
  return (.call, args ++ [.callee callee], ty)

def ret : Descent Instr.Body := do
  if ← atWord "void" then
    pass
    return (.ret, [], .void)
  else
    let ty ← type
    return (.ret, [← operand], ty)

/-- Reads one more index of an address. -/
def index : Descent (Option Operand × Bool) := do
  if !(← eat .comma) then
    return (none, false)
  else if ← atWord "align" then
    return (none, false)
  else
    let _ ← type
    return (some (← operand), true)

def getelementptr : Descent Instr.Body := do
  let ty ← type
  expectPunct .comma
  let _ ← type
  let base ← operand
  let indices ← loop index
  return (.getelementptr, base :: indices, ty)

def bitcast : Descent Instr.Body := do
  let _ ← type
  let value ← operand
  if ← atWord "to" then
    pass
    return (.bitcast, [value], ← type)
  else
    fail .expectedTo

/-- Passes a token of the line, and keeps a register. -/
def register : Descent (Option Operand × Bool) := do
  let l ← peek
  if l = .newline ∨ l = .eof then
    return (none, false)
  else
    pass
    return (Instr.regOf? l, true)

def unknown (name : String) : Descent Instr.Body := do
  let regs ← loop register
  return (.unsupported name, regs, .void)

/-- Reads what stands behind the mnemonic. -/
def body (mnemonic : String) : Descent Instr.Body :=
  match mnemonic with
  | "alloca" => do return (.alloca, [], ← type)
  | "store" => store
  | "load" => load
  | "br" => br
  | "icmp" => icmp
  | "call" => call
  | "ret" => ret
  | "getelementptr" => getelementptr
  | "bitcast" => bitcast
  | other =>
    match Arith.ofText? other with
    | some op => pair (.arith op)
    | none => unknown other

def result : Descent (Option String) := do
  match ← peek, ← peekSecond with
  | .localName name, .punct .equal =>
    pass
    pass
    return some name
  | _, _ => return none

def instruction : Descent Instr := do
  let result ← result
  skipWhile Instr.isCallMarker
  let mnemonic ← expect .word
  skipWhile Instr.isFlag
  let (opcode, operands, ty) ← body mnemonic
  skipLine
  return { opcode, operands, result, ty }

/-- Reads one statement, or the brace that closes the body. -/
def statement (function : String) : Descent (Option Statement × Bool) := do
  skipNewlines
  let labelled := (← peekSecond) == .punct .colon
  match ← peek, labelled with
  | .punct .rightBrace, _ =>
    pass
    return (none, false)
  | .eof, _ => fail (.unterminatedBody function)
  | .word name, true | .integer name, true =>
    pass
    pass
    return (some (.label name), true)
  | _, _ => return (some (.instr (← instruction)), true)

def param : Descent Param := do
  let ty ← type
  skipWhile (·.kind == .word)
  return { name := ← expect .localName, ty }

def function : Descent Function := do
  pass
  skipWhile Instr.isQualifier
  let ret ← type
  let name ← expect .globalName
  expectPunct .leftParen
  let params ← listUpTo .rightParen param
  seek (· == .punct .leftBrace) (· == .eof) (.missingBody name)
  pass
  let body ← loop (statement name)
  return { name, ret, params, blocks := Block.group body }

/-- Reads a global definition from its name on. -/
def global : Descent Global := do
  let name := (← advance).lexeme.text
  expectPunct .equal
  seek (fun l => l == .word "global" || l == .word "constant") (·.kind != .word)
    (.expectedGlobal name)
  pass
  let ty ← type
  let value ← advance
  if Global.isZero value.lexeme then
    skipLine
    return { name, ty }
  else
    failAt value (.nonzeroGlobal name value.lexeme)

/-- Reads one definition that starts with `l`, or passes a line that defines nothing. -/
def itemAt (l : Lexeme) : Descent (Option Module.Item × Bool) :=
  match l with
  | .eof => return (none, false)
  | .globalName _ => return (some (.global (← global)), true)
  | .word "define" => return (some (.function (← function)), true)
  | .word "target" | .word "source_filename" | .word "declare" | .word "attributes" => do
    skipLine
    return (none, true)
  | _ => fail (.topLevel l)

def item : Descent (Option Module.Item × Bool) := do
  skipNewlines
  itemAt (← peek)

def definitions : Descent Module := do
  let items ← loop item
  return { globals := items.filterMap Module.Item.global?,
           functions := items.filterMap Module.Item.function? }

/-! ## Types -/

open IrAsm.Parser IrAsm.TokenStream

variable {α : Type} {c : Cursor} {s : TokenStream}

/-- A reader that passes a token before it looks at it, and a parser that looks at it first. -/
theorem Agrees.of_advance {f : Token → Descent α} {p : Parser α} (hc : c.Views s)
    (h : ∀ c', c'.Views s.tail → Agrees c' s.tail (f s.next) fun _ => p s) :
    Agrees c s (advance >>= f) p := by
  obtain ⟨c', hc', hadvance⟩ := advance_eq hc
  have htail := h c' hc'
  unfold Agrees at htail ⊢
  rw [bind_apply, hadvance]
  exact htail

/-- The same, where the parser has looked at the stream before. -/
theorem Agrees.const {d : Descent α} {p : Parser α} (h : Agrees c s d p) :
    Agrees c s d fun _ => p s := h.congr rfl

theorem agrees_failAt {t : Token} {fault : ParseFault} {p : Parser α}
    (h : p s = .error ⟨t.line, fault⟩) :
    Agrees c s (failAt t fault) p := .of_error h rfl

/-- The readers of types do what the parsers do where calls may nest `n` deep. The reader of
parameters calls that of types in front of the same tokens. -/
structure TypesWithin (n : Nat) : Prop where
  type : ∀ c s, 2 * s.size + 1 ≤ n → c.Views s → Agrees c s (typeIn n) Ty.read
  suffixes : ∀ t c s, 2 * s.size + 1 ≤ n → c.Views s → Agrees c s (suffixesIn n t) (Ty.readSuffix t)
  parameters : ∀ ret before c s (k : Ty → Descent Ty), 2 * s.size + 2 ≤ n → c.Views s →
    (∀ t c' s', s'.size < s.size → c'.Views s' → Agrees c' s' (k t) (Ty.readSuffix t)) →
    Agrees c s (parametersIn n >>= fun params => expectPunct .rightParen >>= fun _ =>
      k (.func ret (before ++ params))) (Ty.readParams ret before)

/-- Two tokens of a line. -/
theorem line_next_tail (hs : s.Regular) (hl : s.next.lexeme ≠ .newline)
    (htail : s.tail.next.lexeme ≠ .eof) : s.tail.next.line = s.next.line := by
  obtain ⟨tokens, endLine⟩ := s
  match tokens with
  | [] => exact absurd rfl htail
  | [t] => exact absurd rfl htail
  | t :: u :: tokens => exact (List.isChain_cons_cons.mp hs.line).1 hl

/-- An array behind its bracket `t`, which stands on the line of the length. -/
theorem agrees_array (hc : c.Views s) {t : Token}
    (ht : s.next.lexeme ≠ .eof → s.next.line = t.line) {n : Nat} (h : TypesWithin n)
    (hn : 2 * s.size + 1 ≤ n) :
    Agrees c s (do
      let digits ← expect .integer
      match Decimal.unsigned64 digits.toList with
      | .ok length =>
        if ← atWord "x" then
          pass
          let elem ← typeIn n
          expectPunct .rightBracket
          suffixesIn n (.array (UInt64.ofNat length) elem)
        else
          fail .expectedTimes
      | .error fault => failAt t (.numeral fault)) Ty.readArray := by
  have hread := congrFun Ty.readArray_eq s
  rw [bind_eq rfl] at hread
  -- The parser looks at the length before it passes it, so a fault of the length stands where the
  -- length does.
  have hlength : Ty.readArray s = (Parser.expect .integer >>= fun digits =>
      match Decimal.unsigned64 digits.toList with
      | .ok length => do
        if ← Parser.atWord "x" then
          Parser.advance
          let t ← Ty.read
          Parser.expectPunct .rightBracket
          Ty.readSuffix (.array (UInt64.ofNat length) t)
        else
          Parser.fail .expectedTimes
      | .error fault => fun _ => .error ⟨t.line, .numeral fault⟩) s := by
    rw [hread, expect_bind]
    cases hl : s.next.lexeme with
    | integer digits =>
      simp only [Lexeme.kind, if_true, Lexeme.text]
      cases Decimal.unsigned64 digits.toList with
      | error fault =>
        change Except.error (⟨s.next.line, _⟩ : ParseError) = _
        rw [ht (by simp [hl])]
      | ok length => rfl
    | _ => rfl
  refine Agrees.congr ((Follows.expect .integer c s hc).bind fun digits s₁ c₁ hs₁ hc₁ => ?_)
    hlength.symm
  have hsize₁ := Passes.expect (by simp) s digits s₁ hs₁
  cases Decimal.unsigned64 digits.toList with
  | error fault => exact agrees_failAt rfl
  | ok length =>
    refine (Follows.atWord "x" c₁ s₁ hc₁).bind fun found s₂ c₂ hs₂ hc₂ => ?_
    have hsize₂ := Passes.atWord "x" s₁ found s₂ hs₂
    split
    · refine (Follows.pass c₂ s₂ hc₂).bind fun _ s₃ c₃ hs₃ hc₃ => ?_
      have hsize₃ := Passes.advance s₂ () s₃ hs₃
      refine (h.type c₃ s₃ (by omega) hc₃).bind fun elem s₄ c₄ hs₄ hc₄ => ?_
      have hsize₄ := Ty.passes_read s₃ elem s₄ hs₄
      refine (Follows.expectPunct _ c₄ s₄ hc₄).bind fun _ s₅ c₅ hs₅ hc₅ => ?_
      have hsize₅ := Passes.expectPunct _ s₄ () s₅ hs₅
      exact h.suffixes _ c₅ s₅ (by omega) hc₅
    · exact Follows.fail _ c₂ s₂ hc₂

theorem agrees_type (hc : c.Views s) {n : Nat} (h : TypesWithin n) (hn : 2 * s.size ≤ n) :
    Agrees c s (typeIn (n + 1)) Ty.read := by
  rw [typeIn]
  refine .of_advance hc fun c' hc' => ?_
  have hread := congrFun Ty.read_eq s
  rw [bind_eq rfl] at hread
  rw [hread]
  cases hl : s.next.lexeme with
  | word w =>
    have hsize : s.tail.size < s.size := size_tail_lt (by simp [hl])
    dsimp only
    cases Ty.ofWord? w with
    | none => exact agrees_failAt rfl
    | some t => exact (h.suffixes t c' s.tail (by omega) hc').const
  | punct p =>
    cases p with
    | leftBracket =>
      have hsize : s.tail.size < s.size := size_tail_lt (by simp [hl])
      have hline := line_next_tail hc.regular (by simp [hl])
      exact (agrees_array hc' hline h (by omega)).const
    | _ => exact agrees_failAt rfl
  | _ => exact agrees_failAt rfl

theorem agrees_suffixes (t : Ty) (hc : c.Views s) {n : Nat} (h : TypesWithin n)
    (hn : 2 * s.size ≤ n) : Agrees c s (suffixesIn (n + 1) t) (Ty.readSuffix t) := by
  rw [suffixesIn, Ty.readSuffix_eq]
  refine (Follows.peek c s hc).bind fun l s' c' hl hc' => ?_
  cases hl
  have hpass {f : Unit → Descent Ty} {k : Unit → Parser Ty} (hne : s.next.lexeme ≠ .eof)
      (hf : ∀ c', c'.Views s.tail → s.tail.size < s.size → Agrees c' s.tail (f ()) (k ())) :
      Agrees c' s (pass >>= f) (Parser.advance >>= k) := by
    refine (Follows.pass c' s hc').bind fun _ s₁ c₁ hs₁ hc₁ => ?_
    cases hs₁
    exact hf c₁ hc₁ (size_tail_lt hne)
  cases hl : s.next.lexeme with
  | punct p =>
    cases p with
    | star => exact hpass (by simp [hl]) fun c₁ hc₁ hsize => h.suffixes _ c₁ _ (by omega) hc₁
    | leftParen =>
      refine hpass (by simp [hl]) fun c₁ hc₁ hsize => h.parameters t [] c₁ _ _ (by omega) hc₁ ?_
      exact fun u c₂ s₂ hs₂ hc₂ => h.suffixes u c₂ s₂ (by omega) hc₂
    | _ => exact Follows.pure t c' s hc'
  | _ => exact Follows.pure t c' s hc'

theorem size_lt_of_eat {mark : Punct} {s' : TokenStream} (h : Parser.eat mark s = .ok (true, s')) :
    s'.size < s.size := by
  have heat := eat_bind mark pure s
  rw [bind_pure, h] at heat
  split at heat
  · next hl =>
    cases heat
    exact size_tail_lt (by simp [hl])
  · cases heat

section
variable {n : Nat} {k : Ty → Descent Ty}

/-- Behind a parameter or the dots. -/
theorem agrees_separator (ret : Ty) (before : List Ty) (found : Option Ty) (hc : c.Views s)
    (h : TypesWithin n) (hn : 2 * s.size ≤ n)
    (hk : ∀ t c' s', s'.size < s.size → c'.Views s' → Agrees c' s' (k t) (Ty.readSuffix t)) :
    Agrees c s (do
      let more ← eat .comma
      let params ← (if more then
          parametersIn n >>= fun others => pure (found.toList ++ others) else pure found.toList)
      expectPunct .rightParen
      k (.func ret (before ++ params))) (Ty.readSeparator ret (before ++ found.toList)) := by
  refine (Follows.eat .comma c s hc).bind fun comma s₁ c₁ hs₁ hc₁ => ?_
  cases comma with
  | true =>
    have hsize₁ := size_lt_of_eat hs₁
    have hothers :=
      h.parameters ret (before ++ found.toList) c₁ s₁ k (by omega) hc₁ fun t c₂ s₂ hs₂ =>
      hk t c₂ s₂ (by omega)
    simp only [if_true, bind_assoc, pure_bind, List.append_assoc] at hothers ⊢
    exact hothers
  | false =>
    have hsize₁ := Passes.eat .comma s false s₁ hs₁
    simp only [Bool.false_eq_true, if_false, pure_bind]
    refine (Follows.expectPunct _ c₁ s₁ hc₁).bind fun _ s₂ c₂ hs₂ hc₂ => ?_
    have hsize₂ := Passes.expectPunct _ s₁ () s₂ hs₂
    exact hk _ c₂ s₂ (by omega) hc₂

theorem agrees_parameters (ret : Ty) (before : List Ty) (hc : c.Views s) (h : TypesWithin n)
    (hn : 2 * s.size + 1 ≤ n)
    (hk : ∀ t c' s', s'.size < s.size → c'.Views s' → Agrees c' s' (k t) (Ty.readSuffix t)) :
    Agrees c s (parametersIn (n + 1) >>= fun params => expectPunct .rightParen >>= fun _ =>
      k (.func ret (before ++ params))) (Ty.readParams ret before) := by
  rw [parametersIn, Ty.readParams_eq, bind_assoc]
  refine (Follows.peek c s hc).bind fun l s₁ c₁ hs₁ hc₁ => ?_
  cases hs₁
  split
  · rw [pure_bind, List.append_nil]
    refine (Follows.expectPunct _ c₁ s hc₁).bind fun _ s₂ c₂ hs₂ hc₂ => ?_
    exact hk _ c₂ s₂ (Passes.expectPunct _ s () s₂ hs₂) hc₂
  · simp only [bind_assoc]
    refine (Follows.atWord "..." c₁ s hc₁).bind fun dots s₂ c₂ hs₂ hc₂ => ?_
    cases hs₂
    split
    · simp only [bind_assoc, pure_bind]
      refine (Follows.pass c₂ s hc₂).bind fun _ s₃ c₃ hs₃ hc₃ => ?_
      have hsize₃ := Passes.advance s () s₃ hs₃
      have hmore :=
        agrees_separator ret before none hc₃ h (by omega) fun t c' s' hs' => hk t c' s' (by omega)
      rw [Option.toList_none, List.append_nil] at hmore
      exact hmore
    · simp only [bind_assoc, pure_bind]
      refine (h.type c₂ s hn hc₂).bind fun t s₃ c₃ hs₃ hc₃ => ?_
      have hsize₃ := Ty.passes_read s t s₃ hs₃
      exact agrees_separator ret before (some t) hc₃ h (by omega) fun t c' s' hs' =>
        hk t c' s' (by omega)

end

theorem typesWithin (n : Nat) : TypesWithin n := by
  induction n with
  | zero => exact ⟨fun _ _ hs => by omega, fun _ _ _ hs => by omega, fun _ _ _ _ _ hs => by omega⟩
  | succ n ih =>
    exact {
      type c s hs hc := agrees_type hc ih (by omega)
      suffixes t c s hs hc := agrees_suffixes t hc ih (by omega)
      parameters ret before c s k hs hc hk := agrees_parameters ret before hc ih (by omega) hk }

theorem follows_type : Follows type Ty.read := fun c s hc =>
  (typesWithin c.turns).type c s (Nat.le_of_succ_le hc.turns) hc

/-! ## Lines and lists -/

theorem follows_skipLine : Follows skipLine Parser.skipLine :=
  .skipWhile rfl fun l hl => by simp [hl]

theorem follows_skipNewlines : Follows skipNewlines Parser.skipNewlines :=
  .skipWhile rfl fun _ _ => rfl

theorem follows_listUpTo (close : Punct) {d : Descent α} {p : Parser α} (h : Follows d p)
    (hp : p.Passes 1) : Follows (listUpTo close d) (Parser.listUpTo close p) := by
  rw [listUpTo_eq]
  have hentry : Follows (do
      if (← peek) = .punct close then
        return (none, false)
      else
        let a ← d
        return (some a, ← eat .comma)) (Parser.entry close p) := by
    refine Follows.peek.bind fun l => ?_
    split
    · exact .pure _
    · exact h.bind fun a => (Follows.eat _).bind fun more => .pure _
  exact (hentry.loop (.entry close hp)).bind fun items =>
    (Follows.expectPunct close).bind fun _ => .pure items

/-- Passing tokens up to one that is looked for, if one is missed at the end of the text at the
latest. -/
theorem follows_seek {stop bad q : Lexeme → Bool} {fault : ParseFault} {f : Unit → Descent α}
    {k : Lexeme → Parser α} (heof : bad .eof = true)
    (hq : ∀ l, l ≠ .eof → q l = (!stop l && !bad l)) (hstop : ∀ l, stop l → Follows (f ()) (k l))
    (hbad : ∀ l s, stop l = false → bad l → k l s = .error ⟨s.next.line, fault⟩) :
    Follows (seek stop bad fault >>= f) (Parser.skipWhile q >>= fun _ => Parser.peek >>= k) := by
  change Follows (within fun n => seekIn stop bad fault n >>= f) _
  refine .within fun n ih c s hs hc => ?_
  have hturn : Agrees c s (seekIn stop bad fault (n + 1) >>= f) (Parser.peek >>= fun l =>
      if stop l then k l
      else if bad l then Parser.fail fault
      else Parser.advance >>= fun _ => Parser.skipWhile q >>= fun _ => Parser.peek >>= k) := by
    rw [seekIn, bind_assoc]
    refine (Follows.peek c s hc).bind fun l s₁ c₁ hs₁ hc₁ => ?_
    cases hs₁
    split
    · next hl => exact hstop _ hl c₁ s hc₁
    split
    · have hfail : Agrees c₁ s (fail fault >>= f)
          (Parser.fail fault >>= fun _ => Parser.fail fault) :=
        (Follows.fail fault c₁ s hc₁).bind fun _ _ _ h _ => nomatch h
      exact hfail.congr rfl
    · next hl =>
      have hne : s.next.lexeme ≠ .eof := fun h => hl (h ▸ heof)
      rw [bind_assoc]
      refine (Follows.pass c₁ s hc₁).bind fun _ s₂ c₂ hs₂ hc₂ => ?_
      cases hs₂
      exact ih c₂ _ (Nat.lt_of_lt_of_le (size_tail_lt hne) hs) hc₂
  refine hturn.congr ?_
  rw [bind_eq rfl]
  change _ = Parser.skipWhile q s >>= fun r => (Parser.peek >>= k) r.2
  rw [Parser.skipWhile_eq q hc.regular]
  have hgoes : s.next.lexeme ≠ .eof ∧ q s.next.lexeme = true ↔
      stop s.next.lexeme = false ∧ bad s.next.lexeme = false := by
    by_cases h : s.next.lexeme = .eof
    · simp [h, heof]
    · simp [h, hq _ h]
  simp only [hgoes]
  cases hs : stop s.next.lexeme with
  | true => rfl
  | false =>
    cases hb : bad s.next.lexeme with
    | true => exact (hbad _ s hs hb).symm
    | false => rfl

/-! ## Instructions -/

theorem follows_operand : Follows operand Operand.read := by
  intro c s hc
  refine .of_advance hc fun c' hc' => ?_
  have hread : Operand.read s = _ := bind_eq rfl
  rw [hread]
  have hpure (a : Operand) {p : Parser Operand} (hp : p s = .ok (a, s.tail)) :
      Agrees c' s.tail (pure a) fun _ => p s := (Follows.pure a c' s.tail hc').congr hp.symm
  cases s.next.lexeme with
  | localName name => exact hpure _ rfl
  | globalName name => exact hpure _ rfl
  | integer digits =>
    dsimp only
    cases Word.ofText digits with
    | ok value => exact hpure _ rfl
    | error fault => exact agrees_failAt rfl
  | word w =>
    dsimp only
    cases Operand.constant? w with
    | some value => exact hpure _ rfl
    | none => exact agrees_failAt rfl
  | _ => exact agrees_failAt rfl

theorem follows_label : Follows label Operand.readLabel := by
  refine (Follows.atWord _).bind fun found => ?_
  split
  · exact Follows.pass.bind fun _ => (Follows.expect _).bind fun _ => .pure _
  · exact Follows.peek.bind fun _ => .fail _

theorem follows_pair (op : Opcode) : Follows (pair op) (Instr.readPair op) :=
  follows_type.bind fun _ => follows_operand.bind fun _ => (Follows.expectPunct _).bind fun _ =>
    follows_operand.bind fun _ => .pure _

theorem follows_store : Follows store Instr.readStore :=
  follows_type.bind fun _ => follows_operand.bind fun _ => (Follows.expectPunct _).bind fun _ =>
    follows_type.bind fun _ => follows_operand.bind fun _ => .pure _

theorem follows_load : Follows load Instr.readLoad :=
  follows_type.bind fun _ => (Follows.expectPunct _).bind fun _ => follows_type.bind fun _ =>
    follows_operand.bind fun _ => .pure _

theorem follows_br : Follows br Instr.readBr := by
  refine (Follows.atWord _).bind fun found => ?_
  split
  · exact follows_label.bind fun _ => .pure _
  · exact follows_type.bind fun _ => follows_operand.bind fun _ =>
      (Follows.expectPunct _).bind fun _ =>
      follows_label.bind fun _ => (Follows.expectPunct _).bind fun _ =>
        follows_label.bind fun _ => .pure _

theorem follows_icmp : Follows icmp Instr.readIcmp := by
  refine (Follows.expect _).bind fun keyword => ?_
  cases Predicate.ofText? keyword with
  | some p => exact follows_pair _
  | none => exact .fail _

theorem follows_argument : Follows argument Instr.readArgument :=
  follows_type.bind fun _ => (Follows.skipWhile rfl fun _ _ => rfl).bind fun _ => follows_operand

theorem follows_call : Follows call Instr.readCall :=
  (Follows.skipWhile rfl fun _ _ => rfl).bind fun _ => follows_type.bind fun _ =>
    (Follows.expect _).bind fun _ =>
    (Follows.expectPunct _).bind fun _ =>
    (follows_listUpTo _ follows_argument Instr.passes_readArgument).bind fun _ => .pure _

theorem follows_ret : Follows ret Instr.readRet := by
  refine (Follows.atWord _).bind fun found => ?_
  split
  · exact Follows.pass.bind fun _ => .pure _
  · exact follows_type.bind fun _ => follows_operand.bind fun _ => .pure _

theorem follows_index : Follows index Instr.readIndex := by
  refine (Follows.eat _).bind fun comma => ?_
  split
  · exact .pure _
  · refine (Follows.atWord _).bind fun align => ?_
    split
    · exact .pure _
    · exact follows_type.bind fun _ => follows_operand.bind fun _ => .pure _

theorem follows_getelementptr : Follows getelementptr Instr.readGetelementptr :=
  follows_type.bind fun _ => (Follows.expectPunct _).bind fun _ => follows_type.bind fun _ =>
    follows_operand.bind fun _ =>
      (follows_index.loop Instr.progresses_readIndex).bind fun _ => .pure _

theorem follows_bitcast : Follows bitcast Instr.readBitcast := by
  refine follows_type.bind fun _ => follows_operand.bind fun _ =>
    (Follows.atWord _).bind fun found => ?_
  split
  · exact Follows.pass.bind fun _ => follows_type.bind fun _ => .pure _
  · exact .fail _

theorem follows_register : Follows register Instr.readRegister := by
  refine Follows.peek.bind fun l => ?_
  split
  · exact .pure _
  · exact Follows.pass.bind fun _ => .pure _

/-- The registers in the rest of a line, one after the other. -/
theorem collect_readRegister (hs : s.Regular) : Parser.collect Instr.readRegister s =
    .ok ((s.tokens.takeWhile (·.lexeme != .newline)).filterMap fun t => Instr.regOf? t.lexeme,
      { s with tokens := s.tokens.dropWhile (·.lexeme != .newline) }) := by
  obtain ⟨tokens, endLine⟩ := s
  induction tokens with
  | nil =>
    have hdone : Instr.readRegister ⟨[], endLine⟩ = .ok ((none, false), ⟨[], endLine⟩) := rfl
    rw [collect_done hdone]
    rfl
  | cons t tokens ih =>
    have hne := hs.ne_eof t List.mem_cons_self
    have hread : Instr.readRegister ⟨t :: tokens, endLine⟩ =
        if t.lexeme = .newline ∨ t.lexeme = .eof then .ok ((none, false), ⟨t :: tokens, endLine⟩)
        else .ok ((Instr.regOf? t.lexeme, true), ⟨tokens, endLine⟩) := by
      change (if t.lexeme = .newline ∨ t.lexeme = .eof then _ else _ :
        Parser (Option Operand × Bool)) _ = _
      split
      · rfl
      · rfl
    by_cases hline : t.lexeme = .newline
    · rw [if_pos (.inl hline)] at hread
      have hstop : (t.lexeme != .newline) = false := by simp [hline]
      rw [collect_done hread]
      simp only [List.takeWhile_cons, List.dropWhile_cons, hstop, Bool.false_eq_true, if_false]
      rfl
    · rw [if_neg (not_or.mpr ⟨hline, hne⟩)] at hread
      have hmore : (t.lexeme != .newline) = true := by simpa using hline
      rw [collect_more hread (Nat.lt_succ_self _), ih (hs.of_suffix (List.suffix_cons t tokens))]
      simp only [List.takeWhile_cons, List.dropWhile_cons, hmore, if_true, List.filterMap_cons]
      cases Instr.regOf? t.lexeme with
      | none => rfl
      | some reg => rfl

theorem follows_unknown (name : String) : Follows (unknown name) (Instr.readUnknown name) := by
  intro c s hc
  refine ((follows_register.loop Instr.progresses_readRegister).bind (fun _ => .pure _)
    c s hc).congr ?_
  rw [bind_eq (collect_readRegister hc.regular)]
  rfl

theorem follows_body (mnemonic : String) : Follows (body mnemonic) (Instr.readBody mnemonic) := by
  unfold body
  split
  · exact follows_type.bind fun _ => .pure _
  · exact follows_store
  · exact follows_load
  · exact follows_br
  · exact follows_icmp
  · exact follows_call
  · exact follows_ret
  · exact follows_getelementptr
  · exact follows_bitcast
  · simp only [Instr.readBody, *]
    cases Arith.ofText? mnemonic with
    | some op => exact follows_pair _
    | none => exact follows_unknown _

theorem follows_result : Follows result Instr.readResult := by
  refine Follows.peek.bind fun first => Follows.peekSecond.bind fun second => ?_
  have hnone : Follows (pure (none : Option String)) (pure none) := .pure none
  cases first with
  | localName name =>
    cases second with
    | punct p =>
      cases p with
      | equal => exact Follows.pass.bind fun _ => Follows.pass.bind fun _ => .pure _
      | _ => exact hnone
    | _ => exact hnone
  | _ => exact hnone

theorem follows_instruction : Follows instruction Instr.read :=
  follows_result.bind fun _ => (Follows.skipWhile rfl fun _ _ => rfl).bind fun _ =>
    (Follows.expect _).bind fun _ =>
    (Follows.skipWhile rfl fun _ _ => rfl).bind fun _ => (follows_body _).bind fun _ =>
    follows_skipLine.bind fun _ => .pure _

/-! ## Functions and modules -/

theorem follows_statement (function : String) :
    Follows (statement function) (Statement.read function) := by
  refine follows_skipNewlines.bind fun _ => Follows.peekSecond.bind fun second =>
    Follows.peek.bind fun first => ?_
  have hlabel (name : String) := Follows.pass.bind fun _ => Follows.pass.bind fun _ =>
    Follows.pure (some (Statement.label name), true)
  have hinstr := follows_instruction.bind fun i => Follows.pure (some (Statement.instr i), true)
  generalize (second == .punct .colon) = labelled
  cases first with
  | punct p =>
    cases p with
    | rightBrace => exact Follows.pass.bind fun _ => .pure _
    | _ => exact hinstr
  | eof => exact .fail _
  | word name =>
    cases labelled with
    | true => exact hlabel name
    | false => exact hinstr
  | integer name =>
    cases labelled with
    | true => exact hlabel name
    | false => exact hinstr
  | _ => exact hinstr

theorem follows_param : Follows param Param.read :=
  follows_type.bind fun _ => (Follows.skipWhile rfl fun _ _ => rfl).bind fun _ =>
    (Follows.expect _).bind fun _ =>
    .pure _

theorem follows_function : Follows function Function.read := by
  refine Follows.pass.bind fun _ => (Follows.skipWhile rfl fun _ _ => rfl).bind fun _ =>
    follows_type.bind fun ret =>
    (Follows.expect _).bind fun name => (Follows.expectPunct _).bind fun _ =>
    (follows_listUpTo _ follows_param Param.passes_read).bind fun params => ?_
  refine follows_seek rfl (fun l hl => ?_) (fun l hl => ?_) fun l s hl heof => ?_
  · rw [beq_false_of_ne hl, Bool.not_false, Bool.and_true]
    rfl
  · have hne : l ≠ .eof := by
      rintro rfl
      cases hl
    rw [if_neg hne]
    exact Follows.pass.bind fun _ =>
      ((follows_statement name).loop (Statement.progresses_read name)).bind fun _ => .pure _
  · rw [if_pos (beq_iff_eq.mp heof)]
    rfl

/-- Passing the first token of a line changes nothing about the rest of it. -/
theorem skipLine_tail (hs : s.Regular) (heof : s.next.lexeme ≠ .eof)
    (h : s.next.lexeme ≠ .newline) : Parser.skipLine s.tail = Parser.skipLine s := by
  rw [Parser.skipLine, Parser.skipWhile_eq _ hs, if_pos ⟨heof, by simpa using h⟩]

theorem follows_zero (name : String) (ty : Ty) : Follows (do
    let value ← advance
    if Global.isZero value.lexeme then
      skipLine
      return ({ name, ty } : Global)
    else
      failAt value (.nonzeroGlobal name value.lexeme)) (do
    let value ← Parser.peek
    if Global.isZero value then
      Parser.skipLine
      return { name, ty }
    else
      Parser.fail (.nonzeroGlobal name value)) := by
  intro c s hc
  refine .of_advance hc fun c' hc' => ?_
  rw [bind_eq rfl]
  split
  · next hzero =>
    have hne {l : Lexeme} (hl : Global.isZero l = false) : s.next.lexeme ≠ l := by
      rintro rfl
      rw [hzero] at hl
      cases hl
    refine ((follows_skipLine c' s.tail hc').bind fun _ s₁ c₁ _ hc₁ =>
      Follows.pure _ c₁ s₁ hc₁).congr ?_
    rw [bind_pure_eq, bind_pure_eq, skipLine_tail hc.regular (hne rfl) (hne rfl)]
  · exact agrees_failAt rfl

/-- A global definition is read where its name stands. -/
theorem agrees_global (hc : c.Views s) (h : s.next.lexeme.kind = .globalName) :
    Agrees c s global Global.read := by
  refine .of_advance hc fun c' hc' => ?_
  have hname : Global.read s = _ := expect_bind .globalName _ s
  rw [hname, if_pos h]
  generalize s.next.lexeme.text = name
  refine Agrees.const (Follows.bind (.expectPunct _) (fun _ => ?_) c' s.tail hc')
  refine follows_seek rfl (fun l _ => ?_) (fun l hl => ?_) fun l s hl hbad => ?_
  · cases l with
    | word w =>
      have hword (v : String) : (Lexeme.word w == .word v) = (w == v) := by
        rw [Bool.eq_iff_iff, beq_iff_eq, beq_iff_eq, Lexeme.word.injEq]
      rw [hword, hword, Bool.not_or]
      exact (Bool.and_true _).symm
    | _ => rfl
  · have hkind : l.kind = .word := by
      rcases Bool.or_eq_true_iff.mp hl with hl | hl
      · rw [beq_iff_eq.mp hl]; rfl
      · rw [beq_iff_eq.mp hl]; rfl
    rw [if_neg (not_not.mpr hkind)]
    exact Follows.pass.bind fun _ => follows_type.bind fun ty => follows_zero name ty
  · rw [if_pos (bne_iff_ne.mp hbad)]
    rfl

/-- What `Module.Item.read` does in front of `l`. -/
def readItemAt (l : Lexeme) : Parser (Option Module.Item × Bool) :=
  match l with
  | .eof => return (none, false)
  | .globalName _ => return (some (.global (← Global.read)), true)
  | .word "define" => return (some (.function (← Function.read)), true)
  | .word "target" | .word "source_filename" | .word "declare" | .word "attributes" => do
    Parser.skipLine
    return (none, true)
  | _ => Parser.fail (.topLevel l)

theorem agrees_itemAt (l : Lexeme) (hc : c.Views s) (hl : s.next.lexeme = l) :
    Agrees c s (itemAt l) (readItemAt l) := by
  have hskip : Follows (do skipLine; return ((none : Option Module.Item), true))
      (do Parser.skipLine; return (none, true)) := follows_skipLine.bind fun _ => .pure _
  unfold itemAt
  split
  · exact Follows.pure _ c s hc
  · exact (agrees_global hc (by rw [hl]; rfl)).bind fun _ s' c' _ hc' => Follows.pure _ c' s' hc'
  · exact follows_function.bind (fun _ => .pure _) c s hc
  · exact hskip c s hc
  · exact hskip c s hc
  · exact hskip c s hc
  · exact hskip c s hc
  · simp only [readItemAt, *]
    exact Follows.fail _ c s hc

theorem follows_item : Follows item Module.Item.read := by
  refine follows_skipNewlines.bind fun _ c s hc => ?_
  refine (Follows.peek c s hc).bind fun l s' c' hs' hc' => ?_
  cases hs'
  exact agrees_itemAt s.next.lexeme hc' rfl

theorem follows_definitions : Follows definitions Module.read :=
  (follows_item.loop Module.Item.progresses_read).bind fun _ => .pure _

end Descent

end IrAsm
