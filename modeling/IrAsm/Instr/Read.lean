import IrAsm.Instr
import IrAsm.Ty.Read

/-!
# Reading instructions

An instruction is one line. Flags such as `nsw`, call markers such as `tail` and whatever follows
the operands say nothing to this library and are passed over. The registers of an unknown operation
are kept, so that what it reads stays visible to the analyses.
-/

namespace IrAsm

namespace Operand

/-- The words that stand for a constant. -/
def constant? : String → Option Word
  | "null" | "false" | "undef" | "poison" | "zeroinitializer" => some 0
  | "true" => some 1
  | _ => none

/-- Reads a value: a register, a global, an integer or a constant word. -/
def read : Parser Operand := do
  let l ← Parser.peek
  match l with
  | .localName name =>
    Parser.advance
    return .reg name
  | .globalName name =>
    Parser.advance
    return .global name
  | .integer digits =>
    match Word.ofText digits with
    | .ok value =>
      Parser.advance
      return .imm value
    | .error fault => Parser.fail (.numeral fault)
  | .word w =>
    match constant? w with
    | some value =>
      Parser.advance
      return .imm value
    | none => Parser.fail (.expectedValue l)
  | _ => Parser.fail (.expectedValue l)

/-- Reads a branch target, `label %name`. -/
def readLabel : Parser Operand := do
  if ← Parser.atWord "label" then
    Parser.advance
    return .label (← Parser.expect .localName)
  else
    Parser.fail (.expectedLabel (← Parser.peek))

/-- A word that is no value. -/
def isAttribute : Lexeme → Bool
  | .word w => (constant? w).isNone
  | _ => false

end Operand

namespace Instr

/-- Words between an opcode and its type that carry no meaning here. -/
def isFlag (l : Lexeme) : Bool :=
  l == .word "nsw" || l == .word "nuw" || l == .word "exact" || l == .word "inbounds" ||
    l == .word "volatile"

/-- Words before `call` that carry no meaning here. -/
def isCallMarker (l : Lexeme) : Bool :=
  l == .word "tail" || l == .word "musttail" || l == .word "notail"

/-- A word that starts no type. -/
def isQualifier : Lexeme → Bool
  | .word w => !Ty.startsWith (.word w)
  | _ => false

/-- What stands behind the mnemonic: the opcode, the operands and the type. -/
abbrev Body := Opcode × List Operand × Ty

/-- Reads `T a, b`. -/
def readPair (op : Opcode) : Parser Body := do
  let ty ← Ty.read
  let lhs ← Operand.read
  Parser.expectPunct .comma
  let rhs ← Operand.read
  return (op, [lhs, rhs], ty)

/-- Reads `T value, P pointer`. -/
def readStore : Parser Body := do
  let ty ← Ty.read
  let value ← Operand.read
  Parser.expectPunct .comma
  let _ ← Ty.read
  let pointer ← Operand.read
  return (.store, [value, pointer], ty)

/-- Reads `T, P pointer`. -/
def readLoad : Parser Body := do
  let ty ← Ty.read
  Parser.expectPunct .comma
  let _ ← Ty.read
  let pointer ← Operand.read
  return (.load, [pointer], ty)

/-- Reads `label %l`, or `T cond, label %l, label %m`. -/
def readBr : Parser Body := do
  if ← Parser.atWord "label" then
    return (.br, [← Operand.readLabel], .void)
  else
    let _ ← Ty.read
    let cond ← Operand.read
    Parser.expectPunct .comma
    let whenTrue ← Operand.readLabel
    Parser.expectPunct .comma
    let whenFalse ← Operand.readLabel
    return (.br, [cond, whenTrue, whenFalse], .void)

/-- Reads `predicate T a, b`. -/
def readIcmp : Parser Body := do
  let keyword ← Parser.expect .word
  match Predicate.ofText? keyword with
  | some p => readPair (.icmp p)
  | none => Parser.fail (.unknownPredicate keyword)

/-- Reads `T @callee(A a, B b)`; for a function type the type is that of its result. -/
def readCall : Parser Body := do
  Parser.skipWhile isQualifier
  let ty ← Ty.read
  let callee ← Parser.expect .globalName
  Parser.expectPunct .leftParen
  let args ← Parser.listUpTo .rightParen do
    let _ ← Ty.read
    Parser.skipWhile Operand.isAttribute
    Operand.read
  let ty := match ty with
    | .func ret _ => ret
    | _ => ty
  return (.call, args ++ [.callee callee], ty)

/-- Reads `void`, or `T value`. -/
def readRet : Parser Body := do
  if ← Parser.atWord "void" then
    Parser.advance
    return (.ret, [], .void)
  else
    let ty ← Ty.read
    return (.ret, [← Operand.read], ty)

/-- Reads `T, P base, I index, …`. -/
def readGetelementptr : Parser Body := do
  let ty ← Ty.read
  Parser.expectPunct .comma
  let _ ← Ty.read
  let base ← Operand.read
  let indices ← Parser.collect do
    if !(← Parser.eat .comma) then
      return (none, false)
    else if ← Parser.atWord "align" then
      return (none, false)
    else
      let _ ← Ty.read
      return (some (← Operand.read), true)
  return (.getelementptr, base :: indices, ty)

/-- Reads `S value to T`. -/
def readBitcast : Parser Body := do
  let _ ← Ty.read
  let value ← Operand.read
  if ← Parser.atWord "to" then
    Parser.advance
    return (.bitcast, [value], ← Ty.read)
  else
    Parser.fail .expectedTo

/-- The registers in the rest of the line. -/
def readUnknown (name : String) : Parser Body := fun s =>
  let line := s.tokens.takeWhile (·.lexeme != .newline)
  let regs := line.filterMap fun t =>
    match t.lexeme with
    | .localName reg => some (.reg reg)
    | _ => none
  .ok ((.unsupported name, regs, .void),
    { s with tokens := s.tokens.dropWhile (·.lexeme != .newline) })

/-- Reads what stands behind the mnemonic. -/
def readBody (mnemonic : String) : Parser Body :=
  match mnemonic with
  | "alloca" => do return (.alloca, [], ← Ty.read)
  | "store" => readStore
  | "load" => readLoad
  | "br" => readBr
  | "icmp" => readIcmp
  | "call" => readCall
  | "ret" => readRet
  | "getelementptr" => readGetelementptr
  | "bitcast" => readBitcast
  | other =>
    match Arith.ofText? other with
    | some op => readPair (.arith op)
    | none => readUnknown other

/-- Reads `%name =` if it is there. -/
def readResult : Parser (Option String) := do
  match ← Parser.peek, ← Parser.peekSecond with
  | .localName name, .punct .equal =>
    Parser.advance
    Parser.advance
    return some name
  | _, _ => return none

/-- Reads an instruction up to the end of its line. -/
def read : Parser Instr := do
  let result ← readResult
  Parser.skipWhile isCallMarker
  let mnemonic ← Parser.expect .word
  Parser.skipWhile isFlag
  let (opcode, operands, ty) ← readBody mnemonic
  Parser.skipLine
  return { opcode, operands, result, ty }

end Instr

end IrAsm
