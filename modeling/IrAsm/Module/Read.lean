import IrAsm.Instr.Read
import IrAsm.Module

/-!
# Reading modules

`Module.parse` reads a source text: global definitions, function definitions, and lines that are
passed over. A function body is a list of statements, block labels and instructions, that
`Block.group` puts into blocks.
-/

namespace IrAsm

/-- A line of a function body. -/
inductive Statement where
  | label (name : String)
  | instr (i : Instr)
  deriving DecidableEq, Repr

/-- The instructions before the first label. -/
def Statement.leading : List Statement → List Instr
  | .instr i :: rest => i :: leading rest
  | _ => []

/-- The blocks that start with a label: each holds the instructions up to the next label. -/
def Block.labelled : List Statement → List Block
  | [] => []
  | .label name :: rest => ⟨some name, Statement.leading rest⟩ :: labelled rest
  | .instr _ :: rest => labelled rest

/-- Groups statements into blocks. Instructions before the first label make up a block without a
label. -/
def Block.group (body : List Statement) : List Block :=
  let start := Statement.leading body
  if start.isEmpty then labelled body else ⟨none, start⟩ :: labelled body

/-- Reads one statement, or the brace that closes the body. -/
def Statement.read (function : String) : Parser (Option Statement × Bool) := do
  Parser.skipNewlines
  let labelled := (← Parser.peekSecond) == .punct .colon
  match ← Parser.peek, labelled with
  | .punct .rightBrace, _ =>
    Parser.advance
    return (none, false)
  | .eof, _ => Parser.fail (.unterminatedBody function)
  | .word name, true | .integer name, true =>
    Parser.advance
    Parser.advance
    return (some (.label name), true)
  | _, _ => return (some (.instr (← Instr.read)), true)

/-- Reads `T %name`, with attributes between them. -/
def Param.read : Parser Param := do
  let ty ← Ty.read
  Parser.skipWhile (·.kind == .word)
  return { name := ← Parser.expect .localName, ty }

/-- Reads a function from its `define` to the brace that closes it. -/
def Function.read : Parser Function := do
  Parser.advance
  Parser.skipWhile Instr.isQualifier
  let ret ← Ty.read
  let name ← Parser.expect .globalName
  Parser.expectPunct .leftParen
  let params ← Parser.listUpTo .rightParen Param.read
  Parser.skipWhile (· != .punct .leftBrace)
  if (← Parser.peek) = .eof then
    Parser.fail (.missingBody name)
  Parser.advance
  let body ← Parser.collect (Statement.read name)
  return { name, ret, params, blocks := Block.group body }

/-- Does the lexeme stand for a zero value? -/
def Global.isZero : Lexeme → Bool
  | .integer digits => (Word.ofText digits).toOption == some 0
  | .word w => w == "zeroinitializer" || w == "null" || w == "false"
  | _ => false

/-- A word of a global definition before its keyword. -/
def Global.isLinkage : Lexeme → Bool
  | .word w => w != "global" && w != "constant"
  | _ => false

/-- Reads `@name = … global T zero` up to the end of its line. -/
def Global.read : Parser Global := do
  let name ← Parser.expect .globalName
  Parser.expectPunct .equal
  Parser.skipWhile isLinkage
  if (← Parser.peek).kind ≠ .word then
    Parser.fail (.expectedGlobal name)
  Parser.advance
  let ty ← Ty.read
  let value ← Parser.peek
  if isZero value then
    Parser.skipLine
    return { name, ty }
  else
    Parser.fail (.nonzeroGlobal name value)

namespace Module

/-- A definition at the top level. -/
inductive Item where
  | global (g : Global)
  | function (f : Function)
  deriving DecidableEq, Repr

def Item.global? : Item → Option Global
  | .global g => some g
  | .function _ => none

def Item.function? : Item → Option Function
  | .global _ => none
  | .function f => some f

/-- Reads one definition, or passes a line that defines nothing. -/
def Item.read : Parser (Option Item × Bool) := do
  Parser.skipNewlines
  let l ← Parser.peek
  match l with
  | .eof => return (none, false)
  | .globalName _ => return (some (.global (← Global.read)), true)
  | .word "define" => return (some (.function (← Function.read)), true)
  | .word "target" | .word "source_filename" | .word "declare" | .word "attributes" =>
    Parser.skipLine
    return (none, true)
  | _ => Parser.fail (.topLevel l)

/-- Reads all definitions. -/
def read : Parser Module := do
  let items ← Parser.collect Item.read
  return { globals := items.filterMap Item.global?, functions := items.filterMap Item.function? }

/-- The module of a source text. -/
def parse (source : String) : Except ParseError Module := do
  let s ← TokenStream.scan source
  let (m, _) ← read s
  return m

end Module

end IrAsm
