/-!
# Tokens

A token is a lexeme with the line it starts on. Names and strings are kept without their sigils and
quotes. Line ends are tokens, because an instruction ends with its line.
-/

namespace IrAsm

inductive Punct where
  | equal
  | comma
  | colon
  | star
  | leftParen
  | rightParen
  | leftBrace
  | rightBrace
  | leftBracket
  | rightBracket
  deriving DecidableEq, Repr

namespace Punct

def toChar : Punct → Char
  | .equal => '='
  | .comma => ','
  | .colon => ':'
  | .star => '*'
  | .leftParen => '('
  | .rightParen => ')'
  | .leftBrace => '\x7b'
  | .rightBrace => '\x7d'
  | .leftBracket => '['
  | .rightBracket => ']'

def ofChar? : Char → Option Punct
  | '=' => some .equal
  | ',' => some .comma
  | ':' => some .colon
  | '*' => some .star
  | '(' => some .leftParen
  | ')' => some .rightParen
  | '\x7b' => some .leftBrace
  | '\x7d' => some .rightBrace
  | '[' => some .leftBracket
  | ']' => some .rightBracket
  | _ => none

theorem ofChar?_toChar (p : Punct) : ofChar? p.toChar = some p := by cases p <;> rfl

end Punct

/-- The kinds of lexemes. -/
inductive Kind where
  | punct (p : Punct)
  | localName
  | globalName
  | word
  | integer
  | quoted
  | newline
  | eof
  deriving DecidableEq, Repr

/-- The name of a kind in messages. -/
def Kind.name : Kind → String
  | .punct .equal => "Equal"
  | .punct .comma => "Comma"
  | .punct .colon => "Colon"
  | .punct .star => "Star"
  | .punct .leftParen => "LeftParen"
  | .punct .rightParen => "RightParen"
  | .punct .leftBrace => "LeftBrace"
  | .punct .rightBrace => "RightBrace"
  | .punct .leftBracket => "LeftBracket"
  | .punct .rightBracket => "RightBracket"
  | .localName => "LocalIdent"
  | .globalName => "GlobalIdent"
  | .word => "Word"
  | .integer => "Integer"
  | .quoted => "String"
  | .newline => "Newline"
  | .eof => "Eof"

inductive Lexeme where
  | punct (p : Punct)
  /-- Written `%name`. -/
  | localName (name : String)
  /-- Written `@name`. -/
  | globalName (name : String)
  /-- Keywords, type names, labels and attributes. -/
  | word (text : String)
  | integer (text : String)
  | quoted (text : String)
  | newline
  | eof
  deriving DecidableEq, Repr

namespace Lexeme

def kind : Lexeme → Kind
  | .punct p => .punct p
  | .localName _ => .localName
  | .globalName _ => .globalName
  | .word _ => .word
  | .integer _ => .integer
  | .quoted _ => .quoted
  | .newline => .newline
  | .eof => .eof

/-- The text of the lexeme without sigil and quotes. -/
def text : Lexeme → String
  | .punct p => p.toChar.toString
  | .localName s | .globalName s | .word s | .integer s | .quoted s => s
  | .newline | .eof => ""

/-- How a lexeme is shown in messages. -/
def shown : Lexeme → String
  | .punct p => p.toChar.toString
  | .localName s => "%" ++ s
  | .globalName s => "@" ++ s
  | .word s | .integer s => s
  | .quoted s => "\"" ++ s ++ "\""
  | .newline => "newline"
  | .eof => "eof"

end Lexeme

structure Token where
  lexeme : Lexeme
  /-- Lines count from one. -/
  line : Nat
  deriving DecidableEq, Repr

end IrAsm
