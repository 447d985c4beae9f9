import IrAsm.Module
import IrAsm.ParseError

/-!
# Errors

Everything that can stop a module from being compiled, and how it is worded. Each error names its
cause; the text is written in one place, `Error.message`.
-/

namespace IrAsm

/-- A rule of well-formed modules that is broken. -/
inductive VerifyFault where
  | repeatedGlobal (name : String)
  | repeatedLabel (label : String)
  | unlabeledBlock
  | noBlocks
  | emptyBlock (block : String)
  | unterminatedBlock (block : String)
  | repeatedResult (name : String)
  | undefinedLabel (label : String)
  | branchShape (i : Instr)
  deriving DecidableEq, Repr

def VerifyFault.message : VerifyFault → String
  | .repeatedGlobal name => "global `@" ++ name ++ "` defined twice"
  | .repeatedLabel label => "label `" ++ label ++ "` defined twice"
  | .unlabeledBlock => "only the entry block may be unlabeled"
  | .noBlocks => "function has no blocks"
  | .emptyBlock block => "block `" ++ block ++ "` is empty"
  | .unterminatedBlock block => "block `" ++ block ++ "` does not end with a terminator"
  | .repeatedResult name => "`%" ++ name ++ "` is defined twice"
  | .undefinedLabel label => "branch to undefined label `" ++ label ++ "`"
  | .branchShape i => "malformed branch `" ++ i.text ++ "`"

/-- An instruction or a global that has no meaning. -/
inductive MalformedFault where
  | undefinedLabel (label function : String)
  | missingOperand (i : Instr) (n : Nat)
  | missingResult (i : Instr)
  | notValue (a : Operand) (function : String)
  | notAddress (a : Operand) (function : String)
  | slotAsValue (name function : String)
  | branchShape (i : Instr) (function : String)
  | callTarget (i : Instr)
  | addressShape (i : Instr)
  | storage (g : Global)
  deriving DecidableEq, Repr

def MalformedFault.message : MalformedFault → String
  | .undefinedLabel label function =>
    "branch to undefined label `" ++ label ++ "` in `" ++ function ++ "`"
  | .missingOperand i n => "`" ++ i.text ++ "` is missing operand " ++ toString n
  | .missingResult i => "`" ++ i.text ++ "` needs a result"
  | .notValue a function => "`" ++ a.text ++ "` used as a value in `" ++ function ++ "`"
  | .notAddress a function => "`" ++ a.text ++ "` used as an address in `" ++ function ++ "`"
  | .slotAsValue name function =>
    "stack slot %" ++ name ++ " used as a value in `" ++ function ++ "`"
  | .branchShape i function => "malformed branch `" ++ i.text ++ "` in `" ++ function ++ "`"
  | .callTarget i => "call without a target: `" ++ i.text ++ "`"
  | .addressShape i => "unsupported address computation `" ++ i.text ++ "`"
  | .storage g => "global @" ++ g.name ++ " has unsupported storage type `" ++ g.ty.text ++ "`"

/-- A property that instruction selection relies on and did not find. -/
inductive InternalFault where
  | noRegister (name : String)
  /-- The block taken when the condition holds is not the next one. -/
  | noFallThrough (point : Nat) (label : String)
  deriving DecidableEq, Repr

def InternalFault.message : InternalFault → String
  | .noRegister name => "no register assigned to %" ++ name
  | .noFallThrough point label =>
    "conditional branch at point " ++ toString point ++ " must fall through to `" ++ label ++ "`"

inductive ConfigFault where
  | registers (requested available : Nat)
  | architecture (name : String)
  deriving DecidableEq, Repr

def ConfigFault.message : ConfigFault → String
  | .registers requested available =>
    toString requested ++ " registers requested, the target has 1 to " ++ toString available
  | .architecture name => "unknown architecture `" ++ name ++ "`"

/-- Why a file cannot be read or written. -/
inductive FileFault where
  | notFound
  | alreadyExists
  | notDirectory
  | isDirectory
  /-- A path, or a name on it, is longer than the system takes. -/
  | nameTooLong
  /-- A path has a null character in it. -/
  | nullInName
  | invalidUtf8
  /-- Any other, in the words of the system. -/
  | system (text : String)
  deriving DecidableEq, Repr

def FileFault.message : FileFault → String
  | .notFound => "No such file or directory (os error 2)"
  | .alreadyExists => "File exists (os error 17)"
  | .notDirectory => "Not a directory (os error 20)"
  | .isDirectory => "Is a directory (os error 21)"
  | .nameTooLong => "File name too long (os error 36)"
  | .nullInName => "file name contained an unexpected NUL byte"
  | .invalidUtf8 => "stream did not contain valid UTF-8"
  | .system text => text

inductive Error where
  | parse (e : ParseError)
  | verify (function : String) (fault : VerifyFault)
  | malformed (fault : MalformedFault)
  | unsupported (function opcode : String)
  /-- No coloring was found: each register in `stuck` has too many neighbors among them. -/
  | infeasible (function : String) (registers : Nat) (stuck : List String)
  | internal (function : String) (fault : InternalFault)
  | config (fault : ConfigFault)
  | file (fault : FileFault)
  /-- A branch leads past the last program point. No verified function does that. -/
  | branchPastEnd (function : String)
  deriving DecidableEq, Repr

/-- The text of an error. -/
def Error.message : Error → String
  | .parse e => "parse error at line " ++ toString e.line ++ ": " ++ e.fault.message
  | .verify function fault =>
    "verification failed in `" ++ function ++ "`: " ++ fault.message
  | .malformed fault => "malformed input: " ++ fault.message
  | .unsupported function opcode =>
    "unsupported operation `" ++ opcode ++ "` in function `" ++ function ++ "`"
  | .infeasible function registers stuck =>
    "register allocation infeasible for `" ++ function ++ "` with " ++ toString registers ++
      " registers (stuck on: " ++ ", ".intercalate stuck ++ ")"
  | .internal function fault =>
    "internal consistency violation in `" ++ function ++ "`: " ++ fault.message
  | .config fault => "invalid configuration: " ++ fault.message
  | .file fault => fault.message
  | .branchPastEnd function => "a branch leads past the end of `" ++ function ++ "`"

end IrAsm
