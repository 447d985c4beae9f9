import IrAsm.Config
import IrAsm.Path
import IrAsm.Text.Decimal
import IrAsm.Text.Split

/-!
# Command line

`Options.parse` reads the arguments of the program. Options may stand before and behind the input. A
value follows its option as the next argument, behind `=`, or, for a one-letter option, right behind
the letter. `--` ends the options. A value is looked at only when the next option or the input
comes, or at the end; until then it waits, so that an argument that makes no sense is reported
before a value that does not fit.
-/

namespace IrAsm

structure Options where
  input : String
  output : Option String
  arch : String
  registers : Nat
  noOptimize : Bool
  annotate : Bool
  graphDir : Option String
  deriving DecidableEq, Repr

/-- Why the arguments make no sense, or that help is asked for. -/
inductive UsageFault where
  | help
  | missingInput
  | unknownArgument
  | repeated
  /-- An option has no value, or a path is empty. -/
  | noValue
  /-- The number of registers is no number from one to eight. -/
  | badNumber
  /-- An option that takes no value has one. -/
  | unneededValue
  deriving DecidableEq, Repr

namespace Options

/-- What takes a value. -/
inductive Slot where
  | input
  | output
  | arch
  | registers
  | graphDir
  deriving DecidableEq, Repr

/-- What takes none. -/
inductive Switch where
  | noOptimize
  | annotate
  | help
  deriving DecidableEq, Repr

/-- An option by its long name. -/
def long? : String → Option (Slot ⊕ Switch)
  | "output" => some (.inl .output)
  | "arch" => some (.inl .arch)
  | "registers" => some (.inl .registers)
  | "graph-dir" => some (.inl .graphDir)
  | "no-optimize" => some (.inr .noOptimize)
  | "annotate" => some (.inr .annotate)
  | "help" => some (.inr .help)
  | _ => none

/-- An option by its letter. -/
def short? : Char → Option (Slot ⊕ Switch)
  | 'o' => some (.inl .output)
  | 'a' => some (.inl .arch)
  | 'r' => some (.inl .registers)
  | 'h' => some (.inr .help)
  | _ => none

/-- What an argument is by its form. -/
inductive Argument where
  /-- Ends the options. -/
  | escape
  /-- Written `--name` or `--name=value`. -/
  | long (name : String) (value : Option String)
  /-- Written `-c`, with `rest` right behind the letter. -/
  | short (letter : Char) (rest : List Char)
  | plain

def Argument.ofText (arg : String) : Argument :=
  match arg.toList with
  | ['-', '-'] => .escape
  | '-' :: '-' :: cs =>
    match Text.splitAt? ['='] cs with
    | some (name, value) => .long (String.ofList name) (some (String.ofList value))
    | none => .long (String.ofList cs) none
  | '-' :: c :: cs => .short c cs
  | _ => .plain

/-- The value right behind a letter: behind an equals sign if there is one. -/
def attached? : List Char → Option String
  | [] => none
  | '=' :: cs => some (String.ofList cs)
  | cs => some (String.ofList cs)

/-- What was read so far. -/
structure Draft where
  input : Option String := none
  output : Option String := none
  arch : Option String := none
  registers : Option Nat := none
  graphDir : Option String := none
  noOptimize : Bool := false
  annotate : Bool := false
  /-- What is given but not looked at, without its value if that is still to come. -/
  waiting : Option (Slot × Option String) := none

namespace Draft

/-- A path, which must not be empty. -/
def path (value : String) : Except UsageFault String :=
  if value.isEmpty then .error .noValue else .ok value

/-- A number of registers, from one to eight. -/
def registerCount (value : String) : Except UsageFault Nat :=
  match Decimal.signed64 value.toList with
  | .ok n => if 1 ≤ n ∧ n ≤ 8 then .ok n.toNat else .error .badNumber
  | .error _ => .error .badNumber

/-- Refuses what is given already. -/
def once (given : Bool) : Except UsageFault Unit := if given then .error .repeated else .ok ()

def put (d : Draft) (value : String) : Slot → Except UsageFault Draft
  | .input => do return { d with input := ← path value }
  | .output => do
    once d.output.isSome
    return { d with output := ← path value }
  | .arch => do
    once d.arch.isSome
    return { d with arch := value }
  | .registers => do
    once d.registers.isSome
    return { d with registers := ← registerCount value }
  | .graphDir => do
    once d.graphDir.isSome
    return { d with graphDir := ← path value }

/-- Takes what waits. -/
def settle (d : Draft) : Except UsageFault Draft :=
  match d.waiting with
  | none => .ok d
  | some (_, none) => .error .noValue
  | some (slot, some value) => { d with waiting := none }.put value slot

/-- Lets `slot` wait. -/
def await (d : Draft) (slot : Slot) (value : Option String) : Except UsageFault Draft := do
  return { ← d.settle with waiting := some (slot, value) }

/-- Takes what waits, and then `value` for `slot`. -/
def take (d : Draft) (slot : Slot) (value : String) : Except UsageFault Draft := do
  (← d.settle).put value slot

def switch (d : Draft) (s : Switch) : Except UsageFault Draft := do
  let d ← d.settle
  match s with
  | .help => .error .help
  | .noOptimize =>
    once d.noOptimize
    return { d with noOptimize := true }
  | .annotate =>
    once d.annotate
    return { d with annotate := true }

/-- Is there an input already? -/
def hasInput (d : Draft) : Bool := d.input.isSome || d.waiting.any (·.1 == .input)

/-- An argument that is no option and no value of one. -/
def positional (d : Draft) (arg : String) : Except UsageFault Draft :=
  if d.hasInput then .error .unknownArgument else d.await .input (some arg)

/-- An option, with its value if that is attached. -/
def option (d : Draft) (value : Option String) : Slot ⊕ Switch → Except UsageFault Draft
  | .inl slot =>
    match value with
    | some v => d.take slot v
    | none => d.await slot none
  | .inr s => if value.isSome then .error .unneededValue else d.switch s

/-- An argument that starts with no dash: the value that is waited for, or the input. -/
def plain (d : Draft) (arg : String) : Except UsageFault Draft :=
  match d.waiting with
  | some (slot, none) => .ok { d with waiting := some (slot, some arg) }
  | _ => d.positional arg

/-- One argument. -/
def argument (d : Draft) (arg : String) : Argument → Except UsageFault Draft
  | .long name value =>
    match long? name with
    | some o => d.option value o
    | none => .error .unknownArgument
  | .short letter rest =>
    match short? letter with
    | some (.inl slot) => d.option (attached? rest) (.inl slot)
    | some (.inr s) => d.switch s
    | none => .error .unknownArgument
  | .plain | .escape => d.plain arg

/-- All arguments, up to the one that ends the options; what follows it is positional. -/
def arguments (d : Draft) : List String → Except UsageFault Draft
  | [] => .ok d
  | arg :: rest =>
    match Argument.ofText arg with
    | .escape => rest.foldlM positional d
    | a => do arguments (← d.argument arg a) rest

/-- The options, with defaults for what is not given. -/
def finish (d : Draft) : Except UsageFault Options := do
  let d ← d.settle
  match d.input with
  | none => .error .missingInput
  | some input => return {
      input
      output := d.output
      arch := d.arch.getD "x86_64"
      registers := d.registers.getD 8
      noOptimize := d.noOptimize
      annotate := d.annotate
      graphDir := d.graphDir }

end Draft

/-- Reads the arguments, the name of the program not among them. -/
def parse (argv : List String) : Except UsageFault Options := do
  (← Draft.arguments {} argv).finish

/-- The configuration that the options ask for. -/
def config (o : Options) : Config where
  optimize := !o.noOptimize
  registers := o.registers
  annotate := o.annotate
  fileName := Path.fileName? o.input

end Options

end IrAsm
