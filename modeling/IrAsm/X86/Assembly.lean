import IrAsm.Error

/-!
# Assembly files

The text of an assembly file: the globals, each with storage for its type, and the lines of the
functions.
-/

namespace IrAsm.X86

namespace Assembly

/-- The directive that reserves storage for a type. -/
def directive? : Ty → Option String
  | .int 64 => some ".quad"
  | .int 32 => some ".long"
  | .int 8 => some ".byte"
  | _ => none

/-- The lines of a global. -/
def globalLines (g : Global) : Except Error (List String) :=
  match directive? g.ty with
  | some directive =>
    .ok ["\t.globl\t" ++ g.name, g.name ++ ":", "\t" ++ directive ++ "\t0"]
  | none => .error (.malformed (.storage g))

/-- The lines of a file. -/
def fileLines (fileName : Option String) (globals : List Global) (functions : List (List String)) :
    Except Error (List String) := do
  let file := (fileName.map fun name => "\t.file\t\"" ++ name ++ "\"").toList
  let storage ← globals.mapM globalLines
  return file ++ ["\t.bss"] ++ storage.flatten ++ ["\t.text"] ++ functions.flatten ++
    [".section\t\".note.GNU-stack\",\"\",@progbits"]

/-- The text of a file; every line ends with a line feed. -/
def text (fileName : Option String) (globals : List Global) (functions : List (List String)) :
    Except Error String := do
  let lines ← fileLines fileName globals functions
  return String.join (lines.map (· ++ "\n"))

end Assembly

end IrAsm.X86
