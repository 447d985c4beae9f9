import IrAsm.Session

/-!
# The program

Runs a session on the disk.
-/

namespace IrAsm

/-- The fault behind an error of the system. Some operations give the code of an error negated. -/
def FileFault.ofError (e : IO.Error) : FileFault :=
  match e with
  | .noFileOrDirectory .. => .notFound
  | .alreadyExists .. => .alreadyExists
  | .inappropriateType _ code _ => if code = 21 || -code = 21 then .isDirectory else .notDirectory
  | .invalidArgument _ code _ =>
    if code = 36 || -code = 36 then .nameTooLong else .system (toString e)
  | _ => .system (toString e)

/-- Runs an operation of the system and gives its fault, if it fails. -/
def FileFault.catching {α : Type} (x : IO α) : IO (Except FileFault α) := do
  try
    return .ok (← x)
  catch e =>
    return .error (FileFault.ofError e)

/-- Access to the disk. -/
def diskFiles : Files IO where
  read p := FileFault.catching (IO.FS.readBinFile p.text)
  write p text := FileFault.catching (IO.FS.writeFile p.text text)
  makeDir p := FileFault.catching (IO.FS.createDir p.text)
  isDir p := do
    let found ← FileFault.catching do (← IO.FS.realPath p.text).isDir
    return found.toOption.getD false

/-- How the program is called. -/
def usage : String :=
  "Usage: irasm [OPTIONS] <INPUT>\n\n" ++
    "  -o, --output <OUTPUT>        Write the assembly here instead of the standard output\n" ++
    "  -a, --arch <ARCH>            The target architecture [default: x86_64]\n" ++
    "      --no-optimize            Skip folding, branch resolution and the peephole passes\n" ++
    "      --annotate               Precede each instruction's code with its text\n" ++
    "  -r, --registers <REGISTERS>  The number of registers to color with [default: 8]\n" ++
    "      --graph-dir <GRAPH_DIR>  Write each function's graph and coloring here\n" ++
    "  -h, --help                   Print help\n"

end IrAsm

def main (argv : List String) : IO UInt32 := do
  let outcome ← IrAsm.Session.run IrAsm.diskFiles argv
  match outcome with
  | .usage .help => IO.print IrAsm.usage
  | .usage _ => IO.eprint IrAsm.usage
  | _ =>
    IO.print outcome.stdout
    IO.eprint (outcome.stderr?.getD "")
  return UInt32.ofNat outcome.exitCode
