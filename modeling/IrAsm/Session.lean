import IrAsm.CommandLine
import IrAsm.Compile
import IrAsm.FileTree
import IrAsm.Module.Read

/-!
# Sessions

A run of the program: arguments in, files read and written, text for the terminal out. The files are
behind `Files`, so that a session can work on a disk or on a `FileTree`.
-/

namespace IrAsm

/-- Access to files. -/
structure Files (m : Type → Type) where
  read : Path → m (Except FileFault ByteArray)
  write : Path → String → m (Except FileFault Unit)
  /-- Makes one directory. -/
  makeDir : Path → m (Except FileFault Unit)
  isDir : Path → m Bool

/-- Makes a directory and those above it that are missing. -/
def Files.makeDirs {m : Type → Type} [Monad m] (files : Files m) (p : Path) :
    m (Except FileFault Unit) := do
  if _h : p.parts = [] then
    return .ok ()
  else
    let unlessThere (fault : FileFault) : m (Except FileFault Unit) := do
      return if ← files.isDir p then .ok () else .error fault
    match ← files.makeDir p with
    | .ok () => return .ok ()
    | .error .notFound =>
      match ← files.makeDirs p.parent with
      | .error fault => return .error fault
      | .ok () =>
        match ← files.makeDir p with
        | .ok () => return .ok ()
        | .error fault => unlessThere fault
    | .error fault => unlessThere fault
termination_by p.parts.length
decreasing_by exact Path.length_parent_lt _h

namespace Session

/-- A path that the system takes. -/
def pathOf (s : String) : Except FileFault Path :=
  if s.toList.contains '\x00' then .error .nullInName
  else if Path.maxBytes < s.utf8ByteSize then .error .nameTooLong
  else .ok (Path.parse s)

section
variable {m : Type → Type} [Monad m]

/-- An operation on the file at `path` as a step of a session. -/
def fileStep {α : Type} (path : String) (act : Path → m (Except FileFault α)) :
    ExceptT Error m α := do
  let p ← (pathOf path).mapError Error.file
  ExceptT.mk do return (← act p).mapError Error.file

/-- The text of the input. -/
def readSource (files : Files m) (path : String) : ExceptT Error m String := do
  let bytes ← fileStep path files.read
  match String.fromUTF8? bytes with
  | some text => return text
  | none => throw (.file .invalidUtf8)

/-- Writes the graph and the coloring of a function. -/
def writeReport (files : Files m) (dir : String) (r : Report) : ExceptT Error m Unit := do
  fileStep (Path.join dir (r.function ++ ".dot")) (files.write · r.dot)
  fileStep (Path.join dir (r.function ++ ".txt")) (files.write · r.summary)

def writeReports (files : Files m) (dir : String) (reports : List Report) :
    ExceptT Error m Unit := do
  fileStep dir files.makeDirs
  reports.forM (writeReport files dir)

/-- Compiles as the options say, and gives the text for the standard output. -/
def execute (files : Files m) (o : Options) : ExceptT Error m String := do
  let source ← readSource files o.input
  let parsed ← (Module.parse source).mapError Error.parse
  if o.arch ≠ "x86_64" then
    throw (.config (.architecture o.arch))
  let compilation ← parsed.compile o.config
  if let some dir := o.graphDir then
    writeReports files dir compilation.reports
  match o.output with
  | some path =>
    fileStep path (files.write · compilation.assembly)
    return ""
  | none => return compilation.assembly

end

/-- How a session ends. -/
inductive Outcome where
  | usage (fault : UsageFault)
  | failed (e : Error)
  | done (stdout : String)

namespace Outcome

/-- The exit code. -/
def exitCode : Outcome → Nat
  | .usage .help => 0
  | .usage _ => 2
  | .failed _ => 1
  | .done _ => 0

def stdout : Outcome → String
  | .done text => text
  | _ => ""

/-- The message on the standard error, apart from the usage. -/
def stderr? : Outcome → Option String
  | .usage _ => none
  | .failed e => some ("error: " ++ e.message ++ "\n")
  | .done _ => some ""

end Outcome

/-- Runs the program on its arguments. -/
def run {m : Type → Type} [Monad m] (files : Files m) (argv : List String) : m Outcome :=
  match Options.parse argv with
  | .error fault => return .usage fault
  | .ok o => do
    match ← (execute files o).run with
    | .ok text => return .done text
    | .error e => return .failed e

end Session

/-- Replaces the tree, unless there is a fault. -/
def FileTree.commit (r : Except FileFault FileTree) : StateM FileTree (Except FileFault Unit) := do
  match r with
  | .ok t =>
    set t
    return .ok ()
  | .error fault => return .error fault

/-- Access to a file tree. -/
def FileTree.files : Files (StateM FileTree) where
  read p := do return (← get).read p
  write p text := do FileTree.commit ((← get).write p text.toUTF8)
  makeDir p := do FileTree.commit ((← get).makeDir p)
  isDir p := do return (← get).isDir p

/-- Runs the program on a file tree; also gives the tree as it is afterwards. -/
def Session.runOn (t : FileTree) (argv : List String) : Session.Outcome × FileTree :=
  (Session.run FileTree.files argv).run t

end IrAsm
