import IrAsm.Error
import IrAsm.Path

/-!
# File trees

Files and directories in memory. A path is followed from the top of a tree, part by part and through
directories only, to a `Spot`; what is at the spot can then be read or replaced. The directories
above the top and the root of the system hold nothing but what is put there. They are kept as
entries called `..` and `/`, which no file is called.
-/

namespace IrAsm

/-- A file, or a directory with its entries. -/
inductive FileTree where
  | file (bytes : ByteArray)
  | dir (entries : List (String × FileTree))

namespace FileTree

/-- A directory without entries. -/
def empty : FileTree := .dir []

/-- Do two trees hold the same, apart from the entries of directories? -/
def sameTop : FileTree → FileTree → Bool
  | .file a, .file b => a.data == b.data
  | .dir _, .dir _ => true
  | _, _ => false

/-- What is at the end of a list of names from the top. -/
def get? : List String → FileTree → Option FileTree
  | [], t => some t
  | name :: names, .dir entries =>
    match entries.lookup name with
    | some t => t.get? names
    | none => none
  | _ :: _, .file _ => none

/-- Lets `name` stand for `t` among `entries`. -/
def setEntry (name : String) (t : FileTree) (entries : List (String × FileTree)) :
    List (String × FileTree) :=
  if (entries.lookup name).isSome then
    entries.map fun (n, old) => (n, if n = name then t else old)
  else entries ++ [(name, t)]

/-- Puts `new` at the end of a list of names from the top. Directories that are missing are made. -/
def put : FileTree → List String → FileTree → FileTree
  | _, [], new => new
  | .dir entries, name :: names, new =>
    .dir (setEntry name (((entries.lookup name).getD empty).put names new) entries)
  | .file bytes, _ :: _, _ => .file bytes

/-! ## Following paths -/

/-- Where a path has led to. -/
structure Spot where
  /-- The names on the way from the top, the last one first. -/
  names : List String
  /-- What is there. -/
  here : Option FileTree
  /-- The directories on the way, the last one first. -/
  way : List FileTree

namespace Spot

/-- The spot at the top. -/
def top (t : FileTree) : Spot := ⟨[], some t, []⟩

/-- The spot at the root of the system. -/
def root (t : FileTree) : Spot := ⟨["/"], some ((t.get? ["/"]).getD empty), [t]⟩

/-- Looks up what is there. The names before the last have been looked up on the way. -/
def look (s : Spot) : Except FileFault (Option FileTree) :=
  if s.names.head?.any (Path.maxNameBytes < ·.utf8ByteSize) then .error .nameTooLong else .ok s.here

/-- The spot of the directory above the one at `s`, which has the given entries. -/
def up (s : Spot) (entries : List (String × FileTree)) : Spot :=
  match s.names with
  | [] | ".." :: _ =>
    ⟨".." :: s.names, some ((entries.lookup "..").getD empty), .dir entries :: s.way⟩
  | ["/"] => s
  | _ :: names => ⟨names, s.way.head?, s.way.tail⟩

/-- Follows one part of a path, which has to start in a directory. -/
def step (s : Spot) (part : String) : Except FileFault Spot := do
  match ← s.look with
  | none => .error .notFound
  | some (.file _) => .error .notDirectory
  | some (.dir entries) =>
    if part = "." then return s
    else if part = ".." then return s.up entries
    else return ⟨part :: s.names, entries.lookup part, .dir entries :: s.way⟩

end Spot

/-- The spot that a path leads to. -/
def locate (t : FileTree) (p : Path) : Except FileFault Spot :=
  p.parts.foldlM Spot.step (if p.absolute then Spot.root t else Spot.top t)

/-! ## Files and directories -/

/-- The bytes of a file. -/
def read (t : FileTree) (p : Path) : Except FileFault ByteArray := do
  match ← (← t.locate p).look with
  | none => .error .notFound
  | some (.dir _) => .error .isDirectory
  | some (.file bytes) => if p.slash then .error .notDirectory else .ok bytes

/-- Writes a file, in a directory that exists. -/
def write (t : FileTree) (p : Path) (bytes : ByteArray) : Except FileFault FileTree := do
  let spot ← t.locate p
  if p.slash then
    throw .isDirectory
  match ← spot.look with
  | some (.dir _) => .error .isDirectory
  | _ => .ok (t.put spot.names.reverse (.file bytes))

/-- Makes a directory where nothing is, in a directory that exists. -/
def makeDir (t : FileTree) (p : Path) : Except FileFault FileTree := do
  let spot ← t.locate p
  match ← spot.look with
  | some _ => .error .alreadyExists
  | none => .ok (t.put spot.names.reverse empty)

def isDir (t : FileTree) (p : Path) : Bool :=
  match t.locate p >>= Spot.look with
  | .ok (some (.dir _)) => true
  | _ => false

/-- Adds a file, and the directories on the way to it. -/
def addFile (t : FileTree) (path : String) (bytes : ByteArray) : FileTree :=
  t.put ((Path.parse path).parts.filter (· ≠ ".")) (.file bytes)

/-! ## Changes -/

mutual

/-- All that is below a tree at `place`, with the names that lead to it. -/
def list (place : List String) : FileTree → List (List String × FileTree)
  | .file _ => []
  | .dir entries => listEntries place entries

def listEntries (place : List String) :
    List (String × FileTree) → List (List String × FileTree)
  | [] => []
  | (name, t) :: rest =>
    (place ++ [name], t) :: list (place ++ [name]) t ++ listEntries place rest

end

/-- What the tree `after` has that `t` does not have, or has otherwise. -/
def changes (t after : FileTree) : List (List String × FileTree) :=
  (after.list []).filter fun (place, new) =>
    place.head? != some ".." && place.head? != some "/" && !(t.get? place).any new.sameTop

end FileTree

end IrAsm
