/-!
# Paths

A path is a list of parts between slashes. Empty parts carry no meaning.
-/

namespace IrAsm

structure Path where
  /-- The path starts with a slash. -/
  absolute : Bool
  /-- The parts that are not empty; `.` and `..` are among them. -/
  parts : List String
  /-- The path ends with a slash behind its last part. -/
  slash : Bool
  deriving DecidableEq, Repr

namespace Path

def parse (s : String) : Path where
  absolute := s.toList.head? == some '/'
  parts := (s.splitOn "/").filter (· ≠ "")
  slash := s.toList.getLast? == some '/'

/-- The text of a path, with one slash between parts. -/
def text (p : Path) : String :=
  (if p.absolute then "/" else "") ++ "/".intercalate p.parts ++
    (if p.slash && !p.parts.isEmpty then "/" else "")

/-- The bytes that a path can have. -/
def maxBytes : Nat := 4095

/-- The bytes that a name on a path can have. -/
def maxNameBytes : Nat := 255

/-- The parts without `.`, but for one at the start. -/
def plainParts (p : Path) : List String :=
  match p.parts with
  | "." :: rest => "." :: rest.filter (· ≠ ".")
  | parts => parts.filter (· ≠ ".")

/-- The path without its last part. -/
def parent (p : Path) : Path := { p with parts := p.plainParts.dropLast, slash := false }

theorem length_parent_lt {p : Path} (h : p.parts ≠ []) :
    p.parent.parts.length < p.parts.length := by
  have filter_le : ∀ parts : List String, (parts.filter (· ≠ ".")).length ≤ parts.length :=
    fun parts => List.length_filter_le _ _
  have plain_le : p.plainParts.length ≤ p.parts.length := by
    unfold plainParts
    split
    · next rest hr =>
      rw [hr]
      exact Nat.succ_le_succ (filter_le rest)
    · exact filter_le _
  have pos : 0 < p.parts.length := List.length_pos_iff.mpr h
  simp only [parent, List.length_dropLast]
  omega

/-- The name of the file that a path leads to. A path that ends in `..`, or that has no parts but
`.`, names none. -/
def fileName? (s : String) : Option String :=
  (((parse s).parts.filter (· ≠ ".")).getLast?).filter (· ≠ "..")

/-- The path to `name` in the directory `dir`. -/
def join (dir name : String) : String :=
  if name.toList.head? == some '/' then name
  else if dir.toList.getLast? == some '/' then dir ++ name
  else dir ++ "/" ++ name

end Path

end IrAsm
