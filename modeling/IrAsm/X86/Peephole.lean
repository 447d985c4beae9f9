import IrAsm.Text.Blank
import IrAsm.Text.Split
import IrAsm.X86.Code

/-!
# Peephole passes

Two passes delete lines: moves from a place to itself, and jumps right behind a jump, comments
apart. They see no more of a line than its `Shape`, so they work on lines of code and on lines of
text alike.
-/

namespace IrAsm.X86

namespace Peephole

/-- What the passes see of a line. -/
inductive Shape where
  | comment
  | jump
  | selfMove
  | other
  deriving DecidableEq, Repr

/-- The passes. -/
inductive Pass where
  | moves
  | branches
  deriving DecidableEq, Repr

section
variable {α : Type} (shape : α → Shape)

/-- Drops moves from a place to itself. -/
def dropSelfMoves (lines : List α) : List α := lines.filter (shape · ≠ .selfMove)

/-- Drops jumps that can only be reached through a jump. `afterJump` says whether the last line that
was no comment is one. -/
def collapseJumps (afterJump : Bool) : List α → List α
  | [] => []
  | line :: rest =>
    match shape line, afterJump with
    | .comment, _ => line :: collapseJumps afterJump rest
    | .jump, true => collapseJumps true rest
    | .jump, false => line :: collapseJumps true rest
    | _, _ => line :: collapseJumps false rest

def Pass.run (p : Pass) (lines : List α) : List α :=
  match p with
  | .moves => dropSelfMoves shape lines
  | .branches => collapseJumps shape false lines

/-- Runs passes one after another. -/
def run (passes : List Pass) (lines : List α) : List α :=
  passes.foldl (fun lines p => p.run shape lines) lines

theorem length_dropSelfMoves_le (lines : List α) :
    (dropSelfMoves shape lines).length ≤ lines.length := List.length_filter_le _ _

theorem length_collapseJumps_le (afterJump : Bool) (lines : List α) :
    (collapseJumps shape afterJump lines).length ≤ lines.length := by
  induction lines generalizing afterJump with
  | nil => simp [collapseJumps]
  | cons line rest ih =>
    unfold collapseJumps
    split <;> simp only [List.length_cons]
    · exact Nat.succ_le_succ (ih _)
    · exact Nat.le_succ_of_le (ih _)
    · exact Nat.succ_le_succ (ih _)
    · exact Nat.succ_le_succ (ih _)

/-- Both passes, once. -/
def round (lines : List α) : List α := collapseJumps shape false (dropSelfMoves shape lines)

theorem length_round_le (lines : List α) : (round shape lines).length ≤ lines.length :=
  Nat.le_trans (length_collapseJumps_le ..) (length_dropSelfMoves_le ..)

/-- Runs both passes until they delete nothing more. -/
def runAll (lines : List α) : List α :=
  if (round shape lines).length = lines.length then round shape lines
  else runAll (round shape lines)
termination_by lines.length
decreasing_by
  have := length_round_le shape lines
  omega

end

end Peephole

/-! ## The shape of code -/

/-- The shape of a line of code. -/
def Line.shape : Line → Peephole.Shape
  | .comment _ => .comment
  | .code (.jmp _) | .code (.je _) => .jump
  | .code (.mov src dst) => if src = dst then .selfMove else .other
  | _ => .other

/-! ## The shape of text -/

namespace LineText

/-- A comment is a line whose first character, blanks apart, is `#`. -/
def isComment (line : String) : Bool := (Text.trimLeft line.toList).head? == some '#'

/-- The mnemonic and the operands of an instruction. A line that is indented is none. -/
def instruction? (line : String) : Option (String × String) :=
  match line.toList with
  | [] => none
  | c :: cs =>
    if Text.isBlank c then none
    else
      match Text.splitAt? [' '] (c :: cs) with
      | some (mnemonic, operands) => some (String.ofList mnemonic, String.ofList operands)
      | none => some (line, "")

/-- A jump has a mnemonic that starts with `j`. -/
def isJump (line : String) : Bool :=
  (instruction? line).any fun (mnemonic, _) => mnemonic.toList.head? == some 'j'

/-- A `movq` whose two operands have the same text. -/
def isSelfMove (line : String) : Bool :=
  (instruction? line).any fun (mnemonic, operands) =>
    mnemonic == "movq" &&
      (Text.splitAt? [',', ' '] operands.toList).any fun (src, dst) => src == dst

/-- The shape of a line of text. -/
def shape (line : String) : Peephole.Shape :=
  if isComment line then .comment
  else if isJump line then .jump
  else if isSelfMove line then .selfMove
  else .other

end LineText

end IrAsm.X86
