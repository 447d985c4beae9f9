/-!
# Configuration

What a compilation can be asked to do.
-/

namespace IrAsm

structure Config where
  /-- Fold constants, resolve branches on known conditions, save only the registers in use, and run
  the peephole passes. -/
  optimize : Bool := true
  /-- The number of registers to color with. -/
  registers : Nat := 8
  /-- Put the text of each instruction in a comment before its code. -/
  annotate : Bool := false
  /-- The name for the `.file` directive, which is left out if there is none. -/
  fileName : Option String := none
  deriving DecidableEq, Repr

end IrAsm
