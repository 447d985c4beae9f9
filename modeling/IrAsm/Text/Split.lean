/-!
# Cutting text

Text cut in two at the first occurrence of a separator.
-/

namespace IrAsm.Text

/-- Cuts at the first occurrence of `sep`: what stands before it and what follows it. -/
def splitAt? (sep : List Char) : List Char → Option (List Char × List Char)
  | [] => if sep.isEmpty then some ([], []) else none
  | c :: cs =>
    if sep.isPrefixOf (c :: cs) then some ([], (c :: cs).drop sep.length)
    else (splitAt? sep cs).map fun (before, after) => (c :: before, after)

end IrAsm.Text
