import IrAsm.Graph.Coloring

/-!
# Reports

What register allocation found for a function: the interference graph and its coloring, as a drawing
for Graphviz and as a summary.
-/

namespace IrAsm

structure Report where
  function : String
  graph : Graph
  coloring : Coloring
  deriving DecidableEq

namespace Report

def colorsNeeded (r : Report) : Nat := r.coloring.colorsNeeded

/-- The registers that interfere with none. -/
def isolated (r : Report) : List String := r.graph.isolated

/-- The line of a node in the drawing; a node that is not colored has a dash. -/
def nodeLine (r : Report) (node : String) : String :=
  let color := match r.coloring.get? node with
    | some n => toString n
    | none => "-"
  "  \"" ++ node ++ "\" [label=\"" ++ node ++ " (" ++ color ++ ")\"];\n"

def edgeLine (e : String × String) : String := "  \"" ++ e.1 ++ "\" -- \"" ++ e.2 ++ "\";\n"

/-- The graph in the language of Graphviz, each node with its color. -/
def dot (r : Report) : String :=
  "graph \"" ++ r.function ++ "\" \x7b\n" ++ String.join (r.graph.nodes.map r.nodeLine) ++
    String.join (r.graph.edges.map edgeLine) ++ "\x7d\n"

def colorLine (p : String × Nat) : String := "  " ++ p.1 ++ " -> " ++ toString p.2 ++ "\n"

/-- The coloring in words. -/
def summary (r : Report) : String :=
  let single := if r.isolated.isEmpty then "(none)" else ", ".intercalate r.isolated
  "function " ++ r.function ++ "\ncolors needed: " ++ toString r.colorsNeeded ++ "\ncoloring:\n" ++
    String.join (r.coloring.toList.map colorLine) ++ "single nodes: " ++ single ++ "\n"

end Report

end IrAsm
