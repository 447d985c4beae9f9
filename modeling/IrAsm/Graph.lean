import IrAsm.NameSet
import Std.Data.ExtTreeMap

/-!
# Simple undirected graphs over names

A graph keeps the set of neighbors of every node. `addEdge` enters both directions and ignores
loops, so the neighbor relation is symmetric and irreflexive. Nodes and edges are listed in
ascending order.
-/

namespace IrAsm

structure Graph where
  adjacency : Std.ExtTreeMap String NameSet
  deriving DecidableEq

namespace Graph

def empty : Graph := ⟨∅⟩

def addNode (g : Graph) (x : String) : Graph := ⟨g.adjacency.insertIfNew x ∅⟩

/-- The neighbors of `x`; none if `x` is no node. -/
def neighbors (g : Graph) (x : String) : NameSet := g.adjacency.getD x ∅

/-- Adds the edge between `x` and `y`, and both as nodes. A loop adds nothing. -/
def addEdge (g : Graph) (x y : String) : Graph :=
  if x = y then g
  else
    ⟨(g.adjacency.insert x ((g.neighbors x).insert y)).insert y ((g.neighbors y).insert x)⟩

/-- Adds several nodes. -/
def addNodes (g : Graph) (names : List String) : Graph := names.foldl addNode g

/-- Adds several edges. -/
def addEdges (g : Graph) (pairs : List (String × String)) : Graph :=
  pairs.foldl (fun g p => g.addEdge p.1 p.2) g

def nodes (g : Graph) : List String := g.adjacency.keys

def hasEdge (g : Graph) (x y : String) : Bool := (g.neighbors x).contains y

def degree (g : Graph) (x : String) : Nat := (g.neighbors x).size

/-- Each edge once, its smaller end first. -/
def edges (g : Graph) : List (String × String) :=
  g.adjacency.toList.flatMap fun (x, ys) => (ys.toList.filter (x < ·)).map (x, ·)

/-- The number of nodes. -/
def size (g : Graph) : Nat := g.adjacency.size

/-- The nodes without neighbors. -/
def isolated (g : Graph) : List String := g.nodes.filter fun x => (g.neighbors x).isEmpty

end Graph

end IrAsm
