import Inlining.Update

/-!
# Directed graphs

A graph keeps its nodes and edges in the order in which they were added; both are known by their
positions, and self loops and parallel edges are allowed. For every node the graph also keeps the
positions of the edges that leave it, so that successors come out in the order of insertion without
a search through all edges.

## Main definitions

* `Graph.addNode`, `Graph.addEdge` — growing a graph
* `Graph.successors`, `Graph.hasEdge` — reading it
-/

namespace Inlining

/-- A directed edge and what is written on it. -/
structure Edge (ε : Type) where
  source : Nat
  target : Nat
  value : ε

/-- A directed graph with values on nodes and edges. -/
structure Graph (ν ε : Type) where
  nodes : Array ν := #[]
  edges : Array (Edge ε) := #[]
  /-- For each node the positions of the edges that leave it. -/
  outgoing : Array (Array Nat) := #[]

namespace Graph

variable {ν ε : Type}

/-- The graph without nodes. -/
def empty : Graph ν ε := {}

/-- Adds a node and returns its number. -/
def addNode (g : Graph ν ε) (value : ν) : Nat × Graph ν ε :=
  (g.nodes.size,
    { g with nodes := g.nodes.push value, outgoing := g.outgoing.push #[] })

/-- The graph with one more edge between nodes that exist. -/
def attach (g : Graph ν ε) (source target : Nat) (value : ε) : Graph ν ε :=
  { g with
    edges := g.edges.push { source, target, value }
    outgoing := g.outgoing.modify source (·.push g.edges.size) }

/-- Adds an edge. Both ends must exist; of two missing ends the source is reported. -/
def addEdge (source target : Nat) (value : ε) : Update (Graph ν ε) Unit := do
  let count := (← get).nodes.size
  if count ≤ source then
    throw (.inconsistent (.missingSource ⟨source⟩ count))
  else if count ≤ target then
    throw (.inconsistent (.missingTarget ⟨target⟩ count))
  else
    modify fun g => g.attach source target value

theorem addEdge_apply (g : Graph ν ε) (source target : Nat) (value : ε) :
    addEdge source target value g =
      if g.nodes.size ≤ source then
        .error (.inconsistent (.missingSource ⟨source⟩ g.nodes.size)) g
      else if g.nodes.size ≤ target then
        .error (.inconsistent (.missingTarget ⟨target⟩ g.nodes.size)) g
      else .ok ⟨⟩ (g.attach source target value) := by
  simp [addEdge]

/-- Changes what is written on a node, if the node exists. -/
def modifyNode (g : Graph ν ε) (node : Nat) (f : ν → ν) : Graph ν ε :=
  { g with nodes := g.nodes.modify node f }

/-- The targets of the edges that leave a node, in the order of insertion. -/
def successors (g : Graph ν ε) (node : Nat) : List Nat :=
  (g.outgoing[node]?.getD #[]).toList.filterMap fun e => g.edges[e]?.map Edge.target

/-- Whether an edge leads from one node to another. -/
def hasEdge (g : Graph ν ε) (source target : Nat) : Bool :=
  (g.successors source).contains target

/-- The graph with an edge between two nodes, added unless there is one. Nothing happens if an end
is missing. -/
def link (g : Graph ν ε) (source target : Nat) (value : ε) : Graph ν ε :=
  if g.hasEdge source target then g else (addEdge source target value).after g

/-- Adds an edge between two nodes unless there is one. -/
def connect (source target : Nat) (value : ε) : Update (Graph ν ε) Unit := do
  if (← get).hasEdge source target then return
  addEdge source target value

end Graph

end Inlining
