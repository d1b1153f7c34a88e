import Inlining.Graph.Basic

/-!
# Strongly connected components

Two nodes belong to the same component if each can be reached from the other. The components are
found by one depth-first search that numbers nodes as it discovers them and tracks, for every node,
the lowest number that its subtree reaches among the nodes still without a component. A node that
reaches none below its own completes a component.

The search keeps its own path from the root to the node at hand: it is a sequence of small steps,
and each step either uses up an edge or leaves a node. That bounds their number by `Graph.work`,
whatever the depth of the graph.

## Main definitions

* `Search` — the state of the search, and `Search.step`, one step of it
* `Graph.components` — the components: if an edge leads from one component to another, the component
  of its target comes first
-/

namespace Inlining

/-- A node on the path, with the successors still to look at. -/
structure Visit where
  node : Nat
  pending : List Nat

/-- The state of the search. -/
structure Search where
  /-- The number under which each node was discovered. -/
  number : Array (Option Nat)
  /-- The lowest number reached from each node's subtree. -/
  lowest : Array Nat
  /-- Whether a node is discovered and without a component. -/
  waiting : Array Bool
  /-- The nodes that wait for their component, the last one discovered first. -/
  stack : List Nat := []
  /-- The path from the node at hand back to the root. -/
  path : List Visit := []
  /-- The number for the next node. -/
  next : Nat := 0
  /-- The components completed so far, the last one first. -/
  completed : List (List Nat) := []

namespace Search

variable {ν ε : Type}

/-- The search before its first step. -/
def start (count : Nat) : Search where
  number := Array.replicate count none
  lowest := Array.replicate count 0
  waiting := Array.replicate count false

/-- Whether a node exists and has not been discovered. -/
def isFresh (s : Search) (node : Nat) : Bool := s.number[node]? == some none

/-- The lowest number reached from a node. -/
def lowestOf (s : Search) (node : Nat) : Nat := s.lowest[node]?.getD 0

/-- Notes that a node's subtree reaches the given number. -/
def lower (s : Search) (node number : Nat) : Search :=
  { s with lowest := s.lowest.modify node (min number) }

/-- Discovers a node, which becomes the one at hand. -/
def discover (g : Graph ν ε) (node : Nat) (s : Search) : Search :=
  { s with
    number := s.number.setIfInBounds node (some s.next)
    lowest := s.lowest.setIfInBounds node s.next
    waiting := s.waiting.setIfInBounds node true
    stack := node :: s.stack
    path := { node, pending := g.successors node } :: s.path
    next := s.next + 1 }

/-- Takes the nodes down to the given one off the stack; they are a component. -/
def complete (s : Search) (root : Nat) : Search :=
  let members := s.stack.takeWhile (· != root) ++ [root]
  { s with
    waiting := members.foldl (fun w v => w.setIfInBounds v false) s.waiting
    stack := (s.stack.dropWhile (· != root)).tail
    completed := members :: s.completed }

/-- Follows an edge: a fresh target is discovered, and one that waits is reached. -/
def follow (g : Graph ν ε) (node target : Nat) (s : Search) : Search :=
  match s.number[target]? with
  | some none => s.discover g target
  | some (some number) => if s.waiting[target]? == some true then s.lower node number else s
  | none => s

/-- Leaves a node: what it reaches, the node before it on the path reaches too, and if that is
nothing older than itself, its component is complete. -/
def backtrack (node : Nat) (s : Search) : Search :=
  let lowest := s.lowestOf node
  let t := match s.path with
    | outer :: _ => s.lower outer.node lowest
    | [] => s
  if s.number[node]? == some (some lowest) then t.complete node else t

/-- One step of the search, at the node at hand. -/
def step (g : Graph ν ε) (s : Search) : Search :=
  match s.path with
  | [] => s
  | { node, pending := [] } :: outer => backtrack node { s with path := outer }
  | { node, pending := target :: pending } :: outer =>
    follow g node target { s with path := { node, pending } :: outer }

/-- Steps until the path is empty, at most as often as given. -/
def run (g : Graph ν ε) : Nat → Search → Search
  | 0, s => s
  | n + 1, s => if s.path.isEmpty then s else run g n (step g s)

end Search

namespace Graph

variable {ν ε : Type}

/-- A bound on the steps of the whole search: every node is left once, and every edge is used
once. -/
def work (g : Graph ν ε) : Nat := g.nodes.size + g.edges.size

/-- Searches all that can be reached from a node, if it is fresh. -/
def explore (g : Graph ν ε) (s : Search) (root : Nat) : Search :=
  if s.isFresh root then (s.discover g root).run g g.work else s

/-- The strongly connected components. -/
def components (g : Graph ν ε) : List (List Nat) :=
  ((List.range g.nodes.size).foldl g.explore (.start g.nodes.size)).completed.reverse

end Graph

end Inlining
