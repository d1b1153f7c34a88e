import Inlining.Graph.Components
import Inlining.Snapshot

/-!
# Call graphs

Nodes are the functions of a program, and an edge says that one calls another at least once. A
function is recursive if it lies on a cycle of calls.

A snapshot may list a function more than once. Each mention is a node of its own; calls to and from
the function belong to the last one.

A graph may refuse an edge. Putting the call graph together edge by edge can therefore fail, as far
as types go, but it does not, and comes to the same.

## Main definitions

* `CallGraph.ofSnapshot` — the call graph of a program
* `CallGraph.build` — the call graph, put together edge by edge, or the first refusal
* `CallGraph.callees`, `CallGraph.isRecursive`, `CallGraph.topological` — reading it
-/

namespace Inlining

/-- Which functions call which, and the cycles among them. -/
structure CallGraph where
  graph : Graph FunctionId Unit
  /-- The node to which the calls of a function belong. -/
  nodeOf : FunctionMap Nat
  /-- The strongly connected components, callees before callers. -/
  components : List (List FunctionId)
  /-- The functions on a cycle of calls. -/
  recursive : FunctionSet

namespace CallGraph

/-- One node for every mention of a function, and the last node of each function. -/
def nodesOf (functions : List FunctionId) : Graph FunctionId Unit × FunctionMap Nat :=
  functions.foldl
    (fun (graph, nodeOf) f =>
      let (node, graph) := graph.addNode f
      (graph, nodeOf.insert f node))
    (Graph.empty, ∅)

/-- The graph with an edge for every pair of functions of which one calls the other. -/
def edgesOf (s : Snapshot) (nodeOf : FunctionMap Nat) (graph : Graph FunctionId Unit) :
    Graph FunctionId Unit :=
  s.functions.foldl
    (fun graph caller =>
      (s.callees caller).foldl
        (fun graph (_, callee) =>
          match nodeOf[caller]?, nodeOf[callee]? with
          | some source, some target => graph.link source target ()
          | _, _ => graph)
        graph)
    graph

/-- Whether a component is a cycle: it has several members, or its one member calls itself. -/
def isCycle (graph : Graph FunctionId Unit) (component : List Nat) : Bool :=
  1 < component.length || component.any fun v => graph.hasEdge v v

/-- The functions that nodes stand for. -/
def functionsAt (graph : Graph FunctionId Unit) (nodes : List Nat) : List FunctionId :=
  nodes.filterMap fun v => graph.nodes[v]?

/-- What a graph of calls says about its functions. -/
def ofGraph (graph : Graph FunctionId Unit) (nodeOf : FunctionMap Nat) : CallGraph where
  graph := graph
  nodeOf := nodeOf
  components := graph.components.map (functionsAt graph)
  recursive :=
    Std.ExtTreeSet.ofList ((graph.components.filter (isCycle graph)).flatMap (functionsAt graph))

/-- The call graph of a program. -/
def ofSnapshot (s : Snapshot) : CallGraph :=
  let (graph, nodeOf) := nodesOf s.functions
  ofGraph (edgesOf s nodeOf graph) nodeOf

/-- The functions that a function calls, each once, in the order of the first call. -/
def callees (g : CallGraph) (f : FunctionId) : List FunctionId :=
  match g.nodeOf[f]? with
  | some node => functionsAt g.graph (g.graph.successors node)
  | none => []

/-- Whether a function lies on a cycle of calls. -/
def isRecursive (g : CallGraph) (f : FunctionId) : Bool := g.recursive.contains f

/-- All functions, callers before callees; members of a cycle stand together. -/
def topological (g : CallGraph) : List FunctionId := g.components.reverse.flatten

/-! ### Edge by edge -/

/-- Adds an edge for a call, if both caller and callee have nodes. -/
def connectCall (nodeOf : FunctionMap Nat) (call : FunctionId × FunctionId) :
    Update (Graph FunctionId Unit) Unit :=
  match nodeOf[call.1]?, nodeOf[call.2]? with
  | some source, some target => Graph.connect source target ()
  | some _, none => pure ()
  | none, some _ => pure ()
  | none, none => pure ()

/-- Adds the edges for all calls, function by function. -/
def connectAll (s : Snapshot) (nodeOf : FunctionMap Nat) : Update (Graph FunctionId Unit) Unit :=
  s.functions.forM fun caller =>
    (s.callees caller).forM fun call => connectCall nodeOf (caller, call.2)

/-- The call graph of a program, or the error of the first edge that is refused. -/
def build (s : Snapshot) : Except Error CallGraph :=
  let (nodes, nodeOf) := nodesOf s.functions
  ((connectAll s nodeOf).exec nodes).map fun graph => ofGraph graph nodeOf

end CallGraph

end Inlining
