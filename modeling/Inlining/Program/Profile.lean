import Inlining.CallGraph
import Inlining.Program.Basic
import Inlining.Snapshot

/-!
# Static profiles

An estimate of how often blocks run, from the weights of blocks and the entry counts of the roots
alone. A block runs as often as its weight says, in thousandths of the entries of its function and
rounded down, and a function is entered once for every run of a block that calls it, and once for
every time it is entered from outside as a root.

Along a chain of calls this determines everything, caller before callee. Within a cycle of calls the
entries that the members owe each other are refined for a fixed number of rounds, starting from what
comes into the cycle from outside.

## Main definitions

* `FunctionBody.flow` — how often one function enters another
* `Program.entries` — how often every function is entered
* `Program.profile` — the frequencies of all blocks
-/

namespace Inlining

/-- How often a block of the given weight runs in a function entered `entry` times. -/
def blockRuns (entry weight : Nat) : Nat := entry * weight / fullWeight

/-- How often a function entered `entry` times enters another one. -/
def FunctionBody.flow (f : FunctionBody) (entry : Nat) (callee : FunctionId) : Nat :=
  total (f.blocks.map fun b =>
    blockRuns entry b.weight * b.code.countP fun i => i.callee? = some callee)

/-- Functions with the number of times that each is entered. -/
abbrev Entries := List (FunctionBody × Nat)

namespace Entries

/-- How often a function is entered; never, if it is not among the given ones. -/
def of (e : Entries) (f : FunctionId) : Nat :=
  ((e.find? fun x => x.1.id = f).map Prod.snd).getD 0

/-- How often a function is entered from the given ones. -/
def inflow (e : Entries) (callee : FunctionId) : Nat :=
  total (e.map fun (f, n) => f.flow n callee)

/-- One refinement round: what comes from outside, and what the members owe each other by the
current estimate. -/
def refine (base current : Entries) : Entries :=
  base.map fun (f, n) => (f, n + current.inflow f.id)

/-- The given number of refinement rounds. -/
def refineTimes (base : Entries) : Nat → Entries
  | 0 => base
  | n + 1 => refine base (refineTimes base n)

end Entries

namespace Program

/-- The entries of a component's members, from those of all functions before it. -/
def settle (p : Program) (rounds : Nat) (graph : CallGraph) (known : Entries)
    (component : List FunctionId) : Entries :=
  let base : Entries := (component.filterMap p.function?).map fun f =>
    (f, p.rootCount f.id + known.inflow f.id)
  known ++ if component.any graph.isRecursive then base.refineTimes rounds else base

/-- How often every function is entered, callers before callees. -/
def entries (p : Program) (rounds : Nat) : Entries :=
  let graph := CallGraph.ofSnapshot p.snapshot
  graph.components.reverse.foldl (p.settle rounds graph) []

/-- The estimated frequency of every block, with the given number of refinement rounds. -/
def profile (p : Program) (rounds : Nat) : FrequencyTable :=
  let entries := p.entries rounds
  FrequencyTable.ofEntries <| p.functions.flatMap fun f =>
    f.blocks.map fun b => (b.id, blockRuns (entries.of f.id) b.weight)

/-- The number of refinement rounds unless one is asked for. -/
def defaultRounds : Nat := 4

end Program

end Inlining
