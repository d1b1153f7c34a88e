import Inlining.CallGraph
import Inlining.Event
import Inlining.SiteIndex.Basic
import Inlining.Snapshot

/-!
# Building an index

The index of a snapshot has a record for each of its functions and for each call from one of them to
another. Frequencies come from an oracle, which has to know the entry block of every function and
the block of every such call; calls that leave the program are not tracked.
-/

namespace Inlining

namespace SiteIndex

/-- A value that has to be there. -/
def require {α : Type} (e : Error) : Option α → Except Error α
  | some a => .ok a
  | none => .error e

/-- The record of a function of a snapshot. -/
def functionRecord (s : Snapshot) (oracle : Oracle) (graph : CallGraph) (f : FunctionId) :
    Except Error FunctionRecord := do
  let entry ← require (.inconsistent (.noEntryBlock f)) (s.entryBlock f)
  let frequency ← require (.missingFrequency entry) (oracle entry)
  let size ← require (.inconsistent (.noSize f)) (s.size f)
  return { frequency, size, recursive := graph.isRecursive f }

/-- The records of the calls in a function's body to functions of the index. -/
def siteRecords (s : Snapshot) (oracle : Oracle) (ix : SiteIndex) (caller : FunctionId) :
    Except Error (List SiteRecord) :=
  ((s.callees caller).filter fun (_, callee) => callee ∈ ix.functions).mapM
    fun (location, callee) => do
      let frequency ← require (.missingFrequency location.block) (oracle location.block)
      return { location, caller, callee, frequency }

/-- Adds a function of a snapshot. -/
def indexFunction (s : Snapshot) (oracle : Oracle) (graph : CallGraph) (f : FunctionId) :
    Update SiteIndex Unit := do
  addFunction f (← Update.ofExcept (functionRecord s oracle graph f))

/-- Adds the calls in the body of a function of a snapshot. -/
def indexSites (s : Snapshot) (oracle : Oracle) (caller : FunctionId) : Update SiteIndex Unit := do
  let batch ← Update.ofExcept (siteRecords s oracle (← get) caller)
  discard (addSites caller batch)

/-- Adds all functions of a snapshot and then the calls in their bodies. -/
def populate (s : Snapshot) (oracle : Oracle) : Update SiteIndex Unit := do
  let graph := CallGraph.ofSnapshot s
  s.functions.forM (indexFunction s oracle graph)
  s.functions.forM (indexSites s oracle)

/-- The index of a snapshot. -/
def build (s : Snapshot) (oracle : Oracle) : Except Error SiteIndex :=
  (populate s oracle).exec empty

/-- Replaces the index by that of a snapshot, as the next generation. If that cannot be built the
index stays. -/
def rebuild (s : Snapshot) (oracle : Oracle) : Update SiteIndex Unit := do
  let next ← Update.ofExcept (build s oracle)
  modify fun ix => { next with generation := ix.generation + 1 }

/-- The note on an index that was built. -/
def builtNote (ix : SiteIndex) : Note where
  level := .debug
  text := "call graph index built: " ++ toString ix.functions.size ++ " functions, "
    ++ toString ix.sites.size ++ " call sites"

end SiteIndex

end Inlining
