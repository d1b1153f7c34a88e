import Inlining.Arithmetic
import Inlining.Update

/-!
# The index of call sites

Every call that could be inlined has a record with its frequency. All records live in one arena, and
their positions there are their numbers. Two views order the arena by location: one over the whole
program, and one for each function over the calls in its body. `SiteIndex.addSites` extends both
at once and takes a batch of records whole or not at all.

## Main definitions

* `SiteRecord`, `FunctionRecord`, `SiteIndex` — the arena and its views
* `SiteIndex.addFunction`, `SiteIndex.addSites` — adding to the index
* `SiteIndex.ordered` — all records by location
-/

namespace Inlining

/-- A call site with its frequency. -/
structure SiteRecord extends CallSite where
  /-- How often the call runs. -/
  frequency : Nat
  /-- Whether the call has been chosen for inlining. -/
  inlined : Bool := false
deriving DecidableEq

/-- What is known of a function. -/
structure FunctionRecord where
  /-- How often the function is entered. -/
  frequency : Nat
  /-- The number of instructions. -/
  size : Nat
  /-- Whether the function lies on a cycle of calls. -/
  recursive : Bool
  /-- The calls in its body, by location. -/
  sites : LocationMap SiteId := ∅

/-- Records of call sites and functions. -/
structure SiteIndex where
  /-- The arena: a record's position is its number. -/
  records : Array SiteRecord := #[]
  functions : FunctionMap FunctionRecord := ∅
  /-- All call sites, by location. -/
  sites : LocationMap SiteId := ∅
  /-- How often the index has been rebuilt. -/
  generation : Nat := 0

/-- Totals over an index. -/
structure IndexTotals where
  functions : Nat
  sites : Nat
  inlined : Nat
  recursive : Nat
  size : Nat
deriving DecidableEq

namespace SiteIndex

/-- The index without records. -/
def empty : SiteIndex := {}

/-! ### Reading -/

/-- The record of the given number. -/
def record? (ix : SiteIndex) (id : SiteId) : Option SiteRecord := ix.records[id.index]?

/-- The record of a function. -/
def function? (ix : SiteIndex) (f : FunctionId) : Option FunctionRecord := ix.functions[f]?

/-- The number of the call site at a location. -/
def siteAt? (ix : SiteIndex) (l : Location) : Option SiteId := ix.sites[l]?

/-- All records in the order of their locations. -/
def ordered (ix : SiteIndex) : List (SiteId × SiteRecord) :=
  ix.sites.toList.filterMap fun (_, id) => (ix.record? id).map fun r => (id, r)

/-- The calls in a function's body, in the order of their locations. -/
def sitesIn (ix : SiteIndex) (f : FunctionId) : List SiteId :=
  match ix.function? f with
  | some record => record.sites.toList.map Prod.snd
  | none => []

/-- Totals over the current generation. -/
def totals (ix : SiteIndex) : IndexTotals :=
  let functions := ix.functions.toList.map Prod.snd
  { functions := ix.functions.size
    sites := ix.sites.size
    inlined := ix.records.toList.countP fun r => r.inlined
    recursive := functions.countP fun f => f.recursive
    size := total (functions.map fun f => f.size) }

/-! ### Changing records in place -/

/-- The index with one record changed. -/
def modifyRecord (ix : SiteIndex) (id : SiteId) (change : SiteRecord → SiteRecord) : SiteIndex :=
  { ix with records := ix.records.modify id.index change }

/-- The index with the record of one function changed. -/
def modifyFunction (ix : SiteIndex) (f : FunctionId) (change : FunctionRecord → FunctionRecord) :
    SiteIndex :=
  { ix with functions := ix.functions.modify f change }

/-- The index with a call site marked as chosen for inlining. -/
def mark (ix : SiteIndex) (id : SiteId) : SiteIndex :=
  ix.modifyRecord id fun r => { r with inlined := true }

/-! ### Adding records -/

/-- Adds a function without call sites. -/
def addFunction (f : FunctionId) (record : FunctionRecord) : Update SiteIndex Unit := do
  let ix ← get
  if f ∈ ix.functions then
    throw (.inconsistent (.alreadyIndexed f))
  else if !record.sites.isEmpty then
    throw (.inconsistent (.unindexedSites f record.sites.size))
  else
    set { ix with functions := ix.functions.insert f record }

theorem addFunction_apply (ix : SiteIndex) (f : FunctionId) (record : FunctionRecord) :
    addFunction f record ix =
      if f ∈ ix.functions then .error (.inconsistent (.alreadyIndexed f)) ix
      else if !record.sites.isEmpty then
        .error (.inconsistent (.unindexedSites f record.sites.size)) ix
      else .ok ⟨⟩ { ix with functions := ix.functions.insert f record } := by
  simp [addFunction]

/-- The first objection to a batch of call sites in the body of a function, where `earlier` are the
locations of the batch so far: each call must belong to the function, and no location may be taken
twice. -/
def objection? (ix : SiteIndex) (caller : FunctionId) :
    List Location → List SiteRecord → Option Error
  | _, [] => none
  | earlier, r :: rest =>
    if r.caller ≠ caller then
      some (.inconsistent (.foreignSite r.location r.caller caller))
    else if r.location ∈ ix.sites || earlier.contains r.location then
      some (.trackedLocation r.location)
    else
      objection? ix caller (r.location :: earlier) rest

/-- Puts one record into the arena and both views. -/
def track (ix : SiteIndex) (r : SiteRecord) : SiteIndex :=
  let id : SiteId := ⟨ix.records.size⟩
  { ix with
    records := ix.records.push r
    sites := ix.sites.insert r.location id
    functions := ix.functions.modify r.caller fun f =>
      { f with sites := f.sites.insert r.location id } }

/-- Adds call sites to the body of a function and returns their numbers. The batch is checked before
anything is added. -/
def addSites (caller : FunctionId) (batch : List SiteRecord) : Update SiteIndex (List SiteId) := do
  let ix ← get
  if caller ∉ ix.functions then
    throw (.missingFunction caller)
  else
    match ix.objection? caller [] batch with
    | some e => throw e
    | none =>
      set (batch.foldl track ix)
      return (List.range batch.length).map fun n => ⟨ix.records.size + n⟩

theorem addSites_apply (ix : SiteIndex) (caller : FunctionId) (batch : List SiteRecord) :
    addSites caller batch ix =
      if caller ∉ ix.functions then .error (.missingFunction caller) ix
      else match ix.objection? caller [] batch with
        | some e => .error e ix
        | none =>
          .ok ((List.range batch.length).map fun n => ⟨ix.records.size + n⟩)
            (batch.foldl track ix) := by
  cases hobjection : ix.objection? caller [] batch <;> simp [addSites, hobjection]

end SiteIndex

end Inlining
