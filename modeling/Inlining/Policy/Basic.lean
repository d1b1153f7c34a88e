import Inlining.Event
import Inlining.Selection
import Inlining.SiteIndex.Build
import Inlining.SiteIndex.Redistribution

/-!
# The policy

The books of an inlining run: the index of call sites, the budget, what was chosen last and not yet
accounted for, and the history. This module has the single entries into these books; each is a plain
function or a fallible update of the policy alone. `Inlining.Policy.Step` puts them in order and
asks the host for what it needs in between.

## Main definitions

* `Policy` — the state of a run
* `Policy.report` — the report on the inline that is pending
* `Policy.account` — accounting for that inline
* `Policy.remeasure`, `Policy.renew` — after the optimizer ran
* `Policy.adopt` — choosing a call site
* `Policy.finish` — the end
-/

namespace Inlining

/-- The state of an inlining run. -/
structure Policy where
  limits : Limits
  index : SiteIndex
  /-- How often each recursive function has been inlined. -/
  recursiveInlines : FunctionMap Nat := ∅
  /-- The call site chosen last, until its inline is accounted for. -/
  pending : Option SiteId := none
  /-- The calls reported as copied by the pending inline. -/
  copies : List CopiedCall := []
  initialSize : Nat
  initialBudget : Nat
  /-- The instructions that may still be added. Below zero once the optimizer made the program grow
  beyond its budget. -/
  budget : Int
  /-- The size of the program as far as the policy knows. -/
  size : Nat
  /-- The number of steps taken. -/
  iteration : Nat := 0
  finished : Bool := false
  history : History := {}

namespace Policy

/-- The policy at the start of a run. -/
def start (limits : Limits) (size : Nat) (index : SiteIndex) : Policy :=
  let budget := limits.budget size
  { limits
    index
    initialSize := size
    initialBudget := budget
    budget := min (budget : Int) Word.greatest
    size }

/-- What the next choice depends on. -/
def selection (p : Policy) : Selection where
  index := p.index
  limits := p.limits
  budget := p.budget
  recursiveInlines := p.recursiveInlines

/-- How often a function has been inlined as a recursive callee. -/
def recursiveInlinesOf (p : Policy) (f : FunctionId) : Nat := p.recursiveInlines.getD f 0

/-- The policy with one more event. -/
def record (p : Policy) (e : Event) : Policy := { p with history := p.history.record e }

/-- An update of the index alone. -/
def onIndex {α : Type} (step : Update SiteIndex α) : Update Policy α :=
  step.within Policy.index fun p index => { p with index }

/-! ### Reports -/

/-- Takes the report on the pending inline. Several reports add up; without a pending inline there
is nothing to report. -/
def report (copies : List CopiedCall) : Update Policy Unit := do
  if (← get).pending.isNone then
    throw (.inconsistent (.nothingPending copies.length))
  else
    modify fun p => { p with copies := p.copies ++ copies }

/-! ### Accounting for an inline -/

/-- The events of a redistribution: a warning if the call ran more often than its callee was
entered, and the change of the callee's entries. -/
def recordRedistribution (p : Policy) (r : Redistribution) : Policy :=
  let p :=
    if r.saturated then
      p.record {
        kind := .warning
        function := some r.callee
        message := "entry frequency " ++ toString r.old ++ " saturated at " ++ toString r.new }
    else p
  p.record {
    kind := .frequencyRedistributed
    function := some r.callee
    message := toString r.old ++ " -> " ++ toString r.new ++ ", " ++ toString r.copies.length
      ++ " call sites copied" }

/-- Accounts for the pending inline, if there is one. Whether or not that works, nothing is pending
afterwards. -/
def account (s : Snapshot) : Update Policy (Option Redistribution) := do
  let p ← get
  match p.pending with
  | none => return none
  | some id =>
    set { p with pending := none, copies := [] }
    let r ← onIndex (SiteIndex.redistribute s id p.copies)
    modify fun p => p.recordRedistribution r
    return some r

/-! ### After the optimizer -/

/-- A number with its sign, also when it is not negative. -/
def signed (i : Int) : String := if i < 0 then toString i else "+" ++ toString i

/-- Takes the measured size as the size of the program. What the optimizer saved is added to the
budget, and what it cost is taken off. -/
def remeasure (p : Policy) (measured : Nat) : Policy :=
  let delta := (measured : Int) - p.size
  let budget := Word.clamp (p.budget - delta)
  { p with budget, size := measured }.record {
    kind := .optimizerFallback
    message := "size " ++ toString measured ++ " (" ++ signed delta ++ "), budget now "
      ++ toString budget }

/-- Goes on with a new index. -/
def renew (p : Policy) (index : SiteIndex) : Policy :=
  { p with index }.record {
    kind := .indexRebuilt
    message := "generation " ++ toString index.generation ++ ", " ++ toString index.sites.size
      ++ " call sites" }

/-! ### Choosing a call site -/

/-- Charges the inline of a function to the budget and, if it is recursive, to its count. -/
def charge (p : Policy) (f : FunctionId) (callee : FunctionRecord) : Policy :=
  { p with
    recursiveInlines :=
      if callee.recursive then p.recursiveInlines.insert f (p.recursiveInlinesOf f + 1)
      else p.recursiveInlines
    budget := Word.clamp (p.budget - min (callee.size : Int) Word.greatest)
    size := min Word.greatestUnsigned (p.size + callee.size) }

/-- Marks a call site as inlined and pending; its caller grows by the size of the callee. Unlike the
size of the program, the size of a function is not cut to a word but wraps around. -/
def take (p : Policy) (id : SiteId) (r : SiteRecord) (size : Nat) : Policy :=
  let index := p.index.modifyFunction r.caller fun f => { f with size := Word.wrap (f.size + size) }
  { p with index := index.mark id, pending := some id }.record {
    kind := .callSiteInlined
    function := some r.location.function
    location := some r.location
    message := r.caller.label ++ " -> " ++ r.callee.label ++ ", frequency "
      ++ toString r.frequency ++ ", size " ++ toString size }

/-- Chooses a call site for inlining and returns its record. -/
def adopt (id : SiteId) : Update Policy SiteRecord := do
  let p ← get
  match p.index.record? id with
  | none => throw (.inconsistent (.selectedUnknown id))
  | some r =>
    match p.index.function? r.callee with
    | none => throw (.missingFunction r.callee)
    | some callee =>
      set (p.charge r.callee callee)
      if r.caller ∉ p.index.functions then
        throw (.missingFunction r.caller)
      else
        modify fun p => p.take id r callee.size
        return r

/-- Ends the run. -/
def finish (p : Policy) : Policy :=
  { p with finished := true }.record {
    kind := .selectionExhausted
    message := "iteration " ++ toString p.iteration ++ ", " ++ toString p.budget ++ " of "
      ++ toString p.initialBudget ++ " budget left" }

end Policy

end Inlining
