import Inlining.Host
import Inlining.Policy.Basic

/-!
# Steps of a run

A step accounts for the inline before it, chooses the next call site and returns it, for the engine
to inline. If there is nothing to choose, the optimizer is given a chance to make room and the index
is built anew; if there is still nothing, the run is over, and every later step does nothing.

A step may fail, in the host or in the books. The policy and the host are then left as they were at
the point of failure.

## Main definitions

* `Run` — a policy and its host
* `Policy.prepare` — the policy for a program
* `Run.step` — one step
-/

namespace Inlining

/-- A policy and the state of its host. -/
structure Run (σ : Type) where
  policy : Policy
  host : σ

/-- Sets up a run: measures the program and builds its index. -/
def Policy.prepare {σ : Type} (h : Host σ) (limits : Limits) (oracle : Oracle) :
    Update σ Policy := do
  let size ← modifyGet h.measure
  let index ← h.buildIndex oracle
  let policy := Policy.start limits size index
  modify <| h.note {
    level := .info
    text := "profile-guided inlining: " ++ toString size ++ " instructions, budget "
      ++ toString policy.initialBudget ++ ", " ++ toString index.sites.size ++ " call sites" }
  return policy

/-- The note before the optimizer runs. -/
def Policy.stuckText (p : Policy) : String :=
  "no inlineable call site at iteration " ++ toString p.iteration ++ ", running optimizer"

namespace Run

variable {σ α : Type}

/-- An update of the policy alone. -/
def onPolicy (step : Update Policy α) : Update (Run σ) α :=
  step.within Run.policy fun r policy => { r with policy }

/-- An update of the host alone. -/
def onHost (step : Update σ α) : Update (Run σ) α :=
  step.within Run.host fun r host => { r with host }

/-- Hands a note to the host. -/
def note (h : Host σ) (level : Level) (text : String) : Update (Run σ) Unit :=
  onHost (modify (h.note { level, text }))

/-- Accounts for the pending inline. -/
def account (h : Host σ) : Update (Run σ) Unit := do
  let r ← get
  match ← onPolicy (Policy.account (h.snapshot r.host)) with
  | none => return
  | some done =>
    if done.saturated then
      let f := done.callee.label
      note h .warn <| "call into " ++ f ++ " ran more often than " ++ f
        ++ " was entered; entry frequency clamped to " ++ toString done.new

/-- The call site to inline next, if any. -/
def pick (h : Host σ) : Update (Run σ) (Option SiteId) := do
  let r ← get
  onHost (modifyGet (h.choose r.policy.selection))

/-- Runs the optimizer, measures the program and builds its index anew. -/
def fallBack (h : Host σ) : Update (Run σ) Unit := do
  note h .info (← get).policy.stuckText
  onHost h.simplify
  let measured ← onHost (modifyGet h.measure)
  onPolicy (modify fun p => p.remeasure measured)
  let table ← onHost h.profile
  let index ← onHost (h.rebuildIndex table.oracle (← get).policy.index)
  onPolicy (modify fun p => p.renew index)

/-- Chooses a call site and returns it. -/
def adopt (h : Host σ) (id : SiteId) : Update (Run σ) CallSite := do
  let r ← onPolicy (Policy.adopt id)
  note h .debug <| "iteration " ++ toString (← get).policy.iteration ++ ": inlining "
    ++ r.toCallSite.label ++ " (frequency " ++ toString r.frequency ++ ")"
  return r.toCallSite

/-- Ends the run. -/
def finish (h : Host σ) : Update (Run σ) Unit := do
  onPolicy (modify Policy.finish)
  let p := (← get).policy
  note h .info <| "profile-guided inlining done after " ++ toString p.iteration ++ " iterations: "
    ++ p.history.tally.text

/-- The call site to inline next; if there is none, the one after the optimizer ran. -/
def pickOrFallBack (h : Host σ) : Update (Run σ) (Option SiteId) := do
  match ← pick h with
  | some id => return some id
  | none =>
    if (← get).policy.limits.neverOptimize then return none
    else
      fallBack h
      pick h

/-- One step of the run: the call site to inline, or nothing once the run is over. -/
def step (h : Host σ) : Update (Run σ) (Option CallSite) := do
  if (← get).policy.finished then return none
  else
    onPolicy (modify fun p => { p with iteration := p.iteration + 1 })
    account h
    match ← pickOrFallBack h with
    | some id => some <$> adopt h id
    | none =>
      finish h
      return none

/-- Reports where the calls of the pending inline were copied to. -/
def report (copies : List CopiedCall) : Update (Run σ) Unit := onPolicy (Policy.report copies)

end Run

end Inlining
