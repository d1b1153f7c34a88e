import Inlining.Settings.Arguments
import Inlining.Workspace

/-!
# Sessions

Working on a program step by step: a session keeps the workspace together with the latest profile,
index, choice and policy, so that each step can build on what the steps before it left. A step that
fails leaves the session as it was at the point of failure.

A session is also a host. Its program is the one in the workspace, and so are its optimizer and its
profiler unless others are given.

## Main definitions

* `Session` — what a session keeps
* `Session.host`, `Session.hostWith` — the session as host of a run
* `Session.withPolicy` — a step of the session's run
-/

namespace Inlining

/-- What a session keeps. -/
structure Session where
  work : Workspace := {}
  /-- Sizes to report one after the other instead of counting instructions, the last one again and
  again. -/
  readings : List Nat := []
  /-- The latest frequencies. -/
  table : FrequencyTable := ∅
  index : SiteIndex := {}
  /-- The calls copied by the latest inline. -/
  copies : List CopiedCall := []
  /-- The call site that the policy returned last, until it is inlined. -/
  chosen : Option CallSite := none
  settings : Settings := {}
  policy : Option Policy := none

namespace Session

variable {α : Type}

/-- The program of the session. -/
def program (s : Session) : Program := s.work.program

/-! ### The session as a host -/

/-- An update of the workspace alone. -/
def onWork (step : Update Workspace α) : Update Session α :=
  step.within Session.work fun s work => { s with work }

/-- An update of the program alone. -/
def edit (step : Update Program α) : Update Session α := onWork (Workspace.onProgram step)

/-- Sweeps the program. -/
def sweep : Update Session Unit := onWork Workspace.sweep

/-- Estimates the frequencies of all blocks. -/
def estimate (rounds : Nat) : Update Session FrequencyTable := onWork (Workspace.profile rounds)

/-- Inlines a call site. -/
def engine : Engine Session := fun site => onWork (Workspace.inline site)

/-- The size of the program: the next reading, or its instructions if there are no readings. -/
def measure (s : Session) : Nat × Session :=
  match s.readings with
  | [] => (s.program.snapshot.instructionCount, s)
  | [n] => (n, s)
  | n :: rest => (n, { s with readings := rest })

/-- The session as a host with the given optimizer and profiler. -/
def hostWith (simplify : Update Session Unit) (profile : Update Session FrequencyTable) :
    Host Session where
  snapshot s := s.program.snapshot
  measure := measure
  profile := profile
  simplify := simplify
  note n s := { s with work := s.work.note n }

/-- The session as a host with its own optimizer and profiler. -/
def host : Host Session := hostWith sweep (estimate Program.defaultRounds)

/-- Takes the notes that were kept. -/
def takeNotes (s : Session) : List Note × Session :=
  (s.work.notes.toList, { s with work := { s.work with notes := #[] } })

/-! ### Steps -/

/-- Settles on settings, once they are read and checked. -/
def configure (settings : Except Error Settings) : Update Session Limits := do
  let settings ← Update.ofExcept settings
  let limits ← Update.ofExcept settings.limits
  modify fun s => { s with settings }
  return limits

/-- Estimates the frequencies of all blocks and keeps them. -/
def profile (rounds : Nat) : Update Session FrequencyTable := do
  let table ← estimate rounds
  modify fun s => { s with table }
  return table

/-- Inlines a call site and keeps the report. -/
def inline (site : CallSite) : Update Session Unit := do
  let copies ← engine site
  modify fun s => { s with copies }

/-- Inlines the call site that the policy returned last. Without one the report is empty. -/
def inlineChosen : Update Session Unit := do
  let site := (← get).chosen
  modify fun s => { s with copies := [], chosen := none }
  match site with
  | some site => inline site
  | none => return

/-- Builds the index from the frequencies kept. -/
def buildIndex : Update Session Unit := do
  let index ← host.buildIndex (← get).table.oracle
  modify fun s => { s with index }

/-- Builds the next generation of the index from the frequencies kept. -/
def rebuildIndex : Update Session Unit := do
  let s ← get
  let index ← host.rebuildIndex s.table.oracle s.index
  modify fun s => { s with index }

/-- An update of the index alone. -/
def onIndex (step : Update SiteIndex α) : Update Session α :=
  step.within Session.index fun s index => { s with index }

/-- What a choice from the session's index depends on. -/
def selection (budget : Int) (recursiveInlines : FunctionMap Nat) : Update Session Selection := do
  let s ← get
  let limits ← Update.ofExcept s.settings.limits
  return { index := s.index, limits, budget, recursiveInlines }

/-- Redistributes the frequencies of the index after an inline. -/
def redistribute (inlined : SiteId) (report : List CopiedCall) : Update Session Redistribution := do
  onIndex (SiteIndex.redistribute (← get).program.snapshot inlined report)

/-- Sets up a policy. -/
def prepare : Update Session Policy := do
  let s ← get
  let limits ← Update.ofExcept s.settings.limits
  let policy ← Policy.prepare host limits s.table.oracle
  modify fun s => { s with policy := some policy }
  return policy

/-- A step of the run of a policy with the session as its host; the session keeps the policy that
the step leaves. -/
def withPolicy (policy : Policy) (step : Update (Run Session) α) : Update Session α :=
  step.within (fun s => { policy, host := s }) fun _ r => { r.host with policy := some r.policy }

/-- One step of a policy, whose choice is kept. -/
def step (h : Host Session) (policy : Policy) : Update Session (Option CallSite) := do
  let chosen ← withPolicy policy (Run.step h)
  modify fun s => { s with chosen }
  return chosen

end Session

end Inlining
