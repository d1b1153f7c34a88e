import Inlining.Program.Inline
import Inlining.Program.Profile
import Inlining.Program.Sweep
import Inlining.Schedule

/-!
# A host of our own

A program together with all that a run needs of a compiler: a static profile for frequencies,
inlining by copying, sweeping as the optimizer, and the number of instructions as the measure. The
workspace also keeps the notes it was handed and counts what was done.

## Main definitions

* `Workspace` — a program and what was done to it
* `Workspace.host`, `Workspace.inline` — the workspace as host and engine of a run
-/

namespace Inlining

/-- A program and what was done to it. -/
structure Workspace where
  program : Program := {}
  /-- Functions removed by sweeps, in the order of removal. -/
  removed : List FunctionId := []
  /-- The number of call sites inlined. -/
  inlined : Nat := 0
  /-- Notes, the oldest first. -/
  notes : Array Note := #[]

namespace Workspace

/-- Keeps a note. -/
def note (n : Note) (w : Workspace) : Workspace := { w with notes := w.notes.push n }

/-- An update of the program alone. -/
def onProgram {α : Type} (step : Update Program α) : Update Workspace α :=
  step.within Workspace.program fun w program => { w with program }

/-- Estimates the frequencies of all blocks. -/
def profile (rounds : Nat) : Update Workspace FrequencyTable := do
  let p := (← get).program
  let table := p.profile rounds
  modify <| note {
    level := .debug
    text := "static profile: " ++ toString p.functions.length ++ " functions, "
      ++ toString table.size ++ " blocks" }
  return table

/-- Sweeps the program. -/
def sweep : Update Workspace Unit := do
  let (done, program) := (← get).program.sweep
  modify fun w => { w with program, removed := w.removed ++ done.removed }
  modify <| note {
    level := .debug
    text := "dead function elimination: " ++ toString done.removed.length
      ++ " functions removed, " ++ toString done.markers ++ " markers dropped" }

/-- Inlines a call site. -/
def inline : Engine Workspace := fun site => do
  let copies ← onProgram (Program.inline site)
  modify fun w => { w with inlined := w.inlined + 1 }
  modify <| note {
    level := .debug
    text := "inlined " ++ site.label ++ ", " ++ toString copies.length ++ " call sites copied" }
  return copies

/-- The workspace as the host of a run. -/
def host (rounds : Nat) : Host Workspace where
  snapshot w := w.program.snapshot
  measure w := (w.program.snapshot.instructionCount, w)
  profile := profile rounds
  simplify := sweep
  note := note

end Workspace

end Inlining
