import Inlining.Selection
import Inlining.SiteIndex.Build

/-!
# The host of a run

The inliner decides; the compiler around it owns the program and does the work. A host is that
compiler: a state of some type `σ` and what the inliner may ask of it. Everything here is stated for
any host, since nothing is known of the one that will be used.

## Main definitions

* `Host` — what a run may ask of the compiler around it
* `Host.ofSnapshot` — a host with a program that never changes
* `Host.buildIndex`, `Host.rebuildIndex`, `Host.choose` — index and choice, with their notes
-/

namespace Inlining

/-- What a run may ask of the compiler around it. -/
structure Host (σ : Type) where
  /-- The program as it is. -/
  snapshot : σ → Snapshot
  /-- Measures the program. -/
  measure : σ → Nat × σ
  /-- Estimates the frequencies of all blocks. -/
  profile : Update σ FrequencyTable
  /-- Optimizes the program. -/
  simplify : Update σ Unit
  /-- Takes a note. -/
  note : Note → σ → σ

/-- Inlines a call site and reports where the calls of the callee were copied to. -/
abbrev Engine (σ : Type) := CallSite → Update σ (List CopiedCall)

namespace Host

variable {σ : Type}

/-- A host whose program and profile never change. It keeps the notes and does nothing else. -/
def ofSnapshot (s : Snapshot) (table : FrequencyTable) : Host (Array Note) where
  snapshot _ := s
  measure notes := (s.instructionCount, notes)
  profile := pure table
  simplify := pure ()
  note n notes := notes.push n

/-- Takes notes, in order. -/
def noteAll (h : Host σ) (notes : List Note) (s : σ) : σ := notes.foldl (fun s n => h.note n s) s

/-- The index of the program. -/
def buildIndex (h : Host σ) (oracle : Oracle) : Update σ SiteIndex := do
  let ix ← Update.ofExcept (SiteIndex.build (h.snapshot (← get)) oracle)
  modify (h.note ix.builtNote)
  return ix

/-- The index of the program as the next generation of the given one. -/
def rebuildIndex (h : Host σ) (oracle : Oracle) (ix : SiteIndex) : Update σ SiteIndex := do
  let ix ← Update.ofExcept ((SiteIndex.rebuild (h.snapshot (← get)) oracle).exec ix)
  modify (h.note ix.builtNote)
  return ix

/-- The call site chosen; the host learns which ones were passed over. -/
def choose (h : Host σ) (selection : Selection) (s : σ) : Option SiteId × σ :=
  (selection.best, h.noteAll selection.notes s)

end Host

end Inlining
