import Inlining.Arithmetic
import Inlining.SiteIndex.Basic
import Inlining.Snapshot

/-!
# Redistributing frequencies

Inlining a call moves as many entries as the call has runs from the callee to the copy of its body
in the caller. Every call in the body is split in the same proportion: the copy gets the share that
moved, the call itself keeps the rest.

A callee that is still called somewhere keeps at least one entry, so that later splits have
something to divide.

## Main definitions

* `SiteIndex.split` — what a redistribution is going to change, or why it cannot be done
* `SiteIndex.redistribute` — the redistribution; it changes nothing unless it succeeds
-/

namespace Inlining

/-- A call in the callee's body that is still there, and the place of its copy. -/
structure SplitCall where
  id : SiteId
  record : SiteRecord
  copy : Location

/-- What a redistribution is going to change. -/
structure Split where
  caller : FunctionId
  callee : FunctionId
  /-- Entries of the callee before the inline. -/
  old : Nat
  /-- Entries of the callee after the inline. -/
  new : Nat
  /-- Whether the call ran more often than its callee was entered. -/
  saturated : Bool
  calls : List SplitCall

namespace Split

/-- The records of the copies: each gets the share of the entries that moved. -/
def copies (s : Split) : List SiteRecord :=
  s.calls.map fun c =>
    { location := c.copy
      caller := s.caller
      callee := c.record.callee
      frequency := share c.record.frequency (s.old - s.new) s.old }

/-- The frequencies that the calls themselves keep. -/
def kept (s : Split) : List (SiteId × Nat) :=
  s.calls.map fun c => (c.id, share c.record.frequency s.new s.old)

end Split

/-- What a redistribution has changed. -/
structure Redistribution where
  callee : FunctionId
  old : Nat
  new : Nat
  /-- The records of the copies. -/
  copies : List SiteId
  saturated : Bool
deriving DecidableEq

namespace SiteIndex

/-- The place of each copied call; of several reports on a call the last one holds. -/
def copyMap (report : List CopiedCall) : LocationMap Location :=
  report.foldl (fun places c => places.insert c.source c.copy) ∅

/-- A call in the callee's body with the place of its copy, which has to hold a call to the same
function. Calls that were inlined before are left out. -/
def splitCall (ix : SiteIndex) (s : Snapshot) (places : LocationMap Location) (id : SiteId) :
    Except Error (Option SplitCall) :=
  match ix.record? id with
  | none => .error (.inconsistent (.siteVanished id))
  | some record =>
    if record.inlined then .ok none
    else
      match places[record.location]? with
      | none => .error (.missingCopy record.location)
      | some copy =>
        if (s.shapeAt copy).bind CallShape.callee? = some record.callee then
          .ok (some { id, record, copy })
        else
          .error (.notACall copy)

/-- Whether a function is still called once the given call is inlined: from the copy of its own
body, or from anywhere else. -/
def isStillCalled (ix : SiteIndex) (callee : FunctionId) (inlined : SiteId)
    (calls : List SplitCall) : Bool :=
  (calls.any fun c => c.record.callee = callee)
    || ix.ordered.any fun (id, r) => id ≠ inlined && r.callee = callee && !r.inlined

/-- The entries that are left to a callee. -/
def entriesLeft (old frequency : Nat) (stillCalled : Bool) : Nat :=
  if old ≤ frequency && stillCalled then 1 else old - frequency

/-- What inlining a call is going to change, given where the calls of the callee were copied to. -/
def split (ix : SiteIndex) (s : Snapshot) (inlined : SiteId) (report : List CopiedCall) :
    Except Error Split :=
  match ix.record? inlined with
  | none => .error (.inconsistent (.inlinedUnknown inlined))
  | some call =>
    match ix.function? call.callee with
    | none => .error (.missingFunction call.callee)
    | some callee =>
      if callee.frequency = 0 then .error (.zeroFrequency call.callee)
      else do
        let calls ← (ix.sitesIn call.callee).mapM (ix.splitCall s (copyMap report))
        let calls := calls.filterMap id
        return {
          caller := call.caller
          callee := call.callee
          old := callee.frequency
          new := entriesLeft callee.frequency call.frequency
            (ix.isStillCalled call.callee inlined calls)
          saturated := callee.frequency < call.frequency
          calls }

/-- The index with the frequencies that a split leaves to the callee and its calls. -/
def settle (ix : SiteIndex) (s : Split) : SiteIndex :=
  (s.kept.foldl (fun ix (id, n) => ix.modifyRecord id fun r => { r with frequency := n }) ix)
    |>.modifyFunction s.callee fun f => { f with frequency := s.new }

/-- Moves entries from a callee to its copy in the caller, after the given call was inlined. -/
def redistribute (s : Snapshot) (inlined : SiteId) (report : List CopiedCall) :
    Update SiteIndex Redistribution := do
  let split ← Update.ofExcept ((← get).split s inlined report)
  let copies ← addSites split.caller split.copies
  modify fun ix => ix.settle split
  return {
    callee := split.callee
    old := split.old
    new := split.new
    copies
    saturated := split.saturated }

end SiteIndex

end Inlining
