import Inlining.Event
import Inlining.Limits
import Inlining.SiteIndex.Basic

/-!
# Selecting a call site

Of all call sites that pass the checks the one that runs most often is chosen; of several such the
one with the least location.

## Main definitions

* `Rejection` — why a call site is passed over
* `Selection.check` — the first check that a call site fails
* `Selection.best` — the call site chosen
-/

namespace Inlining

/-- Why a call site is passed over, in the order of the checks. -/
inductive Rejection where
  | calleeMissing
  | alreadyInlined
  | belowMinimumFrequency
  | overBudget
  | recursionLimit
  | recursiveInliningDisabled
deriving DecidableEq

namespace Rejection

/-- All reasons, in the order of the checks. -/
def all : List Rejection :=
  [calleeMissing, alreadyInlined, belowMinimumFrequency, overBudget, recursionLimit,
    recursiveInliningDisabled]

/-- The reason in words. -/
def text : Rejection → String
  | calleeMissing => "callee not indexed"
  | alreadyInlined => "already inlined"
  | belowMinimumFrequency => "below minimum frequency"
  | overBudget => "callee exceeds remaining budget"
  | recursionLimit => "recursive call limit reached"
  | recursiveInliningDisabled => "recursive inlining disabled"

end Rejection

/-- What a choice depends on. -/
structure Selection where
  index : SiteIndex
  limits : Limits
  /-- The instructions that may still be added. -/
  budget : Int
  /-- How often each recursive function has been inlined. -/
  recursiveInlines : FunctionMap Nat

namespace Selection

/-- The first check that a call site fails. -/
def check (s : Selection) (r : SiteRecord) : Option Rejection :=
  match s.index.function? r.callee with
  | none => some .calleeMissing
  | some callee =>
    if r.inlined then some .alreadyInlined
    else if r.frequency < s.limits.minimumFrequency then some .belowMinimumFrequency
    else if s.budget < callee.size then some .overBudget
    else if callee.recursive && s.limits.recursiveLimit ≤ s.recursiveInlines.getD r.callee 0 then
      some .recursionLimit
    else if callee.recursive && s.limits.noRecursiveInlining then
      some .recursiveInliningDisabled
    else none

/-- The better of the best call site so far and the next one; the earlier one stays unless the next
runs strictly more often. -/
def better (best : Option (SiteId × SiteRecord)) (next : SiteId × SiteRecord) :
    Option (SiteId × SiteRecord) :=
  match best with
  | none => some next
  | some b => if b.2.frequency < next.2.frequency then some next else some b

/-- The call sites that pass all checks, by location. -/
def eligible (s : Selection) : List (SiteId × SiteRecord) :=
  s.index.ordered.filter fun (_, r) => (s.check r).isNone

/-- The call site chosen. -/
def best (s : Selection) : Option SiteId :=
  (s.eligible.foldl better none).map Prod.fst

/-- A note for every call site passed over. -/
def notes (s : Selection) : List Note :=
  s.index.ordered.filterMap fun (_, r) =>
    (s.check r).map fun reason =>
      { level := .trace, text := r.location.label ++ " rejected: " ++ reason.text }

end Selection

end Inlining
