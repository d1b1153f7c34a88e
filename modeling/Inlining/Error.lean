import Inlining.Instruction
import Inlining.Settings.Name

/-!
# Errors

Errors are causes: each constructor says what went wrong, and `Error.message` alone knows how that
is worded. Causes are grouped by whom they concern: the user who wrote a setting, the bookkeeping
itself, or the compiler around the inliner.

## Main definitions

* `Refusal`, `Inconsistency`, `HostError` — causes in the three groups
* `Error` — every cause of failure, with its `message` and its `area`
-/

namespace Inlining

/-- Why the value of a setting is refused. -/
inductive Refusal where
  | valueMissing
  | notReal
  | notInteger
  | notBoolean
  | notFinite
  | negative
deriving DecidableEq

/-- The reason as the user reads it. -/
def Refusal.text : Refusal → String
  | valueMissing => "a value is required"
  | notReal => "expected a real number"
  | notInteger => "expected an integer"
  | notBoolean => "expected a boolean"
  | notFinite => "must be a finite, non-negative number"
  | negative => "must not be negative"

/-- A contradiction in the bookkeeping. -/
inductive Inconsistency where
  | missingSource (node : NodeId) (count : Nat)
  | missingTarget (node : NodeId) (count : Nat)
  | noEntryBlock (function : FunctionId)
  | noSize (function : FunctionId)
  | alreadyIndexed (function : FunctionId)
  | unindexedSites (function : FunctionId) (count : Nat)
  | foreignSite (location : Location) (owner caller : FunctionId)
  | inlinedUnknown (site : SiteId)
  | siteVanished (site : SiteId)
  | selectedUnknown (site : SiteId)
  | nothingPending (copies : Nat)
deriving DecidableEq

/-- The contradiction in words. -/
def Inconsistency.text : Inconsistency → String
  | missingSource n count =>
    "source node " ++ n.label ++ " does not exist in graph with " ++ toString count ++ " nodes"
  | missingTarget n count =>
    "target node " ++ n.label ++ " does not exist in graph with " ++ toString count ++ " nodes"
  | noEntryBlock f => "function " ++ f.label ++ " has no entry block"
  | noSize f => "function " ++ f.label ++ " has no size"
  | alreadyIndexed f => "function " ++ f.label ++ " is already indexed"
  | unindexedSites f count =>
    "function record " ++ f.label ++ " carries " ++ toString count ++ " unindexed call sites"
  | foreignSite l owner caller =>
    "call site " ++ l.label ++ " belongs to " ++ owner.label ++ ", not " ++ caller.label
  | inlinedUnknown s => "inlined call site " ++ s.label ++ " is not indexed"
  | siteVanished s => "call site " ++ s.label ++ " vanished from the arena"
  | selectedUnknown s => "selected call site " ++ s.label ++ " is not indexed"
  | nothingPending copies =>
    toString copies ++ " duplications reported without a pending inline"

/-- A complaint of the compiler around the inliner. -/
inductive HostError where
  | unknownFunction (function : FunctionId)
  | unknownBlock (block : BlockId)
  | vanishedBlock (block : BlockId) (function : FunctionId)
  | fullBlock (block : BlockId)
  | outsideCaller (site : CallSite)
  | otherInstruction (found : Instruction) (location : Location) (callee : FunctionId)
  | noInstruction (location : Location)
  | unknownCallee (function : FunctionId)
  | reported (text : String)
deriving DecidableEq

/-- The complaint in words. -/
def HostError.text : HostError → String
  | unknownFunction f => "unknown function " ++ f.label
  | unknownBlock b => "unknown block " ++ b.label
  | vanishedBlock b f => "block " ++ b.label ++ " vanished from " ++ f.label
  | fullBlock b => "block " ++ b.label ++ " is too large"
  | outsideCaller s => "call site " ++ s.label ++ " is not inside its caller"
  | otherInstruction found l f =>
    "instruction " ++ found.inspect ++ " at " ++ l.label ++ " does not call " ++ f.label
  | noInstruction l => "no instruction at " ++ l.label
  | unknownCallee f => "unknown callee " ++ f.label
  | reported text => text

/-- Everything that can go wrong. -/
inductive Error where
  | unknownSetting (name : String)
  | invalidSetting (setting : Setting) (value : String) (reason : Refusal)
  | missingFrequency (block : BlockId)
  | missingFunction (function : FunctionId)
  | trackedLocation (location : Location)
  | zeroFrequency (function : FunctionId)
  | notACall (location : Location)
  | missingCopy (location : Location)
  | inconsistent (cause : Inconsistency)
  | host (cause : HostError)
deriving DecidableEq

namespace Error

/-- The wording of an error. -/
def message : Error → String
  | unknownSetting name => "Unknown inlining option '" ++ name ++ "'"
  | invalidSetting setting value reason =>
    "Invalid value '" ++ value ++ "' for option '" ++ setting.name ++ "': " ++ reason.text
  | missingFrequency b => "No execution frequency recorded for block " ++ b.label
  | missingFunction f => "Function " ++ f.label ++ " is not present in the call graph index"
  | trackedLocation l => "Call site location " ++ l.label ++ " is already tracked"
  | zeroFrequency f =>
    "Function " ++ f.label ++ " has zero incoming frequency but one of its call sites was inlined"
  | notACall l => "Instruction at " ++ l.label ++ " is not an inlineable call"
  | missingCopy l =>
    "Call site " ++ l.label ++ " was not reported as duplicated by the inlining engine"
  | inconsistent cause => cause.text
  | host cause => cause.text

/-- Whom an error concerns. -/
inductive Area where
  | configuration
  | internal
  | collaborator
deriving DecidableEq

/-- Settings are the user's affair, complaints of the host the host's; the rest is a fault of the
bookkeeping. -/
def area : Error → Area
  | unknownSetting _ | invalidSetting _ _ _ => .configuration
  | host _ => .collaborator
  | _ => .internal

end Error

end Inlining
