import Inlining.Decimal
import Inlining.Update

/-!
# Settings

What a user asks of an inlining run. Reading a setting is split in two: the name and the value
written give a `Change`, which does not depend on the settings so far, and a change is then applied.
A value that cannot be read therefore changes nothing, and the last change of a setting wins.

## Main definitions

* `Settings` — the settings, with defaults and two presets
* `Settings.Change` — one setting and its new value; `Change.read` reads it
* `Settings.withFraction` and the like — settings put together in code
* `Settings.assign` — read a change and apply it
-/

namespace Inlining

/-- The settings of a run as written, not yet checked for range. -/
structure Settings where
  /-- Fraction of the initial program size that the run may add. -/
  fraction : Float := 0.2
  /-- Cap on the instructions added, if any. -/
  absoluteBudget : Option Int := none
  /-- Calls that run less often are never inlined. -/
  minimumFrequency : Int := 10
  /-- How often each recursive callee may be inlined. -/
  recursiveLimit : Int := 3
  /-- Do not fall back to the optimizer when nothing is left to inline. -/
  neverOptimize : Bool := false
  /-- Do not inline recursive callees. -/
  noRecursiveInlining : Bool := false

namespace Settings

/-- Settings for a run that grows code sparingly. -/
def conservative : Settings :=
  { fraction := 0.05, minimumFrequency := 100, recursiveLimit := 0, noRecursiveInlining := true }

/-- Settings for a run that trades size for speed. -/
def aggressive : Settings :=
  { fraction := 0.5, minimumFrequency := 1, recursiveLimit := 8 }

/-- One setting and its new value. -/
inductive Change where
  | fraction (value : Float)
  | absoluteBudget (value : Option Int)
  | minimumFrequency (value : Int)
  | recursiveLimit (value : Int)
  | neverOptimize (value : Bool)
  | noRecursiveInlining (value : Bool)

/-- The settings after a change. -/
def apply (s : Settings) : Change → Settings
  | .fraction x => { s with fraction := x }
  | .absoluteBudget x => { s with absoluteBudget := x }
  | .minimumFrequency x => { s with minimumFrequency := x }
  | .recursiveLimit x => { s with recursiveLimit := x }
  | .neverOptimize x => { s with neverOptimize := x }
  | .noRecursiveInlining x => { s with noRecursiveInlining := x }

/-! ### Builders

Settings put together in code. Each builder is one change; the last two say what is allowed, where
the settings say what is not. -/

/-- The settings with another fraction of the program size. -/
def withFraction (s : Settings) (x : Float) : Settings := s.apply (.fraction x)

/-- The settings with a cap on the instructions added. -/
def withAbsoluteBudget (s : Settings) (x : Int) : Settings := s.apply (.absoluteBudget (some x))

/-- The settings with another minimum of runs. -/
def withMinimumFrequency (s : Settings) (x : Int) : Settings := s.apply (.minimumFrequency x)

/-- The settings with another limit for recursive callees. -/
def withRecursiveLimit (s : Settings) (x : Int) : Settings := s.apply (.recursiveLimit x)

/-- The settings with the fallback to the optimizer allowed or not. -/
def withOptimizerFallback (s : Settings) (allowed : Bool) : Settings :=
  s.apply (.neverOptimize !allowed)

/-- The settings with inlining of recursive callees allowed or not. -/
def withRecursiveInlining (s : Settings) (allowed : Bool) : Settings :=
  s.apply (.noRecursiveInlining !allowed)

/-! ### Values

Words are compared without regard to the case of ASCII letters. -/

/-- The value of a flag. An empty value switches it on. -/
def flag? (value : String) : Option Bool :=
  let word := String.ofList (value.toList.map Char.toLower)
  if word ∈ ["", "true", "yes", "on", "1"] then some true
  else if word ∈ ["false", "no", "off", "0"] then some false
  else none

/-- Whether a value is the word that lifts the cap on the budget. -/
def isNone (value : String) : Bool :=
  String.ofList (value.toList.map Char.toLower) == "none"

namespace Change

/-- A value or the reason for refusing it. -/
def orRefuse {α : Type} (setting : Setting) (value : String) (reason : Refusal) :
    Option α → Except Error α
  | some a => .ok a
  | none => .error (.invalidSetting setting value reason)

/-- The change of a flag. Without a value the flag is switched on. -/
def readFlag (setting : Setting) : Option String → Except Error Bool
  | none => .ok true
  | some value => orRefuse setting value .notBoolean (flag? value)

/-- The value of a setting that is not a flag. -/
def readValue (setting : Setting) (value : Option String) (reason : Refusal)
    {α : Type} (read : String → Option α) : Except Error α := do
  let value ← orRefuse setting "" .valueMissing value
  orRefuse setting value reason (read value)

/-- The change that a setting and the value written for it spell. -/
def read (setting : Setting) (value : Option String) : Except Error Change :=
  match setting with
  | .relativeBudgetFraction => fraction <$> readValue setting value .notReal Decimal.float?
  | .absoluteBudget =>
    absoluteBudget <$> readValue setting value .notInteger fun v =>
      if isNone v then some none else (Text.integer64? v).map some
  | .minimumExecutionFrequency =>
    minimumFrequency <$> readValue setting value .notInteger Text.integer64?
  | .recursiveCallLimit => recursiveLimit <$> readValue setting value .notInteger Text.integer64?
  | .disableOptimizerFallback => neverOptimize <$> readFlag setting value
  | .disableRecursiveInlining => noRecursiveInlining <$> readFlag setting value

/-- The change that a name and the value written for it spell. -/
def ofPair (name : String) (value : Option String) : Except Error Change :=
  match Setting.ofName? name with
  | some setting => read setting value
  | none => .error (.unknownSetting name)

end Change

/-- Changes the setting of the given name. A refused value leaves the settings as they are. -/
def assign (name : String) (value : Option String) : Update Settings Unit := do
  let change ← Update.ofExcept (Change.ofPair name value)
  modify fun s => s.apply change

end Settings

end Inlining
