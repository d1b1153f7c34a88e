import Inlining.Settings.Basic

/-!
# Limits

Settings that passed the checks. Negative numbers are gone, so counts are natural numbers from here
on, and the budget for a program can be computed.

## Main definitions

* `Settings.check` — the first setting that is out of range, if any
* `Settings.limits` — the limits that settings stand for
* `Limits.budget` — how many instructions a run may add
-/

namespace Inlining

/-- The checked limits of a run. -/
structure Limits where
  /-- Fraction of the initial program size that the run may add. -/
  fraction : Float
  /-- Cap on the instructions added, if any. -/
  absoluteBudget : Option Nat
  /-- Calls that run less often are never inlined. -/
  minimumFrequency : Nat
  /-- How often each recursive callee may be inlined. -/
  recursiveLimit : Nat
  /-- Whether the optimizer fallback is switched off. -/
  neverOptimize : Bool
  /-- Whether recursive callees are never inlined. -/
  noRecursiveInlining : Bool

namespace Limits

/-- The share of a program of the given size that the run may add: the product is taken in doubles,
as the fraction is one, and rounded down. -/
def relativeBudget (l : Limits) (size : Nat) : Nat :=
  (Decimal.Binary.ofFloat (Float.ofNat size * l.fraction)).toWord

/-- How many instructions a run on a program of the given size may add. Of two budgets the smaller
holds. -/
def budget (l : Limits) (size : Nat) : Nat :=
  match l.absoluteBudget with
  | some cap => min cap (l.relativeBudget size)
  | none => l.relativeBudget size

end Limits

namespace Settings

/-- Refuses a negative number. -/
def checkNonnegative (setting : Setting) (value : Int) : Except Error Unit :=
  if value < 0 then .error (.invalidSetting setting (toString value) .negative) else .ok ()

/-- Refuses a fraction that is infinite, no number, or below zero. -/
def checkFraction (x : Float) : Except Error Unit :=
  if (Decimal.Binary.ofFloat x).isFiniteNonnegative then .ok ()
  else .error (.invalidSetting .relativeBudgetFraction (Decimal.text x) .notFinite)

/-- Checks the ranges, one setting after the other. -/
def check (s : Settings) : Except Error Unit := do
  checkFraction s.fraction
  match s.absoluteBudget with
  | some cap => checkNonnegative .absoluteBudget cap
  | none => pure ()
  checkNonnegative .minimumExecutionFrequency s.minimumFrequency
  checkNonnegative .recursiveCallLimit s.recursiveLimit

/-- The limits that the settings stand for. -/
def limits (s : Settings) : Except Error Limits := do
  s.check
  return {
    fraction := s.fraction
    absoluteBudget := s.absoluteBudget.map Int.toNat
    minimumFrequency := s.minimumFrequency.toNat
    recursiveLimit := s.recursiveLimit.toNat
    neverOptimize := s.neverOptimize
    noRecursiveInlining := s.noRecursiveInlining }

end Settings

end Inlining
