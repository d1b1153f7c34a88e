import Inlining.Policy.Step

/-!
# Driving a run

The schedule takes turns between policy and engine: a step of the policy, the inline of the call
site that it returns, and the report on it. It ends when the policy has no more work, on the first
error, or after a given number of steps.
-/

namespace Inlining

/-- How a schedule ended. -/
structure Outcome where
  /-- Steps of the policy. -/
  iterations : Nat := 0
  /-- Call sites inlined. -/
  inlined : Nat := 0
  /-- Whether the policy had no more work. -/
  completed : Bool := false
deriving DecidableEq

namespace Run

variable {σ : Type}

/-- One turn: a step of the policy and the inline that it asks for. Says whether there was one. -/
def turn (h : Host σ) (engine : Engine σ) : Update (Run σ) Bool := do
  match ← step h with
  | none => return false
  | some site =>
    let copies ← onHost (engine site)
    report copies
    return true

/-- Takes turns until the policy has no more work, at most as often as given. -/
def turns (h : Host σ) (engine : Engine σ) : Nat → Outcome → Update (Run σ) Outcome
  | 0, o => return o
  | n + 1, o => do
    let o := { o with iterations := o.iterations + 1 }
    if ← turn h engine then
      turns h engine n { o with inlined := o.inlined + 1 }
    else
      return { o with completed := true }

/-- Drives a run for at most `cap` steps. -/
def drive (h : Host σ) (engine : Engine σ) (cap : Nat) : Update (Run σ) Outcome := do
  let o ← turns h engine cap {}
  if !o.completed then
    note h .warn <| "profile-guided policy stopped after " ++ toString o.iterations
      ++ " iterations without finishing"
  return o

/-- The number of steps unless one is asked for. -/
def defaultCap : Nat := 10000

end Run

end Inlining
