/-!
# Names of settings

The six settings of an inlining run, by the names a user writes. Two of them are flags, which may
stand without a value.
-/

namespace Inlining

/-- A setting that a user can change. -/
inductive Setting where
  | relativeBudgetFraction
  | absoluteBudget
  | minimumExecutionFrequency
  | recursiveCallLimit
  | disableOptimizerFallback
  | disableRecursiveInlining
deriving DecidableEq

namespace Setting

/-- Every setting, in the order in which they are documented. -/
def all : List Setting :=
  [relativeBudgetFraction, absoluteBudget, minimumExecutionFrequency, recursiveCallLimit,
    disableOptimizerFallback, disableRecursiveInlining]

/-- The name that a user writes. -/
def name : Setting → String
  | relativeBudgetFraction => "relative-budget-fraction"
  | absoluteBudget => "absolute-budget"
  | minimumExecutionFrequency => "minimum-execution-frequency"
  | recursiveCallLimit => "recursive-call-limit"
  | disableOptimizerFallback => "disable-optimizer-fallback"
  | disableRecursiveInlining => "disable-recursive-inlining"

/-- The setting of the given name. Names are matched exactly, case included. -/
def ofName? (s : String) : Option Setting := all.find? fun a => a.name == s

/-- Whether the setting may stand without a value. -/
def isFlag : Setting → Bool
  | disableOptimizerFallback | disableRecursiveInlining => true
  | _ => false

theorem ofName?_name (a : Setting) : ofName? a.name = some a := by
  cases a <;> decide

end Setting

end Inlining
