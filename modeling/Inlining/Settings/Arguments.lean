import Inlining.Limits
import Inlining.Text

/-!
# Settings from arguments

Settings come as name and value pairs or as command-line arguments. An argument is split into such a
pair; both ways the pairs are assigned one after the other on top of the defaults, and the result is
checked once at the end.
-/

namespace Inlining.Settings

/-- A name and the value written for it, if any. -/
abbrev Assignment := String × Option String

/-- The argument without one leading pair of hyphens. -/
def stripHyphens : List Char → List Char
  | '-' :: '-' :: cs => cs
  | cs => cs

/-- The assignment that an argument spells. The first equals sign divides name and value, and blanks
around both are cut off; without an equals sign there is no value. -/
def Assignment.ofArgument (argument : String) : Assignment :=
  let cs := stripHyphens argument.toList
  let name := String.ofList (Text.trim (cs.takeWhile (· != '=')))
  match cs.dropWhile (· != '=') with
  | _ :: value => (name, some (String.ofList (Text.trim value)))
  | [] => (name, none)

/-- The settings after the assignments, made in order; the first one refused ends it. -/
def assignAll (s : Settings) (assignments : List Assignment) : Except Error Settings :=
  assignments.foldlM (fun s (name, value) => s.apply <$> Change.ofPair name value) s

/-- The defaults with the assignments made in order, then checked. -/
def ofAssignments (assignments : List Assignment) : Except Error Settings := do
  let s ← assignAll {} assignments
  s.check
  return s

/-- Settings from command-line arguments. -/
def ofArguments (arguments : List String) : Except Error Settings :=
  ofAssignments (arguments.map Assignment.ofArgument)

/-- Settings from names and values. -/
def ofPairs (pairs : List (String × String)) : Except Error Settings :=
  ofAssignments (pairs.map fun (name, value) => (name, some value))

end Inlining.Settings
