import Std.Data.ExtTreeMap
import Std.Data.ExtTreeSet

/-!
# Identifiers

Functions, blocks, call sites and graph nodes are numbered. One type carries all four kinds of
number, indexed by what it names, so that a block can never be passed where a function is meant and
yet order and text are defined once.

## Main definitions

* `Entity` — the four kinds of thing that have a number
* `Ident` — a number of a given kind, ordered by the number
* `FunctionMap`, `FunctionSet` — finite maps and sets ordered by function
-/

namespace Inlining

/-- What an identifier names. -/
inductive Entity where
  | function
  | block
  | callSite
  | node
deriving DecidableEq

namespace Entity

/-- The letters in front of the number in messages. -/
def tag : Entity → String
  | function => "f"
  | block => "b"
  | callSite => "cs"
  | node => "n"

/-- The word for the kind of identifier in detailed texts. -/
def word : Entity → String
  | function => "FunctionId"
  | block => "BlockId"
  | callSite => "CallSiteId"
  | node => "NodeId"

end Entity

/-- The number of a thing of the given kind. -/
structure Ident (kind : Entity) where
  index : Nat
deriving DecidableEq

abbrev FunctionId := Ident .function
abbrev BlockId := Ident .block
abbrev SiteId := Ident .callSite
abbrev NodeId := Ident .node

namespace Ident

variable {kind : Entity}

/-- The short text of an identifier, such as `f2` or `cs7`. -/
def label (a : Ident kind) : String := kind.tag ++ toString a.index

/-- The detailed text of an identifier, such as `FunctionId(2)`. -/
def inspect (a : Ident kind) : String := kind.word ++ "(" ++ toString a.index ++ ")"

/-! ### Order

Identifiers are compared by their numbers. -/

instance : Ord (Ident kind) := ⟨compareOn Ident.index⟩

theorem compare_def (a b : Ident kind) : compare a b = compare a.index b.index := rfl

instance : Std.TransOrd (Ident kind) :=
  inferInstanceAs (Std.TransCmp (compareOn (@Ident.index kind)))

instance : Std.LawfulEqOrd (Ident kind) where
  eq_of_compare {a b} h := by
    cases a
    cases b
    simpa [compare_def] using h

end Ident

/-- Finite maps from functions, in the order of the functions' numbers. -/
abbrev FunctionMap (α : Type) := Std.ExtTreeMap FunctionId α

/-- Finite sets of functions, in the order of their numbers. -/
abbrev FunctionSet := Std.ExtTreeSet FunctionId

end Inlining
