import Inlining.Ident

/-!
# Instructions and calls

An instruction is addressed by its function, its block and its position in the block. Locations are
ordered lexicographically in that order, which is the order in which call sites are visited.

What the inliner knows of a call is its shape, its place, who calls and who is called, and where a
call was copied to when the body around it was. The instruction set is as small as the inliner's
questions: an instruction is a plain operation, a call, another control transfer, or the marker that
stands where a call used to be.

## Main definitions

* `Location` — the address of an instruction
* `CallShape`, `CallSite`, `CopiedCall` — what is known of a call
* `Instruction` — the instruction set
-/

namespace Inlining

/-! ### Locations -/

/-- The address of one instruction. -/
structure Location where
  function : FunctionId
  block : BlockId
  index : Nat
deriving DecidableEq

namespace Location

/-- The short text of a location, such as `f2:b5#1`. -/
def label (l : Location) : String :=
  l.function.label ++ ":" ++ l.block.label ++ "#" ++ toString l.index

/-- The detailed text of a location, with its fields spelt out. -/
def inspect (l : Location) : String :=
  "Location \x7b function: " ++ l.function.inspect ++ ", block: " ++ l.block.inspect
    ++ ", index: " ++ toString l.index ++ " \x7d"

/-- Function first, then block, then position. -/
def order : Location → Location → Ordering :=
  compareLex (compareOn function) (compareLex (compareOn block) (compareOn index))

instance : Ord Location := ⟨order⟩

instance : Std.TransOrd Location :=
  inferInstanceAs (Std.TransCmp
    (compareLex (compareOn function) (compareLex (compareOn block) (compareOn index))))

theorem compare_eq_eq {a b : Location} :
    compare a b = .eq ↔ a.function = b.function ∧ a.block = b.block ∧ a.index = b.index := by
  change order a b = .eq ↔ _
  simp only [order, compareLex_eq_eq, compareOn, Std.compare_eq_iff_eq]

instance : Std.LawfulEqOrd Location where
  eq_of_compare {a b} h := by
    cases a
    cases b
    simpa [compare_eq_eq] using h

/-- The locations of a list in ascending order. -/
def sort (ls : List Location) : List Location :=
  ls.mergeSort fun a b => (compare a b).isLE

end Location

/-- Finite maps from locations, in the order of locations. -/
abbrev LocationMap (α : Type) := Std.ExtTreeMap Location α

/-! ### Calls -/

/-- How an instruction transfers control. Only direct calls and closure calls with a known target
can be inlined. -/
inductive CallShape where
  | direct (callee : FunctionId)
  | closure (callee : FunctionId)
  | other
deriving DecidableEq

namespace CallShape

/-- The function whose body could stand in place of the instruction. -/
def callee? : CallShape → Option FunctionId
  | direct f => some f
  | closure f => some f
  | other => none

/-- Whether the instruction can be inlined at all. -/
def isInlineable (s : CallShape) : Bool := s.callee?.isSome

end CallShape

/-- A call that may be inlined. -/
structure CallSite where
  location : Location
  caller : FunctionId
  callee : FunctionId
deriving DecidableEq

namespace CallSite

/-- The short text of a call site, such as `f0 -> f1 @ f0:b0#3`. -/
def label (s : CallSite) : String :=
  s.caller.label ++ " -> " ++ s.callee.label ++ " @ " ++ s.location.label

/-- The detailed text of a call site, with its fields spelt out. -/
def inspect (s : CallSite) : String :=
  "CallSite \x7b location: " ++ s.location.inspect ++ ", caller: " ++ s.caller.inspect
    ++ ", callee: " ++ s.callee.inspect ++ " \x7d"

end CallSite

/-- A call of an inlined body and the place of its copy in the caller. -/
structure CopiedCall where
  source : Location
  copy : Location
deriving DecidableEq

/-! ### Instructions -/

/-- One instruction. -/
inductive Instruction where
  | op
  | call (callee : FunctionId)
  | callClosure (callee : FunctionId)
  | branch
  | ret
  | cut
  | inlined (callee : FunctionId)
deriving DecidableEq

namespace Instruction

/-- The shape of a control transfer; a plain operation has none. -/
def shape? : Instruction → Option CallShape
  | op => none
  | call f => some (.direct f)
  | callClosure f => some (.closure f)
  | branch | ret | cut | inlined _ => some .other

/-- The function that the instruction calls. -/
def callee? : Instruction → Option FunctionId
  | call f => some f
  | callClosure f => some f
  | _ => none

/-- Whether the instruction marks a call that was inlined. -/
def isMarker : Instruction → Bool
  | inlined _ => true
  | _ => false

/-- The detailed text of an instruction, such as `Call(FunctionId(3))`. -/
def inspect : Instruction → String
  | op => "Op"
  | call f => "Call(" ++ f.inspect ++ ")"
  | callClosure f => "CallClosure(" ++ f.inspect ++ ")"
  | branch => "Branch"
  | ret => "Return"
  | cut => "Cut"
  | inlined f => "Inlined(" ++ f.inspect ++ ")"

/-- The callee read off the shape is the callee of the instruction. -/
theorem shape?_bind_callee? (i : Instruction) : i.shape?.bind CallShape.callee? = i.callee? := by
  cases i <;> rfl

end Instruction

end Inlining
