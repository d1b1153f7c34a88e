import Inlining.Arithmetic
import Inlining.Instruction

/-!
# Program snapshots and frequencies

All that the inliner wants to know of a program, whoever keeps it: its functions, where each is
entered, the control transfers in it, its size, and the shape of single instructions. A snapshot may
be inconsistent — functions may repeat or lack an entry — and everything that reads one says what
happens then.

How often blocks run is told apart from the program. Frequencies are exact natural numbers without a
bound; a block that a table does not mention has no frequency, which is not the same as frequency
zero.

## Main definitions

* `Snapshot` — read access to a program
* `Oracle`, `FrequencyTable` — how often blocks run
-/

namespace Inlining

/-- Read access to a program. -/
structure Snapshot where
  /-- The functions of the program. -/
  functions : List FunctionId
  /-- The block where a function is entered. -/
  entryBlock : FunctionId → Option BlockId
  /-- The control transfers in a function with their places, in program order. -/
  transfers : FunctionId → List (Location × CallShape)
  /-- The shape of the instruction at a location, if there is one. -/
  shapeAt : Location → Option CallShape
  /-- The number of instructions of a function. -/
  size : FunctionId → Option Nat

namespace Snapshot

/-- The calls in a function that could be inlined, with their callees. -/
def callees (s : Snapshot) (f : FunctionId) : List (Location × FunctionId) :=
  (s.transfers f).filterMap fun (location, shape) =>
    shape.callee?.map fun callee => (location, callee)

/-- The instructions of all functions. Functions without a size count as empty. -/
def instructionCount (s : Snapshot) : Nat :=
  total (s.functions.filterMap s.size)

end Snapshot

/-! ### Frequencies -/

/-- Frequencies of blocks, as far as they are known. -/
abbrev Oracle := BlockId → Option Nat

/-- A finite table of block frequencies. -/
abbrev FrequencyTable := Std.ExtTreeMap BlockId Nat

namespace FrequencyTable

/-- The table with the given entries; of several entries for a block the last one holds. -/
def ofEntries (entries : List (BlockId × Nat)) : FrequencyTable :=
  entries.foldl (fun table (b, n) => table.insert b n) ∅

/-- Looking up blocks in the table. -/
def oracle (table : FrequencyTable) : Oracle := fun b => table[b]?

end FrequencyTable

end Inlining
