import Inlining.Program.Basic

/-!
# Sweeping

What a program can do without: functions that no root reaches by calls, and the markers of inlined
calls. A program without roots has no notion of reaching, so it keeps all its functions.

## Main definitions

* `reach` — what can be reached along successors, by a worklist
* `Program.sweep` — the program without its dead functions and markers
-/

namespace Inlining

/-- Adds to `seen` all that can be reached from the worklist. Every item of the worklist takes one
step, so the first argument bounds the items ever put there. -/
def reach (next : FunctionId → List FunctionId) :
    Nat → List FunctionId → FunctionSet → FunctionSet
  | 0, _, seen => seen
  | _ + 1, [], seen => seen
  | n + 1, f :: work, seen =>
    if f ∈ seen then reach next n work seen
    else reach next n (next f ++ work) (seen.insert f)

/-- What a sweep took away. -/
structure Sweep where
  /-- The functions removed, in ascending order. -/
  removed : List FunctionId
  /-- The number of markers dropped. -/
  markers : Nat
deriving DecidableEq

namespace Program

/-- The functions that a function calls; none if it does not exist. -/
def calleesOf (p : Program) (f : FunctionId) : List FunctionId :=
  ((p.function? f).map FunctionBody.callees).getD []

/-- The functions that the roots reach by calls. -/
def live (p : Program) : FunctionSet :=
  let calls := total (p.functions.map fun f => f.callees.length)
  reach p.calleesOf (p.roots.size + calls) p.roots.keys ∅

/-- The functions that no root reaches. -/
def dead (p : Program) : List FunctionId :=
  if p.roots.isEmpty then []
  else
    let live := p.live
    (p.functions.map FunctionBody.id).filter fun f => f ∉ live

/-- The program without the given functions. -/
def remove (p : Program) (functions : List FunctionId) : Program :=
  { p with
    functions := p.functions.filter fun f => f.id ∉ functions
    roots := p.roots.filter fun f _ => f ∉ functions
    owners :=
      p.owners.strike ((p.functions.filter fun f => f.id ∈ functions).flatMap FunctionBody.blocks) }

/-- The program without markers. -/
def stripMarkers (p : Program) : Program :=
  { p with
    functions := p.functions.map fun f =>
      { f with blocks := f.blocks.map fun b =>
          { b with code := b.code.filter fun i => !i.isMarker } } }

/-- Removes dead functions and markers. -/
def sweep (p : Program) : Sweep × Program :=
  let removed := p.dead
  let kept := p.remove removed
  let swept := kept.stripMarkers
  ({ removed, markers := kept.size - swept.size }, swept)

end Program

end Inlining
