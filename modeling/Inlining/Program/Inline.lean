import Inlining.Arithmetic
import Inlining.Program.Basic

/-!
# Inlining by copying

The body of the callee is appended to the caller under new block numbers, and a marker takes the
place of the call. Weights of the copied blocks are scaled by the weight of the block with the call,
so that the estimate of how often they run stays sensible.

All of this is one change of the program, `Program.splice`. An engine that goes through the body and
appends block by block, which may fail, comes to the same.

## Main definitions

* `Program.calleeAt` — the body to be copied
* `Program.splice`, `Program.inline` — inlining in one go
* `Program.inlineBlockwise` — inlining block by block
-/

namespace Inlining

namespace Program

/-- The weight of a copied block, which has to fit half a word. -/
def scaledWeight (callWeight weight : Nat) : Nat :=
  min Word.greatest32 (callWeight * weight / fullWeight)

/-- The callee's body, if the call site is one: it lies in its caller and holds a call to the
callee, which exists. -/
def calleeAt (p : Program) (site : CallSite) : Except Error FunctionBody :=
  if site.location.function ≠ site.caller then
    .error (.host (.outsideCaller site))
  else
    match p.instruction? site.location with
    | none => .error (.host (.noInstruction site.location))
    | some i =>
      if i.callee? ≠ some site.callee then
        .error (.host (.otherInstruction i site.location site.callee))
      else
        match p.function? site.callee with
        | none => .error (.host (.unknownCallee site.callee))
        | some body => .ok body

/-- The weight of the block with the call. -/
def callWeight (p : Program) (site : CallSite) : Nat :=
  ((p.blockAt? site.location).map Block.weight).getD fullWeight

/-- Copies of a body's blocks, numbered from the next block on. -/
def clones (p : Program) (site : CallSite) (body : FunctionBody) : List Block :=
  body.blocks.zipIdx.map fun (b, n) =>
    { b with id := ⟨p.nextBlock + n⟩, weight := scaledWeight (p.callWeight site) b.weight }

/-- The calls of a block and the places of their copies in a block of the given number. -/
def callsCopiedTo (site : CallSite) (b : Block) (clone : BlockId) : List CopiedCall :=
  (b.located site.callee).filterMap fun (source, i) =>
    i.callee?.map fun _ => { source, copy := ⟨site.caller, clone, source.index⟩ }

/-- The calls of a body and the places of their copies. -/
def copiedCalls (p : Program) (site : CallSite) (body : FunctionBody) : List CopiedCall :=
  (body.blocks.zip (p.clones site body)).flatMap fun (b, clone) => callsCopiedTo site b clone.id

/-- The program with a body copied to the end of the caller and a marker in place of the call. -/
def splice (p : Program) (site : CallSite) (body : FunctionBody) : Program :=
  let clones := p.clones site body
  { p.modifyFunction site.caller fun f =>
      let f := f.modifyBlock site.location.block fun b =>
        { b with code := b.code.set site.location.index (.inlined site.callee) }
      { f with blocks := f.blocks ++ clones } with
    owners := p.owners.enter site.caller clones
    nextBlock := p.nextBlock + clones.length }

/-- Inlines a call site and reports where the calls of the callee were copied to. -/
def inline (site : CallSite) : Update Program (List CopiedCall) := do
  let p ← get
  let body ← Update.ofExcept (p.calleeAt site)
  set (p.splice site body)
  return p.copiedCalls site body

/-! ### Block by block -/

/-- Copies blocks to the end of the caller, one after the other, and lists the calls copied. -/
def copyBlocks (site : CallSite) (callWeight : Nat) : List Block → Update Program (List CopiedCall)
  | [] => return []
  | b :: rest => do
    let id ← freshBlock
    appendBlock site.caller { b with id, weight := scaledWeight callWeight b.weight }
    let copies ← copyBlocks site callWeight rest
    return callsCopiedTo site b id ++ copies

/-- The program with a marker in place of the call. -/
def markCall (p : Program) (site : CallSite) : Program :=
  p.modifyFunction site.caller fun f => f.modifyBlock site.location.block fun b =>
    { b with code := b.code.set site.location.index (.inlined site.callee) }

/-- Inlines a call site block by block. The body is read before anything is changed, since the
callee may be the caller itself. -/
def inlineBlockwise (site : CallSite) : Update Program (List CopiedCall) := do
  let p ← get
  let body ← Update.ofExcept (p.calleeAt site)
  let copies ← copyBlocks site (p.callWeight site) body.blocks
  modify fun p => p.markCall site
  return copies

end Program

end Inlining
