import Inlining.Snapshot
import Inlining.Update

/-!
# Programs

A program is a list of functions, a function a list of blocks of which the first is the entry, and a
block a list of instructions with a weight: how often the block runs for a thousand entries of its
function. Some functions are roots, entered from outside a given number of times.

Functions and blocks are numbered in the order of their creation, over the whole program, and no
number is ever used twice. The functions therefore stand in ascending order. Which function a block
belongs to is kept in a register beside the functions, where every operation that adds or removes
blocks enters them or strikes them out.

Numbers are natural numbers without a bound. A machine keeps them in half words, and so does this
program as long as its two counters stay within half a word; positions in a block always do, since a
block that has no position left takes no more instructions.

## Main definitions

* `BlockOwners` — the register of blocks
* `Program.addFunction`, `Program.addBlock`, `Program.push`, `Program.setRoot` — building a program
* `Program.function?`, `Program.instruction?`, `Program.owner` — reading it
* `Program.snapshot` — the view that the inliner has of it
-/

namespace Inlining

/-- Instructions that run together. -/
structure Block where
  id : BlockId
  /-- How often the block runs for a thousand entries of its function. -/
  weight : Nat
  code : List Instruction
deriving DecidableEq

/-- The weight of a block that runs once for every entry of its function, as entry blocks do. -/
def fullWeight : Nat := 1000

/-- The instructions of a block of the given function with their locations. -/
def Block.located (f : FunctionId) (b : Block) : List (Location × Instruction) :=
  b.code.zipIdx.map fun (i, n) => ({ function := f, block := b.id, index := n }, i)

/-- A named function; its first block is the entry. -/
structure FunctionBody where
  id : FunctionId
  name : String
  blocks : List Block
deriving DecidableEq

namespace FunctionBody

/-- The block where the function is entered. -/
def entry? (f : FunctionBody) : Option Block := f.blocks.head?

/-- The block of the given number, if it belongs to the function. -/
def block? (f : FunctionBody) (b : BlockId) : Option Block := f.blocks.find? fun x => x.id = b

/-- The number of instructions. -/
def size (f : FunctionBody) : Nat := total (f.blocks.map fun b => b.code.length)

/-- The instructions with their locations, in program order. -/
def located (f : FunctionBody) : List (Location × Instruction) := f.blocks.flatMap (·.located f.id)

/-- The functions called, once for each call. -/
def callees (f : FunctionBody) : List FunctionId :=
  f.blocks.flatMap fun b => b.code.filterMap Instruction.callee?

/-- The control transfers in the function with their places, in program order. -/
def transfers (f : FunctionBody) : List (Location × CallShape) :=
  f.located.filterMap fun (location, i) => i.shape?.map fun shape => (location, shape)

/-- The function with one of its blocks changed. -/
def modifyBlock (f : FunctionBody) (b : BlockId) (change : Block → Block) : FunctionBody :=
  { f with blocks := f.blocks.map fun x => if x.id = b then change x else x }

end FunctionBody

/-- The register of blocks: the function to which each of them belongs. -/
abbrev BlockOwners := Std.ExtTreeMap BlockId FunctionId

namespace BlockOwners

/-- The register with blocks of a function entered. -/
def enter (owners : BlockOwners) (f : FunctionId) (blocks : List Block) : BlockOwners :=
  blocks.foldl (fun owners b => owners.insert b.id f) owners

/-- The register with blocks struck out. -/
def strike (owners : BlockOwners) (blocks : List Block) : BlockOwners :=
  blocks.foldl (fun owners b => owners.erase b.id) owners

end BlockOwners

/-- A whole program. -/
structure Program where
  /-- The functions in ascending order. -/
  functions : List FunctionBody := []
  /-- Functions entered from outside, and how often. -/
  roots : FunctionMap Nat := ∅
  /-- The function to which each block belongs. -/
  owners : BlockOwners := ∅
  /-- The number of the next function. -/
  nextFunction : Nat := 0
  /-- The number of the next block. -/
  nextBlock : Nat := 0

namespace Program

/-! ### Reading -/

/-- The function of the given number. -/
def function? (p : Program) (f : FunctionId) : Option FunctionBody :=
  p.functions.find? fun x => x.id = f

/-- The first function of the given name. -/
def functionNamed? (p : Program) (name : String) : Option FunctionBody :=
  p.functions.find? fun x => x.name = name

/-- The entry block of a function. -/
def entryBlock? (p : Program) (f : FunctionId) : Option BlockId :=
  ((p.function? f).bind FunctionBody.entry?).map Block.id

/-- The entry block of a function that should exist. -/
def entry (p : Program) (f : FunctionId) : Except Error BlockId :=
  match p.entryBlock? f with
  | some b => .ok b
  | none => .error (.host (.unknownFunction f))

/-- The function to which a block belongs. -/
def owner? (p : Program) (b : BlockId) : Option FunctionId := p.owners[b]?

/-- The function to which a block belongs that should exist. -/
def owner (p : Program) (b : BlockId) : Except Error FunctionId :=
  match p.owner? b with
  | some f => .ok f
  | none => .error (.host (.unknownBlock b))

/-- The block at a location. -/
def blockAt? (p : Program) (l : Location) : Option Block :=
  (p.function? l.function).bind fun f => f.block? l.block

/-- The instruction at a location. -/
def instruction? (p : Program) (l : Location) : Option Instruction :=
  (p.blockAt? l).bind fun b => b.code[l.index]?

/-- How often a function is entered from outside. -/
def rootCount (p : Program) (f : FunctionId) : Nat := p.roots.getD f 0

/-- What the inliner sees of a program. A plain operation has the shape of any instruction that is
not a call. -/
def snapshot (p : Program) : Snapshot where
  functions := p.functions.map FunctionBody.id
  entryBlock := p.entryBlock?
  transfers f := ((p.function? f).map FunctionBody.transfers).getD []
  shapeAt l := (p.instruction? l).map fun i => i.shape?.getD .other
  size f := (p.function? f).map FunctionBody.size

/-- The number of instructions of the program. -/
def size (p : Program) : Nat := total (p.functions.map FunctionBody.size)

/-! ### Building -/

/-- The program with one of its functions changed. -/
def modifyFunction (p : Program) (f : FunctionId) (change : FunctionBody → FunctionBody) :
    Program :=
  { p with functions := p.functions.map fun x => if x.id = f then change x else x }

/-- Adds a function with an empty entry block. -/
def addFunction (p : Program) (name : String) : FunctionId × Program :=
  let id : FunctionId := ⟨p.nextFunction⟩
  let entry : Block := { id := ⟨p.nextBlock⟩, weight := fullWeight, code := [] }
  (id,
    { p with
      functions := p.functions ++ [{ id, name, blocks := [entry] }]
      owners := p.owners.enter id [entry]
      nextFunction := p.nextFunction + 1
      nextBlock := p.nextBlock + 1 })

/-- Takes the next block number. -/
def freshBlock : Update Program BlockId :=
  modifyGet fun p => (⟨p.nextBlock⟩, { p with nextBlock := p.nextBlock + 1 })

/-- Puts a block behind the others of a function. -/
def appendBlock (f : FunctionId) (block : Block) : Update Program Unit := do
  if ((← get).function? f).isSome then
    modify fun p =>
      { p.modifyFunction f fun x => { x with blocks := x.blocks ++ [block] } with
        owners := p.owners.enter f [block] }
  else
    throw (.host (.unknownFunction f))

/-- Adds an empty block to a function. Its number is used up even if there is no such function. -/
def addBlock (f : FunctionId) (weight : Nat) : Update Program BlockId := do
  let id ← freshBlock
  appendBlock f { id, weight, code := [] }
  return id

/-- Adds an instruction at the end of a block. Its position has to fit half a word. -/
def push (b : BlockId) (i : Instruction) : Update Program Location := do
  let p ← get
  let f ← Update.ofExcept (p.owner b)
  match (p.function? f).bind fun x => x.block? b with
  | none => throw (.host (.vanishedBlock b f))
  | some target =>
    if Word.greatest32 < target.code.length then
      throw (.host (.fullBlock b))
    else
      set (p.modifyFunction f fun x => x.modifyBlock b fun y => { y with code := y.code ++ [i] })
      return { function := f, block := b, index := target.code.length }

/-- Makes a function a root that is entered the given number of times. -/
def setRoot (f : FunctionId) (count : Nat) : Update Program Unit := do
  if ((← get).function? f).isSome then
    modify fun p => { p with roots := p.roots.insert f count }
  else
    throw (.host (.unknownFunction f))

end Program

end Inlining
