import Inlining.Instruction
import Inlining.Text

/-!
# Programs in writing

The written form of instructions, call shapes and code. A function is written by its number, and in
code a run of equal instructions may be written once with the length of the run: `op*20` stands for
twenty operations. Writing folds runs as far as possible; reading accepts any lengths.
-/

namespace Inlining

namespace Notation

/-- Text before the first of the given character, and text after it if there is one. -/
def divide (mark : Char) (cs : List Char) : List Char × Option (List Char) :=
  let before := cs.takeWhile (· != mark)
  match cs.dropWhile (· != mark) with
  | _ :: after => (before, some after)
  | [] => (before, none)

/-- The function of the given number. -/
def function? (cs : List Char) : Option FunctionId :=
  ((Text.natural? cs).filter (· ≤ Word.greatest32)).map Ident.mk

/-- A word, and the function after a colon if there is one. -/
def wordAndFunction? (cs : List Char) : Option (String × Option FunctionId) :=
  match divide ':' cs with
  | (word, none) => some (String.ofList word, none)
  | (word, some number) => (function? number).map fun f => (String.ofList word, some f)

end Notation

open Notation

/-- The written form of a call shape. -/
def CallShape.text : CallShape → String
  | direct f => "direct:" ++ toString f.index
  | closure f => "closure:" ++ toString f.index
  | other => "other"

/-- The call shape that a text spells. -/
def CallShape.ofText? (s : String) : Option CallShape :=
  match wordAndFunction? s.toList with
  | some ("direct", some f) => some (direct f)
  | some ("closure", some f) => some (closure f)
  | some ("other", none) => some other
  | _ => none

namespace Instruction

/-- The written form of an instruction. -/
def text : Instruction → String
  | op => "op"
  | call f => "call:" ++ toString f.index
  | callClosure f => "closure:" ++ toString f.index
  | branch => "branch"
  | ret => "return"
  | cut => "cut"
  | inlined f => "inlined:" ++ toString f.index

/-- The instruction that characters spell. -/
def ofChars? (cs : List Char) : Option Instruction :=
  match wordAndFunction? cs with
  | some ("op", none) => some op
  | some ("call", some f) => some (call f)
  | some ("closure", some f) => some (callClosure f)
  | some ("branch", none) => some branch
  | some ("return", none) => some ret
  | some ("cut", none) => some cut
  | some ("inlined", some f) => some (inlined f)
  | _ => none

/-- The run of instructions that a text spells. -/
def runOfText? (s : String) : Option (List Instruction) :=
  match divide '*' s.toList with
  | (cs, none) => (ofChars? cs).map fun i => [i]
  | (cs, some number) => do
    let n ← Text.natural? number
    let i ← ofChars? cs
    return List.replicate n i

/-- The code that a list of texts spells. -/
def codeOfText? (items : List String) : Option (List Instruction) :=
  (items.mapM runOfText?).map List.flatten

/-- Maximal runs of equal instructions with their lengths. -/
def runs (code : List Instruction) : List (Instruction × Nat) :=
  code.foldr
    (fun i runs =>
      match runs with
      | (k, n) :: rest => if k = i then (k, n + 1) :: rest else (i, 1) :: runs
      | [] => [(i, 1)])
    []

/-- The written form of code. -/
def codeText (code : List Instruction) : List String :=
  (runs code).map fun (i, n) => if n = 1 then i.text else i.text ++ "*" ++ toString n

end Instruction

end Inlining
