import Inlining.Proofs.Program.WellFormed
import Mathlib.Data.List.Basic

/-!
# What stands where

The view that the inliner has of a program, in terms of single locations. The calls listed for a
function are exactly the calls that stand at locations in it, each listed once, and the sizes add up
to the size of the program.

## Main definitions

* `Program.callAt?` — the function called at a location

## Main results

* `Program.WellFormed.mem_callees_snapshot`, `Program.WellFormed.nodup_callees_snapshot` — the calls
  that the view lists
* `Program.WellFormed.instructionCount_snapshot` — the size that the view adds up to
-/

namespace Inlining

theorem Block.mem_located {f : FunctionId} {b : Block} {l : Location} {i : Instruction} :
    (l, i) ∈ b.located f ↔ l.function = f ∧ l.block = b.id ∧ b.code[l.index]? = some i := by
  simp only [located, List.mem_map, Prod.exists, List.mk_mem_zipIdx_iff_getElem?, Prod.mk.injEq]
  constructor
  · rintro ⟨i, n, hn, rfl, rfl⟩
    exact ⟨rfl, rfl, hn⟩
  · rintro ⟨hf, hb, hi⟩
    refine ⟨i, l.index, hi, ?_, rfl⟩
    rw [← hf, ← hb]

namespace FunctionBody

variable {f : FunctionBody} {l : Location} {i : Instruction}

theorem mem_located : (l, i) ∈ f.located ↔
    l.function = f.id ∧ ∃ b ∈ f.blocks, b.id = l.block ∧ b.code[l.index]? = some i := by
  simp only [located, List.mem_flatMap, Block.mem_located]
  constructor
  · rintro ⟨b, hb, hf, hl, hi⟩
    exact ⟨hf, b, hb, hl.symm, hi⟩
  · rintro ⟨hf, b, hb, hl, hi⟩
    exact ⟨b, hb, hf, hl.symm, hi⟩

/-- No location of a function occurs twice. -/
theorem located_distinct (distinct : f.blockIds.Nodup) :
    f.located.Pairwise fun x y => x.1 ≠ y.1 := by
  rw [located, List.pairwise_flatMap]
  constructor
  · intro b _
    rw [Block.located, List.pairwise_map]
    have hindex : b.code.zipIdx.Pairwise fun x y => x.2 < y.2 := by
      rw [← List.pairwise_map (f := Prod.snd), List.zipIdx_map_snd]
      exact List.pairwise_lt_range'
    exact hindex.imp fun hlt heq => by
      have := congrArg Location.index heq
      simp only at this
      omega
  · rw [blockIds, List.Nodup, List.pairwise_map] at distinct
    refine distinct.imp fun hne => ?_
    rintro ⟨l, i⟩ hl ⟨k, j⟩ hk heq
    rw [Block.mem_located] at hl hk
    rw [show l = k from heq] at hl
    exact hne (hl.2.1.symm.trans hk.2.1)

/-- The calls of a function with their callees, as the inliner sees them. -/
theorem transfers_filterMap (f : FunctionBody) :
    f.transfers.filterMap (fun (l, shape) => shape.callee?.map fun g => (l, g)) =
      f.located.filterMap fun (l, i) => i.callee?.map fun g => (l, g) := by
  rw [transfers, List.filterMap_filterMap]
  refine List.filterMap_congr fun ⟨l, i⟩ _ => ?_
  simp only [← Instruction.shape?_bind_callee? i]
  cases i.shape? <;> rfl

end FunctionBody

namespace Program

/-- The function called at a location, if a call stands there. -/
def callAt? (p : Program) (l : Location) : Option FunctionId :=
  (p.instruction? l).bind Instruction.callee?

/-- A location holds a call of the same function in the program and in its view. -/
theorem shapeAt_snapshot (p : Program) (l : Location) :
    (p.snapshot.shapeAt l).bind CallShape.callee? = p.callAt? l := by
  simp only [snapshot, callAt?]
  cases p.instruction? l with
  | none => rfl
  | some i => cases i <;> rfl

namespace WellFormed

variable {p : Program} {l : Location} {i : Instruction} {f g : FunctionId}

theorem instruction?_eq_some (wf : p.WellFormed) : p.instruction? l = some i ↔
    ∃ body, p.function? l.function = some body ∧ (l, i) ∈ body.located := by
  simp only [instruction?, blockAt?, Option.bind_eq_some_iff]
  constructor
  · rintro ⟨b, ⟨body, hbody, hb⟩, hi⟩
    have hmem := wf.function?_eq_some.mp hbody
    have hb := (wf.block?_eq_some hmem.1).mp hb
    exact ⟨body, hbody, FunctionBody.mem_located.mpr ⟨hmem.2.symm, b, hb.1, hb.2, hi⟩⟩
  · rintro ⟨body, hbody, hl⟩
    obtain ⟨-, b, hb, hid, hi⟩ := FunctionBody.mem_located.mp hl
    have hmem := (wf.function?_eq_some.mp hbody).1
    exact ⟨b, ⟨body, hbody, (wf.block?_eq_some hmem).mpr ⟨hb, hid⟩⟩, hi⟩

theorem instruction?_mk (wf : p.WellFormed) {body : FunctionBody}
    (hbody : p.function? f = some body) {b : Block} (hb : b ∈ body.blocks) (k : Nat) :
    p.instruction? ⟨f, b.id, k⟩ = b.code[k]? := by
  have hmem := (wf.function?_eq_some.mp hbody).1
  have hblock : body.block? b.id = some b := (wf.block?_eq_some hmem).mpr ⟨hb, rfl⟩
  simp [instruction?, blockAt?, hbody, hblock]

/-- A block in which something stands has a number below the next one. -/
theorem block_lt_of_instruction? (wf : p.WellFormed) (h : p.instruction? l = some i) :
    l.block.index < p.nextBlock := by
  obtain ⟨body, hbody, hl⟩ := wf.instruction?_eq_some.mp h
  obtain ⟨-, b, hb, hid, -⟩ := FunctionBody.mem_located.mp hl
  exact wf.block_lt body (wf.function?_eq_some.mp hbody).1 l.block
    (FunctionBody.mem_blockIds.mpr ⟨b, hb, hid⟩)

theorem callAt?_eq_some (wf : p.WellFormed) : p.callAt? l = some g ↔
    ∃ body, p.function? l.function = some body ∧ ∃ i, (l, i) ∈ body.located ∧
      i.callee? = some g := by
  simp only [callAt?, Option.bind_eq_some_iff, wf.instruction?_eq_some]
  constructor
  · rintro ⟨i, ⟨body, hbody, hl⟩, hg⟩
    exact ⟨body, hbody, i, hl, hg⟩
  · rintro ⟨body, hbody, i, hl, hg⟩
    exact ⟨i, ⟨body, hbody, hl⟩, hg⟩

/-! ### The view of the inliner -/

theorem mem_functions_snapshot (wf : p.WellFormed) :
    f ∈ p.snapshot.functions ↔ (p.function? f).isSome := by
  simp only [snapshot, List.mem_map, Option.isSome_iff_exists, wf.function?_eq_some]

/-- The view lists the calls that stand in a function and no others. -/
theorem mem_callees_snapshot (wf : p.WellFormed) :
    (l, g) ∈ p.snapshot.callees f ↔ l.function = f ∧ p.callAt? l = some g := by
  have hbody : ∀ body : FunctionBody, (l, g) ∈ body.transfers.filterMap
      (fun (l, shape) => shape.callee?.map fun g => (l, g)) ↔
        ∃ i, (l, i) ∈ body.located ∧ i.callee? = some g := by
    intro body
    rw [body.transfers_filterMap, List.mem_filterMap]
    constructor
    · rintro ⟨⟨k, i⟩, hk, heq⟩
      obtain ⟨g', hg, heq⟩ := Option.map_eq_some_iff.mp heq
      cases heq
      exact ⟨i, hk, hg⟩
    · rintro ⟨i, hl, hg⟩
      exact ⟨(l, i), hl, by simp [hg]⟩
  rw [Snapshot.callees, wf.callAt?_eq_some]
  simp only [snapshot]
  cases hf : p.function? f with
  | none =>
    simp only [Option.map_none, Option.getD_none, List.filterMap_nil, List.not_mem_nil, false_iff]
    rintro ⟨rfl, body, hbody, -⟩
    rw [hf] at hbody
    cases hbody
  | some body =>
    simp only [Option.map_some, Option.getD_some, hbody]
    have hid := (wf.function?_eq_some.mp hf).2
    constructor
    · rintro ⟨i, hl, hg⟩
      have hfun : l.function = f := (FunctionBody.mem_located.mp hl).1.trans hid
      exact ⟨hfun, body, by rw [hfun, hf], i, hl, hg⟩
    · rintro ⟨rfl, body', hbody', i, hl, hg⟩
      rw [hf] at hbody'
      cases hbody'
      exact ⟨i, hl, hg⟩

/-- The view lists no location twice. -/
theorem nodup_callees_snapshot (wf : p.WellFormed) (f : FunctionId) :
    ((p.snapshot.callees f).map Prod.fst).Nodup := by
  rw [List.Nodup, List.pairwise_map, Snapshot.callees]
  simp only [snapshot]
  cases hf : p.function? f with
  | none => exact .nil
  | some body =>
    have hmem := (wf.function?_eq_some.mp hf).1
    simp only [Option.map_some, Option.getD_some]
    rw [body.transfers_filterMap, List.pairwise_filterMap]
    refine (FunctionBody.located_distinct (wf.distinct body hmem)).imp fun hne => ?_
    intro a ha b hb
    obtain ⟨_, -, rfl⟩ := Option.map_eq_some_iff.mp ha
    obtain ⟨_, -, rfl⟩ := Option.map_eq_some_iff.mp hb
    exact hne

/-- The sizes in the view add up to the size of the program. -/
theorem instructionCount_snapshot (wf : p.WellFormed) :
    p.snapshot.instructionCount = p.size := by
  have hsize : ∀ body ∈ p.functions, p.snapshot.size body.id = some body.size := by
    intro body hbody
    simp only [snapshot, wf.function?_eq_some.mpr ⟨hbody, rfl⟩, Option.map_some]
  rw [Snapshot.instructionCount, size]
  congr 1
  change (p.functions.map FunctionBody.id).filterMap p.snapshot.size = _
  rw [List.filterMap_map, ← List.filterMap_eq_map]
  exact List.filterMap_congr hsize

end WellFormed

/-- No function is larger than the program. -/
theorem size_le_of_snapshot {p : Program} {f : FunctionId} {n : Nat}
    (h : p.snapshot.size f = some n) : n ≤ p.size := by
  obtain ⟨body, hbody, rfl⟩ := Option.map_eq_some_iff.mp h
  exact le_total_of_mem (List.mem_map_of_mem (List.mem_of_find?_eq_some hbody))

end Program

end Inlining
