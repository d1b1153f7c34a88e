import Inlining.Proofs.Program.Numbering
import Inlining.Proofs.Run.Workspace
import Mathlib.Data.List.Forall2

/-!
# The contract of the engine

All that inlining a call site does, down to the blocks and their order. `Program.Inlines` says what
becomes of the calls of a program, which is enough for the books of a run. Here the program itself
is described: it is taken apart at the call, and put together again with a marker in the place of
the call and with clones of the callee's blocks behind those of the caller.

The callee is read before anything is changed. The contract therefore speaks of its body as it was,
and holds without change of a function that is inlined into itself.

## Main definitions

* `Program.Place` — a program taken apart at an instruction
* `Program.Splices` — a program with a call site inlined, in every detail

## Main results

* `Program.WellFormed.exists_place` — a program can be taken apart at each of its instructions
* `Program.WellFormed.functions_splice` — and inlining puts it together again
* `Program.WellFormed.forall₂_copiedCalls` — the report lists the calls of the callee in order
* `Workspace.inline_splices` — when the engine succeeds, and what it does then
-/

namespace Inlining

/-! ### Lists -/

/-- Where one member of a list, told from the others by its key, is changed, all others stay. -/
theorem map_ite_of_key {α κ : Type} [DecidableEq κ] {key : α → κ} {before behind : List α} {a : α}
    (distinct : ((before ++ a :: behind).map key).Nodup) (change : α → α) :
    (before ++ a :: behind).map (fun x => if key x = key a then change x else x) =
      before ++ change a :: behind := by
  have hkeep : ∀ l : List α, (∀ x ∈ l, key x ≠ key a) →
      l.map (fun x => if key x = key a then change x else x) = l := fun l hne => by
    rw [List.map_congr_left fun x hx => if_neg (hne x hx), List.map_id']
  rw [List.map_append, List.map_cons, List.nodup_append, List.nodup_cons] at distinct
  obtain ⟨-, ⟨hbehind, -⟩, hbefore⟩ := distinct
  rw [List.map_append, List.map_cons, if_pos rfl, hkeep before, hkeep behind]
  · exact fun x hx heq => hbehind (heq ▸ List.mem_map_of_mem hx)
  · exact fun x hx => hbefore _ (List.mem_map_of_mem hx) _ List.mem_cons_self

theorem filterMap_map_const {α β γ : Type} (o : α → Option γ) (g : α → β) (l : List α) :
    l.filterMap (fun x => (o x).map fun _ => g x) = (l.filter fun x => (o x).isSome).map g := by
  induction l with
  | nil => rfl
  | cons x xs ih => cases h : o x <;> simp [h, ih]

/-- The calls of a function with their locations, in program order. -/
def FunctionBody.calls (f : FunctionBody) : List (Location × Instruction) :=
  f.located.filter fun call => call.2.callee?.isSome

namespace Program

/-! ### Call sites -/

theorem callAt?_eq_some_iff {p : Program} {l : Location} {f : FunctionId} : p.callAt? l = some f ↔
    p.instruction? l = some (.call f) ∨ p.instruction? l = some (.callClosure f) := by
  rw [callAt?]
  cases p.instruction? l with
  | none => simp
  | some i => cases i <;> simp [Instruction.callee?]

theorem exists_calleeAt_eq_ok {p : Program} {site : CallSite} :
    (∃ callee, p.calleeAt site = .ok callee) ↔ site.location.function = site.caller ∧
      (p.instruction? site.location = some (.call site.callee) ∨
        p.instruction? site.location = some (.callClosure site.callee)) ∧
      ∃ callee, p.function? site.callee = some callee := by
  simp only [calleeAt_eq_ok, callAt?_eq_some_iff, exists_and_left]

/-! ### Places -/

/-- A program taken apart at an instruction: what stands before and behind it in its block, what
stands before and behind the block in its function, and the function in the program. -/
structure Place (p : Program) (l : Location) where
  functionsBefore : List FunctionBody
  function : FunctionBody
  functionsBehind : List FunctionBody
  blocksBefore : List Block
  block : Block
  blocksBehind : List Block
  codeBefore : List Instruction
  instruction : Instruction
  codeBehind : List Instruction
  functions_eq : p.functions = functionsBefore ++ function :: functionsBehind
  blocks_eq : function.blocks = blocksBefore ++ block :: blocksBehind
  code_eq : block.code = codeBefore ++ instruction :: codeBehind
  function_id : function.id = l.function
  block_id : block.id = l.block
  length_codeBefore : codeBefore.length = l.index

namespace Place

variable {p : Program} {l : Location}

/-- The functions of the program with another instruction in the place, and with more blocks behind
those of its function. -/
def replace (place : p.Place l) (i : Instruction) (more : List Block) : List FunctionBody :=
  place.functionsBefore ++
    { place.function with
      blocks := place.blocksBefore ++
        { place.block with code := place.codeBefore ++ i :: place.codeBehind } ::
        place.blocksBehind ++ more } ::
    place.functionsBehind

theorem function_mem (place : p.Place l) : place.function ∈ p.functions := by
  simp [place.functions_eq]

theorem block_mem (place : p.Place l) : place.block ∈ place.function.blocks := by
  simp [place.blocks_eq]

theorem function?_eq (place : p.Place l) (wf : p.WellFormed) :
    p.function? l.function = some place.function :=
  wf.function?_eq_some.mpr ⟨place.function_mem, place.function_id⟩

theorem blockAt?_eq (place : p.Place l) (wf : p.WellFormed) :
    p.blockAt? l = some place.block := by
  rw [blockAt?, place.function?_eq wf, Option.bind_some]
  exact (wf.block?_eq_some place.function_mem).mpr ⟨place.block_mem, place.block_id⟩

end Place

variable {p : Program} {site : CallSite} {callee : FunctionBody}

/-- **A program can be taken apart at each of its instructions.** -/
theorem WellFormed.exists_place (wf : p.WellFormed) {l : Location} {i : Instruction}
    (h : p.instruction? l = some i) : ∃ place : p.Place l, place.instruction = i := by
  obtain ⟨f, hf, hl⟩ := wf.instruction?_eq_some.mp h
  obtain ⟨hmem, hid⟩ := wf.function?_eq_some.mp hf
  obtain ⟨-, b, hb, hblock, hi⟩ := FunctionBody.mem_located.mp hl
  obtain ⟨hlt, rfl⟩ := List.getElem?_eq_some_iff.mp hi
  obtain ⟨functionsBefore, functionsBehind, hfunctions⟩ := List.append_of_mem hmem
  obtain ⟨blocksBefore, blocksBehind, hblocks⟩ := List.append_of_mem hb
  have hcode : b.code = b.code.take l.index ++ b.code[l.index] :: b.code.drop (l.index + 1) := by
    rw [List.getElem_cons_drop, List.take_append_drop]
  exact ⟨⟨functionsBefore, f, functionsBehind, blocksBefore, b, blocksBehind, _, _, _,
    hfunctions, hblocks, hcode, hid, hblock, List.length_take_of_le hlt.le⟩, rfl⟩

/-! ### The functions -/

/-- The marker takes the place of the call. -/
theorem markBlock_eq (place : p.Place site.location) : markBlock site place.block =
    { place.block with
      code := place.codeBefore ++ .inlined site.callee :: place.codeBehind } := by
  rw [markBlock, place.code_eq, ← place.length_codeBefore, List.set_append_right _ _ (le_refl _),
    Nat.sub_self, List.set_cons_zero]

/-- **Inlining puts the program together again**, with the marker in the place of the call. -/
theorem WellFormed.functions_splice (wf : p.WellFormed) (place : p.Place site.location)
    (hcaller : site.location.function = site.caller) : (p.splice site callee).functions =
      place.replace (.inlined site.callee) (p.clones site callee) := by
  have hnodup := wf.nodup
  have hdistinct := wf.distinct _ place.function_mem
  have hblocks : (place.function.modifyBlock site.location.block (markBlock site)).blocks =
      place.blocksBefore ++ markBlock site place.block :: place.blocksBehind := by
    rw [FunctionBody.blockIds, place.blocks_eq] at hdistinct
    rw [FunctionBody.modifyBlock, ← place.block_id, place.blocks_eq]
    exact map_ite_of_key hdistinct (markBlock site)
  have hgraft : p.graft site callee place.function = { place.function with
      blocks := place.blocksBefore ++ markBlock site place.block :: place.blocksBehind ++
        p.clones site callee } := by
    rw [graft, hblocks]
    rfl
  rw [splice_eq, Place.replace, ← markBlock_eq, ← hgraft]
  rw [place.functions_eq] at hnodup
  have hmap := map_ite_of_key hnodup (p.graft site callee)
  rw [place.function_id, hcaller, ← place.functions_eq] at hmap
  exact hmap

/-! ### The clones -/

theorem WellFormed.callWeight_eq (wf : p.WellFormed) (place : p.Place site.location) :
    p.callWeight site = place.block.weight := by
  rw [callWeight, place.blockAt?_eq wf]
  rfl

/-- Blocks and clones side by side. -/
theorem forall₂_zip_clones {R : Block → Block × Block → Prop}
    (h : ∀ n b, callee.blocks[n]? = some b → R b (b, { b with
      id := ⟨p.nextBlock + n⟩
      weight := scaledWeight (p.callWeight site) b.weight })) :
    List.Forall₂ R callee.blocks (callee.blocks.zip (p.clones site callee)) := by
  refine List.forall₂_iff_get.mpr ⟨by simp [length_clones], fun n hn hn' => ?_⟩
  have hclone := getElem?_clones p site callee n
  have hlt : n < (p.clones site callee).length := length_clones ▸ hn
  rw [List.getElem?_eq_getElem hn, List.getElem?_eq_getElem hlt, Option.map_some,
    Option.some.injEq] at hclone
  simpa [hclone] using h n _ (List.getElem?_eq_getElem hn)

theorem forall₂_clones {R : Block → Block → Prop}
    (h : ∀ n b, callee.blocks[n]? = some b → R b { b with
      id := ⟨p.nextBlock + n⟩
      weight := scaledWeight (p.callWeight site) b.weight }) :
    List.Forall₂ R callee.blocks (p.clones site callee) := by
  have hzip : List.Forall₂ (fun b x => R b x.2) callee.blocks
    (callee.blocks.zip (p.clones site callee)) := forall₂_zip_clones h
  rw [← List.forall₂_map_right_iff, List.map_snd_zip (by simp [length_clones])] at hzip
  exact hzip

/-! ### The report -/

/-- The calls of the callee as they were, in program order, and their copies as they stand in the
caller. -/
theorem WellFormed.forall₂_copiedCalls (wf : p.WellFormed) (h : p.calleeAt site = .ok callee) :
    List.Forall₂ (fun call c => c.source = call.1 ∧ c.copy.function = site.caller ∧
        c.copy.block ∈ (p.clones site callee).map Block.id ∧
        (p.splice site callee).instruction? c.copy = some call.2)
      callee.calls (p.copiedCalls site callee) := by
  obtain ⟨-, -, hcallee⟩ := calleeAt_eq_ok.mp h
  have hid : callee.id = site.callee := (wf.function?_eq_some.mp hcallee).2
  rw [FunctionBody.calls, FunctionBody.located, List.filter_flatMap, copiedCalls, hid]
  refine List.rel_flatMap (R := fun b x => x.1 = b ∧ x.2.id ∈ (p.clones site callee).map Block.id ∧
    ∀ k, (p.splice site callee).instruction? ⟨site.caller, x.2.id, k⟩ = b.code[k]?)
    (forall₂_zip_clones fun n b hb =>
      ⟨rfl, ?_, wf.instruction?_splice_clone (wf.isSome_caller h) hb⟩) ?_
  · have hclone := getElem?_clones p site callee n
    rw [hb, Option.map_some] at hclone
    exact List.mem_map.mpr ⟨_, List.mem_of_getElem? hclone, rfl⟩
  · -- Within a block the copies have the positions of the calls.
    rintro _ ⟨b, clone⟩ ⟨rfl, hclone, hsame⟩
    change List.Forall₂ _ _ ((b.located site.callee).filterMap fun call =>
      call.2.callee?.map fun _ => CopiedCall.mk call.1 ⟨site.caller, clone.id, call.1.index⟩)
    rw [filterMap_map_const, List.forall₂_map_right_iff, List.forall₂_same]
    rintro ⟨l, i⟩ hl
    obtain ⟨-, -, hi⟩ := Block.mem_located.mp (List.mem_filter.mp hl).1
    exact ⟨rfl, rfl, hclone, (hsame l.index).trans hi⟩

/-- No two calls have the same copy. -/
theorem WellFormed.nodup_copies (wf : p.WellFormed) (h : p.calleeAt site = .ok callee) :
    ((p.copiedCalls site callee).map CopiedCall.copy).Nodup := by
  obtain ⟨-, -, hcallee⟩ := calleeAt_eq_ok.mp h
  have hsources : callee.calls.map Prod.fst =
      (p.copiedCalls site callee).map CopiedCall.source := by
    rw [← List.forall₂_eq_eq_eq, List.forall₂_map_left_iff, List.forall₂_map_right_iff]
    exact (wf.forall₂_copiedCalls h).imp fun _ _ hc => hc.1.symm
  have hdistinct : (callee.calls.map Prod.fst).Nodup := by
    rw [List.Nodup, List.pairwise_map, FunctionBody.calls]
    exact (FunctionBody.located_distinct
      (wf.distinct callee (wf.function?_eq_some.mp hcallee).1)).filter _
  rw [hsources, List.Nodup, List.pairwise_map] at hdistinct
  rw [List.Nodup, List.pairwise_map]
  exact hdistinct.imp_of_mem fun hc hd hne heq =>
    hne ((wf.copiedCalls_paired h hc hd).mpr heq)

/-! ### The contract -/

/-- The program `q` is `p` with a call site inlined, where the call was at the given place. -/
structure Splices (p q : Program) (site : CallSite) (callee : FunctionBody)
    (report : List CopiedCall) (place : p.Place site.location) (clones : List Block) : Prop where
  /-- The marker takes the place of the call, and the clones stand behind the blocks of the caller.
  Nothing else in any function is changed. -/
  functions : q.functions = place.replace (.inlined site.callee) clones
  roots : q.roots = p.roots
  /-- A clone has the code of its block, and a weight scaled by that of the block with the call. -/
  cloned : List.Forall₂ (fun b clone => clone.code = b.code ∧
    clone.weight = min Word.greatest32 (place.block.weight * b.weight / fullWeight))
    callee.blocks clones
  /-- Clones have numbers of their own, which were not given out before. -/
  distinct : (clones.map Block.id).Nodup
  fresh : ∀ c ∈ clones, p.nextBlock ≤ c.id.index ∧ ∀ f ∈ p.functions, c.id ∉ f.blockIds
  /-- They are entered in the register, and nothing else is changed there. -/
  owner : ∀ b, q.owner? b = if b ∈ clones.map Block.id then some site.caller else p.owner? b
  nextFunction : q.nextFunction = p.nextFunction
  nextBlock : q.nextBlock = p.nextBlock + clones.length
  /-- The report lists the calls of the callee in program order, and each copy holds the same
  instruction as its call did. -/
  reported : List.Forall₂ (fun call c => c.source = call.1 ∧ c.copy.function = site.caller ∧
    c.copy.block ∈ clones.map Block.id ∧ q.instruction? c.copy = some call.2) callee.calls report
  copies : (report.map CopiedCall.copy).Nodup
  size : q.snapshot.instructionCount = p.snapshot.instructionCount + callee.size

/-- **Inlining does all that, and nothing else.** -/
theorem WellFormed.splices (wf : p.WellFormed) (h : p.calleeAt site = .ok callee)
    (place : p.Place site.location) : p.Splices (p.splice site callee) site callee
      (p.copiedCalls site callee) place (p.clones site callee) := by
  obtain ⟨hfunction, -, -⟩ := calleeAt_eq_ok.mp h
  constructor
  case functions => exact wf.functions_splice place hfunction
  case roots => rfl
  case cloned =>
    refine forall₂_clones fun n b _ => ⟨rfl, ?_⟩
    rw [scaledWeight, wf.callWeight_eq place]
  case distinct => exact nodup_map_id_clones
  case fresh =>
    intro c hc
    have hle := nextBlock_le_of_mem_clones hc
    exact ⟨hle, fun f hf hb => Nat.not_lt.mpr hle (wf.block_lt f hf c.id hb)⟩
  case owner => exact BlockOwners.getElem?_enter p.owners site.caller (p.clones site callee)
  case nextFunction => rfl
  case nextBlock => rfl
  case reported => exact wf.forall₂_copiedCalls h
  case copies => exact wf.nodup_copies h
  case size =>
    have hinlines := wf.inlines h
    rw [hinlines.wellFormed.instructionCount_snapshot, wf.instructionCount_snapshot, hinlines.size]

end Program

namespace Workspace

open Program

variable {w : Workspace}

/-- **The contract of the engine.** It succeeds exactly if the site lies in its caller and holds a
direct or closure call to its callee, and the callee exists. A failure changes nothing. Going
through the callee block by block makes no difference, since no block fails to be appended. A
success is counted, and the program is the old one with the call site inlined, also where caller and
callee are the same function. -/
theorem inline_splices (edited : w.program.Edited) (site : CallSite) :
    ((∃ report w', inline site w = .ok report w') ↔ site.location.function = site.caller ∧
      (w.program.instruction? site.location = some (.call site.callee) ∨
        w.program.instruction? site.location = some (.callClosure site.callee)) ∧
      ∃ callee, w.program.function? site.callee = some callee) ∧
    (∀ e w', inline site w = .error e w' → w' = w) ∧
    Program.inlineBlockwise site w.program = Program.inline site w.program ∧
    ∀ report w', inline site w = .ok report w' → w'.inlined = w.inlined + 1 ∧
      ∃ callee place clones, w.program.function? site.callee = some callee ∧
        w.program.Splices w'.program site callee report place clones := by
  have wf := edited.wellFormed
  rw [← exists_calleeAt_eq_ok, inline_apply]
  cases hbody : w.program.calleeAt site with
  | error e =>
    refine ⟨by simp, fun e' w' h => ?_, wf.inlineBlockwise_eq site, fun report w' h => ?_⟩
    · cases h
      rfl
    · cases h
  | ok callee =>
    refine ⟨by simp, fun e w' h => ?_, wf.inlineBlockwise_eq site, fun report w' h => ?_⟩
    · cases h
    · cases h
      obtain ⟨-, hcall, hcallee⟩ := calleeAt_eq_ok.mp hbody
      obtain ⟨i, hi, -⟩ := Option.bind_eq_some_iff.mp hcall
      obtain ⟨place, -⟩ := wf.exists_place hi
      exact ⟨rfl, callee, place, _, hcallee, wf.splices hbody place⟩

/-- A function that calls itself, in two blocks, and is to be inlined in the second. -/
def knot : Program :=
  let bare := Program.assemble ["main"] [(0, .op), (0, .call ⟨0⟩), (0, .callClosure ⟨0⟩)] [(0, 100)]
  (Program.push ⟨1⟩ (.call ⟨0⟩)).after ((Program.addBlock ⟨0⟩ 2500).after bare)

theorem built_knot : knot.Built := by
  rw [knot]
  exact .push _ _ (.addBlock _ _ (Program.built_assemble _ _ _))

/-- The call in the second block. -/
def knotSite : CallSite := ⟨⟨⟨0⟩, ⟨1⟩, 0⟩, ⟨0⟩, ⟨0⟩⟩

/-- All calls are copied, the one that is inlined among them, and the clones have the weights of
their blocks two and a half times over. -/
theorem inline_splices_knot : knot.Edited ∧ ∃ report w',
    inline knotSite { program := knot } = .ok report w' ∧ w'.inlined = 1 ∧
    ∃ callee place clones, knot.Splices w'.program knotSite callee report place clones ∧
      report.length = 3 ∧ clones.map Block.weight = [2500, 6250] ∧
      w'.program.snapshot.instructionCount = 8 := by
  have edited : knot.Edited := built_knot.edited
  obtain ⟨hsucceeds, -, -, hsplices⟩ := inline_splices (w := { program := knot }) edited knotSite
  obtain ⟨report, w', h⟩ := hsucceeds.mpr ⟨rfl, .inl (by decide +kernel),
    Option.isSome_iff_exists.mp (by decide +kernel)⟩
  obtain ⟨hinlined, callee, place, clones, hcallee, hs⟩ := hsplices report w' h
  have hbody : callee.calls.length = 3 ∧ callee.blocks.map Block.weight = [1000, 2500] ∧
      callee.size = 4 := by
    have hsome : (knot.function? knotSite.callee).map (fun f =>
        (f.calls.length, f.blocks.map Block.weight, f.size)) = some (3, [1000, 2500], 4) := by
      decide +kernel
    rw [hcallee] at hsome
    simpa using hsome
  have hweight : place.block.weight = 2500 := by
    have hsome : (knot.blockAt? knotSite.location).map Block.weight = some 2500 := by
      decide +kernel
    rw [place.blockAt?_eq edited.wellFormed] at hsome
    simpa using hsome
  have hclones : clones.map Block.weight = (callee.blocks.map Block.weight).map fun n =>
      min Word.greatest32 (2500 * n / fullWeight) := by
    rw [List.map_map, ← List.forall₂_eq_eq_eq, List.forall₂_map_left_iff,
      List.forall₂_map_right_iff]
    exact hs.cloned.flip.imp fun clone b hc => hweight ▸ hc.2
  refine ⟨edited, report, w', h, hinlined, callee, place, clones, hs, ?_, ?_, ?_⟩
  · rw [← hs.reported.length_eq, hbody.1]
  · rw [hclones, hbody.2.1]
    decide
  · rw [hs.size, hbody.2.2]
    decide +kernel

end Workspace

end Inlining
