import Inlining.Program.Inline
import Inlining.Proofs.Program.Locations

/-!
# What inlining does to a program

`Program.Inlines` is the contract between an engine that inlines by copying and everyone who keeps
books on its work. It speaks of locations only: which calls stay, which one goes, and which new ones
there are, with a report that pairs every call of the copied body with its copy. How blocks are
copied is a matter of this module alone.

The body is read before anything is changed. A function that is inlined into itself is therefore
copied with the very call that the inline replaces, and the copy of that call is live.

## Main definitions

* `Program.Inlines` — the contract

## Main results

* `Program.calleeAt_eq_ok` — when a call site can be inlined
* `Program.WellFormed.inlines` — inlining keeps the contract
-/

namespace Inlining

namespace Program

/-- The program `q` is `p` with a call site inlined, and the report says where the calls of the
callee's body were copied to. -/
structure Inlines (p q : Program) (site : CallSite) (body : FunctionBody)
    (report : List CopiedCall) : Prop where
  wellFormed : q.WellFormed
  nextBlock : p.nextBlock ≤ q.nextBlock
  /-- The caller grows by the size of the callee, and nothing else changes its size. -/
  functionSize : ∀ f, q.snapshot.size f =
    (p.snapshot.size f).map fun n => if f = site.caller then n + body.size else n
  size : q.size = p.size + body.size
  /-- The call that was inlined is gone. -/
  gone : q.callAt? site.location = none
  /-- All other calls stay. -/
  kept : ∀ l, l.block.index < p.nextBlock → l ≠ site.location → q.callAt? l = p.callAt? l
  /-- A reported copy is a call of the same function in a new block of the caller. -/
  copied : ∀ c ∈ report, c.source.function = site.callee ∧ c.copy.function = site.caller ∧
    p.nextBlock ≤ c.copy.block.index ∧ (p.callAt? c.source).isSome ∧
    q.callAt? c.copy = p.callAt? c.source
  /-- Every call of the callee is reported. -/
  reported : ∀ l, l.function = site.callee → (p.callAt? l).isSome → ∃ c ∈ report, c.source = l
  /-- Every call in a new block is a reported copy. -/
  new : ∀ l, p.nextBlock ≤ l.block.index → (q.callAt? l).isSome → ∃ c ∈ report, c.copy = l
  /-- A call has one copy, and a copy is the copy of one call. -/
  paired : ∀ c ∈ report, ∀ d ∈ report, c.source = d.source ↔ c.copy = d.copy

/-- Inlining neither adds nor removes functions. -/
theorem Inlines.mem_functions_snapshot {p q : Program} {site : CallSite} {body : FunctionBody}
    {report : List CopiedCall} (h : p.Inlines q site body report) (wf : p.WellFormed)
    (f : FunctionId) : f ∈ q.snapshot.functions ↔ f ∈ p.snapshot.functions := by
  have hsize : ∀ r : Program, (r.snapshot.size f).isSome = (r.function? f).isSome := fun r => by
    simp [snapshot]
  rw [h.wellFormed.mem_functions_snapshot, wf.mem_functions_snapshot, ← hsize, ← hsize,
    h.functionSize, Option.isSome_map]

/-- A call of the new program stood there before, or it is a copy. -/
theorem Inlines.callAt?_cases {p q : Program} {site : CallSite} {body : FunctionBody}
    {report : List CopiedCall} (h : p.Inlines q site body report) {l : Location} {f : FunctionId}
    (hl : q.callAt? l = some f) : (p.callAt? l = some f ∧ l ≠ site.location) ∨
      ∃ k, p.callAt? k = some f ∧ ⟨k, l⟩ ∈ report := by
  by_cases hold : l.block.index < p.nextBlock
  · have hne : l ≠ site.location := by
      rintro rfl
      rw [h.gone] at hl
      cases hl
    exact .inl ⟨(h.kept l hold hne).symm.trans hl, hne⟩
  · obtain ⟨⟨k, _⟩, hmem, rfl⟩ := h.new l (Nat.not_lt.mp hold) (Option.isSome_of_eq_some hl)
    exact .inr ⟨k, (h.copied _ hmem).2.2.2.2.symm.trans hl, hmem⟩

/-! ### The call site -/

/-- A call site can be inlined if it lies in its caller and holds a call to its callee, which
exists. -/
theorem calleeAt_eq_ok {p : Program} {site : CallSite} {body : FunctionBody} :
    p.calleeAt site = .ok body ↔ site.location.function = site.caller ∧
      p.callAt? site.location = some site.callee ∧ p.function? site.callee = some body := by
  rw [calleeAt, callAt?]
  by_cases hcaller : site.location.function = site.caller
  · simp only [hcaller, ne_eq, not_true_eq_false, if_false, true_and]
    cases p.instruction? site.location with
    | none => simp
    | some i =>
      by_cases hi : i.callee? = some site.callee
      · simp only [hi, not_true_eq_false, if_false, Option.bind_some, true_and]
        cases p.function? site.callee <;> simp
      · simp [hi]
  · simp [hcaller]

theorem inline_apply (p : Program) (site : CallSite) :
    inline site p = match p.calleeAt site with
      | .ok body => .ok (p.copiedCalls site body) (p.splice site body)
      | .error e => .error e p := by
  cases hbody : p.calleeAt site <;> simp [inline, hbody]

/-! ### The caller's new body -/

theorem function?_modifyFunction (p : Program) (f g : FunctionId)
    {change : FunctionBody → FunctionBody} (keeps : ∀ x, (change x).id = x.id) :
    (p.modifyFunction f change).function? g =
      (p.function? g).map fun x => if x.id = f then change x else x := by
  rw [modifyFunction, function?, List.find?_map]
  congr 2
  funext x
  simp only [Function.comp_apply]
  split <;> simp [keeps]

/-- The block of the call with the marker in place of the call. -/
def markBlock (site : CallSite) (b : Block) : Block :=
  { b with code := b.code.set site.location.index (.inlined site.callee) }

/-- The caller with the marker and the copied blocks. -/
def graft (p : Program) (site : CallSite) (body f : FunctionBody) : FunctionBody :=
  { f.modifyBlock site.location.block (markBlock site) with
    blocks := (f.modifyBlock site.location.block (markBlock site)).blocks ++ p.clones site body }

section Splice

variable {p : Program} {site : CallSite} {body : FunctionBody}

theorem length_clones : (p.clones site body).length = body.blocks.length := by
  simp [clones]

theorem getElem?_clones (p : Program) (site : CallSite) (body : FunctionBody) (n : Nat) :
    (p.clones site body)[n]? = body.blocks[n]?.map fun b =>
      { b with id := ⟨p.nextBlock + n⟩, weight := scaledWeight (p.callWeight site) b.weight } := by
  rw [clones, List.getElem?_map, List.getElem?_zipIdx, Option.map_map, Nat.zero_add]
  rfl

theorem splice_eq : p.splice site body =
    { p.modifyFunction site.caller (p.graft site body) with
      owners := p.owners.enter site.caller (p.clones site body)
      nextBlock := p.nextBlock + body.blocks.length } := by
  rw [← length_clones]
  rfl

theorem function?_splice (g : FunctionId) : (p.splice site body).function? g =
    (p.function? g).map fun x => if x.id = site.caller then p.graft site body x else x := by
  rw [splice_eq]
  exact p.function?_modifyFunction site.caller g fun _ => rfl

/-- The numbers of the copied blocks count up from the next number. -/
theorem map_id_clones : (p.clones site body).map Block.id =
    (List.range' p.nextBlock body.blocks.length).map Ident.mk := by
  refine List.ext_getElem? fun n => ?_
  rw [List.getElem?_map, getElem?_clones, List.getElem?_map, Option.map_map]
  by_cases hn : n < body.blocks.length
  · simp [hn]
  · rw [List.getElem?_eq_none (by omega), List.getElem?_eq_none (by simpa using hn)]
    rfl

theorem nodup_map_id_clones : ((p.clones site body).map Block.id).Nodup := by
  rw [map_id_clones, List.Nodup, List.pairwise_map]
  exact (List.nodup_range').imp fun hne heq => hne (congrArg Ident.index heq)

theorem nextBlock_le_of_mem_clones {c : Block} (hc : c ∈ p.clones site body) :
    p.nextBlock ≤ c.id.index := by
  obtain ⟨n, hn⟩ := List.mem_iff_getElem?.mp hc
  rw [getElem?_clones] at hn
  obtain ⟨_, -, rfl⟩ := Option.map_eq_some_iff.mp hn
  exact Nat.le_add_right _ _

theorem blockIds_graft (f : FunctionBody) : (p.graft site body f).blockIds =
    f.blockIds ++ (p.clones site body).map Block.id := by
  rw [graft, FunctionBody.blockIds, List.map_append]
  congr 1
  exact f.blockIds_modifyBlock site.location.block fun _ => rfl

theorem WellFormed.splice (wf : p.WellFormed) : (p.splice site body).WellFormed := by
  rw [splice_eq]
  refine wf.extend site.caller ((p.clones site body).map Block.id) _ rfl rfl ?_ ?_
    nodup_map_id_clones ?_ ?_ (Nat.le_add_right _ _)
  · intro f
    split <;> rfl
  · intro f _
    split
    · exact blockIds_graft f
    · simp
  · rw [map_id_clones]
    simp only [List.mem_map, List.mem_range'_1]
    rintro _ ⟨n, hn, rfl⟩
    exact hn.1
  · rw [map_id_clones]
    simp only [List.mem_map, List.mem_range'_1]
    rintro _ ⟨n, hn, rfl⟩
    exact hn.2

/-! ### Sizes -/

theorem size_graft (f : FunctionBody) :
    (p.graft site body f).size = f.size + body.size := by
  have hclones : (p.clones site body).map (fun b => b.code.length) =
      body.blocks.map fun b => b.code.length := by
    refine List.ext_getElem? fun n => ?_
    rw [List.getElem?_map, getElem?_clones, List.getElem?_map, Option.map_map]
    rfl
  have hmarked : (f.modifyBlock site.location.block (markBlock site)).blocks.map
      (fun b => b.code.length) = f.blocks.map fun b => b.code.length := by
    rw [FunctionBody.modifyBlock, List.map_map]
    refine List.map_congr_left fun b _ => ?_
    simp only [Function.comp_apply]
    split <;> simp [markBlock]
  rw [graft, FunctionBody.size, List.map_append, total_append, hclones, hmarked]
  rfl

theorem snapshot_size_splice (f : FunctionId) : (p.splice site body).snapshot.size f =
    (p.snapshot.size f).map fun n => if f = site.caller then n + body.size else n := by
  change ((p.splice site body).function? f).map FunctionBody.size =
    ((p.function? f).map FunctionBody.size).map _
  rw [function?_splice]
  cases hx : p.function? f with
  | none => rfl
  | some x =>
    have hid : x.id = f := by simpa using List.find?_some hx
    simp only [Option.map_some, hid]
    split
    · rw [size_graft]
    · rfl

end Splice

section Splice

variable {p : Program} {site : CallSite} {body : FunctionBody} {l : Location} {i : Instruction}

theorem WellFormed.size_splice (wf : p.WellFormed) (hcaller : (p.function? site.caller).isSome) :
    (p.splice site body).size = p.size + body.size := by
  obtain ⟨x, hx⟩ := Option.isSome_iff_exists.mp hcaller
  obtain ⟨hmem, hid⟩ := wf.function?_eq_some.mp hx
  have hk : site.caller ∈ p.functions.map FunctionBody.id := List.mem_map.mpr ⟨x, hmem, hid⟩
  rw [size, size, ← total_map_add_of_key wf.nodup hk FunctionBody.size body.size, splice_eq]
  simp only [modifyFunction, List.map_map]
  congr 1
  refine List.map_congr_left fun f _ => ?_
  simp only [Function.comp_apply]
  split
  · exact size_graft f
  · rfl

/-! ### Instructions -/

theorem find?_clones_eq_some {b : BlockId} {x : Block} :
    (p.clones site body).find? (fun y => y.id = b) = some x ↔
      ∃ n, (p.clones site body)[n]? = some x ∧ b = ⟨p.nextBlock + n⟩ := by
  have hid : ∀ n, (p.clones site body)[n]? = some x → x.id = ⟨p.nextBlock + n⟩ := by
    intro n hn
    rw [getElem?_clones] at hn
    obtain ⟨_, -, rfl⟩ := Option.map_eq_some_iff.mp hn
    rfl
  rw [find?_key_eq_some nodup_map_id_clones, List.mem_iff_getElem?]
  constructor
  · rintro ⟨⟨n, hn⟩, rfl⟩
    exact ⟨n, hn, hid n hn⟩
  · rintro ⟨n, hn, rfl⟩
    exact ⟨⟨n, hn⟩, hid n hn⟩

theorem block?_graft (f : FunctionBody) (b : BlockId) : (p.graft site body f).block? b =
    ((f.block? b).map fun x => if x.id = site.location.block then markBlock site x else x).or
      ((p.clones site body).find? fun x => x.id = b) := by
  rw [FunctionBody.block?, graft, List.find?_append]
  congr 1
  rw [FunctionBody.modifyBlock, List.find?_map]
  congr 2
  funext x
  simp only [Function.comp_apply]
  split <;> rfl

/-- Nothing but the call itself changes in the blocks that there were. -/
theorem instruction?_splice_of_lt (hfun : site.location.function = site.caller)
    (hlt : l.block.index < p.nextBlock) (hne : l ≠ site.location) :
    (p.splice site body).instruction? l = p.instruction? l := by
  have hclones : (p.clones site body).find? (fun x => x.id = l.block) = none := by
    rw [Option.eq_none_iff_forall_ne_some]
    intro x hx
    obtain ⟨n, -, hn⟩ := find?_clones_eq_some.mp hx
    rw [hn] at hlt
    exact absurd hlt (Nat.not_lt.mpr (Nat.le_add_right _ _))
  simp only [instruction?, blockAt?, function?_splice]
  cases hx : p.function? l.function with
  | none => rfl
  | some x =>
    have hxid : x.id = l.function := by simpa using List.find?_some hx
    simp only [Option.map_some, Option.bind_some]
    split
    · rename_i hcaller
      rw [block?_graft, hclones, Option.or_none]
      cases hb : x.block? l.block with
      | none => rfl
      | some b =>
        have hbid : b.id = l.block := by simpa using List.find?_some hb
        simp only [Option.map_some, Option.bind_some]
        split
        · rename_i hblock
          have hindex : site.location.index ≠ l.index := by
            intro hindex
            refine hne ?_
            cases hl : l
            cases hs : site.location
            simp_all
          rw [markBlock, List.getElem?_set_ne hindex]
        · rfl
    · rfl

/-- The marker stands where the call was. -/
theorem WellFormed.instruction?_splice_self (wf : p.WellFormed)
    (h : p.instruction? site.location = some i) (hfun : site.location.function = site.caller) :
    (p.splice site body).instruction? site.location = some (.inlined site.callee) := by
  simp only [instruction?, blockAt?, Option.bind_eq_some_iff] at h
  obtain ⟨b, ⟨x, hx, hb⟩, hi⟩ := h
  have hxid : x.id = site.caller := (wf.function?_eq_some.mp hx).2.trans hfun
  have hbid : b.id = site.location.block := by simpa using List.find?_some hb
  have hlt : site.location.index < b.code.length := (List.getElem?_eq_some_iff.mp hi).1
  simp [instruction?, blockAt?, function?_splice, hx, hxid, block?_graft, hb, hbid, markBlock, hlt]

/-- A copied block holds what the block itself held. -/
theorem WellFormed.instruction?_splice_clone (wf : p.WellFormed)
    (hcaller : (p.function? site.caller).isSome) {n : Nat} {b : Block}
    (hb : body.blocks[n]? = some b) (k : Nat) :
    (p.splice site body).instruction? ⟨site.caller, ⟨p.nextBlock + n⟩, k⟩ = b.code[k]? := by
  obtain ⟨x, hx⟩ := Option.isSome_iff_exists.mp hcaller
  obtain ⟨hmem, hid⟩ := wf.function?_eq_some.mp hx
  have hold : x.block? ⟨p.nextBlock + n⟩ = none := by
    rw [Option.eq_none_iff_forall_ne_some]
    intro y hy
    have hy := (wf.block?_eq_some hmem).mp hy
    have := wf.block_lt x hmem _ (FunctionBody.mem_blockIds.mpr ⟨y, hy⟩)
    simp only at this
    omega
  have hclone := getElem?_clones p site body n
  rw [hb, Option.map_some] at hclone
  have hfind := find?_clones_eq_some.mpr ⟨n, hclone, rfl⟩
  simp [instruction?, blockAt?, function?_splice, hx, hid, block?_graft, hold, hfind]

/-- All that stands in a new block was copied. -/
theorem WellFormed.exists_of_instruction?_splice (wf : p.WellFormed)
    (hle : p.nextBlock ≤ l.block.index) (h : (p.splice site body).instruction? l = some i) :
    ∃ n b, body.blocks[n]? = some b ∧ l.function = site.caller ∧ l.block = ⟨p.nextBlock + n⟩ ∧
      b.code[l.index]? = some i := by
  simp only [instruction?, blockAt?, function?_splice, Option.bind_eq_some_iff,
    Option.map_eq_some_iff] at h
  obtain ⟨y, ⟨_, ⟨x, hx, rfl⟩, hy⟩, hi⟩ := h
  obtain ⟨hmem, hid⟩ := wf.function?_eq_some.mp hx
  have hold : x.block? l.block = none := by
    rw [Option.eq_none_iff_forall_ne_some]
    intro b hb
    have hb := (wf.block?_eq_some hmem).mp hb
    have := wf.block_lt x hmem _ (FunctionBody.mem_blockIds.mpr ⟨b, hb⟩)
    omega
  split at hy
  · rename_i hcaller
    rw [block?_graft, hold, Option.map_none, Option.none_or] at hy
    obtain ⟨n, hn, hblock⟩ := find?_clones_eq_some.mp hy
    rw [getElem?_clones] at hn
    obtain ⟨b, hb, rfl⟩ := Option.map_eq_some_iff.mp hn
    exact ⟨n, b, hb, hid.symm.trans hcaller, hblock, hi⟩
  · rw [hold] at hy
    cases hy

/-! ### The report -/

theorem mem_copiedCalls {c : CopiedCall} : c ∈ p.copiedCalls site body ↔
    ∃ n b i, body.blocks[n]? = some b ∧ b.code[c.source.index]? = some i ∧ i.callee?.isSome ∧
      c.source.function = site.callee ∧ c.source.block = b.id ∧
      c.copy = ⟨site.caller, ⟨p.nextBlock + n⟩, c.source.index⟩ := by
  rw [copiedCalls, List.mem_flatMap]
  constructor
  · rintro ⟨⟨b, clone⟩, hzip, hc⟩
    obtain ⟨n, hn⟩ := List.mem_iff_getElem?.mp hzip
    obtain ⟨hb, hclone⟩ := List.getElem?_zip_eq_some.mp hn
    simp only at hb hclone
    rw [getElem?_clones, hb, Option.map_some, Option.some.injEq] at hclone
    subst hclone
    obtain ⟨⟨source, i⟩, hsource, hmap⟩ := List.mem_filterMap.mp hc
    obtain ⟨g, hg, rfl⟩ := Option.map_eq_some_iff.mp hmap
    obtain ⟨hfun, hblock, hi⟩ := Block.mem_located.mp hsource
    exact ⟨n, b, i, hb, hi, Option.isSome_of_eq_some hg, hfun, hblock, rfl⟩
  · rintro ⟨n, b, i, hb, hi, hcall, hfun, hblock, hcopy⟩
    have hclone := getElem?_clones p site body n
    rw [hb, Option.map_some] at hclone
    refine ⟨(b, _), List.mem_iff_getElem?.mpr ⟨n, List.getElem?_zip_eq_some.mpr ⟨hb, hclone⟩⟩, ?_⟩
    obtain ⟨g, hg⟩ := Option.isSome_iff_exists.mp hcall
    refine List.mem_filterMap.mpr ⟨(c.source, i), Block.mem_located.mpr ⟨hfun, hblock, hi⟩, ?_⟩
    simp only [hg, Option.map_some, ← hcopy]

theorem WellFormed.isSome_caller (wf : p.WellFormed) (h : p.calleeAt site = .ok body) :
    (p.function? site.caller).isSome := by
  obtain ⟨hfun, hcall, -⟩ := calleeAt_eq_ok.mp h
  obtain ⟨x, hx, -⟩ := wf.callAt?_eq_some.mp hcall
  rw [← hfun, hx]
  rfl

/-- A reported call as it stood in the body and as it stands in the caller. -/
theorem WellFormed.callAt?_of_copied (wf : p.WellFormed) (h : p.calleeAt site = .ok body)
    {c : CopiedCall} (hc : c ∈ p.copiedCalls site body) :
    (p.callAt? c.source).isSome ∧ (p.splice site body).callAt? c.copy = p.callAt? c.source := by
  obtain ⟨-, -, hbody⟩ := calleeAt_eq_ok.mp h
  obtain ⟨n, b, i, hb, hi, hcallee, hsource, hblock, hcopy⟩ := mem_copiedCalls.mp hc
  have hold : p.instruction? c.source = some i := by
    rw [← hi, ← wf.instruction?_mk hbody (List.mem_of_getElem? hb)]
    rw [← hsource, ← hblock]
  have hnew : (p.splice site body).instruction? c.copy = some i := by
    rw [hcopy, wf.instruction?_splice_clone (wf.isSome_caller h) hb, hi]
  simp only [callAt?, hold, hnew, Option.bind_some, hcallee, and_self]

/-- A call has one copy, and a copy is the copy of one call. -/
theorem WellFormed.copiedCalls_paired (wf : p.WellFormed) (h : p.calleeAt site = .ok body)
    {c d : CopiedCall} (hc : c ∈ p.copiedCalls site body) (hd : d ∈ p.copiedCalls site body) :
    c.source = d.source ↔ c.copy = d.copy := by
  obtain ⟨-, -, hbody⟩ := calleeAt_eq_ok.mp h
  obtain ⟨n, b, i, hb, hi, -, hfun, hblock, hcopy⟩ := mem_copiedCalls.mp hc
  obtain ⟨m, b', i', hb', hi', -, hfun', hblock', hcopy'⟩ := mem_copiedCalls.mp hd
  rw [hcopy, hcopy']
  constructor
  · intro hsource
    have hids : body.blockIds[n]? = body.blockIds[m]? := by
      rw [FunctionBody.blockIds, List.getElem?_map, List.getElem?_map, hb, hb', Option.map_some,
        Option.map_some, ← hblock, ← hblock', hsource]
    have hlt : n < body.blockIds.length := by
      simpa [FunctionBody.blockIds] using (List.getElem?_eq_some_iff.mp hb).1
    have hnm : n = m :=
      (List.getElem?_inj hlt (wf.distinct body (wf.function?_eq_some.mp hbody).1)).mp hids
    rw [hnm, hsource]
  · intro heq
    have hnm : n = m := by
      have := congrArg (fun l : Location => l.block.index) heq
      simp only at this
      omega
    subst hnm
    rw [hb] at hb'
    cases hb'
    have hindex := congrArg Location.index heq
    cases hcs : c.source
    cases hds : d.source
    simp_all

/-- **Inlining keeps its contract.** -/
theorem WellFormed.inlines (wf : p.WellFormed) (h : p.calleeAt site = .ok body) :
    p.Inlines (p.splice site body) site body (p.copiedCalls site body) := by
  obtain ⟨hfun, hcall, hbody⟩ := calleeAt_eq_ok.mp h
  constructor
  case wellFormed => exact wf.splice
  case nextBlock =>
    rw [splice_eq]
    exact Nat.le_add_right _ _
  case functionSize => exact snapshot_size_splice
  case size => exact wf.size_splice (wf.isSome_caller h)
  case gone =>
    obtain ⟨i, hi, -⟩ := Option.bind_eq_some_iff.mp hcall
    rw [callAt?, wf.instruction?_splice_self hi hfun]
    rfl
  case kept =>
    intro l hlt hne
    rw [callAt?, callAt?, instruction?_splice_of_lt hfun hlt hne]
  case copied =>
    intro c hc
    obtain ⟨n, b, i, -, -, -, hsource, -, hcopy⟩ := mem_copiedCalls.mp hc
    refine ⟨hsource, by rw [hcopy], ?_, wf.callAt?_of_copied h hc⟩
    rw [hcopy]
    exact Nat.le_add_right _ _
  case reported =>
    intro l hl hlive
    obtain ⟨g, hg⟩ := Option.isSome_iff_exists.mp hlive
    obtain ⟨x, hx, i, hi, hcallee⟩ := wf.callAt?_eq_some.mp hg
    rw [hl, hbody] at hx
    cases hx
    obtain ⟨-, b, hb, hblock, hi⟩ := FunctionBody.mem_located.mp hi
    obtain ⟨n, hn⟩ := List.mem_iff_getElem?.mp hb
    exact ⟨⟨l, ⟨site.caller, ⟨p.nextBlock + n⟩, l.index⟩⟩, mem_copiedCalls.mpr
      ⟨n, b, i, hn, hi, Option.isSome_of_eq_some hcallee, hl, hblock.symm, rfl⟩, rfl⟩
  case new =>
    intro l hle hlive
    obtain ⟨g, hg⟩ := Option.isSome_iff_exists.mp hlive
    obtain ⟨i, hi, hcallee⟩ := Option.bind_eq_some_iff.mp hg
    obtain ⟨n, b, hb, hfun, hblock, hi⟩ := wf.exists_of_instruction?_splice hle hi
    refine ⟨⟨⟨site.callee, b.id, l.index⟩, l⟩, mem_copiedCalls.mpr
      ⟨n, b, i, hb, hi, Option.isSome_of_eq_some hcallee, rfl, rfl, ?_⟩, rfl⟩
    rw [← hfun, ← hblock]
  case paired => exact fun c hc d hd => wf.copiedCalls_paired h hc hd

end Splice

/-! ### Block by block -/

/-- Copies of blocks, numbered from the given number on. -/
def clonesFrom (next callWeight : Nat) (blocks : List Block) : List Block :=
  blocks.zipIdx.map fun (b, n) =>
    { b with id := ⟨next + n⟩, weight := scaledWeight callWeight b.weight }

theorem clonesFrom_cons (next callWeight : Nat) (b : Block) (rest : List Block) :
    clonesFrom next callWeight (b :: rest) =
      { b with id := ⟨next⟩, weight := scaledWeight callWeight b.weight } ::
        clonesFrom (next + 1) callWeight rest := by
  simp only [clonesFrom, List.zipIdx_cons', List.map_cons, List.map_map, Nat.add_zero,
    List.cons.injEq, true_and]
  refine List.map_congr_left fun x _ => ?_
  simp only [Function.comp_apply, Nat.add_assoc, Nat.add_comm 1]
  rfl

/-- The program with blocks behind the others of a function, which use up the next numbers. -/
def appendAll (p : Program) (f : FunctionId) (blocks : List Block) : Program :=
  { p.modifyFunction f fun x => { x with blocks := x.blocks ++ blocks } with
    owners := p.owners.enter f blocks
    nextBlock := p.nextBlock + blocks.length }

theorem appendAll_nil (p : Program) (f : FunctionId) : p.appendAll f [] = p := by
  simp [appendAll, modifyFunction, BlockOwners.enter]

theorem appendAll_cons (p : Program) (f : FunctionId) (b : Block) (rest : List Block) :
    (p.appendAll f [b]).appendAll f rest = p.appendAll f (b :: rest) := by
  simp only [appendAll, modifyFunction, List.map_map, Program.mk.injEq, true_and]
  refine ⟨List.map_congr_left fun x _ => ?_, rfl, ?_⟩
  · by_cases hx : x.id = f <;> simp [hx]
  · simp only [List.length_cons, List.length_nil]
    omega

/-- Blocks are copied without a failure to a caller that exists. -/
theorem copyBlocks_apply {site : CallSite} (callWeight : Nat) (blocks : List Block) {p : Program}
    (hcaller : (p.function? site.caller).isSome) : copyBlocks site callWeight blocks p =
      .ok ((blocks.zip (clonesFrom p.nextBlock callWeight blocks)).flatMap fun (b, clone) =>
          callsCopiedTo site b clone.id)
        (p.appendAll site.caller (clonesFrom p.nextBlock callWeight blocks)) := by
  induction blocks generalizing p with
  | nil =>
    rw [show clonesFrom p.nextBlock callWeight [] = [] from rfl, appendAll_nil]
    rfl
  | cons b rest ih =>
    let clone : Block := { b with id := ⟨p.nextBlock⟩, weight := scaledWeight callWeight b.weight }
    have hround : appendBlock site.caller clone { p with nextBlock := p.nextBlock + 1 } =
        .ok () (p.appendAll site.caller [clone]) := by
      rw [appendBlock_apply]
      exact if_pos hcaller
    have hcaller' : ((p.appendAll site.caller [clone]).function? site.caller).isSome := by
      have hfunction : (p.appendAll site.caller [clone]).function? site.caller = _ :=
        p.function?_modifyFunction site.caller site.caller fun _ => rfl
      rw [hfunction, Option.isSome_map]
      exact hcaller
    have hnext : (p.appendAll site.caller [clone]).nextBlock = p.nextBlock + 1 := rfl
    simp only [clone] at hround hcaller' hnext
    simp [copyBlocks, freshBlock, hround, ih hcaller', hnext, clonesFrom_cons, appendAll_cons]

/-- The marker goes to the block of the call, also if the clones stand there already. -/
theorem markCall_appendAll {p : Program} {site : CallSite} {body : FunctionBody}
    (hlt : site.location.block.index < p.nextBlock) :
    (p.appendAll site.caller (p.clones site body)).markCall site = p.splice site body := by
  have hclones : (p.clones site body).map
      (fun b => if b.id = site.location.block then markBlock site b else b) =
        p.clones site body := by
    refine (List.map_congr_left fun b hb => if_neg fun hid => ?_).trans (List.map_id' _)
    have hle := nextBlock_le_of_mem_clones hb
    rw [hid] at hle
    omega
  simp only [splice_eq, markCall, appendAll, modifyFunction, length_clones, List.map_map,
    Program.mk.injEq, and_true]
  refine List.map_congr_left fun x _ => ?_
  by_cases hx : x.id = site.caller
  · simp only [Function.comp_apply, hx, if_true, graft, FunctionBody.modifyBlock, List.map_append]
    exact congrArg (fun clones => FunctionBody.mk _ _ (_ ++ clones)) hclones
  · simp [hx]

/-- **Inlining block by block comes to the same as inlining in one go.** No block fails to be
appended. -/
theorem WellFormed.inlineBlockwise_eq {p : Program} (wf : p.WellFormed) (site : CallSite) :
    inlineBlockwise site p = inline site p := by
  rw [inline_apply]
  cases hbody : p.calleeAt site with
  | error e => simp [inlineBlockwise, hbody]
  | ok body =>
    obtain ⟨-, hcall, -⟩ := calleeAt_eq_ok.mp hbody
    obtain ⟨i, hi, -⟩ := Option.bind_eq_some_iff.mp hcall
    have hcopied : copyBlocks site (p.callWeight site) body.blocks p =
        .ok (p.copiedCalls site body) (p.appendAll site.caller (p.clones site body)) :=
      copyBlocks_apply _ _ (wf.isSome_caller hbody)
    have hmarked : (p.appendAll site.caller (p.clones site body)).markCall site =
        p.splice site body := markCall_appendAll (wf.block_lt_of_instruction? hi)
    simp [inlineBlockwise, hbody, hcopied, hmarked]

end Program

end Inlining
