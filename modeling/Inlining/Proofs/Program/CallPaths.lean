import Inlining.Proofs.CallGraph
import Inlining.Proofs.Program.Inline
import Inlining.Proofs.Program.Sweep
import Mathlib.Data.List.Flatten
import Mathlib.Data.Set.Card

/-!
# Paths of calls

Which functions a function can come to call, directly or by way of others. Copying a body into a
caller makes no new paths: what the caller calls from then on, it reached before by way of the
callee. Sweeping makes none either, since it only takes code away. A function off all cycles of
calls therefore stays off them, whatever is inlined.

The *rank* of a function counts the functions that it reaches. What a function reaches has a lower
rank, unless there is a way back; inlining and sweeping never raise a rank.

## Main definitions

* `Program.Calls` — one function calls another
* `Program.rank` — the number of functions that a function reaches
* `Program.allCallees` — the functions called, once for each call of the program
* `Program.Trims` — functions and calls were taken away and nothing was added

## Main results

* `Program.WellFormed.isRecursive_snapshot` — recursive functions are those on a cycle of calls
* `Program.Inlines.transGen_calls` — inlining makes no new paths
* `Program.WellFormed.transGen_splice` — and it cuts none but those to the callee
* `Program.WellFormed.allCallees_splice` — a call is replaced by the calls of its callee
* `Program.WellFormed.trims_sweep` — sweeping only takes away
-/

namespace Inlining

open Relation

/-- Where one part of a list, told from the others by its key, is changed, the whole changes as much
as the part. -/
theorem perm_flatMap_of_key {α β κ : Type} [DecidableEq κ] {key : α → κ} {l : List α}
    (distinct : (l.map key).Nodup) {a : α} (ha : a ∈ l) (value change : α → List β)
    {less more : List β} (h : (less ++ change a).Perm (more ++ value a)) :
    (less ++ l.flatMap fun x => if key x = key a then change x else value x).Perm
      (more ++ l.flatMap value) := by
  induction l with
  | nil => cases ha
  | cons x xs ih =>
    rw [List.map_cons, List.nodup_cons] at distinct
    simp only [List.flatMap_cons]
    rcases List.mem_cons.mp ha with rfl | hmem
    · have hrest : (xs.flatMap fun x => if key x = key a then change x else value x) =
          xs.flatMap value := by
        refine List.flatMap_congr fun y hy => if_neg fun hya => distinct.1 ?_
        exact List.mem_map.mpr ⟨y, hy, hya⟩
      rw [if_pos rfl, hrest, ← List.append_assoc, ← List.append_assoc]
      exact h.append_right _
    · have hne : key x ≠ key a := fun hxa => distinct.1 (List.mem_map.mpr ⟨a, hmem, hxa.symm⟩)
      rw [if_neg hne]
      exact ((List.perm_append_comm_assoc _ _ _).trans ((ih distinct.2 hmem).append_left _)).trans
        (List.perm_append_comm_assoc _ _ _)

/-- The instructions of a function, in program order. -/
def FunctionBody.instructions (f : FunctionBody) : List Instruction := f.blocks.flatMap Block.code

theorem FunctionBody.callees_eq (f : FunctionBody) :
    f.callees = f.instructions.filterMap Instruction.callee? := by
  rw [callees, instructions, List.filterMap_flatMap]

theorem FunctionBody.mem_callees {f : FunctionBody} {g : FunctionId} :
    g ∈ f.callees ↔ ∃ l i, (l, i) ∈ f.located ∧ i.callee? = some g := by
  simp only [callees, List.mem_flatMap, List.mem_filterMap, mem_located]
  constructor
  · rintro ⟨b, hb, i, hi, hg⟩
    obtain ⟨k, hk⟩ := List.mem_iff_getElem?.mp hi
    exact ⟨⟨f.id, b.id, k⟩, i, ⟨rfl, b, hb, rfl, hk⟩, hg⟩
  · rintro ⟨l, i, ⟨-, b, hb, -, hi⟩, hg⟩
    exact ⟨b, hb, i, List.mem_of_getElem? hi, hg⟩

namespace Program

/-- One function calls another. -/
def Calls (p : Program) (f g : FunctionId) : Prop := g ∈ p.calleesOf f

/-- The functions called, once for each call. -/
def allCallees (p : Program) : List FunctionId := p.functions.flatMap FunctionBody.callees

/-- The number of functions that a function reaches, itself among them. -/
noncomputable def rank (p : Program) (f : FunctionId) : Nat :=
  Set.ncard {g | ReflTransGen p.Calls f g}

variable {p q : Program} {f g : FunctionId}

theorem calls_iff_function? :
    p.Calls f g ↔ ∃ body, p.function? f = some body ∧ g ∈ body.callees := by
  rw [Calls, calleesOf]
  cases p.function? f <;> simp

namespace WellFormed

theorem calls_iff (wf : p.WellFormed) : p.Calls f g ↔
    ∃ body ∈ p.functions, body.id = f ∧ g ∈ body.callees := by
  simp only [calls_iff_function?, wf.function?_eq_some, and_assoc]

/-- What calls something is a function of the program. -/
theorem mem_of_calls (wf : p.WellFormed) (hcalls : p.Calls f g) :
    f ∈ p.functions.map FunctionBody.id := by
  obtain ⟨body, hbody, hid, -⟩ := wf.calls_iff.mp hcalls
  exact List.mem_map.mpr ⟨body, hbody, hid⟩

/-- Calls are what stands at locations. -/
theorem calls_iff_callAt? (wf : p.WellFormed) :
    p.Calls f g ↔ ∃ l : Location, l.function = f ∧ p.callAt? l = some g := by
  simp only [calls_iff_function?, FunctionBody.mem_callees, wf.callAt?_eq_some]
  constructor
  · rintro ⟨body, hbody, l, i, hl, hg⟩
    have hid := (wf.function?_eq_some.mp hbody).2
    have hfun : l.function = f := (FunctionBody.mem_located.mp hl).1.trans hid
    exact ⟨l, hfun, body, by rw [hfun, hbody], i, hl, hg⟩
  · rintro ⟨l, rfl, body, hbody, i, hl, hg⟩
    exact ⟨body, hbody, l, i, hl, hg⟩

/-! ### Cycles -/

/-- The inliner sees the calls from function to function of the program. -/
theorem calls_snapshot (wf : p.WellFormed) :
    p.snapshot.Calls f g ↔ p.Calls f g ∧ g ∈ p.snapshot.functions := by
  simp only [Snapshot.Calls, wf.mem_callees_snapshot, wf.calls_iff_callAt?]
  constructor
  · exact fun ⟨_, hg, hcall⟩ => ⟨hcall, hg⟩
  · rintro ⟨⟨l, rfl, hcall⟩, hg⟩
    obtain ⟨body, hbody, -⟩ := wf.callAt?_eq_some.mp hcall
    exact ⟨wf.mem_functions_snapshot.mpr (Option.isSome_of_eq_some hbody), hg, l, rfl, hcall⟩

theorem transGen_calls_snapshot (wf : p.WellFormed) : TransGen p.snapshot.Calls f g ↔
    TransGen p.Calls f g ∧ g ∈ p.snapshot.functions := by
  constructor
  · intro h
    refine ⟨h.lift id fun _ _ hcalls => (wf.calls_snapshot.mp hcalls).1, ?_⟩
    obtain ⟨_, -, hlast⟩ := TransGen.tail'_iff.mp h
    exact (wf.calls_snapshot.mp hlast).2
  · rintro ⟨h, hg⟩
    induction h with
    | single hcalls => exact .single (wf.calls_snapshot.mpr ⟨hcalls, hg⟩)
    | tail _ hcalls ih =>
      -- What calls something is a function of the program.
      obtain ⟨body, hbody, -⟩ := calls_iff_function?.mp hcalls
      have hmem := wf.mem_functions_snapshot.mpr (Option.isSome_of_eq_some hbody)
      exact (ih hmem).tail (wf.calls_snapshot.mpr ⟨hcalls, hg⟩)

/-- **Recursive functions of a program are those on a cycle of calls.** -/
theorem isRecursive_snapshot (wf : p.WellFormed) :
    (CallGraph.ofSnapshot p.snapshot).isRecursive f = true ↔ TransGen p.Calls f f := by
  rw [CallGraph.isRecursive_iff wf.nodup, wf.transGen_calls_snapshot]
  refine and_iff_left_of_imp fun h => ?_
  obtain ⟨_, hcalls, -⟩ := TransGen.head'_iff.mp h
  obtain ⟨body, hbody, -⟩ := calls_iff_function?.mp hcalls
  exact wf.mem_functions_snapshot.mpr (Option.isSome_of_eq_some hbody)

end WellFormed

/-! ### Ranks -/

/-- Whatever a function reaches is itself or called somewhere. -/
theorem mem_of_reaches (h : ReflTransGen p.Calls f g) : g ∈ f :: p.allCallees := by
  rcases ReflTransGen.cases_tail h with rfl | ⟨h, -, hcalls⟩
  · exact List.mem_cons_self
  · obtain ⟨body, hbody, hmem⟩ := calls_iff_function?.mp hcalls
    have hbody' : body ∈ p.functions := List.mem_of_find?_eq_some hbody
    exact List.mem_cons_of_mem f (List.mem_flatMap.mpr ⟨body, hbody', hmem⟩)

theorem finite_reach (p : Program) (f : FunctionId) :
    {g | ReflTransGen p.Calls f g}.Finite :=
  (List.finite_toSet (f :: p.allCallees)).subset fun _ hg => mem_of_reaches hg

theorem rank_pos (p : Program) (f : FunctionId) : 0 < p.rank f :=
  (Set.ncard_pos (p.finite_reach f)).mpr ⟨f, .refl⟩

/-- A function reaches at most as many others as there are calls. -/
theorem rank_le_calls (p : Program) (f : FunctionId) : p.rank f ≤ p.allCallees.length + 1 := by
  have hsub : {g | ReflTransGen p.Calls f g} ⊆ ((f :: p.allCallees).toFinset : Set _) :=
    fun g hg => by simpa using mem_of_reaches hg
  calc p.rank f ≤ Set.ncard ((f :: p.allCallees).toFinset : Set FunctionId) :=
        Set.ncard_le_ncard hsub (Finset.finite_toSet _)
    _ = (f :: p.allCallees).toFinset.card := Set.ncard_coe_finset _
    _ ≤ p.allCallees.length + 1 := List.toFinset_card_le _

/-- Where no paths are added, nothing else is reached. -/
theorem reaches_of_calls (h : ∀ f g, q.Calls f g → TransGen p.Calls f g)
    (hreach : ReflTransGen q.Calls f g) : ReflTransGen p.Calls f g :=
  reflTransGen_closed (fun f g hcalls => (h f g hcalls).to_reflTransGen) _ _ hreach

/-- Ranks do not rise where no paths are added. -/
theorem rank_le (h : ∀ f g, q.Calls f g → TransGen p.Calls f g) (f : FunctionId) :
    q.rank f ≤ p.rank f := by
  exact Set.ncard_le_ncard (fun g hg => reaches_of_calls h hg) (p.finite_reach f)

/-- What a function reaches has a lower rank unless there is a way back. -/
theorem rank_lt (hreach : ReflTransGen p.Calls f g)
    (hback : ¬ ReflTransGen p.Calls g f) : p.rank g < p.rank f :=
  Set.ncard_lt_ncard ⟨fun _ hh => hreach.trans hh, fun hsub => hback (hsub .refl)⟩
    (p.finite_reach f)

/-! ### Inlining -/

theorem WellFormed.calls_site (wf : p.WellFormed) {site : CallSite} {body : FunctionBody}
    (h : p.calleeAt site = .ok body) : p.Calls site.caller site.callee :=
  wf.calls_iff_callAt?.mpr ⟨site.location, (calleeAt_eq_ok.mp h).1, (calleeAt_eq_ok.mp h).2.1⟩

/-- **Inlining makes no new paths.** -/
theorem Inlines.transGen_calls {site : CallSite} {body : FunctionBody} {report : List CopiedCall}
    (h : p.Inlines q site body report) (wf : p.WellFormed) (hsite : p.Calls site.caller site.callee)
    (hcalls : q.Calls f g) : TransGen p.Calls f g := by
  obtain ⟨l, rfl, hl⟩ := h.wellFormed.calls_iff_callAt?.mp hcalls
  rcases h.callAt?_cases hl with ⟨hold, -⟩ | ⟨k, hk, hmem⟩
  · exact .single (wf.calls_iff_callAt?.mpr ⟨l, rfl, hold⟩)
  · -- The caller called the callee, and the callee called what was copied.
    obtain ⟨hsource, hcopy, -⟩ := h.copied _ hmem
    have hcaller : l.function = site.caller := hcopy
    rw [hcaller]
    exact .tail (.single hsite) (wf.calls_iff_callAt?.mpr ⟨k, hsource, hk⟩)

/-- The marker takes the place of the call. -/
theorem code_markBlock {site : CallSite} {b : Block} {i : Instruction}
    (hi : b.code[site.location.index]? = some i) :
    ([i] ++ (markBlock site b).code).Perm ([.inlined site.callee] ++ b.code) := by
  obtain ⟨hlt, hget⟩ := List.getElem?_eq_some_iff.mp hi
  have hcode : b.code = b.code.take site.location.index ++ i ::
      b.code.drop (site.location.index + 1) := by
    rw [← hget, List.getElem_cons_drop, List.take_append_drop]
  rw [markBlock, List.set_eq_take_append_cons_drop, if_pos hlt]
  nth_rewrite 3 [hcode]
  exact (List.perm_middle.cons i).trans
    ((List.Perm.swap _ _ _).trans (List.perm_middle.symm.cons _))

theorem instructions_clones (p : Program) (site : CallSite) (body : FunctionBody) :
    (p.clones site body).flatMap Block.code = body.instructions := by
  rw [FunctionBody.instructions, ← List.zipIdx_map_fst 0 body.blocks, clones, List.flatMap_map,
    List.flatMap_map]

/-- **The caller gets the instructions of the callee**, and a marker for the call. -/
theorem WellFormed.instructions_graft (wf : p.WellFormed) {site : CallSite} {body : FunctionBody}
    (h : p.calleeAt site = .ok body) : ∃ x ∈ p.functions, x.id = site.caller ∧
      ∃ i ∈ x.instructions, i.callee? = some site.callee ∧
        ([i] ++ (p.graft site body x).instructions).Perm
          ([.inlined site.callee] ++ (body.instructions ++ x.instructions)) := by
  obtain ⟨hfun, hcall, -⟩ := calleeAt_eq_ok.mp h
  obtain ⟨x, hx, i, hi, hcallee⟩ := wf.callAt?_eq_some.mp hcall
  obtain ⟨hmem, hid⟩ := wf.function?_eq_some.mp hx
  obtain ⟨-, b, hb, hbid, hi⟩ := FunctionBody.mem_located.mp hi
  refine ⟨x, hmem, hid.trans hfun, i, ?_, hcallee, ?_⟩
  · exact List.mem_flatMap.mpr ⟨b, hb, List.mem_of_getElem? hi⟩
  have hmark : ([i] ++
      (x.modifyBlock site.location.block (markBlock site)).instructions).Perm
        ([.inlined site.callee] ++ x.instructions) := by
    rw [FunctionBody.instructions, FunctionBody.instructions, FunctionBody.modifyBlock,
      List.flatMap_map, ← hbid]
    simp only [apply_ite Block.code]
    exact perm_flatMap_of_key (wf.distinct x hmem) hb Block.code
      (fun y => (markBlock site y).code) (code_markBlock hi)
  have hgraft : (p.graft site body x).instructions =
      (x.modifyBlock site.location.block (markBlock site)).instructions ++ body.instructions := by
    rw [← instructions_clones p site body, FunctionBody.instructions, FunctionBody.instructions,
      graft, List.flatMap_append]
  rw [hgraft, ← List.append_assoc]
  refine (hmark.append_right _).trans ?_
  rw [List.append_assoc]
  exact List.perm_append_comm.append_left _

/-- **A call is replaced by the calls of its callee.** -/
theorem WellFormed.allCallees_splice (wf : p.WellFormed) {site : CallSite} {body : FunctionBody}
    (h : p.calleeAt site = .ok body) :
    (site.callee :: (p.splice site body).allCallees).Perm (body.callees ++ p.allCallees) := by
  obtain ⟨x, hmem, hid, i, -, hcallee, hgraft⟩ := wf.instructions_graft h
  have hcallees : ([site.callee] ++ (p.graft site body x).callees).Perm
      (body.callees ++ x.callees) := by
    have hmarker : (Instruction.inlined site.callee).callee? = none := rfl
    simpa [FunctionBody.callees_eq, hcallee, hmarker] using hgraft.filterMap Instruction.callee?
  have hperm := perm_flatMap_of_key wf.nodup hmem FunctionBody.callees
    (fun y => (p.graft site body y).callees) hcallees
  rw [hid] at hperm
  rw [splice_eq, allCallees, allCallees, modifyFunction, List.flatMap_map]
  simp only [apply_ite FunctionBody.callees]
  exact hperm

section Splice

variable {site : CallSite} {body : FunctionBody} (wf : p.WellFormed)
  (h : p.calleeAt site = .ok body)
include wf h

theorem mem_functions_splice : f ∈ (p.splice site body).functions.map FunctionBody.id ↔
    f ∈ p.functions.map FunctionBody.id :=
  (wf.inlines h).mem_functions_snapshot wf f

/-- All calls stay but those from the caller to the callee. -/
theorem WellFormed.calls_splice_of_ne (hcalls : p.Calls f g)
    (hne : f = site.caller → g ≠ site.callee) : (p.splice site body).Calls f g := by
  obtain ⟨hfun, hcall, -⟩ := calleeAt_eq_ok.mp h
  obtain ⟨l, rfl, hl⟩ := wf.calls_iff_callAt?.mp hcalls
  have hsite : l ≠ site.location := by
    rintro rfl
    exact hne hfun (Option.some.inj (hl.symm.trans hcall))
  obtain ⟨i, hi, -⟩ := Option.bind_eq_some_iff.mp hl
  exact wf.splice.calls_iff_callAt?.mpr
    ⟨l, rfl, ((wf.inlines h).kept l (wf.block_lt_of_instruction? hi) hsite).trans hl⟩

/-- The caller now calls what the callee calls. -/
theorem WellFormed.calls_splice_caller (hcalls : p.Calls site.callee g) :
    (p.splice site body).Calls site.caller g := by
  obtain ⟨l, hfun, hl⟩ := wf.calls_iff_callAt?.mp hcalls
  obtain ⟨c, hc, rfl⟩ := (wf.inlines h).reported l hfun (Option.isSome_of_eq_some hl)
  obtain ⟨-, hcaller, -, -, hcopy⟩ := (wf.inlines h).copied c hc
  exact wf.splice.calls_iff_callAt?.mpr ⟨c.copy, hcaller, hcopy.trans hl⟩

theorem WellFormed.transGen_of_splice (hreach : TransGen (p.splice site body).Calls f g) :
    TransGen p.Calls f g :=
  TransGen.closed (fun _ _ => (wf.inlines h).transGen_calls wf (wf.calls_site h)) _ _ hreach

theorem WellFormed.reaches_of_splice (hreach : ReflTransGen (p.splice site body).Calls f g) :
    ReflTransGen p.Calls f g :=
  reaches_of_calls (fun _ _ => (wf.inlines h).transGen_calls wf (wf.calls_site h)) hreach

/-- Inlining changes nothing in which functions are reached, except that the callee may be called
from nowhere. A path by way of the call that is gone takes the copy of the callee's next call, so
the induction keeps a path from the caller along with each path from the callee. -/
theorem WellFormed.reaches_splice (hg : g ≠ site.callee) :
    ReflTransGen (p.splice site body).Calls f g ↔ ReflTransGen p.Calls f g := by
  refine ⟨wf.reaches_of_splice h, fun hreach => ?_⟩
  suffices hboth : ReflTransGen (p.splice site body).Calls f g ∧
      (f = site.callee → ReflTransGen (p.splice site body).Calls site.caller g) from hboth.1
  induction hreach using ReflTransGen.head_induction_on with
  | refl => exact ⟨.refl, fun heq => absurd heq hg⟩
  | @head f f' hcalls _ ih =>
    constructor
    · by_cases hcall : f = site.caller ∧ f' = site.callee
      · rw [hcall.1]
        exact ih.2 hcall.2
      · exact .head (wf.calls_splice_of_ne h hcalls fun hf hf' => hcall ⟨hf, hf'⟩) ih.1
    · rintro rfl
      exact .head (wf.calls_splice_caller h hcalls) ih.1

/-- **Inlining leaves paths as they are**, those to the callee apart. -/
theorem WellFormed.transGen_splice (hg : g ≠ site.callee) :
    TransGen (p.splice site body).Calls f g ↔ TransGen p.Calls f g := by
  refine ⟨wf.transGen_of_splice h, fun hpath => ?_⟩
  obtain ⟨f', hcalls, hrest⟩ := TransGen.head'_iff.mp hpath
  by_cases hcall : f = site.caller ∧ f' = site.callee
  · -- The call may be the one that is gone, but a path goes on from the callee.
    obtain ⟨rfl, rfl⟩ := hcall
    rcases ReflTransGen.cases_head hrest with heq | ⟨f', hcalls', hrest⟩
    · exact absurd heq.symm hg
    · exact .head' (wf.calls_splice_caller h hcalls') ((wf.reaches_splice h hg).mpr hrest)
  · exact .head' (wf.calls_splice_of_ne h hcalls fun hf hf' => hcall ⟨hf, hf'⟩)
      ((wf.reaches_splice h hg).mpr hrest)

end Splice

/-! ### Sweeping -/

theorem instructions_bare (f : FunctionBody) :
    f.bare.instructions = f.instructions.filter fun i => !i.isMarker := by
  rw [FunctionBody.instructions, FunctionBody.instructions, FunctionBody.bare, List.flatMap_map,
    List.filter_flatMap]

/-- Markers call nothing, so a function calls the same without them. -/
theorem callees_bare (f : FunctionBody) : f.bare.callees = f.callees := by
  rw [FunctionBody.callees_eq, FunctionBody.callees_eq, instructions_bare, List.filterMap_filter]
  refine List.filterMap_congr fun i _ => ?_
  cases i <;> rfl

/-- Functions and calls were taken away and nothing was added. -/
structure Trims (p q : Program) : Prop where
  functions : (q.functions.map FunctionBody.id).Sublist (p.functions.map FunctionBody.id)
  callees : q.allCallees.Sublist p.allCallees
  calls : ∀ f g, q.Calls f g → p.Calls f g

theorem Trims.refl (p : Program) : p.Trims p :=
  ⟨List.Sublist.refl _, List.Sublist.refl _, fun _ _ => id⟩

/-- **Sweeping only takes away.** -/
theorem WellFormed.trims_sweep (wf : p.WellFormed) : p.Trims p.sweep.2 := by
  constructor
  case functions =>
    rw [functions_sweep, List.map_map]
    exact List.filter_sublist.map FunctionBody.id
  case callees =>
    rw [allCallees, allCallees, functions_sweep, List.flatMap_map]
    simp only [callees_bare]
    exact List.filter_sublist.flatMap _
  case calls =>
    intro f g h
    rw [wf.sweep.calls_iff] at h
    rw [wf.calls_iff]
    obtain ⟨_, hmem, hid, hcallee⟩ := h
    obtain ⟨body, hbody, rfl⟩ := List.mem_map.mp hmem
    exact ⟨body, List.mem_of_mem_filter hbody, hid, callees_bare body ▸ hcallee⟩

end Program

end Inlining
