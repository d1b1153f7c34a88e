import Inlining.Proofs.Program.Entries

/-!
# Inlining and the profile

Where a call is inlined, its callee is entered less often, and by as much as the call ran. This
holds of the profile of the new program, provided that the callee does not lie on a cycle of
calls.

The functions that the callee does not come to call are profiled as before: none of them is called
from the copied body, and cycles among them stay whole, because what the caller reached by way of
the call it now reaches by way of the copy. All callers of the callee are among them.

## Main results

* `Program.WellFormed.entries_splice` — functions that the callee does not come to call
* `Program.WellFormed.entries_splice_callee` — the callee loses the runs of the call
-/

namespace Inlining

open Relation

namespace Program

variable {p : Program} {site : CallSite} {body : FunctionBody} {f g : FunctionId}

/-! ### Paths -/

section Paths

variable (wf : p.WellFormed) (h : p.calleeAt site = .ok body)
include wf h

/-- Cycles of functions that the callee does not come to call are not cut. -/
theorem WellFormed.mutual_splice (hf : ¬ ReflTransGen p.Calls site.callee f) :
    (p.splice site body).Mutual g f ↔ p.Mutual g f := by
  have hne : f ≠ site.callee := by
    rintro rfl
    exact hf .refl
  refine ⟨fun hgf => ⟨wf.reaches_of_splice h hgf.1, wf.reaches_of_splice h hgf.2⟩, fun hgf => ?_⟩
  have hne' : g ≠ site.callee := by
    rintro rfl
    exact hf hgf.1
  exact ⟨(wf.reaches_splice h hne).mpr hgf.1, (wf.reaches_splice h hne').mpr hgf.2⟩

section Callee

variable (acyclic : ¬ TransGen p.Calls site.callee site.callee)
include acyclic

theorem WellFormed.callee_ne_caller : site.callee ≠ site.caller := by
  intro heq
  have hcalls := wf.calls_site h
  rw [← heq] at hcalls
  exact acyclic (.single hcalls)

/-- A callee that does not call itself keeps its body. -/
theorem WellFormed.function?_splice_callee :
    (p.splice site body).function? site.callee = some body := by
  have hbody := (calleeAt_eq_ok.mp h).2.2
  have hid : body.id ≠ site.caller := by
    rw [(wf.function?_eq_some.mp hbody).2]
    exact wf.callee_ne_caller h acyclic
  rw [function?_splice, hbody, Option.map_some, if_neg hid]

end Callee

end Paths

/-! ### Flows -/

/-- How often a block enters another function, if its own function is entered as often as is given.
-/
def blockFlow (n : Nat) (g : FunctionId) (b : Block) : Nat :=
  blockRuns n b.weight * b.code.countP fun i => i.callee? = some g

/-- A marker enters nothing, and the call in its place entered the callee with each run. -/
theorem blockFlow_markBlock {b : Block} {i : Instruction} (n : Nat)
    (hi : b.code[site.location.index]? = some i) (hcallee : i.callee? = some site.callee) :
    blockFlow n g (markBlock site b) + (if site.callee = g then blockRuns n b.weight else 0) =
      blockFlow n g b := by
  have hcount : b.code.countP (fun i => i.callee? = some g) =
      (markBlock site b).code.countP (fun i => i.callee? = some g) +
        if site.callee = g then 1 else 0 := by
    have hmarker : (Instruction.inlined site.callee).callee? = none := rfl
    have := (code_markBlock hi).countP_eq fun i => i.callee? = some g
    simp only [List.countP_append, List.countP_singleton, hcallee, hmarker, Option.some.injEq,
      decide_eq_true_eq, reduceCtorEq, if_false] at this
    omega
  rw [blockFlow, blockFlow, hcount, Nat.mul_add, show (markBlock site b).weight = b.weight from rfl]
  split
  · rw [Nat.mul_one]
  · rfl

/-- The copied body enters only what the callee calls. -/
theorem flow_clones (n : Nat) (hg : g ∉ body.callees) :
    total ((p.clones site body).map (blockFlow n g)) = 0 := by
  let copied : FunctionBody := { body with blocks := p.clones site body }
  have hcallees : copied.callees = body.callees := by
    rw [FunctionBody.callees_eq, FunctionBody.callees_eq, ← instructions_clones p site body]
    rfl
  exact copied.flow_eq_zero (hcallees ▸ hg) n

/-- The caller enters a function as often as before, and the callee less often by the runs of the
call, if the copied body does not call the function. -/
theorem WellFormed.flow_graft (wf : p.WellFormed) (h : p.calleeAt site = .ok body)
    {x : FunctionBody} (hx : p.function? site.caller = some x) (hbody : g ∉ body.callees)
    (n : Nat) :
    (p.graft site body x).flow n g +
      (if site.callee = g then blockRuns n (p.callWeight site) else 0) = x.flow n g := by
  obtain ⟨hfun, hcall, -⟩ := calleeAt_eq_ok.mp h
  obtain ⟨x', hx', i, hi, hcallee⟩ := wf.callAt?_eq_some.mp hcall
  rw [hfun, hx, Option.some.injEq] at hx'
  subst hx'
  obtain ⟨hmem, -⟩ := wf.function?_eq_some.mp hx
  obtain ⟨-, b, hb, hbid, hi⟩ := FunctionBody.mem_located.mp hi
  have hblock : x.block? site.location.block = some b := (wf.block?_eq_some hmem).mpr ⟨hb, hbid⟩
  have hweight : p.callWeight site = b.weight := by
    rw [callWeight, blockAt?, hfun, hx, Option.bind_some, hblock]
    rfl
  have hgraft : (p.graft site body x).flow n g = total (x.blocks.map fun c =>
      blockFlow n g (if c.id = site.location.block then markBlock site c else c)) := by
    change total (List.map (blockFlow n g) (_ ++ _)) = _
    rw [List.map_append, total_append, flow_clones n hbody, FunctionBody.modifyBlock, List.map_map]
    rfl
  rw [hgraft, hweight, ← total_map_add_of_key (wf.distinct x hmem)
    (FunctionBody.mem_blockIds.mpr ⟨b, hb, hbid⟩)]
  change _ = total (x.blocks.map (blockFlow n g))
  congr 1
  refine List.map_congr_left fun c hc => ?_
  split
  · rename_i hcid
    have hbc : x.block? site.location.block = some c := (wf.block?_eq_some hmem).mpr ⟨hc, hcid⟩
    cases hblock.symm.trans hbc
    exact blockFlow_markBlock n hi hcallee
  · rfl

/-! ### Inflows -/

section Inflow

variable {kind : FunctionId → Prop} {entries : FunctionId → Nat}

open Classical in
theorem inflow_splice_eq : (p.splice site body).inflow kind entries g =
    total (p.functions.map fun x => if kind x.id then
      (if x.id = site.caller then p.graft site body x else x).flow (entries x.id) g else 0) := by
  rw [inflow, splice_eq, modifyFunction, List.map_map]
  congr 1
  refine List.map_congr_left fun x _ => ?_
  have hid : (if x.id = site.caller then p.graft site body x else x).id = x.id := by
    split <;> rfl
  rw [Function.comp_apply, hid]

theorem not_mem_callees (h : p.calleeAt site = .ok body) (hg : ¬ TransGen p.Calls site.callee g) :
    g ∉ body.callees :=
  fun hmem => hg (.single (calls_iff_function?.mpr ⟨body, (calleeAt_eq_ok.mp h).2.2, hmem⟩))

/-- Functions that the callee does not come to call are entered as before. -/
theorem WellFormed.inflow_splice (wf : p.WellFormed) (h : p.calleeAt site = .ok body)
    (hg : ¬ ReflTransGen p.Calls site.callee g) :
    (p.splice site body).inflow kind entries g = p.inflow kind entries g := by
  have hne : site.callee ≠ g := by
    rintro rfl
    exact hg .refl
  have hbody := not_mem_callees h fun hreach => hg hreach.to_reflTransGen
  rw [inflow_splice_eq, inflow]
  congr 1
  refine List.map_congr_left fun x hx => ?_
  by_cases hid : x.id = site.caller
  · have hflow := wf.flow_graft h (wf.function?_eq_some.mpr ⟨hx, hid⟩) hbody (entries x.id)
    rw [if_neg hne, Nat.add_zero] at hflow
    rw [if_pos hid, hflow]
  · rw [if_neg hid]

/-- The callee is entered less often by the runs of the call, as long as its callers are entered as
before. -/
theorem WellFormed.inflow_splice_callee (wf : p.WellFormed) (h : p.calleeAt site = .ok body)
    (acyclic : ¬ TransGen p.Calls site.callee site.callee) :
    (p.splice site body).inflow (fun _ => True) entries site.callee +
      blockRuns (entries site.caller) (p.callWeight site) =
        p.inflow (fun _ => True) entries site.callee := by
  rw [inflow_splice_eq, inflow,
    ← total_map_add_of_key wf.nodup (wf.mem_of_calls (wf.calls_site h))]
  congr 1
  refine List.map_congr_left fun x hx => ?_
  rw [if_pos trivial, if_pos trivial]
  by_cases hid : x.id = site.caller
  · have hflow := wf.flow_graft h (wf.function?_eq_some.mpr ⟨hx, hid⟩) (not_mem_callees h acyclic)
      (entries x.id)
    rw [if_pos rfl] at hflow
    rw [if_pos hid, if_pos hid, ← hflow, hid]
  · rw [if_neg hid, if_neg hid]

end Inflow

/-! ### Entries -/

section Entries

variable (wf : p.WellFormed) (h : p.calleeAt site = .ok body)
include wf h

/-- **Functions that the callee does not come to call are entered as before.** -/
theorem WellFormed.entries_splice (rounds : Nat) (hmem : f ∈ p.functions.map FunctionBody.id)
    (hf : ¬ ReflTransGen p.Calls site.callee f) :
    ((p.splice site body).entries rounds).of f = (p.entries rounds).of f := by
  have callers : ∀ f g, ¬ ReflTransGen p.Calls site.callee f → (p.splice site body).Calls g f →
      ¬ ReflTransGen p.Calls site.callee g := fun f g hf hcalls hg =>
    hf (hg.trans (wf.reaches_of_splice h (.single hcalls)))
  refine wf.splice.entries_unique (fun f => ¬ ReflTransGen p.Calls site.callee f) callers
    (fun f hf _ => wf.splice.entries_eq rounds hf) (fun f hmem hf => ?_)
    ((mem_functions_splice wf h).mpr hmem) hf
  rw [wf.entries_eq rounds ((mem_functions_splice wf h).mp hmem)]
  refine (estimate_congr (fun f => ¬ ReflTransGen p.Calls site.callee f) (fun f hf => ?_)
    (fun f hf e e' he => ?_) rounds hf).symm
  · rw [outerFlow, outerFlow, ← wf.inflow_splice h hf]
    congr 1
    exact wf.splice.inflow_congr fun g _ => ⟨not_congr (wf.mutual_splice h hf), fun _ => rfl⟩
  · rw [innerFlow, innerFlow, ← wf.inflow_splice h hf]
    exact wf.splice.inflow_congr fun g hcalls =>
      ⟨wf.mutual_splice h hf, fun _ => he g (callers f g hf hcalls)⟩

/-- **The callee loses the runs of the call**, if it does not lie on a cycle of calls. -/
theorem WellFormed.entries_splice_callee (rounds : Nat)
    (acyclic : ¬ TransGen p.Calls site.callee site.callee) :
    ((p.splice site body).entries rounds).of site.callee +
      blockRuns ((p.entries rounds).of site.caller) (p.callWeight site) =
        (p.entries rounds).of site.callee := by
  have hmem : site.callee ∈ p.functions.map FunctionBody.id := by
    obtain ⟨hbody, hid⟩ := wf.function?_eq_some.mp (calleeAt_eq_ok.mp h).2.2
    exact List.mem_map.mpr ⟨body, hbody, hid⟩
  have hcallers : ∀ g, TransGen p.Calls g site.callee → ¬ ReflTransGen p.Calls site.callee g :=
    fun g hcalls hback => acyclic (TransGen.trans_right hback hcalls)
  have acyclic' : ¬ TransGen (p.splice site body).Calls site.callee site.callee :=
    fun hcycle => acyclic (wf.transGen_of_splice h hcycle)
  have hinflow : (p.splice site body).inflow (fun _ => True)
      ((p.splice site body).entries rounds).of site.callee =
        (p.splice site body).inflow (fun _ => True) (p.entries rounds).of site.callee :=
    wf.splice.inflow_congr fun g hcalls => ⟨.rfl, fun _ => wf.entries_splice h rounds
      ((mem_functions_splice wf h).mp (wf.splice.mem_of_calls hcalls))
      (hcallers g (wf.transGen_of_splice h (.single hcalls)))⟩
  rw [wf.splice.entries_eq rounds ((mem_functions_splice wf h).mpr hmem), wf.entries_eq rounds hmem,
    wf.splice.estimate_eq acyclic', wf.estimate_eq acyclic, ← wf.inflow_splice_callee h acyclic,
    hinflow, ← Nat.add_assoc]
  rfl

end Entries

end Program

end Inlining
