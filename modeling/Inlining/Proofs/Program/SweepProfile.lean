import Inlining.Proofs.Program.Edits
import Inlining.Proofs.Program.Entries

/-!
# A sweep does not disturb the profile

A sweep takes functions out, so that the call graph after it has other nodes and finds its
components in another order. The profile of what stays is the same.

Nothing that stays is called from a dead function that is entered: dead functions have only dead
callers and are not entered from outside, so the entries of all of them are zero. Cycles are not cut
either, since what a function that stays comes to call stays too. The entries before the sweep
therefore solve the equation of the swept program, which has no other solution.

## Main results

* `Program.WellFormed.entries_of_mem_dead` — dead functions are never entered
* `Program.WellFormed.entries_sweep` — entries are the same after a sweep
* `Program.Edited.profile_sweep` — and so are the profile and the recursive functions
-/

namespace Inlining

open Relation

theorem FunctionBody.flow_bare (f : FunctionBody) (n : Nat) (g : FunctionId) :
    f.bare.flow n g = f.flow n g := by
  rw [flow, flow, bare, List.map_map]
  congr 1
  refine List.map_congr_left fun b _ => ?_
  rw [Function.comp_apply, List.countP_filter]
  congr 1
  refine List.countP_congr fun i _ => ?_
  cases i <;> simp [Instruction.callee?, Instruction.isMarker]

namespace Program

variable {p : Program} {f g : FunctionId}

/-! ### Cycles after a sweep -/

/-- What stays calls what it called before. -/
theorem calls_sweep : p.sweep.2.Calls f g ↔ p.Calls f g ∧ f ∉ p.dead := by
  rw [calls_iff_function?, calls_iff_function?, function?_sweep]
  by_cases hf : f ∈ p.dead
  · simp [hf]
  · simp [hf, callees_bare]

theorem WellFormed.not_mem_dead_of_reaches (wf : p.WellFormed) (hf : f ∉ p.dead)
    (h : ReflTransGen p.Calls f g) : g ∉ p.dead := by
  induction h with
  | refl => exact hf
  | tail _ hcalls ih => exact wf.not_mem_dead_of_calls ih hcalls

/-- From a function that stays, the same functions are reached. -/
theorem WellFormed.reaches_sweep (wf : p.WellFormed) (hf : f ∉ p.dead) :
    ReflTransGen p.sweep.2.Calls f g ↔ ReflTransGen p.Calls f g := by
  constructor
  · exact fun h => h.lift id fun _ _ hcalls => (calls_sweep.mp hcalls).1
  · intro h
    induction h with
    | refl => exact .refl
    | tail hreach hcalls ih =>
      exact ih.tail (calls_sweep.mpr ⟨hcalls, wf.not_mem_dead_of_reaches hf hreach⟩)

/-- Cycles with functions that stay are not cut. -/
theorem WellFormed.mutual_sweep (wf : p.WellFormed) (hf : f ∉ p.dead) :
    p.sweep.2.Mutual g f ↔ p.Mutual g f := by
  have hback : ∀ {x}, ReflTransGen p.sweep.2.Calls f x ↔ ReflTransGen p.Calls f x :=
    wf.reaches_sweep hf
  constructor
  · rintro ⟨hgf, hfg⟩
    exact ⟨(wf.reaches_sweep (wf.not_mem_dead_of_reaches hf (hback.mp hfg))).mp hgf, hback.mp hfg⟩
  · rintro ⟨hgf, hfg⟩
    exact ⟨(wf.reaches_sweep (wf.not_mem_dead_of_reaches hf hfg)).mpr hgf, hback.mpr hfg⟩

/-- **A sweep does not change what is recursive.** -/
theorem WellFormed.isRecursive_sweep (wf : p.WellFormed) (hf : f ∉ p.dead) :
    (CallGraph.ofSnapshot p.sweep.2.snapshot).isRecursive f =
      (CallGraph.ofSnapshot p.snapshot).isRecursive f := by
  rw [Bool.eq_iff_iff, wf.sweep.isRecursive_snapshot, wf.isRecursive_snapshot,
    TransGen.head'_iff, TransGen.head'_iff]
  refine exists_congr fun g => ?_
  rw [calls_sweep]
  constructor
  · rintro ⟨⟨hcalls, -⟩, hreach⟩
    exact ⟨hcalls, (wf.reaches_sweep (wf.not_mem_dead_of_calls hf hcalls)).mp hreach⟩
  · rintro ⟨hcalls, hreach⟩
    exact ⟨⟨hcalls, hf⟩, (wf.reaches_sweep (wf.not_mem_dead_of_calls hf hcalls)).mpr hreach⟩

/-! ### Dead functions -/

theorem inflow_eq_zero {kind : FunctionId → Prop} {entries : FunctionId → Nat}
    (h : ∀ g, kind g → entries g = 0) : p.inflow kind entries f = 0 := by
  refine total_map_eq_zero fun g _ => ?_
  split
  · rename_i hg
    rw [h g.id hg, FunctionBody.flow_zero]
  · rfl

/-- **Dead functions are never entered.** -/
theorem WellFormed.entries_of_mem_dead (wf : p.WellFormed) (rounds : Nat) (hf : f ∈ p.dead) :
    (p.entries rounds).of f = 0 := by
  have hcallers : ∀ f g, f ∈ p.dead → p.Calls g f → g ∈ p.dead := fun f g hf hcalls =>
    by_contra fun hg => wf.not_mem_dead_of_calls hg hcalls hf
  have hzero : ∀ n f, f ∈ p.dead → p.estimate (fun _ => 0) n f = 0 := by
    intro n
    induction n with
    | zero =>
      intro f hf
      rw [estimate, outerFlow, wf.rootCount_of_mem_dead hf, inflow_eq_zero fun _ _ => rfl]
    | succ n ih =>
      intro f hf
      have hinner : p.innerFlow (fun g => p.estimate (fun _ => 0) n g) f = 0 :=
        inflow_eq_zero fun g hg => ih g <| by_contra fun hg' =>
          wf.not_mem_dead_of_reaches hg' hg.1 hf
      rw [estimate, hinner, outerFlow, wf.rootCount_of_mem_dead hf, inflow_eq_zero fun _ _ => rfl]
  exact wf.entries_unique (· ∈ p.dead) hcallers (fun f hf _ => wf.entries_eq rounds hf)
    (fun f _ hf => (hzero rounds f hf).symm) (mem_dead.mp hf).2.1 hf

/-! ### The profile after a sweep -/

theorem rootCount_sweep (hf : f ∉ p.dead) : p.sweep.2.rootCount f = p.rootCount f := by
  change (p.roots.filter fun f _ => f ∉ p.dead).getD f 0 = p.roots.getD f 0
  rw [Std.ExtTreeMap.getD_filter, Std.ExtTreeMap.getD_eq_getD_getElem?]
  simp only [Std.ExtTreeMap.getKey_eq, hf, not_false_eq_true, decide_true]
  cases p.roots[f]? <;> rfl

/-- What comes into functions that stay, with entries that are the same for what stays and zero for
the rest. -/
theorem inflow_sweep {kind kind' : FunctionId → Prop} {entries entries' : FunctionId → Nat}
    (stays : ∀ g, g ∉ p.dead → (kind' g ↔ kind g) ∧ (kind g → entries' g = entries g))
    (goes : ∀ g, g ∈ p.dead → kind g → entries g = 0) :
    p.sweep.2.inflow kind' entries' f = p.inflow kind entries f := by
  rw [inflow, inflow, functions_sweep, List.map_map, total_map_filter]
  congr 1
  refine List.map_congr_left fun g _ => ?_
  rw [Function.comp_apply, FunctionBody.flow_bare, show g.bare.id = g.id from rfl]
  by_cases hdead : g.id ∈ p.dead
  · rw [if_neg (by simpa using hdead)]
    by_cases hkind : kind g.id
    · rw [if_pos hkind, goes g.id hdead hkind, FunctionBody.flow_zero]
    · rw [if_neg hkind]
  · obtain ⟨hiff, hsame⟩ := stays g.id hdead
    rw [if_pos (by simpa using hdead)]
    by_cases hkind : kind g.id
    · rw [if_pos (hiff.mpr hkind), if_pos hkind, hsame hkind]
    · rw [if_neg (mt hiff.mp hkind), if_neg hkind]

/-- **Entries are the same after a sweep.** -/
theorem WellFormed.entries_sweep (wf : p.WellFormed) (rounds : Nat)
    (hf : f ∈ p.sweep.2.functions.map FunctionBody.id) :
    (p.sweep.2.entries rounds).of f = (p.entries rounds).of f := by
  refine wf.sweep.entries_unique (fun _ => True) (fun _ _ _ _ => trivial)
    (fun f hf _ => wf.sweep.entries_eq rounds hf) (fun f hf _ => ?_) hf trivial
  obtain ⟨hmem, hstays⟩ := mem_functions_sweep.mp hf
  rw [wf.entries_eq rounds hmem]
  refine (estimate_congr (· ∉ p.dead) (fun f hf => ?_) (fun f hf e e' he => ?_) rounds hstays).symm
  · rw [outerFlow, outerFlow, rootCount_sweep hf]
    congr 1
    refine inflow_sweep (fun g _ => ⟨not_congr (wf.mutual_sweep hf), fun _ => rfl⟩) fun g hg _ => ?_
    exact wf.entries_of_mem_dead rounds hg
  · refine inflow_sweep (fun g hg => ⟨wf.mutual_sweep hf, fun _ => he g hg⟩) fun g hg hmutual => ?_
    exact absurd hg (wf.not_mem_dead_of_reaches hf hmutual.2)

/-- **A sweep does not disturb the profile.** Every block that is still there runs as often as
before by the profile, and the functions that are still there are recursive if they were before. -/
theorem Edited.profile_sweep (edited : p.Edited) (rounds : Nat) :
    ∀ f ∈ p.sweep.2.functions,
      (CallGraph.ofSnapshot p.sweep.2.snapshot).isRecursive f.id =
        (CallGraph.ofSnapshot p.snapshot).isRecursive f.id ∧
      ∀ b ∈ f.blocks, ∃ n, (p.sweep.2.profile rounds)[b.id]? = some n ∧
        (p.profile rounds)[b.id]? = some n := by
  have wf := edited.wellFormed
  intro f hf
  have hid : f.id ∈ p.sweep.2.functions.map FunctionBody.id := List.mem_map.mpr ⟨f, hf, rfl⟩
  refine ⟨wf.isRecursive_sweep (mem_functions_sweep.mp hid).2, fun b hb => ?_⟩
  refine ⟨_, wf.sweep.getElem?_profile rounds hf hb, ?_⟩
  rw [wf.entries_sweep rounds hid]
  rw [functions_sweep] at hf
  obtain ⟨g, hg, rfl⟩ := List.mem_map.mp hf
  obtain ⟨c, hc, rfl⟩ := List.mem_map.mp hb
  have hprofile := wf.getElem?_profile rounds (List.mem_filter.mp hg).1 hc
  exact hprofile

/-- Two functions that call each other, a main function into which a call of the first was inlined,
and a function that calls into the cycle and that no root reaches. -/
def stale : Program :=
  (inline ⟨⟨⟨0⟩, ⟨0⟩, 0⟩, ⟨0⟩, ⟨1⟩⟩).after <|
    assemble ["main", "even", "odd", "old"]
      [(0, .call ⟨1⟩), (1, .call ⟨2⟩), (2, .call ⟨1⟩), (3, .call ⟨2⟩), (3, .call ⟨3⟩)] [(0, 100)]

theorem edited_stale : stale.Edited := .inline _ (built_assemble _ _ _).edited

theorem profile_sweep_stale : stale.Edited ∧ stale.dead = [⟨3⟩] ∧
    (stale.profile 4)[(⟨2⟩ : BlockId)]? = some 300 ∧
    (stale.sweep.2.profile 4)[(⟨2⟩ : BlockId)]? = some 300 := by
  have hblock : ∃ f ∈ stale.sweep.2.functions, ∃ b ∈ f.blocks, b.id = ⟨2⟩ := by decide +kernel
  have hbefore : (stale.profile 4)[(⟨2⟩ : BlockId)]? = some 300 := by decide +kernel
  obtain ⟨f, hf, b, hb, hid⟩ := hblock
  obtain ⟨n, hafter, hn⟩ := (edited_stale.profile_sweep 4 f hf).2 b hb
  rw [hid] at hafter hn
  exact ⟨edited_stale, by decide +kernel, hbefore, by rw [hafter, ← hn, hbefore]⟩

end Program

end Inlining
