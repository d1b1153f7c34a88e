import Inlining.Proofs.Program.SweepProfile
import Inlining.Proofs.Run.Simulation

/-!
# What a completed run leaves

A run completes when there is nothing more to choose. Its last selection is made from an index, and
nothing but the index says what the program looks like. If the optimizer may run, the selection that
ends the run comes right after it: the program was swept, its profile was taken and the index was
built from both. What the selection found of the index therefore holds of the program, with a
profile that nobody had to keep up to date.

A sweep leaves what the roots reach and nothing else, so that this is what the program consists of.

## Main definitions

* `Run.Exhausted` — the program of the run has nothing more to inline

## Main results

* `Program.WellFormed.exists_root_sweep` — what a sweep leaves is reached from a root
* `Run.exists_rebuilt_of_last_turn` — the last selection comes after the optimizer
* `Run.nothing_left_eligible` — a completed run leaves nothing to inline
-/

namespace Inlining

open Relation

/-! ### What a sweep leaves -/

/-- The worklist stays within what its members lead to. -/
theorem reach_induction {next : FunctionId → List FunctionId} {Q : FunctionId → Prop}
    (closed : ∀ f g, Q f → g ∈ next f → Q g) {n : Nat} {work : List FunctionId}
    {seen : FunctionSet} (hwork : ∀ f ∈ work, Q f) (hseen : ∀ f ∈ seen, Q f) :
    ∀ f ∈ reach next n work seen, Q f := by
  fun_induction reach next n work seen with
  | case1 | case2 => exact hseen
  | case3 n f work seen _ ih =>
    exact ih (fun g hg => hwork g (List.mem_cons_of_mem f hg)) hseen
  | case4 n f work seen _ ih =>
    have hf : Q f := hwork f List.mem_cons_self
    refine ih (fun g hg => ?_) fun g hg => ?_
    · rcases List.mem_append.mp hg with hg | hg
      · exact closed f g hf hg
      · exact hwork g (List.mem_cons_of_mem f hg)
    · rcases FunctionSet.mem_insert.mp hg with rfl | hg
      · exact hf
      · exact hseen g hg

namespace Program

variable {p : Program} {f : FunctionId}

/-- A live function is reached from a root. -/
theorem exists_root_of_mem_live (hf : f ∈ p.live) :
    ∃ root ∈ p.roots, ReflTransGen p.Calls root f := by
  have closed : ∀ f g, (∃ root ∈ p.roots, ReflTransGen p.Calls root f) → g ∈ p.calleesOf f →
      ∃ root ∈ p.roots, ReflTransGen p.Calls root g :=
    fun _ _ ⟨root, hroot, hreach⟩ hcalls => ⟨root, hroot, hreach.tail hcalls⟩
  refine reach_induction closed (fun f hf => ?_) (by simp) f hf
  exact ⟨f, Std.ExtTreeMap.mem_keys.mp hf, .refl⟩

/-- **What a sweep leaves is reached from a root**, in what it leaves. -/
theorem WellFormed.exists_root_sweep (wf : p.WellFormed)
    (roots : p.sweep.2.roots.isEmpty = false)
    (hf : f ∈ p.sweep.2.functions.map FunctionBody.id) :
    ∃ root ∈ p.sweep.2.roots, ReflTransGen p.sweep.2.Calls root f := by
  have hroots : p.sweep.2.roots = p.roots.filter fun f _ => f ∉ p.dead := rfl
  have hsome : p.roots.isEmpty = false := by
    rw [← Bool.not_eq_true, Std.ExtTreeMap.isEmpty_iff] at roots ⊢
    intro hempty
    rw [hroots, Std.ExtTreeMap.filter_eq_empty_iff, hempty] at roots
    exact roots (by simp)
  obtain ⟨hmem, hdead⟩ := mem_functions_sweep.mp hf
  have hlive : f ∈ p.live := by_contra fun hlive => hdead (mem_dead.mpr ⟨hsome, hmem, hlive⟩)
  obtain ⟨root, hroot, hreach⟩ := exists_root_of_mem_live hlive
  have hstays : root ∉ p.dead := fun hdead => (mem_dead.mp hdead).2.2 (wf.live_closed.1 root hroot)
  refine ⟨root, ?_, (wf.reaches_sweep hstays).mpr hreach⟩
  rw [hroots, Std.ExtTreeMap.mem_filter]
  exact ⟨hroot, by simpa using hstays⟩

theorem isMarker_sweep (p : Program) {body : FunctionBody} (hbody : body ∈ p.sweep.2.functions)
    {b : Block} (hb : b ∈ body.blocks) {i : Instruction} (hi : i ∈ b.code) :
    i.isMarker = false := by
  rw [functions_sweep] at hbody
  obtain ⟨f, -, rfl⟩ := List.mem_map.mp hbody
  obtain ⟨b', -, rfl⟩ := List.mem_map.mp hb
  simpa using (List.mem_filter.mp hi).2

end Program

namespace SiteIndex

variable {ix : SiteIndex} {p : Program} {oracle : Oracle}

/-- A call between functions of the program has a record in an index of the program, with the
figures of the program. -/
theorem Describes.exists_record (h : ix.Describes p oracle p.snapshot.functions)
    (wf : p.WellFormed) {l : Location} {g : FunctionId} {body : FunctionBody}
    (hcall : p.callAt? l = some g) (hbody : p.function? g = some body) :
    ∃ id r callee, ix.record? id = some r ∧ r.callee = g ∧ r.inlined = false ∧
      oracle l.block = some r.frequency ∧ ix.function? g = some callee ∧
      callee.size = body.size ∧
      callee.recursive = (CallGraph.ofSnapshot p.snapshot).isRecursive g := by
  have hg : g ∈ ix.functions :=
    (h.functions g).mpr (wf.mem_functions_snapshot.mpr (Option.isSome_of_eq_some hbody))
  obtain ⟨caller, hcaller, -⟩ := wf.callAt?_eq_some.mp hcall
  have hl : l ∈ ix.sites :=
    h.complete l g (wf.mem_functions_snapshot.mpr (Option.isSome_of_eq_some hcaller)) hcall hg
  obtain ⟨id, r, hr, rfl⟩ := h.consistent.mem_sites.mp hl
  obtain ⟨-, hcall', -, hfrequency, hlive⟩ := h.sound id r hr
  obtain ⟨callee, hcallee⟩ := Option.isSome_iff_exists.mp (mem_functions_iff.mp hg)
  obtain ⟨-, hsize, hrecursive⟩ := h.figures_eq hcallee
  have hbodySize : p.snapshot.size g = some body.size := by simp [Program.snapshot, hbody]
  rw [hbodySize, Option.some.injEq] at hsize
  exact ⟨id, r, callee, hr, Option.some.inj (hcall'.symm.trans hcall), hlive, hfrequency, hcallee,
    hsize.symm, hrecursive.symm⟩

end SiteIndex

namespace Run

variable {rounds : Nat} {r t : Run Workspace}

/-! ### The last selection -/

/-- **The last selection comes after the optimizer**, if this may run. -/
theorem exists_rebuilt_of_last_turn (between : r.policy.Between r.host.program)
    (running : r.policy.finished = false) (allowed : r.policy.limits.neverOptimize = false)
    (last : r.turn (Workspace.host rounds) Workspace.inline = .ok false t) :
    ∃ s₀ s, s₀.host.program.WellFormed ∧ Rebuilt rounds s₀ s ∧
      s.policy.limits = r.policy.limits ∧ s.policy.selection.best = none ∧
      t.policy.plain = { s.policy.plain with finished := true } ∧
      t.host.program = s.host.program := by
  have hfirst : ∀ s, account (Workspace.host rounds) r.tick = .ok () s →
      Selects (Workspace.host rounds) r s := fun _ => .first running
  obtain ⟨s₀, s, n, accounted, optimized, nothing, rfl⟩ := exists_fallBack_of_step running
    (fun s hs => by rw [(hfirst s hs).standing.1, allowed]) (step_of_last_turn last)
  have wf : (s₀.noted (Workspace.host rounds)).host.program.WellFormed := by
    rw [show (s₀.noted (Workspace.host rounds)).host.program = s₀.host.program from
      Workspace.program_noteAll _ _]
    exact ((hfirst s₀ accounted).cases between).1.wellFormed
  obtain ⟨s', hok, hrebuilt⟩ := fallBack_rebuilt rounds wf
  cases optimized.symm.trans hok
  refine ⟨_, s, wf, hrebuilt, ?_, nothing, rfl, Workspace.program_noteAll _ _⟩
  have hlimits : s.policy.limits = s₀.policy.limits :=
    show s.policy.plain.limits = _ by rw [hrebuilt.plain]; rfl
  rw [hlimits, (hfirst s₀ accounted).standing.1]

/-! ### The program at the end -/

/-- The program of the run has nothing more to inline under the limits. -/
structure Exhausted (rounds : Nat) (limits : Limits) (t : Run Workspace) : Prop where
  /-- No instruction marks an inlined call. -/
  unmarked : ∀ f ∈ t.host.program.functions, ∀ b ∈ f.blocks, ∀ i ∈ b.code, i.isMarker = false
  /-- If there are roots, all functions are reached from them. -/
  reached : t.host.program.roots.isEmpty = false →
    ∀ f ∈ t.host.program.functions.map FunctionBody.id,
      ∃ root ∈ t.host.program.roots, ReflTransGen t.host.program.Calls root f
  /-- A call to a function of the program runs too rarely, by a profile of the program as it is, or
  the function is too large for the budget, or it is recursive and not to be inlined again. -/
  ineligible : ∀ l g body, t.host.program.callAt? l = some g →
    t.host.program.function? g = some body →
    (∃ n, (t.host.program.profile rounds).oracle l.block = some n ∧ n < limits.minimumFrequency) ∨
    t.policy.budget < body.size ∨
    (CallGraph.ofSnapshot t.host.program.snapshot).isRecursive g = true ∧
      (limits.recursiveLimit ≤ t.policy.recursiveInlinesOf g ∨ limits.noRecursiveInlining = true)

/-- Where the index is new and nothing can be selected from it, the program has nothing to
inline. -/
theorem Rebuilt.exhausted {s₀ s : Run Workspace} (h : Rebuilt rounds s₀ s)
    (wf : s₀.host.program.WellFormed) (nothing : s.policy.selection.best = none) :
    s.Exhausted rounds s.policy.limits := by
  have hprogram := h.program
  have wf' : s.host.program.WellFormed := hprogram ▸ wf.sweep
  constructor
  case unmarked =>
    intro f hf b hb i hi
    rw [hprogram] at hf
    exact s₀.host.program.isMarker_sweep hf hb hi
  case reached =>
    rw [hprogram]
    exact fun roots f hf => wf.exists_root_sweep roots hf
  case ineligible =>
    intro l g body hcall hbody
    obtain ⟨id, r, callee, hr, rfl, hlive, hfrequency, hcallee, hsize, hrecursive⟩ :=
      h.describes.exists_record wf' hcall hbody
    have hfails := Selection.check_of_best_eq_none h.describes.consistent nothing hr
    by_contra hnot
    simp only [not_or, not_exists, not_and] at hnot
    obtain ⟨hoften, hfits, hallowed⟩ := hnot
    -- If none of the three were the case, the call would pass the checks.
    refine hfails (Selection.check_eq_none_iff.mpr ⟨callee, hcallee, hlive, ?_, ?_, ?_⟩)
    · exact Nat.le_of_not_lt (hoften _ hfrequency)
    · rw [hsize]
      exact Int.le_of_not_gt hfits
    · intro hflag
      obtain ⟨hcount, henabled⟩ := hallowed (hrecursive.symm.trans hflag)
      exact ⟨Nat.lt_of_not_le hcount, Bool.not_eq_true _ ▸ henabled⟩

/-- **A completed run leaves nothing to inline.** Let a run of a program that was put together in
any way be set up with an optimizer that may run, and driven to its end. The program is then free of
markers and, if it has roots, of functions that these do not reach. Every call in it to one of its
functions has a block that runs less often than the limits ask for, by a profile of this very
program, or leads to a function that is larger than what is left of the budget, or to one on a cycle
of calls that was inlined as often as it may be or may not be inlined at all. -/
theorem nothing_left_eligible {limits : Limits} {oracle : Oracle} {w w' : Workspace}
    {policy : Policy} (edited : w.program.Edited)
    (prepared : Policy.prepare (Workspace.host rounds) limits oracle w = .ok policy w')
    (optimizes : limits.neverOptimize = false) {cap : Nat} {o : Outcome}
    (driven : drive (Workspace.host rounds) Workspace.inline cap ⟨policy, w'⟩ = .ok o t)
    (completed : o.completed = true) : t.Exhausted rounds limits := by
  have wf := edited.wellFormed
  have between : policy.Between w'.program := .inl (settled_of_prepare wf prepared)
  obtain ⟨-, hpolicy, -⟩ := Policy.prepare_eq_ok wf prepared
  have hlimits : policy.limits = limits := by rw [hpolicy]; rfl
  have hrunning : policy.finished = false := by rw [hpolicy]; rfl
  obtain ⟨r, hr, last⟩ := exists_last_turn driven completed
  have hrlimits : r.policy.limits = limits := (hr.limits between).trans hlimits
  obtain ⟨s₀, s, hwf, hrebuilt, hslimits, nothing, hplain, hprogram⟩ :=
    exists_rebuilt_of_last_turn (hr.between between) (hr.running between hrunning)
      (by rw [hrlimits, optimizes]) last
  obtain ⟨unmarked, reached, ineligible⟩ := hrebuilt.exhausted hwf nothing
  rw [hslimits, hrlimits] at ineligible
  have hbudget : t.policy.budget = s.policy.budget :=
    show t.policy.plain.budget = _ by rw [hplain]; rfl
  have hcounts : t.policy.recursiveInlines = s.policy.recursiveInlines :=
    show t.policy.plain.recursiveInlines = _ by rw [hplain]; rfl
  constructor
  case unmarked => rwa [hprogram]
  case reached => rwa [hprogram]
  case ineligible =>
    rw [hprogram, hbudget]
    simp only [Policy.recursiveInlinesOf, hcounts]
    exact ineligible

/-- A program with a marker, a cycle of two calls and a function that no root reaches. At the end
the main function and one function of the cycle are left. -/
theorem nothing_left_eligible_stale : ∃ policy w' o t,
    Program.stale.Edited ∧
    Policy.prepare (Workspace.host 4) { Limits.sixfold with neverOptimize := false }
      (Program.stale.profile 4).oracle { program := Program.stale } = .ok policy w' ∧
    drive (Workspace.host 4) Workspace.inline 9 ⟨policy, w'⟩ = .ok o t ∧ o.completed = true ∧
    t.host.program.functions.map FunctionBody.id = [⟨0⟩, ⟨2⟩] ∧
    t.Exhausted 4 { Limits.sixfold with neverOptimize := false } := by
  have hrun : (match Policy.prepare (Workspace.host 4)
      { Limits.sixfold with neverOptimize := false } (Program.stale.profile 4).oracle
      { program := Program.stale } with
    | .error _ _ => false
    | .ok policy w' => match drive (Workspace.host 4) Workspace.inline 9 ⟨policy, w'⟩ with
      | .error _ _ => false
      | .ok o t => decide (o.completed = true ∧
          t.host.program.functions.map FunctionBody.id = [⟨0⟩, ⟨2⟩])) = true := by
    decide +kernel
  split at hrun
  · cases hrun
  · rename_i policy w' prepared
    split at hrun
    · cases hrun
    · rename_i o t driven
      obtain ⟨completed, hfunctions⟩ := of_decide_eq_true hrun
      exact ⟨policy, w', o, t, Program.edited_stale, prepared, driven, completed, hfunctions,
        nothing_left_eligible Program.edited_stale prepared rfl driven completed⟩

end Run

end Inlining
