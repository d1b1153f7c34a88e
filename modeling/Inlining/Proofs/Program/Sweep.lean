import Inlining.Program.Sweep
import Inlining.Proofs.Program.WellFormed
import Mathlib.Algebra.Order.BigOperators.Group.List
import Mathlib.Algebra.Order.Ring.Nat

/-!
# What sweeping does to a program

A sweep only takes away: functions, and markers in the functions that stay. The program remains
well-formed and never gets larger, whatever the sweep decides to remove.

What it decides is sound: roots stay, and what a function that stays calls stays too. The worklist
never runs out of steps. It starts with the roots, and every function puts its calls there once,
when it is first seen; this is the bound that the sweep gives it.

## Main definitions

* `FunctionBody.bare` — a function without its markers

## Main results

* `Program.function?_sweep` — what is left
* `Program.size_sweep_le` — a sweep never makes a program larger
* `Program.WellFormed.reach_closed` — the worklist is worked off
* `Program.WellFormed.not_mem_dead_of_calls` — what is called from a function that stays, stays
-/

namespace Inlining

/-! ### The worklist -/

theorem FunctionSet.mem_insert {s : FunctionSet} {f g : FunctionId} :
    g ∈ s.insert f ↔ f = g ∨ g ∈ s := by
  rw [Std.ExtTreeSet.mem_insert, Std.LawfulEqCmp.compare_eq_iff_eq]

namespace Program

variable {p : Program} {work : List FunctionId} {seen : FunctionSet} {f : FunctionId}

/-- The calls in functions that have not been seen. -/
def callsUnseen (p : Program) (seen : FunctionSet) : Nat :=
  total (p.functions.map fun f => if f.id ∈ seen then 0 else f.callees.length)

/-- Seeing a function takes its calls off the count. -/
theorem WellFormed.callsUnseen_insert (wf : p.WellFormed) (hf : f ∉ seen) :
    p.callsUnseen (seen.insert f) + (p.calleesOf f).length = p.callsUnseen seen := by
  cases hbody : p.function? f with
  | none =>
    have hother : ∀ x ∈ p.functions, x.id ≠ f := by
      simpa [function?] using hbody
    have hsame : p.callsUnseen (seen.insert f) = p.callsUnseen seen := by
      rw [callsUnseen, callsUnseen]
      congr 1
      refine List.map_congr_left fun x hx => ?_
      simp only [FunctionSet.mem_insert, (hother x hx).symm, false_or]
    simp [calleesOf, hbody, hsame]
  | some body =>
    obtain ⟨hmem, hid⟩ := wf.function?_eq_some.mp hbody
    have hk : f ∈ p.functions.map FunctionBody.id := List.mem_map.mpr ⟨body, hmem, hid⟩
    simp only [calleesOf, hbody, Option.map_some, Option.getD_some, callsUnseen]
    rw [← total_map_add_of_key wf.nodup hk]
    congr 1
    refine List.map_congr_left fun x hx => ?_
    by_cases hxf : x.id = f
    · obtain rfl := wf.eq_of_id_eq hx hmem (hxf.trans hid.symm)
      simp [hxf, hf]
    · simp [hxf, Ne.symm hxf]

/-- **The worklist is worked off**: what was on it is seen in the end, and so is all that is called
from what is seen. -/
theorem WellFormed.reach_closed (wf : p.WellFormed) {n : Nat}
    (enough : work.length + p.callsUnseen seen ≤ n)
    (known : ∀ f ∈ seen, ∀ g ∈ p.calleesOf f, g ∈ seen ∨ g ∈ work) :
    (∀ f, f ∈ seen ∨ f ∈ work → f ∈ reach p.calleesOf n work seen) ∧
      ∀ f ∈ reach p.calleesOf n work seen, ∀ g ∈ p.calleesOf f,
        g ∈ reach p.calleesOf n work seen := by
  fun_induction reach p.calleesOf n work seen with
  | case1 work seen =>
    obtain rfl : work = [] := List.length_eq_zero_iff.mp (by omega)
    simpa using known
  | case2 n seen => simpa using known
  | case3 n f work seen hf ih =>
    rw [List.length_cons] at enough
    obtain ⟨hseen, hclosed⟩ := ih (by omega) fun x hx g hg => by
      rcases known x hx g hg with hg | hg
      · exact .inl hg
      · rcases List.mem_cons.mp hg with rfl | hg
        · exact .inl hf
        · exact .inr hg
    refine ⟨fun x hx => hseen x ?_, hclosed⟩
    rcases hx with hx | hx
    · exact .inl hx
    · rcases List.mem_cons.mp hx with rfl | hx
      · exact .inl hf
      · exact .inr hx
  | case4 n f work seen hf ih =>
    have hcount := wf.callsUnseen_insert hf
    rw [List.length_cons] at enough
    obtain ⟨hseen, hclosed⟩ := ih (by rw [List.length_append]; omega) fun x hx g hg => by
      rw [List.mem_append]
      rcases FunctionSet.mem_insert.mp hx with rfl | hx
      · exact .inr (.inl hg)
      · rcases known x hx g hg with hg | hg
        · exact .inl (FunctionSet.mem_insert.mpr (.inr hg))
        · rcases List.mem_cons.mp hg with rfl | hg
          · exact .inl (FunctionSet.mem_insert.mpr (.inl rfl))
          · exact .inr (.inr hg)
    refine ⟨fun x hx => hseen x ?_, hclosed⟩
    rw [FunctionSet.mem_insert, List.mem_append]
    rcases hx with hx | hx
    · exact .inl (.inr hx)
    · rcases List.mem_cons.mp hx with rfl | hx
      · exact .inl (.inl rfl)
      · exact .inr (.inr hx)

/-- Roots are live, and so is what live functions call. -/
theorem WellFormed.live_closed (wf : p.WellFormed) :
    (∀ f ∈ p.roots, f ∈ p.live) ∧ ∀ f ∈ p.live, ∀ g ∈ p.calleesOf f, g ∈ p.live := by
  have enough : p.roots.keys.length + p.callsUnseen ∅ ≤
      p.roots.size + total (p.functions.map fun f => f.callees.length) := by
    rw [Std.ExtTreeMap.length_keys]
    simp [callsUnseen]
  obtain ⟨hroots, hclosed⟩ := wf.reach_closed enough (by simp)
  exact ⟨fun f hf => hroots f (.inr (Std.ExtTreeMap.mem_keys.mpr hf)), hclosed⟩

/-! ### Dead functions -/

theorem mem_dead : f ∈ p.dead ↔
    p.roots.isEmpty = false ∧ f ∈ p.functions.map FunctionBody.id ∧ f ∉ p.live := by
  rw [dead]
  cases p.roots.isEmpty <;> simp

/-- **What is called from a function that stays, stays.** -/
theorem WellFormed.not_mem_dead_of_calls (wf : p.WellFormed) {g : FunctionId}
    (hf : f ∉ p.dead) (hg : g ∈ p.calleesOf f) : g ∉ p.dead := by
  intro hdead
  obtain ⟨hroots, -, hlive⟩ := mem_dead.mp hdead
  refine hf (mem_dead.mpr ⟨hroots, ?_, fun hf => hlive (wf.live_closed.2 f hf g hg)⟩)
  -- What calls something is a function of the program.
  rw [calleesOf] at hg
  cases hbody : p.function? f with
  | none => simp [hbody] at hg
  | some body => exact List.mem_map.mpr ⟨body, wf.function?_eq_some.mp hbody⟩

/-- A dead function is not entered from outside. -/
theorem WellFormed.rootCount_of_mem_dead (wf : p.WellFormed) (hf : f ∈ p.dead) :
    p.rootCount f = 0 :=
  Std.ExtTreeMap.getD_eq_fallback fun hroot => (mem_dead.mp hf).2.2 (wf.live_closed.1 f hroot)

end Program

/-! ### The swept program -/

/-- The function without markers. -/
def FunctionBody.bare (f : FunctionBody) : FunctionBody :=
  { f with blocks := f.blocks.map fun b => { b with code := b.code.filter fun i => !i.isMarker } }

namespace Program

variable {p : Program}

theorem WellFormed.remove (wf : p.WellFormed) (functions : List FunctionId) :
    (p.remove functions).WellFormed :=
  wf.filter rfl rfl rfl

theorem WellFormed.stripMarkers (wf : p.WellFormed) : p.stripMarkers.WellFormed := by
  refine wf.extend ⟨0⟩ [] _ rfl rfl (fun _ => rfl) ?_ .nil (by simp) (by simp) (Nat.le_refl _)
  intro f _
  simp [FunctionBody.blockIds]

/-- A swept program is well-formed. -/
theorem WellFormed.sweep (wf : p.WellFormed) : p.sweep.2.WellFormed :=
  (wf.remove p.dead).stripMarkers

theorem functions_sweep (p : Program) : p.sweep.2.functions =
    (p.functions.filter fun f => f.id ∉ p.dead).map FunctionBody.bare := rfl

theorem mem_functions_sweep {f : FunctionId} : f ∈ p.sweep.2.functions.map FunctionBody.id ↔
    f ∈ p.functions.map FunctionBody.id ∧ f ∉ p.dead := by
  rw [functions_sweep, List.map_map]
  simp only [List.mem_map, List.mem_filter, Function.comp_apply, FunctionBody.bare,
    decide_eq_true_eq]
  constructor
  · rintro ⟨g, ⟨hg, hdead⟩, rfl⟩
    exact ⟨⟨g, hg, rfl⟩, hdead⟩
  · rintro ⟨⟨g, hg, rfl⟩, hdead⟩
    exact ⟨g, ⟨hg, hdead⟩, rfl⟩

/-- The functions that stay lose their markers. -/
theorem function?_sweep (p : Program) (f : FunctionId) : p.sweep.2.function? f =
    if f ∈ p.dead then none else (p.function? f).map FunctionBody.bare := by
  rw [function?, function?, functions_sweep, List.find?_map, List.find?_filter]
  split
  · rename_i hdead
    rw [Option.map_eq_none_iff, List.find?_eq_none]
    intro x _ hx
    simp only [Function.comp_apply, FunctionBody.bare, decide_eq_true_eq] at hx
    exact hx.1 (of_decide_eq_true hx.2 ▸ hdead)
  · rename_i hlive
    congr 2
    funext x
    by_cases hx : x.id = f
    · simp [FunctionBody.bare, hx, hlive]
    · simp [FunctionBody.bare, hx]

theorem size_remove_le (p : Program) (functions : List FunctionId) :
    (p.remove functions).size ≤ p.size := by
  have hsub : (p.remove functions).functions.Sublist p.functions := List.filter_sublist
  exact (hsub.map FunctionBody.size).sum_le_sum fun _ _ => Nat.zero_le _

theorem size_stripMarkers_le (p : Program) : p.stripMarkers.size ≤ p.size := by
  rw [size, size, Program.stripMarkers, List.map_map]
  refine List.sum_le_sum fun f _ => ?_
  simp only [Function.comp_apply, FunctionBody.size, List.map_map]
  exact List.sum_le_sum fun b _ => List.length_filter_le _ _

/-- **A sweep never makes a program larger.** -/
theorem size_sweep_le (p : Program) : p.sweep.2.size ≤ p.size :=
  (size_stripMarkers_le _).trans (p.size_remove_le p.dead)

end Program

end Inlining
