import Inlining.Proofs.Program.Flow

/-!
# Profiles grow with the entries from outside

If functions are entered from outside more often, or if cycles are refined for more rounds, then no
block runs less often by the profile. The two profiles are those of different programs, which have
their functions and code in common.

Divisions are rounded down on the way, and every round starts again from what comes into a cycle, so
this cannot be read off round by round. But the entries of both programs solve their equations, and
these have the same shape: what they add up grows with the entries of callers. The induction goes
from the highest rank down, as where solutions were shown to be unique.

## Main results

* `Program.WellFormed.entries_mono` — functions are entered at least as often
* `Program.Edited.profile_mono` — and blocks run at least as often
-/

namespace Inlining

namespace Program

variable {p q : Program} {f g : FunctionId} {entries entries' : FunctionId → Nat}

/-! ### Programs with the same code -/

theorem calls_of_functions_eq (same : q.functions = p.functions) : q.Calls = p.Calls := by
  funext f g
  rw [Calls, Calls, calleesOf, calleesOf, function?, function?, same]

theorem mutual_of_functions_eq (same : q.functions = p.functions) : q.Mutual = p.Mutual := by
  funext f g
  rw [Mutual, Mutual, calls_of_functions_eq same]

/-- The inflow grows with the entries of the callers. -/
theorem WellFormed.inflow_le (wf : p.WellFormed) {kind : FunctionId → Prop}
    (same : q.functions = p.functions)
    (h : ∀ g, p.Calls g f → kind g → entries g ≤ entries' g) :
    p.inflow kind entries f ≤ q.inflow kind entries' f := by
  have hcallers : ∀ e : FunctionId → Nat,
      p.inflow kind e f = p.inflow (fun g => p.Calls g f ∧ kind g) e f := fun e =>
    wf.inflow_congr fun g hcalls => ⟨(and_iff_right hcalls).symm, fun _ => rfl⟩
  have hsame : q.inflow kind entries' f = p.inflow kind entries' f := by
    rw [inflow, inflow, same]
  rw [hsame, hcallers, hcallers]
  exact inflow_mono fun g hg => h g hg.1 hg.2

theorem WellFormed.outerFlow_le (wf : p.WellFormed) (same : q.functions = p.functions)
    (roots : p.rootCount f ≤ q.rootCount f)
    (h : ∀ g, p.Calls g f → ¬ p.Mutual g f → entries g ≤ entries' g) :
    p.outerFlow entries f ≤ q.outerFlow entries' f := by
  rw [outerFlow, outerFlow, mutual_of_functions_eq same]
  exact Nat.add_le_add roots (wf.inflow_le same h)

theorem WellFormed.innerFlow_le (wf : p.WellFormed) (same : q.functions = p.functions)
    (h : ∀ g, p.Mutual g f → entries g ≤ entries' g) :
    p.innerFlow entries f ≤ q.innerFlow entries' f := by
  rw [innerFlow, innerFlow, mutual_of_functions_eq same]
  exact wf.inflow_le same fun g _ hg => h g hg

/-! ### Entries and profiles -/

/-- **Functions are entered at least as often.** Callers off the cycle of a function have a higher
rank, and those on it are compared round by round. -/
theorem WellFormed.entries_mono (wf : p.WellFormed) (wf' : q.WellFormed)
    (same : q.functions = p.functions) (roots : ∀ f, p.rootCount f ≤ q.rootCount f)
    {rounds rounds' : Nat} (more : rounds ≤ rounds') (hf : f ∈ p.functions.map FunctionBody.id) :
    (p.entries rounds).of f ≤ (q.entries rounds').of f := by
  induction hrank : p.allCallees.length + 1 - p.rank f using Nat.strongRecOn generalizing f with
  | ind n ih =>
    rw [wf.entries_eq rounds hf, wf'.entries_eq rounds' (same ▸ hf)]
    refine estimate_mono (p.Mutual f) (fun x hx => ?_) (fun x hx e e' he => ?_) more (.refl p f)
    · refine wf.outerFlow_le same (roots x) fun g hcalls hg => ?_
      have hlt := rank_lt_of_calls hcalls hg
      have hle := p.rank_le_calls g
      have heq := hx.rank_eq
      exact ih _ (by omega) (wf.mem_of_calls hcalls) rfl
    · exact wf.innerFlow_le same fun g hg => he g (hx.trans hg.symm)

/-- **Profiles grow with the entries from outside.** Let two programs be put together in any way,
with the same functions and code, and let every function be entered from outside at least as often
in the second one, where a function that is no root is not entered from outside. Then every block
runs at least as often by a profile of the second one as by one of the first that takes no more
rounds. -/
theorem Edited.profile_mono (edited : p.Edited) (edited' : q.Edited)
    (same : q.functions = p.functions) (roots : ∀ f, p.rootCount f ≤ q.rootCount f)
    {rounds rounds' : Nat} (more : rounds ≤ rounds') :
    ∀ f ∈ p.functions, ∀ b ∈ f.blocks, ∃ n m, (p.profile rounds)[b.id]? = some n ∧
      (q.profile rounds')[b.id]? = some m ∧ n ≤ m := by
  intro f hf b hb
  have wf := edited.wellFormed
  have wf' := edited'.wellFormed
  refine ⟨_, _, wf.getElem?_profile rounds hf hb, wf'.getElem?_profile rounds' (same ▸ hf) hb, ?_⟩
  exact blockRuns_mono (wf.entries_mono wf' same roots more (List.mem_map_of_mem hf)) b.weight

/-- Setting a root changes how often one function is entered from outside, and nothing else. -/
theorem rootCount_setRoot (p : Program) (f : FunctionId) (count : Nat) (g : FunctionId) :
    ((setRoot f count).after p).rootCount g =
      if (p.function? f).isSome ∧ f = g then count else p.rootCount g := by
  rw [Update.after, setRoot_apply]
  by_cases hf : (p.function? f).isSome
  · simp only [hf, if_true, true_and, rootCount, Std.ExtTreeMap.getD_insert,
      Std.compare_eq_iff_eq]
  · simp only [hf, Bool.false_eq_true, if_false, false_and]

/-- A main function that calls one of two functions which call each other, and a leaf. -/
def carousel : Program :=
  assemble ["main", "up", "down", "leaf"]
    [(0, .call ⟨1⟩), (1, .call ⟨2⟩), (2, .call ⟨1⟩), (2, .call ⟨3⟩)] [(0, 100)]

/-- The main function is entered more often, and so is the leaf, which was no root before. -/
def busyCarousel : Program := (setRoot ⟨3⟩ 7).after ((setRoot ⟨0⟩ 150).after carousel)

theorem rootCount_busyCarousel (f : FunctionId) :
    carousel.rootCount f ≤ busyCarousel.rootCount f := by
  have hmain : carousel.rootCount ⟨0⟩ = 100 := by decide +kernel
  have hleaf : carousel.rootCount ⟨3⟩ = 0 := by decide +kernel
  rw [busyCarousel, rootCount_setRoot, rootCount_setRoot]
  split
  · rename_i h
    rw [← h.2, hleaf]
    exact Nat.zero_le _
  · split
    · rename_i h
      rw [← h.2, hmain]
      decide
    · exact Nat.le_refl _

theorem profile_mono_carousel : carousel.Edited ∧ busyCarousel.Edited ∧
    busyCarousel.functions = carousel.functions ∧
    (∀ f, carousel.rootCount f ≤ busyCarousel.rootCount f) ∧
    (carousel.profile 3)[(⟨3⟩ : BlockId)]? = some 200 ∧
    ∃ m, (busyCarousel.profile 5)[(⟨3⟩ : BlockId)]? = some m ∧ 200 ≤ m := by
  have edited : carousel.Edited := (built_assemble _ _ _).edited
  have edited' : busyCarousel.Edited := .setRoot _ _ (.setRoot _ _ edited)
  have same : busyCarousel.functions = carousel.functions := by decide +kernel
  have hbefore : (carousel.profile 3)[(⟨3⟩ : BlockId)]? = some 200 := by decide +kernel
  have hblock : ∃ f ∈ carousel.functions, ∃ b ∈ f.blocks, b.id = ⟨3⟩ := by decide +kernel
  obtain ⟨f, hf, b, hb, hid⟩ := hblock
  obtain ⟨n, m, hn, hm, hle⟩ := edited.profile_mono edited' same rootCount_busyCarousel
    (show 3 ≤ 5 by decide) f hf b hb
  rw [hid] at hn hm
  cases hn.symm.trans hbefore
  exact ⟨edited, edited', same, rootCount_busyCarousel, hbefore, m, hm, hle⟩

end Program

end Inlining
