import Inlining.Proofs.Program.Numbering
import Inlining.Proofs.Program.SweepProfile
import Inlining.Workspace

/-!
# A sweep takes what is dead and no more

Which functions a sweep may take out is a matter of paths in the program: those that no root comes
to call, if there are roots at all. The worklist decides it by looking at each function once, and
calls may lead in circles or to functions that are not there. It finds exactly what is reached:
that nothing is missed was seen where sweeps were introduced, and what is found has been called.

Everything else follows. No root goes, and what stays calls what it called before, so it is reached
in the swept program as well. A second sweep has nothing to do.

## Main definitions

* `Program.Swept` — a program after a sweep, and the functions taken out

## Main results

* `Program.WellFormed.mem_live` — the live functions are those that a root comes to call
* `Program.Edited.swept` — what a sweep does
* `Program.Edited.sweep_sweep` — a second sweep does nothing
* `Workspace.sweep_exact` — sweeps of a workspace
-/

namespace Inlining

open Relation

/-! ### The worklist finds what is reached -/

/-- What the worklist finds was seen before, or something on it leads there. -/
theorem exists_of_mem_reach {next : FunctionId → List FunctionId} {n : Nat}
    {work : List FunctionId} {seen : FunctionSet} {f : FunctionId}
    (hf : f ∈ reach next n work seen) :
    f ∈ seen ∨ ∃ g ∈ work, ReflTransGen (fun a b => b ∈ next a) g f := by
  fun_induction reach next n work seen with
  | case1 | case2 => exact .inl hf
  | case3 n g work seen hg ih =>
    rcases ih hf with hseen | ⟨x, hx, hreach⟩
    · exact .inl hseen
    · exact .inr ⟨x, List.mem_cons_of_mem g hx, hreach⟩
  | case4 n g work seen hg ih =>
    rcases ih hf with hseen | ⟨x, hx, hreach⟩
    · rcases FunctionSet.mem_insert.mp hseen with rfl | hseen
      · exact .inr ⟨g, List.mem_cons_self, .refl⟩
      · exact .inl hseen
    · rcases List.mem_append.mp hx with hx | hx
      · exact .inr ⟨g, List.mem_cons_self, .head hx hreach⟩
      · exact .inr ⟨x, List.mem_cons_of_mem g hx, hreach⟩

namespace Program

/-- The second program is the first one after a sweep that took out the given functions. -/
structure Swept (p q : Program) (gone : List FunctionId) : Prop where
  /-- A function stays if a root comes to call it, or if there are no roots. -/
  functions : ∀ f, (q.function? f).isSome ↔ (p.function? f).isSome ∧
    (p.roots.isEmpty ∨ ∃ root ∈ p.roots, ReflTransGen p.Calls root f)
  /-- What stays has the blocks that it had, without their markers. -/
  bodies : ∀ f body, q.function? f = some body → ∃ old, p.function? f = some old ∧
    body = { old with blocks := old.blocks.map fun b =>
      { b with code := b.code.filter fun i => !i.isMarker } }
  owners : ∀ f body, q.function? f = some body → ∀ b ∈ body.blocks,
    p.owner? b.id = some f ∧ q.owner? b.id = some f
  roots : q.roots = p.roots
  /-- No call has lost its target. -/
  calls : ∀ f g, q.Calls f g → (p.function? g).isSome → (q.function? g).isSome
  taken : ∀ f, f ∈ gone ↔ (p.function? f).isSome ∧ q.function? f = none
  ascending : gone.Pairwise fun f g => f.index < g.index
  size : q.size ≤ p.size
  nextFunction : q.nextFunction = p.nextFunction
  nextBlock : q.nextBlock = p.nextBlock

variable {p : Program} {f g : FunctionId}

/-- **The live functions are those that a root comes to call.** -/
theorem WellFormed.mem_live (wf : p.WellFormed) :
    f ∈ p.live ↔ ∃ root ∈ p.roots, ReflTransGen p.Calls root f := by
  constructor
  · intro hf
    rcases exists_of_mem_reach hf with hf | ⟨root, hroot, hreach⟩
    · exact absurd hf Std.ExtTreeSet.not_mem_empty
    · exact ⟨root, Std.ExtTreeMap.mem_keys.mp hroot, hreach⟩
  · rintro ⟨root, hroot, hreach⟩
    induction hreach with
    | refl => exact wf.live_closed.1 root hroot
    | tail _ hcalls ih => exact wf.live_closed.2 _ ih _ hcalls

theorem WellFormed.not_mem_dead (wf : p.WellFormed) (hf : (p.function? f).isSome) :
    f ∉ p.dead ↔ p.roots.isEmpty ∨ ∃ root ∈ p.roots, ReflTransGen p.Calls root f := by
  rw [mem_dead, ← wf.mem_live]
  simp only [mem_map_id_of_isSome hf, true_and, not_and, not_not]
  cases p.roots.isEmpty <;> simp

theorem isSome_function?_sweep :
    (p.sweep.2.function? f).isSome ↔ (p.function? f).isSome ∧ f ∉ p.dead := by
  rw [function?_sweep]
  split <;> simp [*]

/-- The functions taken out are in ascending order, as functions are. -/
theorem WellFormed.ascending_dead (wf : p.WellFormed) :
    p.dead.Pairwise fun f g => f.index < g.index := by
  have hall : (p.functions.map FunctionBody.id).Pairwise fun f g => f.index < g.index :=
    List.pairwise_map.mpr wf.ascending
  rw [dead]
  split
  · exact .nil
  · exact hall.sublist List.filter_sublist

/-! ### Roots -/

/-- No root is taken out. -/
theorem WellFormed.not_mem_dead_of_root (wf : p.WellFormed) (hf : f ∈ p.roots) : f ∉ p.dead :=
  fun hdead => (mem_dead.mp hdead).2.2 (wf.live_closed.1 f hf)

theorem WellFormed.roots_sweep (wf : p.WellFormed) : p.sweep.2.roots = p.roots := by
  refine Std.ExtTreeMap.filter_eq_self_iff.mpr fun f hf => ?_
  simpa using wf.not_mem_dead_of_root hf

/-! ### What a sweep does -/

/-- **A sweep takes what is dead and no more.** -/
theorem Edited.swept (edited : p.Edited) : p.Swept p.sweep.2 p.sweep.1.removed := by
  have wf := edited.wellFormed
  have hregistered := (Edited.sweep edited).registered
  constructor
  case functions =>
    intro f
    rw [isSome_function?_sweep]
    exact and_congr_right wf.not_mem_dead
  case bodies =>
    intro f body hbody
    rw [function?_sweep] at hbody
    split at hbody
    · cases hbody
    · obtain ⟨old, hold, rfl⟩ := Option.map_eq_some_iff.mp hbody
      exact ⟨old, hold, rfl⟩
  case owners =>
    intro f body hbody b hb
    obtain ⟨hmem, hid⟩ := wf.sweep.function?_eq_some.mp hbody
    have hholds : p.sweep.2.Holds f b.id :=
      ⟨body, hmem, hid, FunctionBody.mem_blockIds.mpr ⟨b, hb, rfl⟩⟩
    exact ⟨(edited.registered _ _).mpr ((p.holds_sweep f b.id).mp hholds).1,
      (hregistered _ _).mpr hholds⟩
  case roots => exact wf.roots_sweep
  case calls =>
    intro f g hcalls hg
    obtain ⟨hcalls, hf⟩ := calls_sweep.mp hcalls
    exact isSome_function?_sweep.mpr ⟨hg, wf.not_mem_dead_of_calls hf hcalls⟩
  case taken =>
    intro f
    change f ∈ p.dead ↔ _
    rw [← Option.not_isSome_iff_eq_none, isSome_function?_sweep]
    refine ⟨fun hf => ?_, fun ⟨hf, h⟩ => not_not.mp fun hdead => h ⟨hf, hdead⟩⟩
    exact ⟨wf.mem_functions_snapshot.mp (mem_dead.mp hf).2.1, fun h => h.2 hf⟩
  case ascending => exact wf.ascending_dead
  case size => exact p.size_sweep_le
  case nextFunction => rfl
  case nextBlock => rfl

/-! ### A second sweep -/

/-- What stays in a program is reached in it. -/
theorem Edited.dead_sweep (edited : p.Edited) : p.sweep.2.dead = [] := by
  have wf := edited.wellFormed
  refine List.eq_nil_iff_forall_not_mem.mpr fun f hdead => ?_
  have hf := wf.sweep.mem_functions_snapshot.mp (mem_dead.mp hdead).2.1
  refine (wf.sweep.not_mem_dead hf).mpr ?_ hdead
  rw [wf.roots_sweep]
  rcases ((edited.swept.functions f).mp hf).2 with hempty | ⟨root, hroot, hreach⟩
  · exact .inl hempty
  · exact .inr ⟨root, hroot, (wf.reaches_sweep (wf.not_mem_dead_of_root hroot)).mpr hreach⟩

theorem remove_nil (p : Program) : p.remove [] = p := by
  have hroots : (p.roots.filter fun f _ => f ∉ ([] : List FunctionId)) = p.roots :=
    Std.ExtTreeMap.filter_eq_self_iff.mpr fun f _ => by simp
  have hfunctions : (p.functions.filter fun f => f.id ∉ ([] : List FunctionId)) = p.functions :=
    List.filter_eq_self.mpr fun f _ => by simp
  have hnone : (p.functions.filter fun f => f.id ∈ ([] : List FunctionId)) = [] :=
    List.filter_eq_nil_iff.mpr fun f _ => by simp
  rw [remove, hroots, hfunctions, hnone]
  rfl

theorem stripMarkers_stripMarkers (p : Program) : p.stripMarkers.stripMarkers = p.stripMarkers := by
  simp [stripMarkers, Function.comp_def]

/-- **A second sweep does nothing.** -/
theorem Edited.sweep_sweep (edited : p.Edited) :
    p.sweep.2.sweep.2 = p.sweep.2 ∧ p.sweep.2.sweep.1.removed = [] := by
  refine ⟨?_, edited.dead_sweep⟩
  change (p.sweep.2.remove p.sweep.2.dead).stripMarkers = p.sweep.2
  rw [edited.dead_sweep, remove_nil]
  exact stripMarkers_stripMarkers (p.remove p.dead)

end Program

namespace Workspace

theorem sweep_apply (w : Workspace) : ∃ notes, sweep w = .ok ()
    { w with
      program := w.program.sweep.2
      removed := w.removed ++ w.program.sweep.1.removed
      notes } :=
  ⟨_, rfl⟩

/-- **A sweep takes what is dead and no more.** Let a program be put together in any way, and also
inlined into and swept. A sweep of it succeeds. If there are roots, the functions that stay are
those that a root comes to call, and else all of them. Blocks that stay have their number, weight
and function and their code without the markers; roots stay, and no call that had a target loses it.
The functions taken out are added to the list of such in ascending order, and the program does not
get larger. After that a second sweep changes neither the program nor the list. -/
theorem sweep_exact {w : Workspace} (edited : w.program.Edited) : ∃ v gone,
    sweep w = .ok () v ∧ w.program.Swept v.program gone ∧ v.removed = w.removed ++ gone ∧
    ∃ v', sweep v = .ok () v' ∧ v'.program = v.program ∧ v'.removed = v.removed := by
  obtain ⟨notes, hsweep⟩ := sweep_apply w
  refine ⟨_, _, hsweep, edited.swept, rfl, ?_⟩
  obtain ⟨hprogram, hremoved⟩ := edited.sweep_sweep
  obtain ⟨notes', hsweep'⟩ := sweep_apply { w with
    program := w.program.sweep.2
    removed := w.removed ++ w.program.sweep.1.removed
    notes }
  refine ⟨_, hsweep', hprogram, ?_⟩
  change w.removed ++ w.program.sweep.1.removed ++ w.program.sweep.2.sweep.1.removed = _
  rw [hremoved, List.append_nil]

/-- A main function with a marker, two functions that call each other, and one that calls them and
itself. The last one is taken out, after another one was in an earlier sweep. -/
theorem sweep_exact_stale : ∃ v v', Program.stale.Edited ∧
    sweep { program := Program.stale, removed := [⟨7⟩] } = .ok () v ∧ v.removed = [⟨7⟩, ⟨3⟩] ∧
    (v.program.function? ⟨2⟩).isSome ∧ v.program.function? ⟨3⟩ = none ∧
    sweep v = .ok () v' ∧ v'.program = v.program ∧ v'.removed = [⟨7⟩, ⟨3⟩] := by
  obtain ⟨v, gone, hsweep, hswept, happended, v', hsweep', hprogram, hsame⟩ :=
    sweep_exact (w := { program := Program.stale, removed := [⟨7⟩] }) Program.edited_stale
  have hremoved : (sweep.after { program := Program.stale, removed := [⟨7⟩] }).removed =
      [⟨7⟩, ⟨3⟩] := by decide +kernel
  rw [Update.after, hsweep] at hremoved
  obtain rfl : gone = [⟨3⟩] := by simpa [hremoved] using happended.symm
  have hmember : (Program.stale.function? ⟨2⟩).isSome := by decide +kernel
  refine ⟨v, v', Program.edited_stale, hsweep, hremoved, ?_, ((hswept.taken ⟨3⟩).mp ?_).2, hsweep',
    hprogram, hsame.trans hremoved⟩
  · -- Nothing else was taken out.
    by_contra hnone
    have htaken := (hswept.taken ⟨2⟩).mpr ⟨hmember, Option.not_isSome_iff_eq_none.mp hnone⟩
    simp at htaken
  · exact List.mem_singleton_self _

end Workspace

end Inlining
