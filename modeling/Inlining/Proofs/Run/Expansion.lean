import Inlining.Proofs.Program.Expansion
import Inlining.Proofs.Run.Simulation

/-!
# A run keeps what functions come to

A run rewrites the callers of what it inlines, and so changes what their own callers call; it also
drops functions. Whatever it does, a function that is still there at the end comes to the same
instructions as before, if it came to no cycle of calls before.

## Main results

* `Run.expand_unchanged` — a run keeps expansions
-/

namespace Inlining

namespace Program

/-- A function that calls another one and a leaf which both call, and that also calls out of the
program. Beside it there is a function that calls itself. -/
def diamond : Program :=
  assemble ["top", "side", "leaf", "loop"]
    [(0, .op), (0, .call ⟨1⟩), (0, .callClosure ⟨2⟩), (0, .call ⟨9⟩), (1, .branch), (1, .call ⟨2⟩),
      (2, .cut), (2, .ret), (3, .call ⟨3⟩)]
    [(0, 100), (3, 10)]

/-- The function at the top does not come to the one that calls itself. -/
theorem unrolls_diamond : diamond.Unrolls ⟨0⟩ := by
  have hclosed : ∀ f ∈ [(⟨0⟩ : FunctionId), ⟨1⟩, ⟨2⟩, ⟨9⟩], ∀ g ∈ diamond.calleesOf f,
      g ∈ [(⟨0⟩ : FunctionId), ⟨1⟩, ⟨2⟩, ⟨9⟩] := by
    decide +kernel
  have hflat : ∀ f ∈ [(⟨0⟩ : FunctionId), ⟨1⟩, ⟨2⟩, ⟨9⟩],
      (CallGraph.ofSnapshot diamond.snapshot).isRecursive f = false := by
    decide +kernel
  intro g hg
  refine hflat g ?_
  induction hg with
  | refl => exact List.mem_cons_self
  | tail _ hcalls ih => exact hclosed _ ih _ hcalls

end Program

namespace Run

/-- **A run keeps what functions come to.** Wherever a schedule ends, a function that is still there
has the expansion that it had at the start, if it came to no recursive function then. -/
theorem expand_unchanged {rounds : Nat} {limits : Limits} {oracle : Oracle} {w w' : Workspace}
    {policy : Policy} (built : w.program.Built)
    (prepared : Policy.prepare (Workspace.host rounds) limits oracle w = .ok policy w') (cap : Nat)
    {f : FunctionId} (unrolls : w.program.Unrolls f)
    (remains : (((drive (Workspace.host rounds) Workspace.inline cap).after
      ⟨policy, w'⟩).host.program.function? f).isSome) :
    ((drive (Workspace.host rounds) Workspace.inline cap).after
      ⟨policy, w'⟩).host.program.expand f = w.program.expand f := by
  have wf := built.wellFormed
  obtain ⟨hprogram, -, -⟩ := Policy.prepare_eq_ok wf prepared
  have hbetween : policy.Between w'.program := .inl (settled_of_prepare wf prepared)
  have hstart : w.program.Retains w'.program := by
    rw [hprogram]
    exact .refl _
  have hretains : w.program.Retains
      ((drive (Workspace.host rounds) Workspace.inline cap).after ⟨policy, w'⟩).host.program :=
    drive_program_invariant (fun p hp h => h.trans hp.retains_sweep wf hp)
      (fun p _ _ hp hbody h => h.trans (hp.retains_splice hbody) wf hp) hbetween hstart cap
  exact Multiset.coe_eq_coe.mpr (hretains.expansion f remains unrolls)

/-- The function at the top takes in all that it calls within the program, and of the other
functions only the loop is left. -/
theorem expand_unchanged_diamond : ∃ policy w',
    Program.diamond.Built ∧
    Policy.prepare (Workspace.host 4) { Limits.sixfold with neverOptimize := false }
      (Program.diamond.profile 4).oracle { program := Program.diamond } = .ok policy w' ∧
    Program.diamond.Unrolls ⟨0⟩ ∧
    ((drive (Workspace.host 4) Workspace.inline 9).after ⟨policy, w'⟩).host.program.functions.map
      FunctionBody.id = [⟨0⟩, ⟨3⟩] ∧
    ((drive (Workspace.host 4) Workspace.inline 9).after ⟨policy, w'⟩).host.program.expand ⟨0⟩ =
      Program.diamond.expand ⟨0⟩ := by
  have built : Program.diamond.Built := Program.built_assemble _ _ _
  obtain ⟨policy, w', prepared⟩ := Policy.exists_prepare_eq_ok (w := { program := Program.diamond })
    built.wellFormed 4 4 { Limits.sixfold with neverOptimize := false }
  have hrun : (match Policy.prepare (Workspace.host 4)
        { Limits.sixfold with neverOptimize := false }
        (Program.diamond.profile 4).oracle { program := Program.diamond } with
      | .error _ _ => false
      | .ok policy w' => decide (((drive (Workspace.host 4) Workspace.inline 9).after
          ⟨policy, w'⟩).host.program.functions.map FunctionBody.id = [⟨0⟩, ⟨3⟩])) = true := by
    decide +kernel
  simp only [prepared] at hrun
  have hleft := of_decide_eq_true hrun
  refine ⟨policy, w', built, prepared, Program.unrolls_diamond, hleft, ?_⟩
  refine expand_unchanged built prepared 9 Program.unrolls_diamond ?_
  rw [Program.function?, List.find?_isSome]
  have hmem := List.mem_map.mp (hleft ▸ List.mem_cons_self)
  obtain ⟨f, hf, hid⟩ := hmem
  exact ⟨f, hf, by simpa using hid⟩

end Run

end Inlining
