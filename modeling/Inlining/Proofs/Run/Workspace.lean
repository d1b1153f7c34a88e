import Inlining.Proofs.Program.Inline
import Inlining.Proofs.Program.Sweep
import Inlining.Proofs.Run.Step
import Inlining.Proofs.SiteIndex.Build
import Inlining.Workspace

/-!
# What the workspace does in a run

The workspace as host and engine, in terms of the program alone; the notes that it keeps play no
part. Its profile knows every block, so that the index can always be built anew: the optimizer
fallback of a run on a well-formed program cannot fail.

## Main definitions

* `Run.Rebuilt` — the run after the fallback
* `Program.echo`, `Program.wheel` — a function that calls itself, and a cycle of calls of the given
  length

## Main results

* `Run.fallBack_rebuilt` — the fallback
* `Workspace.inline_apply`, `Workspace.inline_eq_ok` — the engine
* `Policy.prepare_eq_ok`, `Policy.exists_prepare_eq_ok` — the start
-/

namespace Inlining

namespace Workspace

variable {rounds : Nat}

theorem program_noteAll (notes : List Note) (w : Workspace) :
    ((host rounds).noteAll notes w).program = w.program := by
  rw [Host.noteAll]
  induction notes generalizing w with
  | nil => rfl
  | cons n rest ih => exact ih (w.note n)

theorem simplify_apply (w : Workspace) :
    (host rounds).simplify w = .ok () (sweep.after w) := rfl

theorem profile_apply (w : Workspace) :
    (host rounds).profile w = .ok (w.program.profile rounds) ((profile rounds).after w) := rfl

/-- What the engine does to a workspace; it counts and notes only what it inlined. -/
theorem inline_apply (site : CallSite) (w : Workspace) :
    inline site w = match w.program.calleeAt site with
      | .error e => .error e w
      | .ok body => .ok (w.program.copiedCalls site body)
          (note {
              level := .debug
              text := "inlined " ++ site.label ++ ", "
                ++ toString (w.program.copiedCalls site body).length ++ " call sites copied" }
            { w with program := w.program.splice site body, inlined := w.inlined + 1 }) := by
  cases hbody : w.program.calleeAt site <;>
    simp [inline, onProgram, Program.inline_apply, hbody]

/-- The engine inlines a call site that can be inlined. -/
theorem inline_eq_ok {site : CallSite} {w : Workspace} {body : FunctionBody}
    (hbody : w.program.calleeAt site = .ok body) :
    ∃ w', inline site w = .ok (w.program.copiedCalls site body) w' ∧
      w'.program = w.program.splice site body := by
  rw [inline_apply, hbody]
  exact ⟨_, rfl, rfl⟩

end Workspace

namespace Run

/-- The run after the fallback: the program was swept and measured, and its index built anew. -/
structure Rebuilt (rounds : Nat) (s t : Run Workspace) : Prop where
  program : t.host.program = s.host.program.sweep.2
  describes : t.policy.index.Describes t.host.program (t.host.program.profile rounds).oracle
    t.host.program.snapshot.functions
  generation : t.policy.index.generation = s.policy.index.generation + 1
  plain : t.policy.plain = { s.policy.plain with
    budget := Word.clamp (s.policy.budget - ((t.host.program.size : Int) - s.policy.size))
    size := t.host.program.size
    index := t.policy.index }

/-- The fallback of a run on a well-formed program succeeds. -/
theorem fallBack_rebuilt (rounds : Nat) {s : Run Workspace} (wf : s.host.program.WellFormed) :
    ∃ t, fallBack (Workspace.host rounds) s = .ok () t ∧ Rebuilt rounds s t := by
  have wf' := wf.sweep
  rcases SiteIndex.build_cases wf' (s.host.program.sweep.2.profile rounds).oracle with
    ⟨next, hnext, hdescribes⟩ | ⟨e, -, he⟩
  case inr => exact absurd he (wf'.not_unknown rounds e)
  -- The index is built from the workspace that was swept and measured.
  let w := ((Workspace.host rounds).measure
    (Workspace.sweep.after (s.consulted (Workspace.host rounds)))).2
  have hbuild :
      SiteIndex.build ((Workspace.host rounds).snapshot ((Workspace.profile rounds).after w))
        (w.program.profile rounds).oracle = .ok next := hnext
  rw [fallBack_apply, Workspace.simplify_apply]
  simp only [Workspace.profile_apply]
  rw [hbuild]
  refine ⟨_, rfl, rfl, ?_, rfl, ?_⟩
  · -- Whether the views agree and what they hold does not depend on the generation.
    exact ⟨hdescribes.consistent.congr rfl (fun _ => rfl) fun _ => rfl, hdescribes.functions,
      hdescribes.figures, hdescribes.sound, hdescribes.complete, hdescribes.caller⟩
  · have hmeasured : ∀ n ix, ((s.policy.remeasure n).renew ix).plain = { s.policy.plain with
        budget := Word.clamp (s.policy.budget - ((n : Int) - s.policy.size))
        size := n
        index := ix } := fun _ _ => rfl
    refine (hmeasured s.host.program.sweep.2.snapshot.instructionCount _).trans ?_
    rw [wf'.instructionCount_snapshot]
    rfl

end Run

namespace Policy

/-- The policy at the start of a run on a well-formed program. -/
theorem prepare_eq_ok {rounds : Nat} {limits : Limits} {oracle : Oracle} {w w' : Workspace}
    {policy : Policy} (wf : w.program.WellFormed)
    (h : prepare (Workspace.host rounds) limits oracle w = .ok policy w') :
    w'.program = w.program ∧ policy = start limits w.program.size policy.index ∧
      policy.index.Describes w.program oracle w.program.snapshot.functions := by
  obtain ⟨n, happly⟩ := prepare_apply (Workspace.host rounds) limits oracle w
  rw [happly] at h
  have hsnapshot : (Workspace.host rounds).snapshot ((Workspace.host rounds).measure w).2 =
      w.program.snapshot := rfl
  rw [hsnapshot] at h
  rcases SiteIndex.build_cases wf oracle with ⟨ix, hix, hdescribes⟩ | ⟨e, herror, -⟩
  · rw [hix] at h
    cases h
    refine ⟨rfl, ?_, hdescribes⟩
    rw [← wf.instructionCount_snapshot]
    rfl
  · rw [herror] at h
    cases h

/-- A run can be set up with the profile of the program. -/
theorem exists_prepare_eq_ok {w : Workspace} (wf : w.program.WellFormed) (rounds rounds' : Nat)
    (limits : Limits) : ∃ policy w',
      prepare (Workspace.host rounds) limits (w.program.profile rounds').oracle w =
        .ok policy w' := by
  obtain ⟨n, happly⟩ :=
    prepare_apply (Workspace.host rounds) limits (w.program.profile rounds').oracle w
  rw [happly]
  have hsnapshot : (Workspace.host rounds).snapshot ((Workspace.host rounds).measure w).2 =
      w.program.snapshot := rfl
  rw [hsnapshot]
  rcases SiteIndex.build_cases wf (w.program.profile rounds').oracle with
    ⟨ix, hix, -⟩ | ⟨e, -, he⟩
  · rw [hix]
    exact ⟨_, _, rfl⟩
  · exact absurd he (wf.not_unknown rounds' e)

end Policy

/-! ### Small programs

Programs on which a run has something to do. -/

namespace Program

/-- A function that does nothing but call itself, entered a hundred times. -/
def echo : Program :=
  (setRoot ⟨0⟩ 100).after ((push ⟨0⟩ (.call ⟨0⟩)).after (Program.addFunction {} "echo").2)

theorem built_echo : echo.Built :=
  .setRoot ⟨0⟩ 100 (.push ⟨0⟩ (.call ⟨0⟩) (.addFunction "echo" .empty))

/-- Functions that call each other in a circle, of which the first is entered a hundred times. -/
def wheel (n : Nat) : Program :=
  let rim := (List.range n).foldl (fun p _ => (p.addFunction "spoke").2) {}
  (setRoot ⟨0⟩ 100).after <|
    (List.range n).foldl (fun p i => (push ⟨i⟩ (.call ⟨(i + 1) % n⟩)).after p) rim

theorem built_wheel (n : Nat) : (wheel n).Built := by
  refine .setRoot ⟨0⟩ 100 (List.foldlRecOn _ _ ?_ fun _ hp _ _ => .push _ _ hp)
  exact List.foldlRecOn _ _ .empty fun _ hp _ _ => .addFunction _ hp

end Program

/-- Limits under which a program may grow to six times its size, without the optimizer. -/
def Limits.sixfold : Limits where
  fraction := 5.0
  absoluteBudget := none
  minimumFrequency := 10
  recursiveLimit := 3
  neverOptimize := true
  noRecursiveInlining := false

end Inlining
