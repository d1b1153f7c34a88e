import Inlining.Proofs.Policy.Requests

/-!
# The pending inline

A step hands out a call site and the policy waits for reports on its inline until the next step.
The number of the call site is kept over this time and is used in a later request, although any
request in between may fail at any point and a step may build the index anew.

Whoever makes the requests sees what is returned. `Policy.Seen` keeps what matters of it: the call
site that the last step of an unfinished policy returned, if it returned one, and the reports that
were taken since. The books on the pending inline are exactly this, `Policy.Attests`.

The reason is that nothing is pending from the moment that a step starts to account, whether or not
this succeeds, to the moment that it chooses. All failures of a step lie between the two.

## Main definitions

* `Policy.Clear` — nothing is pending
* `Policy.Seen`, `Policy.watch`, `Policy.watchAll` — what is seen from outside
* `Policy.Attests` — the books agree with what was seen

## Main results

* `Run.Selects.clear` — nothing is pending when the policy selects
* `Policy.Attests.serve` — a request keeps books and observer in agreement
* `Policy.pending_inline_protocol` — the books on the pending inline, after any requests
-/

namespace Inlining

namespace Policy

/-- Nothing is pending, and nothing is left of the reports on what was. -/
structure Clear (p : Policy) : Prop where
  pending : p.pending = none
  copies : p.copies = []

end Policy

namespace Run

variable {σ : Type} {h : Host σ} {r s : Run σ}

/-! ### Nothing is pending while a step is under way -/

/-- Accounting for an inline clears the books on it, also where it fails. -/
theorem account_clear (tidy : r.policy.pending = none → r.policy.copies = []) :
    ((account h).after r).policy.Clear := by
  have outcome := account_outcome h r
  rw [Update.after]
  generalize account h r = result at outcome ⊢
  cases outcome with
  | nothing pending policy => exact policy ▸ ⟨pending, tidy pending⟩
  | redistributed _ _ policy =>
    have hplain := congrArg Policy.plain policy
    rw [Policy.plain_recordRedistribution] at hplain
    exact ⟨(congrArg Policy.pending hplain :), (congrArg Policy.copies hplain :)⟩
  | dropped _ _ policy => exact policy ▸ ⟨rfl, rfl⟩

theorem fallBack_clear (clear : r.policy.Clear) : ((fallBack h).after r).policy.Clear := by
  have outcome := fallBack_outcome h r
  rw [Update.after]
  generalize fallBack h r = result at outcome ⊢
  cases outcome with
  | unmeasured _ policy | unprofiled _ _ policy | unbuilt _ policy | renewed _ policy =>
    exact policy ▸ ⟨clear.pending, clear.copies⟩

/-- Nothing is pending when the policy selects. -/
theorem Selects.clear (selects : Selects h r s)
    (tidy : r.policy.pending = none → r.policy.copies = []) : s.policy.Clear := by
  have accounted_clear : ∀ s₀, account h r.tick = .ok () s₀ → s₀.policy.Clear := by
    intro s₀ accounted
    have clear := account_clear (h := h) (r := r.tick) tidy
    rwa [Update.after, accounted] at clear
  cases selects with
  | first _ accounted => exact accounted_clear s accounted
  | @again s₀ _ _ accounted _ _ optimized =>
    have clear₀ : (s₀.noted h).policy.Clear := accounted_clear s₀ accounted
    have clear := fallBack_clear (h := h) clear₀
    rwa [Update.after, optimized] at clear

/-- After a step no reports are left, and without a choice nothing is pending. -/
theorem step_clear (tidy : r.policy.pending = none → r.policy.copies = [])
    (running : r.policy.finished = false) :
    ((step h).after r).policy.copies = [] ∧
      (choice? h r = none → ((step h).after r).policy.pending = none) := by
  have of_clear : ∀ {p : Policy}, p.Clear →
      p.copies = [] ∧ (choice? h r = none → p.pending = none) :=
    fun clear => ⟨clear.copies, fun _ => clear.pending⟩
  have outcome := step_outcome h r
  rw [choice?] at of_clear ⊢
  rw [Update.after]
  generalize step h r = result at outcome of_clear ⊢
  cases outcome with
  | idle finished => exact absurd finished (by rw [running]; exact Bool.false_ne_true)
  | unaccounted _ accounted =>
    have clear := account_clear (h := h) (r := r.tick) tidy
    rw [Update.after, accounted] at clear
    exact of_clear clear
  | @stuck s _ _ selects _ optimized =>
    have clear := fallBack_clear (h := h) (r := s.noted h) (selects.clear tidy)
    rw [Update.after, optimized] at clear
    exact of_clear clear
  | done selects =>
    obtain ⟨hpending, hcopies⟩ := selects.clear tidy
    exact of_clear ⟨hpending, hcopies⟩
  | refused selects _ adopted =>
    obtain ⟨hpending, hcopies⟩ := selects.clear tidy
    obtain ⟨rfl | ⟨_, _, rfl⟩, -⟩ := Policy.adopt_eq_error adopted
    · exact of_clear ⟨hpending, hcopies⟩
    · exact of_clear ⟨hpending, hcopies⟩
  | chosen selects _ adopted =>
    obtain ⟨_, -, -, rfl⟩ := Policy.adopt_eq_ok adopted
    refine ⟨(selects.clear tidy).copies, fun hnone => ?_⟩
    cases hnone

end Run

namespace Policy

/-! ### Seen from outside -/

/-- What was seen of a policy since its last step. -/
structure Seen where
  /-- The call site that the last step of an unfinished policy returned. -/
  choice : Option Choice := none
  /-- The reports that were taken since this step. -/
  reports : List (List CopiedCall) := []
deriving DecidableEq

/-- What was seen after one more request. -/
def watch (p : Policy) (seen : Seen) : Request → Seen
  | .step h host => if p.finished then seen else { choice := p.choice? (.step h host) }
  | .report copies => match (report copies).outcome p with
    | .ok _ => { seen with reports := seen.reports ++ [copies] }
    | .error _ => seen

/-- What was seen after requests, one after the other. -/
def watchAll (p : Policy) (seen : Seen) : List Request → Seen
  | [] => seen
  | request :: rest => (p.serve request).watchAll (p.watch seen request) rest

/-- The books on the pending inline agree with what was seen. -/
structure Attests (p : Policy) (seen : Seen) : Prop where
  pending : p.pending.isSome ↔ seen.choice.isSome
  /-- The call site in the books is the one that was returned, in the index it was chosen from. -/
  chosen : ∀ id, p.pending = some id → ∃ r c, p.index.record? id = some r ∧ r.inlined = true ∧
    seen.choice = some c ∧ c.site = r.toCallSite ∧ c.generation = p.index.generation
  copies : p.copies = seen.reports.flatten
  tidy : p.pending = none → p.copies = []

variable {start p q : Policy} {seen : Seen}

/-- A choice is pending under its number and marked in the index. -/
theorem Served.pending_eq {c : Choice} (served : Served p (some c) q) : ∃ id r,
    q.pending = some id ∧ q.index.record? id = some r ∧ r.inlined = true ∧
      c.site = r.toCallSite ∧ c.generation = q.index.generation := by
  cases served with
  | @chosen s id call callee _ _ _ _ record =>
    refine ⟨id, { call with inlined := true }, rfl, ?_, rfl, rfl, rfl⟩
    rw [record?_take]
    change (s.index.record? id).map _ = _
    rw [record, Option.map_some, if_pos rfl]

theorem Attests.step {σ : Type} (attests : p.Attests seen) (hix : p.index.Consistent) (h : Host σ)
    (host : σ) : (p.serve (.step h host)).Attests (p.watch seen (.step h host)) := by
  rw [watch]
  cases hfinished : p.finished with
  | true =>
    -- A finished policy does nothing.
    have hidle : p.serve (.step h host) = p := by
      rw [serve, Update.after, Run.step_apply, hfinished]
      rfl
    rw [hidle]
    exact attests
  | false =>
    obtain ⟨hcopies, hnone⟩ := Run.step_clear (h := h) (r := ⟨p, host⟩) attests.tidy hfinished
    have hserved := served hix (.step h host)
    change Attests _ { choice := p.choice? (.step h host) }
    generalize hchoice : p.choice? (.step h host) = choice at hserved
    cases choice with
    | none =>
      have hpending : (p.serve (.step h host)).pending = none := hnone hchoice
      exact ⟨by simp [hpending], by simp [hpending], hcopies, fun _ => hcopies⟩
    | some c =>
      obtain ⟨id, r, hpending, hr, hmarked, hsite, hgeneration⟩ := hserved.pending_eq
      refine ⟨by simp [hpending], fun id' hid' => ?_, hcopies, fun _ => hcopies⟩
      rw [hpending, Option.some.injEq] at hid'
      exact ⟨r, c, hid' ▸ hr, hmarked, rfl, hsite, hgeneration⟩

theorem Attests.report (attests : p.Attests seen) (copies : List CopiedCall) :
    (p.serve (.report copies)).Attests (p.watch seen (.report copies)) := by
  rw [watch, serve, Update.after, Update.outcome, report_apply]
  by_cases hpending : p.pending.isNone
  · rw [if_pos hpending]
    exact attests
  · rw [if_neg hpending]
    refine ⟨attests.pending, attests.chosen, ?_, fun hnone => ?_⟩
    · rw [List.flatten_append, List.flatten_singleton, ← attests.copies]
    · exact absurd (Option.isNone_iff_eq_none.mpr hnone) hpending

/-- **A request keeps the books and the observer in agreement.** -/
theorem Attests.serve (attests : p.Attests seen) (hix : p.index.Consistent) (request : Request) :
    (p.serve request).Attests (p.watch seen request) := by
  cases request with
  | step h host => exact attests.step hix h host
  | report copies => exact attests.report copies

theorem Attests.serveAll (attests : p.Attests seen) (hix : p.index.Consistent)
    (requests : List Request) : (p.serveAll requests).Attests (p.watchAll seen requests) := by
  induction requests generalizing p seen with
  | nil => exact attests
  | cons request rest ih => exact ih (attests.serve hix request) (consistent_serve hix request)

/-! ### The protocol -/

/-- A report is turned down if nothing is pending and in no other case. -/
theorem report_eq_error_iff (copies : List CopiedCall) :
    (∃ e q, Policy.report copies p = .error e q) ↔ p.pending = none := by
  rw [report_apply]
  cases p.pending <;> simp

/-- **The protocol of the pending inline.** Let a policy be set up and asked for anything, in any
order and on any hosts, which may fail at any point.

* A call site is pending exactly if the last step that was made before the policy finished returned
  one. It is then in the present index, under the number in the books, and marked as inlined.
* The copies in the books are those of the reports taken since, in order, and there are none if
  nothing is pending.
* A report is turned down exactly if nothing is pending, and this changes nothing.
* Whatever the next step selects, it can choose. -/
theorem pending_inline_protocol {σ : Type} {h : Host σ} {limits : Limits} {oracle : Oracle}
    {host host' : σ} (prepared : prepare h limits oracle host = .ok start host')
    (requests : List Request) :
    (start.serveAll requests).Attests (start.watchAll {} requests) ∧
    (∀ copies,
      ((∃ e q, Policy.report copies (start.serveAll requests) = .error e q) ↔
        (start.serveAll requests).pending = none) ∧
      ((start.serveAll requests).pending = none →
        (Policy.report copies).after (start.serveAll requests) = start.serveAll requests)) ∧
    ∀ (τ : Type) (k : Host τ) (state : τ) (s : Run τ) (id : SiteId),
      Run.Selects k ⟨start.serveAll requests, state⟩ s → s.policy.selection.best = some id →
      ∃ call q, adopt id s.policy = .ok call q := by
  have hix : start.index.Consistent := Led.consistent prepared .start
  refine ⟨?_, fun copies => ⟨report_eq_error_iff copies, fun hnone => ?_⟩, ?_⟩
  · obtain ⟨_, _, _, -, rfl⟩ := exists_build_of_prepare prepared
    refine Attests.serveAll ⟨Iff.rfl, fun id hid => ?_, rfl, fun _ => rfl⟩ hix requests
    cases hid
  · rw [Update.after, report_apply, hnone]
    rfl
  · intro τ k state s id selects best
    have hp := (Led.serveAll .start requests).consistent prepared
    have hs := invariant_of_entries Entry.consistent selects.entries hp
    exact exists_adopt_eq_ok hs best

/-- A report that comes too early, two steps with a host that never inlines anything, and two
reports on the second choice. -/
def earlyRequests : List Request :=
  [.report [⟨⟨⟨0⟩, ⟨0⟩, 0⟩, ⟨⟨0⟩, ⟨1⟩, 0⟩⟩],
    .step (Workspace.host 4) { program := Program.echo },
    .step (Workspace.host 4) { program := Program.echo },
    .report [⟨⟨⟨0⟩, ⟨0⟩, 0⟩, ⟨⟨0⟩, ⟨2⟩, 0⟩⟩], .report [⟨⟨⟨0⟩, ⟨0⟩, 0⟩, ⟨⟨0⟩, ⟨3⟩, 0⟩⟩]]

/-- The second choice is made from the second index and is the one that is pending. -/
theorem pending_inline_protocol_echo : ∃ start w',
    prepare (Workspace.host 4) { Limits.sixfold with neverOptimize := false }
      (Program.echo.profile 4).oracle { program := Program.echo } = .ok start w' ∧
    (start.watchAll {} earlyRequests).choice =
      some ⟨⟨⟨⟨0⟩, ⟨0⟩, 0⟩, ⟨0⟩, ⟨0⟩⟩, 1, true⟩ ∧
    (start.serveAll earlyRequests).pending.isSome ∧
    (start.serveAll earlyRequests).copies =
      [⟨⟨⟨0⟩, ⟨0⟩, 0⟩, ⟨⟨0⟩, ⟨2⟩, 0⟩⟩, ⟨⟨⟨0⟩, ⟨0⟩, 0⟩, ⟨⟨0⟩, ⟨3⟩, 0⟩⟩] := by
  obtain ⟨start, w', prepared⟩ := exists_prepare_eq_ok (w := { program := Program.echo })
    Program.built_echo.wellFormed 4 4 { Limits.sixfold with neverOptimize := false }
  have hrun : ((prepare (Workspace.host 4) { Limits.sixfold with neverOptimize := false }
      (Program.echo.profile 4).oracle).outcome { program := Program.echo }).toOption.any
        fun start => start.watchAll {} earlyRequests =
          { choice := some ⟨⟨⟨⟨0⟩, ⟨0⟩, 0⟩, ⟨0⟩, ⟨0⟩⟩, 1, true⟩
            reports := [[⟨⟨⟨0⟩, ⟨0⟩, 0⟩, ⟨⟨0⟩, ⟨2⟩, 0⟩⟩], [⟨⟨⟨0⟩, ⟨0⟩, 0⟩, ⟨⟨0⟩, ⟨3⟩, 0⟩⟩]] } := by
    decide +kernel
  simp only [Update.outcome, prepared] at hrun
  have hseen := of_decide_eq_true hrun
  obtain ⟨attests, -⟩ := pending_inline_protocol prepared earlyRequests
  rw [hseen] at attests
  exact ⟨start, w', prepared, by rw [hseen], attests.pending.mpr rfl, attests.copies⟩

end Policy

end Inlining
