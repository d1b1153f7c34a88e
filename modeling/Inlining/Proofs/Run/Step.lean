import Inlining.Schedule

/-!
# What one step can come to

A step of a run passes through moments at which the policy selects: after the inline before it has
been accounted for, and once more after the optimizer ran if there was nothing to select. Everything
that is said about selections is said about these moments, `Run.Selects`. The outcomes of a step,
`Run.StepOutcome`, are told apart by what went before them; no later proof opens `Run.step` itself.

All this holds for any host.

## Main definitions

* `Policy.plain` — the policy without its diary
* `Run.Selects`, `Run.moments` — the moments at which the policy selects
* `Run.StepOutcome` — the outcomes of a step

## Main results

* `Run.step_outcome` — a step has one of these outcomes
-/

namespace Inlining

namespace Policy

/-- The policy without its diary: the number of steps and the history. -/
def plain (p : Policy) : Policy := { p with iteration := 0, history := {} }

/-- A new measurement of the program leaves the index alone. -/
@[simp] theorem index_remeasure (p : Policy) (size : Nat) : (p.remeasure size).index = p.index :=
  rfl

theorem plain_recordRedistribution (p : Policy) (r : Redistribution) :
    (p.recordRedistribution r).plain = p.plain := by
  rw [recordRedistribution]
  cases r.saturated <;> rfl

theorem account_apply (s : Snapshot) (p : Policy) : account s p = match p.pending with
    | none => .ok none p
    | some id => match SiteIndex.redistribute s id p.copies p.index with
      | .ok done index => .ok (some done)
          ({ p with pending := none, copies := [], index }.recordRedistribution done)
      | .error e index => .error e { p with pending := none, copies := [], index } := by
  cases hpending : p.pending with
  | none => simp [account, hpending]
  | some id =>
    cases hdone : SiteIndex.redistribute s id p.copies p.index <;>
      simp [account, onIndex, hpending, hdone]

theorem adopt_apply (id : SiteId) (p : Policy) : adopt id p = match p.index.record? id with
    | none => .error (.inconsistent (.selectedUnknown id)) p
    | some r => match p.index.function? r.callee with
      | none => .error (.missingFunction r.callee) p
      | some callee =>
        if r.caller ∉ p.index.functions then
          .error (.missingFunction r.caller) (p.charge r.callee callee)
        else .ok r ((p.charge r.callee callee).take id r callee.size) := by
  cases hrecord : p.index.record? id with
  | none => simp [adopt, hrecord]
  | some r => cases hcallee : p.index.function? r.callee <;> simp [adopt, hrecord, hcallee]

theorem report_apply (copies : List CopiedCall) (p : Policy) : report copies p =
    if p.pending.isNone then .error (.inconsistent (.nothingPending copies.length)) p
    else .ok () { p with copies := p.copies ++ copies } := by
  simp [report]

/-- A policy is set up from the size of the program and its index; the host is handed two notes. -/
theorem prepare_apply {σ : Type} (h : Host σ) (limits : Limits) (oracle : Oracle) (host : σ) :
    ∃ n, prepare h limits oracle host =
      match SiteIndex.build (h.snapshot (h.measure host).2) oracle with
      | .error e => .error e (h.measure host).2
      | .ok ix => .ok (start limits (h.measure host).1 ix)
          (h.note n (h.note ix.builtNote (h.measure host).2)) := by
  cases hbuild : SiteIndex.build (h.snapshot (h.measure host).2) oracle with
  | error e =>
    exact ⟨{ level := .info, text := "" }, by simp [prepare, Host.buildIndex, hbuild]⟩
  | ok ix => exact ⟨_, by simp [prepare, Host.buildIndex, hbuild]; rfl⟩

/-- A report adds to the copies at most, also where it is turned down. -/
theorem after_report (copies : List CopiedCall) (p : Policy) :
    ∃ all, (report copies).after p = { p with copies := all } := by
  rw [Update.after, report_apply]
  by_cases hpending : p.pending.isNone
  · rw [if_pos hpending]
    exact ⟨p.copies, rfl⟩
  · rw [if_neg hpending]
    exact ⟨p.copies ++ copies, rfl⟩

end Policy

namespace Run

variable {σ α : Type} {h : Host σ} {r : Run σ}

/-! ### Parts of a step -/

@[simp] theorem onPolicy_apply (step : Update Policy α) (r : Run σ) :
    onPolicy step r = match step r.policy with
      | .ok a policy => .ok a { r with policy }
      | .error e policy => .error e { r with policy } := by
  rw [onPolicy, Update.within_apply]
  cases step r.policy <;> rfl

@[simp] theorem onHost_apply (step : Update σ α) (r : Run σ) :
    onHost step r = match step r.host with
      | .ok a host => .ok a { r with host }
      | .error e host => .error e { r with host } := rfl

@[simp] theorem note_apply (h : Host σ) (level : Level) (text : String) (r : Run σ) :
    note h level text r = .ok () { r with host := h.note { level, text } r.host } := rfl

/-- The run with one more step counted. -/
def tick (r : Run σ) : Run σ :=
  { r with policy := { r.policy with iteration := r.policy.iteration + 1 } }

/-- The run after the host learnt which call sites were passed over. -/
def noted (h : Host σ) (r : Run σ) : Run σ :=
  { r with host := h.noteAll r.policy.selection.notes r.host }

/-- The host as the optimizer finds it: it has been told that nothing can be chosen. -/
def consulted (h : Host σ) (r : Run σ) : σ :=
  h.note { level := .info, text := r.policy.stuckText } r.host

/-- The fallback asks the host for four things in turn: to optimize the program, to measure it, to
take a profile and to show the program as it is then. -/
theorem fallBack_apply (h : Host σ) (r : Run σ) : fallBack h r =
    match h.simplify (r.consulted h) with
    | .error e host => .error e { r with host }
    | .ok _ host => match h.profile (h.measure host).2 with
      | .error e host' =>
        .error e { policy := r.policy.remeasure (h.measure host).1, host := host' }
      | .ok table host' => match SiteIndex.build (h.snapshot host') table.oracle with
        | .error e => .error e { policy := r.policy.remeasure (h.measure host).1, host := host' }
        | .ok ix =>
          let next := { ix with generation := r.policy.index.generation + 1 }
          .ok () {
            policy := (r.policy.remeasure (h.measure host).1).renew next
            host := h.note next.builtNote host' } := by
  rw [consulted]
  cases hsimplify : h.simplify (h.note { level := .info, text := r.policy.stuckText } r.host) with
  | error e host => simp [fallBack, hsimplify]
  | ok _ host =>
    cases hprofile : h.profile (h.measure host).2 with
    | error e host' => simp [fallBack, hsimplify, hprofile]
    | ok table host' =>
      cases hbuild : SiteIndex.build (h.snapshot host') table.oracle <;>
        simp [fallBack, Host.rebuildIndex, Update.exec, SiteIndex.rebuild, hsimplify, hprofile,
          hbuild]

/-- Selecting cannot fail. -/
@[simp] theorem pick_apply (h : Host σ) (r : Run σ) :
    pick h r = .ok r.policy.selection.best (r.noted h) := rfl

/-- Accounting is a matter of the policy; the host may be handed a note. -/
theorem account_apply (h : Host σ) (r : Run σ) :
    ∃ host, (host = r.host ∨ ∃ n, host = h.note n r.host) ∧ account h r =
      match Policy.account (h.snapshot r.host) r.policy with
      | .error e policy => .error e { r with policy }
      | .ok _ policy => .ok () { policy, host } := by
  cases haccount : Policy.account (h.snapshot r.host) r.policy with
  | error e policy => exact ⟨r.host, .inl rfl, by simp [account, haccount]⟩
  | ok done policy =>
    cases done with
    | none => exact ⟨r.host, .inl rfl, by simp [account, haccount]⟩
    | some done =>
      cases hsaturated : done.saturated with
      | false => exact ⟨r.host, .inl rfl, by simp [account, haccount, hsaturated]⟩
      | true => exact ⟨_, .inr ⟨_, rfl⟩, by simp [account, haccount, hsaturated]; rfl⟩

/-! ### The moments of selection -/

/-- In the step from `r`, the policy selects at the moment that the run is in the second state. -/
inductive Selects (h : Host σ) (r : Run σ) : Run σ → Prop
  | first {s : Run σ} (running : r.policy.finished = false)
      (accounted : account h r.tick = .ok () s) : Selects h r s
  | again {s t : Run σ} (running : r.policy.finished = false)
      (accounted : account h r.tick = .ok () s) (nothing : s.policy.selection.best = none)
      (allowed : s.policy.limits.neverOptimize = false)
      (optimized : fallBack h (s.noted h) = .ok () t) : Selects h r t

/-- The moments at which a step may select, computed. -/
def moments (h : Host σ) (r : Run σ) : List (Run σ) :=
  match account h r.tick with
  | .error _ _ => []
  | .ok _ s => s :: match fallBack h (s.noted h) with
    | .error _ _ => []
    | .ok _ t => [t]

/-- The outcomes of a step. -/
inductive StepOutcome (h : Host σ) (r : Run σ) :
    EStateM.Result Error (Run σ) (Option CallSite) → Prop
  | idle (finished : r.policy.finished = true) : StepOutcome h r (.ok none r)
  | unaccounted {e : Error} {s : Run σ} (running : r.policy.finished = false)
      (accounted : account h r.tick = .error e s) : StepOutcome h r (.error e s)
  | stuck {s t : Run σ} {e : Error} (selects : Selects h r s)
      (nothing : s.policy.selection.best = none)
      (optimized : fallBack h (s.noted h) = .error e t)
      (accounted : account h r.tick = .ok () s)
      (allowed : s.policy.limits.neverOptimize = false) : StepOutcome h r (.error e t)
  | done {s : Run σ} {n : Note} (selects : Selects h r s)
      (nothing : s.policy.selection.best = none) :
      StepOutcome h r (.ok none { policy := s.policy.finish, host := h.note n (s.noted h).host })
  | refused {s : Run σ} {id : SiteId} {e : Error} {policy : Policy} (selects : Selects h r s)
      (best : s.policy.selection.best = some id)
      (adopted : Policy.adopt id s.policy = .error e policy) :
      StepOutcome h r (.error e { s.noted h with policy })
  | chosen {s : Run σ} {id : SiteId} {call : SiteRecord} {policy : Policy} {n : Note}
      (selects : Selects h r s) (best : s.policy.selection.best = some id)
      (adopted : Policy.adopt id s.policy = .ok call policy) :
      StepOutcome h r
        (.ok (some call.toCallSite) { policy, host := h.note n (s.noted h).host })

theorem step_apply (h : Host σ) (r : Run σ) : step h r = if r.policy.finished then .ok none r
    else match account h r.tick with
      | .error e s => .error e s
      | .ok _ s => match pickOrFallBack h s with
        | .error e t => .error e t
        | .ok (some id) t => (some <$> adopt h id) t
        | .ok none t => (finish h >>= fun _ => pure none) t := by
  cases hfinished : r.policy.finished with
  | true => simp [step, hfinished]
  | false =>
    cases haccount : account h r.tick with
    | error e s => simp_all [step, tick]
    | ok _ s =>
      cases hpick : pickOrFallBack h s with
      | error e t => simp_all [step, tick]
      | ok id t => cases id <;> simp_all [step, tick]

theorem pickOrFallBack_apply (h : Host σ) (s : Run σ) : pickOrFallBack h s =
    match s.policy.selection.best with
    | some id => .ok (some id) (s.noted h)
    | none =>
      if s.policy.limits.neverOptimize then .ok none (s.noted h)
      else match fallBack h (s.noted h) with
        | .error e t => .error e t
        | .ok _ t => .ok t.policy.selection.best (t.noted h) := by
  cases hbest : s.policy.selection.best with
  | some id => simp [pickOrFallBack, hbest]
  | none =>
    have hlimits : (s.noted h).policy.limits = s.policy.limits := rfl
    cases hback : fallBack h (s.noted h) <;> simp [pickOrFallBack, hbest, hback, hlimits]

theorem finish_apply (h : Host σ) (s : Run σ) : ∃ n,
    (finish h >>= fun _ => (pure none : Update (Run σ) (Option CallSite))) s =
      .ok none { policy := s.policy.finish, host := h.note n s.host } :=
  ⟨_, rfl⟩

theorem adopt_apply (h : Host σ) (id : SiteId) (s : Run σ) : ∃ n, (some <$> adopt h id) s =
    match Policy.adopt id s.policy with
    | .error e policy => .error e { s with policy }
    | .ok call policy =>
      .ok (some call.toCallSite) { policy, host := h.note n s.host } := by
  cases hadopt : Policy.adopt id s.policy with
  | error e policy => exact ⟨{ level := .debug, text := "" }, by simp [adopt, hadopt]⟩
  | ok call policy => exact ⟨_, by simp [adopt, hadopt]; rfl⟩

/-- A step at which something is selected goes on to choose it. -/
theorem Selects.step_eq {s : Run σ} {id : SiteId} (selects : Selects h r s)
    (best : s.policy.selection.best = some id) :
    step h r = (some <$> adopt h id) (s.noted h) := by
  cases selects with
  | first running accounted =>
    simp only [step_apply, running, accounted, pickOrFallBack_apply, best, Bool.false_eq_true,
      if_false]
  | again running accounted nothing allowed optimized =>
    simp only [step_apply, running, accounted, pickOrFallBack_apply, nothing, allowed, optimized,
      best, Bool.false_eq_true, if_false]

/-- What follows a selection is decided by what was selected. -/
theorem StepOutcome.of_selects {s : Run σ} (selects : Selects h r s) :
    (∀ id, s.policy.selection.best = some id →
      StepOutcome h r ((some <$> adopt h id) (s.noted h))) ∧
    (s.policy.selection.best = none →
      StepOutcome h r ((finish h >>= fun _ => pure none) (s.noted h))) := by
  constructor
  · intro id hbest
    obtain ⟨n, heq⟩ := adopt_apply h id (s.noted h)
    rw [heq]
    change StepOutcome h r (match Policy.adopt id s.policy with
      | .error e policy => _
      | .ok call policy => _)
    cases hadopt : Policy.adopt id s.policy with
    | error e policy => exact .refused selects hbest hadopt
    | ok call policy => exact .chosen selects hbest hadopt
  · intro hbest
    obtain ⟨n, heq⟩ := finish_apply h (s.noted h)
    rw [heq]
    exact .done selects hbest

/-- **Every step has one of the outcomes.** -/
theorem step_outcome (h : Host σ) (r : Run σ) : StepOutcome h r (step h r) := by
  rw [step_apply]
  cases hfinished : r.policy.finished with
  | true => exact .idle hfinished
  | false =>
    simp only [Bool.false_eq_true, if_false]
    cases haccount : account h r.tick with
    | error e s => exact .unaccounted hfinished haccount
    | ok _ s =>
      have hfirst : Selects h r s := .first hfinished haccount
      simp only [pickOrFallBack_apply]
      cases hbest : s.policy.selection.best with
      | some id => exact (StepOutcome.of_selects hfirst).1 id hbest
      | none =>
        cases hnever : s.policy.limits.neverOptimize with
        | true => exact (StepOutcome.of_selects hfirst).2 hbest
        | false =>
          simp only [Bool.false_eq_true, if_false]
          cases hback : fallBack h (s.noted h) with
          | error e t => exact .stuck hfirst hbest hback haccount hnever
          | ok _ t =>
            have hagain : Selects h r t := .again hfinished haccount hbest hnever hback
            simp only
            cases hbest' : t.policy.selection.best with
            | some id => exact (StepOutcome.of_selects hagain).1 id hbest'
            | none => exact (StepOutcome.of_selects hagain).2 hbest'

/-- A step that ends a run has selected twice if the optimizer may run: before and after it. -/
theorem exists_fallBack_of_step {t : Run σ} (running : r.policy.finished = false)
    (allowed : ∀ s, account h r.tick = .ok () s → s.policy.limits.neverOptimize = false)
    (ended : step h r = .ok none t) : ∃ s₀ s n, account h r.tick = .ok () s₀ ∧
      fallBack h (s₀.noted h) = .ok () s ∧ s.policy.selection.best = none ∧
      t = { policy := s.policy.finish, host := h.note n (s.noted h).host } := by
  rw [step_apply, running] at ended
  simp only [Bool.false_eq_true, if_false, pickOrFallBack_apply] at ended
  -- Whatever is selected is returned or refused.
  have hchosen : ∀ id s, (some <$> adopt h id) s ≠ .ok none t := by
    intro id s hadopt
    obtain ⟨n, heq⟩ := adopt_apply h id s
    rw [heq] at hadopt
    cases hpolicy : Policy.adopt id s.policy <;> simp [hpolicy] at hadopt
  cases haccount : account h r.tick with
  | error e s => simp [haccount] at ended
  | ok _ s₀ =>
    simp only [haccount, allowed s₀ haccount, Bool.false_eq_true, if_false] at ended
    cases hbest : s₀.policy.selection.best with
    | some id =>
      simp only [hbest] at ended
      exact absurd ended (hchosen id _)
    | none =>
      cases hback : fallBack h (s₀.noted h) with
      | error e s => simp [hbest, hback] at ended
      | ok _ s =>
        simp only [hbest, hback] at ended
        cases hbest' : s.policy.selection.best with
        | some id =>
          simp only [hbest'] at ended
          exact absurd ended (hchosen id _)
        | none =>
          obtain ⟨n, heq⟩ := finish_apply h (s.noted h)
          simp only [hbest'] at ended
          rw [heq] at ended
          cases ended
          exact ⟨s₀, s, n, rfl, hback, hbest', rfl⟩

/-- A step that returns a call site has chosen it. -/
theorem exists_adopt_of_step {r' : Run σ} {site : CallSite}
    (returned : step h r = .ok (some site) r') :
    ∃ s id call, Selects h r s ∧ s.policy.selection.best = some id ∧
      Policy.adopt id s.policy = .ok call r'.policy ∧ site = call.toCallSite := by
  have outcome := step_outcome h r
  rw [returned] at outcome
  cases outcome with
  | chosen selects best adopted => exact ⟨_, _, _, selects, best, adopted, rfl⟩

end Run

end Inlining
