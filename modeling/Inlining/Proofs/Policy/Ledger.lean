import Inlining.Proofs.Policy.Requests

/-!
# The history as a ledger

The figures of a run are counted from its history and from nothing else. An event is recorded where
something is done, and a request may fail before it, after it, or between two events that belong
together: the inline of a call site is recorded by one step and its redistribution by the next, and
a fallback is recorded before the index is built that it was made for.

Whoever makes the requests can keep a ledger of what comes back, `Policy.Ledger`. The history agrees
with it at all times, `Policy.Balances`. Where two events belong together, the second is missing
exactly for the steps that failed on the way to it and for the inline that is still pending.

A schedule that completes has seen no failure and leaves nothing pending, so that all its figures
are the same.

## Main definitions

* `Run.optimize`, `Run.refresh` — the fallback up to the event that it records, and from there on
* `Run.failure?` — the part of a step that fails
* `Policy.Ledger`, `Policy.enter`, `Policy.enterAll` — what the holder of a policy counts
* `Policy.Balances` — the history agrees with the ledger
* `Update.Preserves`, `Host.Keeps` — what is true of a state stays true
* `Run.Meters` — a count of the inlines of an engine

## Main results

* `Policy.Balances.serve` — a request keeps the history in agreement
* `Run.preserves_step` — what the requests of a step keep holds of the host afterwards
* `Policy.history_is_ledger` — the figures of any requests, and of a schedule that completes
-/

namespace Inlining

namespace Run

variable {σ : Type} {h : Host σ} {r s t : Run σ}

/-! ### The two parts of the fallback -/

/-- The fallback up to the event that it records: the optimizer runs and the program is measured. -/
def optimize (h : Host σ) : Update (Run σ) Unit := do
  note h .info (← get).policy.stuckText
  onHost h.simplify
  let measured ← onHost (modifyGet h.measure)
  onPolicy (modify fun p => p.remeasure measured)

/-- The rest of the fallback: a profile is taken and the index is built anew. -/
def refresh (h : Host σ) : Update (Run σ) Unit := do
  let table ← onHost h.profile
  let index ← onHost (h.rebuildIndex table.oracle (← get).policy.index)
  onPolicy (modify fun p => p.renew index)

theorem fallBack_eq (h : Host σ) : fallBack h = optimize h >>= fun _ => refresh h := by
  simp only [fallBack, optimize, refresh, bind_assoc]

/-- The outcomes of the first part. -/
theorem optimize_cases (h : Host σ) (r : Run σ) :
    (∃ e s, optimize h r = .error e s ∧ s.policy = r.policy) ∨
    ∃ s measured, optimize h r = .ok () s ∧ s.policy = r.policy.remeasure measured := by
  cases hsimplify : h.simplify (h.note { level := .info, text := r.policy.stuckText } r.host) with
  | error e host => exact .inl ⟨e, { r with host }, by simp [optimize, hsimplify], rfl⟩
  | ok _ host =>
    exact .inr ⟨⟨r.policy.remeasure (h.measure host).1, (h.measure host).2⟩, _,
      by simp [optimize, hsimplify], rfl⟩

/-- The outcomes of the rest. -/
theorem refresh_cases (h : Host σ) (r : Run σ) :
    (∃ e s, refresh h r = .error e s ∧ s.policy = r.policy) ∨
    ∃ s ix, refresh h r = .ok () s ∧ s.policy = r.policy.renew ix ∧
      ix.generation = r.policy.index.generation + 1 := by
  cases hprofile : h.profile r.host with
  | error e host => exact .inl ⟨e, { r with host }, by simp [refresh, hprofile], rfl⟩
  | ok table host =>
    cases hbuild : SiteIndex.build (h.snapshot host) table.oracle with
    | error e =>
      refine .inl ⟨e, { r with host }, ?_, rfl⟩
      simp [refresh, Host.rebuildIndex, Update.exec, SiteIndex.rebuild, hprofile, hbuild]
    | ok ix =>
      let next := { ix with generation := r.policy.index.generation + 1 }
      refine .inr ⟨⟨r.policy.renew next, h.note next.builtNote host⟩, next, ?_, rfl, rfl⟩
      simp [refresh, Host.rebuildIndex, Update.exec, SiteIndex.rebuild, hprofile, hbuild, next]

/-! ### Where a step fails -/

/-- The parts of a step that may fail. -/
inductive Part where
  /-- Accounting for the inline before. -/
  | accounting
  /-- Running the optimizer. -/
  | optimizing
  /-- Taking a profile and building the index anew. -/
  | renewing
  /-- Choosing what was selected. -/
  | choosing
deriving DecidableEq

/-- The part of a step that fails, if one does. -/
def failure? (h : Host σ) (r : Run σ) : Option Part :=
  match step h r with
  | .ok _ _ => none
  | .error _ _ => match account h r.tick with
    | .error _ _ => some .accounting
    | .ok _ s =>
      if s.policy.selection.best.isSome then some .choosing
      else match optimize h (s.noted h) with
        | .error _ _ => some .optimizing
        | .ok _ t => match refresh h t with
          | .error _ _ => some .renewing
          | .ok _ _ => some .choosing

end Run

namespace Policy

/-- What the holder of a policy counts. -/
structure Ledger where
  /-- The steps asked for before the policy finished. -/
  steps : Nat := 0
  /-- The call sites returned. -/
  returned : Nat := 0
  /-- The steps that failed in accounting for the inline before. -/
  unaccounted : Nat := 0
  /-- The steps that failed in taking a profile or building the index anew. -/
  unrenewed : Nat := 0
deriving DecidableEq

/-- The ledger after one more request. -/
def enter (p : Policy) (l : Ledger) : Request → Ledger
  | .report _ => l
  | .step h host =>
    { steps := l.steps + if p.finished then 0 else 1
      returned := l.returned + if (Run.choice? h ⟨p, host⟩).isSome then 1 else 0
      unaccounted := l.unaccounted +
        if Run.failure? h ⟨p, host⟩ = some .accounting then 1 else 0
      unrenewed := l.unrenewed + if Run.failure? h ⟨p, host⟩ = some .renewing then 1 else 0 }

/-- The ledger after requests, one after the other. -/
def enterAll (p : Policy) (l : Ledger) : List Request → Ledger
  | [] => l
  | request :: rest => (p.serve request).enterAll (p.enter l request) rest

/-- The history agrees with the ledger. -/
structure Balances (p : Policy) (l : Ledger) : Prop where
  inlined : p.history.count .callSiteInlined = l.returned
  /-- What was inlined has been redistributed, could not be, or is still pending. -/
  redistributed : p.history.count .callSiteInlined = p.history.count .frequencyRedistributed +
    l.unaccounted + if p.pending.isSome then 1 else 0
  rebuilt : p.history.count .indexRebuilt = p.index.generation
  /-- After each fallback the index was built anew or could not be. -/
  fallbacks : p.history.count .optimizerFallback = p.index.generation + l.unrenewed
  exhausted : p.history.count .selectionExhausted = if p.finished then 1 else 0
  iterations : p.iteration = l.steps
  closed : p.finished = true → p.pending = none

variable {p : Policy} {l : Ledger}

/-! ### What single entries do to the balance -/

theorem Balances.start (limits : Limits) (size : Nat) {ix : SiteIndex}
    (generation : ix.generation = 0) : (Policy.start limits size ix).Balances {} where
  inlined := rfl
  redistributed := rfl
  rebuilt := generation.symm
  fallbacks := generation.symm
  exhausted := rfl
  iterations := rfl
  closed _ := rfl

theorem Balances.tick (balances : p.Balances l) :
    { p with iteration := p.iteration + 1 }.Balances { l with steps := l.steps + 1 } :=
  { balances with iterations := congrArg (· + 1) balances.iterations }

/-- A redistribution takes the place of the inline that was pending. -/
theorem Balances.redistribute (balances : p.Balances l) {id : SiteId}
    (pending : p.pending = some id) {ix : SiteIndex}
    (generation : ix.generation = p.index.generation) (done : Redistribution) :
    ({ p with pending := none, copies := [], index := ix }.recordRedistribution done).Balances
      l := by
  obtain ⟨inlined, redistributed, rebuilt, fallbacks, exhausted, iterations, closed⟩ := balances
  rw [recordRedistribution]
  cases done.saturated <;> constructor <;> simp_all [record, History.count_record] <;> omega

/-- An inline that cannot be accounted for is pending no more. -/
theorem Balances.drop (balances : p.Balances l) {id : SiteId} (pending : p.pending = some id) :
    { p with pending := none, copies := [] }.Balances
      { l with unaccounted := l.unaccounted + 1 } := by
  obtain ⟨inlined, redistributed, rebuilt, fallbacks, exhausted, iterations, closed⟩ := balances
  constructor <;> simp_all
  omega

/-- A fallback is one more step that failed, until the index has been built anew. -/
theorem Balances.remeasure (balances : p.Balances l) (measured : Nat) :
    (p.remeasure measured).Balances { l with unrenewed := l.unrenewed + 1 } := by
  obtain ⟨inlined, redistributed, rebuilt, fallbacks, exhausted, iterations, closed⟩ := balances
  constructor <;> simp_all [Policy.remeasure, record, History.count_record]
  omega

theorem Balances.renew (balances : p.Balances { l with unrenewed := l.unrenewed + 1 })
    {ix : SiteIndex} (generation : ix.generation = p.index.generation + 1) :
    (p.renew ix).Balances l := by
  obtain ⟨inlined, redistributed, rebuilt, fallbacks, exhausted, iterations, closed⟩ := balances
  constructor <;> simp_all [Policy.renew, record, History.count_record]
  omega

theorem Balances.take (balances : p.Balances l) (running : p.finished = false)
    (clear : p.pending = none) (id : SiteId) (call : SiteRecord) (callee : FunctionRecord) :
    ((p.charge call.callee callee).take id call callee.size).Balances
      { l with returned := l.returned + 1 } := by
  obtain ⟨inlined, redistributed, rebuilt, fallbacks, exhausted, iterations, closed⟩ := balances
  constructor <;> simp_all [Policy.take, charge, record, History.count_record, SiteIndex.mark,
    SiteIndex.modifyRecord, SiteIndex.modifyFunction]

theorem Balances.finish (balances : p.Balances l) (running : p.finished = false)
    (clear : p.pending = none) : p.finish.Balances l := by
  obtain ⟨inlined, redistributed, rebuilt, fallbacks, exhausted, iterations, closed⟩ := balances
  constructor <;> simp_all [Policy.finish, record, History.count_record]

end Policy

namespace Run

variable {σ : Type} {h : Host σ} {r s t : Run σ} {e : Error} {l : Policy.Ledger}

/-! ### What the parts of a step do to the balance -/

theorem balances_of_accounted (balances : r.policy.Balances l) (hix : r.policy.index.Consistent)
    (accounted : account h r = .ok () s) : s.policy.Balances l ∧ s.policy.pending = none := by
  have outcome := account_outcome h r
  rw [accounted] at outcome
  cases outcome with
  | nothing pending policy => exact policy ▸ ⟨balances, pending⟩
  | redistributed pending redistributed policy =>
    obtain ⟨_, _, -, -, -, -, hredistributes⟩ := hix.redistribute_eq_ok redistributed
    have hplain := congrArg Policy.plain policy
    rw [Policy.plain_recordRedistribution] at hplain
    exact ⟨policy ▸ balances.redistribute pending hredistributes.generation _,
      (congrArg Policy.pending hplain :)⟩

theorem balances_of_unaccounted (balances : r.policy.Balances l)
    (accounted : account h r = .error e s) :
    s.policy.Balances { l with unaccounted := l.unaccounted + 1 } := by
  have outcome := account_outcome h r
  rw [accounted] at outcome
  cases outcome with
  | dropped pending redistributed policy =>
    rw [policy, SiteIndex.redistribute_eq_error redistributed]
    exact balances.drop pending

/-- At the moment of a selection the books are balanced and nothing is pending. -/
theorem Selects.balances (selects : Selects h r s) (balances : r.policy.Balances l)
    (hix : r.policy.index.Consistent) :
    s.policy.Balances { l with steps := l.steps + 1 } ∧ s.policy.pending = none := by
  have haccounted : ∀ {s₀}, account h r.tick = .ok () s₀ →
      s₀.policy.Balances { l with steps := l.steps + 1 } ∧ s₀.policy.pending = none :=
    fun accounted => balances_of_accounted (r := r.tick) balances.tick hix accounted
  cases selects with
  | first _ accounted => exact haccounted accounted
  | @again s₀ _ _ accounted _ _ optimized =>
    obtain ⟨hbalances, hclear⟩ := haccounted accounted
    have outcome := fallBack_outcome h (s₀.noted h)
    rw [optimized] at outcome
    cases outcome with
    | @renewed _ measured _ _ _ _ policy =>
      rw [policy]
      exact ⟨(hbalances.remeasure measured).renew rfl, hclear⟩

/-- A fallback that fails does so in one of its two parts. -/
theorem failure?_of_stuck (failed : step h r = .error e t)
    (accounted : account h r.tick = .ok () s) (nothing : s.policy.selection.best = none)
    (optimized : fallBack h (s.noted h) = .error e t) :
    (failure? h r = some .optimizing ∧ t.policy = s.policy) ∨
      failure? h r = some .renewing ∧ ∃ measured, t.policy = s.policy.remeasure measured := by
  rw [failure?, failed, accounted]
  simp only [nothing, Option.isSome_none, Bool.false_eq_true, if_false]
  rw [fallBack_eq, Update.bind_apply] at optimized
  rcases optimize_cases h (s.noted h) with ⟨e', t', hoptimize, hpolicy⟩ | ⟨u, n, hoptimize, hpolicy⟩
  · rw [hoptimize] at optimized ⊢
    cases optimized
    exact .inl ⟨rfl, hpolicy⟩
  · rw [hoptimize] at optimized ⊢
    rcases refresh_cases h u with ⟨e', t', hrefresh, hpolicy'⟩ | ⟨t', ix, hrefresh, -⟩
    · simp only [hrefresh] at optimized ⊢
      cases optimized
      exact .inr ⟨trivial, n, hpolicy'.trans hpolicy⟩
    · simp only [hrefresh] at optimized
      cases optimized

end Run

namespace Policy

variable {p : Policy} {l : Ledger}

theorem Balances.step {σ : Type} (balances : p.Balances l) (hix : p.index.Consistent)
    (h : Host σ) (host : σ) :
    (p.serve (.step h host)).Balances (p.enter l (.step h host)) := by
  have outcome := Run.step_outcome h ⟨p, host⟩
  rw [serve, enter, Update.after]
  generalize hstep : Run.step h ⟨p, host⟩ = result at outcome ⊢
  cases hfinished : p.finished with
  | true =>
    -- A finished policy does nothing.
    have hidle : result = .ok none ⟨p, host⟩ := by
      rw [← hstep, Run.step_apply]
      simp [hfinished]
    simpa [Run.choice?, Run.failure?, hstep, hidle] using balances
  | false =>
    cases outcome with
    | idle finished => exact absurd finished (by simp [hfinished])
    | unaccounted _ accounted =>
      have hbalances := Run.balances_of_unaccounted balances.tick accounted
      simpa [Run.choice?, Run.failure?, hstep, accounted] using hbalances
    | stuck selects nothing optimized accounted =>
      obtain ⟨hbalances, -⟩ := selects.balances balances hix
      rcases Run.failure?_of_stuck hstep accounted nothing optimized with
        ⟨hfailure, hpolicy⟩ | ⟨hfailure, measured, hpolicy⟩
      · simpa [Run.choice?, hfailure, hstep, hpolicy] using hbalances
      · simpa [Run.choice?, hfailure, hstep, hpolicy] using hbalances.remeasure measured
    | done selects =>
      obtain ⟨hbalances, hclear⟩ := selects.balances balances hix
      have hfinish := hbalances.finish selects.standing.2.2 hclear
      simpa [Run.choice?, Run.failure?, hstep] using hfinish
    | refused selects best adopted =>
      -- What is selected can be chosen.
      have hs := invariant_of_entries Entry.consistent selects.entries hix
      obtain ⟨call, q, hadopted⟩ := exists_adopt_eq_ok hs best
      cases hadopted.symm.trans adopted
    | @chosen s id call _ _ selects best adopted =>
      obtain ⟨hbalances, hclear⟩ := selects.balances balances hix
      obtain ⟨callee, -, -, rfl⟩ := adopt_eq_ok adopted
      have htake := hbalances.take selects.standing.2.2 hclear id call callee
      simpa [Run.choice?, Run.failure?, hstep] using htake

theorem Balances.report (balances : p.Balances l) (copies : List CopiedCall) :
    (p.serve (.report copies)).Balances l := by
  obtain ⟨all, hafter⟩ := after_report copies p
  rw [serve, hafter]
  exact { balances with }

/-- **A request keeps the history in agreement with the ledger**, also where it fails. -/
theorem Balances.serve (balances : p.Balances l) (hix : p.index.Consistent) (request : Request) :
    (p.serve request).Balances (p.enter l request) := by
  cases request with
  | step h host => exact balances.step hix h host
  | report copies => exact balances.report copies

theorem Balances.serveAll (balances : p.Balances l) (hix : p.index.Consistent)
    (requests : List Request) : (p.serveAll requests).Balances (p.enterAll l requests) := by
  induction requests generalizing p l with
  | nil => exact balances
  | cons request rest ih => exact ih (balances.serve hix request) (consistent_serve hix request)

end Policy

/-! ### What a step leaves alone -/

namespace Update

variable {σ α β : Type} {P : σ → Prop}

/-- The step keeps what is true of the state, also where it fails. -/
def Preserves (P : σ → Prop) (x : Update σ α) : Prop := ∀ s, P s → P (x.after s)

theorem Preserves.bind {x : Update σ α} {f : α → Update σ β} (hx : Preserves P x)
    (hf : ∀ a, Preserves P (f a)) : Preserves P (x >>= f) := by
  intro s hs
  have hafter := hx s hs
  rw [after] at hafter ⊢
  rw [bind_apply]
  cases hxs : x s with
  | error e t =>
    rw [hxs] at hafter
    exact hafter
  | ok a t =>
    rw [hxs] at hafter
    exact hf a t hafter

theorem Preserves.map {x : Update σ α} (hx : Preserves P x) (f : α → β) :
    Preserves P (f <$> x) := by
  intro s hs
  have hafter := hx s hs
  rw [after] at hafter ⊢
  rw [map_apply]
  cases hxs : x s <;> simpa only [hxs] using hafter

theorem preserves_pure (a : α) : Preserves P (pure a : Update σ α) := fun _ hs => hs

theorem preserves_get : Preserves P (get : Update σ σ) := fun _ hs => hs

theorem preserves_ofExcept (x : Except Error α) : Preserves P (ofExcept x : Update σ α) := by
  cases x <;> exact fun _ hs => hs

theorem preserves_modify {f : σ → σ} (hf : ∀ s, P s → P (f s)) :
    Preserves P (modify f : Update σ PUnit) := hf

theorem preserves_modifyGet {f : σ → α × σ} (hf : ∀ s, P s → P (f s).2) :
    Preserves P (modifyGet f : Update σ α) := hf

end Update

/-- What is true of a host stays true, whatever a run asks of it. -/
structure Host.Keeps {σ : Type} (h : Host σ) (P : σ → Prop) : Prop where
  measure : ∀ w, P w → P (h.measure w).2
  profile : h.profile.Preserves P
  simplify : h.simplify.Preserves P
  note : ∀ n w, P w → P (h.note n w)

namespace Run

open Update

variable {σ α : Type} {h : Host σ} {P : σ → Prop}

theorem preserves_onHost {x : Update σ α} (hx : x.Preserves P) :
    (onHost x).Preserves fun r => P r.host := by
  intro r hr
  have hafter := hx r.host hr
  rw [Update.after] at hafter ⊢
  rw [onHost_apply]
  cases hxr : x r.host <;> simpa only [hxr] using hafter

theorem preserves_onPolicy (x : Update Policy α) :
    (onPolicy x).Preserves fun r : Run σ => P r.host := by
  intro r hr
  rw [Update.after, onPolicy_apply]
  cases x r.policy <;> exact hr

section Keeps

variable (keeps : h.Keeps P)
include keeps

theorem preserves_note (level : Level) (text : String) :
    (note h level text).Preserves fun r => P r.host :=
  preserves_onHost (preserves_modify (keeps.note _))

theorem preserves_account : (account h).Preserves fun r => P r.host := by
  refine preserves_get.bind fun r => (preserves_onPolicy _).bind fun done => ?_
  cases done with
  | none => exact preserves_pure _
  | some done =>
    dsimp only
    split
    · exact preserves_note keeps _ _
    · exact preserves_pure _

theorem preserves_pick : (pick h).Preserves fun r => P r.host := by
  have hnotes : ∀ notes w, P w → P (h.noteAll notes w) := by
    intro notes
    induction notes with
    | nil => exact fun _ hw => hw
    | cons n rest ih => exact fun w hw => ih _ (keeps.note n w hw)
  exact preserves_get.bind fun r =>
    preserves_onHost (preserves_modifyGet fun w hw => hnotes _ w hw)

theorem preserves_fallBack : (fallBack h).Preserves fun r => P r.host := by
  have hrebuild : ∀ oracle ix, (h.rebuildIndex oracle ix).Preserves P := fun oracle ix =>
    preserves_get.bind fun _ => (preserves_ofExcept _).bind fun _ =>
      (preserves_modify (keeps.note _)).bind fun _ => preserves_pure _
  refine preserves_get.bind fun _ => (preserves_note keeps _ _).bind fun _ =>
    (preserves_onHost keeps.simplify).bind fun _ =>
    (preserves_onHost (preserves_modifyGet keeps.measure)).bind fun _ =>
    (preserves_onPolicy _).bind fun _ => (preserves_onHost keeps.profile).bind fun _ =>
    preserves_get.bind fun _ => (preserves_onHost (hrebuild _ _)).bind fun _ =>
    preserves_onPolicy _

/-- **What holds of the host holds after a step**, also where it fails. -/
theorem preserves_step : (step h).Preserves fun r => P r.host := by
  have hpick : (pickOrFallBack h).Preserves fun r => P r.host := by
    refine (preserves_pick keeps).bind fun best => ?_
    cases best with
    | some id => exact preserves_pure _
    | none =>
      refine preserves_get.bind fun r => ?_
      split
      · exact preserves_pure _
      · exact (preserves_fallBack keeps).bind fun _ => preserves_pick keeps
  refine preserves_get.bind fun r => ?_
  split
  · exact preserves_pure _
  · refine (preserves_onPolicy _).bind fun _ => (preserves_account keeps).bind fun _ =>
      hpick.bind fun best => ?_
    cases best with
    | some id =>
      refine Preserves.map ((preserves_onPolicy _).bind fun _ => preserves_get.bind fun _ =>
        (preserves_note keeps _ _).bind fun _ => preserves_pure _) _
    | none =>
      refine Preserves.bind ((preserves_onPolicy _).bind fun _ => preserves_get.bind fun _ =>
        preserves_note keeps _ _) fun _ => preserves_pure _

end Keeps

/-! ### Schedules -/

/-- The engine adds one to a count with every inline, and nothing else touches it. -/
structure Meters (h : Host σ) (engine : Engine σ) (count : σ → Nat) : Prop where
  inline : ∀ site w copies w', engine site w = .ok copies w' → count w' = count w + 1
  keeps : ∀ n, h.Keeps fun w => count w = n

/-- Books, engine and outcome of a schedule say the same, where the engine had inlined `before` call
sites when the schedule began. -/
structure Concurs (count : σ → Nat) (before : Nat) (r : Run σ) (o : Outcome) : Prop where
  consistent : r.policy.index.Consistent
  balances : ∃ l, r.policy.Balances l ∧ l.returned = o.inlined ∧ l.unaccounted = 0
  counted : count r.host = before + o.inlined

variable {engine : Engine σ} {count : σ → Nat} {before : Nat} {r r' t : Run σ} {o o' : Outcome}

/-- A step that succeeds is entered without a failure. -/
theorem enter_of_step_eq_ok {site : Option CallSite} (hstep : step h r = .ok site t)
    (l : Policy.Ledger) : r.policy.enter l (.step h r.host) =
      { l with
        steps := l.steps + if r.policy.finished then 0 else 1
        returned := l.returned + if site.isSome then 1 else 0 } := by
  have hfailure : failure? h ⟨r.policy, r.host⟩ = none := by
    change failure? h r = none
    rw [failure?, hstep]
  have hchoice : (choice? h ⟨r.policy, r.host⟩).isSome = site.isSome := by
    change (choice? h r).isSome = site.isSome
    rw [choice?, hstep]
    cases site <;> rfl
  simp [Policy.enter, hfailure, hchoice]

/-- A step that ends leaves nothing pending. -/
theorem pending_of_step_eq_none {l : Policy.Ledger} (balances : r.policy.Balances l)
    (hix : r.policy.index.Consistent) (hstep : step h r = .ok none t) :
    t.policy.pending = none := by
  have outcome := step_outcome h r
  rw [hstep] at outcome
  cases outcome with
  | idle finished => exact balances.closed finished
  | done selects => exact (selects.balances balances hix).2

/-- A step that succeeds adds what it returns to the books and nothing to the count. -/
theorem Concurs.step (concurs : Concurs count before r o) (keeps : h.Keeps (count · = count r.host))
    {site : Option CallSite} (hstep : Run.step h r = .ok site t) :
    t.policy.index.Consistent ∧ count t.host = before + o.inlined ∧
      ∃ l, t.policy.Balances l ∧ l.unaccounted = 0 ∧
        l.returned = o.inlined + if site.isSome then 1 else 0 := by
  obtain ⟨l, hbalances, hreturned, hunaccounted⟩ := concurs.balances
  have hserve : r.policy.serve (.step h r.host) = t.policy := by
    change ((Run.step h).after r).policy = t.policy
    rw [Update.after, hstep]
  have hkept := preserves_step keeps r rfl
  rw [Update.after, hstep] at hkept
  have hserved := hbalances.step concurs.consistent h r.host
  rw [enter_of_step_eq_ok hstep, hserve] at hserved
  refine ⟨?_, hkept.trans concurs.counted, _, hserved, hunaccounted, by rw [hreturned]⟩
  rw [← hserve]
  exact Policy.consistent_serve concurs.consistent _

theorem Concurs.turn (concurs : Concurs count before r o) (meters : Meters h engine count)
    (inlined : r.turn h engine = .ok true r') :
    Concurs count before r'
      { o with iterations := o.iterations + 1, inlined := o.inlined + 1 } := by
  obtain ⟨site, s, copies, hstep, hengine, hreport⟩ := exists_report_of_turn inlined
  obtain ⟨hconsistent, hcounted, l, hbalances, hunaccounted, hreturned⟩ :=
    concurs.step (meters.keeps _) hstep
  have hreported : r'.policy = s.policy.serve (.report copies) := by
    rw [Policy.serve, Update.after, hreport]
  constructor
  case consistent =>
    rw [hreported]
    exact Policy.consistent_serve hconsistent _
  case balances =>
    rw [hreported]
    exact ⟨l, hbalances.report copies, hreturned, hunaccounted⟩
  case counted => rw [meters.inline site s.host copies r'.host hengine, hcounted, Nat.add_assoc]

theorem Concurs.last (concurs : Concurs count before r o) (meters : Meters h engine count)
    (last : r.turn h engine = .ok false t) :
    Concurs count before t { o with iterations := o.iterations + 1, completed := true } ∧
      t.policy.pending = none := by
  have hstep := step_of_last_turn last
  obtain ⟨l, hbalances, -⟩ := concurs.balances
  obtain ⟨hconsistent, hcounted, l', hbalances', hunaccounted, hreturned⟩ :=
    concurs.step (meters.keeps _) hstep
  exact ⟨⟨hconsistent, ⟨l', hbalances', hreturned, hunaccounted⟩, hcounted⟩,
    pending_of_step_eq_none hbalances concurs.consistent hstep⟩

/-- **Books, engine and outcome say the same after any number of turns**, and nothing is pending at
the end. -/
theorem Concurs.turns (concurs : Concurs count before r o) (meters : Meters h engine count)
    {n : Nat} (taken : Run.turns h engine n o r = .ok o' t) (begun : o.completed = false) :
    Concurs count before t o' ∧ (o'.completed = true → t.policy.pending = none) := by
  induction n generalizing r o with
  | zero =>
    cases taken
    exact ⟨concurs, fun completed => by simp [begun] at completed⟩
  | succ n ih =>
    rw [turns_succ] at taken
    cases hturn : Run.turn h engine r with
    | error e s => simp [hturn] at taken
    | ok goesOn s =>
      simp only [hturn] at taken
      cases goesOn with
      | true => exact ih (concurs.turn meters hturn) taken begun
      | false =>
        cases taken
        obtain ⟨hconcurs, hclear⟩ := concurs.last meters hturn
        exact ⟨hconcurs, fun _ => hclear⟩

theorem Concurs.drive (concurs : Concurs count before r {}) (meters : Meters h engine count)
    {cap : Nat} (driven : Run.drive h engine cap r = .ok o t) (completed : o.completed = true) :
    Concurs count before t o ∧ t.policy.pending = none := by
  obtain ⟨n, heq⟩ := drive_apply h engine cap r
  rw [heq] at driven
  cases hturns : Run.turns h engine cap {} r with
  | error e s => simp [hturns] at driven
  | ok o₀ s =>
    simp only [hturns] at driven
    cases driven
    obtain ⟨hconcurs, hclear⟩ := concurs.turns meters hturns rfl
    rw [if_pos completed]
    exact ⟨hconcurs, hclear completed⟩

end Run

/-- The workspace counts what it inlines. -/
theorem Workspace.meters (rounds : Nat) :
    Run.Meters (Workspace.host rounds) Workspace.inline Workspace.inlined where
  inline := by
    intro site w copies w' hinline
    rw [Workspace.inline_apply] at hinline
    cases hbody : w.program.calleeAt site with
    | error e => simp [hbody] at hinline
    | ok body =>
      simp only [hbody] at hinline
      cases hinline
      rfl
  keeps n :=
    { measure := fun _ hw => hw
      profile := fun _ hw => hw
      simplify := fun _ hw => hw
      note := fun _ _ hw => hw }

namespace Policy

/-- **The history is a ledger of the run.** Let a policy be set up and asked for anything, in any
order and on any hosts, which may fail at any point. The events in its history then agree with what
was seen of it from outside:

* as many call sites were recorded as inlined as were returned; this is the number of
  redistributions, of steps that failed in accounting, and of pending inlines together;
* the index was recorded as built anew as often as its generation says; this is the number of
  fallbacks, less the steps that failed in taking a profile or building the index;
* the end was recorded once if the policy has finished and never before;
* the iterations are the steps that were asked for before it had.

If a schedule with any engine is driven to its end from the start, then outcome and books have the
same number of inlines and redistributions, and the count of the engine was raised by it. -/
theorem history_is_ledger {σ : Type} {h : Host σ} {limits : Limits} {oracle : Oracle}
    {host host' : σ} {start : Policy} (prepared : prepare h limits oracle host = .ok start host') :
    (∀ requests, (start.serveAll requests).Balances (start.enterAll {} requests)) ∧
    ∀ (τ : Type) (k : Host τ) (engine : Engine τ) (count : τ → Nat) (w : τ) (cap : Nat)
      (o : Outcome) (t : Run τ), Run.Meters k engine count →
      Run.drive k engine cap ⟨start, w⟩ = .ok o t → o.completed = true →
      t.policy.history.tally.inlined = o.inlined ∧
      t.policy.history.tally.redistributions = o.inlined ∧
      count t.host = count w + o.inlined := by
  have hix : start.index.Consistent := Led.consistent prepared .start
  have hstart : start.Balances {} := by
    obtain ⟨size, _, ix, built, rfl⟩ := exists_build_of_prepare prepared
    exact Balances.start limits size (SiteIndex.first_of_build built).generation
  refine ⟨fun requests => hstart.serveAll hix requests, ?_⟩
  intro τ k engine count w cap o t meters driven completed
  have hconcurs : Run.Concurs count (count w) ⟨start, w⟩ {} := ⟨hix, ⟨{}, hstart, rfl, rfl⟩, rfl⟩
  obtain ⟨⟨-, ⟨l, hbalances, hreturned, hunaccounted⟩, hcounted⟩, hclear⟩ :=
    hconcurs.drive meters driven completed
  have hinlined := hbalances.inlined
  have hredistributed := hbalances.redistributed
  rw [hclear, hunaccounted] at hredistributed
  refine ⟨hinlined.trans hreturned, ?_, hcounted⟩
  exact hredistributed.symm.trans (hinlined.trans hreturned)

/-- Five steps with a host that never inlines anything, one whose profile cannot be taken, and one
more. -/
def haltingRequests : List Request :=
  let workspace : Workspace := { program := Program.wheel 3 }
  List.replicate 5 (.step (Workspace.host 4) workspace) ++
    [.step { Workspace.host 4 with profile := throw (.host (.reported "no profile")) } workspace,
      .step (Workspace.host 4) workspace]

/-- Copies of calls are missing twice and a profile once. Driven by the engine, the same policy
inlines five calls. -/
theorem history_is_ledger_wheel : ∃ start w' o t,
    prepare (Workspace.host 4) { Limits.sixfold with neverOptimize := false }
      ((Program.wheel 3).profile 4).oracle { program := Program.wheel 3 } = .ok start w' ∧
    start.enterAll {} haltingRequests =
      { steps := 7, returned := 4, unaccounted := 2, unrenewed := 1 } ∧
    (start.serveAll haltingRequests).history.count .callSiteInlined = 4 ∧
    (start.serveAll haltingRequests).history.count .optimizerFallback =
      (start.serveAll haltingRequests).index.generation + 1 ∧
    (start.serveAll haltingRequests).iteration = 7 ∧
    Run.drive (Workspace.host 4) Workspace.inline 9 ⟨start, { program := Program.wheel 3 }⟩ =
      .ok o t ∧
    o.completed = true ∧ t.policy.history.tally.inlined = 5 ∧
    t.policy.history.tally.redistributions = 5 ∧ t.host.inlined = 5 := by
  obtain ⟨start, w', prepared⟩ := exists_prepare_eq_ok (w := { program := Program.wheel 3 })
    (Program.built_wheel 3).wellFormed 4 4 { Limits.sixfold with neverOptimize := false }
  have hrun : ((prepare (Workspace.host 4) { Limits.sixfold with neverOptimize := false }
      ((Program.wheel 3).profile 4).oracle).outcome { program := Program.wheel 3 }).toOption.any
        fun start => start.enterAll {} haltingRequests =
            { steps := 7, returned := 4, unaccounted := 2, unrenewed := 1 } ∧
          ((Run.drive (Workspace.host 4) Workspace.inline 9).outcome
            ⟨start, { program := Program.wheel 3 }⟩).toOption =
              some { iterations := 6, inlined := 5, completed := true } := by
    decide +kernel
  simp only [Update.outcome, prepared] at hrun
  obtain ⟨hledger, hdriven⟩ := of_decide_eq_true hrun
  obtain ⟨hbalances, hschedule⟩ := history_is_ledger prepared
  have hhalting := hbalances haltingRequests
  rw [hledger] at hhalting
  cases hdrive : Run.drive (Workspace.host 4) Workspace.inline 9
      ⟨start, { program := Program.wheel 3 }⟩ with
  | error e t =>
    simp only [hdrive] at hdriven
    cases hdriven
  | ok o t =>
    simp only [hdrive] at hdriven
    cases hdriven
    obtain ⟨hinlined, hredistributed, hcounted⟩ := hschedule _ _ _ Workspace.inlined _ 9 _ t
      (Workspace.meters 4) hdrive rfl
    exact ⟨start, w', _, t, prepared, hledger, hhalting.inlined, hhalting.fallbacks,
      hhalting.iterations, hdrive, rfl, hinlined, hredistributed, hcounted⟩

end Policy

end Inlining
