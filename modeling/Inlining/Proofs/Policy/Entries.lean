import Inlining.Proofs.Run.Trace
import Inlining.Proofs.SiteIndex.Build
import Inlining.Proofs.SiteIndex.Redistribution
import Mathlib.Logic.Relation

/-!
# Entries into the books

Whoever holds a policy may ask it for steps and hand it reports in any order, with another host each
time, and may go on after a call that failed. Nothing is known then of the program and the profile.
What is known is what a call can do to the books: it makes a number of entries, each of which is an
`Entry`, and stops where it fails. An invariant that every entry keeps therefore holds at all times,
`Policy.Led.invariant`.

## Main definitions

* `Policy.Entry` — one entry
* `Policy.Led` — the books that calls lead to

## Main results

* `Run.step_entries` — a step makes entries and nothing else, also where it fails
* `Policy.Led.invariant` — what entries keep holds at all times
* `Policy.Led.consistent` — the views of the index agree at all times
-/

namespace Inlining

open Relation

namespace Policy

/-! ### Parts of an entry -/

theorem index_recordRedistribution (p : Policy) (r : Redistribution) :
    (p.recordRedistribution r).index = p.index :=
  show (p.recordRedistribution r).plain.index = p.plain.index by rw [plain_recordRedistribution]

theorem record?_take (p : Policy) (id : SiteId) (r : SiteRecord) (size : Nat) (id' : SiteId) :
    (p.take id r size).index.record? id' = (p.index.record? id').map fun r' =>
      if id = id' then { r' with inlined := true } else r' := by
  change ((p.index.modifyFunction _ _).mark id).record? id' = _
  rw [SiteIndex.mark, SiteIndex.record?_modifyRecord]
  rfl

theorem function?_take (p : Policy) (id : SiteId) (r : SiteRecord) (size : Nat) (f : FunctionId) :
    (p.take id r size).index.function? f = (p.index.function? f).map fun g =>
      if r.caller = f then { g with size := Word.wrap (g.size + size) } else g :=
  SiteIndex.function?_modifyFunction _ _ _ _

theorem recursiveInlinesOf_charge (p : Policy) (f g : FunctionId) (callee : FunctionRecord) :
    (p.charge f callee).recursiveInlinesOf g =
      p.recursiveInlinesOf g + if callee.recursive = true ∧ f = g then 1 else 0 := by
  simp only [recursiveInlinesOf, charge]
  cases callee.recursive with
  | false => simp
  | true =>
    by_cases hf : f = g
    · subst hf
      simp
    · simp [Std.ExtTreeMap.getD_insert, hf]

/-- A call site that is chosen is charged and taken. -/
theorem adopt_eq_ok {p q : Policy} {id : SiteId} {call : SiteRecord} (h : adopt id p = .ok call q) :
    ∃ callee, p.index.record? id = some call ∧ p.index.function? call.callee = some callee ∧
      q = (p.charge call.callee callee).take id call callee.size := by
  rw [adopt_apply] at h
  cases hcall : p.index.record? id with
  | none => simp [hcall] at h
  | some r =>
    cases hcallee : p.index.function? r.callee with
    | none => simp [hcall, hcallee] at h
    | some callee =>
      simp only [hcall, hcallee] at h
      split at h
      · cases h
      · cases h
        exact ⟨callee, rfl, hcallee, rfl⟩

/-- A call site that cannot be chosen is charged at most, and not refused for want of entries. -/
theorem adopt_eq_error {p q : Policy} {id : SiteId} {e : Error} (h : adopt id p = .error e q) :
    (q = p ∨ ∃ f callee, q = p.charge f callee) ∧ ∀ f, e ≠ .zeroFrequency f := by
  rw [adopt_apply] at h
  cases hcall : p.index.record? id with
  | none =>
    simp only [hcall] at h
    cases h
    exact ⟨.inl rfl, by simp⟩
  | some r =>
    cases hcallee : p.index.function? r.callee with
    | none =>
      simp only [hcall, hcallee] at h
      cases h
      exact ⟨.inl rfl, by simp⟩
    | some callee =>
      simp only [hcall, hcallee] at h
      split at h <;> cases h
      exact ⟨.inr ⟨_, _, rfl⟩, by simp⟩

/-! ### Entries -/

/-- One entry into the books. -/
inductive Entry : Policy → Policy → Prop
  | counted (p : Policy) : Entry p { p with iteration := p.iteration + 1 }
  | reported {p : Policy} (copies : List CopiedCall) (pending : p.pending.isSome) :
      Entry p { p with copies := p.copies ++ copies }
  | accounted {p : Policy} {id : SiteId} {s : Snapshot} {done : Redistribution} {ix : SiteIndex}
      (pending : p.pending = some id)
      (redistributed : SiteIndex.redistribute s id p.copies p.index = .ok done ix) :
      Entry p ({ p with pending := none, copies := [], index := ix }.recordRedistribution done)
  | dropped {p : Policy} {id : SiteId} {s : Snapshot} {e : Error} {ix : SiteIndex}
      (pending : p.pending = some id)
      (redistributed : SiteIndex.redistribute s id p.copies p.index = .error e ix) :
      Entry p { p with pending := none, copies := [], index := ix }
  | remeasured (p : Policy) (measured : Nat) : Entry p (p.remeasure measured)
  | renewed {p : Policy} {s : Snapshot} {oracle : Oracle} {ix : SiteIndex}
      (built : SiteIndex.build s oracle = .ok ix) :
      Entry p (p.renew { ix with generation := p.index.generation + 1 })
  | adopted {p q : Policy} {id : SiteId} {call : SiteRecord} (best : p.selection.best = some id)
      (adopted : adopt id p = .ok call q) : Entry p q
  | refused {p q : Policy} {id : SiteId} {e : Error} (best : p.selection.best = some id)
      (adopted : adopt id p = .error e q) : Entry p q
  | finished (p : Policy) : Entry p p.finish

theorem invariant_of_entries {P : Policy → Prop} (keeps : ∀ {p q}, Entry p q → P p → P q)
    {p q : Policy} (entries : ReflTransGen Entry p q) (hp : P p) : P q := by
  induction entries with
  | refl => exact hp
  | tail _ entry ih => exact keeps entry ih

/-- **The views of the index agree after an entry** if they did before. -/
theorem Entry.consistent {p q : Policy} (entry : Entry p q) (hix : p.index.Consistent) :
    q.index.Consistent := by
  cases entry with
  | counted | reported | remeasured | finished => exact hix
  | accounted _ redistributed =>
    obtain ⟨_, _, -, -, -, -, hredistributes⟩ := hix.redistribute_eq_ok redistributed
    rw [index_recordRedistribution]
    exact hredistributes.consistent
  | dropped _ redistributed => exact SiteIndex.redistribute_eq_error redistributed ▸ hix
  | renewed built =>
    exact (SiteIndex.consistent_of_build built).congr rfl (fun _ => rfl) fun _ => rfl
  | adopted _ adopted =>
    obtain ⟨callee, -, -, rfl⟩ := adopt_eq_ok adopted
    refine SiteIndex.Consistent.modifyRecord ?_ _ fun _ => rfl
    exact hix.modifyFunction _ fun _ => rfl
  | refused _ adopted =>
    obtain ⟨rfl | ⟨f, callee, rfl⟩, -⟩ := adopt_eq_error adopted
    · exact hix
    · exact hix

end Policy

namespace Run

variable {σ : Type} {h : Host σ} {r s : Run σ}

/-! ### What a step enters -/

/-- The outcomes of accounting for the pending inline. -/
inductive AccountOutcome (h : Host σ) (r : Run σ) : EStateM.Result Error (Run σ) Unit → Prop
  | nothing {s : Run σ} (pending : r.policy.pending = none) (policy : s.policy = r.policy) :
      AccountOutcome h r (.ok () s)
  | redistributed {s : Run σ} {id : SiteId} {done : Redistribution} {ix : SiteIndex}
      (pending : r.policy.pending = some id)
      (redistributed : SiteIndex.redistribute (h.snapshot r.host) id r.policy.copies
        r.policy.index = .ok done ix)
      (policy : s.policy = { r.policy with
        pending := none, copies := [], index := ix }.recordRedistribution done) :
      AccountOutcome h r (.ok () s)
  | dropped {s : Run σ} {id : SiteId} {e : Error} {ix : SiteIndex}
      (pending : r.policy.pending = some id)
      (redistributed : SiteIndex.redistribute (h.snapshot r.host) id r.policy.copies
        r.policy.index = .error e ix)
      (policy : s.policy = { r.policy with pending := none, copies := [], index := ix }) :
      AccountOutcome h r (.error e s)

theorem account_outcome (h : Host σ) (r : Run σ) : AccountOutcome h r (account h r) := by
  obtain ⟨host, -, heq⟩ := account_apply h r
  rw [heq, Policy.account_apply]
  cases hpending : r.policy.pending with
  | none => exact .nothing hpending rfl
  | some id =>
    simp only
    cases hdone : SiteIndex.redistribute (h.snapshot r.host) id r.policy.copies r.policy.index with
    | error e ix => exact .dropped hpending hdone rfl
    | ok done ix => exact .redistributed hpending hdone rfl

/-- The outcomes of the fallback. -/
inductive FallBackOutcome (h : Host σ) (r : Run σ) : EStateM.Result Error (Run σ) Unit → Prop
  | unmeasured {e : Error} {s : Run σ} {host : σ}
      (simplified : h.simplify (r.consulted h) = .error e host) (policy : s.policy = r.policy) :
      FallBackOutcome h r (.error e s)
  | unprofiled {e : Error} {s : Run σ} {measured : Nat} {host host' : σ}
      (simplified : h.simplify (r.consulted h) = .ok () host)
      (profiled : h.profile (h.measure host).2 = .error e host')
      (policy : s.policy = r.policy.remeasure measured) : FallBackOutcome h r (.error e s)
  | unbuilt {e : Error} {s : Run σ} {measured : Nat} {snapshot : Snapshot} {oracle : Oracle}
      (built : SiteIndex.build snapshot oracle = .error e)
      (policy : s.policy = r.policy.remeasure measured) : FallBackOutcome h r (.error e s)
  | renewed {s : Run σ} {measured : Nat} {snapshot : Snapshot} {oracle : Oracle} {ix : SiteIndex}
      (built : SiteIndex.build snapshot oracle = .ok ix)
      (policy : s.policy = (r.policy.remeasure measured).renew
        { ix with generation := r.policy.index.generation + 1 }) :
      FallBackOutcome h r (.ok () s)

theorem fallBack_outcome (h : Host σ) (r : Run σ) : FallBackOutcome h r (fallBack h r) := by
  rw [fallBack_apply]
  cases hsimplified : h.simplify (r.consulted h) with
  | error e host => exact .unmeasured hsimplified rfl
  | ok _ host =>
    simp only
    cases hprofiled : h.profile (h.measure host).2 with
    | error e host' => exact .unprofiled hsimplified hprofiled rfl
    | ok table host' =>
      simp only
      cases hbuild : SiteIndex.build (h.snapshot host') table.oracle with
      | error e => exact .unbuilt hbuild rfl
      | ok ix => exact .renewed hbuild rfl

theorem account_entries (h : Host σ) (r : Run σ) :
    ReflTransGen Policy.Entry r.policy ((account h).after r).policy := by
  have outcome := account_outcome h r
  rw [Update.after]
  generalize account h r = result at outcome ⊢
  cases outcome with
  | nothing _ policy => exact policy ▸ .refl
  | redistributed pending redistributed policy =>
    exact policy ▸ .single (.accounted pending redistributed)
  | dropped pending redistributed policy =>
    exact policy ▸ .single (.dropped pending redistributed)

theorem fallBack_entries (h : Host σ) (r : Run σ) :
    ReflTransGen Policy.Entry r.policy ((fallBack h).after r).policy := by
  have outcome := fallBack_outcome h r
  rw [Update.after]
  generalize fallBack h r = result at outcome ⊢
  cases outcome with
  | unmeasured _ policy => exact policy ▸ .refl
  | unprofiled _ _ policy | unbuilt _ policy => exact policy ▸ .single (.remeasured _ _)
  | @renewed _ measured _ _ _ built policy =>
    exact policy ▸ (ReflTransGen.single (.remeasured _ measured)).tail (.renewed built)

/-- The books at a moment of selection. -/
theorem Selects.entries (selects : Selects h r s) :
    ReflTransGen Policy.Entry r.policy s.policy := by
  have haccounted : ∀ {s₀}, account h r.tick = .ok () s₀ →
      ReflTransGen Policy.Entry r.policy s₀.policy := by
    intro s₀ hs₀
    have hentries := account_entries h r.tick
    rw [Update.after, hs₀] at hentries
    exact (ReflTransGen.single (.counted r.policy)).trans hentries
  cases selects with
  | first _ accounted => exact haccounted accounted
  | @again s₀ _ _ accounted _ _ optimized =>
    have hentries := fallBack_entries h (s₀.noted h)
    rw [Update.after, optimized] at hentries
    exact (haccounted accounted).trans hentries

/-- A step that does not build the index anew selects right after accounting. -/
theorem Selects.account_eq (selects : Selects h r s) (hix : r.policy.index.Consistent)
    (same : s.policy.index.generation = r.policy.index.generation) :
    account h r.tick = .ok () s := by
  cases selects with
  | first _ accounted => exact accounted
  | @again s₀ _ _ accounted _ _ optimized =>
    have hgeneration : s₀.policy.index.generation = r.policy.index.generation := by
      have outcome := account_outcome h r.tick
      rw [accounted] at outcome
      cases outcome with
      | nothing _ policy =>
        rw [policy]
        rfl
      | redistributed _ redistributed policy =>
        obtain ⟨_, _, -, -, -, -, hredistributes⟩ :=
          SiteIndex.Consistent.redistribute_eq_ok hix redistributed
        rw [policy, Policy.index_recordRedistribution]
        exact hredistributes.generation
    have outcome := fallBack_outcome h (s₀.noted h)
    rw [optimized] at outcome
    cases outcome with
    | renewed _ policy =>
      have hnext : s.policy.index.generation = s₀.policy.index.generation + 1 := by
        rw [policy]
        rfl
      omega

/-- What a run is bound to does not change up to a selection, and the run has not finished. -/
theorem Selects.standing (selects : Selects h r s) : s.policy.limits = r.policy.limits ∧
    s.policy.recursiveInlines = r.policy.recursiveInlines ∧ s.policy.finished = false := by
  have haccounted : ∀ {s₀}, account h r.tick = .ok () s₀ → s₀.policy.limits = r.policy.limits ∧
      s₀.policy.recursiveInlines = r.policy.recursiveInlines ∧
      s₀.policy.finished = r.policy.finished := by
    intro s₀ hs₀
    have outcome := account_outcome h r.tick
    rw [hs₀] at outcome
    cases outcome with
    | nothing _ policy =>
      rw [policy]
      exact ⟨rfl, rfl, rfl⟩
    | redistributed _ _ policy =>
      have hplain := congrArg Policy.plain policy
      rw [Policy.plain_recordRedistribution] at hplain
      exact ⟨show s₀.policy.plain.limits = _ by rw [hplain]; rfl,
        show s₀.policy.plain.recursiveInlines = _ by rw [hplain]; rfl,
        show s₀.policy.plain.finished = _ by rw [hplain]; rfl⟩
  cases selects with
  | first running accounted =>
    rw [← running]
    exact haccounted accounted
  | @again s₀ _ running accounted _ _ optimized =>
    have hs₀ := haccounted accounted
    have outcome := fallBack_outcome h (s₀.noted h)
    rw [optimized] at outcome
    cases outcome with
    | renewed _ policy =>
      rw [policy, ← running]
      exact hs₀

/-- **A step makes entries and nothing else**, also where it fails. -/
theorem step_entries (h : Host σ) (r : Run σ) :
    ReflTransGen Policy.Entry r.policy ((step h).after r).policy := by
  have outcome := step_outcome h r
  rw [Update.after]
  generalize step h r = result at outcome ⊢
  cases outcome with
  | idle => exact .refl
  | unaccounted _ accounted =>
    have hentries := account_entries h r.tick
    rw [Update.after, accounted] at hentries
    exact (ReflTransGen.single (.counted r.policy)).trans hentries
  | @stuck s _ _ selects _ optimized =>
    have hentries := fallBack_entries h (s.noted h)
    rw [Update.after, optimized] at hentries
    exact selects.entries.trans hentries
  | done selects => exact selects.entries.tail (.finished _)
  | refused selects best adopted => exact selects.entries.tail (.refused best adopted)
  | chosen selects best adopted => exact selects.entries.tail (.adopted best adopted)

end Run

namespace Policy

/-! ### The books of a holder -/

/-- The books that calls lead to from a start: steps on any hosts and reports, in any order, whether
they succeed or fail. -/
inductive Led (start : Policy) : Policy → Prop
  | start : Led start start
  | step {σ : Type} {p : Policy} (h : Host σ) (host : σ) (led : Led start p) :
      Led start ((Run.step h).after { policy := p, host }).policy
  | report {p : Policy} (copies : List CopiedCall) (led : Led start p) :
      Led start ((report copies).after p)

theorem report_entries (copies : List CopiedCall) (p : Policy) :
    ReflTransGen Entry p ((report copies).after p) := by
  rw [Update.after, report_apply]
  by_cases hpending : p.pending.isNone
  · rw [if_pos hpending]
  · rw [if_neg hpending]
    refine .single (.reported copies (Option.isSome_iff_ne_none.mpr ?_))
    simpa using hpending

variable {start p : Policy}

theorem Led.entries (led : Led start p) : ReflTransGen Entry start p := by
  induction led with
  | start => exact .refl
  | step h host _ ih => exact ih.trans (Run.step_entries h { policy := _, host })
  | report copies _ ih => exact ih.trans (report_entries copies _)

/-- **What entries keep holds at all times.** -/
theorem Led.invariant {P : Policy → Prop} (keeps : ∀ {p q}, Entry p q → P p → P q)
    (led : Led start p) (hstart : P start) : P p :=
  invariant_of_entries keeps led.entries hstart

/-- What a policy starts with. -/
theorem exists_build_of_prepare {σ : Type} {h : Host σ} {limits : Limits} {oracle : Oracle}
    {host host' : σ} (hok : prepare h limits oracle host = .ok p host') :
    ∃ measured snapshot ix, SiteIndex.build snapshot oracle = .ok ix ∧
      p = Policy.start limits measured ix := by
  obtain ⟨n, happly⟩ := prepare_apply h limits oracle host
  rw [happly] at hok
  cases hbuild : SiteIndex.build (h.snapshot (h.measure host).2) oracle with
  | error e =>
    rw [hbuild] at hok
    cases hok
  | ok ix =>
    rw [hbuild] at hok
    cases hok
    exact ⟨_, _, ix, hbuild, rfl⟩

/-- **The views of the index agree at all times.** -/
theorem Led.consistent {σ : Type} {h : Host σ} {limits : Limits} {oracle : Oracle}
    {host host' : σ} (prepared : prepare h limits oracle host = .ok start host')
    (led : Led start p) : p.index.Consistent := by
  obtain ⟨_, _, ix, hbuild, rfl⟩ := exists_build_of_prepare prepared
  exact led.invariant Entry.consistent (SiteIndex.consistent_of_build hbuild)

end Policy

namespace Run

variable {σ : Type} {h : Host σ} {engine : Engine σ} {start r r' : Run σ}

/-- What a turn with an inline does to the books: a step and a report. -/
theorem policy_of_turn (inlined : r.turn h engine = .ok true r') :
    ∃ copies, r'.policy = (Policy.report copies).after ((step h).after r).policy := by
  obtain ⟨site, s, copies, hstep, -, hreport⟩ := exists_report_of_turn inlined
  refine ⟨copies, ?_⟩
  simp only [Update.after, hstep, hreport]

/-- A schedule is one way to lead the books. -/
theorem Reached.led (reached : Reached h engine start r) : Policy.Led start.policy r.policy := by
  induction reached with
  | start => exact .start
  | @turn r _ _ inlined ih =>
    obtain ⟨copies, hpolicy⟩ := policy_of_turn inlined
    rw [hpolicy]
    exact .report copies (.step h r.host ih)

end Run

end Inlining
