import Inlining.Proofs.Policy.Entries
import Inlining.Proofs.Run.Workspace
import Inlining.Proofs.Selection

/-!
# Calls that run and callees that are entered

Where a call runs, its callee should be entered. Nothing is known of the profile that an index is
built from, so a new index may break this rule. The policy does not: if the rule holds of every
index when it is new, then it holds at all times, whatever is reported and in whatever order.

The rule speaks of calls that are still there. A redistribution may take the last entry of a callee,
but only if no such call of it is left. The copies of its own calls count among these, and the call
that was inlined does not, since it was marked when it was chosen.

A call has to run to be chosen, if the limits ask for at least one run. The callee of a pending
inline is then entered, and this is all that a redistribution needs to find something to divide. The
error of a redistribution that finds nothing can then come from outside only: an optimizer or a
profiler may return any error, and a step hands it on. Those that report failures as their own do
not return this one.

## Main definitions

* `SiteIndex.Supplied` — the rule
* `Host.Conforms` — optimizer and profiler report failures as their own
* `Run.HostFails` — the optimizer or the profiler fails in a step
* `Run.Renews` — the moment right after the index was built anew
* `Policy.LedBy` — the books that calls lead to, with what is known of every new index
* `Policy.Provided` — what a step relies on and leaves behind

## Main results

* `SiteIndex.Redistributes.supplied` — a redistribution keeps the rule
* `Run.step_provided` — and so does a step, also where it fails
* `Run.supplied_throughout` — the rule holds at all times, and no step fails for want of entries
-/

namespace Inlining

namespace SiteIndex

/-- Every call that is still there and runs leads to a function that is entered, as far as the index
has that function. -/
def Supplied (ix : SiteIndex) : Prop :=
  ∀ id r callee, ix.record? id = some r → r.inlined = false → 0 < r.frequency →
    ix.function? r.callee = some callee → 0 < callee.frequency

instance (ix : SiteIndex) : Decidable ix.Supplied :=
  decidable_of_iff (∀ r ∈ ix.records, r.inlined = false → 0 < r.frequency →
      ∀ callee ∈ ix.function? r.callee, 0 < callee.frequency) <| by
    constructor
    · intro h id r callee hr hlive hpos hcallee
      exact h r (SiteIndex.mem_records.mpr ⟨id, hr⟩) hlive hpos callee hcallee
    · intro h r hr hlive hpos callee hcallee
      obtain ⟨id, hid⟩ := SiteIndex.mem_records.mp hr
      exact h id r callee hid hlive hpos hcallee

variable {ix ix' : SiteIndex} {call : SiteRecord} {callee : FunctionRecord} {still : Bool}
  {report : List CopiedCall}

/-- **A redistribution takes the last entry of no callee that is still called.** -/
theorem Redistributes.supplied
    (h : ix.Redistributes ix' call callee.frequency
      (entriesLeft callee.frequency call.frequency still) report)
    (hix : ix.Supplied) (entered : callee.frequency ≠ 0)
    (hstill : (∃ id r, ix.record? id = some r ∧ r.inlined = false ∧ r.callee = call.callee) →
      still = true) : ix'.Supplied := by
  have hpositive := Nat.pos_of_ne_zero entered
  intro id' r' f' hr' hlive' hpos' hf'
  obtain ⟨id, r, hr, hlive, heq, hle⟩ :=
    h.exists_source (entriesLeft_le call.frequency still hpositive) hpositive hr' hlive'
  have hfigures := h.figures r'.callee
  rw [hf', Option.map_some, heq] at hfigures
  obtain ⟨f, hf, hfigures⟩ := Option.map_eq_some_iff.mp hfigures.symm
  rw [show f'.frequency = f'.figures.frequency from rfl, ← hfigures]
  by_cases hsame : r.callee = call.callee
  · rw [if_pos hsame, hstill ⟨id, r, hr, hlive, hsame⟩]
    exact Nat.pos_of_ne_zero (entriesLeft_ne_zero _ _)
  · rw [if_neg hsame]
    exact hix id r f hr hlive (Nat.lt_of_lt_of_le hpos' hle) hf

end SiteIndex

/-- What is asked of an optimizer and of a profiler: they report their failures as their own. Errors
fall into three areas, of which `collaborator` is theirs; errors about entries are kept for the
bookkeeping. -/
structure Host.Conforms {σ : Type} (h : Host σ) : Prop where
  simplify : ∀ {w e w'}, h.simplify w = .error e w' → e.area = .collaborator
  profile : ∀ {w e w'}, h.profile w = .error e w' → e.area = .collaborator

/-- In the step from `r` nothing can be chosen once the inline before is accounted for, so that the
optimizer is asked; the second run is the one at that moment. -/
structure Run.Consults {σ : Type} (h : Host σ) (r s : Run σ) : Prop where
  running : r.policy.finished = false
  accounted : account h r.tick = .ok () s
  nothing : s.policy.selection.best = none
  allowed : s.policy.limits.neverOptimize = false

/-- In the step from `r` the optimizer is asked and fails with the error, or it succeeds and the
profiler fails with the error when it is asked after that. -/
inductive Run.HostFails {σ : Type} (h : Host σ) (r : Run σ) (e : Error) : Prop
  | optimizer {s : Run σ} {w : σ} (consults : Consults h r s)
      (failed : h.simplify ((s.noted h).consulted h) = .error e w) : HostFails h r e
  | profiler {s : Run σ} {w w' : σ} (consults : Consults h r s)
      (simplified : h.simplify ((s.noted h).consulted h) = .ok () w)
      (failed : h.profile (h.measure w).2 = .error e w') : HostFails h r e

/-- In the step from `r` the index is built anew; the second run is the one right after that. -/
def Run.Renews {σ : Type} (h : Host σ) (r t : Run σ) : Prop :=
  Run.Selects h r t ∧ t.policy.index.generation ≠ r.policy.index.generation

namespace Policy

/-- The books that calls lead to from a start, where every index has the given property when it is
new. -/
inductive LedBy (New : SiteIndex → Prop) (start : Policy) : Policy → Prop
  | start (new : New start.index) : LedBy New start start
  | step {σ : Type} {p : Policy} (h : Host σ) (host : σ) (led : LedBy New start p)
      (new : ∀ t, Run.Renews h { policy := p, host } t → New t.policy.index) :
      LedBy New start ((Run.step h).after { policy := p, host }).policy
  | report {p : Policy} (copies : List CopiedCall) (led : LedBy New start p) :
      LedBy New start ((report copies).after p)

/-- Books in which calls that run lead to functions that are entered, and so does the pending one.
-/
structure Provided (p : Policy) : Prop where
  consistent : p.index.Consistent
  minimum : 1 ≤ p.limits.minimumFrequency
  supplied : p.index.Supplied
  pending : ∀ id, p.pending = some id → ∃ call callee, p.index.record? id = some call ∧
    call.inlined = true ∧ p.index.function? call.callee = some callee ∧ 0 < callee.frequency

variable {p q : Policy}

/-- What is not in the index, the limits or pending does not matter. -/
theorem Provided.congr (h : p.Provided) (index : q.index = p.index) (limits : q.limits = p.limits)
    (pending : q.pending = none ∨ q.pending = p.pending) : q.Provided := by
  refine ⟨index ▸ h.consistent, limits ▸ h.minimum, index ▸ h.supplied, fun id hid => ?_⟩
  rw [index]
  rcases pending with hnone | hsame
  · rw [hnone] at hid
    cases hid
  · exact h.pending id (hsame ▸ hid)

/-- The callee of the pending inline was entered, so that there is something to redistribute. -/
theorem Provided.ne_zeroFrequency (h : p.Provided) {id : SiteId} (pending : p.pending = some id)
    {snapshot : Snapshot} {report : List CopiedCall} {e : Error} {ix : SiteIndex}
    (failed : SiteIndex.redistribute snapshot id report p.index = .error e ix) (f : FunctionId) :
    e ≠ .zeroFrequency f := by
  rintro rfl
  obtain ⟨call, callee, hcall, hcallee, hzero⟩ := SiteIndex.redistribute_eq_zeroFrequency failed
  obtain ⟨_, _, hcall', -, hcallee', hentered⟩ := h.pending id pending
  cases hcall'.symm.trans hcall
  cases hcallee'.symm.trans hcallee
  omega

/-- What is left to the callee of the pending inline supplies the calls of it that are left. -/
theorem Provided.redistribute (h : p.Provided) {id : SiteId} (pending : p.pending = some id)
    {snapshot : Snapshot} {report : List CopiedCall} {done : Redistribution}
    (redistributed : SiteIndex.redistribute snapshot id report p.index = .ok done q.index)
    (limits : q.limits = p.limits) (accounted : q.pending = none) :
    q.Provided ∧ q.index.generation = p.index.generation := by
  obtain ⟨call, callee, hcall, hcallee, hentered, -, hredistributes⟩ :=
    SiteIndex.Consistent.redistribute_eq_ok h.consistent redistributed
  obtain ⟨_, _, hmarked, hinlined, -⟩ := h.pending id pending
  cases hmarked.symm.trans hcall
  refine ⟨⟨hredistributes.consistent, limits ▸ h.minimum, ?_, fun id' hid' => ?_⟩,
    hredistributes.generation⟩
  · exact hredistributes.supplied h.supplied hentered
      (h.consistent.isStillCalled_iff hcall hinlined call.callee).mpr
  · rw [accounted] at hid'
    cases hid'

/-- A call that is chosen runs, so that its callee is entered. -/
theorem Provided.adopt {id : SiteId} {call : SiteRecord} (h : p.Provided)
    (best : p.selection.best = some id) (adopted : Policy.adopt id p = .ok call q) :
    q.Provided := by
  have hconsistent := (Entry.adopted best adopted).consistent h.consistent
  obtain ⟨callee, hcall, hcallee, rfl⟩ := adopt_eq_ok adopted
  obtain ⟨hlive, hfrequency, -⟩ := Selection.fits_of_best h.consistent best hcall hcallee
  have hentered : 0 < callee.frequency :=
    h.supplied id call callee hcall hlive (Nat.lt_of_lt_of_le h.minimum hfrequency) hcallee
  have hfunction : ∀ {f record'}, ((p.charge call.callee callee).take id call
      callee.size).index.function? f = some record' → ∃ record,
        p.index.function? f = some record ∧ record'.frequency = record.frequency := by
    intro f record' hf
    rw [function?_take] at hf
    obtain ⟨record, hrecord, rfl⟩ := Option.map_eq_some_iff.mp hf
    refine ⟨record, hrecord, ?_⟩
    split <;> rfl
  refine ⟨hconsistent, h.minimum, ?_, ?_⟩
  · intro id' r' f' hr' hlive' hpos' hf'
    rw [record?_take] at hr'
    obtain ⟨r, hr, rfl⟩ := Option.map_eq_some_iff.mp hr'
    by_cases hid : id = id'
    · simp [hid] at hlive'
    · simp only [hid, if_false] at hlive' hpos' hf'
      obtain ⟨f, hf, heq⟩ := hfunction hf'
      rw [heq]
      exact h.supplied id' r f hr hlive' hpos' hf
  · intro id' hid'
    obtain rfl : id = id' := Option.some.inj hid'
    refine ⟨{ call with inlined := true }, _, ?_, rfl,
      (function?_take _ _ _ _ _).trans (congrArg _ hcallee), ?_⟩
    · rw [record?_take]
      exact (congrArg _ hcall).trans (by simp)
    · split <;> exact hentered

end Policy

namespace Run

variable {σ : Type} {h : Host σ} {r s t : Run σ}

/-- Accounting for the pending inline keeps the rule, and it does not fail for want of entries. -/
theorem account_provided (hr : r.policy.Provided) :
    (∀ s, account h r.tick = .ok () s → s.policy.Provided ∧ s.policy.pending = none ∧
      s.policy.index.generation = r.policy.index.generation) ∧
    ∀ e s, account h r.tick = .error e s → s.policy.Provided ∧ ∀ f, e ≠ .zeroFrequency f := by
  have outcome := account_outcome h r.tick
  generalize account h r.tick = result at outcome
  cases outcome with
  | @nothing s pending policy =>
    refine ⟨?_, by simp⟩
    rintro _ ⟨⟩
    exact ⟨hr.congr (by rw [policy]; rfl) (by rw [policy]; rfl) (.inl (policy ▸ pending)),
      policy ▸ pending, by rw [policy]; rfl⟩
  | @redistributed s id done ix pending redistributed policy =>
    refine ⟨?_, by simp⟩
    rintro _ ⟨⟩
    have hindex : s.policy.index = ix := by rw [policy, Policy.index_recordRedistribution]
    have hplain : s.policy.plain =
        { r.policy.plain with pending := none, copies := [], index := ix } := by
      rw [policy, Policy.plain_recordRedistribution]
      rfl
    have hpending : s.policy.pending = none := show s.policy.plain.pending = none by rw [hplain]
    have hlimits : s.policy.limits = r.policy.limits :=
      show s.policy.plain.limits = _ by rw [hplain]; rfl
    obtain ⟨hs, hgeneration⟩ := hr.redistribute pending (hindex ▸ redistributed) hlimits hpending
    exact ⟨hs, hpending, hgeneration⟩
  | @dropped s id e ix pending redistributed policy =>
    refine ⟨by simp, ?_⟩
    rintro _ _ ⟨⟩
    have hindex : ix = r.policy.index := SiteIndex.redistribute_eq_error redistributed
    exact ⟨hr.congr (by rw [policy]; exact hindex) (by rw [policy]; rfl) (.inl (by rw [policy])),
      hr.ne_zeroFrequency pending redistributed⟩

/-- The books at a moment of selection. -/
theorem Selects.provided (selects : Selects h r s) (hr : r.policy.Provided)
    (new : Renews h r s → s.policy.index.Supplied) :
    s.policy.Provided ∧ s.policy.pending = none := by
  have hselects := selects
  cases selects with
  | first _ accounted =>
    obtain ⟨hs, hpending, -⟩ := (account_provided hr).1 s accounted
    exact ⟨hs, hpending⟩
  | @again s₀ _ _ accounted _ _ optimized =>
    obtain ⟨hs₀, hpending, hgeneration⟩ := (account_provided hr).1 s₀ accounted
    have outcome := fallBack_outcome h (s₀.noted h)
    rw [optimized] at outcome
    cases outcome with
    | @renewed _ measured _ _ ix built policy =>
      have hnone : s.policy.pending = none := by
        rw [policy]
        exact hpending
      have hnew : s.policy.index.Supplied := by
        refine new ⟨hselects, ?_⟩
        rw [policy, ← hgeneration]
        exact Nat.succ_ne_self _
      refine ⟨⟨?_, ?_, hnew, fun id hid => ?_⟩, hnone⟩
      · rw [policy]
        exact (Policy.Entry.renewed built).consistent (p := s₀.policy.remeasure measured)
          hs₀.consistent
      · rw [policy]
        exact hs₀.minimum
      · rw [hnone] at hid
        cases hid

/-- A fallback that fails has at most measured the program. -/
theorem policy_of_fallBack_eq_error {e : Error} (failed : fallBack h r = .error e t) :
    t.policy = r.policy ∨ ∃ measured, t.policy = r.policy.remeasure measured := by
  have outcome := fallBack_outcome h r
  rw [failed] at outcome
  cases outcome with
  | unmeasured _ policy => exact .inl policy
  | unprofiled _ _ policy | unbuilt _ policy => exact .inr ⟨_, policy⟩

/-- **A step keeps the rule**, also where it fails. -/
theorem step_provided (hr : r.policy.Provided)
    (new : ∀ t, Renews h r t → t.policy.index.Supplied) :
    ((step h).after r).policy.Provided := by
  have outcome := step_outcome h r
  rw [Update.after]
  generalize step h r = result at outcome ⊢
  cases outcome with
  | idle => exact hr
  | unaccounted _ accounted => exact ((account_provided hr).2 _ _ accounted).1
  | @stuck s t _ selects _ optimized =>
    have hs := (selects.provided hr (new s)).1
    rcases policy_of_fallBack_eq_error optimized with hpolicy | ⟨measured, hpolicy⟩ <;>
      exact hs.congr (by rw [hpolicy]; rfl) (by rw [hpolicy]; rfl) (.inr (by rw [hpolicy]; rfl))
  | @done s _ selects _ => exact (selects.provided hr (new s)).1.congr rfl rfl (.inr rfl)
  | @refused s _ _ _ selects _ adopted =>
    have hs := (selects.provided hr (new s)).1
    obtain ⟨rfl | ⟨f, callee, rfl⟩, -⟩ := Policy.adopt_eq_error adopted
    · exact hs
    · exact hs.congr rfl rfl (.inr rfl)
  | @chosen s _ _ _ _ selects best adopted =>
    exact (selects.provided hr (new s)).1.adopt best adopted

/-- A host that reports failures as its own does not fail for want of entries. -/
theorem HostFails.ne_zeroFrequency {e : Error} (fails : HostFails h r e) (conforms : h.Conforms)
    (f : FunctionId) : e ≠ .zeroFrequency f := by
  have harea : e.area = .collaborator := by
    cases fails with
    | optimizer _ failed => exact conforms.simplify failed
    | profiler _ _ failed => exact conforms.profile failed
  rintro rfl
  cases harea

end Run

namespace Policy

variable {start p : Policy}

/-- Books that are led from a start at which the rule holds, with a rule that holds of every new
index. -/
theorem LedBy.provided (led : LedBy SiteIndex.Supplied start p)
    (hstart : start.index.Supplied → start.Provided) : p.Provided := by
  induction led with
  | start new => exact hstart new
  | step h host _ new ih => exact Run.step_provided ih new
  | @report p copies _ ih =>
    obtain ⟨_, heq⟩ := after_report copies p
    rw [heq]
    exact ih.congr rfl rfl (.inr rfl)

end Policy

end Inlining
