import Inlining.Proofs.Policy.Ledger

/-!
# What the budget and the size add up to

The policy keeps two figures in step: what is left of the budget and the size of the program as far
as it knows. A call site that is returned moves the size of its callee from the one to the other.
After the optimizer ran the size is measured, and the budget takes the difference, whichever way it
goes. So the sum of the two should be the same at all times.

Both figures are words, and what does not fit is cut. There are three places where this could
happen. When the size of a callee is taken off the budget nothing is ever cut, because only what is
within the budget is chosen. The budget after a measurement and the size after an inline may be cut,
and if one of them is then the sum changes: `Policy.Settles.sum_eq_iff`. Nothing else can disturb
it. Hosts are arbitrary here, their metric reports what it likes, and requests may fail anywhere.

## Main definitions

* `Bill`, `Policy.bill` — the figures that a request brings into the books
* `Policy.funds` — the budget after a measurement, before it is cut
* `Policy.Uncut`, `Policy.UncutAll` — nothing is cut in a request, or in several
* `Policy.Opens`, `Policy.Settles` — the books before and after the charge
* `Run.Spends` — a step takes the size of a callee off the budget

## Main results

* `Run.exists_spends` — what is selected is returned, and its cost is taken off as it is
* `Policy.settles` — a request changes the books by its bill and by nothing else
* `Policy.Settles.sum_eq_iff` — the sum stays as it is exactly if nothing is cut
* `Policy.budget_add_size` — the sum at all times, and the cost of each call site
-/

namespace Inlining

namespace Word

theorem isSigned_iff {i : Int} : isSigned i = true ↔ least ≤ i ∧ i ≤ greatest := by
  rw [isSigned, Bool.and_eq_true, decide_eq_true_eq, decide_eq_true_eq]

theorem isSigned_clamp (i : Int) : isSigned (clamp i) = true := by
  rw [isSigned_iff, clamp, least, greatest]
  omega

theorem clamp_eq_self_iff {i : Int} : clamp i = i ↔ isSigned i = true := by
  constructor
  · intro h
    rw [← h]
    exact isSigned_clamp i
  · intro h
    obtain ⟨hleast, hgreatest⟩ := isSigned_iff.mp h
    exact clamp_eq_self hleast hgreatest

theorem isSigned_sub {i : Int} {n : Nat} (signed : isSigned i = true) (le : (n : Int) ≤ i) :
    isSigned (i - n) = true := by
  rw [isSigned_iff] at signed ⊢
  have hleast : least ≤ 0 := by decide
  omega

end Word

/-- The figures that a request brings into the books. -/
structure Bill where
  /-- The size measured after the optimizer ran, if it did. -/
  measured : Option Nat := none
  /-- The size of the callee of the call site that is returned, if one is. -/
  cost : Option Nat := none

namespace Policy

/-- What is left of the budget after a measurement, if there is one, before it is cut to a word. -/
def funds (p : Policy) (measured : Option Nat) : Int :=
  p.budget - ((measured.getD p.size : Nat) - p.size : Int)

/-- The books after a measurement, if there is one, and before anything is charged. -/
structure Opens (p : Policy) (measured : Option Nat) (s : Policy) : Prop where
  budget : s.budget = Word.clamp (p.funds measured)
  size : s.size = measured.getD p.size

/-- The books after a request with the given figures. -/
inductive Settles (p : Policy) : Bill → Policy → Prop
  | nothing {measured : Option Nat} {q : Policy} (opens : p.Opens measured q) :
      Settles p { measured, cost := none } q
  | charged {measured : Option Nat} {cost : Nat} {s q : Policy} (opens : p.Opens measured s)
      (affordable : (cost : Int) ≤ s.budget) (budget : q.budget = s.budget - cost)
      (size : q.size = min Word.greatestUnsigned (s.size + cost)) :
      Settles p { measured, cost := some cost } q

/-- Neither the budget after the measurement nor the size after the inline is cut. -/
def Uncut (p : Policy) (b : Bill) : Prop :=
  Word.isSigned (p.funds b.measured) = true ∧
    ∀ cost ∈ b.cost, b.measured.getD p.size + cost ≤ Word.greatestUnsigned

instance (p : Policy) (b : Bill) : Decidable (p.Uncut b) := inferInstanceAs (Decidable (_ ∧ _))

variable {p q s : Policy} {b : Bill}

/-! ### Figures in the books -/

/-- A measurement keeps the sum if nothing is cut. -/
theorem funds_add_size (p : Policy) (measured : Option Nat) :
    p.funds measured + (measured.getD p.size : Nat) = p.budget + p.size := by
  rw [funds]
  omega

/-- Without a measurement the books are those before the request. -/
theorem Opens.of_eq (signed : Word.isSigned p.budget = true) (budget : s.budget = p.budget)
    (size : s.size = p.size) : p.Opens none s := by
  refine ⟨?_, size⟩
  have hfunds : p.funds none = p.budget := (Int.add_left_inj _).mp (p.funds_add_size none)
  rw [hfunds, Word.clamp_eq_self_iff.mpr signed, budget]

theorem Opens.remeasure (budget : s.budget = p.budget) (size : s.size = p.size) (n : Nat) :
    p.Opens (some n) (s.remeasure n) := by
  refine ⟨?_, rfl⟩
  change Word.clamp (s.budget - ((n : Int) - s.size)) = _
  rw [budget, size]
  rfl

theorem Opens.isSigned {measured : Option Nat} (opens : p.Opens measured s) :
    Word.isSigned s.budget = true := by
  rw [opens.budget]
  exact Word.isSigned_clamp _

/-- What is affordable is taken off the budget as it is. -/
theorem budget_charge (signed : Word.isSigned p.budget = true) (f : FunctionId)
    {callee : FunctionRecord} (affordable : (callee.size : Int) ≤ p.budget) :
    (p.charge f callee).budget = p.budget - callee.size := by
  have hle := (Word.isSigned_iff.mp signed).2
  have hword : min (callee.size : Int) Word.greatest = callee.size := by omega
  change Word.clamp (p.budget - min (callee.size : Int) Word.greatest) = _
  rw [hword, Word.clamp_eq_self_iff.mpr (Word.isSigned_sub signed affordable)]

/-- The budget is a word after every request. -/
theorem Settles.isSigned (settles : p.Settles b q) : Word.isSigned q.budget = true := by
  cases settles with
  | nothing opens => exact opens.isSigned
  | charged opens affordable budget =>
    rw [budget]
    exact Word.isSigned_sub opens.isSigned affordable

/-- **The sum of budget and size stays as it is exactly if nothing is cut.** What is cut off the one
figure cannot make up for what is cut off the other: after a budget that was too low to be a word
nothing is affordable. -/
theorem Settles.sum_eq_iff (settles : p.Settles b q) :
    q.budget + q.size = p.budget + p.size ↔ p.Uncut b := by
  cases settles with
  | @nothing measured _ opens =>
    rw [Uncut, ← Word.clamp_eq_self_iff, opens.budget, opens.size, ← p.funds_add_size measured]
    simp only [Option.mem_def, reduceCtorEq, false_implies, implies_true, and_true]
    omega
  | @charged measured cost _ _ opens affordable budget size =>
    have hbounds : (0 : Int) ≤ Word.clamp (p.funds measured) →
        Word.clamp (p.funds measured) ≤ p.funds measured := by
      rw [Word.clamp, Word.least, Word.greatest]
      omega
    have hle := hbounds (by rw [← opens.budget]; omega)
    rw [Uncut, ← Word.clamp_eq_self_iff, budget, size, opens.budget, opens.size,
      ← p.funds_add_size measured]
    simp only [Option.mem_def, Option.some.injEq, forall_eq']
    omega

end Policy

namespace Run

variable {σ : Type} {h : Host σ} {r s t : Run σ} {id : SiteId}

/-! ### Figures of a step -/

/-- The size that a step measures after the optimizer ran, if it gets there. -/
def measured? (h : Host σ) (r : Run σ) : Option Nat :=
  if r.policy.finished then none
  else match account h r.tick with
    | .error _ _ => none
    | .ok _ s =>
      if s.policy.selection.best.isSome || s.policy.limits.neverOptimize then none
      else match optimize h (s.noted h) with
        | .error _ _ => none
        | .ok _ t => some t.policy.size

/-- The size of the callee of the call site that a step returns, as the index has it at the moment
of the selection. -/
def cost? (h : Host σ) (r : Run σ) : Option Nat :=
  (choice? h r).bind fun c => (selected? h r).bind fun s =>
    (s.policy.index.function? c.site.callee).map FunctionRecord.size

/-- A step returns a call site, and the size of its callee is taken off the budget as it stands at
the moment of the selection. Both the size and the difference are words, so nothing is cut. -/
structure Spends (h : Host σ) (r s : Run σ) (site : CallSite) (callee : FunctionRecord)
    (t : Run σ) : Prop where
  returned : step h r = .ok (some site) t
  selects : Selects h r s
  callee_eq : s.policy.index.function? site.callee = some callee
  /-- The budget is that before the step, but for what the optimizer saved or cost. -/
  opens : r.policy.Opens (measured? h r) s.policy
  affordable : (callee.size : Int) ≤ s.policy.budget
  word : (callee.size : Int) ≤ Word.greatest
  signed : Word.isSigned (s.policy.budget - callee.size) = true
  budget : t.policy.budget = s.policy.budget - callee.size
  size : t.policy.size = min Word.greatestUnsigned (s.policy.size + callee.size)

/-- Accounting for an inline touches neither figure. -/
theorem figures_of_account (h : Host σ) (r : Run σ) :
    ((account h).after r.tick).policy.budget = r.policy.budget ∧
      ((account h).after r.tick).policy.size = r.policy.size := by
  have outcome := account_outcome h r.tick
  rw [Update.after]
  generalize account h r.tick = result at outcome ⊢
  cases outcome with
  | nothing _ policy => exact policy ▸ ⟨rfl, rfl⟩
  | redistributed _ _ policy =>
    have hplain := congrArg Policy.plain policy
    rw [Policy.plain_recordRedistribution] at hplain
    exact ⟨(congrArg Policy.budget hplain :), (congrArg Policy.size hplain :)⟩
  | dropped _ _ policy => exact policy ▸ ⟨rfl, rfl⟩

/-- The books after accounting, if nothing is measured. -/
theorem opens_of_account (h : Host σ) (signed : Word.isSigned r.policy.budget = true) :
    r.policy.Opens none ((account h).after r.tick).policy := by
  obtain ⟨hbudget, hsize⟩ := figures_of_account h r
  exact .of_eq signed hbudget hsize

/-- The books after the optimizer ran, also where that failed. -/
theorem opens_of_fallBack (signed : Word.isSigned r.policy.budget = true)
    (running : r.policy.finished = false) (accounted : account h r.tick = .ok () s)
    (nothing : s.policy.selection.best = none) (allowed : s.policy.limits.neverOptimize = false) :
    r.policy.Opens (measured? h r) ((fallBack h).after (s.noted h)).policy := by
  have hfigures := figures_of_account h r
  rw [Update.after, accounted] at hfigures
  obtain ⟨hbudget, hsize⟩ : (s.noted h).policy.budget = r.policy.budget ∧
    (s.noted h).policy.size = r.policy.size := hfigures
  rw [Update.after, fallBack_eq, Update.bind_apply, measured?]
  simp only [running, accounted, nothing, allowed, Option.isSome_none, Bool.or_false,
    Bool.false_eq_true, if_false]
  rcases optimize_cases h (s.noted h) with ⟨e, t, hoptimize, hpolicy⟩ | ⟨t, n, hoptimize, hpolicy⟩
  · rw [hoptimize]
    exact .of_eq signed (hpolicy ▸ hbudget) (hpolicy ▸ hsize)
  · rw [hoptimize]
    have hopens : r.policy.Opens (some t.policy.size) t.policy := by
      rw [hpolicy]
      exact .remeasure hbudget hsize n
    simp only
    rcases refresh_cases h t with ⟨e, u, hrefresh, hpolicy'⟩ | ⟨u, ix, hrefresh, hpolicy', -⟩
    · rw [hrefresh]
      exact hpolicy' ▸ hopens
    · rw [hrefresh]
      exact hpolicy' ▸ ⟨hopens.budget, hopens.size⟩

/-- Nothing is measured if something is selected right away, or if the optimizer is not to run. -/
theorem measured?_eq_none (accounted : account h r.tick = .ok () s)
    (skipped : s.policy.selection.best.isSome ∨ s.policy.limits.neverOptimize = true) :
    measured? h r = none := by
  rw [measured?, accounted]
  rcases skipped with hbest | hnever
  · simp [hbest]
  · simp [hnever]

/-- The books at the moment at which something is selected. -/
theorem Selects.opens (selects : Selects h r s) (best : s.policy.selection.best = some id)
    (signed : Word.isSigned r.policy.budget = true) :
    r.policy.Opens (measured? h r) s.policy := by
  cases selects with
  | first running accounted =>
    rw [measured?_eq_none accounted (.inl (by rw [best]; rfl))]
    have hopens := opens_of_account h signed
    rwa [Update.after, accounted] at hopens
  | again running accounted nothing allowed optimized =>
    have hopens := opens_of_fallBack signed running accounted nothing allowed
    rwa [Update.after, optimized] at hopens

/-- **What is selected is returned, and its cost is taken off as it is.** -/
theorem exists_spends (hix : r.policy.index.Consistent)
    (signed : Word.isSigned r.policy.budget = true) (selects : Selects h r s)
    (best : s.policy.selection.best = some id) :
    ∃ site callee t, Spends h r s site callee t := by
  have hs := Policy.invariant_of_entries Policy.Entry.consistent selects.entries hix
  obtain ⟨call, q, hadopt⟩ := Policy.exists_adopt_eq_ok hs best
  obtain ⟨callee, hcall, hcallee, rfl⟩ := Policy.adopt_eq_ok hadopt
  obtain ⟨n, hstep⟩ := adopt_apply h id (s.noted h)
  have hnoted : Policy.adopt id (s.noted h).policy = _ := hadopt
  rw [hnoted, ← selects.step_eq best] at hstep
  -- What was selected is within the budget, and the budget is a word.
  have hopens := selects.opens best signed
  have hsigned := hopens.isSigned
  obtain ⟨-, -, haffordable, -⟩ := Selection.fits_of_best hs best hcall hcallee
  refine ⟨call.toCallSite, callee, _, hstep, selects, hcallee, hopens, haffordable, ?_,
    Word.isSigned_sub hsigned haffordable, ?_, rfl⟩
  · exact Int.le_trans haffordable (Word.isSigned_iff.mp hsigned).2
  · exact Policy.budget_charge hsigned call.callee haffordable

theorem Spends.cost?_eq {site : CallSite} {callee : FunctionRecord}
    (spends : Spends h r s site callee t) (best : s.policy.selection.best = some id) :
    cost? h r = some callee.size := by
  rw [cost?, choice?, spends.returned, Option.bind_some, spends.selects.selected?_eq best,
    Option.bind_some, spends.callee_eq, Option.map_some]

/-- A step that returns nothing has selected nothing. -/
theorem Selects.best_eq_none (selects : Selects h r s) (hix : r.policy.index.Consistent)
    (signed : Word.isSigned r.policy.budget = true) (unreturned : choice? h r = none) :
    s.policy.selection.best = none := by
  by_contra hbest
  obtain ⟨id, hid⟩ := Option.ne_none_iff_exists'.mp hbest
  obtain ⟨site, callee, t, spends⟩ := exists_spends hix signed selects hid
  rw [choice?, spends.returned] at unreturned
  cases unreturned

/-- The books after a step that returns nothing, also where it fails. -/
theorem opens_of_step (hix : r.policy.index.Consistent)
    (signed : Word.isSigned r.policy.budget = true) (unreturned : choice? h r = none) :
    r.policy.Opens (measured? h r) ((step h).after r).policy := by
  have hopens := opens_of_account h signed
  rw [Update.after] at hopens ⊢
  rw [step_apply]
  cases hfinished : r.policy.finished with
  | true =>
    rw [measured?, if_pos hfinished]
    exact .of_eq signed rfl rfl
  | false =>
    simp only [Bool.false_eq_true, if_false]
    cases haccount : account h r.tick with
    | error e s =>
      rw [haccount] at hopens
      simpa only [measured?, hfinished, haccount, Bool.false_eq_true, if_false] using hopens
    | ok _ s =>
      have hbest := (Selects.first hfinished haccount).best_eq_none hix signed unreturned
      simp only [pickOrFallBack_apply, hbest]
      cases hnever : s.policy.limits.neverOptimize with
      | true =>
        obtain ⟨n, hfinish⟩ := finish_apply h (s.noted h)
        rw [haccount] at hopens
        rw [measured?_eq_none haccount (.inr hnever)]
        simp only [if_true, hfinish]
        exact ⟨hopens.budget, hopens.size⟩
      | false =>
        have hopens := opens_of_fallBack signed hfinished haccount hbest hnever
        rw [Update.after] at hopens
        simp only [Bool.false_eq_true, if_false]
        cases hfallBack : fallBack h (s.noted h) with
        | error e t => simpa only [hfallBack] using hopens
        | ok _ t =>
          have hbest' := (Selects.again hfinished haccount hbest hnever hfallBack).best_eq_none
            hix signed unreturned
          obtain ⟨n, hfinish⟩ := finish_apply h (t.noted h)
          rw [hfallBack] at hopens
          simp only [hbest', hfinish]
          exact ⟨hopens.budget, hopens.size⟩

/-- A step that returns a call site spends its cost. -/
theorem exists_spends_of_step {site : CallSite} (hix : r.policy.index.Consistent)
    (signed : Word.isSigned r.policy.budget = true) (returned : step h r = .ok (some site) t) :
    ∃ s callee, Spends h r s site callee t ∧ cost? h r = some callee.size := by
  obtain ⟨s, id, call, selects, best, -, -⟩ := exists_adopt_of_step returned
  obtain ⟨site', callee, t', spends⟩ := exists_spends hix signed selects best
  cases spends.returned.symm.trans returned
  exact ⟨s, callee, spends, spends.cost?_eq best⟩

end Run

namespace Policy

variable {start p q : Policy}

/-! ### Requests -/

/-- The figures that a request brings into the books. Reports bring none. -/
def bill (p : Policy) : Request → Bill
  | .step h host => { measured := Run.measured? h ⟨p, host⟩, cost := Run.cost? h ⟨p, host⟩ }
  | .report _ => {}

/-- Nothing is cut in requests, one after the other. -/
def UncutAll (p : Policy) : List Request → Prop
  | [] => True
  | request :: rest => p.Uncut (p.bill request) ∧ (p.serve request).UncutAll rest

instance decidableUncutAll : (p : Policy) → (requests : List Request) →
    Decidable (p.UncutAll requests)
  | _, [] => .isTrue trivial
  | p, request :: rest =>
    have := decidableUncutAll (p.serve request) rest
    inferInstanceAs (Decidable (_ ∧ _))

/-- **A request changes the books by its bill and by nothing else**, also where it fails. -/
theorem settles (hix : p.index.Consistent) (signed : Word.isSigned p.budget = true)
    (request : Request) : p.Settles (p.bill request) (p.serve request) := by
  cases request with
  | report copies =>
    obtain ⟨all, hafter⟩ := after_report copies p
    rw [serve, hafter]
    exact .nothing (.of_eq signed rfl rfl)
  | step h host =>
    cases hchoice : Run.choice? h ⟨p, host⟩ with
    | none =>
      have hcost : Run.cost? h ⟨p, host⟩ = none := by rw [Run.cost?, hchoice, Option.bind_none]
      rw [bill, hcost]
      exact .nothing (Run.opens_of_step hix signed hchoice)
    | some c =>
      rw [Run.choice?] at hchoice
      rw [bill, serve, Update.after]
      split at hchoice
      case h_1 site t returned =>
        obtain ⟨s, callee, spends, hcost⟩ := Run.exists_spends_of_step hix signed returned
        rw [hcost, returned]
        exact .charged spends.opens spends.affordable spends.budget spends.size
      all_goals cases hchoice

/-! ### The sum at all times -/

/-- The size and the budget at the start are kept. -/
theorem Entry.initial_eq (entry : Entry p q) :
    q.initialSize = p.initialSize ∧ q.initialBudget = p.initialBudget := by
  cases entry with
  | counted | reported | dropped | remeasured | renewed | finished => exact ⟨rfl, rfl⟩
  | @accounted id _ done ix =>
    have hplain := plain_recordRedistribution
      { p with pending := none, copies := [], index := ix } done
    exact ⟨(congrArg Policy.initialSize hplain :), (congrArg Policy.initialBudget hplain :)⟩
  | adopted _ adopted =>
    obtain ⟨callee, -, -, rfl⟩ := adopt_eq_ok adopted
    exact ⟨rfl, rfl⟩
  | refused _ adopted =>
    obtain ⟨rfl | ⟨f, callee, rfl⟩, -⟩ := adopt_eq_error adopted
    · exact ⟨rfl, rfl⟩
    · exact ⟨rfl, rfl⟩

theorem serveAll_initial_eq (p : Policy) (requests : List Request) :
    (p.serveAll requests).initialSize = p.initialSize ∧
      (p.serveAll requests).initialBudget = p.initialBudget :=
  invariant_of_entries (P := fun q => q.initialSize = p.initialSize ∧
      q.initialBudget = p.initialBudget)
    (fun entry hp => ⟨entry.initial_eq.1.trans hp.1, entry.initial_eq.2.trans hp.2⟩)
    (serveAll_entries p requests) ⟨rfl, rfl⟩

/-- The budget is a word at all times, and the sum stays as it is while nothing is cut. -/
theorem serveAll_sum (hix : p.index.Consistent) (signed : Word.isSigned p.budget = true)
    (requests : List Request) :
    (p.serveAll requests).index.Consistent ∧
    Word.isSigned (p.serveAll requests).budget = true ∧
    (p.UncutAll requests →
      (p.serveAll requests).budget + (p.serveAll requests).size = p.budget + p.size) := by
  induction requests generalizing p with
  | nil => exact ⟨hix, signed, fun _ => rfl⟩
  | cons request rest ih =>
    have hsettles := settles hix signed request
    obtain ⟨hix', hsigned, hsum⟩ := ih (consistent_serve hix request) hsettles.isSigned
    refine ⟨hix', hsigned, ?_⟩
    rintro ⟨uncut, uncutRest⟩
    exact (hsum uncutRest).trans (hsettles.sum_eq_iff.mpr uncut)

/-- **The budget and the size add up to the same at all times.** Let a policy be set up and asked
for anything, in any order and on any hosts, whether or not it succeeds. As long as no budget after
a measurement and no size after an inline had to be cut to a word, what is left of the budget and
the size together are what they were at the start. Whether or not anything was cut before, whatever
a step selects is returned; the size of its callee and what it leaves of the budget are words, and
the budget goes down by exactly that size. -/
theorem budget_add_size {σ : Type} {h : Host σ} {limits : Limits} {oracle : Oracle}
    {host host' : σ} (prepared : prepare h limits oracle host = .ok start host')
    (requests : List Request) :
    let p := start.serveAll requests
    (p.initialSize = start.initialSize ∧ p.initialBudget = start.initialBudget) ∧
    (start.UncutAll requests →
      p.budget + p.size = min (p.initialBudget : Int) Word.greatest + p.initialSize) ∧
    ∀ {τ : Type} (h : Host τ) (r : Run τ), r.policy = p →
      (∀ s id, Run.Selects h r s → s.policy.selection.best = some id →
        ∃ site callee t, Run.Spends h r s site callee t) ∧
      ∀ site t, Run.step h r = .ok (some site) t → ∃ s callee, Run.Spends h r s site callee t := by
  intro p
  have hix : start.index.Consistent := Led.consistent prepared .start
  have hinitial := serveAll_initial_eq start requests
  obtain ⟨measured, _, ix, -, rfl⟩ := exists_build_of_prepare prepared
  have hsigned : Word.isSigned (Policy.start limits measured ix).budget = true := by
    rw [Word.isSigned_iff]
    change Word.least ≤ min (limits.budget measured : Int) Word.greatest ∧
      min (limits.budget measured : Int) Word.greatest ≤ Word.greatest
    have hleast : Word.least ≤ 0 := by decide
    have hgreatest : 0 ≤ Word.greatest := by decide
    omega
  obtain ⟨hix', hsigned', hsum⟩ := serveAll_sum hix hsigned requests
  refine ⟨hinitial, fun uncut => ?_, fun h r hr => ⟨fun s id selects best => ?_, ?_⟩⟩
  · rw [hinitial.1, hinitial.2]
    exact hsum uncut
  · exact Run.exists_spends (hr ▸ hix') (hr ▸ hsigned') selects best
  · intro site t returned
    obtain ⟨s, callee, spends, -⟩ := Run.exists_spends_of_step (hr ▸ hix') (hr ▸ hsigned') returned
    exact ⟨s, callee, spends⟩

/-- A host that reports a size of its own and has no profile. -/
def erraticHost (reported : Nat) : Host Workspace :=
  { Workspace.host 4 with
    measure := fun w => (reported, w)
    profile := fun w => .error (.host (.reported "no profile")) w }

/-- Two steps, of which the second needs the optimizer, and one with a host for which the program
has grown and that fails after it said so. -/
def erraticRequests : List Request :=
  [.step (Workspace.host 4) { program := Program.echo }, .report [],
    .step (Workspace.host 4) { program := Program.echo },
    .step (erraticHost 9) { program := Program.echo }]

/-- The host drives the budget below zero, and still it adds up to six with the size. Before that a
call site is returned after the optimizer ran, which made room for it again. -/
theorem budget_add_size_erratic : ∃ start w',
    prepare (Workspace.host 4) { Limits.sixfold with neverOptimize := false }
      (Program.echo.profile 4).oracle { program := Program.echo } = .ok start w' ∧
    start.UncutAll erraticRequests ∧ (start.choices erraticRequests).length = 2 ∧
    start.initialBudget = 5 ∧ start.initialSize = 1 ∧
    (start.serveAll erraticRequests).size = 9 ∧ (start.serveAll erraticRequests).budget = -3 := by
  obtain ⟨start, w', prepared⟩ := exists_prepare_eq_ok (w := { program := Program.echo })
    Program.built_echo.wellFormed 4 4 { Limits.sixfold with neverOptimize := false }
  have hrun : ((prepare (Workspace.host 4) { Limits.sixfold with neverOptimize := false }
      (Program.echo.profile 4).oracle).outcome { program := Program.echo }).toOption.any
        fun start => start.UncutAll erraticRequests ∧
          (start.choices erraticRequests).length = 2 ∧
          start.initialBudget = 5 ∧ start.initialSize = 1 ∧
          (start.serveAll erraticRequests).size = 9 := by
    decide +kernel
  simp only [Update.outcome, prepared] at hrun
  obtain ⟨huncut, hchoices, hbudget, hsize, hmeasured⟩ := of_decide_eq_true hrun
  obtain ⟨⟨hsize', hbudget'⟩, hsum, -⟩ := budget_add_size prepared erraticRequests
  refine ⟨start, w', prepared, huncut, hchoices, hbudget, hsize, hmeasured, ?_⟩
  have hgreatest : min (5 : Int) Word.greatest = 5 := by decide
  have hsix := hsum huncut
  rw [hmeasured, hbudget', hbudget, hsize', hsize] at hsix
  omega

end Policy

end Inlining
