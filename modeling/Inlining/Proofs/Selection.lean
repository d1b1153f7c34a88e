import Inlining.Proofs.SiteIndex.Views
import Inlining.Selection
import Mathlib.Data.List.Induction

/-!
# What is selected

The call site chosen is a tracked one that passes all checks, and it runs at least as often as every
other such call site; of several that run most often it has the least location. Where the limits get
tighter, nothing passes the checks that did not before.

## Main definitions

* `Selection.IsBest` — the call site that ought to be chosen
* `Selection.Tightens` — limits that are at least as tight

## Main results

* `Selection.best_eq_some_iff`, `Selection.best_eq_none_iff` — what is chosen
* `Selection.check_eq_none_iff`, `Selection.Tightens.check_eq_none` — what passes the checks
-/

namespace Inlining

namespace Selection

/-! ### What is chosen -/

/-- Going through a list, the best so far is the first one that runs most often: all before it run
less often, and none behind it runs more often. -/
theorem foldl_better_cases (sites : List (SiteId × SiteRecord)) :
    (sites = [] ∧ sites.foldl better none = none) ∨
      ∃ before c behind, sites = before ++ c :: behind ∧ sites.foldl better none = some c ∧
        (∀ x ∈ before, x.2.frequency < c.2.frequency) ∧
        ∀ x ∈ behind, x.2.frequency ≤ c.2.frequency := by
  induction sites using List.reverseRecOn with
  | nil => exact .inl ⟨rfl, rfl⟩
  | append_singleton sites x ih =>
    refine .inr ?_
    rw [List.foldl_append, List.foldl_cons, List.foldl_nil]
    rcases ih with ⟨rfl, hnone⟩ | ⟨before, c, behind, rfl, hsome, hbefore, hbehind⟩
    · rw [hnone]
      exact ⟨[], x, [], rfl, rfl, by simp, by simp⟩
    · rw [hsome, better]
      by_cases hlt : c.2.frequency < x.2.frequency
      · -- The new one is best, and all others are before it.
        refine ⟨before ++ c :: behind, x, [], rfl, if_pos hlt, fun y hy => ?_, by simp⟩
        rcases List.mem_append.mp hy with hy | hy
        · exact Nat.lt_trans (hbefore y hy) hlt
        · rcases List.mem_cons.mp hy with rfl | hy
          · exact hlt
          · exact Nat.lt_of_le_of_lt (hbehind y hy) hlt
      · refine ⟨before, c, behind ++ [x], by simp, if_neg hlt, hbefore, ?_⟩
        exact List.forall_mem_append.mpr ⟨hbehind, by simpa using hlt⟩

/-- Of the call sites that pass the checks the first one that runs most often is chosen. -/
theorem best_cases (s : Selection) :
    (s.eligible = [] ∧ s.best = none) ∨
      ∃ before id r behind, s.eligible = before ++ (id, r) :: behind ∧ s.best = some id ∧
        (∀ x ∈ before, x.2.frequency < r.frequency) ∧
        ∀ x ∈ behind, x.2.frequency ≤ r.frequency := by
  rw [best]
  refine (foldl_better_cases s.eligible).imp (fun ⟨hnil, hnone⟩ => ⟨hnil, by rw [hnone]; rfl⟩) ?_
  rintro ⟨before, ⟨id, r⟩, behind, hsplit, hsome, hmost⟩
  exact ⟨before, id, r, behind, hsplit, by rw [hsome]; rfl, hmost⟩

/-- A call site passes all checks, and of those that do it runs most often; of several such it has
the least location. -/
structure IsBest (s : Selection) (r : SiteRecord) : Prop where
  passes : s.check r = none
  most : ∀ r' ∈ s.index.records, s.check r' = none → r'.frequency ≤ r.frequency
  first : ∀ r' ∈ s.index.records, s.check r' = none → r'.frequency = r.frequency →
    (compare r.location r'.location).isLE

variable {s : Selection} {id : SiteId} {r : SiteRecord}

theorem mem_eligible (hix : s.index.Consistent) :
    (id, r) ∈ s.eligible ↔ s.index.record? id = some r ∧ s.check r = none := by
  rw [eligible, List.mem_filter, hix.mem_ordered]
  simp

theorem ascending_eligible (hix : s.index.Consistent) :
    s.eligible.Pairwise fun a b => compare a.2.location b.2.location = .lt :=
  hix.ascending_ordered.filter _

/-- There is one best call site at most. -/
theorem IsBest.location_eq {r' : SiteRecord} (h : s.IsBest r) (h' : s.IsBest r')
    (hr : r ∈ s.index.records) (hr' : r' ∈ s.index.records) : r.location = r'.location := by
  have hfrequency : r'.frequency = r.frequency :=
    Nat.le_antisymm (h.most r' hr' h'.passes) (h'.most r hr h.passes)
  have hle := h.first r' hr' h'.passes hfrequency
  have hge := h'.first r hr h.passes hfrequency.symm
  exact Std.compare_eq_iff_eq.mp (Std.OrientedCmp.isLE_antisymm hle hge)

/-- The call site that is chosen is the best one. -/
theorem isBest_of_best (hix : s.index.Consistent) (hbest : s.best = some id) :
    ∃ r, s.index.record? id = some r ∧ s.IsBest r := by
  rcases s.best_cases with ⟨-, hnone⟩ | ⟨before, id', r, behind, hsplit, hsome, hbefore, hbehind⟩
  · rw [hnone] at hbest
    cases hbest
  cases hsome.symm.trans hbest
  obtain ⟨hrecord, hpassed⟩ := (mem_eligible hix).mp (show (id, r) ∈ s.eligible by simp [hsplit])
  have hcases : ∀ r' ∈ s.index.records, s.check r' = none →
      r'.frequency < r.frequency ∨ r' = r ∨
        r'.frequency ≤ r.frequency ∧ compare r.location r'.location = .lt := by
    intro r' hr' hcheck
    obtain ⟨id', hid'⟩ := SiteIndex.mem_records.mp hr'
    have hmem := (mem_eligible hix).mpr ⟨hid', hcheck⟩
    have hascending := ascending_eligible hix
    rw [hsplit] at hmem hascending
    rcases List.mem_append.mp hmem with hmem | hmem
    · exact .inl (hbefore _ hmem)
    · rcases List.mem_cons.mp hmem with heq | hmem
      · exact .inr (.inl (congrArg Prod.snd heq))
      · have hlt := (List.pairwise_cons.mp (List.pairwise_append.mp hascending).2.1).1 _ hmem
        exact .inr (.inr ⟨hbehind _ hmem, hlt⟩)
  refine ⟨r, hrecord, hpassed, fun r' hr' hcheck => ?_, fun r' hr' hcheck heq => ?_⟩
  · rcases hcases r' hr' hcheck with hlt | rfl | ⟨hle, -⟩
    · exact Nat.le_of_lt hlt
    · exact Nat.le_refl _
    · exact hle
  · rcases hcases r' hr' hcheck with hlt | rfl | ⟨-, hlt⟩
    · exact absurd heq (Nat.ne_of_lt hlt)
    · exact Std.ReflCmp.isLE_rfl
    · rw [hlt]
      rfl

theorem best_eq_none_iff (hix : s.index.Consistent) :
    s.best = none ↔ ∀ r ∈ s.index.records, s.check r ≠ none := by
  rcases s.best_cases with ⟨hnil, hnone⟩ | ⟨before, id, r, behind, hsplit, hsome, -⟩
  · refine iff_of_true hnone fun r hr hcheck => ?_
    obtain ⟨id, hid⟩ := SiteIndex.mem_records.mp hr
    have hmem := (mem_eligible hix).mpr ⟨hid, hcheck⟩
    rw [hnil] at hmem
    cases hmem
  · rw [hsome]
    refine iff_of_false (Option.some_ne_none id) fun hall => ?_
    obtain ⟨hrecord, hpassed⟩ := (mem_eligible hix).mp (show (id, r) ∈ s.eligible by simp [hsplit])
    exact hall r (SiteIndex.mem_records.mpr ⟨id, hrecord⟩) hpassed

theorem best_eq_some_iff (hix : s.index.Consistent) :
    s.best = some id ↔ ∃ r, s.index.record? id = some r ∧ s.IsBest r := by
  refine ⟨isBest_of_best hix, fun ⟨r, hr, hbest⟩ => ?_⟩
  have hmem := SiteIndex.mem_records.mpr ⟨id, hr⟩
  cases hchosen : s.best with
  | none => exact absurd hbest.passes ((best_eq_none_iff hix).mp hchosen r hmem)
  | some id' =>
    obtain ⟨r', hr', hbest'⟩ := isBest_of_best hix hchosen
    have hlocation := hbest'.location_eq hbest (SiteIndex.mem_records.mpr ⟨id', hr'⟩) hmem
    rw [hix.id_eq hr' hr hlocation]

/-- A call site that is chosen passes all checks and runs most often of those that do. -/
theorem best_eq_some (hix : s.index.Consistent) (hbest : s.best = some id) :
    ∃ r, s.index.record? id = some r ∧ s.check r = none ∧
      ∀ id' r', s.index.record? id' = some r' → s.check r' = none → r'.frequency ≤ r.frequency := by
  obtain ⟨r, hr, h⟩ := isBest_of_best hix hbest
  exact ⟨r, hr, h.passes, fun id' r' hr' => h.most r' (SiteIndex.mem_records.mpr ⟨id', hr'⟩)⟩

/-- Where nothing is chosen, nothing passes the checks. -/
theorem check_of_best_eq_none (hix : s.index.Consistent) (hbest : s.best = none)
    (hr : s.index.record? id = some r) : s.check r ≠ none :=
  (best_eq_none_iff hix).mp hbest r (SiteIndex.mem_records.mpr ⟨id, hr⟩)

/-! ### What passes the checks -/

/-- What a call site has to satisfy to pass all checks. -/
theorem check_eq_none_iff : s.check r = none ↔
    ∃ callee, s.index.function? r.callee = some callee ∧ r.inlined = false ∧
      s.limits.minimumFrequency ≤ r.frequency ∧ (callee.size : Int) ≤ s.budget ∧
      (callee.recursive = true → s.recursiveInlines.getD r.callee 0 < s.limits.recursiveLimit ∧
        s.limits.noRecursiveInlining = false) := by
  rw [check]
  cases s.index.function? r.callee with
  | none => simp
  | some callee =>
    simp only [Option.some.injEq, exists_eq_left']
    cases r.inlined
    case true => simp
    case false =>
      simp only [Bool.false_eq_true, if_false, true_and]
      by_cases hfrequency : r.frequency < s.limits.minimumFrequency
      · simp [hfrequency, Nat.not_le.mpr hfrequency]
      · by_cases hbudget : s.budget < callee.size
        · simp [hfrequency, hbudget, Int.not_le.mpr hbudget]
        · have hpassed : s.limits.minimumFrequency ≤ r.frequency ∧ (callee.size : Int) ≤ s.budget :=
            ⟨Nat.le_of_not_lt hfrequency, Int.le_of_not_gt hbudget⟩
          simp only [hfrequency, hbudget, if_false, hpassed, true_and, ← Nat.not_le]
          by_cases hlimit : s.limits.recursiveLimit ≤ s.recursiveInlines.getD r.callee 0 <;>
            cases callee.recursive <;> cases s.limits.noRecursiveInlining <;> simp [hlimit]

/-- What a call site that is chosen satisfies. -/
theorem fits_of_best {callee : FunctionRecord} (hix : s.index.Consistent)
    (best : s.best = some id) (record : s.index.record? id = some r)
    (function : s.index.function? r.callee = some callee) :
    r.inlined = false ∧ s.limits.minimumFrequency ≤ r.frequency ∧ (callee.size : Int) ≤ s.budget ∧
      (callee.recursive = true → s.recursiveInlines.getD r.callee 0 < s.limits.recursiveLimit ∧
        s.limits.noRecursiveInlining = false) := by
  obtain ⟨_, hr, hcheck, -⟩ := best_eq_some hix best
  cases hr.symm.trans record
  obtain ⟨_, hcallee, hfits⟩ := check_eq_none_iff.mp hcheck
  cases hcallee.symm.trans function
  exact hfits

/-- For calls of a function the second choice is bound by limits that are at least as tight as those
of the first. -/
structure Tightens (s t : Selection) (f : FunctionId) : Prop where
  minimum : s.limits.minimumFrequency ≤ t.limits.minimumFrequency
  budget : t.budget ≤ s.budget
  limit : t.limits.recursiveLimit ≤ s.limits.recursiveLimit
  count : s.recursiveInlines.getD f 0 ≤ t.recursiveInlines.getD f 0
  disabled : s.limits.noRecursiveInlining = true → t.limits.noRecursiveInlining = true
  function : ∀ record', t.index.function? f = some record' → ∃ record,
    s.index.function? f = some record ∧ record.size ≤ record'.size ∧
      record.recursive = record'.recursive

/-- What passes the tighter checks passes the others, and so does a call of the same function that
runs more often. -/
theorem Tightens.check_eq_none {s t : Selection} {r r' : SiteRecord} (h : s.Tightens t r.callee)
    (hcheck : t.check r' = none) (hcallee : r'.callee = r.callee) (hlive : r.inlined = false)
    (hfrequency : r'.frequency ≤ r.frequency) : s.check r = none := by
  obtain ⟨callee', hcallee', -, hminimum, hbudget, hrecursive⟩ := check_eq_none_iff.mp hcheck
  rw [hcallee] at hcallee' hrecursive
  obtain ⟨callee, heq, hsize, hflag⟩ := h.function _ hcallee'
  refine check_eq_none_iff.mpr ⟨callee, heq, hlive, ?_, ?_, fun hflagged => ?_⟩
  · exact Nat.le_trans (Nat.le_trans h.minimum hminimum) hfrequency
  · have := h.budget
    omega
  · obtain ⟨hcount, hallowed⟩ := hrecursive (hflag ▸ hflagged)
    refine ⟨?_, ?_⟩
    · exact Nat.lt_of_lt_of_le (Nat.lt_of_le_of_lt h.count hcount) h.limit
    · rw [← Bool.not_eq_true]
      intro hdisabled
      rw [h.disabled hdisabled] at hallowed
      cases hallowed

end Selection

end Inlining
