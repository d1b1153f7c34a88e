import Inlining.Proofs.Policy.Upkeep
import Inlining.Proofs.Selection

/-!
# The choice of a call site

Of the call sites that pass the checks the best one is chosen: it runs most often, and of several
such it has the least location. Numbers play no part in this. Two indexes that hold the same
functions and the same records lead to the same choice, in whatever order and in whatever batches
the records were added, although the number under which the call site is found may differ.

Wider limits never turn a call site down that narrower ones let pass. What is chosen under them runs
at least as often. This needs nothing of an index, not even that its views agree.

## Main definitions

* `SiteIndex.SameContents` — indexes that differ in the numbers of their records at most
* `Selection.chosen` — the record of the call site that is chosen

## Main results

* `Selection.chosen_eq_some` — the record chosen is the best one
* `Selection.best_is_constrained_argmax` — what is chosen, and that numbers play no part in it
* `Selection.wider_limits_choose_no_less` — what wider limits do
-/

namespace Inlining

/-- The indexes hold the same functions and the same records. Records may have other numbers, and
then the views differ as well. -/
structure SiteIndex.SameContents (ix jx : SiteIndex) : Prop where
  figures : ∀ f, (ix.function? f).map FunctionRecord.figures =
    (jx.function? f).map FunctionRecord.figures
  records : ∀ r, r ∈ ix.records ↔ r ∈ jx.records

namespace Selection

variable {s t : Selection} {ix : SiteIndex} {id : SiteId} {r : SiteRecord}

/-! ### Numbers play no part -/

/-- The record of the call site that is chosen. -/
def chosen (s : Selection) : Option SiteRecord := s.best.bind s.index.record?

theorem chosen_eq_some (hix : s.index.Consistent) :
    s.chosen = some r ↔ r ∈ s.index.records ∧ s.IsBest r := by
  simp only [chosen, Option.bind_eq_some_iff, best_eq_some_iff hix, SiteIndex.mem_records]
  constructor
  · rintro ⟨id, ⟨r', hr', hbest⟩, hr⟩
    cases hr'.symm.trans hr
    exact ⟨⟨id, hr⟩, hbest⟩
  · rintro ⟨⟨id, hr⟩, hbest⟩
    exact ⟨id, ⟨r, hr, hbest⟩, hr⟩

/-- The checks look at the figures of the callee only. -/
theorem check_congr (same : ix.SameContents s.index) (r : SiteRecord) :
    { s with index := ix }.check r = s.check r := by
  have hfigures := same.figures r.callee
  rw [check, check]
  cases hi : ix.function? r.callee with
  | none =>
    rw [hi, Option.map_none, eq_comm, Option.map_eq_none_iff] at hfigures
    rw [hfigures]
  | some record =>
    rw [hi, Option.map_some] at hfigures
    obtain ⟨record', hs, heq⟩ := Option.map_eq_some_iff.mp hfigures.symm
    have hsize : record'.figures.size = record.figures.size := by rw [heq]
    have hrecursive : record'.figures.recursive = record.figures.recursive := by rw [heq]
    change record'.size = record.size at hsize
    change record'.recursive = record.recursive at hrecursive
    simp only [hs, hsize, hrecursive]

theorem isBest_congr (same : ix.SameContents s.index) :
    { s with index := ix }.IsBest r ↔ s.IsBest r := by
  constructor
  · rintro ⟨hpasses, hmost, hfirst⟩
    simp only [check_congr same, same.records] at hpasses hmost hfirst
    exact ⟨hpasses, hmost, hfirst⟩
  · rintro ⟨hpasses, hmost, hfirst⟩
    refine ⟨?_, ?_, ?_⟩ <;> simpa only [check_congr same, same.records]

theorem chosen_congr (hs : s.index.Consistent) (hix : ix.Consistent)
    (same : ix.SameContents s.index) : { s with index := ix }.chosen = s.chosen := by
  refine Option.ext fun r => ?_
  rw [chosen_eq_some hs, chosen_eq_some (s := { s with index := ix }) hix, isBest_congr same,
    same.records]

/-- **The best call site is chosen.** Nothing is chosen exactly if no call site passes the checks.
Otherwise the call site is chosen that passes them and runs at least as often as all that do, and
that has the least location of those that run as often. Another index with the same functions and
the same records leads to the same choice. -/
theorem best_is_constrained_argmax (kept : s.index.Kept) :
    (s.best = none ↔ ∀ r ∈ s.index.records, s.check r ≠ none) ∧
    (∀ id, s.best = some id ↔ ∃ r, s.index.record? id = some r ∧ s.check r = none ∧
      ∀ r' ∈ s.index.records, s.check r' = none → r'.frequency ≤ r.frequency ∧
        (r'.frequency = r.frequency → (compare r.location r'.location).isLE)) ∧
    ∀ ix : SiteIndex, ix.Kept → ix.SameContents s.index →
      { s with index := ix }.chosen = s.chosen := by
  have hs := kept.consistent
  refine ⟨best_eq_none_iff hs, fun id => ?_, fun ix kept' same => ?_⟩
  · rw [best_eq_some_iff hs]
    constructor
    · rintro ⟨r, hr, hbest⟩
      exact ⟨r, hr, hbest.passes, fun r' hr' hcheck =>
        ⟨hbest.most r' hr' hcheck, hbest.first r' hr' hcheck⟩⟩
    · rintro ⟨r, hr, hpasses, hbest⟩
      exact ⟨r, hr, hpasses, fun r' hr' hcheck => (hbest r' hr' hcheck).1,
        fun r' hr' hcheck => (hbest r' hr' hcheck).2⟩
  · exact chosen_congr hs kept'.consistent same

/-! Three calls of one function that run equally often, added to an index in two ways. -/

/-- The call at the given position of the caller's block. -/
def trioCall (n : Nat) : SiteRecord where
  location := ⟨⟨0⟩, ⟨0⟩, n⟩
  caller := ⟨0⟩
  callee := ⟨1⟩
  frequency := 50

/-- The caller and the callee. -/
def trioFunctions : SiteIndex :=
  (SiteIndex.addFunction ⟨1⟩ { frequency := 100, size := 1, recursive := false }).after
    ((SiteIndex.addFunction ⟨0⟩ { frequency := 100, size := 10, recursive := false }).after
      SiteIndex.empty)

/-- The index with the calls added in one batch. -/
def trio : SiteIndex :=
  (SiteIndex.addSites ⟨0⟩ [trioCall 7, trioCall 2, trioCall 5]).after trioFunctions

/-- The index with the calls added in two batches and another order. -/
def trioInBatches : SiteIndex :=
  (SiteIndex.addSites ⟨0⟩ [trioCall 2]).after
    ((SiteIndex.addSites ⟨0⟩ [trioCall 5, trioCall 7]).after trioFunctions)

/-- A choice among the three calls with enough of a budget. -/
def trioSelection : Selection where
  index := trio
  limits := {
    fraction := 0.2
    absoluteBudget := none
    minimumFrequency := 10
    recursiveLimit := 3
    neverOptimize := false
    noRecursiveInlining := false }
  budget := 100
  recursiveInlines := ∅

theorem sameContents_trio : trioInBatches.SameContents trio := by
  have htrio : trio = [trioCall 7, trioCall 2, trioCall 5].foldl .track trioFunctions := by rfl
  have hbatches : trioInBatches =
      [trioCall 2].foldl .track ([trioCall 5, trioCall 7].foldl .track trioFunctions) := by rfl
  constructor
  · intro f
    rw [htrio, hbatches, SiteIndex.figures_trackAll, SiteIndex.figures_trackAll,
      SiteIndex.figures_trackAll]
  · intro r
    rw [htrio, hbatches, SiteIndex.records_trackAll, SiteIndex.records_trackAll,
      SiteIndex.records_trackAll]
    have hnone : trioFunctions.records = #[] := by rfl
    simp [hnone]
    tauto

theorem best_is_constrained_argmax_trio : trio.Kept ∧ trioInBatches.Kept ∧
    trioInBatches.SameContents trio ∧ trioSelection.best = some ⟨1⟩ ∧
    { trioSelection with index := trioInBatches }.best = some ⟨2⟩ ∧
    { trioSelection with index := trioInBatches }.chosen = some (trioCall 2) := by
  have hfunctions : trioFunctions.Kept := .addFunction _ _ (.addFunction _ _ .empty)
  have htrio : trio.Kept := .addSites _ _ hfunctions
  have hbatches : trioInBatches.Kept := .addSites _ _ (.addSites _ _ hfunctions)
  obtain ⟨-, hbest, hsame⟩ := best_is_constrained_argmax (s := trioSelection) htrio
  have hone : trioSelection.best = some ⟨1⟩ := by
    refine (hbest ⟨1⟩).mpr ⟨trioCall 2, by rfl, by decide +kernel, fun r' hr' _ => ?_⟩
    have hrecords : trioSelection.index.records = #[trioCall 7, trioCall 2, trioCall 5] := by rfl
    rw [hrecords] at hr'
    simp only [List.mem_toArray, List.mem_cons, List.not_mem_nil, or_false] at hr'
    rcases hr' with rfl | rfl | rfl <;> decide
  refine ⟨htrio, hbatches, sameContents_trio, hone, by decide +kernel, ?_⟩
  rw [hsame trioInBatches hbatches sameContents_trio, chosen, hone]
  rfl

/-! ### Wider limits -/

/-- Of what passes the checks nothing runs more often than what is chosen. -/
theorem exists_best_of_mem_eligible (h : (id, r) ∈ s.eligible) :
    ∃ id' r', s.best = some id' ∧ (id', r') ∈ s.eligible ∧ r.frequency ≤ r'.frequency := by
  rcases s.best_cases with ⟨hnil, -⟩ | ⟨before, id', r', behind, hsplit, hsome, hbefore, hbehind⟩
  · rw [hnil] at h
    cases h
  refine ⟨id', r', hsome, by simp [hsplit], ?_⟩
  rw [hsplit] at h
  rcases List.mem_append.mp h with h | h
  · exact (hbefore _ h).le
  · rcases List.mem_cons.mp h with heq | h
    · cases heq
      exact le_rfl
    · exact hbehind _ h

theorem mem_eligible_of_best (h : s.best = some id) : ∃ r, (id, r) ∈ s.eligible := by
  rcases s.best_cases with ⟨-, hnone⟩ | ⟨before, id', r, behind, hsplit, hsome, -⟩
  · cases hnone.symm.trans h
  · cases hsome.symm.trans h
    exact ⟨r, by simp [hsplit]⟩

theorem record?_of_mem_eligible (h : (id, r) ∈ s.eligible) : s.index.record? id = some r :=
  SiteIndex.record?_of_mem_ordered (List.mem_filter.mp h).1

/-- What lets pass more call sites has more to choose from. -/
theorem eligible_subset (same : t.index = s.index)
    (passes : ∀ r, s.check r = none → t.check r = none) : s.eligible ⊆ t.eligible := by
  rintro ⟨id, r⟩ h
  obtain ⟨hmem, hcheck⟩ := List.mem_filter.mp h
  refine List.mem_filter.mpr ⟨same ▸ hmem, ?_⟩
  rw [Option.isNone_iff_eq_none] at hcheck ⊢
  exact passes r hcheck

/-- **Wider limits turn nothing down that passed, and what is chosen under them runs no less
often.** The budget may be larger, from below zero to above it, the minimum smaller, the limit for
recursive functions higher, their inlines so far fewer, and the ban on them lifted, all at once. -/
theorem wider_limits_choose_no_less (same : t.index = s.index) (budget : s.budget ≤ t.budget)
    (minimum : t.limits.minimumFrequency ≤ s.limits.minimumFrequency)
    (limit : s.limits.recursiveLimit ≤ t.limits.recursiveLimit)
    (counts : ∀ f, t.recursiveInlines.getD f 0 ≤ s.recursiveInlines.getD f 0)
    (ban : t.limits.noRecursiveInlining = true → s.limits.noRecursiveInlining = true) :
    (∀ r, s.check r = none → t.check r = none) ∧
    ∀ id, s.best = some id → ∃ r id' r', s.index.record? id = some r ∧ t.best = some id' ∧
      t.index.record? id' = some r' ∧ r.frequency ≤ r'.frequency := by
  have htightens : ∀ f, t.Tightens s f := fun f =>
    ⟨minimum, budget, limit, counts f, ban, fun record hrecord =>
      ⟨record, same ▸ hrecord, le_rfl, rfl⟩⟩
  have hpasses : ∀ r, s.check r = none → t.check r = none := fun r hcheck => by
    obtain ⟨-, -, hlive, -⟩ := check_eq_none_iff.mp hcheck
    exact (htightens r.callee).check_eq_none hcheck rfl hlive le_rfl
  refine ⟨hpasses, fun id hbest => ?_⟩
  obtain ⟨r, hr⟩ := mem_eligible_of_best hbest
  obtain ⟨id', r', hbest', hr', hle⟩ :=
    exists_best_of_mem_eligible (eligible_subset same hpasses hr)
  exact ⟨r, id', r', record?_of_mem_eligible hr, hbest', record?_of_mem_eligible hr', hle⟩

/-! A call of a small function, and a hotter one of a large function that calls itself. -/

/-- The index of the two calls. -/
def duet : SiteIndex :=
  [{ location := ⟨⟨0⟩, ⟨0⟩, 0⟩, caller := ⟨0⟩, callee := ⟨1⟩, frequency := 50 },
    { location := ⟨⟨0⟩, ⟨0⟩, 1⟩, caller := ⟨0⟩, callee := ⟨2⟩, frequency := 90 }].foldl .track
    { SiteIndex.empty with
      functions := SiteIndex.empty.functions
        |>.insert ⟨0⟩ { frequency := 100, size := 2, recursive := false }
        |>.insert ⟨1⟩ { frequency := 50, size := 3, recursive := false }
        |>.insert ⟨2⟩ { frequency := 90, size := 12, recursive := true } }

/-- Limits that only the call of the small function meets. -/
def duetNarrow : Selection where
  index := duet
  limits := {
    fraction := 0.2
    absoluteBudget := none
    minimumFrequency := 40
    recursiveLimit := 1
    neverOptimize := false
    noRecursiveInlining := true }
  budget := 3
  recursiveInlines := Std.ExtTreeMap.insert ∅ ⟨2⟩ 2

/-- Limits that both calls meet. -/
def duetWide : Selection where
  index := duet
  limits := { duetNarrow.limits with
    minimumFrequency := 10
    recursiveLimit := 3
    noRecursiveInlining := false }
  budget := 12
  recursiveInlines := ∅

theorem wider_limits_choose_no_less_duet : duetNarrow.best = some ⟨0⟩ ∧
    duetNarrow.index.records.map (fun r => (duetNarrow.check r).isNone) = #[true, false] ∧
    (∀ r, duetNarrow.check r = none → duetWide.check r = none) ∧
    duetWide.best = some ⟨1⟩ ∧
    ∃ r id' r', duetNarrow.index.record? ⟨0⟩ = some r ∧ duetWide.best = some id' ∧
      duetWide.index.record? id' = some r' ∧ r.frequency ≤ r'.frequency := by
  have hbest : duetNarrow.best = some ⟨0⟩ := by decide +kernel
  have hcounts : ∀ f, duetWide.recursiveInlines.getD f 0 ≤ duetNarrow.recursiveInlines.getD f 0 :=
    fun f => by
      rw [show duetWide.recursiveInlines = ∅ from rfl, Std.ExtTreeMap.getD_empty]
      exact Nat.zero_le _
  obtain ⟨hpasses, hchoice⟩ := wider_limits_choose_no_less (s := duetNarrow) (t := duetWide) rfl
    (by decide) (by decide) (by decide) hcounts (by decide)
  exact ⟨hbest, by decide +kernel, hpasses, by decide +kernel, hchoice ⟨0⟩ hbest⟩

end Selection

end Inlining
