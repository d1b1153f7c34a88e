import Inlining.Proofs.Policy.Upkeep

/-!
# Batches are taken whole or not at all

Call sites are added to an index in batches. A batch is looked through from its first record to its
last, against the index and against the records before, and then every record is put into the arena
and into both views without another look. So all depends on the check: what it lets through must be
safe to put in, and where it objects nothing may have been touched.

A batch is `SiteIndex.Admissible` if its calls stand in the body of the function that they are
added to, at different places that are free. This is what the check finds out, and where it objects
it does so to the first record that spoils an admissible beginning, `SiteIndex.FirstFlaw`.

None of this depends on how the index came about, so it is said of every index there is.

## Main definitions

* `SiteIndex.Admissible` — the batches that can be taken
* `SiteIndex.Flaw`, `SiteIndex.FirstFlaw` — what is wrong with a record, and with a batch
* `SiteIndex.Gains` — an index after it took a batch

## Main results

* `SiteIndex.objection?_eq_some` — the check objects to the first flaw
* `SiteIndex.view_trackAll` — a view has the records of a batch under their locations
* `SiteIndex.addSites_atomic` — when a batch is taken, what becomes of it, and what is reported
-/

namespace Inlining

namespace SiteIndex

/-- The number of the call at a location, in the view of a function. -/
def siteWithin? (ix : SiteIndex) (f : FunctionId) (l : Location) : Option SiteId :=
  (ix.function? f).bind fun record => record.sites[l]?

/-- The locations of a batch, in order. -/
def places (batch : List SiteRecord) : List Location := batch.map fun r => r.location

/-- The batch can be taken: its calls stand in the function's body, at different places that are
free. -/
structure Admissible (ix : SiteIndex) (caller : FunctionId) (batch : List SiteRecord) : Prop where
  own : ∀ r ∈ batch, r.caller = caller
  free : ∀ r ∈ batch, ix.siteAt? r.location = none
  distinct : (places batch).Nodup

/-- What is wrong with a record that comes after others in a batch. That it stands in a foreign body
is noticed before that its place is taken, by a call of the index or by one of the batch. -/
inductive Flaw (ix : SiteIndex) (caller : FunctionId) (before : List SiteRecord) (r : SiteRecord) :
    Error → Prop
  | foreign (other : r.caller ≠ caller) :
      Flaw ix caller before r (.inconsistent (.foreignSite r.location r.caller caller))
  | taken (own : r.caller = caller)
      (taken : (ix.siteAt? r.location).isSome ∨ r.location ∈ places before) :
      Flaw ix caller before r (.trackedLocation r.location)

/-- The first thing that is wrong with a batch: all is well up to some record. -/
def FirstFlaw (ix : SiteIndex) (caller : FunctionId) (batch : List SiteRecord) (e : Error) : Prop :=
  ∃ before r after, batch = before ++ r :: after ∧ ix.Admissible caller before ∧
    ix.Flaw caller before r e

/-- The second index is the first one with a batch of calls added to a function, under the given
numbers. -/
structure Gains (ix ix' : SiteIndex) (caller : FunctionId) (batch : List SiteRecord)
    (ids : List SiteId) : Prop where
  /-- Numbers go on from those that were given out, in the order of the batch. -/
  numbers : ids = (List.range batch.length).map fun n => ⟨ix.records.size + n⟩
  records : ix'.records = ix.records ++ batch
  /-- Both views have a record under its own location. -/
  found : ∀ (n : Nat) (r : SiteRecord), batch[n]? = some r →
    ix'.siteAt? r.location = ids[n]? ∧ ix'.siteWithin? caller r.location = ids[n]?
  /-- At all other places the views are as they were. -/
  others : ∀ l, l ∉ places batch →
    ix'.siteAt? l = ix.siteAt? l ∧ ix'.siteWithin? caller l = ix.siteWithin? caller l
  functions : ∀ f, f ≠ caller → ix'.function? f = ix.function? f
  figures : (ix'.function? caller).map FunctionRecord.figures =
    (ix.function? caller).map FunctionRecord.figures
  generation : ix'.generation = ix.generation

variable {ix : SiteIndex} {caller : FunctionId} {batch before : List SiteRecord} {r : SiteRecord}
  {e : Error}

/-! ### The check -/

theorem siteAt?_eq_none {l : Location} : ix.siteAt? l = none ↔ l ∉ ix.sites := by
  rw [siteAt?, Std.ExtTreeMap.mem_iff_isSome_getElem?, Option.not_isSome_iff_eq_none]

theorem objection?_eq_none_iff_admissible :
    ix.objection? caller [] batch = none ↔ ix.Admissible caller batch := by
  rw [objection?_eq_none]
  constructor
  · rintro ⟨hall, hpair⟩
    refine ⟨fun r hr => (hall r hr).1, fun r hr => siteAt?_eq_none.mpr (hall r hr).2.1, ?_⟩
    exact List.pairwise_map.mpr hpair
  · rintro ⟨own, free, distinct⟩
    refine ⟨fun r hr => ?_, List.pairwise_map.mp distinct⟩
    exact ⟨own r hr, siteAt?_eq_none.mp (free r hr), List.not_mem_nil⟩

/-- A batch is checked part by part, the later part against the locations of the earlier one. -/
theorem objection?_append (ix : SiteIndex) (caller : FunctionId) (earlier : List Location)
    (batch more : List SiteRecord) : ix.objection? caller earlier (batch ++ more) =
      (ix.objection? caller earlier batch).or
        (ix.objection? caller ((places batch).reverse ++ earlier) more) := by
  induction batch generalizing earlier with
  | nil => rfl
  | cons r rest ih =>
    rw [List.cons_append, objection?, objection?]
    by_cases hcaller : r.caller ≠ caller
    · rw [if_pos hcaller, if_pos hcaller, Option.some_or]
    · rw [if_neg hcaller, if_neg hcaller]
      split
      · rw [Option.some_or]
      · rw [ih, places, places, List.map_cons, List.reverse_cons, List.append_assoc,
          List.singleton_append]

/-- What the check has to say to a single record. -/
theorem objection?_singleton_eq_some :
    ix.objection? caller ((places before).reverse ++ []) [r] = some e ↔
      ix.Flaw caller before r e := by
  have htaken : (r.location ∈ ix.sites || ((places before).reverse ++ []).contains
      r.location) = true ↔
        (ix.siteAt? r.location).isSome ∨ r.location ∈ places before := by
    rw [Bool.or_eq_true, decide_eq_true_eq, List.append_nil, List.contains_iff_mem,
      List.mem_reverse, siteAt?, Std.ExtTreeMap.mem_iff_isSome_getElem?]
  rw [objection?, objection?]
  by_cases hcaller : r.caller ≠ caller
  · rw [if_pos hcaller, Option.some.injEq]
    constructor
    · rintro rfl
      exact .foreign hcaller
    · rintro (_ | ⟨own, -⟩)
      · rfl
      · exact absurd own hcaller
  · rw [if_neg hcaller]
    by_cases h : (ix.siteAt? r.location).isSome ∨ r.location ∈ places before
    · rw [if_pos (htaken.mpr h), Option.some.injEq]
      constructor
      · rintro rfl
        exact .taken (not_not.mp hcaller) h
      · rintro (⟨other⟩ | _)
        · exact absurd other hcaller
        · rfl
    · rw [if_neg (mt htaken.mp h)]
      refine iff_of_false (fun hnone => by cases hnone) ?_
      rintro (⟨other⟩ | ⟨-, taken⟩)
      · exact hcaller other
      · exact h taken

/-- **The check objects to the first flaw**, and to nothing else. -/
theorem objection?_eq_some :
    ix.objection? caller [] batch = some e ↔ ix.FirstFlaw caller batch e := by
  constructor
  · -- From the back: the last record is to blame if there is no objection to those before it.
    induction batch using List.reverseRecOn with
    | nil => exact fun hnil => by cases hnil
    | append_singleton rest r ih =>
      rw [objection?_append]
      cases hrest : ix.objection? caller [] rest with
      | some e' =>
        intro h
        obtain ⟨before, s, after, rfl, hbefore, hflaw⟩ := ih (hrest.trans h)
        exact ⟨before, s, after ++ [r], by simp, hbefore, hflaw⟩
      | none =>
        intro h
        exact ⟨rest, r, [], rfl, objection?_eq_none_iff_admissible.mp hrest,
          objection?_singleton_eq_some.mp h⟩
  · rintro ⟨before, r, after, rfl, hbefore, hflaw⟩
    rw [objection?_append, objection?_eq_none_iff_admissible.mpr hbefore, Option.none_or,
      ← List.singleton_append, objection?_append, objection?_singleton_eq_some.mpr hflaw,
      Option.some_or]

/-! ### The views after a batch -/

theorem siteWithin?_track (hcaller : r.caller ∈ ix.functions) (l : Location) :
    (ix.track r).siteWithin? r.caller l =
      if r.location = l then some ⟨ix.records.size⟩ else ix.siteWithin? r.caller l := by
  obtain ⟨record, hrecord⟩ := Option.isSome_iff_exists.mp (mem_functions_iff.mp hcaller)
  rw [siteWithin?, siteWithin?, function?_track, hrecord, Option.map_some, if_pos rfl,
    Option.bind_some, Option.bind_some, Std.ExtTreeMap.getElem?_insert]
  simp

/-- **A view has the records of a batch under their locations**, if it gets each record under its
own when that is tracked. Both views do. -/
theorem view_trackAll (view : SiteIndex → Location → Option SiteId)
    (enters : ∀ ix r, caller ∈ ix.functions → r.caller = caller → ∀ l,
      view (ix.track r) l = if r.location = l then some ⟨ix.records.size⟩ else view ix l)
    (hcaller : caller ∈ ix.functions) (own : ∀ r ∈ batch, r.caller = caller)
    (distinct : (places batch).Nodup) (l : Location) :
    (∀ n r, batch[n]? = some r → r.location = l →
      view (batch.foldl track ix) l = some ⟨ix.records.size + n⟩) ∧
    (l ∉ places batch → view (batch.foldl track ix) l = view ix l) := by
  induction batch generalizing ix with
  | nil => simp
  | cons r rest ih =>
    rw [places, List.map_cons, List.nodup_cons] at distinct
    obtain ⟨hr, hrest⟩ := List.forall_mem_cons.mp own
    have hcaller' : caller ∈ (ix.track r).functions :=
      (mem_functions_trackAll ix caller [r]).mpr hcaller
    obtain ⟨hfound, hothers⟩ := ih hcaller' hrest distinct.2
    have hnext := enters ix r hcaller hr l
    rw [List.foldl_cons, places, List.map_cons, List.mem_cons, not_or]
    constructor
    · intro n s hs hl
      cases n with
      | zero =>
        obtain rfl : r = s := by simpa using hs
        rw [hothers (hl ▸ distinct.1), hnext, if_pos hl, Nat.add_zero]
      | succ n =>
        have hsize : (ix.track r).records.size = ix.records.size + 1 := Array.size_push _
        rw [hfound n s (by simpa using hs) hl, hsize, Nat.add_assoc, Nat.add_comm 1]
    · rintro ⟨hne, hl⟩
      rw [hothers hl, hnext, if_neg (Ne.symm hne)]

theorem function?_trackAll_of_ne {f : FunctionId} (own : ∀ r ∈ batch, r.caller = caller)
    (hf : f ≠ caller) : (batch.foldl track ix).function? f = ix.function? f := by
  induction batch generalizing ix with
  | nil => rfl
  | cons r rest ih =>
    obtain ⟨hr, hrest⟩ := List.forall_mem_cons.mp own
    rw [List.foldl_cons, ih hrest, function?_track]
    simp [hr, Ne.symm hf]

/-- An admissible batch is gained. -/
theorem Admissible.gains (h : ix.Admissible caller batch) (hcaller : caller ∈ ix.functions) :
    ix.Gains (batch.foldl track ix) caller batch
      ((List.range batch.length).map fun n => ⟨ix.records.size + n⟩) := by
  have hsites := view_trackAll siteAt? (fun ix r _ _ l => ix.siteAt?_track r l) hcaller
    h.own h.distinct
  have hwithin := view_trackAll (fun ix => ix.siteWithin? caller)
    (fun ix r hmem hr l => by subst hr; exact siteWithin?_track hmem l) hcaller h.own h.distinct
  constructor
  case numbers => rfl
  case records => exact ix.records_trackAll batch
  case found =>
    intro n r hr
    have hids : ((List.range batch.length).map fun n => (⟨ix.records.size + n⟩ : SiteId))[n]? =
        some ⟨ix.records.size + n⟩ := by
      rw [List.getElem?_map, List.getElem?_range (List.getElem?_eq_some_iff.mp hr).1,
        Option.map_some]
    rw [hids]
    exact ⟨(hsites r.location).1 n r hr rfl, (hwithin r.location).1 n r hr rfl⟩
  case others => exact fun l hl => ⟨(hsites l).2 hl, (hwithin l).2 hl⟩
  case functions => exact fun f hf => function?_trackAll_of_ne h.own hf
  case figures => exact ix.figures_trackAll caller batch
  case generation => exact ix.generation_trackAll batch

/-! ### Whole or not at all -/

/-- **A batch is taken whole or not at all**, by any index. It is taken exactly if the function is
in the index and the batch is admissible. Its records then get the next numbers in their order, and
both views have them under their locations. If it is not taken the index stays as it is. What is
reported is then that the function is not there, if it is not, and otherwise the first flaw. -/
theorem addSites_atomic (ix : SiteIndex) (caller : FunctionId) (batch : List SiteRecord) :
    ((∃ ids ix', addSites caller batch ix = .ok ids ix') ↔
      caller ∈ ix.functions ∧ ix.Admissible caller batch) ∧
    (∀ ids ix', addSites caller batch ix = .ok ids ix' → ix.Gains ix' caller batch ids) ∧
    ∀ e ix', addSites caller batch ix = .error e ix' → ix' = ix ∧
      if caller ∈ ix.functions then ix.FirstFlaw caller batch e
      else e = .missingFunction caller := by
  rw [addSites_apply]
  by_cases hcaller : caller ∈ ix.functions
  · rw [if_neg (not_not.mpr hcaller)]
    simp only [hcaller, if_true, true_and]
    cases hobjection : ix.objection? caller [] batch with
    | none =>
      have admissible := objection?_eq_none_iff_admissible.mp hobjection
      refine ⟨iff_of_true ⟨_, _, rfl⟩ admissible, fun ids ix' hok => ?_, fun e ix' herror => ?_⟩
      · cases hok
        exact admissible.gains hcaller
      · cases herror
    | some e =>
      refine ⟨iff_of_false ?_ fun admissible => ?_, fun ids ix' hok => ?_, fun e' ix' herror => ?_⟩
      · rintro ⟨ids, ix', hok⟩
        cases hok
      · rw [objection?_eq_none_iff_admissible.mpr admissible] at hobjection
        cases hobjection
      · cases hok
      · cases herror
        exact ⟨rfl, objection?_eq_some.mp hobjection⟩
  · rw [if_pos hcaller]
    refine ⟨iff_of_false ?_ fun h => hcaller h.1, fun ids ix' hok => ?_, fun e ix' herror => ?_⟩
    · rintro ⟨ids, ix', hok⟩
      cases hok
    · cases hok
    · cases herror
      exact ⟨rfl, by rw [if_neg hcaller]⟩

/-- The index of the function that calls itself twice takes two more calls, in the order in which
they are given. A call that stands in a foreign body and at a place that is taken is refused for the
body, and what comes after it is not looked at. -/
theorem addSites_atomic_fork :
    (∃ ix', addSites ⟨0⟩ [forkCall 8, forkCall 7] forkIndex = .ok [⟨3⟩, ⟨4⟩] ix' ∧
      ix'.siteAt? (forkCall 7).location = some ⟨4⟩ ∧
      ix'.siteAt? (forkCall 0).location = forkIndex.siteAt? (forkCall 0).location) ∧
    addSites ⟨0⟩ [forkCall 7, { forkCall 1 with caller := ⟨1⟩ }, forkCall 7] forkIndex =
      .error (.inconsistent (.foreignSite (forkCall 1).location ⟨1⟩ ⟨0⟩)) forkIndex := by
  have hcaller : (⟨0⟩ : FunctionId) ∈ forkIndex.functions := by decide +kernel
  have hsize : forkIndex.records.size = 3 := by decide +kernel
  constructor
  · obtain ⟨htaken, hgains, -⟩ := addSites_atomic forkIndex ⟨0⟩ [forkCall 8, forkCall 7]
    have admissible : forkIndex.Admissible ⟨0⟩ [forkCall 8, forkCall 7] :=
      ⟨by decide +kernel, by decide +kernel, by decide +kernel⟩
    obtain ⟨ids, ix', hok⟩ := htaken.mpr ⟨hcaller, admissible⟩
    obtain ⟨rfl, -, hfound, hothers, -⟩ := hgains ids ix' hok
    rw [hsize] at hok hfound
    exact ⟨ix', hok, (hfound 1 (forkCall 7) rfl).1, (hothers _ (by decide +kernel)).1⟩
  · let batch := [forkCall 7, { forkCall 1 with caller := ⟨1⟩ }, forkCall 7]
    obtain ⟨-, -, hrefused⟩ := addSites_atomic forkIndex ⟨0⟩ batch
    have houtcome : (addSites ⟨0⟩ batch).outcome forkIndex =
        .error (.inconsistent (.foreignSite (forkCall 1).location ⟨1⟩ ⟨0⟩)) := by decide +kernel
    rw [Update.outcome] at houtcome
    cases hadd : addSites ⟨0⟩ batch forkIndex with
    | ok ids ix' =>
      rw [hadd] at houtcome
      cases houtcome
    | error e ix' =>
      rw [hadd] at houtcome
      cases houtcome
      rw [(hrefused _ ix' hadd).1]

end SiteIndex

end Inlining
