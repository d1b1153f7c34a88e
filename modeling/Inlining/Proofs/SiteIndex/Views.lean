import Inlining.SiteIndex.Basic

/-!
# One arena, two views

The records of an index are reached in three ways: by number, by location over the whole program,
and by location within a function. `SiteIndex.Consistent` says that the three agree. Every operation
of the index keeps them in agreement, so that a statement about records by number — which is how all
later statements are made — is a statement about every way to reach them.

## Main definitions

* `SiteIndex.Consistent` — the views agree with the arena
* `SiteIndex.Precedes` — the order of locations, on numbers of records
* `FunctionRecord.figures` — what is known of a function, without its calls

## Main results

* `SiteIndex.objection?_eq_none` — when a batch of call sites is taken
* `SiteIndex.Consistent.addFunction`, `SiteIndex.Consistent.trackAll`,
  `SiteIndex.Consistent.modifyRecord`, `SiteIndex.Consistent.modifyFunction` — the operations
* `SiteIndex.Consistent.mem_ordered`, `SiteIndex.Consistent.ascending_ordered`,
  `SiteIndex.Consistent.mem_sitesIn`, `SiteIndex.Consistent.ascending_sitesIn` — reading through the
  views
-/

namespace Inlining

/-- What is known of a function, leaving out the calls in its body. -/
def FunctionRecord.figures (f : FunctionRecord) : FunctionRecord := { f with sites := ∅ }

namespace SiteIndex

/-- Both views hold the numbers of the records in the arena, under the records' own locations. -/
structure Consistent (ix : SiteIndex) : Prop where
  sites : ∀ l id, ix.siteAt? l = some id ↔ ∃ r, ix.record? id = some r ∧ r.location = l
  within : ∀ f record, ix.function? f = some record → ∀ l id,
    record.sites[l]? = some id ↔ ∃ r, ix.record? id = some r ∧ r.location = l ∧ r.caller = f
  caller : ∀ id r, ix.record? id = some r → r.caller ∈ ix.functions

/-- Both numbers are given out, and the location of the first record is the lesser. -/
def Precedes (ix : SiteIndex) (a b : SiteId) : Prop :=
  ∃ r s, ix.record? a = some r ∧ ix.record? b = some s ∧ compare r.location s.location = .lt

theorem mem_functions_iff {ix : SiteIndex} {f : FunctionId} :
    f ∈ ix.functions ↔ (ix.function? f).isSome :=
  Std.ExtTreeMap.mem_iff_isSome_getElem?

/-- The arena has the records that have a number. -/
theorem mem_records {ix : SiteIndex} {r : SiteRecord} :
    r ∈ ix.records ↔ ∃ id, ix.record? id = some r := by
  rw [Array.mem_iff_getElem?]
  exact ⟨fun ⟨n, hn⟩ => ⟨⟨n⟩, hn⟩, fun ⟨id, hid⟩ => ⟨id.index, hid⟩⟩

/-- Going through an index meets records under their numbers, whether or not the views agree. -/
theorem record?_of_mem_ordered {ix : SiteIndex} {id : SiteId} {r : SiteRecord}
    (h : (id, r) ∈ ix.ordered) : ix.record? id = some r := by
  rw [ordered, List.mem_filterMap] at h
  obtain ⟨⟨l, id'⟩, -, h⟩ := h
  obtain ⟨r', hr', heq⟩ := Option.map_eq_some_iff.mp h
  cases heq
  exact hr'

/-! ### Reading after a change -/

section Reading

variable (ix : SiteIndex) (id id' : SiteId) (f g : FunctionId)

theorem record?_modifyRecord (change : SiteRecord → SiteRecord) :
    (ix.modifyRecord id change).record? id' =
      (ix.record? id').map fun r => if id = id' then change r else r := by
  rw [record?, record?, modifyRecord, Array.getElem?_modify]
  by_cases h : id = id'
  · simp [h]
  · have : id.index ≠ id'.index := fun heq => h (by cases id; cases id'; simp_all)
    simp [h, this]

theorem function?_modifyFunction (change : FunctionRecord → FunctionRecord) :
    (ix.modifyFunction f change).function? g =
      (ix.function? g).map fun r => if f = g then change r else r := by
  rw [function?, function?, modifyFunction, Std.ExtTreeMap.getElem?_modify]
  by_cases h : f = g
  · subst h
    simp
  · simp [h]

theorem record?_track (r : SiteRecord) : (ix.track r).record? id =
    if id.index = ix.records.size then some r else ix.record? id := by
  rw [record?, record?, track, Array.getElem?_push]

theorem siteAt?_track (r : SiteRecord) (l : Location) : (ix.track r).siteAt? l =
    if r.location = l then some ⟨ix.records.size⟩ else ix.siteAt? l := by
  rw [siteAt?, siteAt?, track, Std.ExtTreeMap.getElem?_insert]
  simp

theorem function?_track (r : SiteRecord) : (ix.track r).function? f =
    (ix.function? f).map fun record => if r.caller = f then
      { record with sites := record.sites.insert r.location ⟨ix.records.size⟩ } else record :=
  function?_modifyFunction ix r.caller f _

/-- Tracking a record changes no figures. -/
theorem figures_track (r : SiteRecord) : ((ix.track r).function? f).map FunctionRecord.figures =
    (ix.function? f).map FunctionRecord.figures := by
  rw [function?_track, Option.map_map]
  congr 1
  funext record
  simp only [Function.comp_apply]
  split <;> rfl

theorem figures_trackAll (batch : List SiteRecord) :
    ((batch.foldl track ix).function? f).map FunctionRecord.figures =
      (ix.function? f).map FunctionRecord.figures := by
  induction batch generalizing ix with
  | nil => rfl
  | cons r rest ih => rw [List.foldl_cons, ih, figures_track]

/-- A batch is put at the end of the arena, in order. -/
theorem records_trackAll (batch : List SiteRecord) :
    (batch.foldl track ix).records = ix.records ++ batch := by
  induction batch generalizing ix with
  | nil => simp
  | cons r rest ih =>
    rw [List.foldl_cons, ih]
    simp [track]

theorem record?_trackAll (batch : List SiteRecord) (r : SiteRecord) :
    (batch.foldl track ix).record? id = some r ↔ ix.record? id = some r ∨
      ∃ k, id.index = ix.records.size + k ∧ batch[k]? = some r := by
  rw [record?, record?, records_trackAll, ← Array.getElem?_toList, Array.toList_appendList,
    List.getElem?_append, Array.length_toList]
  by_cases h : id.index < ix.records.size
  · rw [if_pos h, Array.getElem?_toList]
    refine ⟨.inl, ?_⟩
    rintro (hr | ⟨k, hk, -⟩)
    · exact hr
    · omega
  · rw [if_neg h, Array.getElem?_eq_none (Nat.not_lt.mp h)]
    constructor
    · exact fun hr => .inr ⟨_, by omega, hr⟩
    · rintro (hr | ⟨k, hk, hr⟩)
      · cases hr
      · rw [hk, Nat.add_sub_cancel_left, hr]

theorem generation_trackAll (batch : List SiteRecord) :
    (batch.foldl track ix).generation = ix.generation := by
  induction batch generalizing ix with
  | nil => rfl
  | cons r rest ih => exact ih _

theorem record?_eq_none_of_le (h : ix.records.size ≤ id.index) : ix.record? id = none :=
  Array.getElem?_eq_none h

theorem mem_functions_trackAll (batch : List SiteRecord) :
    f ∈ (batch.foldl track ix).functions ↔ f ∈ ix.functions := by
  rw [mem_functions_iff, mem_functions_iff, ← Option.isSome_map (f := FunctionRecord.figures),
    figures_trackAll, Option.isSome_map]

end Reading

/-! ### When a batch is taken -/

theorem objection?_eq_none {ix : SiteIndex} {caller : FunctionId} {earlier : List Location}
    {batch : List SiteRecord} : ix.objection? caller earlier batch = none ↔
      (∀ r ∈ batch, r.caller = caller ∧ r.location ∉ ix.sites ∧ r.location ∉ earlier) ∧
      batch.Pairwise fun r s => r.location ≠ s.location := by
  induction batch generalizing earlier with
  | nil => simp [objection?]
  | cons r rest ih =>
    rw [objection?]
    by_cases hcaller : r.caller = caller
    · by_cases htaken : r.location ∈ ix.sites ∨ r.location ∈ earlier
      · simp only [hcaller, ne_eq, not_true_eq_false, if_false, Bool.or_eq_true,
          decide_eq_true_eq, List.contains_iff_mem, htaken, if_true, reduceCtorEq, false_iff]
        rintro ⟨hall, -⟩
        have := hall r List.mem_cons_self
        rcases htaken with h | h
        · exact this.2.1 h
        · exact this.2.2 h
      · simp only [hcaller, ne_eq, not_true_eq_false, if_false, Bool.or_eq_true,
          decide_eq_true_eq, List.contains_iff_mem, htaken, ih, List.mem_cons, not_or,
          List.pairwise_cons, forall_eq_or_imp, true_and]
        rw [not_or] at htaken
        constructor
        · rintro ⟨hall, hpair⟩
          refine ⟨⟨htaken, fun s hs => ?_⟩, fun s hs heq => ?_, hpair⟩
          · exact ⟨(hall s hs).1, (hall s hs).2.1, (hall s hs).2.2.2⟩
          · exact (hall s hs).2.2.1 heq.symm
        · rintro ⟨⟨-, hall⟩, hne, hpair⟩
          refine ⟨fun s hs => ?_, hpair⟩
          exact ⟨(hall s hs).1, (hall s hs).2.1, Ne.symm (hne s hs), (hall s hs).2.2⟩
    · simp only [hcaller, ne_eq, not_false_eq_true, if_true, reduceCtorEq, false_iff]
      rintro ⟨hall, -⟩
      exact hcaller (hall r List.mem_cons_self).1

/-- Objections are about places, never about how often something runs. -/
theorem objection?_ne_zeroFrequency (ix : SiteIndex) (caller : FunctionId)
    (earlier : List Location) (batch : List SiteRecord) (f : FunctionId) :
    ix.objection? caller earlier batch ≠ some (.zeroFrequency f) := by
  induction batch generalizing earlier with
  | nil => simp [objection?]
  | cons r rest ih =>
    rw [objection?]
    split
    · simp
    · split
      · simp
      · exact ih _

theorem addSites_ne_zeroFrequency (ix ix' : SiteIndex) (caller : FunctionId)
    (batch : List SiteRecord) (f : FunctionId) :
    addSites caller batch ix ≠ .error (.zeroFrequency f) ix' := by
  rw [addSites_apply]
  split
  · simp
  · cases hobjection : ix.objection? caller [] batch with
    | none => simp
    | some e =>
      simp only [ne_eq, EStateM.Result.error.injEq, not_and]
      rintro rfl
      exact absurd hobjection (ix.objection?_ne_zeroFrequency caller [] batch f)

namespace Consistent

variable {ix : SiteIndex}

theorem empty : SiteIndex.empty.Consistent := by
  constructor <;> simp [SiteIndex.empty, siteAt?, record?, function?]

/-! ### Reading through the views -/

/-- A location has one record. -/
theorem id_eq (hix : ix.Consistent) {id id' : SiteId} {r r' : SiteRecord}
    (h : ix.record? id = some r) (h' : ix.record? id' = some r')
    (hl : r.location = r'.location) : id = id' := by
  have hid := (hix.sites r'.location id).mpr ⟨r, h, hl⟩
  have hid' := (hix.sites r'.location id').mpr ⟨r', h', rfl⟩
  exact Option.some.inj (hid.symm.trans hid')

theorem mem_sites (hix : ix.Consistent) {l : Location} :
    l ∈ ix.sites ↔ ∃ id r, ix.record? id = some r ∧ r.location = l := by
  rw [Std.ExtTreeMap.mem_iff_isSome_getElem?, Option.isSome_iff_exists]
  exact exists_congr fun id => hix.sites l id

theorem mem_ordered (hix : ix.Consistent) {id : SiteId} {r : SiteRecord} :
    (id, r) ∈ ix.ordered ↔ ix.record? id = some r := by
  refine ⟨record?_of_mem_ordered, fun h => ?_⟩
  rw [ordered, List.mem_filterMap]
  refine ⟨(r.location, id), ?_, by simp [h]⟩
  rw [Std.ExtTreeMap.mem_toList_iff_getElem?_eq_some]
  exact (hix.sites _ _).mpr ⟨r, h, rfl⟩

theorem ascending_ordered (hix : ix.Consistent) :
    ix.ordered.Pairwise fun a b => compare a.2.location b.2.location = .lt := by
  rw [SiteIndex.ordered, List.pairwise_filterMap]
  refine ix.sites.ordered_keys_toList.imp_of_mem ?_
  rintro ⟨l, id⟩ ⟨l', id'⟩ hl hl' hlt a ha b hb
  -- The record that is reached from a location has this location.
  rw [Std.ExtTreeMap.mem_toList_iff_getElem?_eq_some] at hl hl'
  obtain ⟨r, hr, rfl⟩ := (hix.sites l id).mp hl
  obtain ⟨r', hr', rfl⟩ := (hix.sites l' id').mp hl'
  simp only [hr, hr', Option.map_some, Option.some.injEq] at ha hb
  rw [← ha, ← hb]
  exact hlt

theorem mem_sitesIn (hix : ix.Consistent) {f : FunctionId} {id : SiteId} :
    id ∈ ix.sitesIn f ↔ ∃ r, ix.record? id = some r ∧ r.caller = f := by
  rw [sitesIn]
  cases hf : ix.function? f with
  | none =>
    simp only [List.not_mem_nil, false_iff, not_exists, not_and]
    rintro r hr rfl
    have := mem_functions_iff.mp (hix.caller id r hr)
    rw [hf] at this
    cases this
  | some record =>
    simp only [List.mem_map, Prod.exists, exists_eq_right,
      Std.ExtTreeMap.mem_toList_iff_getElem?_eq_some]
    constructor
    · rintro ⟨l, hl⟩
      obtain ⟨r, hr, -, hcaller⟩ := (hix.within f record hf l id).mp hl
      exact ⟨r, hr, hcaller⟩
    · rintro ⟨r, hr, hcaller⟩
      exact ⟨r.location, (hix.within f record hf _ _).mpr ⟨r, hr, rfl, hcaller⟩⟩

theorem ascending_sitesIn (hix : ix.Consistent) (f : FunctionId) :
    (ix.sitesIn f).Pairwise ix.Precedes := by
  rw [sitesIn]
  cases hf : ix.function? f with
  | none => exact .nil
  | some record =>
    refine List.pairwise_map.mpr (record.sites.ordered_keys_toList.imp_of_mem ?_)
    rintro ⟨l, id⟩ ⟨l', id'⟩ hl hl' hlt
    rw [Std.ExtTreeMap.mem_toList_iff_getElem?_eq_some] at hl hl'
    obtain ⟨r, hr, rfl, -⟩ := (hix.within f record hf l id).mp hl
    obtain ⟨r', hr', rfl, -⟩ := (hix.within f record hf l' id').mp hl'
    exact ⟨r, r', hr, hr', hlt⟩

theorem nodup_sitesIn (hix : ix.Consistent) (f : FunctionId) : (ix.sitesIn f).Nodup := by
  refine (hix.ascending_sitesIn f).imp ?_
  rintro a _ ⟨r, s, hr, hs, hlt⟩ rfl
  rw [hr, Option.some.injEq] at hs
  rw [hs, Std.compare_self] at hlt
  cases hlt

/-! ### Changing records in place -/

/-- Only the views and the call sites of the records matter, neither frequencies nor markers. -/
theorem congr {jx : SiteIndex} (hix : ix.Consistent) (views : jx.sites = ix.sites)
    (records : ∀ id, (jx.record? id).map SiteRecord.toCallSite =
      (ix.record? id).map SiteRecord.toCallSite)
    (functions : ∀ f, (jx.function? f).map FunctionRecord.sites =
      (ix.function? f).map FunctionRecord.sites) : jx.Consistent := by
  have hrecord : ∀ (P : CallSite → Prop) id, (∃ r, jx.record? id = some r ∧ P r.toCallSite) ↔
      ∃ r, ix.record? id = some r ∧ P r.toCallSite := by
    intro P id
    have := records id
    cases hj : jx.record? id <;> cases hi : ix.record? id <;> simp_all
  constructor
  case sites =>
    intro l id
    rw [siteAt?, views, hrecord fun site => site.location = l]
    exact hix.sites l id
  case within =>
    intro f record hf l id
    have hsites := functions f
    rw [hf, Option.map_some] at hsites
    obtain ⟨old, hold, heq⟩ := Option.map_eq_some_iff.mp hsites.symm
    rw [← heq, hrecord fun site => site.location = l ∧ site.caller = f]
    exact hix.within f old hold l id
  case caller =>
    intro id r hr
    obtain ⟨old, hold, heq⟩ := (hrecord (fun site => site.caller = r.caller) id).mp ⟨r, hr, rfl⟩
    have := mem_functions_iff.mp (hix.caller id old hold)
    rw [mem_functions_iff, ← Option.isSome_map (f := FunctionRecord.sites), functions,
      Option.isSome_map, ← heq]
    exact this

theorem modifyRecord (hix : ix.Consistent) (id : SiteId) {change : SiteRecord → SiteRecord}
    (keeps : ∀ r, (change r).toCallSite = r.toCallSite) :
    (ix.modifyRecord id change).Consistent := by
  refine hix.congr rfl (fun id' => ?_) fun _ => rfl
  rw [record?_modifyRecord, Option.map_map]
  congr 1
  funext r
  simp only [Function.comp_apply]
  split
  · exact keeps r
  · rfl

theorem modifyFunction (hix : ix.Consistent) (f : FunctionId)
    {change : FunctionRecord → FunctionRecord} (keeps : ∀ r, (change r).sites = r.sites) :
    (ix.modifyFunction f change).Consistent := by
  refine hix.congr rfl (fun _ => rfl) fun g => ?_
  rw [function?_modifyFunction, Option.map_map]
  congr 1
  funext r
  simp only [Function.comp_apply]
  split
  · exact keeps r
  · rfl

/-! ### Adding records -/

theorem addFunction (hix : ix.Consistent) {f : FunctionId} (hf : f ∉ ix.functions)
    {record : FunctionRecord} (hrecord : record.sites = ∅) :
    { ix with functions := ix.functions.insert f record }.Consistent := by
  constructor
  case sites => exact hix.sites
  case within =>
    intro g other hg l id
    simp only [function?, Std.ExtTreeMap.getElem?_insert, Std.compare_eq_iff_eq] at hg
    split at hg
    · -- Nothing can be recorded for a function that was not there.
      rename_i hfg
      subst hfg
      cases hg
      simp only [hrecord, Std.ExtTreeMap.getElem?_empty, reduceCtorEq, false_iff]
      rintro ⟨r, hr, -, hcaller⟩
      exact hf (hcaller ▸ hix.caller id r hr)
    · exact hix.within g other hg l id
  case caller =>
    intro id r hr
    exact Std.ExtTreeMap.mem_insert.mpr (.inr (hix.caller id r hr))

theorem track (hix : ix.Consistent) {r : SiteRecord} (hcaller : r.caller ∈ ix.functions)
    (hnew : r.location ∉ ix.sites) : (ix.track r).Consistent := by
  have hold : ∀ id s, ix.record? id = some s → id.index ≠ ix.records.size := by
    intro id s hs heq
    rw [ix.record?_eq_none_of_le id (Nat.le_of_eq heq.symm)] at hs
    cases hs
  have hother : ∀ id s, ix.record? id = some s → s.location ≠ r.location := by
    intro id s hs heq
    refine hnew (Std.ExtTreeMap.mem_iff_isSome_getElem?.mpr ?_)
    rw [← heq]
    exact Option.isSome_of_eq_some ((hix.sites s.location id).mpr ⟨s, hs, rfl⟩)
  have hrecord : ∀ (P : SiteRecord → Prop) id, (∃ s, (ix.track r).record? id = some s ∧ P s) ↔
      id = ⟨ix.records.size⟩ ∧ P r ∨ ∃ s, ix.record? id = some s ∧ P s := by
    intro P id
    rw [record?_track]
    by_cases hid : id.index = ix.records.size
    · have : id = ⟨ix.records.size⟩ := by cases id; simp_all
      subst this
      simp [ix.record?_eq_none_of_le ⟨ix.records.size⟩ (Nat.le_refl _)]
    · have : id ≠ ⟨ix.records.size⟩ := fun heq => hid (by rw [heq])
      simp [hid, this]
  constructor
  case sites =>
    intro l id
    rw [siteAt?_track, hrecord fun s => s.location = l]
    by_cases hl : r.location = l
    · subst hl
      simp only [if_true, Option.some.injEq, and_true]
      constructor
      · exact fun h => .inl h.symm
      · rintro (h | ⟨s, hs, heq⟩)
        · exact h.symm
        · exact absurd heq (hother id s hs)
    · simp only [hl, if_false, and_false, false_or]
      exact hix.sites l id
  case within =>
    intro f record hf l id
    rw [function?_track] at hf
    obtain ⟨old, hfold, rfl⟩ := Option.map_eq_some_iff.mp hf
    rw [hrecord fun s => s.location = l ∧ s.caller = f, ← hix.within f old hfold l id]
    by_cases hf : r.caller = f
    · rw [if_pos hf, Std.ExtTreeMap.getElem?_insert]
      by_cases hl : r.location = l
      · have hnone : old.sites[l]? = none := by
          rw [Option.eq_none_iff_forall_ne_some]
          intro id' hid'
          obtain ⟨s, hs, heq, -⟩ := (hix.within f old hfold l id').mp hid'
          exact hother id' s hs (heq.trans hl.symm)
        simp [hl, hf, hnone, eq_comm]
      · simp [hl]
    · simp [hf]
  case caller =>
    intro id s hs
    have hmem : ∀ f, f ∈ ix.functions → f ∈ (ix.track r).functions := fun f hf =>
      (mem_functions_trackAll ix f [r]).mpr hf
    rcases (hrecord (fun t => t = s) id).mp ⟨s, hs, rfl⟩ with ⟨-, rfl⟩ | ⟨t, ht, rfl⟩
    · exact hmem _ hcaller
    · exact hmem _ (hix.caller id t ht)

/-- A batch that meets no objection leaves the views in agreement. -/
theorem trackAll (hix : ix.Consistent) {caller : FunctionId} (hcaller : caller ∈ ix.functions)
    {batch : List SiteRecord} (hbatch : ix.objection? caller [] batch = none) :
    (batch.foldl SiteIndex.track ix).Consistent := by
  obtain ⟨hall, hpair⟩ := objection?_eq_none.mp hbatch
  clear hbatch
  induction batch generalizing ix with
  | nil => exact hix
  | cons r rest ih =>
    obtain ⟨hr, hnew, -⟩ := hall r List.mem_cons_self
    rw [List.pairwise_cons] at hpair
    refine ih (hix.track (hr ▸ hcaller) hnew) ?_ (fun s hs => ?_) hpair.2
    · exact (mem_functions_trackAll ix caller [r]).mpr hcaller
    · obtain ⟨hs', hnew', -⟩ := hall s (List.mem_cons_of_mem r hs)
      refine ⟨hs', ?_, List.not_mem_nil⟩
      rintro hmem
      rcases Std.ExtTreeMap.mem_insert.mp hmem with heq | hmem
      · exact hpair.1 s hs (Std.compare_eq_iff_eq.mp heq)
      · exact hnew' hmem

end Consistent

end SiteIndex

end Inlining
