import Inlining.Proofs.SiteIndex.Redistribution
import Mathlib.Data.List.Forall2
import Mathlib.Data.List.Induction

/-!
# What a redistribution conserves

A split takes a call apart into what the call keeps and what its copy gets. The two are shares of
complementary parts of the entries, each rounded for itself, and they add up to the whole again:
what one of them loses by rounding, the other one gains. The exception is a call that runs an odd
number of times and whose shares both lie half way between two numbers. Both then go to the even
neighbour, and one run is lost or gained.

Beyond the calls of the callee and its entries a redistribution leaves everything as it was. The
records of the copies are put behind the old ones, in the order of the calls that they are copies
of; a failure changes nothing at all.

## Main definitions

* `SiteIndex.lastCopy?` — where the last report on a call says that its copy is
* `SiteIndex.Splits` — an index in which nothing but the calls of a function was split

## Main results

* `SiteIndex.redistribute_conserves` — what the calls of the callee and their copies add up to
* `SiteIndex.redistribute_changes_only_callee` — all or nothing, and only the calls of the callee
-/

namespace Inlining

namespace SiteIndex

/-- Where the last report on a call says that its copy is. -/
def lastCopy? (report : List CopiedCall) (l : Location) : Option Location :=
  (report.reverse.find? fun c => c.source = l).map CopiedCall.copy

theorem getElem?_copyMap (report : List CopiedCall) (l : Location) :
    (copyMap report)[l]? = lastCopy? report l := by
  induction report using List.reverseRecOn with
  | nil => exact Std.ExtTreeMap.getElem?_empty
  | append_singleton report c ih =>
    have hlast : copyMap (report ++ [c]) = (copyMap report).insert c.source c.copy := by
      rw [copyMap, List.foldl_append]
      rfl
    rw [hlast, Std.ExtTreeMap.getElem?_insert, ih, lastCopy?, lastCopy?, List.reverse_append]
    by_cases hc : c.source = l <;> simp [hc]

variable {ix ix' : SiteIndex} {report : List CopiedCall} {id : SiteId} {call : SiteRecord}

/-! ### Originals and copies -/

/-- **What a call keeps and what its copy gets add up to what the call had**, in any index, unless
both are half way between two numbers and the call ran an odd number of times; one run is then lost
or gained. -/
theorem redistribute_conserves {s : Snapshot} {done : Redistribution}
    (h : redistribute s id report ix = .ok done ix') : ∃ call before after,
    ix.record? id = some call ∧ ix.function? call.callee = some before ∧
      ix'.function? call.callee = some after ∧ after.frequency ≤ before.frequency ∧
      ∀ site ∈ ix.sitesIn call.callee, ∀ r, ix.record? site = some r → r.inlined = false →
        ∃ kept copySite copy, ix'.record? site = some kept ∧
          copySite ∈ done.copies ∧ ix'.record? copySite = some copy ∧
          lastCopy? report r.location = some copy.location ∧
          kept.frequency ≤ r.frequency ∧ copy.frequency ≤ r.frequency ∧
          if r.frequency % 2 = 1 ∧
              2 * (r.frequency * after.frequency % before.frequency) = before.frequency then
            kept.frequency + copy.frequency = r.frequency + 1 ∨
              kept.frequency + copy.frequency + 1 = r.frequency
          else kept.frequency + copy.frequency = r.frequency := by
  obtain ⟨call, before, hcall, hbefore, hentered, hcovers, -, rfl, rfl⟩ :=
    redistribute_eq_carryOut h
  have hpos : 0 < before.frequency := Nat.pos_of_ne_zero hentered
  have hle : (ix.plan report id call before.frequency).new ≤ before.frequency :=
    entriesLeft_le _ _ hpos
  have hfigures := ix.figures_carryOut (ix.plan report id call before.frequency) call.callee
  rw [hbefore, Option.map_some, if_pos (show call.callee =
    (ix.plan report id call before.frequency).callee from rfl)] at hfigures
  obtain ⟨after, hafter, heq⟩ := Option.map_eq_some_iff.mp hfigures
  have hnew : after.frequency = (ix.plan report id call before.frequency).new :=
    congrArg FunctionRecord.frequency heq
  refine ⟨call, before, after, hcall, hbefore, hafter, hnew ▸ hle, ?_⟩
  intro site hsite r hr hlive
  obtain ⟨l, hl⟩ := hcovers site hsite r hr hlive
  obtain ⟨n, hn, hcopy⟩ := exists_record?_carryOut id before.frequency hsite hr hlive hl
  refine ⟨_, ⟨ix.records.size + n⟩, _, record?_carryOut_of_live before.frequency hsite hr hlive hl,
    List.mem_map.mpr ⟨n, List.mem_range.mpr hn, rfl⟩, hcopy,
    (getElem?_copyMap report r.location).symm.trans hl, share_le r.frequency hle hpos,
    share_le r.frequency (Nat.sub_le _ _) hpos, ?_⟩
  rw [hnew]
  exact share_add_share r.frequency hle hpos

/-! A function that calls itself four times and is entered twice. The first call runs once and is
inlined, so that every other call is split in halves: three runs and five give a tie each, and the
even neighbour is above in one case and below in the other. -/

/-- The call at the given position of the function's only block. -/
def quartetCall (n frequency : Nat) : SiteRecord where
  location := ⟨⟨0⟩, ⟨0⟩, n⟩
  caller := ⟨0⟩
  callee := ⟨0⟩
  frequency := frequency

/-- The function. -/
def quartet : Program :=
  .assemble ["quartet"] [(0, .call ⟨0⟩), (0, .call ⟨0⟩), (0, .call ⟨0⟩), (0, .call ⟨0⟩)] []

/-- The function after its first call was inlined. -/
def quartetInlined : Snapshot :=
  ((Program.inline (quartetCall 0 1).toCallSite).after quartet).snapshot

/-- Where the calls went, with an earlier report on one of them that does not hold. -/
def quartetReport : List CopiedCall :=
  ⟨⟨⟨0⟩, ⟨0⟩, 1⟩, ⟨⟨0⟩, ⟨0⟩, 2⟩⟩ ::
    ((Program.inline (quartetCall 0 1).toCallSite).outcome quartet).toOption.getD []

/-- The index of the function when the first call is chosen. -/
def quartetIndex : SiteIndex :=
  let function : FunctionRecord := { frequency := 2, size := 4, recursive := true }
  let filled := [quartetCall 0 1, quartetCall 1 3, quartetCall 2 5, quartetCall 3 4].foldl track
    { SiteIndex.empty with functions := SiteIndex.empty.functions.insert ⟨0⟩ function }
  filled.mark ⟨0⟩

/-- The redistribution succeeds. -/
theorem exists_redistribute_quartet : ∃ done ix',
    redistribute quartetInlined ⟨0⟩ quartetReport quartetIndex = .ok done ix' := by
  have hsome : ((redistribute quartetInlined ⟨0⟩ quartetReport).outcome
      quartetIndex).toOption.isSome = true := by decide +kernel
  cases h : redistribute quartetInlined ⟨0⟩ quartetReport quartetIndex with
  | ok done ix' => exact ⟨done, ix', rfl⟩
  | error e ix' =>
    rw [Update.outcome, h] at hsome
    cases hsome

theorem redistribute_conserves_quartet : ∃ done ix',
    redistribute quartetInlined ⟨0⟩ quartetReport quartetIndex = .ok done ix' ∧
      ∃ kept copySite copy, ix'.record? ⟨1⟩ = some kept ∧ copySite ∈ done.copies ∧
        ix'.record? copySite = some copy ∧ kept.frequency ≤ 3 ∧ copy.frequency ≤ 3 ∧
        (kept.frequency + copy.frequency = 4 ∨ kept.frequency + copy.frequency = 2) := by
  obtain ⟨done, ix', h⟩ := exists_redistribute_quartet
  obtain ⟨call, before, after, hcall, hbefore, hafter, -, hsplit⟩ := redistribute_conserves h
  obtain rfl : { quartetCall 0 1 with inlined := true } = call := Option.some.inj hcall
  have hentries : after.frequency = 1 ∧ before.frequency = 2 := by
    have hleft : ((redistribute quartetInlined ⟨0⟩ quartetReport).after
        quartetIndex).functions[(⟨0⟩ : FunctionId)]?.map FunctionRecord.frequency = some 1 := by
      decide +kernel
    have hhad : quartetIndex.functions[(⟨0⟩ : FunctionId)]?.map FunctionRecord.frequency =
        some 2 := by
      decide +kernel
    rw [Update.after, h] at hleft
    exact ⟨by simpa using (congrArg (Option.map FunctionRecord.frequency) hafter).symm.trans hleft,
      by simpa using (congrArg (Option.map FunctionRecord.frequency) hbefore).symm.trans hhad⟩
  obtain ⟨kept, copySite, copy, hkept, hmem, hcopy, -, hle, hle', hsum⟩ :=
    hsplit ⟨1⟩ (by decide +kernel) (quartetCall 1 3) (by rfl) rfl
  rw [hentries.1, hentries.2, if_pos (by decide)] at hsum
  exact ⟨done, ix', h, kept, copySite, copy, hkept, hmem, hcopy, hle, hle',
    hsum.imp_right Nat.succ.inj⟩

/-! ### Everything else -/

/-- The index after the calls of a function were split, those in `originals`: the records of their
copies are new, the calls keep the rest of their runs, and the function keeps `new` of its `old`
entries. -/
structure Splits (ix ix' : SiteIndex) (call : SiteRecord) (old new : Nat)
    (report : List CopiedCall) (originals copies : List SiteRecord) : Prop where
  consistent : ix'.Consistent
  generation : ix'.generation = ix.generation
  /-- Nothing is changed about functions but the entries of the callee. -/
  figures : ∀ f, (ix'.function? f).map FunctionRecord.figures = (ix.function? f).map fun r =>
    if f = call.callee then { r.figures with frequency := new } else r.figures
  /-- The calls of the callee that were not inlined, in the order of their locations. -/
  members : ∀ r, r ∈ originals ↔ r ∈ ix.records ∧ r.caller = call.callee ∧ r.inlined = false
  ascending : originals.Pairwise fun r s => compare r.location s.location = .lt
  /-- Each of them has one copy, and the copies are in the same order. -/
  copied : List.Forall₂ (fun r c => ∃ l, lastCopy? report r.location = some l ∧
    c = r.copyTo call.caller l new old) originals copies
  /-- The copies are put behind the old records, of which only those calls are changed. -/
  records : ix'.records.toList =
    (ix.records.toList.map fun r => if r.caller = call.callee ∧ r.inlined = false then
      r.keep new old else r) ++ copies

theorem Consistent.ascending_liveCalls (hix : ix.Consistent) (f : FunctionId) :
    (ix.liveCalls report f).Pairwise fun c d =>
      compare c.record.location d.record.location = .lt := by
  rw [liveCalls, List.pairwise_filterMap]
  refine (hix.ascending_sitesIn f).imp ?_
  rintro a b ⟨r, r', hr, hr', hlt⟩ c hc d hd
  obtain ⟨-, hrc, -⟩ := liveCall_eq_some.mp hc
  obtain ⟨-, hrd, -⟩ := liveCall_eq_some.mp hd
  cases hr.symm.trans hrc
  cases hr'.symm.trans hrd
  exact hlt

/-- The records after copying and settling: the old ones at their places, then the copies. -/
theorem Redistributes.records_eq {old new : Nat} (h : ix.Redistributes ix' call old new report)
    {copies : List SiteRecord}
    (hcopies : ∀ n, ix'.record? ⟨ix.records.size + n⟩ = copies[n]?) :
    ix'.records.toList = (ix.records.toList.map fun r =>
      if r.caller = call.callee ∧ r.inlined = false then r.keep new old else r) ++ copies := by
  refine List.ext_getElem? fun n => ?_
  rw [List.getElem?_append, List.length_map, Array.length_toList, List.getElem?_map,
    Array.getElem?_toList, Array.getElem?_toList]
  split
  · rename_i hlt
    have hr : ix.record? ⟨n⟩ = some ix.records[n] := Array.getElem?_eq_getElem hlt
    rw [show ix.records[n]? = some ix.records[n] from hr]
    exact h.kept ⟨n⟩ _ hr
  · rename_i hge
    rw [← hcopies (n - ix.records.size), Nat.add_sub_cancel' (Nat.not_lt.mp hge)]
    rfl

theorem record?_carryOut_copies (ix : SiteIndex) (old n : Nat) :
    (ix.carryOut (ix.plan report id call old)).record? ⟨ix.records.size + n⟩ =
      (ix.plan report id call old).copies[n]? := by
  rw [record?_carryOut_of_none old (ix.record?_eq_none_of_le _ (Nat.le_add_right _ _)), record?,
    records_trackAll, ← Array.getElem?_toList, Array.toList_appendList,
    List.getElem?_append_right (by simp)]
  simp

/-- Copying and settling as planned split the calls of the callee and change nothing else. -/
theorem Consistent.splits (hix : ix.Consistent) (hcaller : call.caller ∈ ix.functions)
    (covers : Covers report ix call.callee) (old : Nat)
    (free : ix.objection? call.caller [] (ix.plan report id call old).copies = none) :
    ix.Splits (ix.carryOut (ix.plan report id call old)) call old
      (ix.plan report id call old).new report
      ((ix.liveCalls report call.callee).map SplitCall.record)
      (ix.plan report id call old).copies := by
  have hredistributes := hix.redistributes hcaller covers old free
  constructor
  case consistent => exact hredistributes.consistent
  case generation => exact hredistributes.generation
  case figures => exact hredistributes.figures
  case members =>
    intro r
    rw [List.mem_map]
    constructor
    · rintro ⟨c, hc, rfl⟩
      obtain ⟨hr, hcaller, hlive, -⟩ := hix.mem_liveCalls.mp hc
      exact ⟨mem_records.mpr ⟨c.id, hr⟩, hcaller, hlive⟩
    · rintro ⟨hmem, hcaller, hlive⟩
      obtain ⟨id, hr⟩ := mem_records.mp hmem
      obtain ⟨l, hl⟩ := covers id r hr hcaller hlive
      exact ⟨⟨id, r, l⟩, hix.mem_liveCalls.mpr ⟨hr, hcaller, hlive, hl⟩, rfl⟩
  case ascending => exact List.pairwise_map.mpr (hix.ascending_liveCalls call.callee)
  case copied =>
    rw [Split.copies, List.forall₂_map_left_iff, List.forall₂_map_right_iff, plan,
      List.forall₂_same]
    intro c hc
    obtain ⟨-, -, -, hl⟩ := hix.mem_liveCalls.mp hc
    exact ⟨c.copy, (getElem?_copyMap report c.record.location).symm.trans hl, rfl⟩
  case records => exact hredistributes.records_eq (ix.record?_carryOut_copies old)

/-- **A redistribution is all or nothing**, and touches only the calls of the callee and the number
of its entries, also where a function is inlined into itself. -/
theorem redistribute_changes_only_callee (hix : ix.Consistent) (s : Snapshot) (id : SiteId)
    (report : List CopiedCall) : (∃ e, redistribute s id report ix = .error e ix) ∨
      ∃ done ix' call callee originals copies, redistribute s id report ix = .ok done ix' ∧
        ix.record? id = some call ∧ ix.function? call.callee = some callee ∧
        ix.Splits ix' call callee.frequency done.new report originals copies := by
  cases h : redistribute s id report ix with
  | error e ix' => exact .inl ⟨e, redistribute_eq_error h ▸ rfl⟩
  | ok done ix' =>
    obtain ⟨call, callee, hcall, hcallee, -, hcovers, hfree, rfl, rfl⟩ :=
      redistribute_eq_carryOut h
    exact .inr ⟨_, _, call, callee, _, _, rfl, hcall, hcallee,
      hix.splits (hix.caller id call hcall) (hix.covers hcovers) callee.frequency hfree⟩

theorem redistribute_changes_only_callee_quartet : quartetIndex.Consistent ∧
    ∃ done ix' call callee originals copies,
      redistribute quartetInlined ⟨0⟩ quartetReport quartetIndex = .ok done ix' ∧
      quartetIndex.record? ⟨0⟩ = some call ∧ call.caller = call.callee ∧
      quartetIndex.function? call.callee = some callee ∧
      quartetIndex.Splits ix' call callee.frequency done.new quartetReport originals copies ∧
      copies.length = 3 := by
  have hix : quartetIndex.Consistent :=
    ((Consistent.empty.addFunction (by simp [SiteIndex.empty]) rfl).trackAll
      (show (⟨0⟩ : FunctionId) ∈ _ by decide +kernel)
      (by decide +kernel)).modifyRecord ⟨0⟩ fun _ => rfl
  obtain ⟨done, ix', h⟩ := exists_redistribute_quartet
  rcases redistribute_changes_only_callee hix quartetInlined ⟨0⟩ quartetReport with
    ⟨e, herror⟩ | ⟨_, _, call, callee, originals, copies, hok, hcall, hcallee, hsplits⟩
  · rw [h] at herror
    cases herror
  · obtain rfl : { quartetCall 0 1 with inlined := true } = call := Option.some.inj hcall
    have hsize : ((redistribute quartetInlined ⟨0⟩ quartetReport).after
        quartetIndex).records.toList.length = 7 := by decide +kernel
    rw [Update.after, hok] at hsize
    simp only [hsplits.records, List.length_append, List.length_map] at hsize
    have hold : quartetIndex.records.toList.length = 4 := by decide +kernel
    exact ⟨hix, _, _, _, callee, originals, copies, hok, hcall, rfl, hcallee, hsplits, by omega⟩

end SiteIndex

end Inlining
