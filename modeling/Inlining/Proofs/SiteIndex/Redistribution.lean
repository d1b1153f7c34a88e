import Inlining.Proofs.Share
import Inlining.Proofs.SiteIndex.Build
import Inlining.SiteIndex.Redistribution

/-!
# Redistributing after an inline

An index tracks a program if each record that was not inlined stands for a call that is there. When
the engine has inlined a call of such a program and reports what it copied, the redistribution can
fail in one way only, that the callee was never entered; and the index tracks the new program
afterwards.

The record of the inlined call is marked before the engine is asked to inline it, so it does not
count as a call of the callee, even where caller and callee are the same function.

## Main definitions

* `SiteIndex.Tracks` — what stands in the index stands in the program
* `SiteIndex.Redistributes` — how the index changes

## Main results

* `SiteIndex.Consistent.redistribute_eq_ok`, `SiteIndex.redistribute_eq_error` — what it does to any
  index, whatever was reported
* `SiteIndex.redistribute_cases` — the redistribution after an inline
* `SiteIndex.Redistributes.tracks` — it follows the program
-/

namespace Inlining

namespace SiteRecord

/-- The record of a call after the given part of the entries of its function is left. -/
def keep (r : SiteRecord) (new old : Nat) : SiteRecord :=
  { r with frequency := share r.frequency new old }

/-- The record of the copy of a call. -/
def copyTo (r : SiteRecord) (caller : FunctionId) (l : Location) (new old : Nat) : SiteRecord where
  location := l
  caller := caller
  callee := r.callee
  frequency := share r.frequency (old - new) old

end SiteRecord

namespace SiteIndex

/-- The index tracks a program: it has the program's functions, and each of its records was inlined
or stands for a call that is there. -/
structure Tracks (ix : SiteIndex) (p : Program) : Prop where
  consistent : ix.Consistent
  functions : ∀ f, f ∈ ix.functions ↔ f ∈ p.snapshot.functions
  live : ∀ id r, ix.record? id = some r → r.inlined = false →
    r.location.function = r.caller ∧ p.callAt? r.location = some r.callee ∧
      r.callee ∈ ix.functions
  block_lt : ∀ id r, ix.record? id = some r → r.location.block.index < p.nextBlock

/-- The sizes in an index are those of the program. -/
def Sized (ix : SiteIndex) (p : Program) : Prop :=
  ∀ f record, ix.function? f = some record → p.snapshot.size f = some record.size

/-- A new index tracks the program and has the sizes of its functions. -/
theorem Describes.tracks {ix : SiteIndex} {p : Program} {oracle : Oracle}
    {scanned : List FunctionId} (h : ix.Describes p oracle scanned) (wf : p.WellFormed) :
    ix.Tracks p ∧ ix.Sized p := by
  refine ⟨⟨h.consistent, h.functions, fun id r hr _ => ?_, fun id r hr => ?_⟩,
    fun f record hf => ?_⟩
  · obtain ⟨hfun, hcall, hcallee, -⟩ := h.sound id r hr
    exact ⟨hfun, hcall, hcallee⟩
  · obtain ⟨-, hcall, -⟩ := h.sound id r hr
    obtain ⟨i, hi, -⟩ := Option.bind_eq_some_iff.mp hcall
    exact wf.block_lt_of_instruction? hi
  · exact (h.figures_eq hf).2.1

/-- The index after a redistribution: the callee has `new` of its `old` entries left, its calls are
split in that proportion, and nothing else is changed. -/
structure Redistributes (ix ix' : SiteIndex) (call : SiteRecord) (old new : Nat)
    (report : List CopiedCall) : Prop where
  consistent : ix'.Consistent
  generation : ix'.generation = ix.generation
  figures : ∀ f, (ix'.function? f).map FunctionRecord.figures = (ix.function? f).map fun r =>
    if f = call.callee then { r.figures with frequency := new } else r.figures
  kept : ∀ id r, ix.record? id = some r → ix'.record? id =
    some (if r.caller = call.callee ∧ r.inlined = false then r.keep new old else r)
  copied : ∀ id r, ix.record? id = some r → r.caller = call.callee → r.inlined = false →
    ∃ id' l, ⟨r.location, l⟩ ∈ report ∧ ix'.record? id' = some (r.copyTo call.caller l new old)
  only : ∀ id' r', ix'.record? id' = some r' → (ix.record? id').isSome ∨
    ∃ id r l, ix.record? id = some r ∧ r.caller = call.callee ∧ r.inlined = false ∧
      ⟨r.location, l⟩ ∈ report ∧ r' = r.copyTo call.caller l new old

variable {ix : SiteIndex} {p q : Program} {report : List CopiedCall}

/-- A call that is tracked can be inlined. -/
theorem Tracks.exists_calleeAt (h : ix.Tracks p) (wf : p.WellFormed) {id : SiteId} {r : SiteRecord}
    (hr : ix.record? id = some r) (hlive : r.inlined = false) :
    ∃ body, p.calleeAt r.toCallSite = .ok body := by
  obtain ⟨hfun, hcall, hmem⟩ := h.live id r hr hlive
  obtain ⟨body, hbody⟩ := Option.isSome_iff_exists.mp
    (wf.mem_functions_snapshot.mp ((h.functions _).mp hmem))
  exact ⟨body, Program.calleeAt_eq_ok.mpr ⟨hfun, hcall, hbody⟩⟩

/-- A redistribution leaves sizes alone. -/
theorem Redistributes.sized {ix' : SiteIndex} {call : SiteRecord} {old new : Nat}
    (h : ix.Redistributes ix' call old new report) (sized : ix.Sized p) : ix'.Sized p := by
  intro f record hf
  have hfigures := h.figures f
  rw [hf, Option.map_some] at hfigures
  obtain ⟨before, hbefore, heq⟩ := Option.map_eq_some_iff.mp hfigures.symm
  rw [sized f before hbefore, show record.size = record.figures.size from rfl, ← heq]
  split <;> rfl

/-! ### Marking -/

theorem Tracks.modifyFunction (h : ix.Tracks p) (f : FunctionId)
    {change : FunctionRecord → FunctionRecord} (keeps : ∀ r, (change r).sites = r.sites) :
    (ix.modifyFunction f change).Tracks p := by
  have hfunctions : ∀ g, g ∈ (ix.modifyFunction f change).functions ↔ g ∈ ix.functions := by
    intro g
    rw [mem_functions_iff, mem_functions_iff, function?_modifyFunction, Option.isSome_map]
  refine ⟨h.consistent.modifyFunction f keeps, fun g => (hfunctions g).trans (h.functions g),
    fun id r hr hlive => ?_, h.block_lt⟩
  rw [hfunctions]
  exact h.live id r hr hlive

theorem record?_mark (ix : SiteIndex) (id id' : SiteId) : (ix.mark id).record? id' =
    (ix.record? id').map fun r => if id = id' then { r with inlined := true } else r :=
  record?_modifyRecord _ _ _ _

/-- Marking a call takes nothing away from the rest. -/
theorem Tracks.mark (h : ix.Tracks p) (id : SiteId) : (ix.mark id).Tracks p := by
  have hsource : ∀ id' r, (ix.mark id).record? id' = some r → ∃ r₀, ix.record? id' = some r₀ ∧
      r₀.toCallSite = r.toCallSite ∧ (r.inlined = false → r₀.inlined = false) := by
    intro id' r hr
    rw [record?_mark] at hr
    obtain ⟨r₀, hr₀, rfl⟩ := Option.map_eq_some_iff.mp hr
    refine ⟨r₀, hr₀, ?_⟩
    split <;> simp
  refine ⟨h.consistent.modifyRecord id fun _ => rfl, h.functions, fun id' r hr hlive => ?_,
    fun id' r hr => ?_⟩
  · obtain ⟨r₀, hr₀, hsite, hlive₀⟩ := hsource id' r hr
    rw [← hsite]
    exact h.live id' r₀ hr₀ (hlive₀ hlive)
  · obtain ⟨r₀, hr₀, hsite, -⟩ := hsource id' r hr
    rw [← hsite]
    exact h.block_lt id' r₀ hr₀

/-! ### The calls to split -/

theorem copyMap_cases (report : List CopiedCall) (l : Location) :
    (∃ k, (copyMap report)[l]? = some k ∧ ⟨l, k⟩ ∈ report) ∨
      ((copyMap report)[l]? = none ∧ ∀ c ∈ report, c.source ≠ l) := by
  rcases getElem?_foldl_insert CopiedCall.source CopiedCall.copy report ∅ l with
    ⟨⟨_, k⟩, hc, rfl, hvalue⟩ | ⟨hnone, hvalue⟩
  · exact .inl ⟨k, hvalue, hc⟩
  · exact .inr ⟨hvalue.trans Std.ExtTreeMap.getElem?_empty, hnone⟩

/-- A call that is still there, with the place of its copy. -/
def liveCall (ix : SiteIndex) (report : List CopiedCall) (id : SiteId) : Option SplitCall :=
  match ix.record? id with
  | none => none
  | some r =>
    if r.inlined then none
    else ((copyMap report)[r.location]?).map fun copy => { id, record := r, copy }

/-- The calls in a function that are still there, with the places of their copies. -/
def liveCalls (ix : SiteIndex) (report : List CopiedCall) (f : FunctionId) : List SplitCall :=
  (ix.sitesIn f).filterMap (ix.liveCall report)

theorem liveCall_eq_some {id : SiteId} {c : SplitCall} : ix.liveCall report id = some c ↔
    c.id = id ∧ ix.record? id = some c.record ∧ c.record.inlined = false ∧
      (copyMap report)[c.record.location]? = some c.copy := by
  obtain ⟨id', r', copy⟩ := c
  rw [liveCall]
  cases hr : ix.record? id with
  | none => simp
  | some r =>
    cases hi : r.inlined with
    | true =>
      simp only [hi, if_true, reduceCtorEq, Option.some.injEq, false_iff]
      rintro ⟨-, rfl, hi', -⟩
      rw [hi] at hi'
      cases hi'
    | false =>
      simp only [hi, Bool.false_eq_true, if_false, Option.map_eq_some_iff, SplitCall.mk.injEq,
        Option.some.injEq]
      constructor
      · rintro ⟨k, hk, rfl, rfl, rfl⟩
        exact ⟨rfl, rfl, hi, hk⟩
      · rintro ⟨rfl, rfl, -, hk⟩
        exact ⟨copy, hk, rfl, rfl, rfl⟩

theorem Consistent.mem_liveCalls (hix : ix.Consistent) {f : FunctionId} {c : SplitCall} :
    c ∈ ix.liveCalls report f ↔ ix.record? c.id = some c.record ∧ c.record.caller = f ∧
      c.record.inlined = false ∧ (copyMap report)[c.record.location]? = some c.copy := by
  rw [liveCalls, List.mem_filterMap]
  constructor
  · rintro ⟨id, hid, hc⟩
    obtain ⟨rfl, hr, hi, hk⟩ := liveCall_eq_some.mp hc
    obtain ⟨r, hr', hcaller⟩ := hix.mem_sitesIn.mp hid
    cases hr.symm.trans hr'
    exact ⟨hr, hcaller, hi, hk⟩
  · rintro ⟨hr, hcaller, hi, hk⟩
    exact ⟨c.id, hix.mem_sitesIn.mpr ⟨c.record, hr, hcaller⟩,
      liveCall_eq_some.mpr ⟨rfl, hr, hi, hk⟩⟩

/-- A call that could be split is a live one, with its copy reported. -/
theorem splitCall_eq_ok {s : Snapshot} {id : SiteId} {c : Option SplitCall}
    (h : ix.splitCall s (copyMap report) id = .ok c) : c = ix.liveCall report id ∧
      ∀ r, ix.record? id = some r → r.inlined = false →
        ∃ k, (copyMap report)[r.location]? = some k := by
  rw [splitCall] at h
  rw [liveCall]
  cases hr : ix.record? id with
  | none => simp [hr] at h
  | some r =>
    simp only [hr] at h
    cases hi : r.inlined with
    | true =>
      simp only [hi, if_true, Except.ok.injEq] at h
      refine ⟨by simp [hi, ← h], ?_⟩
      rintro _ ⟨⟩ hlive
      rw [hi] at hlive
      cases hlive
    | false =>
      simp only [hi, Bool.false_eq_true, if_false] at h
      cases hk : (copyMap report)[r.location]? with
      | none => simp [hk] at h
      | some k =>
        simp only [hk] at h
        split at h
        · cases h
          refine ⟨by simp [hi, hk], ?_⟩
          rintro _ ⟨⟩ -
          exact ⟨k, hk⟩
        · cases h

/-- What an inline is going to change, if nothing stands in the way. -/
def plan (ix : SiteIndex) (report : List CopiedCall) (id : SiteId) (call : SiteRecord)
    (old : Nat) : Split where
  caller := call.caller
  callee := call.callee
  old := old
  new := entriesLeft old call.frequency
    (ix.isStillCalled call.callee id (ix.liveCalls report call.callee))
  saturated := old < call.frequency
  calls := ix.liveCalls report call.callee

/-- The copies of all calls in a function that are still there were reported. -/
def Covers (report : List CopiedCall) (ix : SiteIndex) (f : FunctionId) : Prop :=
  ∀ id r, ix.record? id = some r → r.caller = f → r.inlined = false →
    ∃ k, (copyMap report)[r.location]? = some k

theorem Consistent.covers (hix : ix.Consistent) {f : FunctionId}
    (h : ∀ id ∈ ix.sitesIn f, ∀ r, ix.record? id = some r → r.inlined = false →
      ∃ k, (copyMap report)[r.location]? = some k) : Covers report ix f :=
  fun id r hr hcaller => h id (hix.mem_sitesIn.mpr ⟨r, hr, hcaller⟩) r hr

/-- A split that can be done is the one planned, and the copies of the calls were reported. -/
theorem split_eq_ok {s : Snapshot} {id : SiteId} {change : Split}
    (h : ix.split s id report = .ok change) : ∃ call callee, ix.record? id = some call ∧
      ix.function? call.callee = some callee ∧ callee.frequency ≠ 0 ∧
      (∀ id' ∈ ix.sitesIn call.callee, ∀ r, ix.record? id' = some r → r.inlined = false →
        ∃ k, (copyMap report)[r.location]? = some k) ∧
      change = ix.plan report id call callee.frequency := by
  rw [split] at h
  cases hcall : ix.record? id with
  | none => simp [hcall] at h
  | some call =>
    simp only [hcall] at h
    cases hcallee : ix.function? call.callee with
    | none => simp [hcallee] at h
    | some callee =>
      simp only [hcallee] at h
      split at h
      · cases h
      rename_i hzero
      rcases mapM_cases (ix.sitesIn call.callee) fun id' _ c hc =>
          (splitCall_eq_ok hc).1 with
        ⟨hall, hcalls⟩ | ⟨_, -, e, -, herror⟩
      · rw [hcalls] at h
        simp only [bind, Except.bind, pure, Except.pure, List.filterMap_map, Except.ok.injEq] at h
        exact ⟨call, callee, rfl, hcallee, hzero,
          fun id' hid => (splitCall_eq_ok (hall id' hid)).2, h.symm⟩
      · rw [herror] at h
        cases h

section Inlined

variable {id : SiteId} {call : SiteRecord} {callee : FunctionRecord} {body : FunctionBody}

/-- The copy of a call that is still there was reported, and a call stands in its place. -/
theorem Tracks.exists_copy (hix : ix.Tracks p) (inlines : p.Inlines q call.toCallSite body report)
    {id' : SiteId} {r : SiteRecord} (hr : ix.record? id' = some r)
    (hcaller : r.caller = call.callee) (hi : r.inlined = false) :
    ∃ k, (copyMap report)[r.location]? = some k ∧ ⟨r.location, k⟩ ∈ report ∧
      q.callAt? k = some r.callee := by
  obtain ⟨hfun, hcall, -⟩ := hix.live id' r hr hi
  rcases copyMap_cases report r.location with ⟨k, hk, hmem⟩ | ⟨-, hnone⟩
  · exact ⟨k, hk, hmem, (inlines.copied _ hmem).2.2.2.2.trans hcall⟩
  · obtain ⟨c, hc, hsource⟩ := inlines.reported r.location (hfun.trans hcaller)
      (Option.isSome_of_eq_some hcall)
    exact absurd hsource (hnone c hc)

theorem Tracks.splitCall_eq (hix : ix.Tracks p) (inlines : p.Inlines q call.toCallSite body report)
    {id' : SiteId} (hid : id' ∈ ix.sitesIn call.callee) :
    ix.splitCall q.snapshot (copyMap report) id' = .ok (ix.liveCall report id') := by
  obtain ⟨r, hr, hcaller⟩ := hix.consistent.mem_sitesIn.mp hid
  rw [splitCall, liveCall, hr]
  cases hi : r.inlined with
  | true => simp only [hi, if_true]
  | false =>
    obtain ⟨k, hk, -, hcopy⟩ := hix.exists_copy inlines hr hcaller hi
    simp only [hi, Bool.false_eq_true, if_false, hk, q.shapeAt_snapshot, hcopy, if_true,
      Option.map_some]

theorem Tracks.split_eq (hix : ix.Tracks p) (inlines : p.Inlines q call.toCallSite body report)
    (hcall : ix.record? id = some call) (hcallee : ix.function? call.callee = some callee) :
    ix.split q.snapshot id report = if callee.frequency = 0 then .error (.zeroFrequency call.callee)
      else .ok (ix.plan report id call callee.frequency) := by
  rw [split, hcall]
  simp only [hcallee]
  split
  · rfl
  · rcases mapM_cases (ix.sitesIn call.callee) fun _ _ _ hc => (splitCall_eq_ok hc).1 with
      ⟨-, hcalls⟩ | ⟨id', hid, e, he, -⟩
    · rw [hcalls]
      simp only [bind, Except.bind, pure, Except.pure, List.filterMap_map]
      rfl
    · rw [hix.splitCall_eq inlines hid] at he
      cases he

/-- The function of a call that is marked is still called if a call to it is left. -/
theorem Consistent.isStillCalled_iff (hix : ix.Consistent) (hcall : ix.record? id = some call)
    (hmarked : call.inlined = true) (f : FunctionId) :
    ix.isStillCalled f id (ix.liveCalls report call.callee) = true ↔
      ∃ id' r, ix.record? id' = some r ∧ r.inlined = false ∧ r.callee = f := by
  simp only [isStillCalled, Bool.or_eq_true, List.any_eq_true, decide_eq_true_eq, Bool.and_eq_true,
    Prod.exists, Bool.not_eq_true', hix.mem_ordered, hix.mem_liveCalls]
  constructor
  · rintro (⟨c, ⟨hr, -, hi, -⟩, hf⟩ | ⟨id', r, hr, ⟨-, hf⟩, hi⟩)
    · exact ⟨c.id, c.record, hr, hi, hf⟩
    · exact ⟨id', r, hr, hi, hf⟩
  · rintro ⟨id', r, hr, hi, hf⟩
    refine .inr ⟨id', r, hr, ⟨?_, hf⟩, hi⟩
    rintro rfl
    rw [hcall, Option.some.injEq] at hr
    rw [← hr, hmarked] at hi
    cases hi

/-- The copies go to new blocks, so no other call is in the way. -/
theorem Tracks.objection?_copies (hix : ix.Tracks p)
    (inlines : p.Inlines q call.toCallSite body report) (old : Nat) :
    ix.objection? call.caller [] (ix.plan report id call old).copies = none := by
  have hreported : ∀ c ∈ ix.liveCalls report call.callee, ⟨c.record.location, c.copy⟩ ∈ report := by
    intro c hc
    obtain ⟨-, -, -, hk⟩ := hix.consistent.mem_liveCalls.mp hc
    rcases copyMap_cases report c.record.location with ⟨k, hk', hmem⟩ | ⟨hnone, -⟩
    · cases hk.symm.trans hk'
      exact hmem
    · rw [hnone] at hk
      cases hk
  refine objection?_eq_none.mpr ⟨?_, ?_⟩
  · intro r hr
    obtain ⟨c, hc, rfl⟩ := List.mem_map.mp hr
    refine ⟨rfl, fun htaken => ?_, List.not_mem_nil⟩
    obtain ⟨id', r', hr', hl⟩ := hix.consistent.mem_sites.mp htaken
    have hlt := hix.block_lt id' r' hr'
    have hge := (inlines.copied _ (hreported c hc)).2.2.1
    rw [hl] at hlt
    exact Nat.not_lt.mpr hge hlt
  · rw [Split.copies, List.pairwise_map, plan, liveCalls, List.pairwise_filterMap]
    refine (hix.consistent.nodup_sitesIn call.callee).imp_of_mem ?_
    intro id₁ id₂ h₁ h₂ hne c₁ hc₁ c₂ hc₂ heq
    have hm₁ := hreported c₁ (List.mem_filterMap.mpr ⟨id₁, h₁, hc₁⟩)
    have hm₂ := hreported c₂ (List.mem_filterMap.mpr ⟨id₂, h₂, hc₂⟩)
    obtain ⟨-, hr₁, -⟩ := liveCall_eq_some.mp hc₁
    obtain ⟨-, hr₂, -⟩ := liveCall_eq_some.mp hc₂
    exact hne (hix.consistent.id_eq hr₁ hr₂ ((inlines.paired _ hm₁ _ hm₂).mpr heq))

end Inlined

/-! ### What the calls keep -/

/-- The index with the frequencies that a split leaves to the calls. -/
theorem settle_eq (ix : SiteIndex) (s : Split) : ix.settle s =
    (s.calls.foldl (fun ix c => ix.modifyRecord c.id fun r =>
      { r with frequency := share c.record.frequency s.new s.old }) ix).modifyFunction s.callee
        fun f => { f with frequency := s.new } := by
  rw [settle, Split.kept, List.foldl_map]

theorem record?_settle (ix : SiteIndex) (s : Split) (id : SiteId) :
    (∃ c ∈ s.calls, c.id = id ∧ (ix.settle s).record? id = (ix.record? id).map fun r =>
      { r with frequency := share c.record.frequency s.new s.old }) ∨
    ((∀ c ∈ s.calls, c.id ≠ id) ∧ (ix.settle s).record? id = ix.record? id) := by
  rw [settle_eq]
  change (∃ c ∈ s.calls, c.id = id ∧ (s.calls.foldl _ ix).record? id = _) ∨
    ((∀ c ∈ s.calls, c.id ≠ id) ∧ (s.calls.foldl _ ix).record? id = _)
  generalize s.calls = calls
  induction calls generalizing ix with
  | nil => exact .inr ⟨by simp, rfl⟩
  | cons c rest ih =>
    rw [List.foldl_cons]
    rcases ih (ix.modifyRecord c.id fun r =>
        { r with frequency := share c.record.frequency s.new s.old }) with
      ⟨d, hd, hid, hrecord⟩ | ⟨hne, hrecord⟩
    · refine .inl ⟨d, List.mem_cons_of_mem c hd, hid, ?_⟩
      rw [hrecord, record?_modifyRecord, Option.map_map]
      congr 1
      funext r
      simp only [Function.comp_apply]
      split <;> rfl
    · rw [hrecord, record?_modifyRecord]
      by_cases hc : c.id = id
      · refine .inl ⟨c, List.mem_cons_self, hc, ?_⟩
        simp only [hc, if_true]
      · refine .inr ⟨?_, by simp [hc]⟩
        intro d hd
        rcases List.mem_cons.mp hd with rfl | hd
        · exact hc
        · exact hne d hd

/-- Apart from the records of calls, settling changes the entries of the callee. -/
theorem settle_eq_with_records (ix : SiteIndex) (s : Split) : ∃ records, ix.settle s =
    { ix with records }.modifyFunction s.callee fun f => { f with frequency := s.new } := by
  rw [settle_eq]
  suffices h : ∃ records, s.calls.foldl (fun ix c => ix.modifyRecord c.id fun r =>
      { r with frequency := share c.record.frequency s.new s.old }) ix = { ix with records } by
    obtain ⟨records, hrecords⟩ := h
    exact ⟨records, by rw [hrecords]⟩
  generalize s.calls = calls
  induction calls generalizing ix with
  | nil => exact ⟨ix.records, rfl⟩
  | cons c rest ih => exact ih _

theorem figures_settle (ix : SiteIndex) (s : Split) (f : FunctionId) :
    ((ix.settle s).function? f).map FunctionRecord.figures =
      ((ix.function? f).map FunctionRecord.figures).map fun r =>
        if f = s.callee then { r with frequency := s.new } else r := by
  obtain ⟨records, heq⟩ := ix.settle_eq_with_records s
  rw [heq, function?_modifyFunction, Option.map_map, Option.map_map]
  change (ix.function? f).map _ = _
  congr 1
  funext r
  by_cases hf : f = s.callee
  · simp [hf, FunctionRecord.figures]
  · simp [hf, Ne.symm hf]

theorem Consistent.settle (hix : ix.Consistent) (s : Split) : (ix.settle s).Consistent := by
  rw [settle_eq]
  refine Consistent.modifyFunction ?_ _ fun _ => rfl
  generalize s.calls = calls
  induction calls generalizing ix with
  | nil => exact hix
  | cons c rest ih => exact ih (hix.modifyRecord c.id fun _ => rfl)

/-! ### The redistribution -/

theorem redistribute_apply (s : Snapshot) (id : SiteId) (report : List CopiedCall)
    (ix : SiteIndex) : redistribute s id report ix = match ix.split s id report with
      | .error e => .error e ix
      | .ok split => match addSites split.caller split.copies ix with
        | .error e ix' => .error e ix'
        | .ok copies ix' =>
          .ok ⟨split.callee, split.old, split.new, copies, split.saturated⟩
            (ix'.settle split) := by
  cases hsplit : ix.split s id report with
  | error e => simp [redistribute, hsplit]
  | ok split =>
    cases hadd : addSites split.caller split.copies ix <;> simp [redistribute, hsplit, hadd]

/-- The index after a split was carried out. -/
def carryOut (ix : SiteIndex) (s : Split) : SiteIndex := (s.copies.foldl track ix).settle s

theorem generation_carryOut (ix : SiteIndex) (s : Split) :
    (ix.carryOut s).generation = ix.generation := by
  obtain ⟨records, heq⟩ := settle_eq_with_records (s.copies.foldl track ix) s
  rw [carryOut, heq]
  exact generation_trackAll ix s.copies

theorem figures_carryOut (ix : SiteIndex) (s : Split) (f : FunctionId) :
    ((ix.carryOut s).function? f).map FunctionRecord.figures =
      (ix.function? f).map fun r =>
        if f = s.callee then { r.figures with frequency := s.new } else r.figures := by
  rw [carryOut, figures_settle, figures_trackAll, Option.map_map]
  rfl

section Contract

variable {id : SiteId} {call : SiteRecord} {callee : FunctionRecord} {body : FunctionBody}

/-- Settling does not touch the copies. -/
theorem record?_carryOut_of_none (old : Nat) {id' : SiteId} (hid : ix.record? id' = none) :
    (ix.carryOut (ix.plan report id call old)).record? id' =
      ((ix.plan report id call old).copies.foldl track ix).record? id' := by
  rcases record?_settle ((ix.plan report id call old).copies.foldl track ix)
      (ix.plan report id call old) id' with ⟨c, hc, rfl, -⟩ | ⟨-, hrecord⟩
  · obtain ⟨_, -, hlive⟩ := List.mem_filterMap.mp hc
    obtain ⟨rfl, hr, -⟩ := liveCall_eq_some.mp hlive
    rw [hid] at hr
    cases hr
  · exact hrecord

/-- A call that is still there keeps its share of the runs. -/
theorem record?_carryOut_of_live (old : Nat) {site : SiteId} {r : SiteRecord}
    (hsite : site ∈ ix.sitesIn call.callee) (hr : ix.record? site = some r)
    (hlive : r.inlined = false) {l : Location} (hl : (copyMap report)[r.location]? = some l) :
    (ix.carryOut (ix.plan report id call old)).record? site =
      some (r.keep (ix.plan report id call old).new old) := by
  have hmem : ⟨site, r, l⟩ ∈ ix.liveCalls report call.callee :=
    List.mem_filterMap.mpr ⟨site, hsite, liveCall_eq_some.mpr ⟨rfl, hr, hlive, hl⟩⟩
  have hmid := (record?_trackAll ix site (ix.plan report id call old).copies r).mpr (.inl hr)
  rcases record?_settle ((ix.plan report id call old).copies.foldl track ix)
      (ix.plan report id call old) site with ⟨c, hc, rfl, hrecord⟩ | ⟨hne, -⟩
  · obtain ⟨_, -, hc⟩ := List.mem_filterMap.mp hc
    obtain ⟨rfl, hr', -⟩ := liveCall_eq_some.mp hc
    cases hr.symm.trans hr'
    rw [carryOut, hrecord, hmid]
    rfl
  · exact absurd rfl (hne _ hmem)

/-- The copies of calls are found behind the records of the index. -/
theorem exists_record?_carryOut (id : SiteId) (old : Nat) {site : SiteId} {r : SiteRecord}
    (hsite : site ∈ ix.sitesIn call.callee) (hr : ix.record? site = some r)
    (hlive : r.inlined = false) {l : Location} (hl : (copyMap report)[r.location]? = some l) :
    ∃ n < (ix.plan report id call old).copies.length,
      (ix.carryOut (ix.plan report id call old)).record? ⟨ix.records.size + n⟩ =
        some (r.copyTo call.caller l (ix.plan report id call old).new old) := by
  have hmem : ⟨site, r, l⟩ ∈ ix.liveCalls report call.callee :=
    List.mem_filterMap.mpr ⟨site, hsite, liveCall_eq_some.mpr ⟨rfl, hr, hlive, hl⟩⟩
  have hplanned : r.copyTo call.caller l (ix.plan report id call old).new old ∈
      (ix.plan report id call old).copies := List.mem_map.mpr ⟨_, hmem, rfl⟩
  obtain ⟨n, hn⟩ := List.mem_iff_getElem?.mp hplanned
  refine ⟨n, (List.getElem?_eq_some_iff.mp hn).1, ?_⟩
  rw [record?_carryOut_of_none old (ix.record?_eq_none_of_le _ (Nat.le_add_right _ _))]
  exact (record?_trackAll _ _ _ _).mpr (.inr ⟨n, rfl, hn⟩)

/-- Copying and settling as planned keep the contract. -/
theorem Consistent.redistributes (hix : ix.Consistent) (hcaller : call.caller ∈ ix.functions)
    (covers : Covers report ix call.callee) (old : Nat)
    (free : ix.objection? call.caller [] (ix.plan report id call old).copies = none) :
    ix.Redistributes (ix.carryOut (ix.plan report id call old)) call old
      (ix.plan report id call old).new report := by
  have hcopy : ∀ {id' r}, ix.record? id' = some r → r.caller = call.callee → r.inlined = false →
      ∃ k, (copyMap report)[r.location]? = some k ∧ ⟨r.location, k⟩ ∈ report := by
    intro id' r hr hcallee hi
    obtain ⟨k, hk⟩ := covers id' r hr hcallee hi
    rcases copyMap_cases report r.location with ⟨k', hk', hmem⟩ | ⟨hnone, -⟩
    · cases hk.symm.trans hk'
      exact ⟨k, hk, hmem⟩
    · rw [hnone] at hk
      cases hk
  constructor
  case consistent => exact (hix.trackAll hcaller free).settle _
  case generation => exact ix.generation_carryOut _
  case figures => exact ix.figures_carryOut _
  case kept =>
    intro id' r hr
    by_cases hsplit : r.caller = call.callee ∧ r.inlined = false
    · obtain ⟨k, hk⟩ := covers id' r hr hsplit.1 hsplit.2
      rw [if_pos hsplit]
      exact record?_carryOut_of_live old (hix.mem_sitesIn.mpr ⟨r, hr, hsplit.1⟩) hr hsplit.2 hk
    · rw [if_neg hsplit]
      have hmid := (record?_trackAll ix id' (ix.plan report id call old).copies r).mpr (.inl hr)
      rcases record?_settle ((ix.plan report id call old).copies.foldl SiteIndex.track ix)
          (ix.plan report id call old) id' with ⟨c, hc, rfl, -⟩ | ⟨-, hrecord⟩
      · obtain ⟨hr', hcallee, hi, -⟩ := hix.mem_liveCalls.mp hc
        cases hr.symm.trans hr'
        exact absurd ⟨hcallee, hi⟩ hsplit
      · rw [carryOut, hrecord, hmid]
  case copied =>
    intro id' r hr hcallee hi
    obtain ⟨k, hk, hmem⟩ := hcopy hr hcallee hi
    obtain ⟨n, -, hn⟩ := exists_record?_carryOut id old
      (hix.mem_sitesIn.mpr ⟨r, hr, hcallee⟩) hr hi hk
    exact ⟨_, k, hmem, hn⟩
  case only =>
    intro id' r' hr'
    cases hold : ix.record? id' with
    | some r => exact .inl rfl
    | none =>
      right
      rw [record?_carryOut_of_none old hold, record?_trackAll, hold] at hr'
      obtain ⟨n, -, hn⟩ := hr'.resolve_left (by simp)
      obtain ⟨c, hc, rfl⟩ := List.mem_map.mp (List.mem_of_getElem? hn)
      obtain ⟨hr, hcallee, hi, hk⟩ := hix.mem_liveCalls.mp hc
      obtain ⟨k, hk', hmem⟩ := hcopy hr hcallee hi
      cases hk.symm.trans hk'
      exact ⟨c.id, c.record, c.copy, hr, hcallee, hi, hmem, rfl⟩

/-- A redistribution that fails changes nothing. -/
theorem redistribute_eq_error {s : Snapshot} {e : Error} {ix' : SiteIndex}
    (h : redistribute s id report ix = .error e ix') : ix' = ix := by
  rw [redistribute_apply] at h
  cases hsplit : ix.split s id report with
  | error e' =>
    rw [hsplit] at h
    cases h
    rfl
  | ok change =>
    simp only [hsplit, addSites_apply] at h
    split at h
    · rename_i herror
      cases h
      split at herror
      · cases herror
        rfl
      · split at herror
        · cases herror
          rfl
        · cases herror
    · cases h

/-- A redistribution that succeeds carries out what was planned, in any index. -/
theorem redistribute_eq_carryOut {s : Snapshot} {done : Redistribution} {ix' : SiteIndex}
    (h : redistribute s id report ix = .ok done ix') : ∃ call callee, ix.record? id = some call ∧
      ix.function? call.callee = some callee ∧ callee.frequency ≠ 0 ∧
      (∀ id' ∈ ix.sitesIn call.callee, ∀ r, ix.record? id' = some r → r.inlined = false →
        ∃ k, (copyMap report)[r.location]? = some k) ∧
      ix.objection? call.caller [] (ix.plan report id call callee.frequency).copies = none ∧
      ix' = ix.carryOut (ix.plan report id call callee.frequency) ∧
      done = ⟨call.callee, callee.frequency, (ix.plan report id call callee.frequency).new,
        (List.range (ix.plan report id call callee.frequency).copies.length).map
          fun n => ⟨ix.records.size + n⟩,
        decide (callee.frequency < call.frequency)⟩ := by
  rw [redistribute_apply] at h
  cases hsplit : ix.split s id report with
  | error e =>
    rw [hsplit] at h
    cases h
  | ok change =>
    obtain ⟨call, callee, hcall, hcallee, hentered, hcovers, rfl⟩ := split_eq_ok hsplit
    simp only [hsplit, addSites_apply] at h
    split at h
    · cases h
    · rename_i hadded
      split at hadded
      · cases hadded
      · cases hobjection : ix.objection? (ix.plan report id call callee.frequency).caller []
            (ix.plan report id call callee.frequency).copies with
        | some e =>
          rw [hobjection] at hadded
          cases hadded
        | none =>
          rw [hobjection] at hadded
          cases hadded
          cases h
          exact ⟨call, callee, hcall, hcallee, hentered, hcovers, hobjection, rfl, rfl⟩

theorem Consistent.redistribute_eq_carryOut (hix : ix.Consistent) {s : Snapshot}
    {done : Redistribution} {ix' : SiteIndex} (h : redistribute s id report ix = .ok done ix') :
    ∃ call callee, ix.record? id = some call ∧
      ix.function? call.callee = some callee ∧ callee.frequency ≠ 0 ∧
      done.saturated = decide (callee.frequency < call.frequency) ∧
      Covers report ix call.callee ∧
      ix.objection? call.caller [] (ix.plan report id call callee.frequency).copies = none ∧
      ix' = ix.carryOut (ix.plan report id call callee.frequency) := by
  obtain ⟨call, callee, hcall, hcallee, hentered, hcovers, hfree, rfl, rfl⟩ :=
    SiteIndex.redistribute_eq_carryOut h
  exact ⟨call, callee, hcall, hcallee, hentered, rfl, hix.covers hcovers, hfree, rfl⟩

/-- **A redistribution that succeeds keeps the contract**, whatever program it is told of. -/
theorem Consistent.redistribute_eq_ok (hix : ix.Consistent) {s : Snapshot}
    {done : Redistribution} {ix' : SiteIndex} (h : redistribute s id report ix = .ok done ix') :
    ∃ call callee, ix.record? id = some call ∧
      ix.function? call.callee = some callee ∧ callee.frequency ≠ 0 ∧
      done.saturated = decide (callee.frequency < call.frequency) ∧
      ix.Redistributes ix' call callee.frequency
        (entriesLeft callee.frequency call.frequency
          (ix.isStillCalled call.callee id (ix.liveCalls report call.callee))) report := by
  obtain ⟨call, callee, hcall, hcallee, hentered, hsaturated, hcovers, hfree, rfl⟩ :=
    hix.redistribute_eq_carryOut h
  exact ⟨call, callee, hcall, hcallee, hentered, hsaturated,
    hix.redistributes (hix.caller id call hcall) hcovers callee.frequency hfree⟩

/-- A split fails for want of entries only where the callee has none. -/
theorem split_eq_zeroFrequency {s : Snapshot} {f : FunctionId}
    (h : ix.split s id report = .error (.zeroFrequency f)) : ∃ call callee,
      ix.record? id = some call ∧ ix.function? call.callee = some callee ∧
      callee.frequency = 0 := by
  rw [split] at h
  cases hcall : ix.record? id with
  | none => simp [hcall] at h
  | some call =>
    simp only [hcall] at h
    cases hcallee : ix.function? call.callee with
    | none => simp [hcallee] at h
    | some callee =>
      simp only [hcallee] at h
      split at h
      · rename_i hzero
        exact ⟨call, callee, rfl, hcallee, hzero⟩
      · -- The single calls fail for other reasons.
        rcases mapM_cases (ix.sitesIn call.callee) fun _ _ _ hc => (splitCall_eq_ok hc).1 with
          ⟨-, hcalls⟩ | ⟨id', -, e, he, herror⟩
        · rw [hcalls] at h
          cases h
        · rw [herror] at h
          cases h
          rw [splitCall] at he
          split at he
          · cases he
          · split at he
            · cases he
            · split at he
              · cases he
              · split at he <;> cases he

/-- A redistribution fails for want of entries only where the callee has none. -/
theorem redistribute_eq_zeroFrequency {s : Snapshot} {f : FunctionId} {ix' : SiteIndex}
    (h : redistribute s id report ix = .error (.zeroFrequency f) ix') : ∃ call callee,
      ix.record? id = some call ∧ ix.function? call.callee = some callee ∧
      callee.frequency = 0 := by
  rw [redistribute_apply] at h
  cases hsplit : ix.split s id report with
  | error e =>
    simp only [hsplit] at h
    cases h
    exact split_eq_zeroFrequency hsplit
  | ok change =>
    simp only [hsplit] at h
    split at h
    · rename_i hadded
      cases h
      exact absurd hadded (addSites_ne_zeroFrequency _ _ _ _ _)
    · cases h

/-- **The redistribution after an inline** fails if the callee was never entered, and in no other
way. -/
theorem redistribute_cases (hix : ix.Tracks p) (hcaller : call.caller ∈ ix.functions)
    (inlines : p.Inlines q call.toCallSite body report) (hcall : ix.record? id = some call)
    (hmarked : call.inlined = true) (hcallee : ix.function? call.callee = some callee) :
    (callee.frequency = 0 ∧
      redistribute q.snapshot id report ix = .error (.zeroFrequency call.callee) ix) ∨
    (callee.frequency ≠ 0 ∧ ∃ done ix' still,
      redistribute q.snapshot id report ix = .ok done ix' ∧
      done.saturated = decide (callee.frequency < call.frequency) ∧
      (still = true ↔ ∃ id' r, ix.record? id' = some r ∧ r.inlined = false ∧
        r.callee = call.callee) ∧
      ix.Redistributes ix' call callee.frequency
        (entriesLeft callee.frequency call.frequency still) report) := by
  rw [redistribute_apply, hix.split_eq inlines hcall hcallee]
  by_cases hzero : callee.frequency = 0
  · exact .inl ⟨hzero, by rw [if_pos hzero]⟩
  · have hcaller' : (ix.plan report id call callee.frequency).caller ∈ ix.functions := hcaller
    have hobjection : ix.objection? (ix.plan report id call callee.frequency).caller []
        (ix.plan report id call callee.frequency).copies = none :=
      hix.objection?_copies inlines callee.frequency
    simp only [if_neg hzero, addSites_apply, hcaller', not_true_eq_false, if_false, hobjection]
    have hcovers : Covers report ix call.callee := fun id' r hr hcaller hi =>
      (hix.exists_copy inlines hr hcaller hi).imp fun _ => And.left
    exact .inr ⟨hzero, _, _, _, rfl, rfl,
      hix.consistent.isStillCalled_iff hcall hmarked call.callee,
      hix.consistent.redistributes hcaller hcovers callee.frequency hobjection⟩

theorem entriesLeft_le (frequency : Nat) (still : Bool) {old : Nat} (hpos : 0 < old) :
    entriesLeft old frequency still ≤ old := by
  rw [entriesLeft]
  split <;> omega

/-- A function that is still called keeps an entry. -/
theorem entriesLeft_ne_zero (old frequency : Nat) : entriesLeft old frequency true ≠ 0 := by
  rw [entriesLeft]
  split
  · exact Nat.one_ne_zero
  · rename_i hlt
    simp only [Bool.and_true, decide_eq_true_eq] at hlt
    omega

/-- A call that is there after a redistribution was there before, or is the copy of one that was. It
runs no more often than that one did. -/
theorem Redistributes.exists_source {ix' : SiteIndex} {old new : Nat}
    (h : ix.Redistributes ix' call old new report) (hle : new ≤ old) (hpos : 0 < old)
    {id' : SiteId} {r' : SiteRecord} (hr' : ix'.record? id' = some r')
    (hlive' : r'.inlined = false) : ∃ id r, ix.record? id = some r ∧ r.inlined = false ∧
      r'.callee = r.callee ∧ r'.frequency ≤ r.frequency := by
  rcases h.only id' r' hr' with hold | ⟨id, r, l, hr, -, hlive, -, rfl⟩
  · obtain ⟨r, hr⟩ := Option.isSome_iff_exists.mp hold
    rw [h.kept id' r hr, Option.some.injEq] at hr'
    subst hr'
    by_cases hsplit : r.caller = call.callee ∧ r.inlined = false
    · rw [if_pos hsplit]
      exact ⟨id', r, hr, hsplit.2, rfl, share_le r.frequency hle hpos⟩
    · rw [if_neg hsplit] at hlive' ⊢
      exact ⟨id', r, hr, hlive', rfl, Nat.le_refl _⟩
  · exact ⟨id, r, hr, hlive, rfl, share_le r.frequency (Nat.sub_le old new) hpos⟩

/-- **The index follows the program** through an inline. -/
theorem Redistributes.tracks {ix' : SiteIndex} {old new : Nat}
    (h : ix.Redistributes ix' call old new report) (wf : p.WellFormed) (hix : ix.Tracks p)
    (inlines : p.Inlines q call.toCallSite body report) (hcall : ix.record? id = some call)
    (hmarked : call.inlined = true) : ix'.Tracks q := by
  have hfunctions : ∀ f, f ∈ ix'.functions ↔ f ∈ ix.functions := by
    intro f
    rw [mem_functions_iff, mem_functions_iff, ← Option.isSome_map (f := FunctionRecord.figures),
      h.figures, Option.isSome_map]
  -- Every record is an old one, up to its frequency, or stands for a reported copy.
  have hrecord : ∀ id' r', ix'.record? id' = some r' →
      (∃ r, ix.record? id' = some r ∧ r'.toCallSite = r.toCallSite ∧ r'.inlined = r.inlined) ∨
      (r'.location.function = r'.caller ∧ q.callAt? r'.location = some r'.callee ∧
        r'.callee ∈ ix.functions) := by
    intro id' r' hr'
    rcases h.only id' r' hr' with hold | ⟨id₀, r, l, hr, hcaller, hi, hmem, rfl⟩
    · obtain ⟨r, hr⟩ := Option.isSome_iff_exists.mp hold
      rw [h.kept id' r hr, Option.some.injEq] at hr'
      refine .inl ⟨r, hr, ?_⟩
      subst hr'
      split <;> exact ⟨rfl, rfl⟩
    · obtain ⟨-, hlcall, hcallee⟩ := hix.live id₀ r hr hi
      obtain ⟨-, hfun, -, -, hcopy⟩ := inlines.copied _ hmem
      exact .inr ⟨hfun, hcopy.trans hlcall, hcallee⟩
  constructor
  case consistent => exact h.consistent
  case functions =>
    intro f
    rw [hfunctions, hix.functions, inlines.mem_functions_snapshot wf]
  case live =>
    intro id' r' hr' hi'
    rw [hfunctions]
    rcases hrecord id' r' hr' with ⟨r, hr, hsite, hi⟩ | hcopy
    · rw [hsite]
      rw [hi] at hi'
      obtain ⟨hfun, hlcall, hcallee⟩ := hix.live id' r hr hi'
      refine ⟨hfun, ?_, hcallee⟩
      rw [inlines.kept r.location (hix.block_lt id' r hr), hlcall]
      -- The inlined call is the only one at its location, and it is marked.
      intro hl
      cases hix.consistent.id_eq hr hcall hl
      rw [hcall, Option.some.injEq] at hr
      rw [← hr, hmarked] at hi'
      cases hi'
    · exact hcopy
  case block_lt =>
    intro id' r' hr'
    rcases hrecord id' r' hr' with ⟨r, hr, hsite, -⟩ | ⟨-, hcopy, -⟩
    · rw [hsite]
      exact Nat.lt_of_lt_of_le (hix.block_lt id' r hr) inlines.nextBlock
    · obtain ⟨i, hi, -⟩ := Option.bind_eq_some_iff.mp hcopy
      exact inlines.wellFormed.block_lt_of_instruction? hi

end Contract

end SiteIndex

end Inlining
