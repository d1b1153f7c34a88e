import Inlining.Proofs.Policy.Requests
import Mathlib.Data.List.Forall2
import Mathlib.Data.List.Nodup

/-!
# What was inlined stays so

The record of a call that was chosen is marked, and as long as the index is not built anew this is
final: the mark stays, the record is left alone, and the call is neither returned again nor copied.
What is reported does not matter for this. A report may name calls that were inlined before, name a
call several times, or give places that are taken. A redistribution goes by the records and not by
the report, and if it cannot be carried out it is not begun.

Other records change too, but only in their frequency and their mark: a number stands for the same
call from the day that it was given out. New records come from redistributions alone, at the end of
the arena, one for each call in the body of the callee that was still there.

## Main definitions

* `SiteIndex.Extends` — one index goes on from another
* `SiteIndex.Copies` — the new records of an index, and the records they were copied from

## Main results

* `Policy.entries_extends` — indexes of one generation go on from each other
* `Policy.serve_copies` — new records are copies of calls that are still there
* `Policy.exclusion_monotonic` — what was inlined stays so
-/

namespace Inlining

open Relation

namespace SiteIndex

variable {ix ix' ix'' : SiteIndex} {report : List CopiedCall} {sources : List SiteId}

/-- One index goes on from another: its records stand for the same calls, and those that were marked
are left alone. -/
structure Extends (ix ix' : SiteIndex) : Prop where
  /-- A number stands for the same location, caller and callee. -/
  kept : ∀ id r, ix.record? id = some r →
    ∃ r', ix'.record? id = some r' ∧ r'.toCallSite = r.toCallSite
  /-- A marked record keeps its mark and its frequency. -/
  marked : ∀ id r, ix.record? id = some r → r.inlined = true → ix'.record? id = some r

theorem Extends.refl (ix : SiteIndex) : ix.Extends ix :=
  ⟨fun _ r hr => ⟨r, hr, rfl⟩, fun _ _ hr _ => hr⟩

theorem Extends.trans (h : ix.Extends ix') (h' : ix'.Extends ix'') : ix.Extends ix'' := by
  refine ⟨fun id r hr => ?_, fun id r hr hmark => h'.marked id r (h.marked id r hr hmark) hmark⟩
  obtain ⟨r', hr', hsite⟩ := h.kept id r hr
  obtain ⟨r'', hr'', hsite'⟩ := h'.kept id r' hr'
  exact ⟨r'', hr'', hsite'.trans hsite⟩

/-- A redistribution leaves marked records alone. -/
theorem Redistributes.extends {call : SiteRecord} {old new : Nat}
    (h : ix.Redistributes ix' call old new report) : ix.Extends ix' := by
  refine ⟨fun id r hr => ⟨_, h.kept id r hr, ?_⟩, fun id r hr hmark => ?_⟩
  · split <;> rfl
  · rw [h.kept id r hr, if_neg]
    simp [hmark]

/-! ### Copies -/

/-- The calls that the records stand for, in the order of their numbers. -/
def calls (ix : SiteIndex) : List CallSite := ix.records.toList.map SiteRecord.toCallSite

/-- The new records of the second index stand for copies, one for one and in this order, of the
given calls, which were still there, at places that the report gives. -/
structure Copies (ix ix' : SiteIndex) (report : List CopiedCall) (sources : List SiteId) :
    Prop where
  generation : ix'.generation = ix.generation
  /-- No call is copied twice. -/
  distinct : sources.Nodup
  /-- New records come after the old ones, and each has its source. -/
  appended : ∃ new, ix'.calls = ix.calls ++ new ∧ List.Forall₂ (fun id site =>
    ∃ r, ix.record? id = some r ∧ r.inlined = false ∧ site.callee = r.callee ∧
      ⟨r.location, site.location⟩ ∈ report) sources new

theorem Copies.refl (ix : SiteIndex) (report : List CopiedCall) : ix.Copies ix report [] :=
  ⟨rfl, .nil, [], (List.append_nil _).symm, .nil⟩

theorem Copies.congr (h : ix.Copies ix' report sources)
    (generation : ix''.generation = ix'.generation) (calls : ix''.calls = ix'.calls) :
    ix.Copies ix'' report sources := by
  obtain ⟨new, hnew, hsources⟩ := h.appended
  exact ⟨generation.trans h.generation, h.distinct, new, calls.trans hnew, hsources⟩

theorem calls_modifyRecord (ix : SiteIndex) (id : SiteId) {change : SiteRecord → SiteRecord}
    (keeps : ∀ r, (change r).toCallSite = r.toCallSite) :
    (ix.modifyRecord id change).calls = ix.calls := by
  rw [calls, calls, modifyRecord, Array.toList_modify]
  refine List.ext_getElem? fun n => ?_
  rw [List.getElem?_map, List.getElem?_map, List.getElem?_modify, Option.map_eq_map,
    Option.map_map]
  congr 1
  funext r
  simp only [Function.comp_apply]
  split
  · exact keeps r
  · rfl

theorem calls_settle (ix : SiteIndex) (s : Split) : (ix.settle s).calls = ix.calls := by
  rw [settle_eq]
  change (s.calls.foldl _ ix).calls = ix.calls
  generalize s.calls = calls
  induction calls generalizing ix with
  | nil => rfl
  | cons c rest ih => exact (ih _).trans (ix.calls_modifyRecord c.id fun _ => rfl)

theorem calls_trackAll (ix : SiteIndex) (batch : List SiteRecord) :
    (batch.foldl track ix).calls = ix.calls ++ batch.map SiteRecord.toCallSite := by
  rw [calls, records_trackAll, Array.toList_appendList, List.map_append, calls]

/-- A call is copied at most once. -/
theorem Consistent.nodup_liveCalls (hix : ix.Consistent) (report : List CopiedCall)
    (f : FunctionId) : ((ix.liveCalls report f).map SplitCall.id).Nodup := by
  refine List.Nodup.map_on (fun c hc d hd hid => ?_)
    (List.Nodup.filterMap (fun id id' c hc hc' => ?_) (hix.nodup_sitesIn f))
  · obtain ⟨id, record, copy⟩ := c
    obtain ⟨id', record', copy'⟩ := d
    obtain rfl : id = id' := hid
    obtain ⟨hr, -, -, hplace⟩ := hix.mem_liveCalls.mp hc
    obtain ⟨hr', -, -, hplace'⟩ := hix.mem_liveCalls.mp hd
    cases hr.symm.trans hr'
    cases hplace.symm.trans hplace'
    rfl
  · exact (liveCall_eq_some.mp hc).1.symm.trans (liveCall_eq_some.mp hc').1

/-- **New records are copies of calls that are still there.** -/
theorem Consistent.copies_carryOut (hix : ix.Consistent) (report : List CopiedCall) (id : SiteId)
    (call : SiteRecord) (old : Nat) : ix.Copies (ix.carryOut (ix.plan report id call old)) report
      ((ix.liveCalls report call.callee).map SplitCall.id) := by
  have happended : (ix.carryOut (ix.plan report id call old)).calls = ix.calls ++
      (ix.plan report id call old).copies.map SiteRecord.toCallSite := by
    rw [carryOut, calls_settle, calls_trackAll]
  refine ⟨ix.generation_carryOut _, hix.nodup_liveCalls report call.callee, _, happended, ?_⟩
  rw [Split.copies, List.map_map, List.forall₂_map_left_iff, List.forall₂_map_right_iff]
  refine List.forall₂_same.mpr fun c hc => ?_
  obtain ⟨hr, -, hlive, hplace⟩ := hix.mem_liveCalls.mp hc
  refine ⟨c.record, hr, hlive, rfl, ?_⟩
  rcases copyMap_cases report c.record.location with ⟨place, hplace', hmem⟩ | ⟨hnone, -⟩
  · cases hplace.symm.trans hplace'
    exact hmem
  · cases hplace.symm.trans hnone

end SiteIndex

namespace Policy

variable {start p q : Policy} {request : Request}

/-! ### Within a generation -/

/-- Choosing a call site marks one record and changes no other. -/
theorem extends_take (p : Policy) (id : SiteId) (r : SiteRecord) (size : Nat) :
    p.index.Extends (p.take id r size).index := by
  refine ⟨fun id' r' hr' => ?_, fun id' r' hr' hmark => ?_⟩
  · refine ⟨_, (record?_take p id r size id').trans (congrArg _ hr'), ?_⟩
    split <;> rfl
  · rw [record?_take, hr', Option.map_some]
    split
    · rw [← hmark]
    · rfl

theorem calls_take (p : Policy) (id : SiteId) (r : SiteRecord) (size : Nat) :
    (p.take id r size).index.calls = p.index.calls :=
  SiteIndex.calls_modifyRecord _ id fun _ => rfl

/-- An entry lets the index go on, or it replaces it by one of the next generation. -/
theorem Entry.extends (entry : Entry p q) (hix : p.index.Consistent) :
    (q.index.generation = p.index.generation ∧ p.index.Extends q.index) ∨
      q.index.generation = p.index.generation + 1 := by
  cases entry with
  | counted | reported | remeasured | finished => exact .inl ⟨rfl, .refl _⟩
  | accounted _ redistributed =>
    obtain ⟨_, _, -, -, -, -, hredistributes⟩ := hix.redistribute_eq_ok redistributed
    rw [index_recordRedistribution]
    exact .inl ⟨hredistributes.generation, hredistributes.extends⟩
  | dropped _ redistributed =>
    obtain rfl := SiteIndex.redistribute_eq_error redistributed
    exact .inl ⟨rfl, .refl _⟩
  | renewed => exact .inr rfl
  | adopted _ adopted =>
    obtain ⟨callee, -, -, rfl⟩ := adopt_eq_ok adopted
    exact .inl ⟨rfl, extends_take _ _ _ _⟩
  | refused _ adopted =>
    obtain ⟨rfl | ⟨_, _, rfl⟩, -⟩ := adopt_eq_error adopted
    · exact .inl ⟨rfl, .refl _⟩
    · exact .inl ⟨rfl, .refl _⟩

/-- **Indexes of one generation go on from each other.** Generations never fall. -/
theorem entries_extends (entries : ReflTransGen Entry p q) (hix : p.index.Consistent) :
    p.index.generation ≤ q.index.generation ∧
      (q.index.generation = p.index.generation → p.index.Extends q.index) := by
  induction entries with
  | refl => exact ⟨Nat.le_refl _, fun _ => .refl _⟩
  | @tail s q before entry ih =>
    have hs := invariant_of_entries Entry.consistent before hix
    obtain ⟨hle, hextends⟩ := ih
    rcases entry.extends hs with ⟨hsame, hnext⟩ | hnext
    · rw [hsame]
      exact ⟨hle, fun heq => (hextends heq).trans hnext⟩
    · exact ⟨by omega, fun heq => by omega⟩

/-! ### Choices -/

/-- A call site that is returned was not marked, and it is from then on. -/
theorem Served.marks {c : Choice} (served : Served p (some c) q) (hix : p.index.Consistent) :
    ∃ s id call, ReflTransGen Entry p s ∧ s.index.Consistent ∧
      s.index.generation = c.generation ∧ s.index.record? id = some call ∧
      call.toCallSite = c.site ∧ call.inlined = false ∧ q.index.generation = c.generation ∧
      q.index.record? id = some { call with inlined := true } := by
  cases served with
  | @chosen s id call callee entries _ _ best record callee_eq =>
    have hs := invariant_of_entries Entry.consistent entries hix
    obtain ⟨hlive, -⟩ := Selection.fits_of_best hs best record callee_eq
    refine ⟨s, id, call, entries, hs, rfl, record, rfl, hlive, rfl, ?_⟩
    rw [record?_take]
    exact (congrArg _ record).trans (by simp)

/-- A call site that was returned is not returned again with an index of the same generation. -/
theorem location_ne_of_choices {c d : Choice} {requests : List Request}
    (hix : p.index.Consistent) (hc : p.choice? request = some c)
    (hd : d ∈ (p.serve request).choices requests) (same : c.generation = d.generation) :
    c.site.location ≠ d.site.location := by
  intro heq
  have hserved := served hix request
  rw [hc] at hserved
  obtain ⟨_, id, call, -, -, -, -, hsite, -, hgeneration, hmarked⟩ := hserved.marks hix
  have hq := consistent_serve hix request
  obtain ⟨before, request', _, -, hchoice⟩ := exists_of_mem_choices hd
  have hbefore := serveAll_entries (p.serve request) before
  have hq' := invariant_of_entries Entry.consistent hbefore hq
  have hserved' := served hq' request'
  rw [hchoice] at hserved'
  obtain ⟨s, id', call', hentries, hs, hgeneration', hrecord', hsite', hlive', -⟩ :=
    hserved'.marks hq'
  -- The record of the first choice is still marked when the second one is selected.
  have hextends := (entries_extends (hbefore.trans hentries) hq).2
    (hgeneration'.trans (same.symm.trans hgeneration.symm))
  have hstill := hextends.marked id _ hmarked rfl
  have hlocation : { call with inlined := true }.location = call'.location := by
    rw [← hsite, ← hsite'] at heq
    exact heq
  obtain rfl := hs.id_eq hstill hrecord' hlocation
  cases hstill.symm.trans hrecord'
  cases hlive'

theorem pairwise_choices (hix : p.index.Consistent) (requests : List Request) :
    (p.choices requests).Pairwise fun c d =>
      c.generation = d.generation → c.site.location ≠ d.site.location := by
  induction requests generalizing p with
  | nil => exact .nil
  | cons request rest ih =>
    rw [choices, List.pairwise_append]
    refine ⟨?_, ih (consistent_serve hix request), fun c hc d hd same => ?_⟩
    · cases p.choice? request <;> simp
    · exact location_ne_of_choices hix (Option.mem_toList.mp hc) hd same

end Policy

/-! ### Copies -/

namespace Run

variable {σ : Type} {h : Host σ} {r s : Run σ}

/-- Accounting for an inline copies calls that are still there, and nothing where it fails. -/
theorem account_copies (h : Host σ) (hix : r.policy.index.Consistent) : ∃ sources,
    r.policy.index.Copies ((account h).after r).policy.index r.policy.copies sources := by
  have outcome := account_outcome h r
  rw [Update.after]
  generalize account h r = result at outcome ⊢
  cases outcome with
  | nothing _ policy => exact ⟨[], policy ▸ .refl _ _⟩
  | @redistributed s id done ix _ redistributed policy =>
    have hindex : s.policy.index = ix := by rw [policy, Policy.index_recordRedistribution]
    obtain ⟨call, callee, -, -, -, -, -, -, rfl⟩ := hix.redistribute_eq_carryOut redistributed
    exact ⟨_, hindex ▸ hix.copies_carryOut r.policy.copies id call callee.frequency⟩
  | dropped _ redistributed policy =>
    obtain rfl := SiteIndex.redistribute_eq_error redistributed
    exact ⟨[], policy ▸ .refl _ _⟩

/-- A step that does not build the index anew has accounted for an inline when it selects, and no
more. -/
theorem Selects.copies (selects : Selects h r s) (hix : r.policy.index.Consistent)
    (same : s.policy.index.generation = r.policy.index.generation) : ∃ sources,
    r.policy.index.Copies s.policy.index r.policy.copies sources := by
  have hcopies := account_copies (r := r.tick) h hix
  rw [Update.after, selects.account_eq hix same] at hcopies
  exact hcopies

theorem step_copies (h : Host σ) (hix : r.policy.index.Consistent)
    (same : ((step h).after r).policy.index.generation = r.policy.index.generation) : ∃ sources,
    r.policy.index.Copies ((step h).after r).policy.index r.policy.copies sources := by
  have outcome := step_outcome h r
  rw [Update.after] at same ⊢
  generalize step h r = result at outcome same ⊢
  cases outcome with
  | idle => exact ⟨[], .refl _ _⟩
  | unaccounted _ accounted =>
    have hcopies := account_copies (r := r.tick) h hix
    rw [Update.after, accounted] at hcopies
    exact hcopies
  | @stuck s t _ selects _ optimized =>
    have hindex : t.policy.index = s.policy.index := by
      have outcome := fallBack_outcome h (s.noted h)
      rw [optimized] at outcome
      cases outcome with
      | unmeasured _ policy | unprofiled _ _ policy | unbuilt _ policy => rw [policy]; rfl
    simp only [hindex] at same ⊢
    exact selects.copies hix same
  | done selects => exact selects.copies hix same
  | refused selects _ adopted =>
    obtain ⟨rfl | ⟨_, _, rfl⟩, -⟩ := Policy.adopt_eq_error adopted
    · exact selects.copies hix same
    · exact selects.copies hix same
  | chosen selects _ adopted =>
    obtain ⟨_, -, -, rfl⟩ := Policy.adopt_eq_ok adopted
    obtain ⟨sources, hcopies⟩ := selects.copies hix same
    exact ⟨sources, hcopies.congr rfl (Policy.calls_take _ _ _ _)⟩

end Run

namespace Policy

variable {start p : Policy}

/-- **New records are copies of calls that are still there**, whatever was reported. -/
theorem serve_copies (hix : p.index.Consistent) (request : Request)
    (same : (p.serve request).index.generation = p.index.generation) : ∃ sources,
    p.index.Copies (p.serve request).index p.copies sources := by
  cases request with
  | step h host => exact Run.step_copies (r := { policy := p, host }) h hix same
  | report copies =>
    obtain ⟨_, heq⟩ := after_report copies p
    rw [serve, heq]
    exact ⟨[], .refl _ _⟩

/-- **What was inlined stays so.** Let a policy be set up and asked for anything, in any order and
on any hosts, whether or not it succeeds. Call sites that were returned with indexes of one
generation stand at different places. As long as the generation stays the same, every record stands
for the same call, and those that are marked stay as they are, with their mark and their frequency.
And the records that a request adds to the index, or its accounting alone, stand for copies of calls
that are not marked. -/
theorem exclusion_monotonic {σ : Type} {h : Host σ} {limits : Limits} {oracle : Oracle}
    {host host' : σ} (prepared : prepare h limits oracle host = .ok start host')
    (requests : List Request) :
    ((start.choices requests).Pairwise fun c d =>
      c.generation = d.generation → c.site.location ≠ d.site.location) ∧
    (∀ more, (start.serveAll (requests ++ more)).index.generation =
        (start.serveAll requests).index.generation →
      (start.serveAll requests).index.Extends (start.serveAll (requests ++ more)).index) ∧
    (∀ request, (start.serveAll (requests ++ [request])).index.generation =
        (start.serveAll requests).index.generation →
      ∃ sources, (start.serveAll requests).index.Copies
        (start.serveAll (requests ++ [request])).index (start.serveAll requests).copies sources) ∧
    ∀ (τ : Type) (h : Host τ) (host : τ), ∃ sources, (start.serveAll requests).index.Copies
      ((Run.account h).after { policy := start.serveAll requests, host }).policy.index
      (start.serveAll requests).copies sources := by
  have hstart : start.index.Consistent := Led.consistent prepared .start
  have hix : (start.serveAll requests).index.Consistent :=
    Led.consistent prepared (Led.serveAll .start requests)
  simp only [serveAll_append]
  refine ⟨pairwise_choices hstart requests, fun more same => ?_, fun request same => ?_,
    fun τ h host => ?_⟩
  · exact (entries_extends (serveAll_entries _ more) hix).2 same
  · exact serve_copies hix request same
  · exact Run.account_copies (r := { policy := start.serveAll requests, host }) h hix

/-- A step and a report on the inline that it asks for. The report also names the call that was
inlined, which is none of its business. -/
def wheelRequests : List Request :=
  [.step (Workspace.host 5) { program := Program.wheel 3 },
    .report [⟨⟨⟨0⟩, ⟨0⟩, 0⟩, ⟨⟨0⟩, ⟨1⟩, 0⟩⟩, ⟨⟨⟨1⟩, ⟨1⟩, 0⟩, ⟨⟨0⟩, ⟨3⟩, 0⟩⟩]]

/-- A step after that inline. -/
def wheelStep : Request :=
  .step (Workspace.host 5)
    { program := (Program.inline ⟨⟨⟨0⟩, ⟨0⟩, 0⟩, ⟨0⟩, ⟨1⟩⟩).after (Program.wheel 3) }

/-- Of three functions in a circle, a call of the first is inlined. Its record stays as it is, the
next call chosen is another one, and a record is new. -/
theorem exclusion_monotonic_wheel : ∃ start w',
    prepare (Workspace.host 5) .sixfold ((Program.wheel 3).profile 5).oracle
      { program := Program.wheel 3 } = .ok start w' ∧
    (start.choices (wheelRequests ++ [wheelStep])).map (·.site.location) =
      [⟨⟨0⟩, ⟨0⟩, 0⟩, ⟨⟨0⟩, ⟨3⟩, 0⟩] ∧
    ((start.choices (wheelRequests ++ [wheelStep])).Pairwise fun c d =>
      c.generation = d.generation → c.site.location ≠ d.site.location) ∧
    (start.serveAll (wheelRequests ++ [wheelStep])).index.generation =
      (start.serveAll wheelRequests).index.generation ∧
    (start.serveAll wheelRequests).index.Extends
      (start.serveAll (wheelRequests ++ [wheelStep])).index ∧
    ∃ sources, sources ≠ [] ∧ (start.serveAll wheelRequests).index.Copies
      (start.serveAll (wheelRequests ++ [wheelStep])).index (start.serveAll wheelRequests).copies
      sources := by
  obtain ⟨start, w', prepared⟩ := exists_prepare_eq_ok (w := { program := Program.wheel 3 })
    (Program.built_wheel 3).wellFormed 5 5 .sixfold
  have hrun : ((prepare (Workspace.host 5) .sixfold ((Program.wheel 3).profile 5).oracle).outcome
      { program := Program.wheel 3 }).toOption.any fun start =>
        (start.choices (wheelRequests ++ [wheelStep])).map (·.site.location) =
          [⟨⟨0⟩, ⟨0⟩, 0⟩, ⟨⟨0⟩, ⟨3⟩, 0⟩] ∧
        (start.serveAll (wheelRequests ++ [wheelStep])).index.generation =
          (start.serveAll wheelRequests).index.generation ∧
        (start.serveAll wheelRequests).index.calls.length <
          (start.serveAll (wheelRequests ++ [wheelStep])).index.calls.length := by
    decide +kernel
  simp only [Update.outcome, prepared] at hrun
  obtain ⟨hchoices, same, hgrown⟩ := of_decide_eq_true hrun
  obtain ⟨-, hextends, hcopies, -⟩ := exclusion_monotonic prepared wheelRequests
  obtain ⟨sources, hcopies⟩ := hcopies wheelStep same
  refine ⟨start, w', prepared, hchoices,
    (exclusion_monotonic prepared (wheelRequests ++ [wheelStep])).1, same, hextends _ same,
    sources, ?_, hcopies⟩
  rintro rfl
  obtain ⟨new, hnew, hnil⟩ := hcopies.appended
  cases hnil
  rw [hnew, List.append_nil] at hgrown
  exact Nat.lt_irrefl _ hgrown

end Policy

end Inlining
