import Inlining.Proofs.Program.Entries
import Inlining.Proofs.SiteIndex.Views
import Inlining.SiteIndex.Build

/-!
# What a new index says

The index of a well-formed program has one record for each function and one for each call from a
function of the program to another, with the frequencies that the oracle gives. Building it fails
only where the oracle does not know a block that the index needs.

## Main definitions

* `SiteIndex.Describes` — the index is that of a program, as far as functions have been scanned
* `SiteIndex.Needs` — blocks whose frequencies the index needs
* `SiteIndex.Unknown` — the failure: such a block without a frequency
* `SiteIndex.First` — an index of the first generation
* `SiteIndex.FlagsCycles` — functions that the index takes for non-recursive lie on no cycle

## Main results

* `SiteIndex.first_of_build` — the views of an index that was built agree
* `SiteIndex.build_cases` — an index that was built describes the program
-/

namespace Inlining

namespace SiteIndex

/-- The index of a program cannot do without the frequency of a block: a function is entered there,
or it holds a call to a function of the program. -/
def Needs (p : Program) (b : BlockId) : Prop :=
  ∃ f ∈ p.functions, f.entry?.map Block.id = some b ∨
    ∃ x ∈ f.blocks, x.id = b ∧
      ∃ i ∈ x.code, ∃ g ∈ p.functions.map FunctionBody.id, i.callee? = some g

/-- The frequency of a block is missing that the index needs. -/
def Unknown (p : Program) (oracle : Oracle) (e : Error) : Prop :=
  ∃ b, Needs p b ∧ oracle b = none ∧ e = .missingFrequency b

/-- The index has the functions of a program, and of the calls between them those that stand in the
functions scanned. -/
structure Describes (ix : SiteIndex) (p : Program) (oracle : Oracle)
    (scanned : List FunctionId) : Prop where
  consistent : ix.Consistent
  functions : ∀ f, f ∈ ix.functions ↔ f ∈ p.snapshot.functions
  figures : ∀ f record, ix.function? f = some record →
    functionRecord p.snapshot oracle (CallGraph.ofSnapshot p.snapshot) f = .ok record.figures
  sound : ∀ id r, ix.record? id = some r →
    r.location.function = r.caller ∧ p.callAt? r.location = some r.callee ∧
      r.callee ∈ ix.functions ∧ oracle r.location.block = some r.frequency ∧ r.inlined = false
  complete : ∀ l g, l.function ∈ scanned → p.callAt? l = some g → g ∈ ix.functions →
    l ∈ ix.sites
  caller : ∀ id r, ix.record? id = some r → r.caller ∈ scanned

variable {p : Program} {oracle : Oracle} {ix : SiteIndex}

/-! ### Frequencies that are needed -/

theorem Needs.exists_mem_blockIds {b : BlockId} (h : Needs p b) :
    ∃ f ∈ p.functions, b ∈ f.blockIds := by
  obtain ⟨f, hf, hentry | ⟨x, hx, rfl, -⟩⟩ := h
  · obtain ⟨x, hx, rfl⟩ := Option.map_eq_some_iff.mp hentry
    exact ⟨f, hf, FunctionBody.mem_blockIds.mpr ⟨x, List.mem_of_head? hx, rfl⟩⟩
  · exact ⟨f, hf, FunctionBody.mem_blockIds.mpr ⟨x, hx, rfl⟩⟩

/-- The blocks of calls are needed. -/
theorem needs_of_callAt? (wf : p.WellFormed) {l : Location} {g : FunctionId}
    (hcall : p.callAt? l = some g) (hg : g ∈ p.snapshot.functions) : Needs p l.block := by
  obtain ⟨body, hbody, i, hi, hcallee⟩ := wf.callAt?_eq_some.mp hcall
  obtain ⟨-, x, hx, hid, hi⟩ := FunctionBody.mem_located.mp hi
  exact ⟨body, (wf.function?_eq_some.mp hbody).1,
    .inr ⟨x, hx, hid, i, List.mem_of_getElem? hi, g, hg, hcallee⟩⟩

/-! ### Functions -/

theorem functionRecord_eq_ok {s : Snapshot} {graph : CallGraph} {f : FunctionId}
    {record : FunctionRecord} : functionRecord s oracle graph f = .ok record ↔
      ∃ entry frequency size, s.entryBlock f = some entry ∧ oracle entry = some frequency ∧
        s.size f = some size ∧ { frequency, size, recursive := graph.isRecursive f } = record := by
  rw [functionRecord]
  cases s.entryBlock f with
  | none => simp [require, bind, Except.bind]
  | some entry =>
    cases hn : oracle entry with
    | none => simp [require, hn, bind, Except.bind]
    | some frequency =>
      cases s.size f <;> simp [require, hn, bind, Except.bind, pure, Except.pure]

/-- A function of the program has a record, unless the frequency of its entry block is missing. -/
theorem functionRecord_cases (wf : p.WellFormed) (oracle : Oracle) (graph : CallGraph)
    {f : FunctionId} (hf : f ∈ p.snapshot.functions) :
    (∃ record, functionRecord p.snapshot oracle graph f = .ok record ∧ record.sites = ∅) ∨
      ∃ e, functionRecord p.snapshot oracle graph f = .error e ∧ Unknown p oracle e := by
  obtain ⟨body, hbody⟩ := Option.isSome_iff_exists.mp (wf.mem_functions_snapshot.mp hf)
  have hmem := (wf.function?_eq_some.mp hbody).1
  obtain ⟨b, hb⟩ : ∃ b, body.entry? = some b := by
    rw [FunctionBody.entry?, ← Option.isSome_iff_exists, List.isSome_head?]
    exact wf.entered body hmem
  have hentry : p.snapshot.entryBlock f = some b.id := by
    simp [Program.snapshot, Program.entryBlock?, hbody, hb]
  have hsize : p.snapshot.size f = some body.size := by
    simp [Program.snapshot, hbody]
  cases hn : oracle b.id with
  | some n =>
    exact .inl ⟨_, functionRecord_eq_ok.mpr ⟨b.id, n, body.size, hentry, hn, hsize, rfl⟩, rfl⟩
  | none =>
    refine .inr ⟨.missingFrequency b.id, ?_, b.id, ⟨body, hmem, .inl ?_⟩, hn, rfl⟩
    · simp [functionRecord, require, hentry, hn, bind, Except.bind]
    · rw [hb, Option.map_some]

/-- The functions have been added and nothing else. -/
structure Listed (ix : SiteIndex) (p : Program) (oracle : Oracle) (listed : List FunctionId) :
    Prop where
  consistent : ix.Consistent
  functions : ∀ f, f ∈ ix.functions ↔ f ∈ listed
  figures : ∀ f record, ix.function? f = some record →
    functionRecord p.snapshot oracle (CallGraph.ofSnapshot p.snapshot) f = .ok record.figures
  none : ∀ id, ix.record? id = none

theorem indexFunction_apply (s : Snapshot) (oracle : Oracle) (graph : CallGraph)
    (f : FunctionId) (ix : SiteIndex) :
    indexFunction s oracle graph f ix = match functionRecord s oracle graph f with
      | .error e => .error e ix
      | .ok record => addFunction f record ix := by
  cases hrecord : functionRecord s oracle graph f <;> simp [indexFunction, hrecord]

theorem indexFunction_cases (wf : p.WellFormed) {done : List FunctionId} {f : FunctionId}
    (hf : f ∈ p.snapshot.functions) (hnew : f ∉ done) (hix : ix.Listed p oracle done) :
    (∃ ix', indexFunction p.snapshot oracle (CallGraph.ofSnapshot p.snapshot) f ix = .ok () ix' ∧
      ix'.Listed p oracle (done ++ [f])) ∨
    ∃ e ix', indexFunction p.snapshot oracle (CallGraph.ofSnapshot p.snapshot) f ix =
      .error e ix' ∧ Unknown p oracle e := by
  rw [indexFunction_apply]
  rcases functionRecord_cases wf oracle (CallGraph.ofSnapshot p.snapshot) hf with
    ⟨record, hrecord, hsites⟩ | ⟨e, herror, he⟩
  · have hnew' : f ∉ ix.functions := fun h => hnew ((hix.functions f).mp h)
    simp only [hrecord, addFunction_apply, hnew', if_false]
    rw [if_neg (by simp [hsites])]
    refine .inl ⟨_, rfl, ?_⟩
    constructor
    case consistent => exact hix.consistent.addFunction hnew' hsites
    case functions =>
      intro g
      simp only [Std.ExtTreeMap.mem_insert, Std.compare_eq_iff_eq, hix.functions, List.mem_append,
        List.mem_singleton]
      tauto
    case figures =>
      intro g other hg
      simp only [function?, Std.ExtTreeMap.getElem?_insert, Std.compare_eq_iff_eq] at hg
      split at hg
      · rename_i hfg
        subst hfg
        cases hg
        rw [hrecord, FunctionRecord.figures, ← hsites]
      · exact hix.figures g other hg
    case none => exact hix.none
  · simp only [herror]
    exact .inr ⟨e, ix, rfl, he⟩

/-! ### Call sites -/

/-- The record of a call, as far as its frequency is known. -/
def siteRecord (oracle : Oracle) (caller : FunctionId) (call : Location × FunctionId) :
    SiteRecord where
  location := call.1
  caller := caller
  callee := call.2
  frequency := (oracle call.1.block).getD 0

/-- The calls in a function to functions of the index. -/
def indexedCallees (ix : SiteIndex) (p : Program) (f : FunctionId) :
    List (Location × FunctionId) :=
  (p.snapshot.callees f).filter fun (_, callee) => callee ∈ ix.functions

theorem mem_indexedCallees (wf : p.WellFormed) {f g : FunctionId} {l : Location} :
    (l, g) ∈ ix.indexedCallees p f ↔
      l.function = f ∧ p.callAt? l = some g ∧ g ∈ ix.functions := by
  rw [indexedCallees, List.mem_filter, wf.mem_callees_snapshot]
  simp [and_assoc]

/-- The calls in a function have records, unless the frequency of one of their blocks is missing. -/
theorem siteRecords_outcome (s : Snapshot) (oracle : Oracle) (ix : SiteIndex) (f : FunctionId) :
    ((∀ c ∈ (s.callees f).filter fun (_, callee) => callee ∈ ix.functions,
        oracle c.1.block = some (siteRecord oracle f c).frequency) ∧
      siteRecords s oracle ix f =
        .ok (((s.callees f).filter fun (_, callee) => callee ∈ ix.functions).map
          (siteRecord oracle f))) ∨
    ∃ c ∈ (s.callees f).filter fun (_, callee) => callee ∈ ix.functions,
      oracle c.1.block = none ∧
        siteRecords s oracle ix f = .error (.missingFrequency c.1.block) := by
  have hone : ∀ (l : Location) (g : FunctionId),
      (do let frequency ← require (.missingFrequency l.block) (oracle l.block)
          return { location := l, caller := f, callee := g, frequency } :
        Except Error SiteRecord) =
      require (.missingFrequency l.block)
        ((oracle l.block).map fun _ => siteRecord oracle f (l, g)) := by
    intro l g
    cases hn : oracle l.block <;>
      simp [require, siteRecord, hn, bind, Except.bind, pure, Except.pure]
  have hvalue : ∀ c ∈ (s.callees f).filter fun (_, callee) => callee ∈ ix.functions, ∀ r,
      require (.missingFrequency c.1.block)
        ((oracle c.1.block).map fun _ => siteRecord oracle f c) = .ok r →
          r = siteRecord oracle f c := by
    intro c _ r hr
    cases hn : oracle c.1.block <;> simp_all [require]
  rw [siteRecords]
  simp only [hone]
  rcases mapM_cases _ hvalue with ⟨hall, hok⟩ | ⟨c, hc, e, he, herr⟩
  · refine .inl ⟨fun c hc => ?_, hok⟩
    have := hall c hc
    cases hn : oracle c.1.block <;> simp_all [require, siteRecord]
  · cases hn : oracle c.1.block with
    | none =>
      simp only [hn, Option.map_none, require, Except.error.injEq] at he
      exact .inr ⟨c, hc, hn, he ▸ herr⟩
    | some n => simp [hn, require] at he

theorem siteRecords_cases (wf : p.WellFormed) (oracle : Oracle)
    (known : ∀ g ∈ ix.functions, g ∈ p.snapshot.functions) (f : FunctionId) :
    ((∀ c ∈ ix.indexedCallees p f, oracle c.1.block = some (siteRecord oracle f c).frequency) ∧
      siteRecords p.snapshot oracle ix f =
        .ok ((ix.indexedCallees p f).map (siteRecord oracle f))) ∨
    ∃ e, siteRecords p.snapshot oracle ix f = .error e ∧ Unknown p oracle e := by
  refine (siteRecords_outcome p.snapshot oracle ix f).imp_right ?_
  rintro ⟨⟨l, g⟩, hc, hnone, herror⟩
  obtain ⟨-, hcall, hg⟩ := (mem_indexedCallees wf).mp hc
  exact ⟨_, herror, l.block, needs_of_callAt? wf hcall (known g hg), hnone, rfl⟩

theorem indexSites_apply (s : Snapshot) (oracle : Oracle) (f : FunctionId) (ix : SiteIndex) :
    indexSites s oracle f ix = match siteRecords s oracle ix f with
      | .error e => .error e ix
      | .ok batch => match addSites f batch ix with
        | .ok _ ix' => .ok () ix'
        | .error e ix' => .error e ix' := by
  cases hrecords : siteRecords s oracle ix f with
  | error e => simp [indexSites, hrecords]
  | ok batch => cases hadd : addSites f batch ix <;> simp [indexSites, hrecords, hadd]

/-- The calls of a function that was not scanned meet no objection. -/
theorem Describes.objection?_eq_none (wf : p.WellFormed) {done : List FunctionId} {f : FunctionId}
    (hnew : f ∉ done) (hix : ix.Describes p oracle done) :
    ix.objection? f [] ((ix.indexedCallees p f).map (siteRecord oracle f)) = none := by
  refine SiteIndex.objection?_eq_none.mpr ⟨?_, ?_⟩
  · intro r hr
    obtain ⟨⟨l, g⟩, hc, rfl⟩ := List.mem_map.mp hr
    refine ⟨rfl, fun htaken => hnew ?_, List.not_mem_nil⟩
    obtain ⟨id, r, hr, hl⟩ := hix.consistent.mem_sites.mp htaken
    have hcaller := (hix.sound id r hr).1
    rw [hl] at hcaller
    have hf := ((mem_indexedCallees wf).mp hc).1
    exact hf ▸ hcaller ▸ hix.caller id r hr
  · rw [List.pairwise_map]
    have := wf.nodup_callees_snapshot f
    rw [List.Nodup, List.pairwise_map] at this
    exact this.filter _

theorem indexSites_cases (wf : p.WellFormed) {done : List FunctionId} {f : FunctionId}
    (hf : f ∈ p.snapshot.functions) (hnew : f ∉ done) (hix : ix.Describes p oracle done) :
    (∃ ix', indexSites p.snapshot oracle f ix = .ok () ix' ∧
      ix'.Describes p oracle (done ++ [f])) ∨
    ∃ e ix', indexSites p.snapshot oracle f ix = .error e ix' ∧ Unknown p oracle e := by
  rw [indexSites_apply]
  rcases siteRecords_cases wf oracle (fun g => (hix.functions g).mp) f with
    ⟨hknown, hbatch⟩ | ⟨e, herror, he⟩
  case inr =>
    rw [herror]
    exact .inr ⟨e, ix, rfl, he⟩
  have hmem : f ∈ ix.functions := (hix.functions f).mpr hf
  have hobjection := hix.objection?_eq_none wf hnew
  simp only [hbatch, addSites_apply, hmem, not_true_eq_false, if_false, hobjection]
  refine .inl ⟨_, rfl, ?_⟩
  -- A record is an old one or that of a call in `f`.
  have hrecord : ∀ id r, (((ix.indexedCallees p f).map (siteRecord oracle f)).foldl track
      ix).record? id = some r → ix.record? id = some r ∨
        ∃ c ∈ ix.indexedCallees p f, siteRecord oracle f c = r := by
    intro id r hr
    rcases (record?_trackAll _ _ _ _).mp hr with hold | ⟨k, -, hk⟩
    · exact .inl hold
    · exact .inr (List.mem_map.mp (List.mem_of_getElem? hk))
  have hconsistent := hix.consistent.trackAll hmem hobjection
  constructor
  case consistent => exact hconsistent
  case functions =>
    intro g
    rw [mem_functions_trackAll, hix.functions]
  case figures =>
    intro g record hg
    have hfigures := figures_trackAll ix g ((ix.indexedCallees p f).map (siteRecord oracle f))
    rw [hg, Option.map_some] at hfigures
    obtain ⟨old, hold, heq⟩ := Option.map_eq_some_iff.mp hfigures.symm
    rw [← heq]
    exact hix.figures g old hold
  case sound =>
    intro id r hr
    rw [mem_functions_trackAll]
    rcases hrecord id r hr with hold | ⟨⟨l, g⟩, hc, rfl⟩
    · exact hix.sound id r hold
    · obtain ⟨hl, hcall, hg⟩ := (mem_indexedCallees wf).mp hc
      exact ⟨hl, hcall, hg, hknown _ hc, rfl⟩
  case complete =>
    intro l g hl hcall hg
    rw [mem_functions_trackAll] at hg
    rw [hconsistent.mem_sites]
    rcases List.mem_append.mp hl with hl | hl
    · obtain ⟨id, r, hr, hlr⟩ := hix.consistent.mem_sites.mp (hix.complete l g hl hcall hg)
      exact ⟨id, r, (record?_trackAll _ _ _ _).mpr (.inl hr), hlr⟩
    · have hc := (mem_indexedCallees wf).mpr ⟨List.mem_singleton.mp hl, hcall, hg⟩
      obtain ⟨k, hk⟩ := List.mem_iff_getElem?.mp (List.mem_map_of_mem (f := siteRecord oracle f) hc)
      exact ⟨⟨ix.records.size + k⟩, _, (record?_trackAll _ _ _ _).mpr (.inr ⟨k, rfl, hk⟩), rfl⟩
  case caller =>
    intro id r hr
    rcases hrecord id r hr with hold | ⟨c, -, rfl⟩
    · exact List.mem_append_left _ (hix.caller id r hold)
    · exact List.mem_append_right _ (List.mem_singleton.mpr rfl)

/-! ### The whole index -/

theorem functionRecord_ne_zeroFrequency (s : Snapshot) (oracle : Oracle) (graph : CallGraph)
    (g f : FunctionId) : functionRecord s oracle graph g ≠ .error (.zeroFrequency f) := by
  rw [functionRecord]
  cases s.entryBlock g with
  | none => simp [require, bind, Except.bind]
  | some entry =>
    cases hn : oracle entry with
    | none => simp [require, hn, bind, Except.bind]
    | some frequency =>
      cases s.size g <;> simp [require, hn, bind, Except.bind, pure, Except.pure]

/-- The index is one of the first generation, and its views agree. -/
structure First (ix : SiteIndex) : Prop where
  consistent : ix.Consistent
  generation : ix.generation = 0

theorem First.indexFunction (s : Snapshot) (oracle : Oracle) (graph : CallGraph)
    (f : FunctionId) (hix : ix.First) :
    (∃ ix', SiteIndex.indexFunction s oracle graph f ix = .ok () ix' ∧ ix'.First) ∨
      ∃ e ix', SiteIndex.indexFunction s oracle graph f ix = .error e ix' ∧
        ∀ g, e ≠ .zeroFrequency g := by
  rw [indexFunction_apply]
  cases hrecord : functionRecord s oracle graph f with
  | error e =>
    refine .inr ⟨e, ix, rfl, ?_⟩
    rintro g rfl
    exact functionRecord_ne_zeroFrequency _ _ _ _ _ hrecord
  | ok record =>
    have hsites : record.sites = ∅ := by
      obtain ⟨_, _, _, -, -, -, rfl⟩ := functionRecord_eq_ok.mp hrecord
      rfl
    simp only [addFunction_apply]
    by_cases hf : f ∈ ix.functions
    · exact .inr ⟨_, _, if_pos hf, fun _ => by simp⟩
    · refine .inl ⟨_, ?_, hix.consistent.addFunction hf hsites, hix.generation⟩
      rw [if_neg hf, if_neg (by simp [hsites])]

theorem First.indexSites (s : Snapshot) (oracle : Oracle) (f : FunctionId) (hix : ix.First) :
    (∃ ix', SiteIndex.indexSites s oracle f ix = .ok () ix' ∧ ix'.First) ∨
      ∃ e ix', SiteIndex.indexSites s oracle f ix = .error e ix' ∧ ∀ g, e ≠ .zeroFrequency g := by
  rw [indexSites_apply]
  rcases siteRecords_outcome s oracle ix f with ⟨-, hbatch⟩ | ⟨c, -, -, herror⟩
  · rw [hbatch]
    simp only
    generalize hadded : addSites f _ ix = result
    cases result with
    | error e ix' =>
      refine .inr ⟨e, ix', rfl, ?_⟩
      rintro g rfl
      exact addSites_ne_zeroFrequency _ _ _ _ _ hadded
    | ok ids ix' =>
      refine .inl ⟨ix', rfl, ?_⟩
      rw [addSites_apply] at hadded
      split at hadded
      · cases hadded
      · rename_i hf
        split at hadded
        · cases hadded
        · rename_i hobjection
          cases hadded
          exact ⟨hix.consistent.trackAll (not_not.mp hf) hobjection,
            (generation_trackAll ix _).trans hix.generation⟩
  · rw [herror]
    exact .inr ⟨_, _, rfl, fun _ => by simp⟩

/-- The outcomes of building an index, whatever it is built from. -/
theorem build_outcome (s : Snapshot) (oracle : Oracle) :
    (∃ ix, build s oracle = .ok ix ∧ ix.First) ∨
      ∃ e, build s oracle = .error e ∧ ∀ g, e ≠ .zeroFrequency g := by
  rw [build, Update.exec, populate, Update.bind_apply]
  rcases forM_cases (fun _ ix => SiteIndex.First ix) ⟨.empty, rfl⟩
      fun done f ix (_ : done ++ [f] <+: s.functions) hix =>
        hix.indexFunction s oracle (CallGraph.ofSnapshot s) f with
    ⟨listed, hlisted, hall⟩ | ⟨e, t, herror, he⟩
  case inr =>
    rw [herror]
    exact .inr ⟨e, rfl, he⟩
  rw [hlisted]
  rcases forM_cases (fun _ ix => SiteIndex.First ix) hall
      fun done f ix (_ : done ++ [f] <+: s.functions) hix => hix.indexSites s oracle f with
    ⟨built, hbuilt, hfirst⟩ | ⟨e, t, herror, he⟩
  · simp only [hbuilt]
    exact .inl ⟨built, rfl, hfirst⟩
  · simp only [herror]
    exact .inr ⟨e, rfl, he⟩

/-- **An index that was built is of the first generation and its views agree**, whatever it was
built from. -/
theorem first_of_build {s : Snapshot} (h : build s oracle = .ok ix) : ix.First := by
  rcases build_outcome s oracle with ⟨ix', hix', hfirst⟩ | ⟨e, herror, -⟩
  · cases hix'.symm.trans h
    exact hfirst
  · cases herror.symm.trans h

theorem consistent_of_build {s : Snapshot} (h : build s oracle = .ok ix) : ix.Consistent :=
  (first_of_build h).consistent

/-- **An index that was built describes the program**, and it is built unless a frequency is
missing. -/
theorem build_cases (wf : p.WellFormed) (oracle : Oracle) :
    (∃ ix, build p.snapshot oracle = .ok ix ∧ ix.Describes p oracle p.snapshot.functions) ∨
      ∃ e, build p.snapshot oracle = .error e ∧ Unknown p oracle e := by
  have hnew : ∀ done f, done ++ [f] <+: p.snapshot.functions →
      f ∈ p.snapshot.functions ∧ f ∉ done := by
    intro done f hdone
    refine ⟨hdone.subset (by simp), fun hf => ?_⟩
    have hnodup : (done ++ [f]).Nodup := hdone.sublist.nodup wf.nodup
    exact (List.nodup_append.mp hnodup).2.2 f hf f (by simp) rfl
  have hempty : SiteIndex.empty.Listed p oracle [] := by
    refine ⟨.empty, fun f => ?_, fun f record h => ?_, fun id => ?_⟩
    · simp [SiteIndex.empty]
    · simp [SiteIndex.empty, function?] at h
    · simp [SiteIndex.empty, record?]
  rw [build, Update.exec, populate, Update.bind_apply]
  rcases forM_cases (fun done ix => Listed ix p oracle done) hempty fun done f ix hdone hix =>
      indexFunction_cases wf (hnew done f hdone).1 (hnew done f hdone).2 hix with
    ⟨listed, hlisted, hall⟩ | ⟨e, t, herror, he⟩
  case inr =>
    rw [herror]
    exact .inr ⟨e, rfl, he⟩
  rw [hlisted]
  have hstart : listed.Describes p oracle [] := by
    refine ⟨hall.consistent, hall.functions, hall.figures, fun id r hr => ?_, by simp,
      fun id r hr => ?_⟩
    all_goals
      rw [hall.none id] at hr
      cases hr
  rcases forM_cases (fun done ix => Describes ix p oracle done) hstart fun done f ix hdone hix =>
      indexSites_cases wf (hnew done f hdone).1 (hnew done f hdone).2 hix with
    ⟨ix, hix, hdescribes⟩ | ⟨e, t, herror, he⟩
  · simp only [hix]
    exact .inl ⟨ix, rfl, hdescribes⟩
  · simp only [herror]
    exact .inr ⟨e, rfl, he⟩

/-! ### Figures -/

/-- The figures that the index has of a function are those of the program. -/
theorem Describes.figures_eq {scanned : List FunctionId} (h : ix.Describes p oracle scanned)
    {f : FunctionId} {record : FunctionRecord} (hf : ix.function? f = some record) :
    (∃ entry, p.snapshot.entryBlock f = some entry ∧ oracle entry = some record.frequency) ∧
      p.snapshot.size f = some record.size ∧
      (CallGraph.ofSnapshot p.snapshot).isRecursive f = record.recursive := by
  obtain ⟨entry, frequency, size, hentry, hfrequency, hsize, heq⟩ :=
    functionRecord_eq_ok.mp (h.figures f record hf)
  obtain ⟨rfl, rfl, hrecursive, -⟩ := FunctionRecord.mk.inj heq
  exact ⟨⟨entry, hentry, hfrequency⟩, hsize, hrecursive⟩

/-! ### Cycles -/

/-- Functions that the index takes for non-recursive lie on no cycle of calls. -/
def FlagsCycles (ix : SiteIndex) (p : Program) : Prop :=
  ∀ f record, ix.function? f = some record → record.recursive = false →
    ¬ Relation.TransGen p.Calls f f

/-- A new index flags the functions on cycles. -/
theorem Describes.flagsCycles {oracle : Oracle} {scanned : List FunctionId}
    (h : ix.Describes p oracle scanned) (wf : p.WellFormed) : ix.FlagsCycles p := by
  intro f record hf hflag
  rw [← wf.isRecursive_snapshot, (h.figures_eq hf).2.2, hflag]
  exact Bool.false_ne_true

end SiteIndex

/-- The oracle of a profile knows all blocks. -/
theorem Program.WellFormed.not_unknown {p : Program} (wf : p.WellFormed) (rounds : Nat)
    (e : Error) : ¬ SiteIndex.Unknown p (p.profile rounds).oracle e := by
  rintro ⟨b, hneeds, hnone, -⟩
  obtain ⟨f, hf, hb⟩ := hneeds.exists_mem_blockIds
  obtain ⟨x, hx, rfl⟩ := FunctionBody.mem_blockIds.mp hb
  rw [FrequencyTable.oracle, wf.getElem?_profile rounds hf hx] at hnone
  cases hnone

end Inlining
