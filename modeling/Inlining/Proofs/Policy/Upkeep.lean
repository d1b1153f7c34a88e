import Inlining.Program.Inline
import Inlining.Proofs.Policy.Entries
import Mathlib.Data.List.Nodup
import Mathlib.Data.Set.Function

/-!
# The views of an index in use

An index is filled by hand or from a program, built anew, redistributed by a policy and changed in
place by whoever holds it. Each of these writes to the arena and the two views with separate
statements, and each may fail. `SiteIndex.Kept` collects the indexes that can come about in this
way, and `SiteIndex.Coherent` says all that a reader of the views relies on.

The proof has nothing to say about the operations but that they keep the views consistent. What
order and number of the records have to do with it is read off the views themselves.

## Main definitions

* `SiteIndex.Kept` — the indexes that can come about
* `SiteIndex.Coherent` — arena and views are one

## Main results

* `SiteIndex.Kept.consistent` — the views agree at all times
* `SiteIndex.Consistent.coherent` — consistent views give all records once and in order
* `SiteIndex.Kept.coherent_throughout` — arena and views are one at all times
-/

namespace Inlining

namespace SiteIndex

/-- The indexes that can come about: from nothing or from a program, by any operations, and by the
steps of any policy that has the index. An operation that fails counts with what it leaves behind.
-/
inductive Kept : SiteIndex → Prop
  | empty : Kept SiteIndex.empty
  | build {s : Snapshot} {oracle : Oracle} {ix : SiteIndex} (built : build s oracle = .ok ix) :
      Kept ix
  | addFunction {ix : SiteIndex} (f : FunctionId) (record : FunctionRecord) :
      Kept ix → Kept ((addFunction f record).after ix)
  | addSites {ix : SiteIndex} (caller : FunctionId) (batch : List SiteRecord) :
      Kept ix → Kept ((addSites caller batch).after ix)
  | rebuild {ix : SiteIndex} (s : Snapshot) (oracle : Oracle) :
      Kept ix → Kept ((rebuild s oracle).after ix)
  | redistribute {ix : SiteIndex} (s : Snapshot) (id : SiteId) (report : List CopiedCall) :
      Kept ix → Kept ((redistribute s id report).after ix)
  | step {σ : Type} (h : Host σ) (r : Run σ) :
      Kept r.policy.index → Kept ((Run.step h).after r).policy.index
  | changeRecord {ix : SiteIndex} (id : SiteId) (frequency : SiteRecord → Nat)
      (inlined : SiteRecord → Bool) : Kept ix →
      Kept (ix.modifyRecord id fun r => { r with frequency := frequency r, inlined := inlined r })
  | changeFunction {ix : SiteIndex} (f : FunctionId) (frequency size : FunctionRecord → Nat) :
      Kept ix →
      Kept (ix.modifyFunction f fun r => { r with frequency := frequency r, size := size r })

variable {ix : SiteIndex}

/-! ### Operations that may fail -/

theorem Consistent.after_addFunction (hix : ix.Consistent) (f : FunctionId)
    (record : FunctionRecord) : ((SiteIndex.addFunction f record).after ix).Consistent := by
  rw [Update.after, addFunction_apply]
  by_cases hf : f ∈ ix.functions
  · rw [if_pos hf]
    exact hix
  · rw [if_neg hf]
    by_cases hsites : record.sites.isEmpty
    · rw [if_neg (by simp [hsites])]
      exact hix.addFunction hf (Std.ExtTreeMap.isEmpty_iff.mp hsites)
    · rw [if_pos (by simp [hsites])]
      exact hix

theorem Consistent.after_addSites (hix : ix.Consistent) (caller : FunctionId)
    (batch : List SiteRecord) : ((SiteIndex.addSites caller batch).after ix).Consistent := by
  rw [Update.after, addSites_apply]
  by_cases hcaller : caller ∈ ix.functions
  · rw [if_neg (not_not.mpr hcaller)]
    cases hobjection : ix.objection? caller [] batch with
    | some e => exact hix
    | none => exact hix.trackAll hcaller hobjection
  · rw [if_pos hcaller]
    exact hix

theorem Consistent.after_rebuild (hix : ix.Consistent) (s : Snapshot) (oracle : Oracle) :
    ((SiteIndex.rebuild s oracle).after ix).Consistent := by
  rw [Update.after, SiteIndex.rebuild, Update.bind_apply]
  cases hbuild : SiteIndex.build s oracle with
  | error e => exact hix
  | ok next => exact (consistent_of_build hbuild).congr rfl (fun _ => rfl) fun _ => rfl

theorem Consistent.after_redistribute (hix : ix.Consistent) (s : Snapshot) (id : SiteId)
    (report : List CopiedCall) : ((SiteIndex.redistribute s id report).after ix).Consistent := by
  rw [Update.after]
  cases hdone : SiteIndex.redistribute s id report ix with
  | error e ix' => exact redistribute_eq_error hdone ▸ hix
  | ok done ix' =>
    obtain ⟨_, _, -, -, -, -, hredistributes⟩ := hix.redistribute_eq_ok hdone
    exact hredistributes.consistent

/-- **The views agree at all times.** -/
theorem Kept.consistent (kept : Kept ix) : ix.Consistent := by
  induction kept with
  | empty => exact .empty
  | build built => exact consistent_of_build built
  | addFunction f record _ ih => exact ih.after_addFunction f record
  | addSites caller batch _ ih => exact ih.after_addSites caller batch
  | rebuild s oracle _ ih => exact ih.after_rebuild s oracle
  | redistribute s id report _ ih => exact ih.after_redistribute s id report
  | step h r _ ih =>
    exact Policy.invariant_of_entries Policy.Entry.consistent (Run.step_entries h r) ih
  | changeRecord id _ _ _ ih => exact ih.modifyRecord id fun _ => rfl
  | changeFunction f _ _ _ ih => exact ih.modifyFunction f fun _ => rfl

/-! ### What readers of the views rely on -/

/-- The locations of the records. -/
def locations (ix : SiteIndex) : Set Location := {l | ∃ r ∈ ix.records, r.location = l}

/-- The numbers that are given out: the positions in the arena. -/
def numbers (ix : SiteIndex) : Set SiteId := {id | id.index < ix.records.size}

/-- The arena with the numbers of its records. -/
def numbered (ix : SiteIndex) : List (SiteId × SiteRecord) :=
  ix.records.toList.zipIdx.map fun x => (⟨x.2⟩, x.1)

/-- Arena and views are one. -/
structure Coherent (ix : SiteIndex) : Prop where
  /-- The view of the whole program pairs locations and numbers, one for one, and has no others. -/
  paired : Set.BijOn ix.siteAt? ix.locations (some '' ix.numbers)
  tracked : ∀ l, l ∈ ix.sites ↔ l ∈ ix.locations
  /-- A record is found at its own location. -/
  own : ∀ id r, ix.record? id = some r → ix.siteAt? r.location = some id
  caller : ∀ id r, ix.record? id = some r → r.caller ∈ ix.functions
  /-- The view of a function has the numbers of the records with this caller. -/
  within : ∀ f id, id ∈ ix.sitesIn f ↔ ∃ r, ix.record? id = some r ∧ r.caller = f
  ascending : ∀ f, (ix.sitesIn f).Pairwise ix.Precedes
  disjoint : ∀ f g, f ≠ g → (ix.sitesIn f).Disjoint (ix.sitesIn g)
  /-- Going through the index by location meets every record of the arena once. -/
  all : ix.ordered.Perm ix.numbered
  ordered : ix.ordered.Pairwise fun a b => compare a.2.location b.2.location = .lt

theorem mem_numbered {id : SiteId} {r : SiteRecord} :
    (id, r) ∈ ix.numbered ↔ ix.record? id = some r := by
  rw [numbered, record?, ← Array.getElem?_toList, List.mem_map]
  constructor
  · rintro ⟨x, hx, heq⟩
    cases heq
    exact List.mem_zipIdx_iff_getElem?.mp hx
  · exact fun hr => ⟨(r, id.index), List.mem_zipIdx_iff_getElem?.mpr hr, rfl⟩

theorem nodup_numbered : ix.numbered.Nodup := by
  refine .of_map (fun x => x.1.index) ?_
  rw [numbered, List.map_map]
  change (ix.records.toList.zipIdx.map Prod.snd).Nodup
  rw [List.zipIdx_map_snd]
  exact List.nodup_range'

theorem mem_numbers {id : SiteId} : id ∈ ix.numbers ↔ ∃ r, ix.record? id = some r := by
  rw [← Option.isSome_iff_exists, record?, isSome_getElem?]
  rfl

theorem mem_locations {l : Location} :
    l ∈ ix.locations ↔ ∃ id r, ix.record? id = some r ∧ r.location = l := by
  constructor
  · rintro ⟨r, hr, hl⟩
    obtain ⟨id, hid⟩ := mem_records.mp hr
    exact ⟨id, r, hid, hl⟩
  · rintro ⟨id, r, hr, hl⟩
    exact ⟨r, mem_records.mpr ⟨id, hr⟩, hl⟩

namespace Consistent

theorem bijOn_siteAt? (hix : ix.Consistent) :
    Set.BijOn ix.siteAt? ix.locations (some '' ix.numbers) := by
  refine ⟨?_, ?_, ?_⟩
  · intro l hl
    obtain ⟨id, r, hr, hrl⟩ := mem_locations.mp hl
    exact ⟨id, mem_numbers.mpr ⟨r, hr⟩, ((hix.sites l id).mpr ⟨r, hr, hrl⟩).symm⟩
  · intro l hl l' _ heq
    obtain ⟨id, r, hr, rfl⟩ := mem_locations.mp hl
    rw [(hix.sites r.location id).mpr ⟨r, hr, rfl⟩] at heq
    obtain ⟨r', hr', rfl⟩ := (hix.sites l' id).mp heq.symm
    rw [hr, Option.some.injEq] at hr'
    rw [hr']
  · rintro _ ⟨id, hid, rfl⟩
    obtain ⟨r, hr⟩ := mem_numbers.mp hid
    exact ⟨r.location, mem_locations.mpr ⟨id, r, hr, rfl⟩, (hix.sites _ id).mpr ⟨r, hr, rfl⟩⟩

theorem disjoint_sitesIn (hix : ix.Consistent) {f g : FunctionId} (hne : f ≠ g) :
    (ix.sitesIn f).Disjoint (ix.sitesIn g) := by
  intro id hf hg
  obtain ⟨r, hr, rfl⟩ := hix.mem_sitesIn.mp hf
  obtain ⟨r', hr', rfl⟩ := hix.mem_sitesIn.mp hg
  rw [hr, Option.some.injEq] at hr'
  exact hne (by rw [hr'])

theorem perm_ordered (hix : ix.Consistent) : ix.ordered.Perm ix.numbered := by
  have hnodup : ix.ordered.Nodup := by
    refine hix.ascending_ordered.imp fun {a b} hlt heq => ?_
    rw [heq, Std.compare_self] at hlt
    cases hlt
  refine (List.perm_ext_iff_of_nodup hnodup nodup_numbered).mpr fun ⟨id, r⟩ => ?_
  rw [hix.mem_ordered, mem_numbered]

/-- Consistent views give every record once and in order. -/
theorem coherent (hix : ix.Consistent) : ix.Coherent where
  paired := hix.bijOn_siteAt?
  tracked _ := hix.mem_sites.trans mem_locations.symm
  own id r hr := (hix.sites r.location id).mpr ⟨r, hr, rfl⟩
  caller := hix.caller
  within _ _ := hix.mem_sitesIn
  ascending := hix.ascending_sitesIn
  disjoint _ _ := hix.disjoint_sitesIn
  all := hix.perm_ordered
  ordered := hix.ascending_ordered

end Consistent

/-- **Arena and views are one** at all times. -/
theorem Kept.coherent_throughout (kept : Kept ix) : ix.Coherent := kept.consistent.coherent

/-! A function that calls itself twice. Inlining the first call puts a copy of the second one into
the function whose calls are being split. -/

/-- The call at the given position of the function's only block. -/
def forkCall (n : Nat) : SiteRecord where
  location := ⟨⟨0⟩, ⟨0⟩, n⟩
  caller := ⟨0⟩
  callee := ⟨0⟩
  frequency := 100

/-- The function. -/
def fork : Program :=
  (Program.push ⟨0⟩ (.call ⟨0⟩)).after
    ((Program.push ⟨0⟩ (.call ⟨0⟩)).after (Program.addFunction {} "fork").2)

/-- Where the calls went when the first one was inlined. -/
def forkReport : List CopiedCall :=
  ((Program.inline (forkCall 0).toCallSite).outcome fork).toOption.getD []

/-- The index of the function, filled by hand. A batch that holds one of the calls again is refused
before the first call is chosen and its entries are moved. -/
def forkIndex : SiteIndex :=
  let filled := (SiteIndex.addSites ⟨0⟩ [forkCall 1, forkCall 0]).after
    ((SiteIndex.addFunction ⟨0⟩ { frequency := 200, size := 2, recursive := true }).after
      SiteIndex.empty)
  let refused := (SiteIndex.addSites ⟨0⟩ [forkCall 7, forkCall 1]).after filled
  let chosen := refused.modifyRecord ⟨1⟩ fun r => { r with inlined := true }
  (SiteIndex.redistribute ((Program.inline (forkCall 0).toCallSite).after fork).snapshot ⟨1⟩
    forkReport).after chosen

theorem kept_forkIndex : Kept forkIndex := by
  rw [forkIndex]
  refine .redistribute _ _ _ (.changeRecord ⟨1⟩ SiteRecord.frequency (fun _ => true) ?_)
  exact .addSites _ _ (.addSites _ _ (.addFunction _ _ .empty))

theorem coherent_throughout_fork : forkIndex.records.size = 3 ∧
    forkIndex.ordered.map Prod.fst = [⟨1⟩, ⟨0⟩, ⟨2⟩] ∧ forkIndex.Coherent :=
  ⟨by decide +kernel, by decide +kernel, Kept.coherent_throughout kept_forkIndex⟩

end SiteIndex

end Inlining
