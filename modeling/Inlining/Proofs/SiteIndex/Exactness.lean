import Inlining.Proofs.Program.Edits
import Inlining.Proofs.SiteIndex.Build
import Mathlib.Logic.ExistsUnique

/-!
# The index of a program is exact

Building an index scans the functions, then their calls, and looks a frequency up for each. Whether
it succeeds depends on the frequencies alone: it needs those of the blocks where functions are
entered and of the blocks with calls to functions of the program, and it asks for no other. The
checks on the way — no function twice, no location twice, no call in a foreign body — never fail on
a program, because its numbers are all different.

What comes out misses nothing and makes nothing up: one record for each function, and one for each
call that stays within the program.

## Main definitions

* `SiteIndex.Indexes` — the index holds what is in a program and nothing else

## Main results

* `SiteIndex.Describes.indexes`, `SiteIndex.Describes.isSome_oracle` — what an index that was built
  holds, and what had to be known for it
* `SiteIndex.build_exact` — when an index can be built, how it fails, and what it holds
-/

namespace Inlining

namespace SiteIndex

/-- The index holds the functions of a program and the calls between them, with the frequencies that
an oracle gives. -/
structure Indexes (ix : SiteIndex) (p : Program) (oracle : Oracle) : Prop where
  consistent : ix.Consistent
  functions : ∀ f, f ∈ ix.functions ↔ f ∈ p.functions.map FunctionBody.id
  figures : ∀ f ∈ p.functions, ∃ record entry, ix.function? f.id = some record ∧
    f.entry? = some entry ∧ oracle entry.id = some record.frequency ∧ record.size = f.size ∧
    (record.recursive = true ↔ Relation.TransGen p.Calls f.id f.id)
  /-- A record is that of a call between functions of the program. -/
  sound : ∀ id r, ix.record? id = some r → r.caller = r.location.function ∧
    p.callAt? r.location = some r.callee ∧ r.callee ∈ p.functions.map FunctionBody.id ∧
    oracle r.location.block = some r.frequency ∧ r.inlined = false
  /-- A call between functions of the program has one record. -/
  complete : ∀ l g, p.callAt? l = some g → g ∈ p.functions.map FunctionBody.id →
    ∃! id, ∃ r, ix.record? id = some r ∧ r.location = l

variable {p : Program} {oracle : Oracle} {ix : SiteIndex}

/-- The figures of a function of the program. -/
theorem Describes.exists_figures (h : ix.Describes p oracle p.snapshot.functions)
    (wf : p.WellFormed) {f : FunctionBody} (hf : f ∈ p.functions) : ∃ record entry,
      ix.function? f.id = some record ∧ f.entry? = some entry ∧
        oracle entry.id = some record.frequency ∧ record.size = f.size ∧
        (record.recursive = true ↔ Relation.TransGen p.Calls f.id f.id) := by
  have hfunction : p.function? f.id = some f := wf.function?_eq_some.mpr ⟨hf, rfl⟩
  obtain ⟨record, hrecord⟩ := Option.isSome_iff_exists.mp
    (mem_functions_iff.mp ((h.functions f.id).mpr (List.mem_map_of_mem hf)))
  obtain ⟨⟨b, hentry, hfrequency⟩, hsize, hrecursive⟩ := h.figures_eq hrecord
  simp only [Program.snapshot, Program.entryBlock?, hfunction, Option.bind_some,
    Option.map_eq_some_iff] at hentry
  obtain ⟨entry, hentry, rfl⟩ := hentry
  simp only [Program.snapshot, hfunction, Option.map_some, Option.some.injEq] at hsize
  refine ⟨record, entry, hrecord, hentry, hfrequency, hsize.symm, ?_⟩
  rw [← hrecursive]
  exact wf.isRecursive_snapshot

/-- **An index that was built holds what is in the program** and nothing else. -/
theorem Describes.indexes (h : ix.Describes p oracle p.snapshot.functions) (wf : p.WellFormed) :
    ix.Indexes p oracle where
  consistent := h.consistent
  functions := h.functions
  figures _ hf := h.exists_figures wf hf
  sound id r hr := by
    obtain ⟨hcaller, hcall, hcallee, hfrequency, hlive⟩ := h.sound id r hr
    exact ⟨hcaller.symm, hcall, (h.functions _).mp hcallee, hfrequency, hlive⟩
  complete l g hcall hg := by
    obtain ⟨body, hbody, -⟩ := wf.callAt?_eq_some.mp hcall
    have hl := wf.mem_functions_snapshot.mpr (Option.isSome_of_eq_some hbody)
    obtain ⟨id, r, hr, hrl⟩ :=
      h.consistent.mem_sites.mp (h.complete l g hl hcall ((h.functions g).mpr hg))
    refine ⟨id, ⟨r, hr, hrl⟩, ?_⟩
    rintro id' ⟨r', hr', hrl'⟩
    exact h.consistent.id_eq hr' hr (hrl'.trans hrl.symm)

/-- **The frequencies that an index needs were known** if it was built. -/
theorem Describes.isSome_oracle (h : ix.Describes p oracle p.snapshot.functions)
    (wf : p.WellFormed) {b : BlockId} (needs : Needs p b) : (oracle b).isSome := by
  obtain ⟨f, hf, hentry | ⟨x, hx, rfl, i, hi, g, hg, hcallee⟩⟩ := needs
  · obtain ⟨record, entry, -, hentry', hfrequency, -⟩ := h.exists_figures wf hf
    rw [hentry', Option.map_some, Option.some.injEq] at hentry
    exact Option.isSome_of_eq_some (hentry ▸ hfrequency)
  · -- The call has a record, and its frequency is that of the block.
    obtain ⟨n, hn⟩ := List.mem_iff_getElem?.mp hi
    have hcall : p.callAt? ⟨f.id, x.id, n⟩ = some g := by
      rw [Program.callAt?, wf.instruction?_mk (wf.function?_eq_some.mpr ⟨hf, rfl⟩) hx, hn]
      exact hcallee
    obtain ⟨id, ⟨r, hr, hl⟩, -⟩ := (h.indexes wf).complete _ g hcall hg
    obtain ⟨-, -, -, hfrequency, -⟩ := h.sound id r hr
    rw [hl] at hfrequency
    exact Option.isSome_of_eq_some hfrequency

/-- **The index of a program is exact.** It can be built exactly if the frequency of every block is
known where a function is entered or that holds a call to a function of the program; otherwise one
of these is reported as missing. The index that is built holds the functions of the program and the
calls between them, each once. The profile of a program knows enough. -/
theorem build_exact (edited : p.Edited) (oracle : Oracle) :
    ((∃ ix, build p.snapshot oracle = .ok ix) ↔ ∀ b, Needs p b → (oracle b).isSome) ∧
    (∀ e, build p.snapshot oracle = .error e →
      ∃ b, Needs p b ∧ oracle b = none ∧ e = .missingFrequency b) ∧
    (∀ ix, build p.snapshot oracle = .ok ix → ix.Indexes p oracle) ∧
    ∀ rounds, ∃ ix, build p.snapshot (p.profile rounds).oracle = .ok ix := by
  have wf := edited.wellFormed
  have hprofile : ∀ rounds, ∃ ix, build p.snapshot (p.profile rounds).oracle = .ok ix := by
    intro rounds
    rcases build_cases wf (p.profile rounds).oracle with ⟨ix, hix, -⟩ | ⟨e, -, hunknown⟩
    · exact ⟨ix, hix⟩
    · exact absurd hunknown (wf.not_unknown rounds e)
  rcases build_cases wf oracle with ⟨ix, hix, h⟩ | ⟨e, herror, hunknown⟩
  · refine ⟨iff_of_true ⟨ix, hix⟩ fun b => h.isSome_oracle wf, fun e herror => ?_,
      fun ix' hix' => ?_, hprofile⟩
    · cases hix.symm.trans herror
    · cases hix.symm.trans hix'
      exact h.indexes wf
  · refine ⟨iff_of_false ?_ fun hall => ?_, fun e' herror' => ?_, fun ix hix => ?_, hprofile⟩
    · rintro ⟨ix, hix⟩
      cases herror.symm.trans hix
    · obtain ⟨b, hneeds, hnone, -⟩ := hunknown
      have hknown := hall b hneeds
      rw [hnone] at hknown
      cases hknown
    · cases herror.symm.trans herror'
      exact hunknown
    · cases herror.symm.trans hix

/-- `main` calls `loop` twice from a block of its own, and from another block something that is not
there; `loop` calls itself. -/
def relay : Program :=
  let bare := Program.assemble ["main", "loop"] [(0, .op), (1, .call ⟨1⟩)] [(0, 100)]
  let grown := (Program.addBlock ⟨0⟩ 100).after ((Program.addBlock ⟨0⟩ 500).after bare)
  (Program.push ⟨3⟩ (.call ⟨9⟩)).after
    ((Program.push ⟨2⟩ (.callClosure ⟨1⟩)).after ((Program.push ⟨2⟩ (.call ⟨1⟩)).after grown))

theorem built_relay : relay.Built := by
  rw [relay]
  refine .push _ _ (.push _ _ (.push _ _ (.addBlock _ _ (.addBlock _ _ ?_))))
  exact Program.built_assemble _ _ _

/-- Frequencies of the blocks that the index needs. -/
def relayTable : FrequencyTable := .ofEntries [(⟨0⟩, 100), (⟨1⟩, 60), (⟨2⟩, 50)]

/-- Frequencies of the blocks where functions are entered. -/
def relayEntryTable : FrequencyTable := .ofEntries [(⟨0⟩, 100), (⟨1⟩, 60)]

theorem build_exact_relay : relay.Edited ∧ relayTable.oracle ⟨3⟩ = none ∧
    (∃ ix, build relay.snapshot relayTable.oracle = .ok ix ∧ ix.Indexes relay relayTable.oracle ∧
      ∃! id, ∃ r, ix.record? id = some r ∧ r.location = ⟨⟨0⟩, ⟨2⟩, 1⟩) ∧
    ∃ b, Needs relay b ∧ relayEntryTable.oracle b = none ∧
      build relay.snapshot relayEntryTable.oracle = .error (.missingFrequency b) := by
  have edited : relay.Edited := built_relay.edited
  have hbuilds : (build relay.snapshot relayTable.oracle).toOption.isSome = true := by
    decide +kernel
  have hfails : (build relay.snapshot relayEntryTable.oracle).toOption.isSome = false := by
    decide +kernel
  refine ⟨edited, by decide +kernel, ?_, ?_⟩
  · obtain ⟨-, -, hindexes, -⟩ := build_exact edited relayTable.oracle
    cases h : build relay.snapshot relayTable.oracle with
    | error e =>
      rw [h] at hbuilds
      cases hbuilds
    | ok ix =>
      exact ⟨ix, rfl, hindexes ix h, (hindexes ix h).complete _ ⟨1⟩ (by decide +kernel)
        (by decide +kernel)⟩
  · obtain ⟨-, herror, -⟩ := build_exact edited relayEntryTable.oracle
    cases h : build relay.snapshot relayEntryTable.oracle with
    | error e =>
      obtain ⟨b, hneeds, hnone, rfl⟩ := herror e h
      exact ⟨b, hneeds, hnone, rfl⟩
    | ok ix =>
      rw [h] at hfails
      cases hfails

end SiteIndex

end Inlining
