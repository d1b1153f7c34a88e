import Inlining.Proofs.Program.Flow
import Inlining.Proofs.Program.InlineProfile
import Inlining.Proofs.SiteIndex.Redistribution
import Mathlib.Tactic.Ring

/-!
# Redistribution agrees with the profile

After an inline, a redistribution corrects the figures that the index has for the callee, from these
figures alone. Profiling the new program would give the same: the callee loses the runs
of the call, and the calls in its body, which the profile rounds down and the redistribution to the
nearest number, come out alike up to one.

There is one exception. Where the call had all entries of a callee that is still called from
elsewhere, the redistribution leaves one entry to it, for later splits to have something to divide;
the profile leaves none.

## Main definitions

* `SiteIndex.AgreesOn` — an index and a profile agree on a function and its calls

## Main results

* `share_blockRuns` — rounding twice
* `SiteIndex.redistribution_agrees` — redistributing agrees with profiling anew
-/

namespace Inlining

/-! ### Rounding -/

section Rounding

variable (weight : Nat) {new old : Nat}

/-- Rounding down before taking a part gives no more than taking the part before rounding down. -/
theorem blockRuns_mul_div_le (hpos : 0 < old) :
    blockRuns old weight * new / old ≤ blockRuns new weight := by
  have hold : blockRuns old weight * fullWeight ≤ old * weight := Nat.div_mul_le_self _ _
  change _ ≤ new * weight / fullWeight
  rw [Nat.le_div_iff_mul_le fullWeight_pos]
  refine Nat.le_of_mul_le_mul_right ?_ hpos
  calc blockRuns old weight * new / old * fullWeight * old
      = blockRuns old weight * new / old * old * fullWeight := Nat.mul_right_comm _ _ _
    _ ≤ blockRuns old weight * new * fullWeight :=
      Nat.mul_le_mul_right _ (Nat.div_mul_le_self _ _)
    _ = blockRuns old weight * fullWeight * new := Nat.mul_right_comm _ _ _
    _ ≤ old * weight * new := Nat.mul_le_mul_right _ hold
    _ = new * weight * old := by ring

/-- It gives one less at the worst. -/
theorem blockRuns_le_mul_div_succ (hle : new ≤ old) (hpos : 0 < old) :
    blockRuns new weight ≤ blockRuns old weight * new / old + 1 := by
  have hnew : blockRuns new weight * fullWeight ≤ new * weight := Nat.div_mul_le_self _ _
  have hold : old * weight ≤ (blockRuns old weight + 1) * fullWeight :=
    (Nat.lt_mul_of_div_lt (Nat.lt_succ_self _) fullWeight_pos).le
  have hmul : blockRuns new weight * old ≤ (blockRuns old weight + 1) * new := by
    refine Nat.le_of_mul_le_mul_right ?_ fullWeight_pos
    calc blockRuns new weight * old * fullWeight
        = blockRuns new weight * fullWeight * old := Nat.mul_right_comm _ _ _
      _ ≤ new * weight * old := Nat.mul_le_mul_right _ hnew
      _ = old * weight * new := by ring
      _ ≤ (blockRuns old weight + 1) * fullWeight * new := Nat.mul_le_mul_right _ hold
      _ = (blockRuns old weight + 1) * new * fullWeight := Nat.mul_right_comm _ _ _
  rw [← Nat.add_div_right _ hpos, Nat.le_div_iff_mul_le hpos]
  calc blockRuns new weight * old ≤ blockRuns old weight * new + new := by
        rwa [← Nat.succ_mul]
    _ ≤ blockRuns old weight * new + old := Nat.add_le_add_left hle _

/-- A block's share of its runs is what the profile makes of the entries that are left, up to one.
-/
theorem share_blockRuns (hle : new ≤ old) (hpos : 0 < old) :
    share (blockRuns old weight) new old ≤ blockRuns new weight + 1 ∧
      blockRuns new weight ≤ share (blockRuns old weight) new old + 1 := by
  obtain ⟨hlower, hupper⟩ := share_bounds (blockRuns old weight) new old
  have hle' : blockRuns old weight * new / old ≤ blockRuns new weight :=
    blockRuns_mul_div_le weight hpos
  have hge := blockRuns_le_mul_div_succ weight hle hpos
  omega

end Rounding

namespace SiteIndex

/-- An index agrees with the profile of a program on a function: it has the frequency of the entry
block, and for the calls in the function that another index tracked the frequencies of their blocks,
up to one. -/
structure AgreesOn (ix before : SiteIndex) (p : Program) (rounds : Nat) (f : FunctionId) :
    Prop where
  entries : ∃ b record, p.entryBlock? f = some b ∧ ix.function? f = some record ∧
    (p.profile rounds)[b]? = some record.frequency
  calls : ∀ id r, before.record? id = some r → r.caller = f → ∃ n m,
    ix.record? id = some { r with frequency := n } ∧
    (p.profile rounds)[r.location.block]? = some m ∧ n ≤ m + 1 ∧ m ≤ n + 1

variable {ix : SiteIndex} {p : Program} {rounds : Nat} {f : FunctionId} {id : SiteId}

/-! ### The index of a profile -/

/-- The calls of a program with a profile, as the index of the program has them. -/
theorem Describes.record_eq (wf : p.WellFormed) {scanned : List FunctionId}
    (h : ix.Describes p (p.profile rounds).oracle scanned) {r : SiteRecord}
    (hr : ix.record? id = some r) : ∃ x b, p.function? r.caller = some x ∧ b ∈ x.blocks ∧
      b.id = r.location.block ∧ p.callWeight r.toCallSite = b.weight ∧
      r.frequency = blockRuns ((p.entries rounds).of r.caller) b.weight := by
  obtain ⟨hfun, hcall, -, hfrequency, -⟩ := h.sound id r hr
  obtain ⟨x, hx, i, hi, -⟩ := wf.callAt?_eq_some.mp hcall
  obtain ⟨-, b, hb, hbid, -⟩ := FunctionBody.mem_located.mp hi
  rw [hfun] at hx
  obtain ⟨hmem, hid⟩ := wf.function?_eq_some.mp hx
  refine ⟨x, b, hx, hb, hbid, ?_, ?_⟩
  · rw [Program.callWeight, Program.blockAt?, hfun, hx, Option.bind_some,
      (wf.block?_eq_some hmem).mpr ⟨hb, hbid⟩]
    rfl
  · have hprofile := wf.getElem?_profile rounds hmem hb
    rw [hbid, hid] at hprofile
    exact Option.some.inj (hfrequency.symm.trans hprofile)

/-- The entries of a function, as the index of the program has them. -/
theorem Describes.frequency_eq (wf : p.WellFormed) (full : p.FullEntries)
    {scanned : List FunctionId} (h : ix.Describes p (p.profile rounds).oracle scanned)
    {record : FunctionRecord} (hf : ix.function? f = some record) :
    record.frequency = (p.entries rounds).of f := by
  obtain ⟨b, hb, hfrequency⟩ := (h.figures_eq hf).1
  exact Option.some.inj (hfrequency.symm.trans (wf.profile_entryBlock full rounds hb))

/-! ### One inline -/

section Inline

variable {call : SiteRecord} {callee : FunctionRecord} {body : FunctionBody}
  {scanned : List FunctionId} (wf : p.WellFormed) (full : p.FullEntries)
  (describes : ix.Describes p (p.profile rounds).oracle scanned)
  (hcall : ix.record? id = some call) (hcallee : ix.function? call.callee = some callee)
  (hflat : callee.recursive = false) (hsite : p.calleeAt call.toCallSite = .ok body)
include wf full describes hcall hcallee hflat hsite

/-- By the profile of the new program, the callee has lost the frequency of the call. -/
theorem Describes.entries_splice :
    ((p.splice call.toCallSite body).entries rounds).of call.callee + call.frequency =
      callee.frequency := by
  obtain ⟨x, b, -, -, -, hweight, hfrequency⟩ := describes.record_eq wf hcall
  have hentries := wf.entries_splice_callee hsite rounds
    (describes.flagsCycles wf call.callee callee hcallee hflat)
  rw [hweight] at hentries
  rw [describes.frequency_eq wf full hcallee, hfrequency]
  exact hentries

/-- If this is what is left to the callee, index and profile agree. -/
theorem Describes.agreesOn {ix' : SiteIndex} {report : List CopiedCall}
    (full' : (p.splice call.toCallSite body).FullEntries) (hpos : 0 < callee.frequency)
    (h : (ix.mark id).Redistributes ix' { call with inlined := true } callee.frequency
      (((p.splice call.toCallSite body).entries rounds).of call.callee) report) :
    ix'.AgreesOn ix (p.splice call.toCallSite body) rounds call.callee := by
  have acyclic := describes.flagsCycles wf call.callee callee hcallee hflat
  have hfunction := wf.function?_splice_callee hsite acyclic
  obtain ⟨hmem, hid⟩ := wf.splice.function?_eq_some.mp hfunction
  constructor
  case entries =>
    obtain ⟨entry, hentry, -⟩ := Option.map_eq_some_iff.mp (full' body hmem)
    have hblock : (p.splice call.toCallSite body).entryBlock? call.callee = some entry.id := by
      rw [Program.entryBlock?, hfunction, Option.bind_some, hentry, Option.map_some]
    have hfigures := h.figures call.callee
    rw [show (ix.mark id).function? call.callee = some callee from hcallee, Option.map_some,
      if_pos rfl] at hfigures
    obtain ⟨record, hrecord, heq⟩ := Option.map_eq_some_iff.mp hfigures
    refine ⟨entry.id, record, hblock, hrecord, ?_⟩
    rw [wf.splice.profile_entryBlock full' rounds hblock,
      show record.frequency = record.figures.frequency from rfl, heq]
  case calls =>
    intro id' r hr hcaller
    obtain ⟨x, b, hx, hb, hbid, -, hfrequency⟩ := describes.record_eq wf hr
    rw [hcaller, (Program.calleeAt_eq_ok.mp hsite).2.2, Option.some.injEq] at hx
    subst hx
    -- The call itself stands in its caller, which is another function.
    have hne : id ≠ id' := by
      rintro rfl
      rw [hcall, Option.some.injEq] at hr
      exact wf.callee_ne_caller hsite acyclic (hr ▸ hcaller.symm)
    have hmarked : (ix.mark id).record? id' = some r := by
      rw [record?_mark, hr, Option.map_some, if_neg hne]
    have hkept := h.kept id' r hmarked
    rw [if_pos ⟨hcaller, (describes.sound id' r hr).2.2.2.2⟩] at hkept
    have hprofile := wf.splice.getElem?_profile rounds hmem hb
    rw [hbid, hid] at hprofile
    refine ⟨_, _, hkept, hprofile, ?_⟩
    have hentries := describes.entries_splice wf full hcall hcallee hflat hsite
    rw [hfrequency, hcaller, ← describes.frequency_eq wf full hcallee]
    exact share_blockRuns b.weight (by omega) hpos

end Inline

/-- **Redistributing agrees with profiling anew.** A call of a function off all cycles is marked and
inlined. Unless that function was never entered, the redistribution succeeds and is not saturated,
and the figures that it leaves for the function and its calls are those of the new profile, except
where the call had all entries of a function that is still called from elsewhere. -/
theorem redistribution_agrees (edited : p.Edited) (rounds : Nat) :
    ∃ ix, build p.snapshot (p.profile rounds).oracle = .ok ix ∧
      ∀ id call callee, ix.record? id = some call → ix.function? call.callee = some callee →
        callee.recursive = false → ∃ report q, Program.inline call.toCallSite p = .ok report q ∧
          (callee.frequency = 0 → redistribute q.snapshot id report (ix.mark id) =
            .error (.zeroFrequency call.callee) (ix.mark id)) ∧
          (callee.frequency ≠ 0 → ∃ done ix',
            redistribute q.snapshot id report (ix.mark id) = .ok done ix' ∧
            done.saturated = false ∧
            (¬ (call.frequency = callee.frequency ∧ ∃ id' r, (ix.mark id).record? id' = some r ∧
                r.inlined = false ∧ r.callee = call.callee) →
              ix'.AgreesOn ix q rounds call.callee)) := by
  have wf := edited.wellFormed
  rcases build_cases wf (p.profile rounds).oracle with ⟨ix, hbuild, describes⟩ | ⟨e, -, he⟩
  case inr => exact absurd he (wf.not_unknown rounds e)
  refine ⟨ix, hbuild, fun id call callee hcall hcallee hflat => ?_⟩
  have htracks := (describes.tracks wf).1
  obtain ⟨body, hsite⟩ := htracks.exists_calleeAt wf hcall (describes.sound id call hcall).2.2.2.2
  have hinline : Program.inline call.toCallSite p =
      .ok (p.copiedCalls call.toCallSite body) (p.splice call.toCallSite body) := by
    rw [Program.inline_apply, hsite]
  have edited' : (p.splice call.toCallSite body).Edited := by
    have := edited.inline call.toCallSite
    rwa [Update.after, hinline] at this
  have hentries := describes.entries_splice wf edited.fullEntries hcall hcallee hflat hsite
  have hmarked : (ix.mark id).record? id = some { call with inlined := true } := by
    rw [record?_mark, hcall, Option.map_some, if_pos rfl]
  refine ⟨_, _, hinline, ?_⟩
  have hcaller : ({ call with inlined := true } : SiteRecord).caller ∈ (ix.mark id).functions :=
    (describes.functions _).mpr (describes.caller id call hcall)
  rcases redistribute_cases (htracks.mark id) hcaller (wf.inlines hsite) hmarked rfl hcallee with
    ⟨hzero, herror⟩ | ⟨hpos, done, ix', still, hdone, hsaturated, hstill, hredistributes⟩
  · exact ⟨fun _ => herror, fun hpos => absurd hzero hpos⟩
  refine ⟨fun hzero => absurd hzero hpos, fun _ => ⟨done, ix', hdone, ?_, fun hrest => ?_⟩⟩
  · rw [hsaturated]
    exact decide_eq_false (show ¬ callee.frequency < call.frequency by omega)
  · have hleft : entriesLeft callee.frequency call.frequency still =
        ((p.splice call.toCallSite body).entries rounds).of call.callee := by
      rw [entriesLeft, if_neg]
      · omega
      · rw [Bool.and_eq_true, decide_eq_true_eq, hstill]
        exact fun hfloor => hrest ⟨by omega, hfloor.2⟩
    exact describes.agreesOn wf edited.fullEntries hcall hcallee hflat hsite edited'.fullEntries
      (Nat.pos_of_ne_zero hpos) (hleft ▸ hredistributes)

end SiteIndex

/-- Two functions that call each other and both call a third one, where a block that does not run
with every entry calls a fourth. -/
def Program.tandem : Program :=
  (push ⟨5⟩ (.call ⟨4⟩)).after <| (addBlock ⟨3⟩ 350).after <|
    assemble ["main", "even", "odd", "leaf", "base"]
      [(0, .call ⟨1⟩), (1, .call ⟨2⟩), (2, .call ⟨1⟩), (1, .call ⟨3⟩), (2, .callClosure ⟨3⟩)]
      [(0, 7)]

theorem Program.edited_tandem : tandem.Edited :=
  .push _ _ (.addBlock _ _ (built_assemble _ _ _).edited)

namespace SiteIndex

theorem redistribution_agrees_tandem : Program.tandem.Edited ∧ ∃ ix call callee report q done ix',
    build Program.tandem.snapshot (Program.tandem.profile 4).oracle = .ok ix ∧
    ix.record? ⟨2⟩ = some call ∧ call.frequency = 21 ∧
    ix.function? call.callee = some callee ∧ callee.frequency = 35 ∧ callee.recursive = false ∧
    Program.inline call.toCallSite Program.tandem = .ok report q ∧
    redistribute q.snapshot ⟨2⟩ report (ix.mark ⟨2⟩) = .ok done ix' ∧ done.saturated = false ∧
    ix'.AgreesOn ix q 4 call.callee := by
  obtain ⟨ix, hbuild, hall⟩ := redistribution_agrees Program.edited_tandem 4
  have hfigures : (match build Program.tandem.snapshot (Program.tandem.profile 4).oracle with
      | .ok ix => (ix.record? ⟨2⟩).any fun call => (ix.function? call.callee).any fun callee =>
          call.frequency = 21 && callee.frequency = 35 && !callee.recursive
      | .error _ => false) = true := by decide +kernel
  simp only [hbuild, Option.any_eq_true, Bool.and_eq_true, decide_eq_true_eq,
    Bool.not_eq_true'] at hfigures
  obtain ⟨call, hcall, callee, hcallee, ⟨hfrequency, hentries⟩, hflat⟩ := hfigures
  obtain ⟨report, q, hinline, -, hdone⟩ := hall ⟨2⟩ call callee hcall hcallee hflat
  obtain ⟨done, ix', hdone, hsaturated, hagrees⟩ := hdone (by omega)
  exact ⟨Program.edited_tandem, ix, call, callee, report, q, done, ix', hbuild, hcall, hfrequency,
    hcallee, hentries, hflat, hinline, hdone, hsaturated, hagrees fun hfloor => by omega⟩

end SiteIndex

end Inlining
