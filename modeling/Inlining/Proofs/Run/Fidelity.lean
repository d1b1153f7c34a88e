import Inlining.Proofs.Run.Simulation

/-!
# What the index says of the program

Whenever the policy selects, everything that the index offers is there: a record that was not
inlined names a call of its callee in its caller. For this reason no part of a run can break down,
except that a callee may turn out never to have been entered.

The other way round there is an exception. A function that is inlined into itself is copied together
with the very call that is being inlined. That call was marked before, so its record is not carried
over to the copy, although the copy is a call like any other. Such a call, and every copy made of
it, is `Run.Stray`: it stays out of the index until the index is built anew. Every other call is
tracked.

## Main definitions

* `SiteIndex.Faithful` — what the index offers is there
* `Run.Stray` — the calls that got lost

## Main results

* `Run.faithful_throughout` — the index offers nothing that is not there, and what can go wrong
* `Run.tracked_iff_not_stray` — which calls are tracked
* `Run.echo_call_untracked` — a call that got lost
-/

namespace Inlining

/-- Every record that was not inlined names a call of its callee that stands in its caller, and both
functions exist. -/
def SiteIndex.Faithful (ix : SiteIndex) (p : Program) : Prop :=
  ∀ id r, ix.record? id = some r → r.inlined = false →
    r.location.function = r.caller ∧ p.callAt? r.location = some r.callee ∧
      (p.function? r.caller).isSome ∧ (p.function? r.callee).isSome

theorem SiteIndex.Tracks.faithful {ix : SiteIndex} {p : Program} (h : ix.Tracks p)
    (wf : p.WellFormed) : ix.Faithful p := by
  intro id r hr hlive
  obtain ⟨hfun, hcall, hcallee⟩ := h.live id r hr hlive
  have hcaller := h.consistent.caller id r hr
  rw [h.functions, wf.mem_functions_snapshot] at hcaller hcallee
  exact ⟨hfun, hcall, hcaller, hcallee⟩

namespace Run

variable {rounds : Nat} {r s t start : Run Workspace}

/-- **The index never points at stale code**: whenever the policy selects, all that the index offers
is there. The one error that a run can end with is that a callee was never entered. -/
theorem faithful_throughout {limits : Limits} {oracle : Oracle} {w w' : Workspace}
    {policy : Policy} (built : w.program.Built)
    (prepared : Policy.prepare (Workspace.host rounds) limits oracle w = .ok policy w') :
    (∀ r s, Reached (Workspace.host rounds) Workspace.inline ⟨policy, w'⟩ r →
      Selects (Workspace.host rounds) r s → s.policy.index.Faithful s.host.program) ∧
    ∀ cap e t, drive (Workspace.host rounds) Workspace.inline cap ⟨policy, w'⟩ = .error e t →
      ∃ f, e = .zeroFrequency f := by
  have hbetween : policy.Between w'.program :=
    .inl (settled_of_prepare built.wellFormed prepared)
  constructor
  · intro r s hr hs
    have hsettled := (hs.cases (hr.between hbetween)).1
    exact hsettled.tracks.faithful hsettled.wellFormed
  · intro cap e t herror
    have hends := drive_ends (Workspace.host rounds) Workspace.inline ⟨policy, w'⟩ cap
    rw [herror] at hends
    cases hends with
    | failed hr failure =>
      have houtcome := turn_outcome rounds (hr.between hbetween)
      rw [failure] at houtcome
      cases houtcome with
      | starved => exact ⟨_, rfl⟩

/-- The function that calls itself: there is something to select, and it is there. -/
theorem faithful_throughout_echo : ∃ policy w',
    Program.echo.Built ∧
    Policy.prepare (Workspace.host 4) .sixfold (Program.echo.profile 4).oracle
      { program := Program.echo } = .ok policy w' ∧
    (∃ s, Selects (Workspace.host 4) ⟨policy, w'⟩ s ∧
      s.policy.index.Faithful s.host.program) ∧
    ∀ cap e t, drive (Workspace.host 4) Workspace.inline cap ⟨policy, w'⟩ = .error e t →
      ∃ f, e = .zeroFrequency f := by
  have wf := Program.built_echo.wellFormed
  obtain ⟨policy, w', prepared⟩ := Policy.exists_prepare_eq_ok (w := { program := Program.echo })
    wf 4 4 .sixfold
  obtain ⟨hfaithful, herror⟩ := faithful_throughout Program.built_echo prepared
  have hrunning : policy.finished = false := by
    rw [(Policy.prepare_eq_ok wf prepared).2.1]
    rfl
  obtain ⟨s, haccount, -⟩ := account_settled (r := ⟨policy, w'⟩) 4 (settled_of_prepare wf prepared)
  have hs : Selects (Workspace.host 4) ⟨policy, w'⟩ s := .first hrunning haccount
  exact ⟨policy, w', Program.built_echo, prepared, ⟨s, hs, hfaithful _ _ .start hs⟩, herror⟩

/-! ### Calls that get lost -/

/-- The calls that got lost since the index was built: copies of a call that were made as that call
was inlined, and what was copied from these. -/
inductive Stray {σ : Type} (h : Host σ) (engine : Engine σ) (start : Run σ) :
    Run σ → Location → Prop
  | inlined {r r' : Run σ} {id : SiteId} {call : SiteRecord} {l : Location}
      (reached : Reached h engine start r) (turn : r.turn h engine = .ok true r')
      (pending : r'.policy.pending = some id) (record : r'.policy.index.record? id = some call)
      (copied : ⟨call.location, l⟩ ∈ r'.policy.copies) : Stray h engine start r' l
  | copied {r r' : Run σ} {k l : Location} (stray : Stray h engine start r k)
      (turn : r.turn h engine = .ok true r')
      (same : r'.policy.index.generation = r.policy.index.generation)
      (copied : ⟨k, l⟩ ∈ r'.policy.copies) : Stray h engine start r' l
  | left {r r' : Run σ} {l : Location} (stray : Stray h engine start r l)
      (turn : r.turn h engine = .ok true r')
      (same : r'.policy.index.generation = r.policy.index.generation) : Stray h engine start r' l

theorem Stray.reached {σ : Type} {h : Host σ} {engine : Engine σ} {start r : Run σ} {l : Location}
    (hl : Stray h engine start r l) : Reached h engine start r := by
  induction hl with
  | inlined hr turn => exact hr.turn turn
  | copied _ turn _ _ ih => exact ih.turn turn
  | left _ turn _ ih => exact ih.turn turn

end Run

/-! ### What the index offers -/

/-- The index has a record for a location that was not inlined. -/
def SiteIndex.Offers (ix : SiteIndex) (l : Location) : Prop :=
  ∃ id r, ix.record? id = some r ∧ r.location = l ∧ r.inlined = false

namespace SiteIndex

variable {ix ix' : SiteIndex} {p q : Program} {l : Location}

/-- At a call, the index offers the function that is called there. -/
theorem Tracks.offers_iff (h : ix.Tracks p) {f : FunctionId} (hl : p.callAt? l = some f) :
    ix.Offers l ↔ ∃ id r, ix.siteAt? l = some id ∧ ix.record? id = some r ∧ r.callee = f ∧
      r.inlined = false := by
  constructor
  · rintro ⟨id, r, hr, rfl, hlive⟩
    have hcall := (h.live id r hr hlive).2.1
    exact ⟨id, r, (h.consistent.sites _ id).mpr ⟨r, hr, rfl⟩, hr,
      Option.some.inj (hcall.symm.trans hl), hlive⟩
  · rintro ⟨id, r, hid, hr, -, hlive⟩
    obtain ⟨r', hr', hl'⟩ := (h.consistent.sites l id).mp hid
    cases hr.symm.trans hr'
    exact ⟨id, r, hr, hl', hlive⟩

theorem Tracks.block_lt_of_offers (h : ix.Tracks p) (hl : ix.Offers l) :
    l.block.index < p.nextBlock := by
  obtain ⟨id, r, hr, rfl, -⟩ := hl
  exact h.block_lt id r hr

/-- A new index offers all calls to functions of the program. -/
theorem Describes.offers {oracle : Oracle}
    (h : ix.Describes p oracle p.snapshot.functions) (wf : p.WellFormed) {f : FunctionId}
    (hl : p.callAt? l = some f) (hf : f ∈ ix.functions) : ix.Offers l := by
  obtain ⟨body, hbody, -⟩ := wf.callAt?_eq_some.mp hl
  have hscanned := wf.mem_functions_snapshot.mpr (Option.isSome_of_eq_some hbody)
  obtain ⟨id, r, hr, hloc⟩ := h.consistent.mem_sites.mp (h.complete l f hscanned hl hf)
  obtain ⟨-, -, -, -, hlive⟩ := h.sound id r hr
  exact ⟨id, r, hr, hloc, hlive⟩

/-- After a redistribution the index offers what it did before, and the copies of it. -/
theorem Redistributes.offers_iff {call : SiteRecord} {old new : Nat} {body : FunctionBody}
    {report : List CopiedCall} (h : ix.Redistributes ix' call old new report) (hix : ix.Tracks p)
    (inlines : p.Inlines q call.toCallSite body report) :
    ix'.Offers l ↔ ix.Offers l ∨ ∃ k, ix.Offers k ∧ ⟨k, l⟩ ∈ report := by
  constructor
  · rintro ⟨id', r', hr', rfl, hlive'⟩
    rcases h.only id' r' hr' with hold | ⟨id, r, l, hr, -, hlive, hmem, rfl⟩
    · obtain ⟨r, hr⟩ := Option.isSome_iff_exists.mp hold
      rw [h.kept id' r hr, Option.some.injEq] at hr'
      subst hr'
      left
      by_cases hsplit : r.caller = call.callee ∧ r.inlined = false
      · rw [if_pos hsplit]
        exact ⟨id', r, hr, rfl, hsplit.2⟩
      · rw [if_neg hsplit] at hlive' ⊢
        exact ⟨id', r, hr, rfl, hlive'⟩
    · exact .inr ⟨r.location, ⟨id, r, hr, rfl, hlive⟩, hmem⟩
  · rintro (⟨id, r, hr, rfl, hlive⟩ | ⟨k, ⟨id, r, hr, rfl, hlive⟩, hmem⟩)
    · refine ⟨id, _, h.kept id r hr, ?_⟩
      split <;> exact ⟨rfl, hlive⟩
    · have hcaller : r.caller = call.callee :=
        (hix.live id r hr hlive).1.symm.trans (inlines.copied _ hmem).1
      obtain ⟨id', l', hmem', hr'⟩ := h.copied id r hr hcaller hlive
      obtain rfl : l' = l := (inlines.paired _ hmem' _ hmem).mp rfl
      exact ⟨id', _, hr', rfl, rfl⟩

end SiteIndex

namespace Run

variable {rounds : Nat} {r s t start : Run Workspace} {l : Location}

section Turn

variable {id : SiteId} {call : SiteRecord} {callee : FunctionRecord} {body : FunctionBody}

/-- Choosing a call site takes it, and nothing else, out of what the index offers. -/
theorem Inlined.offers_iff (h : Inlined s t id call callee body)
    (settled : s.policy.Settled s.host.program) :
    t.policy.index.Offers l ↔ s.policy.index.Offers l ∧ l ≠ call.location := by
  constructor
  · rintro ⟨id', r', hr', rfl, hlive'⟩
    rw [h.record?] at hr'
    obtain ⟨r, hr, rfl⟩ := Option.map_eq_some_iff.mp hr'
    by_cases hid : id = id'
    · simp [hid] at hlive'
    · simp only [hid, if_false] at hlive' ⊢
      exact ⟨⟨id', r, hr, rfl, hlive'⟩, fun hl =>
        hid (settled.tracks.consistent.id_eq hr h.record hl).symm⟩
  · rintro ⟨⟨id', r, hr, rfl, hlive⟩, hne⟩
    have hid : id ≠ id' := by
      rintro rfl
      cases hr.symm.trans h.record
      exact hne rfl
    exact ⟨id', r, by rw [h.record?, hr]; simp [hid], rfl, hlive⟩

/-- After an inline was accounted for, the index offers what it did, less the inlined call, and the
copies of what it offers. -/
theorem Accounted.offers_iff {s' : Run Workspace} (haccounted : Accounted t s')
    (h : Inlined s t id call callee body) (settled : s.policy.Settled s.host.program) :
    s'.policy.index.Offers l ↔ (s.policy.index.Offers l ∧ l ≠ call.location) ∨
      ∃ k, (s.policy.index.Offers k ∧ k ≠ call.location) ∧ ⟨k, l⟩ ∈ t.policy.copies := by
  have hawaits := h.awaits settled
  obtain ⟨_, _, -, -, hredistributes⟩ := haccounted.of_awaits hawaits
  simp only [← h.offers_iff settled]
  exact hredistributes.offers_iff hawaits.tracks hawaits.inlines

/-- Copies stand in blocks of the new program. -/
theorem Inlined.block_lt_of_copied (h : Inlined s t id call callee body)
    (settled : s.policy.Settled s.host.program) {k : Location}
    (hmem : ⟨k, l⟩ ∈ t.policy.copies) : l.block.index < t.host.program.nextBlock := by
  have hinlines := (h.awaits settled).inlines
  obtain ⟨-, -, -, hsome, hcopy⟩ := hinlines.copied _ hmem
  obtain ⟨f, hf⟩ := Option.isSome_iff_exists.mp (hcopy ▸ hsome)
  obtain ⟨i, hi, -⟩ := Option.bind_eq_some_iff.mp hf
  exact hinlines.wellFormed.block_lt_of_instruction? hi

/-- The copy of a call that is not offered is not offered. -/
theorem Accounted.not_offers_of_copied {s' : Run Workspace} (haccounted : Accounted t s')
    (h : Inlined s t id call callee body) (settled : s.policy.Settled s.host.program) {k : Location}
    (hk : ¬ (s.policy.index.Offers k ∧ k ≠ call.location)) (hmem : ⟨k, l⟩ ∈ t.policy.copies) :
    ¬ s'.policy.index.Offers l := by
  have hinlines := (h.awaits settled).inlines
  rw [haccounted.offers_iff h settled]
  rintro (⟨hl, -⟩ | ⟨k', hk', hmem'⟩)
  · have hlt := settled.tracks.block_lt_of_offers hl
    exact Nat.not_lt.mpr (hinlines.copied _ hmem).2.2.1 hlt
  · obtain rfl : k' = k := (hinlines.paired _ hmem' _ hmem).mpr rfl
    exact hk hk'

end Turn

/-- Calls that got lost are not offered. -/
theorem Stray.not_offers (between : start.policy.Between start.host.program)
    (hl : Stray (Workspace.host rounds) Workspace.inline start r l) :
    l.block.index < r.host.program.nextBlock ∧ ∀ s, Accounted r s → ¬ s.policy.index.Offers l := by
  induction hl with
  | inlined hr turn pending record copied =>
    obtain ⟨s, id, call, callee, body, -, hsettled, hinlined⟩ :=
      exists_inlined_of_turn (hr.between between) turn
    have hawaits := hinlined.awaits hsettled
    cases hawaits.pending.symm.trans pending
    cases hawaits.record.symm.trans record
    exact ⟨hinlined.block_lt_of_copied hsettled copied, fun s' haccounted =>
      haccounted.not_offers_of_copied hinlined hsettled (fun h => h.2 rfl) copied⟩
  | @copied r r' k l stray turn same copied ih =>
    have hr := stray.reached.between between
    obtain ⟨s, id, call, callee, body, hs, hsettled, hinlined⟩ := exists_inlined_of_turn hr turn
    have haccounted := hs.accounted_of_generation hr (hinlined.generation.symm.trans same)
    exact ⟨hinlined.block_lt_of_copied hsettled copied, fun s' haccounted' =>
      haccounted'.not_offers_of_copied hinlined hsettled (fun h => ih.2 s haccounted h.1) copied⟩
  | @left r r' l stray turn same ih =>
    have hr := stray.reached.between between
    obtain ⟨s, id, call, callee, body, hs, hsettled, hinlined⟩ := exists_inlined_of_turn hr turn
    have haccounted := hs.accounted_of_generation hr (hinlined.generation.symm.trans same)
    have hinlines := (hinlined.awaits hsettled).inlines
    have hlt : l.block.index < s.host.program.nextBlock := by
      rw [haccounted.unchanged.1]
      exact ih.1
    refine ⟨Nat.lt_of_lt_of_le hlt hinlines.nextBlock, fun s' haccounted' => ?_⟩
    rw [haccounted'.offers_iff hinlined hsettled]
    rintro (⟨hl, -⟩ | ⟨k, -, hmem⟩)
    · exact ih.2 s haccounted hl
    · exact Nat.not_lt.mpr (hinlines.copied _ hmem).2.2.1 hlt

/-- A call that did not get lost is offered. -/
theorem Reached.offers_or_stray (between : start.policy.Between start.host.program)
    (new : ∀ s, Accounted start s → ∀ l f, s.host.program.callAt? l = some f →
      f ∈ s.policy.index.functions → s.policy.index.Offers l)
    (hr : Reached (Workspace.host rounds) Workspace.inline start r) :
    ∀ s, Accounted r s → ∀ l f, s.host.program.callAt? l = some f →
      f ∈ s.policy.index.functions → s.policy.index.Offers l ∨
        Stray (Workspace.host rounds) Workspace.inline start r l := by
  induction hr with
  | start => exact fun s haccounted l f hl hf => .inl (new s haccounted l f hl hf)
  | @turn r r' hr turn ih =>
    have hbetween := hr.between between
    obtain ⟨s, id, call, callee, body, hs, hsettled, hinlined⟩ :=
      exists_inlined_of_turn hbetween turn
    have hawaits := hinlined.awaits hsettled
    have hinlines := hawaits.inlines
    -- When the policy selected in this turn, a call was offered or had got lost before.
    have hbefore : ∀ k g, s.host.program.callAt? k = some g → g ∈ s.policy.index.functions →
        s.policy.index.Offers k ∨ (Stray (Workspace.host rounds) Workspace.inline start r k ∧
          r'.policy.index.generation = r.policy.index.generation) := by
      intro k g hk hg
      rcases (hs.cases hbetween).2 with haccounted | ⟨_, -, -, -, hrebuilt⟩
      · refine (ih s haccounted k g hk hg).imp_right fun hstray => ⟨hstray, ?_⟩
        exact hinlined.generation.trans haccounted.unchanged.2
      · exact .inl (hrebuilt.describes.offers hsettled.wellFormed hk hg)
    intro s' haccounted' l f hl hf
    rw [haccounted'.unchanged.1] at hl
    have hf' : f ∈ s.policy.index.functions := by
      rw [haccounted'.settled.tracks.functions, haccounted'.unchanged.1,
        hinlines.mem_functions_snapshot hsettled.wellFormed] at hf
      exact (hsettled.tracks.functions f).mpr hf
    rw [haccounted'.offers_iff hinlined hsettled]
    rcases hinlines.callAt?_cases hl with ⟨hl, hne⟩ | ⟨k, hk, hmem⟩
    · rcases hbefore l f hl hf' with hoffers | ⟨hstray, hsame⟩
      · exact .inl (.inl ⟨hoffers, hne⟩)
      · exact .inr (.left hstray turn hsame)
    · by_cases hne : k = call.location
      · subst hne
        exact .inr (.inlined hr turn hawaits.pending hawaits.record hmem)
      · rcases hbefore k f hk hf' with hoffers | ⟨hstray, hsame⟩
        · exact .inl (.inr ⟨k, ⟨hoffers, hne⟩, hmem⟩)
        · exact .inr (.copied hstray turn hsame hmem)

/-- The function that calls itself, inlined once: the copy in its second block is a call that the
index knows nothing of. -/
theorem exists_turn_echo : ∃ policy w' r s,
    Policy.prepare (Workspace.host 4) .sixfold (Program.echo.profile 4).oracle
      { program := Program.echo } = .ok policy w' ∧
    Run.turn (Workspace.host 4) Workspace.inline ⟨policy, w'⟩ = .ok true r ∧
    account (Workspace.host 4) r.tick = .ok () s ∧
    r.policy.finished = false ∧ s.host.program.callAt? ⟨⟨0⟩, ⟨1⟩, 0⟩ = some ⟨0⟩ ∧
    (s.host.program.function? ⟨0⟩).isSome ∧ s.policy.index.siteAt? ⟨⟨0⟩, ⟨1⟩, 0⟩ = none := by
  have hrun : (match Policy.prepare (Workspace.host 4) .sixfold (Program.echo.profile 4).oracle
      { program := Program.echo } with
    | .error _ _ => false
    | .ok policy w' => match Run.turn (Workspace.host 4) Workspace.inline ⟨policy, w'⟩ with
      | .error _ _ | .ok false _ => false
      | .ok true r => match account (Workspace.host 4) r.tick with
        | .error _ _ => false
        | .ok _ s => decide (r.policy.finished = false ∧
            s.host.program.callAt? ⟨⟨0⟩, ⟨1⟩, 0⟩ = some ⟨0⟩ ∧
            (s.host.program.function? ⟨0⟩).isSome ∧
            s.policy.index.siteAt? ⟨⟨0⟩, ⟨1⟩, 0⟩ = none)) = true := by
    decide +kernel
  split at hrun
  · cases hrun
  · rename_i policy w' hprepare
    split at hrun
    · cases hrun
    · cases hrun
    · rename_i r hturn
      split at hrun
      · cases hrun
      · rename_i s haccount
        exact ⟨policy, w', r, s, hprepare, hturn, haccount, of_decide_eq_true hrun⟩

/-- **Which calls are tracked**: whenever the policy selects, the index offers every call to a
function of the program, apart from those that got lost since the index was built. -/
theorem tracked_iff_not_stray {limits : Limits} {oracle : Oracle} {w w' : Workspace}
    {policy : Policy} (built : w.program.Built)
    (prepared : Policy.prepare (Workspace.host rounds) limits oracle w = .ok policy w') (r s)
    (hr : Reached (Workspace.host rounds) Workspace.inline ⟨policy, w'⟩ r)
    (hs : Selects (Workspace.host rounds) r s) (l f) (hl : s.host.program.callAt? l = some f)
    (hf : (s.host.program.function? f).isSome) :
    (∃ id record, s.policy.index.siteAt? l = some id ∧ s.policy.index.record? id = some record ∧
      record.callee = f ∧ record.inlined = false) ↔
    ¬ (s.policy.index.generation = r.policy.index.generation ∧
      Stray (Workspace.host rounds) Workspace.inline ⟨policy, w'⟩ r l) := by
  have wf := built.wellFormed
  have hstart := settled_of_prepare wf prepared
  have hbetween := hr.between (.inl hstart)
  have hsettled := (hs.cases hbetween).1
  have hf' : f ∈ s.policy.index.functions := by
    rw [hsettled.tracks.functions, hsettled.wellFormed.mem_functions_snapshot]
    exact hf
  have hnew : ∀ s, Accounted ⟨policy, w'⟩ s → ∀ l f, s.host.program.callAt? l = some f →
      f ∈ s.policy.index.functions → s.policy.index.Offers l := by
    intro s haccounted l f hl hf
    obtain ⟨hprogram, -, hdescribes⟩ := Policy.prepare_eq_ok wf prepared
    obtain ⟨hplain, hsame⟩ := haccounted.of_settled hstart
    have hindex : s.policy.index = policy.index :=
      show s.policy.plain.index = policy.plain.index by rw [hplain]
    rw [hsame, hprogram] at hl
    rw [hindex] at hf ⊢
    exact hdescribes.offers wf hl hf
  rw [← hsettled.tracks.offers_iff hl]
  constructor
  · rintro hoffers ⟨hsame, hstray⟩
    exact (hstray.not_offers (.inl hstart)).2 s (hs.accounted_of_generation hbetween hsame) hoffers
  · intro hnot
    rcases (hs.cases hbetween).2 with haccounted | ⟨_, -, -, -, hrebuilt⟩
    · have hoffered := hr.offers_or_stray (.inl hstart) hnew s haccounted l f hl hf'
      exact hoffered.resolve_right fun hstray => hnot ⟨haccounted.unchanged.2, hstray⟩
    · exact hrebuilt.describes.offers hsettled.wellFormed hl hf'

/-- The call that the index knows nothing of is one that got lost. -/
theorem tracked_iff_not_stray_echo : ∃ policy w' r s,
    Program.echo.Built ∧
    Policy.prepare (Workspace.host 4) .sixfold (Program.echo.profile 4).oracle
      { program := Program.echo } = .ok policy w' ∧
    Reached (Workspace.host 4) Workspace.inline ⟨policy, w'⟩ r ∧
    Selects (Workspace.host 4) r s ∧ s.host.program.callAt? ⟨⟨0⟩, ⟨1⟩, 0⟩ = some ⟨0⟩ ∧
    (s.host.program.function? ⟨0⟩).isSome ∧
    Stray (Workspace.host 4) Workspace.inline ⟨policy, w'⟩ r ⟨⟨0⟩, ⟨1⟩, 0⟩ := by
  obtain ⟨policy, w', r, s, hprepare, hturn, haccount, hrunning, hcall, hfunction, hsite⟩ :=
    exists_turn_echo
  have hr : Reached (Workspace.host 4) Workspace.inline ⟨policy, w'⟩ r := .turn .start hturn
  have hs : Selects (Workspace.host 4) r s := .first hrunning haccount
  have hiff := tracked_iff_not_stray Program.built_echo hprepare r s hr hs _ _ hcall hfunction
  have hstray := not_not.mp fun hnot => by
    obtain ⟨id, _, hid, -⟩ := hiff.mpr hnot
    rw [hsite] at hid
    cases hid
  exact ⟨policy, w', r, s, Program.built_echo, hprepare, hr, hs, hcall, hfunction, hstray.2⟩

/-- A call that got lost: the policy selects although the index knows nothing of it. -/
theorem echo_call_untracked : ∃ policy w' r s,
    Policy.prepare (Workspace.host 4) .sixfold (Program.echo.profile 4).oracle
      { program := Program.echo } = .ok policy w' ∧
    Reached (Workspace.host 4) Workspace.inline ⟨policy, w'⟩ r ∧
    Selects (Workspace.host 4) r s ∧ s.host.program.callAt? ⟨⟨0⟩, ⟨1⟩, 0⟩ = some ⟨0⟩ ∧
    (s.host.program.function? ⟨0⟩).isSome ∧ s.policy.index.siteAt? ⟨⟨0⟩, ⟨1⟩, 0⟩ = none := by
  obtain ⟨policy, w', r, s, hprepare, hturn, haccount, hrunning, hcall, hfunction, hsite⟩ :=
    exists_turn_echo
  exact ⟨policy, w', r, s, hprepare, .turn .start hturn, .first hrunning haccount, hcall,
    hfunction, hsite⟩

end Run

end Inlining
