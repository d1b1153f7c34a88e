import Inlining.Proofs.Run.Simulation

/-!
# Callees that were never entered

A redistribution divides by the entries of the callee. It fails if there are none, and this is the
one failure that a run can end with. The redistributions themselves do not bring it about, since a
function that is still called somewhere keeps an entry. It comes from the profile: the calls that
fail are those of a function without entries in the profile that the index was last built from.

A profile that lets a call run should let its callee be entered as well; we call the program `Fed`
then, and no run fails that sees only such programs. Static profiles need not be of this kind. The
entries of a long cycle of calls travel by one function in each round, and where the rounds end a
call runs whose callee has not been reached.

## Main definitions

* `Program.Unentered`, `Program.Fed` — what the profile says about callees
* `SiteIndex.Sustains` — what remains of the profile in the index
* `Run.Indexed` — the moments of selection with the moments that their index was built

## Main results

* `SiteIndex.Redistributes.sustains` — a redistribution takes the last entry of no function that is
  still called
* `Run.Indexed.sustains` — what remains of the profile throughout a run
* `Run.starves_iff_unentered` — which runs end with this failure
-/

namespace Inlining

namespace Program

/-- The profile of the program says that a function is never entered. -/
def Unentered (p : Program) (rounds : Nat) (f : FunctionId) : Prop :=
  ∃ b, p.entryBlock? f = some b ∧ (p.profile rounds)[b]? = some 0

/-- In the profile of the program, every call that runs leads to a function that is entered. -/
def Fed (p : Program) (rounds : Nat) : Prop :=
  ∀ l f n, p.callAt? l = some f → (p.profile rounds)[l.block]? = some n → 0 < n →
    ¬ p.Unentered rounds f

end Program

namespace SiteIndex

/-- What remains of the profile of a program in an index. The functions that are still called and
have no entries are those that the profile gave none; and no call of one of these runs, if none did
in the profile. -/
structure Sustains (ix : SiteIndex) (p : Program) (rounds : Nat) : Prop where
  entered : ∀ id r callee, ix.record? id = some r → r.inlined = false →
    ix.function? r.callee = some callee → (callee.frequency = 0 ↔ p.Unentered rounds r.callee)
  fed : p.Fed rounds → ∀ id r, ix.record? id = some r → r.inlined = false → 0 < r.frequency →
    ¬ p.Unentered rounds r.callee

variable {ix ix' : SiteIndex} {p : Program} {rounds : Nat}

theorem Describes.sustains {scanned : List FunctionId}
    (h : ix.Describes p (p.profile rounds).oracle scanned) : ix.Sustains p rounds := by
  constructor
  case entered =>
    intro id r callee _ _ hcallee
    obtain ⟨entry, hentry, hfrequency⟩ := (h.figures_eq hcallee).1
    have hprofile : (p.profile rounds)[entry]? = some callee.frequency := hfrequency
    constructor
    · intro hzero
      exact ⟨entry, hentry, hzero ▸ hprofile⟩
    · rintro ⟨b, hb, hzero⟩
      cases hb.symm.trans hentry
      exact Option.some.inj (hprofile.symm.trans hzero)
  case fed =>
    intro hfed id r hr _ hpos
    obtain ⟨-, hcall, -, hfrequency, -⟩ := h.sound id r hr
    exact hfed r.location r.callee r.frequency hcall hfrequency hpos

/-- **A redistribution takes the last entry of no function that is still called.** -/
theorem Redistributes.sustains {call : SiteRecord} {callee : FunctionRecord} {still : Bool}
    {report : List CopiedCall}
    (h : ix.Redistributes ix' call callee.frequency
      (entriesLeft callee.frequency call.frequency still) report)
    (hix : ix.Sustains p rounds) (hcallee : ix.function? call.callee = some callee)
    (entered : callee.frequency ≠ 0)
    (hstill : still = true ↔ ∃ id r, ix.record? id = some r ∧ r.inlined = false ∧
      r.callee = call.callee) : ix'.Sustains p rounds := by
  have hpositive := Nat.pos_of_ne_zero entered
  have hleft := entriesLeft_le call.frequency still hpositive
  constructor
  case entered =>
    intro id' r' f' hr' hlive' hf'
    obtain ⟨id, r, hr, hlive, heq, -⟩ := h.exists_source hleft hpositive hr' hlive'
    rw [heq] at hf' ⊢
    have hfigures := h.figures r.callee
    rw [hf', Option.map_some] at hfigures
    obtain ⟨f, hf, hfigures⟩ := Option.map_eq_some_iff.mp hfigures.symm
    rw [← hix.entered id r f hr hlive hf,
      show f'.frequency = f'.figures.frequency from rfl, ← hfigures]
    by_cases hsame : r.callee = call.callee
    · -- Its entries were split, but it is still called.
      have hf : f = callee := by
        rw [hsame, hcallee] at hf
        exact (Option.some.inj hf).symm
      rw [if_pos hsame, hf, hstill.mpr ⟨id, r, hr, hlive, hsame⟩]
      exact iff_of_false (entriesLeft_ne_zero _ _) entered
    · rw [if_neg hsame]
      rfl
  case fed =>
    intro hfed id' r' hr' hlive' hpos'
    obtain ⟨id, r, hr, hlive, heq, hle⟩ := h.exists_source hleft hpositive hr' hlive'
    rw [heq]
    exact hix.fed hfed id r hr hlive (Nat.lt_of_lt_of_le hpos' hle)

end SiteIndex

namespace Run

/-- The moments of selection, each in the turn that it belongs to and with the run as it was when
the index was built. -/
inductive Indexed {σ : Type} (h : Host σ) (engine : Engine σ) (start : Run σ) :
    (opening r s : Run σ) → Prop
  | start {s : Run σ} (selects : Selects h start s)
      (same : s.policy.index.generation = start.policy.index.generation) :
      Indexed h engine start start start s
  | kept {opening r s r' s' : Run σ} {id : SiteId} (indexed : Indexed h engine start opening r s)
      (best : s.policy.selection.best = some id) (turn : r.turn h engine = .ok true r')
      (selects : Selects h r' s')
      (same : s'.policy.index.generation = r'.policy.index.generation) :
      Indexed h engine start opening r' s'
  | renewed {r s : Run σ} (reached : Reached h engine start r) (selects : Selects h r s)
      (new : s.policy.index.generation ≠ r.policy.index.generation) :
      Indexed h engine start s r s

theorem Indexed.reached {σ : Type} {h : Host σ} {engine : Engine σ} {start opening r s : Run σ}
    (hs : Indexed h engine start opening r s) : Reached h engine start r ∧ Selects h r s := by
  induction hs with
  | start selects => exact ⟨.start, selects⟩
  | kept _ _ turn selects _ ih => exact ⟨ih.1.turn turn, selects⟩
  | renewed reached selects => exact ⟨reached, selects⟩

variable {rounds : Nat} {r s t start opening : Run Workspace}

/-- Every moment of selection is one of these. -/
theorem Reached.exists_indexed (between : start.policy.Between start.host.program)
    (hr : Reached (Workspace.host rounds) Workspace.inline start r) :
    ∀ s, Selects (Workspace.host rounds) r s →
      ∃ opening, Indexed (Workspace.host rounds) Workspace.inline start opening r s := by
  induction hr with
  | start =>
    intro s hs
    by_cases hsame : s.policy.index.generation = start.policy.index.generation
    · exact ⟨start, .start hs hsame⟩
    · exact ⟨s, .renewed .start hs hsame⟩
  | @turn r r' hr turn ih =>
    intro s' hs'
    by_cases hsame : s'.policy.index.generation = r'.policy.index.generation
    · obtain ⟨s, _, _, _, _, hs, -, hinlined⟩ := exists_inlined_of_turn (hr.between between) turn
      obtain ⟨opening, hindexed⟩ := ih s hs
      exact ⟨opening, hindexed.kept hinlined.best turn hs' hsame⟩
    · exact ⟨s', .renewed (hr.turn turn) hs' hsame⟩

/-! ### What remains of the profile -/

section Turn

variable {p : Program} {id : SiteId} {call : SiteRecord} {callee : FunctionRecord}
  {body : FunctionBody}

/-- Choosing a call site leaves the entries of all functions alone. -/
theorem Inlined.frequency_eq (h : Inlined s t id call callee body) {f : FunctionId}
    {record' : FunctionRecord} (hf : t.policy.index.function? f = some record') :
    ∃ record, s.policy.index.function? f = some record ∧ record'.frequency = record.frequency := by
  rw [h.function?] at hf
  obtain ⟨record, hrecord, rfl⟩ := Option.map_eq_some_iff.mp hf
  refine ⟨record, hrecord, ?_⟩
  split <;> rfl

theorem Inlined.sustains (h : Inlined s t id call callee body)
    (hs : s.policy.index.Sustains p rounds) : t.policy.index.Sustains p rounds := by
  have hrecord : ∀ {id' r'}, t.policy.index.record? id' = some r' → r'.inlined = false →
      s.policy.index.record? id' = some r' := by
    intro id' r' hr' hlive'
    rw [h.record?] at hr'
    obtain ⟨r, hr, rfl⟩ := Option.map_eq_some_iff.mp hr'
    by_cases hid : id = id'
    · simp [hid] at hlive'
    · simpa [hid] using hr
  constructor
  case entered =>
    intro id' r' f' hr' hlive' hf'
    obtain ⟨f, hf, hfrequency⟩ := h.frequency_eq hf'
    rw [hfrequency]
    exact hs.entered id' r' f (hrecord hr' hlive') hlive' hf
  case fed =>
    intro hfed id' r' hr' hlive'
    exact hs.fed hfed id' r' (hrecord hr' hlive') hlive'

end Turn

theorem Accounted.sustains {p : Program} (h : Accounted r s)
    (hr : r.policy.index.Sustains p rounds) : s.policy.index.Sustains p rounds := by
  cases h with
  | nothing _ plain =>
    have hindex : s.policy.index = r.policy.index :=
      show s.policy.plain.index = r.policy.plain.index by rw [plain]
    rw [hindex]
    exact hr
  | inline _ callee_eq entered still_iff redistributes =>
    exact redistributes.sustains hr callee_eq entered still_iff

/-- **What remains of the profile throughout a run**: whenever the policy selects, the functions
that are still called and have no entries are those that the profile gave none. -/
theorem Indexed.sustains (between : start.policy.Between start.host.program)
    (hstart : start.policy.index.Sustains start.host.program rounds)
    (hs : Indexed (Workspace.host rounds) Workspace.inline start opening r s) :
    s.policy.index.Sustains opening.host.program rounds := by
  induction hs with
  | start selects same => exact (selects.accounted_of_generation between same).sustains hstart
  | kept indexed best turn selects same ih =>
    have hbetween := indexed.reached.1.between between
    obtain ⟨_, _, _, _, hturn, hinlined⟩ := indexed.reached.2.exists_inlined hbetween best
    cases hturn.symm.trans turn
    have haccounted := selects.accounted_of_generation (Between.turn hbetween turn) same
    exact haccounted.sustains (hinlined.sustains ih)
  | renewed reached selects new =>
    rcases (selects.cases (reached.between between)).2 with haccounted | ⟨_, -, -, -, hrebuilt⟩
    · exact absurd haccounted.unchanged.2 new
    · exact hrebuilt.describes.sustains

/-! ### Runs that fail -/

/-- After a callee without entries was inlined, the next turn fails. -/
theorem Inlined.turn_eq_error {id : SiteId} {call : SiteRecord} {callee : FunctionRecord}
    {body : FunctionBody} (h : Inlined s t id call callee body)
    (settled : s.policy.Settled s.host.program) (running : s.policy.finished = false)
    (zero : callee.frequency = 0) :
    ∃ t', t.turn (Workspace.host rounds) Workspace.inline =
      .error (.zeroFrequency call.callee) t' := by
  have hawaits := h.awaits settled
  have hrunning : t.policy.finished = false :=
    show t.policy.plain.finished = false by rw [h.plain]; exact running
  rcases account_awaits rounds hawaits with ⟨t', herror, -⟩ | ⟨t', -, haccounted⟩
  · refine ⟨t', ?_⟩
    rw [turn_apply, step_apply, herror]
    simp [hrunning]
  · obtain ⟨_, _, hcallee', hentered, -⟩ := haccounted.of_awaits hawaits
    obtain ⟨_, hcallee, hfrequency⟩ := h.frequency_eq hcallee'
    cases hcallee.symm.trans h.callee_eq
    exact absurd (hfrequency.trans zero) hentered

/-- A turn that fails follows the inline of a callee without entries. -/
theorem Starved.exists_inlined {r' : Run Workspace} {f : FunctionId} (h : Starved r' t f)
    (between : r.policy.Between r.host.program)
    (hturn : r.turn (Workspace.host rounds) Workspace.inline = .ok true r') :
    ∃ s id call callee body, Selects (Workspace.host rounds) r s ∧
      Inlined s r' id call callee body ∧ call.callee = f ∧ callee.frequency = 0 := by
  obtain ⟨s, id, call, callee, body, hs, hsettled, hinlined⟩ :=
    exists_inlined_of_turn between hturn
  obtain ⟨⟨_, _, _, _, hawaits, rfl⟩, ⟨callee', hcallee', hzero⟩, -, -⟩ := h
  have hawaits' := hinlined.awaits hsettled
  cases hawaits.pending.symm.trans hawaits'.pending
  cases hawaits.record.symm.trans hawaits'.record
  obtain ⟨_, hcallee, hfrequency⟩ := hinlined.frequency_eq hcallee'
  cases hcallee.symm.trans hinlined.callee_eq
  exact ⟨s, id, call, callee, body, hs, hinlined, rfl, hfrequency.symm.trans hzero⟩

/-- A call that was selected leads to a function without entries just if the profile gave it
none. -/
theorem Indexed.frequency_eq_zero_iff (between : start.policy.Between start.host.program)
    (hstart : start.policy.index.Sustains start.host.program rounds)
    (hs : Indexed (Workspace.host rounds) Workspace.inline start opening r s) {id : SiteId}
    {call : SiteRecord} {callee : FunctionRecord} {body : FunctionBody}
    (h : Inlined s t id call callee body) :
    callee.frequency = 0 ↔ opening.host.program.Unentered rounds call.callee := by
  obtain ⟨_, -, hlive, -⟩ := Selection.check_eq_none_iff.mp h.eligible
  exact (hs.sustains between hstart).entered id call callee h.record hlive h.callee_eq

/-- A schedule that fails has selected a call of a function that the profile gave no entries. -/
theorem exists_indexed_of_drive_eq_error (settled : start.policy.Settled start.host.program)
    (hstart : start.policy.index.Sustains start.host.program rounds) {cap : Nat} {f : FunctionId}
    (herror : drive (Workspace.host rounds) Workspace.inline cap start =
      .error (.zeroFrequency f) t) :
    ∃ opening r s id call, Indexed (Workspace.host rounds) Workspace.inline start opening r s ∧
      s.policy.selection.best = some id ∧ s.policy.index.record? id = some call ∧
      call.callee = f ∧ opening.host.program.Unentered rounds f := by
  have hends := drive_ends (Workspace.host rounds) Workspace.inline start cap
  rw [herror] at hends
  cases hends with
  | failed hr failure =>
    have houtcome := turn_outcome rounds (hr.between (.inl settled))
    rw [failure] at houtcome
    cases houtcome with
    | starved _ starved =>
      cases hr with
      | start =>
        obtain ⟨⟨_, _, _, _, hawaits, -⟩, -⟩ := starved
        exact absurd hawaits settled.not_awaits
      | turn hr hturn =>
        obtain ⟨s, id, call, callee, body, hs, hinlined, rfl, hzero⟩ :=
          starved.exists_inlined (hr.between (.inl settled)) hturn
        obtain ⟨opening, hindexed⟩ := hr.exists_indexed (.inl settled) s hs
        exact ⟨opening, _, s, id, call, hindexed, hinlined.best, hinlined.record, rfl,
          (hindexed.frequency_eq_zero_iff (.inl settled) hstart hinlined).mp hzero⟩

/-- Selecting a call of a function that the profile gave no entries makes a schedule fail. -/
theorem Indexed.exists_drive_eq_error (between : start.policy.Between start.host.program)
    (hstart : start.policy.index.Sustains start.host.program rounds)
    (hs : Indexed (Workspace.host rounds) Workspace.inline start opening r s) {id : SiteId}
    {call : SiteRecord} (best : s.policy.selection.best = some id)
    (record : s.policy.index.record? id = some call)
    (unentered : opening.host.program.Unentered rounds call.callee) :
    ∃ cap t, drive (Workspace.host rounds) Workspace.inline cap start =
      .error (.zeroFrequency call.callee) t := by
  obtain ⟨hr, hselects⟩ := hs.reached
  have hr' := hr.between between
  obtain ⟨t, _, callee, body, hturn, hinlined⟩ := hselects.exists_inlined hr' best
  cases hinlined.record.symm.trans record
  have hzero := (hs.frequency_eq_zero_iff between hstart hinlined).mpr unentered
  obtain ⟨t', herror⟩ :=
    hinlined.turn_eq_error (hselects.cases hr').1 hselects.standing.2.2 hzero
  obtain ⟨cap, hdrive⟩ := (hr.turn hturn).exists_drive_eq_error herror
  exact ⟨cap, t', hdrive⟩

/-- A call that was selected runs at least as often as the run asks for. -/
theorem Indexed.minimumFrequency_le (between : start.policy.Between start.host.program)
    (hs : Indexed (Workspace.host rounds) Workspace.inline start opening r s) {id : SiteId}
    {call : SiteRecord} (best : s.policy.selection.best = some id)
    (record : s.policy.index.record? id = some call) :
    call.inlined = false ∧ start.policy.limits.minimumFrequency ≤ call.frequency := by
  obtain ⟨hr, hselects⟩ := hs.reached
  have hr' := hr.between between
  obtain ⟨_, _, _, _, -, hinlined⟩ := hselects.exists_inlined hr' best
  cases hinlined.record.symm.trans record
  obtain ⟨_, -, hlive, hfrequency, -⟩ := Selection.check_eq_none_iff.mp hinlined.eligible
  rw [← hr.limits between, ← hselects.standing.1]
  exact ⟨hlive, hfrequency⟩

/-- **Which runs fail**: those that select a call of a function without entries in the profile that
the index was built from. No run fails if, in all these profiles, the calls that run lead to
functions that are entered, provided that calls have to run to be selected. -/
theorem starves_iff_unentered {w : Workspace} (built : w.program.Built) (rounds : Nat)
    (limits : Limits) : ∃ policy w',
    Policy.prepare (Workspace.host rounds) limits (w.program.profile rounds).oracle w =
      .ok policy w' ∧
    (∀ f, (∃ cap t, drive (Workspace.host rounds) Workspace.inline cap ⟨policy, w'⟩ =
        .error (.zeroFrequency f) t) ↔
      ∃ opening r s id call,
        Indexed (Workspace.host rounds) Workspace.inline ⟨policy, w'⟩ opening r s ∧
        s.policy.selection.best = some id ∧ s.policy.index.record? id = some call ∧
        call.callee = f ∧ opening.host.program.Unentered rounds f) ∧
    (1 ≤ limits.minimumFrequency →
      (∀ opening r s, Indexed (Workspace.host rounds) Workspace.inline ⟨policy, w'⟩ opening r s →
        opening.host.program.Fed rounds) →
      ∀ cap f t, drive (Workspace.host rounds) Workspace.inline cap ⟨policy, w'⟩ ≠
        .error (.zeroFrequency f) t) := by
  have wf := built.wellFormed
  obtain ⟨policy, w', prepared⟩ := Policy.exists_prepare_eq_ok wf rounds rounds limits
  have settled := settled_of_prepare wf prepared
  have hbetween : policy.Between w'.program := .inl settled
  obtain ⟨hprogram, hpolicy, hdescribes⟩ := Policy.prepare_eq_ok wf prepared
  have hstart : policy.index.Sustains w'.program rounds := by
    rw [hprogram]
    exact hdescribes.sustains
  refine ⟨policy, w', prepared, fun f => ⟨?_, ?_⟩, ?_⟩
  · rintro ⟨cap, t, herror⟩
    exact exists_indexed_of_drive_eq_error settled hstart herror
  · rintro ⟨opening, r, s, id, call, hindexed, hbest, hcall, rfl, hunentered⟩
    exact hindexed.exists_drive_eq_error hbetween hstart hbest hcall hunentered
  · intro hminimum hfed cap f t herror
    obtain ⟨opening, r, s, id, call, hindexed, hbest, hcall, rfl, hunentered⟩ :=
      exists_indexed_of_drive_eq_error settled hstart herror
    obtain ⟨hlive, hfrequency⟩ := hindexed.minimumFrequency_le hbetween hbest hcall
    have hpos : 0 < call.frequency := by
      rw [show policy.limits = limits by rw [hpolicy]; rfl] at hfrequency
      omega
    exact (hindexed.sustains hbetween hstart).fed (hfed _ _ _ hindexed) id call hcall hlive hpos
      hunentered

/-- Six functions in a circle are one more than the entries get to: the run fails as it inlines the
last one. -/
theorem starves_iff_unentered_wheel : ∃ policy w',
    (Program.wheel 6).Built ∧
    Policy.prepare (Workspace.host Program.defaultRounds) .sixfold
      ((Program.wheel 6).profile Program.defaultRounds).oracle { program := Program.wheel 6 } =
        .ok policy w' ∧
    (∃ cap t, drive (Workspace.host Program.defaultRounds) Workspace.inline cap ⟨policy, w'⟩ =
      .error (.zeroFrequency ⟨5⟩) t) ∧
    ∃ opening r s id call, Indexed (Workspace.host Program.defaultRounds) Workspace.inline
        ⟨policy, w'⟩ opening r s ∧
      s.policy.selection.best = some id ∧ s.policy.index.record? id = some call ∧
      call.callee = ⟨5⟩ ∧ opening.host.program.Unentered Program.defaultRounds ⟨5⟩ := by
  obtain ⟨policy, w', prepared, hiff, -⟩ := starves_iff_unentered
    (w := { program := Program.wheel 6 }) (Program.built_wheel 6) Program.defaultRounds .sixfold
  have hrun : (match Policy.prepare (Workspace.host Program.defaultRounds) .sixfold
        ((Program.wheel 6).profile Program.defaultRounds).oracle
        { program := Program.wheel 6 } with
      | .error _ _ => false
      | .ok policy w' =>
        match drive (Workspace.host Program.defaultRounds) Workspace.inline 10 ⟨policy, w'⟩ with
        | .error (.zeroFrequency f) _ => decide (f = ⟨5⟩)
        | _ => false) = true := by
    decide +kernel
  simp only [prepared] at hrun
  generalize herror : drive (Workspace.host Program.defaultRounds) Workspace.inline 10
    ⟨policy, w'⟩ = result at hrun
  split at hrun
  · rename_i t
    rw [of_decide_eq_true hrun] at herror
    exact ⟨policy, w', Program.built_wheel 6, prepared, ⟨10, t, herror⟩,
      (hiff ⟨5⟩).mp ⟨10, t, herror⟩⟩
  · cases hrun

end Run

end Inlining
