import Inlining.Proofs.Policy.Entries
import Inlining.Proofs.Run.Trace
import Inlining.Proofs.Run.Workspace
import Inlining.Proofs.Selection

/-!
# The books follow the program

The policy predicts what the engine does and never looks at the result. At a moment of selection the
books are `Policy.Settled`: the index tracks the program. Between an inline and its accounting they
are one inline behind, `Policy.Awaits`: they track the program as it was. Sizes are not part of this
relation, since they agree only as long as they fit a word.

From this relation follow all outcomes that a turn can have. The engine always finds the call that
it is sent for, and the one error that is left is that of a callee which was never entered.

## Main definitions

* `Policy.Settled`, `Policy.Awaits` — the relation between books and program
* `Run.Accounted` — what a run is like once it has accounted for the inline before
* `Run.TurnOutcome` — the outcomes of a turn

## Main results

* `Run.Selects.cases` — the books are settled whenever the policy selects
* `Run.turn_outcome` — a turn has one of the outcomes
* `Run.Reached.between` — the relation holds throughout
* `Run.drive_program_invariant` — what sweeping and inlining keep holds of the program at the end
-/

namespace Inlining

namespace Policy

/-- Nothing is pending, and the index tracks the program. -/
structure Settled (policy : Policy) (p : Program) : Prop where
  wellFormed : p.WellFormed
  tracks : policy.index.Tracks p
  pending : policy.pending = none
  copies : policy.copies = []

/-- A call of the program `before` was inlined and reported, which gave the program `p`, but it was
not accounted for. -/
structure Awaits (policy : Policy) (before p : Program) (id : SiteId) (call : SiteRecord)
    (body : FunctionBody) : Prop where
  wellFormed : before.WellFormed
  tracks : policy.index.Tracks before
  pending : policy.pending = some id
  record : policy.index.record? id = some call
  marked : call.inlined = true
  callee : call.callee ∈ policy.index.functions
  inlines : before.Inlines p call.toCallSite body policy.copies

/-- The books between turns. -/
def Between (policy : Policy) (p : Program) : Prop :=
  policy.Settled p ∨ ∃ before id call body, policy.Awaits before p id call body

variable {policy policy' : Policy} {p : Program}

/-- Between turns the program is well-formed. -/
theorem Between.wellFormed (h : policy.Between p) : p.WellFormed := by
  rcases h with h | ⟨_, _, _, _, h⟩
  · exact h.wellFormed
  · exact h.inlines.wellFormed

/-- Books that are settled are not behind. -/
theorem Settled.not_awaits {before q : Program} {id : SiteId} {call : SiteRecord}
    {body : FunctionBody} (h : policy.Settled p) : ¬ policy.Awaits before q id call body := by
  intro hawaits
  have := h.pending.symm.trans hawaits.pending
  cases this

theorem Settled.congr (h : policy.Settled p) (plain : policy'.plain = policy.plain) :
    policy'.Settled p := by
  have hindex : policy'.index = policy.index :=
    show policy'.plain.index = policy.plain.index by rw [plain]
  have hpending : policy'.pending = policy.pending :=
    show policy'.plain.pending = policy.plain.pending by rw [plain]
  have hcopies : policy'.copies = policy.copies :=
    show policy'.plain.copies = policy.plain.copies by rw [plain]
  exact ⟨h.wellFormed, hindex ▸ h.tracks, hpending.trans h.pending, hcopies.trans h.copies⟩

end Policy

namespace Run

variable {rounds : Nat} {r s t : Run Workspace}

/-- The run once it has accounted for the inline before, if there was one. -/
inductive Accounted (r s : Run Workspace) : Prop
  | nothing (settled : r.policy.Settled r.host.program) (plain : s.policy.plain = r.policy.plain)
      (program : s.host.program = r.host.program) : Accounted r s
  | inline {before : Program} {id : SiteId} {call : SiteRecord} {body : FunctionBody}
      {callee : FunctionRecord} {still : Bool}
      (awaits : r.policy.Awaits before r.host.program id call body)
      (callee_eq : r.policy.index.function? call.callee = some callee)
      (entered : callee.frequency ≠ 0)
      (still_iff : still = true ↔ ∃ id' r', r.policy.index.record? id' = some r' ∧
        r'.inlined = false ∧ r'.callee = call.callee)
      (redistributes : r.policy.index.Redistributes s.policy.index call callee.frequency
        (SiteIndex.entriesLeft callee.frequency call.frequency still) r.policy.copies)
      (plain : s.policy.plain =
        { r.policy.plain with pending := none, copies := [], index := s.policy.index })
      (program : s.host.program = r.host.program) : Accounted r s

theorem account_settled (rounds : Nat) (h : r.policy.Settled r.host.program) :
    ∃ s, account (Workspace.host rounds) r.tick = .ok () s ∧ Accounted r s := by
  obtain ⟨host, hhost, heq⟩ := account_apply (Workspace.host rounds) r.tick
  have hpending : r.tick.policy.pending = none := h.pending
  rw [Policy.account_apply, hpending] at heq
  refine ⟨_, heq, .nothing h rfl ?_⟩
  rcases hhost with rfl | ⟨n, rfl⟩ <;> rfl

/-- The callee of the pending inline was never entered, so that it cannot be accounted for. -/
structure Starved (r s : Run Workspace) (f : FunctionId) : Prop where
  awaits : ∃ before id call body, r.policy.Awaits before r.host.program id call body ∧
    call.callee = f
  frequency : ∃ callee, r.policy.index.function? f = some callee ∧ callee.frequency = 0
  plain : s.policy.plain = { r.policy.plain with pending := none, copies := [] }
  host : s.host = r.host

theorem account_awaits (rounds : Nat) {before : Program} {id : SiteId} {call : SiteRecord}
    {body : FunctionBody} (h : r.policy.Awaits before r.host.program id call body) :
    (∃ s, account (Workspace.host rounds) r.tick = .error (.zeroFrequency call.callee) s ∧
      Starved r s call.callee) ∨
    ∃ s, account (Workspace.host rounds) r.tick = .ok () s ∧ Accounted r s := by
  obtain ⟨host, hhost, heq⟩ := account_apply (Workspace.host rounds) r.tick
  have hpending : r.tick.policy.pending = some id := h.pending
  rw [Policy.account_apply, hpending] at heq
  obtain ⟨callee, hcallee⟩ := Option.isSome_iff_exists.mp (SiteIndex.mem_functions_iff.mp h.callee)
  have hcaller := h.tracks.consistent.caller id call h.record
  rcases SiteIndex.redistribute_cases h.tracks hcaller h.inlines h.record h.marked hcallee with
    ⟨hzero, herror⟩ | ⟨hentered, done, ix, still, hok, -, hstill, hredistributes⟩
  · have herror' : SiteIndex.redistribute ((Workspace.host rounds).snapshot r.tick.host) id
        r.tick.policy.copies r.tick.policy.index = _ := herror
    simp only [herror'] at heq
    exact .inl ⟨_, heq, ⟨before, id, call, body, h, rfl⟩, ⟨callee, hcallee, hzero⟩, rfl, rfl⟩
  · have hok' : SiteIndex.redistribute ((Workspace.host rounds).snapshot r.tick.host) id
        r.tick.policy.copies r.tick.policy.index = _ := hok
    simp only [hok'] at heq
    have hindex : ∀ p : Policy, (p.recordRedistribution done).index = p.index := fun p =>
      show (p.recordRedistribution done).plain.index = p.plain.index by
        rw [Policy.plain_recordRedistribution]
    refine .inr ⟨_, heq, .inline h hcallee hentered hstill ?_ ?_ ?_⟩
    · rw [hindex]
      exact hredistributes
    · rw [hindex, Policy.plain_recordRedistribution]
      rfl
    · rcases hhost with rfl | ⟨n, rfl⟩ <;> rfl

/-- Where nothing is pending there is nothing to account for. -/
theorem Accounted.of_settled (h : Accounted r s) (settled : r.policy.Settled r.host.program) :
    s.policy.plain = r.policy.plain ∧ s.host.program = r.host.program := by
  cases h with
  | nothing _ plain program => exact ⟨plain, program⟩
  | inline awaits => exact absurd awaits settled.not_awaits

/-- Accounting for an inline redistributes what its callee had. -/
theorem Accounted.of_awaits {before : Program} {id : SiteId} {call : SiteRecord}
    {body : FunctionBody} (h : Accounted r s)
    (awaits : r.policy.Awaits before r.host.program id call body) : ∃ callee still,
      r.policy.index.function? call.callee = some callee ∧ callee.frequency ≠ 0 ∧
      r.policy.index.Redistributes s.policy.index call callee.frequency
        (SiteIndex.entriesLeft callee.frequency call.frequency still) r.policy.copies := by
  cases h with
  | nothing settled => exact absurd awaits settled.not_awaits
  | inline awaits' callee_eq entered _ redistributes =>
    cases awaits'.pending.symm.trans awaits.pending
    cases awaits'.record.symm.trans awaits.record
    exact ⟨_, _, callee_eq, entered, redistributes⟩

/-- Once the inline before was accounted for, the books are settled. -/
theorem Accounted.settled (h : Accounted r s) : s.policy.Settled s.host.program := by
  cases h with
  | nothing settled plain program =>
    rw [program]
    exact settled.congr plain
  | inline awaits callee_eq _ _ redistributes plain program =>
    rw [program]
    refine ⟨awaits.inlines.wellFormed, ?_, ?_, ?_⟩
    · exact redistributes.tracks awaits.wellFormed awaits.tracks awaits.inlines awaits.record
        awaits.marked
    · exact show s.policy.plain.pending = none by rw [plain]
    · exact show s.policy.plain.copies = [] by rw [plain]

/-- The program stands still while an inline is accounted for, and so does the generation. -/
theorem Accounted.unchanged (h : Accounted r s) : s.host.program = r.host.program ∧
    s.policy.index.generation = r.policy.index.generation := by
  cases h with
  | nothing _ plain program =>
    exact ⟨program, show s.policy.plain.index.generation = _ by rw [plain]; rfl⟩
  | inline _ _ _ _ redistributes _ program => exact ⟨program, redistributes.generation⟩

/-- Accounting between turns fails only for a callee that was never entered. -/
theorem account_cases (rounds : Nat) (h : r.policy.Between r.host.program) :
    (∃ s f, account (Workspace.host rounds) r.tick = .error (.zeroFrequency f) s ∧
      Starved r s f) ∨
    ∃ s, account (Workspace.host rounds) r.tick = .ok () s ∧ Accounted r s := by
  rcases h with h | ⟨before, id, call, body, h⟩
  · exact .inr (account_settled rounds h)
  · rcases account_awaits rounds h with ⟨s, hs⟩ | hs
    · exact .inl ⟨s, call.callee, hs⟩
    · exact .inr hs

theorem Rebuilt.settled (h : Rebuilt rounds s t) (hs : s.policy.Settled s.host.program) :
    t.policy.Settled t.host.program := by
  have wf : t.host.program.WellFormed := h.program ▸ hs.wellFormed.sweep
  refine ⟨wf, (h.describes.tracks wf).1, ?_, ?_⟩
  · exact show t.policy.plain.pending = none by rw [h.plain]; exact hs.pending
  · exact show t.policy.plain.copies = [] by rw [h.plain]; exact hs.copies

/-- **The books are settled whenever the policy selects**: right after accounting, or after the
index was built anew. -/
theorem Selects.cases (h : r.policy.Between r.host.program)
    (hs : Selects (Workspace.host rounds) r s) :
    s.policy.Settled s.host.program ∧ (Accounted r s ∨
      ∃ s₀, Accounted r s₀ ∧ s₀.policy.selection.best = none ∧
        s₀.policy.limits.neverOptimize = false ∧ Rebuilt rounds s₀ s) := by
  have haccounted : ∀ {s₀}, account (Workspace.host rounds) r.tick = .ok () s₀ →
      Accounted r s₀ := by
    intro s₀ hs₀
    rcases account_cases rounds h with ⟨_, _, herror, -⟩ | ⟨_, hok, haccounted⟩
    · rw [hs₀] at herror
      cases herror
    · cases hs₀.symm.trans hok
      exact haccounted
  cases hs with
  | first running accounted =>
    exact ⟨(haccounted accounted).settled, .inl (haccounted accounted)⟩
  | @again s₀ _ running accounted nothing allowed optimized =>
    have hsettled := (haccounted accounted).settled
    have hprogram : (s₀.noted (Workspace.host rounds)).host.program = s₀.host.program :=
      Workspace.program_noteAll _ _
    obtain ⟨t, hok, hrebuilt⟩ := fallBack_rebuilt rounds (hprogram ▸ hsettled.wellFormed)
    cases optimized.symm.trans hok
    have hrebuilt' : Rebuilt rounds s₀ s :=
      ⟨hprogram ▸ hrebuilt.program, hrebuilt.describes, hrebuilt.generation, hrebuilt.plain⟩
    exact ⟨hrebuilt'.settled hsettled,
      .inr ⟨s₀, haccounted accounted, nothing, allowed, hrebuilt'⟩⟩

/-- A turn without a rebuilt index selects right after accounting. -/
theorem Selects.accounted_of_generation (hs : Selects (Workspace.host rounds) r s)
    (between : r.policy.Between r.host.program)
    (same : s.policy.index.generation = r.policy.index.generation) : Accounted r s := by
  rcases (hs.cases between).2 with haccounted | ⟨s₀, haccounted, -, -, hrebuilt⟩
  · exact haccounted
  · have := hrebuilt.generation
    have := haccounted.unchanged.2
    omega

/-! ### The inline -/

/-- The run after the call site chosen in `s` was inlined and reported. -/
structure Inlined (s t : Run Workspace) (id : SiteId) (call : SiteRecord)
    (callee : FunctionRecord) (body : FunctionBody) : Prop where
  best : s.policy.selection.best = some id
  record : s.policy.index.record? id = some call
  eligible : s.policy.selection.check call = none
  callee_eq : s.policy.index.function? call.callee = some callee
  body_eq : s.host.program.calleeAt call.toCallSite = .ok body
  program : t.host.program = s.host.program.splice call.toCallSite body
  plain : t.policy.plain =
    { ((s.policy.charge call.callee callee).take id call callee.size).plain with
      copies := s.host.program.copiedCalls call.toCallSite body }

/-- The call site chosen can be inlined. -/
theorem exists_calleeAt (hs : s.policy.Settled s.host.program) {id : SiteId}
    (hbest : s.policy.selection.best = some id) : ∃ call callee body,
      s.policy.index.record? id = some call ∧ s.policy.selection.check call = none ∧
      s.policy.index.function? call.callee = some callee ∧
      s.host.program.calleeAt call.toCallSite = .ok body ∧
      Policy.adopt id s.policy =
        .ok call ((s.policy.charge call.callee callee).take id call callee.size) := by
  obtain ⟨call, hcall, hcheck, -⟩ := Selection.best_eq_some hs.tracks.consistent hbest
  obtain ⟨callee, hcallee, hlive, -⟩ := Selection.check_eq_none_iff.mp hcheck
  have hcall' : s.policy.index.record? id = some call := hcall
  have hcallee' : s.policy.index.function? call.callee = some callee := hcallee
  obtain ⟨body, hbody⟩ := hs.tracks.exists_calleeAt hs.wellFormed hcall' hlive
  have hcaller := hs.tracks.consistent.caller id call hcall'
  refine ⟨call, callee, body, hcall', hcheck, hcallee', hbody, ?_⟩
  rw [Policy.adopt_apply, hcall']
  simp only [hcallee', hcaller, not_true_eq_false, if_false]

section Inline

variable {id : SiteId} {call : SiteRecord} {callee : FunctionRecord} {body : FunctionBody}

/-- Choosing a call site marks its record and lets its caller grow. -/
theorem Inlined.index (h : Inlined s t id call callee body) : t.policy.index =
    ((s.policy.charge call.callee callee).take id call callee.size).index :=
  show t.policy.plain.index = _ by rw [h.plain]; rfl

theorem Inlined.record? (h : Inlined s t id call callee body) (id' : SiteId) :
    t.policy.index.record? id' = (s.policy.index.record? id').map fun r =>
      if id = id' then { r with inlined := true } else r := by
  rw [h.index]
  exact Policy.record?_take _ _ _ _ _

theorem Inlined.function? (h : Inlined s t id call callee body) (f : FunctionId) :
    t.policy.index.function? f = (s.policy.index.function? f).map fun r =>
      if call.caller = f then { r with size := Word.wrap (r.size + callee.size) } else r := by
  rw [h.index]
  exact Policy.function?_take _ _ _ _ _

theorem Inlined.generation (h : Inlined s t id call callee body) :
    t.policy.index.generation = s.policy.index.generation := by
  rw [h.index]
  rfl

/-- After an inline the books are one inline behind. -/
theorem Inlined.awaits (h : Inlined s t id call callee body)
    (hs : s.policy.Settled s.host.program) :
    t.policy.Awaits s.host.program t.host.program id { call with inlined := true } body := by
  have hinlines := hs.wellFormed.inlines h.body_eq
  have hfunctions : ∀ f, f ∈ t.policy.index.functions ↔ f ∈ s.policy.index.functions := by
    intro f
    rw [SiteIndex.mem_functions_iff, SiteIndex.mem_functions_iff, h.function?, Option.isSome_map]
  constructor
  case wellFormed => exact hs.wellFormed
  case tracks =>
    rw [h.index]
    refine SiteIndex.Tracks.mark ?_ id
    exact hs.tracks.modifyFunction call.caller fun _ => rfl
  case pending => exact show t.policy.plain.pending = some id by rw [h.plain]; rfl
  case record =>
    rw [h.record?, h.record]
    simp
  case marked => rfl
  case callee =>
    rw [hfunctions]
    exact SiteIndex.mem_functions_iff.mpr (Option.isSome_of_eq_some h.callee_eq)
  case inlines =>
    have hcopies : t.policy.copies = s.host.program.copiedCalls call.toCallSite body :=
      show t.policy.plain.copies = _ by rw [h.plain]
    rw [h.program, hcopies]
    exact hinlines

end Inline

/-! ### Turns -/

/-- The outcomes of a turn. -/
inductive TurnOutcome (rounds : Nat) (r : Run Workspace) :
    EStateM.Result Error (Run Workspace) Bool → Prop
  | idle (finished : r.policy.finished = true) : TurnOutcome rounds r (.ok false r)
  | starved {s : Run Workspace} {f : FunctionId} (running : r.policy.finished = false)
      (starved : Starved r s f) : TurnOutcome rounds r (.error (.zeroFrequency f) s)
  | done {s t : Run Workspace} (selects : Selects (Workspace.host rounds) r s)
      (nothing : s.policy.selection.best = none)
      (plain : t.policy.plain = { s.policy.plain with finished := true })
      (program : t.host.program = s.host.program) : TurnOutcome rounds r (.ok false t)
  | inlined {s t : Run Workspace} {id : SiteId} {call : SiteRecord} {callee : FunctionRecord}
      {body : FunctionBody} (selects : Selects (Workspace.host rounds) r s)
      (inlined : Inlined s t id call callee body) : TurnOutcome rounds r (.ok true t)

/-- A turn at which something is selected inlines it. -/
theorem Selects.exists_inlined (h : r.policy.Between r.host.program)
    (selects : Selects (Workspace.host rounds) r s) {id : SiteId}
    (best : s.policy.selection.best = some id) : ∃ t call callee body,
      r.turn (Workspace.host rounds) Workspace.inline = .ok true t ∧
        Inlined s t id call callee body := by
  have hs := (selects.cases h).1
  obtain ⟨call, callee, body, hcall, hcheck, hcallee, hbody, hadopt⟩ := exists_calleeAt hs best
  obtain ⟨n, hchosen⟩ := adopt_apply (Workspace.host rounds) id (s.noted (Workspace.host rounds))
  have hadopt' : Policy.adopt id (s.noted (Workspace.host rounds)).policy = _ := hadopt
  have hprogram : ((Workspace.host rounds).note n
      (s.noted (Workspace.host rounds)).host).program = s.host.program :=
    Workspace.program_noteAll _ _
  obtain ⟨w, hinline, hw⟩ := Workspace.inline_eq_ok (w := (Workspace.host rounds).note n
    (s.noted (Workspace.host rounds)).host) (hprogram ▸ hbody)
  rw [hprogram] at hinline hw
  have hcopies : ((s.policy.charge call.callee callee).take id call callee.size).copies = [] :=
    hs.copies
  rw [turn_apply, selects.step_eq best, hchosen]
  simp only [hadopt', hinline, Policy.report_apply]
  rw [if_neg (by simp [Policy.take, Policy.record]), hcopies]
  exact ⟨_, call, callee, body, rfl, best, hcall, hcheck, hcallee, hbody, hw, rfl⟩

/-- **Every turn has one of the outcomes.** -/
theorem turn_outcome (rounds : Nat) (h : r.policy.Between r.host.program) :
    TurnOutcome rounds r (r.turn (Workspace.host rounds) Workspace.inline) := by
  have houtcome := step_outcome (Workspace.host rounds) r
  generalize hstep : step (Workspace.host rounds) r = result at houtcome
  cases houtcome with
  | idle finished =>
    rw [turn_apply, hstep]
    exact .idle finished
  | unaccounted running accounted =>
    rcases account_cases rounds h with ⟨s, f, herror, hstarved⟩ | ⟨_, hok, -⟩
    · cases herror.symm.trans accounted
      rw [turn_apply, hstep]
      exact .starved running hstarved
    · rw [hok] at accounted
      cases accounted
  | @stuck s t e selects nothing optimized =>
    have hprogram : (s.noted (Workspace.host rounds)).host.program = s.host.program :=
      Workspace.program_noteAll _ _
    obtain ⟨_, hok, -⟩ := fallBack_rebuilt rounds (hprogram ▸ (selects.cases h).1.wellFormed)
    rw [hok] at optimized
    cases optimized
  | done selects nothing =>
    rw [turn_apply, hstep]
    exact .done selects nothing rfl (Workspace.program_noteAll _ _)
  | refused selects best adopted =>
    obtain ⟨_, _, _, -, -, -, -, hadopt⟩ := exists_calleeAt (selects.cases h).1 best
    rw [hadopt] at adopted
    cases adopted
  | chosen selects best adopted =>
    obtain ⟨t, _, _, _, hturn, hinlined⟩ := selects.exists_inlined h best
    rw [hturn]
    exact .inlined selects hinlined

/-- A turn after which the run goes on selected something and inlined it. -/
theorem exists_inlined_of_turn {r' : Run Workspace} (between : r.policy.Between r.host.program)
    (hturn : r.turn (Workspace.host rounds) Workspace.inline = .ok true r') :
    ∃ s id call callee body, Selects (Workspace.host rounds) r s ∧
      s.policy.Settled s.host.program ∧ Inlined s r' id call callee body := by
  have houtcome := turn_outcome rounds between
  rw [hturn] at houtcome
  cases houtcome with
  | inlined selects inlined => exact ⟨_, _, _, _, _, selects, (selects.cases between).1, inlined⟩

/-- A turn with an inline leads from books of this kind to such books. -/
theorem Between.turn {r' : Run Workspace} (h : r.policy.Between r.host.program)
    (hturn : r.turn (Workspace.host rounds) Workspace.inline = .ok true r') :
    r'.policy.Between r'.host.program := by
  obtain ⟨_, _, _, _, _, -, hsettled, hinlined⟩ := exists_inlined_of_turn h hturn
  exact .inr ⟨_, _, _, _, hinlined.awaits hsettled⟩

/-- The books of a new policy are settled. -/
theorem settled_of_prepare {limits : Limits} {oracle : Oracle} {w w' : Workspace}
    {policy : Policy} (wf : w.program.WellFormed)
    (h : Policy.prepare (Workspace.host rounds) limits oracle w = .ok policy w') :
    policy.Settled w'.program := by
  obtain ⟨hprogram, hpolicy, hdescribes⟩ := Policy.prepare_eq_ok wf h
  rw [hprogram]
  exact ⟨wf, (hdescribes.tracks wf).1, by rw [hpolicy]; rfl, by rw [hpolicy]; rfl⟩

/-- **Books and program stay related** throughout a run. -/
theorem Reached.between {start : Run Workspace} (h : start.policy.Between start.host.program)
    (hr : Reached (Workspace.host rounds) Workspace.inline start r) :
    r.policy.Between r.host.program := by
  induction hr with
  | start => exact h
  | turn _ hturn ih => exact Between.turn ih hturn

theorem Reached.limits {start : Run Workspace}
    (between : start.policy.Between start.host.program)
    (hr : Reached (Workspace.host rounds) Workspace.inline start r) :
    r.policy.limits = start.policy.limits := by
  induction hr with
  | start => rfl
  | @turn r r' hr turn ih =>
    have hbetween := hr.between between
    obtain ⟨s, _, _, _, _, hs, -, hinlined⟩ := exists_inlined_of_turn hbetween turn
    rw [← ih, ← hs.standing.1]
    exact show r'.policy.plain.limits = _ by rw [hinlined.plain]; rfl

/-- A run does not finish while turns inline something. -/
theorem Reached.running {start : Run Workspace}
    (between : start.policy.Between start.host.program)
    (hr : Reached (Workspace.host rounds) Workspace.inline start r)
    (running : start.policy.finished = false) : r.policy.finished = false := by
  cases hr with
  | start => exact running
  | turn hr turn =>
    obtain ⟨s, _, _, _, _, hs, -, hinlined⟩ := exists_inlined_of_turn (hr.between between) turn
    exact show r.policy.plain.finished = false by rw [hinlined.plain]; exact hs.standing.2.2

/-! ### The program of a run -/

section Program

variable {P : Program → Prop} {start : Run Workspace}
  (sweeps : ∀ p, p.WellFormed → P p → P p.sweep.2)
  (inlines : ∀ p site body, p.WellFormed → p.calleeAt site = .ok body → P p →
    P (p.splice site body))
include sweeps

/-- Up to a selection the program is swept at most. -/
theorem Selects.program_invariant (between : r.policy.Between r.host.program)
    (hs : Selects (Workspace.host rounds) r s) (hr : P r.host.program) : P s.host.program := by
  obtain ⟨-, haccounted | ⟨s₀, haccounted, -, -, hrebuilt⟩⟩ := hs.cases between
  · rw [haccounted.unchanged.1]
    exact hr
  · rw [hrebuilt.program, haccounted.unchanged.1]
    exact sweeps _ between.wellFormed hr

include inlines

theorem Reached.program_invariant (between : start.policy.Between start.host.program)
    (hr : Reached (Workspace.host rounds) Workspace.inline start r)
    (hstart : P start.host.program) :
    P r.host.program := by
  induction hr with
  | start => exact hstart
  | turn hr turn ih =>
    have hbetween := hr.between between
    obtain ⟨s, _, _, _, _, hs, hsettled, hinlined⟩ := exists_inlined_of_turn hbetween turn
    rw [hinlined.program]
    exact inlines _ _ _ hsettled.wellFormed hinlined.body_eq
      (hs.program_invariant sweeps hbetween ih)

/-- **What sweeping and inlining keep holds of the program wherever a schedule ends.** -/
theorem drive_program_invariant (between : start.policy.Between start.host.program)
    (hstart : P start.host.program) (cap : Nat) :
    P ((drive (Workspace.host rounds) Workspace.inline cap).after start).host.program := by
  have hends := drive_ends (Workspace.host rounds) Workspace.inline start cap
  rw [Update.after]
  generalize drive (Workspace.host rounds) Workspace.inline cap start = result at hends
  cases hends with
  | capped hr =>
    have hprogram := hr.program_invariant sweeps inlines between hstart
    exact hprogram
  | completed hr last =>
    have hprogram := hr.program_invariant sweeps inlines between hstart
    have houtcome := turn_outcome rounds (hr.between between)
    rw [last] at houtcome
    cases houtcome with
    | idle => exact hprogram
    | done selects _ _ program =>
      rw [program]
      exact selects.program_invariant sweeps (hr.between between) hprogram
  | failed hr failure =>
    have houtcome := turn_outcome rounds (hr.between between)
    rw [failure] at houtcome
    cases houtcome with
    | starved _ starved =>
      rw [starved.host]
      exact hr.program_invariant sweeps inlines between hstart

end Program

end Run

end Inlining
