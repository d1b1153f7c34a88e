import Inlining.Proofs.Run.Simulation

/-!
# How much code a run adds

The policy takes the size of a callee off the budget and adds it to its own idea of the program's
size, and from then on relies on both. Since its sizes are the real ones, so is that idea, and what
is left of the budget together with the size of the program never exceeds what they were at the
start. An inline keeps the sum, and a sweep, which only takes code away, can lower it if the budget
is cut to a word. The sizes of functions wrap around at the end of a word, so that all this holds as
long as the program fits one.

## Main definitions

* `Policy.Solvent` — budget and size against what they were at the start
* `Run.Balanced` — the books agree with the program, which has not outgrown its budget

## Main results

* `Run.balanced_throughout` — the books balance at every point of every run
-/

namespace Inlining

/-- The sizes in the books are those of the program. The budget is a natural number that fits a
word, and together with the size of the program it is within the limit. -/
structure Policy.Solvent (policy : Policy) (p : Program) (limit : Nat) : Prop where
  sized : policy.index.Sized p
  size : policy.size = p.size
  nonneg : 0 ≤ policy.budget
  le : policy.budget ≤ Word.greatest
  within : policy.budget + p.size ≤ limit

namespace Policy.Solvent

variable {policy policy' : Policy} {p : Program} {limit : Nat}

theorem congr (h : policy.Solvent p limit) (sized : policy'.index.Sized p)
    (size : policy'.plain.size = policy.plain.size)
    (budget : policy'.plain.budget = policy.plain.budget) : policy'.Solvent p limit := by
  have hbudget : policy'.budget = policy.budget := budget
  refine ⟨sized, size.trans h.size, ?_, ?_, ?_⟩
  · rw [hbudget]
    exact h.nonneg
  · rw [hbudget]
    exact h.le
  · rw [hbudget]
    exact h.within

/-- What a smaller program saves goes to the budget. -/
theorem remeasure (h : policy.Solvent p limit) {q : Program} (hq : q.size ≤ p.size)
    (sized : policy'.index.Sized q) (size : policy'.size = q.size)
    (budget : policy'.budget = Word.clamp (policy.budget - ((q.size : Int) - policy.size))) :
    policy'.Solvent q limit := by
  obtain ⟨-, hsize, hnonneg, hle, hwithin⟩ := h
  simp only [hsize, Word.clamp, Word.greatest, Word.least] at budget
  rw [Word.greatest] at hle
  refine ⟨sized, size, ?_, ?_, ?_⟩
  · omega
  · rw [Word.greatest]
    omega
  · omega

/-- What an inline adds is taken off the budget. -/
theorem charge (h : policy.Solvent p limit) {f : FunctionId} {callee : FunctionRecord}
    (affordable : (callee.size : Int) ≤ policy.budget) {q : Program}
    (hq : q.size = p.size + callee.size) (fits : q.size ≤ Word.greatestUnsigned)
    (sized : policy'.index.Sized q) (size : policy'.size = (policy.charge f callee).size)
    (budget : policy'.budget = (policy.charge f callee).budget) : policy'.Solvent q limit := by
  obtain ⟨-, hsize, hnonneg, hle, hwithin⟩ := h
  have hword : min (callee.size : Int) Word.greatest = callee.size := by omega
  have hclamp : Word.clamp (policy.budget - callee.size) = policy.budget - callee.size := by
    rw [Word.greatest] at hle
    refine Word.clamp_eq_self ?_ ?_
    · rw [Word.least]
      omega
    · rw [Word.greatest]
      omega
  have hbudget : policy'.budget = policy.budget - callee.size := by
    rw [budget, Policy.charge, hword, hclamp]
  refine ⟨sized, ?_, ?_, ?_, ?_⟩
  · rw [size]
    change min Word.greatestUnsigned (policy.size + callee.size) = q.size
    omega
  · omega
  · omega
  · omega

theorem start (limits : Limits) {p : Program} {index : SiteIndex} (sized : index.Sized p) :
    (Policy.start limits p.size index).Solvent p (p.size + limits.budget p.size) := by
  have hgreatest : (0 : Int) ≤ Word.greatest := by decide
  have hbudget : (Policy.start limits p.size index).budget =
      min (limits.budget p.size : Int) Word.greatest := rfl
  refine ⟨sized, rfl, ?_, ?_, ?_⟩
  · omega
  · omega
  · push_cast
    omega

end Policy.Solvent

namespace Run

variable {rounds limit : Nat} {r s t start : Run Workspace}

/-! ### Along a run -/

theorem Accounted.solvent (h : Accounted r s) (hr : r.policy.Solvent r.host.program limit) :
    s.policy.Solvent s.host.program limit := by
  cases h with
  | nothing settled plain program =>
    rw [program]
    have hindex : s.policy.index = r.policy.index :=
      show s.policy.plain.index = r.policy.plain.index by rw [plain]
    exact hr.congr (hindex ▸ hr.sized) (by rw [plain]) (by rw [plain])
  | inline _ _ _ _ redistributes plain program =>
    rw [program]
    exact hr.congr (redistributes.sized hr.sized) (by rw [plain]) (by rw [plain])

theorem Rebuilt.solvent (h : Rebuilt rounds s t) (hs : s.policy.Solvent s.host.program limit)
    (wf : t.host.program.WellFormed) : t.policy.Solvent t.host.program limit := by
  refine hs.remeasure ?_ (h.describes.tracks wf).2 (show t.policy.plain.size = _ by rw [h.plain])
    (show t.policy.plain.budget = _ by rw [h.plain])
  rw [h.program]
  exact s.host.program.size_sweep_le

theorem Selects.solvent (hs : Selects (Workspace.host rounds) r s)
    (between : r.policy.Between r.host.program) (hr : r.policy.Solvent r.host.program limit) :
    s.policy.Solvent s.host.program limit := by
  obtain ⟨hsettled, haccounted | ⟨s₀, haccounted, -, -, hrebuilt⟩⟩ := hs.cases between
  · exact haccounted.solvent hr
  · exact hrebuilt.solvent (haccounted.solvent hr) hsettled.wellFormed

section Inlined

variable {id : SiteId} {call : SiteRecord} {callee : FunctionRecord} {body : FunctionBody}

/-- The index predicts the size of the body that was copied. -/
theorem Inlined.size_eq (h : Inlined s t id call callee body)
    (sized : s.policy.index.Sized s.host.program) : callee.size = body.size := by
  have hsize := sized _ _ h.callee_eq
  obtain ⟨-, -, hbody⟩ := Program.calleeAt_eq_ok.mp h.body_eq
  rw [Program.snapshot] at hsize
  simp only [hbody, Option.map_some, Option.some.injEq] at hsize
  exact hsize.symm

/-- The program grows by the size that the index has for the callee. -/
theorem Inlined.size_program (h : Inlined s t id call callee body)
    (settled : s.policy.Settled s.host.program) (sized : s.policy.index.Sized s.host.program) :
    t.host.program.size = s.host.program.size + callee.size := by
  rw [h.program, (settled.wellFormed.inlines h.body_eq).size, h.size_eq sized]

/-- No size wraps around, as long as the program fits a word. -/
theorem Inlined.sized (h : Inlined s t id call callee body)
    (settled : s.policy.Settled s.host.program) (sized : s.policy.index.Sized s.host.program)
    (fits : t.host.program.size ≤ Word.greatestUnsigned) :
    t.policy.index.Sized t.host.program := by
  have hinlines := settled.wellFormed.inlines h.body_eq
  intro f record hf
  rw [h.function?] at hf
  obtain ⟨old, hold, rfl⟩ := Option.map_eq_some_iff.mp hf
  have hsize : t.host.program.snapshot.size f =
      some (if f = call.caller then old.size + callee.size else old.size) := by
    rw [h.program, hinlines.functionSize, sized f old hold, Option.map_some, h.size_eq sized]
  by_cases hcaller : call.caller = f
  · rw [if_pos hcaller.symm] at hsize
    have hle : old.size + callee.size ≤ Word.greatestUnsigned :=
      Nat.le_trans (Program.size_le_of_snapshot hsize) fits
    rw [if_pos hcaller, hsize, Word.wrap_eq_self hle]
  · rw [if_neg (Ne.symm hcaller)] at hsize
    rw [if_neg hcaller, hsize]

/-- A call site that is chosen fits the budget. -/
theorem Inlined.affordable (h : Inlined s t id call callee body) :
    (callee.size : Int) ≤ s.policy.budget := by
  obtain ⟨callee', hcallee, -, -, hle, -⟩ := Selection.check_eq_none_iff.mp h.eligible
  cases h.callee_eq.symm.trans hcallee
  exact hle

theorem Inlined.solvent (h : Inlined s t id call callee body)
    (settled : s.policy.Settled s.host.program) (hs : s.policy.Solvent s.host.program limit)
    (fits : t.host.program.size ≤ Word.greatestUnsigned) :
    t.policy.Solvent t.host.program limit :=
  hs.charge (f := call.callee) h.affordable (h.size_program settled hs.sized) fits
    (h.sized settled hs.sized fits) (show t.policy.plain.size = _ by rw [h.plain]; rfl)
    (show t.policy.plain.budget = _ by rw [h.plain]; rfl)

end Inlined

/-- Every reached state is within the limit, if the limit fits a word or at least all sizes do. -/
theorem Reached.solvent (between : start.policy.Between start.host.program)
    (hstart : start.policy.Solvent start.host.program limit)
    (fits : limit ≤ Word.greatestUnsigned ∨
      ∀ r, Reached (Workspace.host rounds) Workspace.inline start r →
        r.host.program.size ≤ Word.greatestUnsigned)
    (hr : Reached (Workspace.host rounds) Workspace.inline start r) :
    r.policy.Solvent r.host.program limit := by
  induction hr with
  | start => exact hstart
  | turn hr hturn ih =>
    have hbetween := hr.between between
    have houtcome := turn_outcome rounds hbetween
    rw [hturn] at houtcome
    cases houtcome with
    | inlined selects inlined =>
      have hsettled := (selects.cases hbetween).1
      have hsolvent := selects.solvent hbetween ih
      refine inlined.solvent hsettled hsolvent ?_
      rcases fits with hlimit | hall
      · have hsize := inlined.size_program hsettled hsolvent.sized
        have hle := inlined.affordable
        have hwithin := hsolvent.within
        omega
      · exact hall _ (hr.turn hturn)

/-! ### The books -/

/-- The books agree with the program, and the program is within the bound. -/
structure Balanced (r : Run Workspace) (bound : Nat) : Prop where
  /-- The policy knows the size of the program. -/
  size : r.policy.size = r.host.program.snapshot.instructionCount
  /-- The index knows the sizes of the functions. -/
  sizes : ∀ f record, r.policy.index.function? f = some record →
    r.host.program.snapshot.size f = some record.size
  budget : 0 ≤ r.policy.budget
  bounded : r.host.program.snapshot.instructionCount ≤ bound

theorem balanced_of_solvent (wf : r.host.program.WellFormed)
    (hr : r.policy.Solvent r.host.program limit) : r.Balanced limit := by
  have hcount := wf.instructionCount_snapshot
  have hwithin := hr.within
  have hnonneg := hr.nonneg
  exact ⟨by rw [hcount, hr.size], hr.sized, hnonneg, by omega⟩

theorem Balanced.congr {bound : Nat} (h : r.Balanced bound)
    (program : t.host.program = r.host.program)
    (index : t.policy.plain.index = r.policy.plain.index)
    (size : t.policy.plain.size = r.policy.plain.size)
    (budget : t.policy.plain.budget = r.policy.plain.budget) : t.Balanced bound := by
  have hindex : t.policy.index = r.policy.index := index
  have hbudget : t.policy.budget = r.policy.budget := budget
  refine ⟨?_, ?_, ?_, ?_⟩
  · rw [program]
    exact size.trans h.size
  · rw [hindex, program]
    exact h.sizes
  · rw [hbudget]
    exact h.budget
  · rw [program]
    exact h.bounded

theorem Reached.balanced (between : start.policy.Between start.host.program)
    (hr : Reached (Workspace.host rounds) Workspace.inline start r)
    (hsolvent : r.policy.Solvent r.host.program limit) : r.Balanced limit :=
  balanced_of_solvent (hr.between between).wellFormed hsolvent

/-- Where a schedule ends the books balance, if they do in all reached states. -/
theorem balanced_drive (between : start.policy.Between start.host.program)
    (hsolvent : ∀ r, Reached (Workspace.host rounds) Workspace.inline start r →
      r.policy.Solvent r.host.program limit) (cap : Nat) :
    ((drive (Workspace.host rounds) Workspace.inline cap).after start).Balanced limit := by
  have hends := drive_ends (Workspace.host rounds) Workspace.inline start cap
  rw [Update.after]
  generalize drive (Workspace.host rounds) Workspace.inline cap start = result at hends
  cases hends with
  | capped hr => exact (hr.balanced between (hsolvent _ hr)).congr rfl rfl rfl rfl
  | completed hr last =>
    have hr' := hr.between between
    have houtcome := turn_outcome rounds hr'
    rw [last] at houtcome
    cases houtcome with
    | idle => exact hr.balanced between (hsolvent _ hr)
    | done selects nothing plain program =>
      have hsettled := (selects.cases hr').1
      have hs := balanced_of_solvent hsettled.wellFormed (selects.solvent hr' (hsolvent _ hr))
      exact hs.congr program (by rw [plain]) (by rw [plain]) (by rw [plain])
  | failed hr failure =>
    have houtcome := turn_outcome rounds (hr.between between)
    rw [failure] at houtcome
    cases houtcome with
    | starved running starved =>
      exact (hr.balanced between (hsolvent _ hr)).congr (by rw [starved.host])
        (by rw [starved.plain]) (by rw [starved.plain]) (by rw [starved.plain])

theorem solvent_of_prepare {limits : Limits} {oracle : Oracle} {w w' : Workspace}
    {policy : Policy} (wf : w.program.WellFormed)
    (prepared : Policy.prepare (Workspace.host rounds) limits oracle w = .ok policy w') :
    policy.Solvent w'.program (w.program.size + limits.budget w.program.size) := by
  obtain ⟨hprogram, hpolicy, hdescribes⟩ := Policy.prepare_eq_ok wf prepared
  rw [hprogram, hpolicy]
  exact .start limits (hdescribes.tracks wf).2

/-- If the program and its budget together fit a word, no size ever gets too large for one. -/
theorem instructionCount_le_of_budget {limits : Limits} {oracle : Oracle} {w w' : Workspace}
    {policy : Policy} (wf : w.program.WellFormed)
    (prepared : Policy.prepare (Workspace.host rounds) limits oracle w = .ok policy w')
    (hlimit : w.program.size + limits.budget w.program.size ≤ Word.greatestUnsigned)
    (hr : Reached (Workspace.host rounds) Workspace.inline ⟨policy, w'⟩ r) :
    r.host.program.snapshot.instructionCount ≤ Word.greatestUnsigned := by
  have hbetween : policy.Between w'.program := .inl (settled_of_prepare wf prepared)
  have hsolvent := hr.solvent hbetween (solvent_of_prepare wf prepared) (.inl hlimit)
  have hnonneg := hsolvent.nonneg
  have hwithin := hsolvent.within
  rw [(hr.between hbetween).wellFormed.instructionCount_snapshot]
  omega

/-- **The books balance at every point of every run**: after each inline and its report, and where
the run ends, also if it ends in an error. -/
theorem balanced_throughout {limits : Limits} {oracle : Oracle} {w w' : Workspace}
    {policy : Policy} (built : w.program.Built)
    (prepared : Policy.prepare (Workspace.host rounds) limits oracle w = .ok policy w')
    (fits : ∀ r, Reached (Workspace.host rounds) Workspace.inline ⟨policy, w'⟩ r →
      r.host.program.snapshot.instructionCount ≤ Word.greatestUnsigned) :
    policy.initialSize = w.program.snapshot.instructionCount ∧
    policy.initialBudget = limits.budget policy.initialSize ∧
    (∀ r, Reached (Workspace.host rounds) Workspace.inline ⟨policy, w'⟩ r →
      r.Balanced (policy.initialSize + policy.initialBudget)) ∧
    ∀ cap, ((drive (Workspace.host rounds) Workspace.inline cap).after ⟨policy, w'⟩).Balanced
      (policy.initialSize + policy.initialBudget) := by
  have wf := built.wellFormed
  obtain ⟨-, hpolicy, -⟩ := Policy.prepare_eq_ok wf prepared
  have hsize : policy.initialSize = w.program.size := by rw [hpolicy]; rfl
  have hbudget : policy.initialBudget = limits.budget w.program.size := by rw [hpolicy]; rfl
  rw [hbudget, hsize]
  have hbetween : policy.Between w'.program := .inl (settled_of_prepare wf prepared)
  have hfits : ∀ r, Reached (Workspace.host rounds) Workspace.inline ⟨policy, w'⟩ r →
      r.host.program.size ≤ Word.greatestUnsigned := by
    intro r hr
    rw [← (hr.between hbetween).wellFormed.instructionCount_snapshot]
    exact fits r hr
  have hsolvent : ∀ r, Reached (Workspace.host rounds) Workspace.inline ⟨policy, w'⟩ r →
      r.policy.Solvent r.host.program (w.program.size + limits.budget w.program.size) :=
    fun r hr => hr.solvent hbetween (solvent_of_prepare wf prepared) (.inr hfits)
  exact ⟨wf.instructionCount_snapshot.symm, rfl, fun r hr => hr.balanced hbetween (hsolvent r hr),
    balanced_drive hbetween hsolvent⟩

/-- The function that calls itself may grow to six instructions and does not grow further. -/
theorem balanced_throughout_echo : ∃ policy w',
    Program.echo.Built ∧
    Policy.prepare (Workspace.host 4) .sixfold (Program.echo.profile 4).oracle
      { program := Program.echo } = .ok policy w' ∧
    (∀ r, Reached (Workspace.host 4) Workspace.inline ⟨policy, w'⟩ r →
      r.host.program.snapshot.instructionCount ≤ Word.greatestUnsigned) ∧
    ∀ cap, ((drive (Workspace.host 4) Workspace.inline cap).after ⟨policy, w'⟩).Balanced 6 := by
  have wf := Program.built_echo.wellFormed
  obtain ⟨policy, w', prepared⟩ := Policy.exists_prepare_eq_ok (w := { program := Program.echo })
    wf 4 4 .sixfold
  have hfits : ∀ r, Reached (Workspace.host 4) Workspace.inline ⟨policy, w'⟩ r →
      r.host.program.snapshot.instructionCount ≤ Word.greatestUnsigned :=
    fun r hr => instructionCount_le_of_budget wf prepared (by decide +kernel) hr
  obtain ⟨hsize, hbudget, -, hends⟩ := balanced_throughout Program.built_echo prepared hfits
  have hsix : policy.initialSize + policy.initialBudget = 6 := by
    rw [hbudget, hsize]
    decide +kernel
  exact ⟨policy, w', Program.built_echo, prepared, hfits, hsix ▸ hends⟩

end Run

end Inlining
