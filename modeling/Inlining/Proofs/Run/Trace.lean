import Inlining.Proofs.Run.Step

/-!
# Whole runs

A run goes from turn to turn as long as each turn inlines something. `Run.Reached` collects the
states between these turns, which are the states right after an inline and its report, and the
start. A schedule stops in such a state, at the end of a last turn that has nothing more to inline,
or where a turn fails.

## Main definitions

* `Run.Reached` — the states between turns
* `Run.Ends` — the ways in which a schedule ends

## Main results

* `Run.drive_ends` — every schedule ends in one of these ways
* `Run.exists_last_turn` — a schedule that completed has taken a last turn
* `Run.Reached.exists_drive_eq_error` — where a turn fails there is a schedule that ends
-/

namespace Inlining

namespace Run

variable {σ : Type} {h : Host σ} {engine : Engine σ}

/-- The states that turns with an inline lead to. -/
inductive Reached (h : Host σ) (engine : Engine σ) (start : Run σ) : Run σ → Prop
  | start : Reached h engine start start
  | turn {r r' : Run σ} (reached : Reached h engine start r)
      (inlined : r.turn h engine = .ok true r') : Reached h engine start r'

/-- The ways in which a schedule ends. -/
inductive Ends (h : Host σ) (engine : Engine σ) (start : Run σ) :
    EStateM.Result Error (Run σ) Outcome → Prop
  | capped {r : Run σ} {o : Outcome} {n : Note} (reached : Reached h engine start r) :
      Ends h engine start (.ok o { r with host := h.note n r.host })
  | completed {r t : Run σ} {o : Outcome} (reached : Reached h engine start r)
      (last : r.turn h engine = .ok false t) : Ends h engine start (.ok o t)
  | failed {r t : Run σ} {e : Error} (reached : Reached h engine start r)
      (failure : r.turn h engine = .error e t) : Ends h engine start (.error e t)

theorem turn_apply (h : Host σ) (engine : Engine σ) (r : Run σ) : r.turn h engine =
    match step h r with
    | .error e s => .error e s
    | .ok none s => .ok false s
    | .ok (some site) s => match engine site s.host with
      | .error e host => .error e { s with host }
      | .ok copies host => match Policy.report copies s.policy with
        | .error e policy => .error e { policy, host }
        | .ok _ policy => .ok true { policy, host } := by
  cases hstep : step h r with
  | error e s => simp [turn, hstep]
  | ok site s =>
    cases site with
    | none => simp [turn, hstep]
    | some site =>
      cases hengine : engine site s.host with
      | error e host => simp [turn, hstep, hengine]
      | ok copies host =>
        cases hreport : Policy.report copies s.policy <;>
          simp [turn, report, hstep, hengine, hreport]

/-- In a turn without an inline the step returned nothing. -/
theorem step_of_last_turn {r t : Run σ} (last : r.turn h engine = .ok false t) :
    step h r = .ok none t := by
  rw [turn_apply] at last
  split at last
  · cases last
  · rename_i s hstep
    cases last
    exact hstep
  · split at last
    · cases last
    · split at last <;> cases last

/-- In a turn with an inline, the step returned a call site, the engine inlined it and the policy
took the report. -/
theorem exists_report_of_turn {r r' : Run σ} (inlined : r.turn h engine = .ok true r') :
    ∃ site s copies, step h r = .ok (some site) s ∧ engine site s.host = .ok copies r'.host ∧
      Policy.report copies s.policy = .ok () r'.policy := by
  rw [turn_apply] at inlined
  cases hstep : step h r with
  | error e s => simp [hstep] at inlined
  | ok site s =>
    cases site with
    | none => simp [hstep] at inlined
    | some site =>
      simp only [hstep] at inlined
      cases hengine : engine site s.host with
      | error e host => simp [hengine] at inlined
      | ok copies host =>
        simp only [hengine] at inlined
        cases hreport : Policy.report copies s.policy with
        | error e policy => simp [hreport] at inlined
        | ok _ policy =>
          simp only [hreport] at inlined
          cases inlined
          exact ⟨site, s, copies, rfl, hengine, hreport⟩

theorem turns_succ (n : Nat) (o : Outcome) (r : Run σ) : turns h engine (n + 1) o r =
    match r.turn h engine with
    | .error e t => .error e t
    | .ok true t =>
      turns h engine n { o with iterations := o.iterations + 1, inlined := o.inlined + 1 } t
    | .ok false t => .ok { o with iterations := o.iterations + 1, completed := true } t := by
  cases hturn : turn h engine r with
  | error e t => simp [turns, hturn]
  | ok b t => cases b <;> simp [turns, hturn]

theorem drive_apply (h : Host σ) (engine : Engine σ) (cap : Nat) (start : Run σ) :
    ∃ n, drive h engine cap start = match turns h engine cap {} start with
    | .error e t => .error e t
    | .ok o t => .ok o (if o.completed then t else { t with host := h.note n t.host }) := by
  cases hturns : turns h engine cap {} start with
  | error e t => exact ⟨{ level := .warn, text := "" }, by simp [drive, hturns]⟩
  | ok o t =>
    cases hcompleted : o.completed with
    | true =>
      exact ⟨{ level := .warn, text := "" }, by simp [drive, hturns, hcompleted]⟩
    | false => exact ⟨_, by simp [drive, hturns, hcompleted]; rfl⟩

/-- Taking turns leads along the reached states, to a last turn or to a failure. -/
theorem turns_cases {start r : Run σ} (hr : Reached h engine start r) (n : Nat) (o : Outcome)
    (ho : o.completed = false) :
    (∃ o' t, turns h engine n o r = .ok o' t ∧ o'.completed = false ∧ Reached h engine start t) ∨
    (∃ o' r' t, turns h engine n o r = .ok o' t ∧ o'.completed = true ∧
      Reached h engine start r' ∧ r'.turn h engine = .ok false t) ∨
    ∃ e r' t, turns h engine n o r = .error e t ∧ Reached h engine start r' ∧
      r'.turn h engine = .error e t := by
  induction n generalizing r o with
  | zero => exact .inl ⟨o, r, rfl, ho, hr⟩
  | succ n ih =>
    rw [turns_succ]
    cases hturn : turn h engine r with
    | error e t => exact .inr (.inr ⟨e, r, t, rfl, hr, hturn⟩)
    | ok b t =>
      cases b with
      | true => exact ih (hr.turn hturn) _ ho
      | false => exact .inr (.inl ⟨_, r, t, rfl, rfl, hr, hturn⟩)

/-- **Every schedule ends in one of these ways.** -/
theorem drive_ends (h : Host σ) (engine : Engine σ) (start : Run σ) (cap : Nat) :
    Ends h engine start (drive h engine cap start) := by
  obtain ⟨n, heq⟩ := drive_apply h engine cap start
  rw [heq]
  rcases turns_cases (.start : Reached h engine start start) cap {} rfl with
    ⟨o, t, hturns, ho, hr⟩ | ⟨o, r, t, hturns, ho, hr, hturn⟩ | ⟨e, r, t, hturns, hr, hturn⟩
  · rw [hturns]
    simp only [ho, Bool.false_eq_true, if_false]
    exact .capped hr
  · rw [hturns]
    simp only [ho, if_true]
    exact .completed hr hturn
  · rw [hturns]
    exact .failed hr hturn

/-- A schedule that completed has taken a last turn without an inline. -/
theorem exists_last_turn {start t : Run σ} {cap : Nat} {o : Outcome}
    (driven : drive h engine cap start = .ok o t) (completed : o.completed = true) :
    ∃ r, Reached h engine start r ∧ r.turn h engine = .ok false t := by
  obtain ⟨n, heq⟩ := drive_apply h engine cap start
  rw [driven] at heq
  rcases turns_cases (.start : Reached h engine start start) cap {} rfl with
    ⟨o', t', hturns, ho, -⟩ | ⟨o', r, t', hturns, ho, hr, hturn⟩ | ⟨e, r, t', hturns, -⟩
  · rw [hturns] at heq
    cases heq
    rw [completed] at ho
    cases ho
  · simp only [hturns, ho, if_true] at heq
    cases heq
    exact ⟨r, hr, hturn⟩
  · rw [hturns] at heq
    cases heq

/-- A schedule that is long enough gets to every reached state. -/
theorem Reached.exists_turns {start r : Run σ} (hr : Reached h engine start r) :
    ∃ n, ∀ o, ∃ o', ∀ m, turns h engine (n + m) o start = turns h engine m o' r := by
  induction hr with
  | start => exact ⟨0, fun o => ⟨o, fun m => by rw [Nat.zero_add]⟩⟩
  | turn _ hturn ih =>
    obtain ⟨n, hn⟩ := ih
    refine ⟨n + 1, fun o => ?_⟩
    obtain ⟨o', ho'⟩ := hn o
    refine ⟨{ o' with iterations := o'.iterations + 1, inlined := o'.inlined + 1 }, fun m => ?_⟩
    rw [Nat.add_right_comm, Nat.add_assoc, ho', turns_succ, hturn]

/-- Where a turn fails there is a schedule that ends with this failure. -/
theorem Reached.exists_drive_eq_error {start r t : Run σ} {e : Error}
    (hr : Reached h engine start r) (hturn : r.turn h engine = .error e t) :
    ∃ cap, drive h engine cap start = .error e t := by
  obtain ⟨n, hn⟩ := hr.exists_turns
  obtain ⟨o, ho⟩ := hn {}
  obtain ⟨_, heq⟩ := drive_apply h engine (n + 1) start
  refine ⟨n + 1, ?_⟩
  rw [heq, ho, turns_succ, hturn]

end Run

end Inlining
