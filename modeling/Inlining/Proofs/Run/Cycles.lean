import Inlining.Proofs.Program.CallPaths
import Inlining.Proofs.Program.Edits
import Inlining.Proofs.Run.Simulation

/-!
# Cycles of calls in a run

The index says which functions are recursive, and it may be older than the program. It errs on one
side only. Inlining makes no new paths of calls, and sweeping makes none either; so a function off
all cycles stays off them until the index is built anew, and then it is looked at again.

The limit on recursive callees rests on this: no inline of a callee that calls itself escapes it.

## Main definitions

* `SiteIndex.Guards` — what the index takes for non-recursive is not recursive
* `Run.Shows` — index and program at the moments of a schedule

## Main results

* `Run.Reached.flagsCycles`, `Run.Shows.guards` — the flags in the index are safe throughout
* `Run.no_path_appears` — inlining makes no paths, and a run no cycles that the index misses
-/

namespace Inlining

open Relation

namespace SiteIndex

variable {ix ix' : SiteIndex} {p q : Program}

/-- The flags stay safe as long as they stay what they are and no paths are added. -/
theorem FlagsCycles.congr (h : ix.FlagsCycles p)
    (flags : ∀ f, (ix'.function? f).map FunctionRecord.recursive =
      (ix.function? f).map FunctionRecord.recursive)
    (calls : ∀ f g, q.Calls f g → TransGen p.Calls f g) : ix'.FlagsCycles q := by
  intro f record hf hflag hcycle
  have hold := flags f
  rw [hf, Option.map_some] at hold
  obtain ⟨old, hold, heq⟩ := Option.map_eq_some_iff.mp hold.symm
  exact h f old hold (heq.trans hflag) (TransGen.closed calls _ _ hcycle)

theorem Redistributes.flags {call : SiteRecord} {old new : Nat} {report : List CopiedCall}
    (h : ix.Redistributes ix' call old new report) (f : FunctionId) :
    (ix'.function? f).map FunctionRecord.recursive =
      (ix.function? f).map FunctionRecord.recursive := by
  have hflags := congrArg (Option.map FunctionRecord.recursive) (h.figures f)
  rw [Option.map_map, Option.map_map] at hflags
  refine hflags.trans (congrFun (congrArg _ (funext fun r => ?_)) _)
  simp only [Function.comp_apply]
  split <;> rfl

/-- The program is well-formed, and what the index takes for non-recursive lies on no cycle of it.
-/
structure Guards (ix : SiteIndex) (p : Program) : Prop where
  wellFormed : p.WellFormed
  flags : ix.FlagsCycles p

theorem Guards.isRecursive_eq_false (h : ix.Guards p) {f : FunctionId} {record : FunctionRecord}
    (hf : ix.function? f = some record) (hflag : record.recursive = false) :
    (CallGraph.ofSnapshot p.snapshot).isRecursive f = false := by
  rw [← Bool.not_eq_true, h.wellFormed.isRecursive_snapshot]
  exact h.flags f record hf hflag

end SiteIndex

/-- Choosing a call site lets its caller grow and changes no flags. -/
theorem Policy.flags_take (p : Policy) (id : SiteId) (r : SiteRecord) (size : Nat)
    (f : FunctionId) : ((p.take id r size).index.function? f).map FunctionRecord.recursive =
      (p.index.function? f).map FunctionRecord.recursive := by
  rw [function?_take, Option.map_map]
  refine congrFun (congrArg _ (funext fun r => ?_)) _
  simp only [Function.comp_apply]
  split <;> rfl

namespace Run

variable {rounds : Nat} {start r s t : Run Workspace} {id : SiteId} {call : SiteRecord}
  {callee : FunctionRecord} {body : FunctionBody}

/-! ### From turn to turn -/

theorem Accounted.flagsCycles (h : Accounted r s)
    (flags : r.policy.index.FlagsCycles r.host.program) :
    s.policy.index.FlagsCycles s.host.program := by
  cases h with
  | nothing _ plain program =>
    have hindex : s.policy.index = r.policy.index :=
      show s.policy.plain.index = r.policy.plain.index by rw [plain]
    rw [hindex, program]
    exact flags
  | inline _ _ _ _ redistributes _ program =>
    rw [program]
    exact flags.congr redistributes.flags fun _ _ => .single

/-- The flags are safe at a selection if they were before it. -/
theorem Selects.flagsCycles (between : r.policy.Between r.host.program)
    (hs : Selects (Workspace.host rounds) r s)
    (flags : r.policy.index.FlagsCycles r.host.program) :
    s.policy.index.FlagsCycles s.host.program := by
  obtain ⟨hsettled, haccounted | ⟨s₀, -, -, -, hrebuilt⟩⟩ := hs.cases between
  · exact haccounted.flagsCycles flags
  · exact hrebuilt.describes.flagsCycles hsettled.wellFormed

theorem Inlined.calls (h : Inlined s t id call callee body)
    (settled : s.policy.Settled s.host.program) :
    s.host.program.Calls call.caller call.callee :=
  settled.wellFormed.calls_site h.body_eq

theorem Inlined.transGen_calls (h : Inlined s t id call callee body)
    (settled : s.policy.Settled s.host.program) (f g : FunctionId)
    (hcalls : t.host.program.Calls f g) : TransGen s.host.program.Calls f g := by
  have hinlines := settled.wellFormed.inlines h.body_eq
  rw [← h.program] at hinlines
  exact hinlines.transGen_calls settled.wellFormed (h.calls settled) hcalls

theorem Inlined.flagsCycles (h : Inlined s t id call callee body)
    (settled : s.policy.Settled s.host.program)
    (flags : s.policy.index.FlagsCycles s.host.program) :
    t.policy.index.FlagsCycles t.host.program := by
  refine flags.congr (fun f => ?_) (h.transGen_calls settled)
  rw [h.index]
  exact Policy.flags_take _ _ _ _ _

/-- **The flags in the index are safe throughout a run.** -/
theorem Reached.flagsCycles (between : start.policy.Between start.host.program)
    (flags : start.policy.index.FlagsCycles start.host.program)
    (hr : Reached (Workspace.host rounds) Workspace.inline start r) :
    r.policy.index.FlagsCycles r.host.program := by
  induction hr with
  | start => exact flags
  | turn hr turn ih =>
    have hbetween := hr.between between
    obtain ⟨s, _, _, _, _, hs, hsettled, hinlined⟩ := exists_inlined_of_turn hbetween turn
    exact hinlined.flagsCycles hsettled (hs.flagsCycles hbetween ih)

/-! ### At every moment -/

/-- An index and a program as they are together at some moment of a schedule. -/
inductive Shows (rounds : Nat) (start : Run Workspace) : SiteIndex → Program → Prop
  | start : Shows rounds start start.policy.index start.host.program
  | selecting {r s : Run Workspace}
      (reached : Reached (Workspace.host rounds) Workspace.inline start r)
      (selects : Selects (Workspace.host rounds) r s) :
      Shows rounds start s.policy.index s.host.program
  | swept {r s : Run Workspace}
      (reached : Reached (Workspace.host rounds) Workspace.inline start r)
      (running : r.policy.finished = false)
      (accounted : account (Workspace.host rounds) r.tick = .ok () s)
      (nothing : s.policy.selection.best = none)
      (allowed : s.policy.limits.neverOptimize = false) :
      Shows rounds start s.policy.index s.host.program.sweep.2
  | chosen {r s : Run Workspace} {site : CallSite}
      (reached : Reached (Workspace.host rounds) Workspace.inline start r)
      (chosen : step (Workspace.host rounds) r = .ok (some site) s) :
      Shows rounds start s.policy.index s.host.program
  | inlined {r s : Run Workspace} {site : CallSite}
      (reached : Reached (Workspace.host rounds) Workspace.inline start r)
      (chosen : step (Workspace.host rounds) r = .ok (some site) s) :
      Shows rounds start s.policy.index ((Workspace.inline site).after s.host).program
  | turned {r t : Run Workspace}
      (reached : Reached (Workspace.host rounds) Workspace.inline start r)
      (turned : t = (turn (Workspace.host rounds) Workspace.inline).after r) :
      Shows rounds start t.policy.index t.host.program
  | ended {t : Run Workspace} (cap : Nat)
      (ended : t = (drive (Workspace.host rounds) Workspace.inline cap).after start) :
      Shows rounds start t.policy.index t.host.program

section Moments

variable {site : CallSite} (between : r.policy.Between r.host.program)
  (flags : r.policy.index.FlagsCycles r.host.program)
include between flags

theorem Selects.guards (selects : Selects (Workspace.host rounds) r s) :
    s.policy.index.Guards s.host.program :=
  ⟨(selects.cases between).1.wellFormed, selects.flagsCycles between flags⟩

/-- The flags are safe once a call site was chosen and before it is inlined. -/
theorem guards_of_step (chosen : step (Workspace.host rounds) r = .ok (some site) s) :
    s.policy.index.Guards s.host.program := by
  have outcome := step_outcome (Workspace.host rounds) r
  rw [chosen] at outcome
  cases outcome with
  | @chosen s _ _ _ n selects _ adopted =>
    obtain ⟨_, -, -, rfl⟩ := Policy.adopt_eq_ok adopted
    have hprogram : ((Workspace.host rounds).note n
        (s.noted (Workspace.host rounds)).host).program = s.host.program :=
      Workspace.program_noteAll _ _
    rw [hprogram]
    obtain ⟨wf, hflags⟩ := selects.guards between flags
    exact ⟨wf, hflags.congr (Policy.flags_take _ _ _ _) fun _ _ => .single⟩

/-- The flags are safe after a turn, also after one that fails. -/
theorem guards_after_turn (rounds : Nat) :
    ((turn (Workspace.host rounds) Workspace.inline).after r).policy.index.Guards
      ((turn (Workspace.host rounds) Workspace.inline).after r).host.program := by
  have outcome := turn_outcome rounds between
  rw [Update.after]
  generalize turn (Workspace.host rounds) Workspace.inline r = result at outcome ⊢
  cases outcome with
  | idle => exact ⟨between.wellFormed, flags⟩
  | @starved s _ _ starved =>
    have hindex : s.policy.index = r.policy.index :=
      show s.policy.plain.index = r.policy.plain.index by rw [starved.plain]
    simp only [hindex, starved.host]
    exact ⟨between.wellFormed, flags⟩
  | @done s t selects _ plain program =>
    have hindex : t.policy.index = s.policy.index :=
      show t.policy.plain.index = s.policy.plain.index by rw [plain]
    simp only [hindex, program]
    exact selects.guards between flags
  | inlined selects inlined =>
    have hsettled := (selects.cases between).1
    exact ⟨(inlined.awaits hsettled).inlines.wellFormed,
      inlined.flagsCycles hsettled (selects.flagsCycles between flags)⟩

omit flags in
/-- A turn that chooses a call site ends with the index of that choice and the program that the
engine makes. -/
theorem turn_of_step (chosen : step (Workspace.host rounds) r = .ok (some site) s) :
    ∃ t, r.turn (Workspace.host rounds) Workspace.inline = .ok true t ∧
      t.policy.index = s.policy.index ∧ t.host = (Workspace.inline site).after s.host := by
  obtain ⟨_, _, _, selects, best, -⟩ := exists_adopt_of_step chosen
  obtain ⟨t, _, _, _, hturn, -⟩ := selects.exists_inlined between best
  refine ⟨t, hturn, ?_⟩
  simp only [turn_apply, chosen] at hturn
  rw [Update.after]
  cases hinline : Workspace.inline site s.host with
  | error e w => simp [hinline] at hturn
  | ok copies w =>
    simp only [hinline, Policy.report_apply] at hturn
    split at hturn
    · cases hturn
    · rename_i hreport
      split at hreport <;> cases hreport
      cases hturn
      exact ⟨rfl, rfl⟩

end Moments

/-- **The flags in the index are safe at every moment of a schedule.** -/
theorem Shows.guards {ix : SiteIndex} {p : Program} (h : Shows rounds start ix p)
    (between : start.policy.Between start.host.program)
    (flags : start.policy.index.FlagsCycles start.host.program) : ix.Guards p := by
  have hreached : ∀ {r}, Reached (Workspace.host rounds) Workspace.inline start r →
      r.policy.Between r.host.program ∧ r.policy.index.FlagsCycles r.host.program :=
    fun hr => ⟨hr.between between, hr.flagsCycles between flags⟩
  cases h with
  | start => exact ⟨between.wellFormed, flags⟩
  | selecting reached selects =>
    obtain ⟨hbetween, hflags⟩ := hreached reached
    exact selects.guards hbetween hflags
  | swept reached running accounted =>
    obtain ⟨hbetween, hflags⟩ := hreached reached
    obtain ⟨wf, hflags⟩ := Selects.guards hbetween hflags (.first running accounted)
    exact ⟨wf.sweep, hflags.congr (fun _ => rfl) fun f g hcalls =>
      .single (wf.trims_sweep.calls f g hcalls)⟩
  | chosen reached chosen =>
    obtain ⟨hbetween, hflags⟩ := hreached reached
    exact guards_of_step hbetween hflags chosen
  | inlined reached chosen =>
    obtain ⟨t, hturn, hindex, hhost⟩ := turn_of_step (hreached reached).1 chosen
    obtain ⟨hbetween, hflags⟩ := hreached (reached.turn hturn)
    rw [← hindex, ← hhost]
    exact ⟨hbetween.wellFormed, hflags⟩
  | turned reached turned =>
    obtain ⟨hbetween, hflags⟩ := hreached reached
    exact turned ▸ guards_after_turn hbetween hflags rounds
  | ended cap ended =>
    have hends := drive_ends (Workspace.host rounds) Workspace.inline start cap
    rw [ended, Update.after]
    generalize drive (Workspace.host rounds) Workspace.inline cap start = result at hends
    cases hends with
    | capped reached =>
      obtain ⟨hbetween, hflags⟩ := hreached reached
      exact ⟨hbetween.wellFormed, hflags⟩
    | completed reached last =>
      obtain ⟨hbetween, hflags⟩ := hreached reached
      have hafter := guards_after_turn hbetween hflags rounds
      rw [Update.after, last] at hafter
      exact hafter
    | failed reached failure =>
      obtain ⟨hbetween, hflags⟩ := hreached reached
      have hafter := guards_after_turn hbetween hflags rounds
      rw [Update.after, failure] at hafter
      exact hafter

/-! ### Paths and flags -/

/-- **No path appears, and no cycle that the index misses.** Where a call is inlined, every path of
calls between functions was there before, and all paths are still there but some to the callee; a
function that was not recursive does not become so. In a run from a program on which any edits were
made, a function that the index takes for non-recursive is not recursive in the program, at any
moment. -/
theorem no_path_appears {w : Workspace} (edited : w.program.Edited) :
    (∀ site copies q, Program.inline site w.program = .ok copies q →
      (∀ f g, TransGen q.snapshot.Calls f g → TransGen w.program.snapshot.Calls f g) ∧
      (∀ f g, g ≠ site.callee → TransGen w.program.snapshot.Calls f g →
        TransGen q.snapshot.Calls f g) ∧
      ∀ f, (CallGraph.ofSnapshot w.program.snapshot).isRecursive f = false →
        (CallGraph.ofSnapshot q.snapshot).isRecursive f = false) ∧
    ∀ rounds limits oracle policy w',
      Policy.prepare (Workspace.host rounds) limits oracle w = .ok policy w' →
      ∀ ix p, Shows rounds ⟨policy, w'⟩ ix p →
        ∀ f record, ix.function? f = some record → record.recursive = false →
          (CallGraph.ofSnapshot p.snapshot).isRecursive f = false := by
  have wf := edited.wellFormed
  refine ⟨fun site copies q hinline => ?_, fun rounds limits oracle policy w' hprepare => ?_⟩
  · rw [Program.inline_apply] at hinline
    cases hbody : w.program.calleeAt site with
    | error e => simp [hbody] at hinline
    | ok body =>
      rw [hbody] at hinline
      cases hinline
      have hmem : ∀ g, g ∈ (w.program.splice site body).snapshot.functions ↔
          g ∈ w.program.snapshot.functions := fun g => Program.mem_functions_splice wf hbody
      simp only [wf.transGen_calls_snapshot, wf.splice.transGen_calls_snapshot, hmem]
      refine ⟨fun f g => ?_, fun f g hg => ?_, fun f hflat => ?_⟩
      · exact And.imp_left (wf.transGen_of_splice hbody)
      · exact And.imp_left (wf.transGen_splice hbody hg).mpr
      · rw [← Bool.not_eq_true, wf.isRecursive_snapshot] at hflat
        rw [← Bool.not_eq_true, wf.splice.isRecursive_snapshot]
        exact fun hcycle => hflat (wf.transGen_of_splice hbody hcycle)
  · obtain ⟨hprogram, -, hdescribes⟩ := Policy.prepare_eq_ok wf hprepare
    have hflags : policy.index.FlagsCycles w'.program := hprogram ▸ hdescribes.flagsCycles wf
    intro ix p shows f record hf hflag
    have hguards := shows.guards (.inl (settled_of_prepare wf hprepare)) hflags
    exact hguards.isRecursive_eq_false hf hflag

end Run

/-- A main function that calls into a cycle of two functions. -/
def Program.pendulum : Program :=
  assemble ["main", "even", "odd"]
    [(0, .call ⟨1⟩), (1, .call ⟨2⟩), (2, .callClosure ⟨1⟩)] [(0, 100)]

namespace Run

/-- One turn inlines a call of the cycle. -/
theorem exists_turn_pendulum : ∃ policy w' r record,
    Policy.prepare (Workspace.host 4) .sixfold (Program.pendulum.profile 4).oracle
      { program := Program.pendulum } = .ok policy w' ∧
    Run.turn (Workspace.host 4) Workspace.inline ⟨policy, w'⟩ = .ok true r ∧
    r.policy.index.function? ⟨0⟩ = some record ∧ record.recursive = false := by
  have hrun : (match Policy.prepare (Workspace.host 4) .sixfold (Program.pendulum.profile 4).oracle
      { program := Program.pendulum } with
    | .error _ _ => false
    | .ok policy w' => match Run.turn (Workspace.host 4) Workspace.inline ⟨policy, w'⟩ with
      | .error _ _ | .ok false _ => false
      | .ok true r => decide
          ((r.policy.index.function? ⟨0⟩).map FunctionRecord.recursive = some false)) = true := by
    decide +kernel
  split at hrun
  · cases hrun
  · rename_i policy w' hprepare
    split at hrun
    · cases hrun
    · cases hrun
    · rename_i r hturn
      obtain ⟨record, hrecord⟩ := Option.map_eq_some_iff.mp (of_decide_eq_true hrun)
      exact ⟨policy, w', r, record, hprepare, hturn, hrecord⟩

/-- The call of the main function is inlined: it still reaches the cycle and is not part of it. Nor
is it in a run, by the index of the start. -/
theorem no_path_appears_pendulum : Program.pendulum.Edited ∧
    (∃ copies q, Program.inline ⟨⟨⟨0⟩, ⟨0⟩, 0⟩, ⟨0⟩, ⟨1⟩⟩ Program.pendulum = .ok copies q ∧
      TransGen Program.pendulum.snapshot.Calls ⟨0⟩ ⟨2⟩ ∧ TransGen q.snapshot.Calls ⟨0⟩ ⟨2⟩ ∧
      (CallGraph.ofSnapshot Program.pendulum.snapshot).isRecursive ⟨0⟩ = false ∧
      (CallGraph.ofSnapshot q.snapshot).isRecursive ⟨0⟩ = false) ∧
    ∃ policy w', ∃ r : Run Workspace, ∃ record : FunctionRecord,
      Policy.prepare (Workspace.host 4) .sixfold (Program.pendulum.profile 4).oracle
        { program := Program.pendulum } = .ok policy w' ∧
      Shows 4 ⟨policy, w'⟩ r.policy.index r.host.program ∧
      r.policy.index.function? ⟨0⟩ = some record ∧ record.recursive = false ∧
      (CallGraph.ofSnapshot r.host.program.snapshot).isRecursive ⟨0⟩ = false := by
  have edited : Program.pendulum.Edited := (Program.built_assemble _ _ _).edited
  obtain ⟨hpaths, hflags⟩ := no_path_appears (w := { program := Program.pendulum }) edited
  refine ⟨edited, ?_, ?_⟩
  · have hpath : TransGen Program.pendulum.snapshot.Calls ⟨0⟩ ⟨2⟩ := by
      have hmain : Program.pendulum.snapshot.Calls ⟨0⟩ ⟨1⟩ :=
        ⟨by decide, by decide, ⟨⟨0⟩, ⟨0⟩, 0⟩, by decide⟩
      have heven : Program.pendulum.snapshot.Calls ⟨1⟩ ⟨2⟩ :=
        ⟨by decide, by decide, ⟨⟨1⟩, ⟨1⟩, 0⟩, by decide⟩
      exact .tail (.single hmain) heven
    have hflat : (CallGraph.ofSnapshot Program.pendulum.snapshot).isRecursive ⟨0⟩ = false := by
      decide +kernel
    have hok : (Program.inline ⟨⟨⟨0⟩, ⟨0⟩, 0⟩, ⟨0⟩, ⟨1⟩⟩).outcome Program.pendulum =
        .ok [⟨⟨⟨1⟩, ⟨1⟩, 0⟩, ⟨⟨0⟩, ⟨3⟩, 0⟩⟩] := by
      decide +kernel
    rw [Update.outcome] at hok
    split at hok
    · rename_i copies q hinline
      obtain ⟨-, hstay, hrecursive⟩ := hpaths _ copies q hinline
      exact ⟨copies, q, hinline, hpath, hstay _ _ (by decide) hpath, hflat, hrecursive _ hflat⟩
    · cases hok
  · obtain ⟨policy, w', r, record, hprepare, hturn, hrecord, hflag⟩ := exists_turn_pendulum
    have hshows : Shows 4 ⟨policy, w'⟩ r.policy.index r.host.program :=
      .turned .start (by rw [Update.after, hturn])
    exact ⟨policy, w', r, record, hprepare, hshows, hrecord, hflag,
      hflags 4 _ _ policy w' hprepare _ _ hshows _ record hrecord hflag⟩

end Run

end Inlining
