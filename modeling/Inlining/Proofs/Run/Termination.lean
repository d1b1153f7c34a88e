import Inlining.Proofs.Run.Cycles
import Mathlib.Data.Multiset.DershowitzManna

/-!
# Every run ends

Neither the budget nor the number of calls shows that a run ends. A callee without instructions
costs nothing, a callee with many calls brings more of them than it takes, and the optimizer gives
back what it saves. Two other quantities do. For every function there is a limit on how often it may
be inlined as a recursive one, and these counts outlive the index; what is left of all these limits,
the *quota*, drops with every inline of a recursive callee. An inline of any other callee replaces
one call by calls of lower rank, since the callee lies on no cycle of calls: among the ranks of all
calls of the program, the *load*, one gives way to finitely many smaller ones. That can go on only
finitely often before the quota has to drop.

The index says which callees are recursive, and it may be older than the program. It errs on one
side only, because inlining makes no new cycles.

## Main definitions

* `Program.load`, `Run.quota` — the two quantities
* `Run.Nearer` — the order in which they count

## Main results

* `Run.turn_nearer` — every inline brings the run closer to its end
* `Run.ends_by_itself` — every run ends
-/

namespace Inlining

/-- Replacing members of a multiset by members below one of them, and lowering the others. -/
theorem isDershowitzMannaLT_of_replace {α : Type} {m n : α → Nat} {kept gone new : Multiset α}
    {a : α} (ha : a ∈ gone) (hle : ∀ x, m x ≤ n x) (hnew : ∀ x ∈ new, m x < n a) :
    Multiset.IsDershowitzMannaLT ((kept + new).map m) ((kept + gone).map n) := by
  classical
  -- The members of `kept` are split into those that stay as they are and those that are lowered.
  have hsplit := kept.filter_add_not fun x => m x = n x
  refine ⟨(kept.filter fun x => m x = n x).map n,
    (kept.filter fun x => ¬ m x = n x).map m + new.map m,
    (kept.filter fun x => ¬ m x = n x).map n + gone.map n, ?_, ?_, ?_, ?_⟩
  · intro hempty
    have hmem : n a ∈ (kept.filter fun x => ¬ m x = n x).map n + gone.map n :=
      Multiset.mem_add.mpr (.inr (Multiset.mem_map_of_mem n ha))
    rw [hempty] at hmem
    exact Multiset.notMem_zero _ hmem
  · nth_rewrite 1 [← hsplit]
    rw [Multiset.map_add, Multiset.map_add, add_assoc]
    congr 1
    exact Multiset.map_congr rfl fun x hx => (Multiset.mem_filter.mp hx).2
  · nth_rewrite 1 [← hsplit]
    rw [Multiset.map_add, Multiset.map_add, add_assoc]
  · intro y hy
    rcases Multiset.mem_add.mp hy with hy | hy
    · obtain ⟨x, hx, rfl⟩ := Multiset.mem_map.mp hy
      refine ⟨n x, Multiset.mem_add.mpr (.inl (Multiset.mem_map_of_mem n hx)), ?_⟩
      exact Nat.lt_of_le_of_ne (hle x) (Multiset.mem_filter.mp hx).2
    · obtain ⟨x, hx, rfl⟩ := Multiset.mem_map.mp hy
      exact ⟨n a, Multiset.mem_add.mpr (.inr (Multiset.mem_map_of_mem n ha)), hnew x hx⟩

/-- The ranks of the callees of all calls. -/
noncomputable def Program.load (p : Program) : Multiset Nat :=
  Multiset.map p.rank p.allCallees

namespace Run

variable {rounds : Nat} {start r s t : Run Workspace} {id : SiteId} {call : SiteRecord}
  {callee : FunctionRecord} {body : FunctionBody}

/-! ### Quota and load -/

/-- What is left of the limits on recursive callees, over all functions. -/
def quota (r : Run Workspace) : Nat :=
  total ((r.host.program.functions.map FunctionBody.id).map fun f =>
    r.policy.limits.recursiveLimit - r.policy.recursiveInlinesOf f)

/-- The program only got smaller up to a selection. -/
theorem Selects.trims (between : r.policy.Between r.host.program)
    (hs : Selects (Workspace.host rounds) r s) : r.host.program.Trims s.host.program := by
  obtain ⟨-, haccounted | ⟨s₀, haccounted, -, -, hrebuilt⟩⟩ := hs.cases between
  · rw [haccounted.unchanged.1]
    exact .refl _
  · rw [hrebuilt.program, haccounted.unchanged.1]
    exact between.wellFormed.trims_sweep

theorem Selects.quota_le (between : r.policy.Between r.host.program)
    (hs : Selects (Workspace.host rounds) r s) : s.quota ≤ r.quota := by
  obtain ⟨hlimits, hcounts, -⟩ := hs.standing
  have hcount : s.policy.recursiveInlinesOf = r.policy.recursiveInlinesOf := by
    funext f
    rw [Policy.recursiveInlinesOf, Policy.recursiveInlinesOf, hcounts]
  rw [quota, quota, hlimits, hcount]
  exact ((hs.trims between).functions.map _).sum_le_sum fun _ _ => Nat.zero_le _

/-- An inline neither adds nor removes functions. -/
theorem Inlined.functions (h : Inlined s t id call callee body) :
    t.host.program.functions.map FunctionBody.id =
      s.host.program.functions.map FunctionBody.id := by
  rw [h.program, Program.splice_eq]
  simp only [Program.modifyFunction, List.map_map]
  refine List.map_congr_left fun f _ => ?_
  simp only [Function.comp_apply]
  split <;> rfl

theorem Inlined.recursiveInlinesOf (h : Inlined s t id call callee body) (f : FunctionId) :
    t.policy.recursiveInlinesOf f = s.policy.recursiveInlinesOf f +
      if callee.recursive = true ∧ call.callee = f then 1 else 0 := by
  have hcounts : t.policy.recursiveInlines =
      (s.policy.charge call.callee callee).recursiveInlines :=
    show t.policy.plain.recursiveInlines = _ by rw [h.plain]; rfl
  rw [Policy.recursiveInlinesOf, hcounts]
  exact Policy.recursiveInlinesOf_charge _ _ _ _

theorem Inlined.quota_eq (h : Inlined s t id call callee body) : t.quota =
    total ((s.host.program.functions.map FunctionBody.id).map fun f =>
      s.policy.limits.recursiveLimit - t.policy.recursiveInlinesOf f) := by
  have hlimits : t.policy.limits = s.policy.limits :=
    show t.policy.plain.limits = _ by rw [h.plain]; rfl
  rw [quota, h.functions, hlimits]

theorem Inlined.quota_le (h : Inlined s t id call callee body) : t.quota ≤ s.quota := by
  rw [h.quota_eq, quota]
  refine List.sum_le_sum fun f _ => ?_
  rw [h.recursiveInlinesOf]
  omega

/-- The quota drops if the callee is recursive. -/
theorem Inlined.quota_lt (h : Inlined s t id call callee body)
    (settled : s.policy.Settled s.host.program) (recursive : callee.recursive = true) :
    t.quota < s.quota := by
  have hmem : call.callee ∈ s.host.program.functions.map FunctionBody.id := by
    obtain ⟨-, -, hbody⟩ := Program.calleeAt_eq_ok.mp h.body_eq
    obtain ⟨hmem, hid⟩ := settled.wellFormed.function?_eq_some.mp hbody
    exact List.mem_map.mpr ⟨body, hmem, hid⟩
  have hcount : s.policy.recursiveInlinesOf call.callee < s.policy.limits.recursiveLimit := by
    obtain ⟨callee', hcallee', -, -, -, hlimit⟩ := Selection.check_eq_none_iff.mp h.eligible
    cases hcallee'.symm.trans h.callee_eq
    exact (hlimit recursive).1
  rw [h.quota_eq, quota]
  refine List.sum_lt_sum _ _ (fun f _ => ?_) ⟨call.callee, hmem, ?_⟩
  · rw [h.recursiveInlinesOf]
    omega
  · rw [h.recursiveInlinesOf, if_pos ⟨recursive, rfl⟩]
    omega

/-- The load drops if the callee is not recursive. -/
theorem Inlined.load_lt (h : Inlined s t id call callee body)
    (settled : s.policy.Settled s.host.program)
    (flags : s.policy.index.FlagsCycles s.host.program) (recursive : callee.recursive = false)
    (trims : r.host.program.Trims s.host.program) :
    Multiset.IsDershowitzMannaLT t.host.program.load r.host.program.load := by
  obtain ⟨-, hcall, hbody⟩ := Program.calleeAt_eq_ok.mp h.body_eq
  -- The call itself is one of the calls before, and the calls of its callee come in its place.
  have hmem : call.callee ∈ (s.host.program.allCallees : Multiset FunctionId) := by
    obtain ⟨x, hx, hcallee⟩ := Program.calls_iff_function?.mp (h.calls settled)
    exact List.mem_flatMap.mpr ⟨x, List.mem_of_find?_eq_some hx, hcallee⟩
  obtain ⟨kept, hkept⟩ := Multiset.exists_cons_of_mem hmem
  obtain ⟨swept, hswept⟩ := Multiset.le_iff_exists_add.mp
    (Multiset.coe_le.mpr trims.callees.subperm)
  have hafter : (t.host.program.allCallees : Multiset FunctionId) = kept + body.callees := by
    have hperm := settled.wellFormed.allCallees_splice h.body_eq
    rw [← h.program, ← Multiset.coe_eq_coe, ← Multiset.cons_coe, ← Multiset.coe_add, hkept,
      Multiset.add_cons, Multiset.cons_inj_right] at hperm
    rw [hperm, add_comm]
  have hbefore : (r.host.program.allCallees : Multiset FunctionId) =
      kept + (call.callee ::ₘ swept) := by
    rw [hswept, hkept, Multiset.cons_add, Multiset.add_cons]
  have hranks : ∀ f, t.host.program.rank f ≤ s.host.program.rank f :=
    Program.rank_le (h.transGen_calls settled)
  have htrims : ∀ f, s.host.program.rank f ≤ r.host.program.rank f :=
    Program.rank_le fun f g hcalls => .single (trims.calls f g hcalls)
  rw [Program.load, Program.load, hafter, hbefore]
  refine isDershowitzMannaLT_of_replace (Multiset.mem_cons_self _ _)
    (fun f => (hranks f).trans (htrims f)) fun g hg => ?_
  have hcalls : s.host.program.Calls call.callee g :=
    Program.calls_iff_function?.mpr ⟨body, hbody, hg⟩
  calc t.host.program.rank g ≤ s.host.program.rank g := hranks g
    _ < s.host.program.rank call.callee :=
      Program.rank_lt (.single hcalls) fun hback =>
        flags call.callee callee h.callee_eq recursive (.head' hcalls hback)
    _ ≤ r.host.program.rank call.callee := htrims call.callee

/-! ### The end -/

/-- The first run is closer to its end: first the quota counts, then the load. -/
def Nearer (r' r : Run Workspace) : Prop :=
  Prod.Lex (· < ·) Multiset.IsDershowitzMannaLT (r'.quota, r'.host.program.load)
    (r.quota, r.host.program.load)

theorem wellFounded_nearer : WellFounded Nearer :=
  InvImage.wf (fun r : Run Workspace => (r.quota, r.host.program.load))
    (WellFounded.prod_lex Nat.lt_wfRel.wf Multiset.wellFounded_isDershowitzMannaLT)

/-- **Every inline brings the run closer to its end.** -/
theorem turn_nearer {r' : Run Workspace} (between : r.policy.Between r.host.program)
    (flags : r.policy.index.FlagsCycles r.host.program)
    (hturn : r.turn (Workspace.host rounds) Workspace.inline = .ok true r') : r'.Nearer r := by
  obtain ⟨s, id, call, callee, body, hs, hsettled, hinlined⟩ := exists_inlined_of_turn between hturn
  have hquota := hs.quota_le between
  cases hrecursive : callee.recursive with
  | true => exact .left _ _ (Nat.lt_of_lt_of_le (hinlined.quota_lt hsettled hrecursive) hquota)
  | false =>
    refine Prod.Lex.right' _ (Nat.le_trans hinlined.quota_le hquota) ?_
    exact hinlined.load_lt hsettled (hs.flagsCycles between flags) hrecursive (hs.trims between)

/-- A schedule came to an end of its own: it had no more work, or a callee was never entered. -/
def Stops : EStateM.Result Error (Run Workspace) Outcome → Prop
  | .error e _ => ∃ f, e = .zeroFrequency f
  | .ok o _ => o.completed = true

/-- From some number on, more turns change nothing. -/
theorem exists_turns_stop (rounds : Nat) (r : Run Workspace)
    (between : r.policy.Between r.host.program)
    (flags : r.policy.index.FlagsCycles r.host.program) :
    ∃ n, ∀ o, Stops (turns (Workspace.host rounds) Workspace.inline n o r) ∧
      ∀ m, turns (Workspace.host rounds) Workspace.inline (m + n) o r =
        turns (Workspace.host rounds) Workspace.inline n o r := by
  induction r using wellFounded_nearer.induction with
  | h r ih =>
    have houtcome := turn_outcome rounds between
    cases hturn : r.turn (Workspace.host rounds) Workspace.inline with
    | error e t =>
      rw [hturn] at houtcome
      have hturns : ∀ m o,
          turns (Workspace.host rounds) Workspace.inline (m + 1) o r = .error e t :=
        fun m o => by rw [turns_succ, hturn]
      refine ⟨1, fun o => ⟨?_, fun m => (hturns m o).trans (hturns 0 o).symm⟩⟩
      rw [hturns 0 o]
      cases houtcome with
      | starved => exact ⟨_, rfl⟩
    | ok goes t =>
      cases goes with
      | false =>
        have hturns : ∀ m o, turns (Workspace.host rounds) Workspace.inline (m + 1) o r =
            .ok { o with iterations := o.iterations + 1, completed := true } t :=
          fun m o => by rw [turns_succ, hturn]
        refine ⟨1, fun o => ⟨?_, fun m => (hturns m o).trans (hturns 0 o).symm⟩⟩
        rw [hturns 0 o]
        rfl
      | true =>
        have hflags : t.policy.index.FlagsCycles t.host.program :=
          Reached.flagsCycles between flags (.turn .start hturn)
        obtain ⟨n, hn⟩ := ih t (turn_nearer between flags hturn) (Between.turn between hturn) hflags
        refine ⟨n + 1, fun o => ?_⟩
        simp only [← Nat.add_assoc, turns_succ, hturn]
        exact hn _

/-- **Every run ends by itself.** From some number of steps on, allowing more of them changes
nothing: the run has no more work, or it has failed at a callee that was never entered. A run
without more work has come to a state at which the policy was asked for a call site and returned
none. -/
theorem ends_by_itself {limits : Limits} {oracle : Oracle} {w w' : Workspace} {policy : Policy}
    (built : w.program.Built)
    (prepared : Policy.prepare (Workspace.host rounds) limits oracle w = .ok policy w') :
    ∃ n, ∀ cap, n ≤ cap →
      drive (Workspace.host rounds) Workspace.inline cap ⟨policy, w'⟩ =
        drive (Workspace.host rounds) Workspace.inline n ⟨policy, w'⟩ ∧
      ((∃ f t, drive (Workspace.host rounds) Workspace.inline cap ⟨policy, w'⟩ =
          .error (.zeroFrequency f) t) ∨
        ∃ o r t, drive (Workspace.host rounds) Workspace.inline cap ⟨policy, w'⟩ = .ok o t ∧
          o.completed = true ∧ Reached (Workspace.host rounds) Workspace.inline ⟨policy, w'⟩ r ∧
          step (Workspace.host rounds) r = .ok none t) := by
  have wf := built.wellFormed
  obtain ⟨hprogram, -, hdescribes⟩ := Policy.prepare_eq_ok wf prepared
  have hflags : policy.index.FlagsCycles w'.program := hprogram ▸ hdescribes.flagsCycles wf
  obtain ⟨n, hn⟩ := exists_turns_stop rounds ⟨policy, w'⟩
    (.inl (settled_of_prepare wf prepared)) hflags
  obtain ⟨hstops, hmore⟩ := hn {}
  -- The note on a run that was cut short is not written here.
  have hdrive : ∀ cap, n ≤ cap → drive (Workspace.host rounds) Workspace.inline cap ⟨policy, w'⟩ =
      turns (Workspace.host rounds) Workspace.inline n {} ⟨policy, w'⟩ := by
    intro cap hcap
    obtain ⟨_, heq⟩ := drive_apply (Workspace.host rounds) Workspace.inline cap ⟨policy, w'⟩
    rw [heq, ← Nat.sub_add_cancel hcap, hmore]
    generalize turns (Workspace.host rounds) Workspace.inline n {} ⟨policy, w'⟩ = result at hstops
    cases result with
    | error e t => rfl
    | ok o t =>
      have hcompleted : o.completed = true := hstops
      simp only [hcompleted, if_true]
  refine ⟨n, fun cap hcap => ⟨(hdrive cap hcap).trans (hdrive n (Nat.le_refl n)).symm, ?_⟩⟩
  have hends := hdrive cap hcap
  generalize turns (Workspace.host rounds) Workspace.inline n {} ⟨policy, w'⟩ = result
    at hstops hends
  cases result with
  | error e t =>
    obtain ⟨f, rfl⟩ := hstops
    exact .inl ⟨f, t, hends⟩
  | ok o t =>
    obtain ⟨r, reached, last⟩ := exists_last_turn hends hstops
    exact .inr ⟨o, r, t, hends, hstops, reached, step_of_last_turn last⟩

/-- The function that calls itself, with no bound on frequencies and with the optimizer. -/
theorem ends_by_itself_echo : ∃ policy w',
    Program.echo.Built ∧
    Policy.prepare (Workspace.host 4)
      { Limits.sixfold with minimumFrequency := 0, neverOptimize := false }
      (Program.echo.profile 4).oracle { program := Program.echo } = .ok policy w' ∧
    ∃ n, ∀ cap, n ≤ cap →
      (∃ f t, drive (Workspace.host 4) Workspace.inline cap ⟨policy, w'⟩ =
        .error (.zeroFrequency f) t) ∨
      ∃ o r t, drive (Workspace.host 4) Workspace.inline cap ⟨policy, w'⟩ = .ok o t ∧
        o.completed = true ∧ Reached (Workspace.host 4) Workspace.inline ⟨policy, w'⟩ r ∧
        step (Workspace.host 4) r = .ok none t := by
  obtain ⟨policy, w', prepared⟩ := Policy.exists_prepare_eq_ok (w := { program := Program.echo })
    Program.built_echo.wellFormed 4 4
    { Limits.sixfold with minimumFrequency := 0, neverOptimize := false }
  obtain ⟨n, hn⟩ := ends_by_itself Program.built_echo prepared
  exact ⟨policy, w', Program.built_echo, prepared, n, fun cap hcap => (hn cap hcap).2⟩

end Run

end Inlining
