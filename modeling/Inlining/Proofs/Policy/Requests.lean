import Inlining.Proofs.Policy.Entries
import Inlining.Proofs.Run.Workspace
import Inlining.Proofs.Selection

/-!
# Requests and what they return

The holder of a policy makes requests, one after the other: a step on some host, in whatever state
that is, or to take a report. This module keeps account of what the policy returned. A call site is
noted together with what the index said at the moment of its selection, since the index may be
another one by the time that anybody looks.

All that can happen in a request is said once, `Policy.served`: nothing was chosen, and then nothing
was charged, or a call site was selected, charged, marked and returned. There is nothing in between,
although a choice could fail half way if the index had lost the function that is to grow; the views
of the index agree at all times, and so it never has.

The first thing to follow is that the allowance for recursion holds over any number of indexes. The
counts are not part of the index, and they are exact: no inline of a recursive function goes
unnoticed, and nothing else is counted.

## Main definitions

* `Request`, `Policy.serve`, `Policy.serveAll` — requests and the policy after them
* `Choice`, `Policy.choices` — the call sites returned
* `Policy.Served` — what a request can do

## Main results

* `Policy.served` — a request does one of these things
* `Policy.recursive_inlines_exact` — the counts of recursive inlines, and their limit
-/

namespace Inlining

open Relation

/-- What the holder of a policy may ask of it: a step on a host in some state, or to take a report.
-/
inductive Request : Type 1
  | step {σ : Type} (h : Host σ) (host : σ)
  | report (copies : List CopiedCall)

/-- A call site that was returned, with what the index said when it was selected. -/
structure Choice where
  site : CallSite
  /-- The generation of the index. -/
  generation : Nat
  /-- Whether the callee was taken for recursive. -/
  recursive : Bool
deriving DecidableEq

namespace Run

variable {σ : Type} {h : Host σ} {r s : Run σ}

/-- The moment of a step at which something is selected. -/
def selected? (h : Host σ) (r : Run σ) : Option (Run σ) :=
  (moments h r).find? fun s => s.policy.selection.best.isSome

theorem Selects.selected?_eq {id : SiteId} (selects : Selects h r s)
    (best : s.policy.selection.best = some id) : selected? h r = some s := by
  cases selects with
  | first _ accounted => simp [selected?, moments, accounted, best]
  | again _ accounted nothing _ optimized =>
    simp [selected?, moments, accounted, nothing, optimized, best]

/-- The call site that a step returns. -/
def choice? (h : Host σ) (r : Run σ) : Option Choice :=
  match step h r with
  | .ok (some site) _ => some {
      site
      generation := ((selected? h r).map (·.policy.index.generation)).getD 0
      recursive := (selected? h r).any fun s =>
        (s.policy.index.function? site.callee).any FunctionRecord.recursive }
  | .ok none _ | .error _ _ => none

end Run

namespace Policy

/-- The policy after a request, whether that succeeded or failed. -/
def serve (p : Policy) : Request → Policy
  | .step h host => ((Run.step h).after { policy := p, host }).policy
  | .report copies => (report copies).after p

/-- The policy after requests, one after the other. -/
def serveAll (p : Policy) (requests : List Request) : Policy := requests.foldl serve p

/-- The call site that a request returns. -/
def choice? (p : Policy) : Request → Option Choice
  | .step h host => Run.choice? h { policy := p, host }
  | .report _ => none

/-- The call sites that requests return, in order. -/
def choices (p : Policy) : List Request → List Choice
  | [] => []
  | request :: rest => (p.choice? request).toList ++ (p.serve request).choices rest

/-! ### Sequences of requests -/

variable {start p q : Policy} {request : Request}

theorem serveAll_append (p : Policy) (requests more : List Request) :
    p.serveAll (requests ++ more) = (p.serveAll requests).serveAll more :=
  List.foldl_append

/-- A choice was made in one of the requests. -/
theorem exists_of_mem_choices {requests : List Request} {c : Choice} (hc : c ∈ p.choices requests) :
    ∃ before request after, requests = before ++ request :: after ∧
      (p.serveAll before).choice? request = some c := by
  induction requests generalizing p with
  | nil => cases hc
  | cons request rest ih =>
    rcases List.mem_append.mp hc with hc | hc
    · exact ⟨[], request, rest, rfl, Option.mem_toList.mp hc⟩
    · obtain ⟨before, request', after, rfl, hchoice⟩ := ih hc
      exact ⟨request :: before, request', after, rfl, hchoice⟩

theorem Led.serve (led : Led start p) (request : Request) : Led start (p.serve request) := by
  cases request with
  | step h host => exact .step h host led
  | report copies => exact .report copies led

/-- Requests are one way to lead the books. -/
theorem Led.serveAll (led : Led start p) (requests : List Request) :
    Led start (p.serveAll requests) := by
  induction requests generalizing p with
  | nil => exact led
  | cons request rest ih => exact ih (led.serve request)

theorem serveAll_entries (p : Policy) (requests : List Request) :
    ReflTransGen Entry p (p.serveAll requests) :=
  (Led.serveAll .start requests).entries

/-! ### What a request does -/

/-- What a request can do and return. -/
inductive Served (p : Policy) : Option Choice → Policy → Prop
  | nothing {q : Policy} (limits : q.limits = p.limits)
      (counts : q.recursiveInlines = p.recursiveInlines) : Served p none q
  | chosen {s : Policy} {id : SiteId} {call : SiteRecord} {callee : FunctionRecord}
      (entries : ReflTransGen Entry p s) (limits : s.limits = p.limits)
      (counts : s.recursiveInlines = p.recursiveInlines) (best : s.selection.best = some id)
      (record : s.index.record? id = some call)
      (callee_eq : s.index.function? call.callee = some callee) :
      Served p (some ⟨call.toCallSite, s.index.generation, callee.recursive⟩)
        ((s.charge call.callee callee).take id call callee.size)

/-- What is selected can be chosen. -/
theorem exists_adopt_eq_ok {id : SiteId} (hix : p.index.Consistent)
    (best : p.selection.best = some id) : ∃ call q, adopt id p = .ok call q := by
  obtain ⟨call, hcall, hcheck, -⟩ := Selection.best_eq_some hix best
  obtain ⟨callee, hcallee, -⟩ := Selection.check_eq_none_iff.mp hcheck
  have hcall' : p.index.record? id = some call := hcall
  have hcallee' : p.index.function? call.callee = some callee := hcallee
  -- The caller of a record is a function of the index, and so nothing is refused.
  rw [adopt_apply, hcall']
  simp [hcallee', hix.caller id call hcall']

theorem served_step {σ : Type} {h : Host σ} {r : Run σ} (hix : r.policy.index.Consistent) :
    Served r.policy (Run.choice? h r) ((Run.step h).after r).policy := by
  have outcome := Run.step_outcome h r
  rw [Run.choice?, Update.after]
  generalize Run.step h r = result at outcome ⊢
  cases outcome with
  | idle => exact .nothing rfl rfl
  | unaccounted _ accounted =>
    have outcome := Run.account_outcome h r.tick
    rw [accounted] at outcome
    cases outcome with
    | dropped _ _ policy => exact .nothing (by rw [policy]; rfl) (by rw [policy]; rfl)
  | @stuck s _ _ selects _ optimized =>
    obtain ⟨hlimits, hcounts, -⟩ := selects.standing
    have outcome := Run.fallBack_outcome h (s.noted h)
    rw [optimized] at outcome
    cases outcome with
    | unmeasured _ policy | unprofiled _ _ policy | unbuilt _ policy =>
      exact .nothing (by rw [policy]; exact hlimits) (by rw [policy]; exact hcounts)
  | done selects => exact .nothing selects.standing.1 selects.standing.2.1
  | @refused s id _ _ selects best adopted =>
    have hs := invariant_of_entries Entry.consistent selects.entries hix
    obtain ⟨call, q, hadopted⟩ := exists_adopt_eq_ok hs best
    rw [hadopted] at adopted
    cases adopted
  | @chosen s id call _ _ selects best adopted =>
    obtain ⟨callee, hcall, hcallee, rfl⟩ := adopt_eq_ok adopted
    obtain ⟨hlimits, hcounts, -⟩ := selects.standing
    have hserved := Served.chosen selects.entries hlimits hcounts best hcall hcallee
    simpa [selects.selected?_eq best, hcallee] using hserved

/-- **A request does one of these things**, also where it fails. -/
theorem served (hix : p.index.Consistent) (request : Request) :
    Served p (p.choice? request) (p.serve request) := by
  cases request with
  | step h host => exact served_step (r := { policy := p, host }) hix
  | report copies =>
    obtain ⟨_, heq⟩ := after_report copies p
    rw [serve, heq]
    exact .nothing rfl rfl

/-- The views of the index agree after a request. -/
theorem consistent_serve (hix : p.index.Consistent) (request : Request) :
    (p.serve request).index.Consistent :=
  (Led.serve .start request).invariant Entry.consistent hix

/-! ### The allowance for recursion -/

/-- The inlines of recursive functions are within the limits. -/
def Allowed (p : Policy) : Prop := ∀ f, p.recursiveInlinesOf f ≤ p.limits.recursiveLimit ∧
  (p.limits.noRecursiveInlining = true → p.recursiveInlinesOf f = 0)

variable {c : Option Choice}

theorem Served.limits_eq (served : Served p c q) : q.limits = p.limits := by
  cases served with
  | nothing limits => exact limits
  | chosen _ limits => exact limits

/-- A request adds what it returns to the counts. -/
theorem Served.recursiveInlinesOf_eq (served : Served p c q) (f : FunctionId) :
    q.recursiveInlinesOf f = p.recursiveInlinesOf f +
      c.toList.countP fun c => c.recursive ∧ c.site.callee = f := by
  cases served with
  | nothing _ counts => rw [recursiveInlinesOf, counts]; rfl
  | @chosen s id call callee _ _ counts =>
    change (s.charge call.callee callee).recursiveInlinesOf f = _
    rw [recursiveInlinesOf_charge, recursiveInlinesOf, counts]
    simp [recursiveInlinesOf, List.countP_cons]

/-- What is chosen has something left of its allowance. -/
theorem Served.allowed (served : Served p c q) (hix : p.index.Consistent) (hp : p.Allowed) :
    q.Allowed := by
  cases served with
  | nothing limits counts =>
    intro f
    rw [recursiveInlinesOf, counts, limits]
    exact hp f
  | @chosen s id call callee entries limits counts best record callee_eq =>
    have hs := invariant_of_entries Entry.consistent entries hix
    obtain ⟨-, -, -, hallowed⟩ := Selection.fits_of_best hs best record callee_eq
    have hcount : ∀ f, s.recursiveInlinesOf f = p.recursiveInlinesOf f := fun f => by
      rw [recursiveInlinesOf, counts]
      rfl
    intro f
    obtain ⟨hle, hzero⟩ := hp f
    change (s.charge call.callee callee).recursiveInlinesOf f ≤ s.limits.recursiveLimit ∧
      (s.limits.noRecursiveInlining = true →
        (s.charge call.callee callee).recursiveInlinesOf f = 0)
    rw [recursiveInlinesOf_charge, hcount, limits]
    by_cases hcounted : callee.recursive = true ∧ call.callee = f
    · obtain ⟨hflag, rfl⟩ := hcounted
      obtain ⟨hlt, hnot⟩ := hallowed hflag
      change s.recursiveInlinesOf call.callee < s.limits.recursiveLimit at hlt
      change s.limits.noRecursiveInlining = false at hnot
      rw [hcount, limits] at hlt
      rw [limits] at hnot
      rw [if_pos ⟨hflag, rfl⟩, hnot]
      exact ⟨hlt, fun hset => Bool.noConfusion hset⟩
    · rw [if_neg hcounted, Nat.add_zero]
      exact ⟨hle, hzero⟩

theorem serveAll_recursiveInlinesOf (hix : p.index.Consistent) (requests : List Request)
    (f : FunctionId) : (p.serveAll requests).recursiveInlinesOf f = p.recursiveInlinesOf f +
      (p.choices requests).countP fun c => c.recursive ∧ c.site.callee = f := by
  induction requests generalizing p with
  | nil => rfl
  | cons request rest ih =>
    rw [choices, List.countP_append, ← Nat.add_assoc, ← (served hix request).recursiveInlinesOf_eq]
    exact ih (consistent_serve hix request)

theorem serveAll_allowed (hix : p.index.Consistent) (hp : p.Allowed) (requests : List Request) :
    (p.serveAll requests).limits = p.limits ∧ (p.serveAll requests).Allowed := by
  induction requests generalizing p with
  | nil => exact ⟨rfl, hp⟩
  | cons request rest ih =>
    have hserved := served hix request
    obtain ⟨hlimits, hallowed⟩ := ih (consistent_serve hix request) (hserved.allowed hix hp)
    exact ⟨hlimits.trans hserved.limits_eq, hallowed⟩

/-- **The counts of recursive inlines are exact, and they keep to their limit.** Let a policy be set
up and asked for anything, in any order and on any hosts, whether or not it succeeds and however
often the index is built anew. For every function, the policy counts the call sites that it returned
whose callee the function was and that were taken for recursive when they were selected. This number
is never above the limit, and it stays zero if recursive functions are not to be inlined. -/
theorem recursive_inlines_exact {σ : Type} {h : Host σ} {limits : Limits} {oracle : Oracle}
    {host host' : σ} (prepared : prepare h limits oracle host = .ok start host')
    (requests : List Request) (f : FunctionId) :
    (start.serveAll requests).recursiveInlinesOf f =
      ((start.choices requests).countP fun c => c.recursive ∧ c.site.callee = f) ∧
    (start.serveAll requests).recursiveInlinesOf f ≤ limits.recursiveLimit ∧
    (limits.noRecursiveInlining = true → (start.serveAll requests).recursiveInlinesOf f = 0) := by
  have hix : start.index.Consistent := Led.consistent prepared .start
  obtain ⟨measured, _, ix, -, rfl⟩ := exists_build_of_prepare prepared
  have hstart : ∀ f, (Policy.start limits measured ix).recursiveInlinesOf f = 0 := fun f =>
    Std.ExtTreeMap.getD_empty
  have hallowed : (Policy.start limits measured ix).Allowed := fun f => by
    rw [hstart]
    exact ⟨Nat.zero_le _, fun _ => rfl⟩
  have hcount := serveAll_recursiveInlinesOf hix requests f
  rw [hstart, Nat.zero_add] at hcount
  obtain ⟨hlimits, hkept⟩ := serveAll_allowed hix hallowed requests
  obtain ⟨hle, hzero⟩ := hkept f
  rw [hlimits] at hle hzero
  exact ⟨hcount, hle, hzero⟩

/-- Three steps with a host that never inlines anything, and a report for which nothing is pending.
-/
def idleRequests : List Request :=
  [.step (Workspace.host 4) { program := Program.echo },
    .step (Workspace.host 4) { program := Program.echo },
    .step (Workspace.host 4) { program := Program.echo }, .report []]

/-- A function that calls itself may be inlined twice. The same call is returned with the index of
the start and with the next one, and no more after that. -/
theorem recursive_inlines_exact_echo : ∃ start w',
    prepare (Workspace.host 4) { Limits.sixfold with neverOptimize := false, recursiveLimit := 2 }
      (Program.echo.profile 4).oracle { program := Program.echo } = .ok start w' ∧
    start.choices idleRequests =
      [⟨⟨⟨⟨0⟩, ⟨0⟩, 0⟩, ⟨0⟩, ⟨0⟩⟩, 0, true⟩, ⟨⟨⟨⟨0⟩, ⟨0⟩, 0⟩, ⟨0⟩, ⟨0⟩⟩, 1, true⟩] ∧
    (start.serveAll idleRequests).recursiveInlinesOf ⟨0⟩ = 2 := by
  obtain ⟨start, w', prepared⟩ := exists_prepare_eq_ok (w := { program := Program.echo })
    Program.built_echo.wellFormed 4 4
    { Limits.sixfold with neverOptimize := false, recursiveLimit := 2 }
  have hrun : ((prepare (Workspace.host 4)
      { Limits.sixfold with neverOptimize := false, recursiveLimit := 2 }
      (Program.echo.profile 4).oracle).outcome { program := Program.echo }).toOption.any
        fun start => start.choices idleRequests =
          [⟨⟨⟨⟨0⟩, ⟨0⟩, 0⟩, ⟨0⟩, ⟨0⟩⟩, 0, true⟩, ⟨⟨⟨⟨0⟩, ⟨0⟩, 0⟩, ⟨0⟩, ⟨0⟩⟩, 1, true⟩] := by
    decide +kernel
  simp only [Update.outcome, prepared] at hrun
  have hchoices := of_decide_eq_true hrun
  refine ⟨start, w', prepared, hchoices, ?_⟩
  rw [(recursive_inlines_exact prepared idleRequests ⟨0⟩).1, hchoices]
  decide

end Policy

end Inlining
