import Inlining.Program.Profile
import Inlining.Proofs.Program.CallPaths
import Inlining.Proofs.Traversal

/-!
# How often functions are entered

The entries of a profile are computed component by component, in an order that the search for
components happens to find. What comes out does not depend on it. A function is entered from
outside, from functions that it does not come to call, and from those with which it lies on a cycle;
the last part is refined for a number of rounds. This is an equation for the entries of all
functions, `Program.estimate`, and it has one solution: callers that are off the cycle have a higher
rank, so that entries are determined from the highest rank down.

Both halves are for use with two programs. Where a program is changed, the entries before the change
are shown to solve the equation of the program after it, at least for some functions along with all
of their callers. They are then the entries after it.

## Main definitions

* `Program.Mutual` — two functions lie on a cycle of calls, or are the same
* `Program.inflow` — the entries that come from some functions
* `Program.estimate` — the right-hand side of the equation
* `Program.Layers` — an order of components, callers before callees

## Main results

* `Program.WellFormed.getElem?_profile` — what a profile makes of the entries
* `Program.WellFormed.entries_eq` — the entries of a profile solve the equation
* `Program.WellFormed.entries_unique` — solutions agree on functions along with their callers
-/

namespace Inlining

open Relation

namespace FunctionBody

/-- A function that is not entered enters nothing. -/
theorem flow_zero (f : FunctionBody) (callee : FunctionId) : f.flow 0 callee = 0 :=
  total_map_eq_zero fun b _ => by simp [blockRuns]

/-- A function enters only what it calls. -/
theorem flow_eq_zero {f : FunctionBody} {callee : FunctionId} (h : callee ∉ f.callees) (n : Nat) :
    f.flow n callee = 0 := by
  refine total_map_eq_zero fun b hb => ?_
  have hcount : b.code.countP (fun i => i.callee? = some callee) = 0 := by
    rw [List.countP_eq_zero]
    intro i hi hcallee
    have hmem := List.mem_filterMap.mpr ⟨i, hi, of_decide_eq_true hcallee⟩
    exact h (List.mem_flatMap.mpr ⟨b, hb, hmem⟩)
  rw [hcount, Nat.mul_zero]

end FunctionBody

namespace Program

/-- How often the profile says that a block runs. -/
theorem WellFormed.getElem?_profile {p : Program} (wf : p.WellFormed) (rounds : Nat)
    {f : FunctionBody} (hf : f ∈ p.functions) {b : Block} (hb : b ∈ f.blocks) :
    (p.profile rounds)[b.id]? = some (blockRuns ((p.entries rounds).of f.id) b.weight) := by
  rw [profile, FrequencyTable.ofEntries]
  rcases getElem?_foldl_insert Prod.fst Prod.snd (p.functions.flatMap fun f =>
      f.blocks.map fun b => (b.id, blockRuns ((p.entries rounds).of f.id) b.weight)) ∅ b.id with
    ⟨a, ha, hkey, hvalue⟩ | ⟨hkey, -⟩
  · obtain ⟨g, hg, ha⟩ := List.mem_flatMap.mp ha
    obtain ⟨c, hc, rfl⟩ := List.mem_map.mp ha
    obtain ⟨rfl, rfl⟩ := wf.eq_of_block_id_eq hg hf hc hb hkey
    exact hvalue
  · exact absurd rfl (hkey (b.id, blockRuns ((p.entries rounds).of f.id) b.weight)
      (List.mem_flatMap.mpr ⟨f, hf, List.mem_map.mpr ⟨b, hb, rfl⟩⟩))

/-- Each of two functions comes to call the other, or they are the same. -/
def Mutual (p : Program) (f g : FunctionId) : Prop :=
  ReflTransGen p.Calls f g ∧ ReflTransGen p.Calls g f

open Classical in
/-- How often a function is entered from the functions of a kind, if functions are entered as often
as is given. -/
noncomputable def inflow (p : Program) (kind : FunctionId → Prop) (entries : FunctionId → Nat)
    (f : FunctionId) : Nat :=
  total (p.functions.map fun g => if kind g.id then g.flow (entries g.id) f else 0)

/-- The entries that come from outside the function's cycle. -/
noncomputable def outerFlow (p : Program) (entries : FunctionId → Nat) (f : FunctionId) : Nat :=
  p.rootCount f + p.inflow (fun g => ¬ p.Mutual g f) entries f

/-- The entries that come from the function's cycle. -/
noncomputable def innerFlow (p : Program) (entries : FunctionId → Nat) (f : FunctionId) : Nat :=
  p.inflow (fun g => p.Mutual g f) entries f

/-- The estimate of a function's entries after the given number of rounds: what comes from outside
its cycle, by the entries given, and what comes from the cycle, by the estimate before. -/
noncomputable def estimate (p : Program) (entries : FunctionId → Nat) : Nat → FunctionId → Nat
  | 0, f => p.outerFlow entries f
  | n + 1, f => p.outerFlow entries f + p.innerFlow (fun g => p.estimate entries n g) f

variable {p q : Program} {f g : FunctionId} {entries entries' : FunctionId → Nat} {rounds : Nat}

/-! ### Cycles -/

theorem Mutual.refl (p : Program) (f : FunctionId) : p.Mutual f f := ⟨.refl, .refl⟩

theorem Mutual.symm (h : p.Mutual f g) : p.Mutual g f := ⟨h.2, h.1⟩

theorem Mutual.trans {h : FunctionId} (hfg : p.Mutual f g) (hgh : p.Mutual g h) : p.Mutual f h :=
  ⟨hfg.1.trans hgh.1, hgh.2.trans hfg.2⟩

theorem Mutual.rank_eq (h : p.Mutual f g) : p.rank f = p.rank g := by
  refine congrArg Set.ncard (Set.ext fun x => ?_)
  exact ⟨fun hx => h.2.trans hx, fun hx => h.1.trans hx⟩

/-- A caller off the function's cycle has a higher rank. -/
theorem rank_lt_of_calls (hcalls : p.Calls g f) (h : ¬ p.Mutual g f) : p.rank f < p.rank g :=
  rank_lt (.single hcalls) fun hback => h ⟨.single hcalls, hback⟩

/-! ### Inflow -/

theorem WellFormed.calls_of_mem (wf : p.WellFormed) {body : FunctionBody}
    (hbody : body ∈ p.functions) (hg : g ∈ body.callees) : p.Calls body.id g :=
  wf.calls_iff.mpr ⟨body, hbody, rfl, hg⟩

/-- The inflow depends on the callers alone. -/
theorem WellFormed.inflow_congr (wf : p.WellFormed) {kind kind' : FunctionId → Prop}
    (h : ∀ g, p.Calls g f → (kind g ↔ kind' g) ∧ (kind g → entries g = entries' g)) :
    p.inflow kind entries f = p.inflow kind' entries' f := by
  rw [inflow, inflow]
  congr 1
  refine List.map_congr_left fun body hbody => ?_
  by_cases hcalls : f ∈ body.callees
  · obtain ⟨hkind, hentries⟩ := h body.id (wf.calls_of_mem hbody hcalls)
    by_cases hb : kind body.id
    · rw [if_pos hb, if_pos (hkind.mp hb), hentries hb]
    · rw [if_neg hb, if_neg (mt hkind.mpr hb)]
  · simp only [FunctionBody.flow_eq_zero hcalls, ite_self]

/-- Two estimates agree on functions for which the entries from outside agree, if entries from the
cycles come from these functions. -/
theorem estimate_congr (among : FunctionId → Prop)
    (outer : ∀ f, among f → q.outerFlow entries' f = p.outerFlow entries f)
    (inner : ∀ f, among f → ∀ e e' : FunctionId → Nat, (∀ g, among g → e' g = e g) →
      q.innerFlow e' f = p.innerFlow e f) (n : Nat) (hf : among f) :
    q.estimate entries' n f = p.estimate entries n f := by
  induction n generalizing f with
  | zero => exact outer f hf
  | succ n ih =>
    rw [estimate, estimate, outer f hf, inner f hf _ _ fun g hg => ih hg]

/-- Off a cycle there is nothing to refine. -/
theorem WellFormed.estimate_eq (wf : p.WellFormed) (hf : ¬ TransGen p.Calls f f) (n : Nat) :
    p.estimate entries n f = p.rootCount f + p.inflow (fun _ => True) entries f := by
  have hmutual : ∀ g, p.Calls g f → ¬ p.Mutual g f :=
    fun g hcalls h => hf (.tail' h.2 hcalls)
  have houter : p.outerFlow entries f = p.rootCount f + p.inflow (fun _ => True) entries f := by
    rw [outerFlow,
      wf.inflow_congr fun g hcalls => ⟨iff_true_intro (hmutual g hcalls), fun _ => rfl⟩]
  cases n with
  | zero => exact houter
  | succ n =>
    have hinner : p.innerFlow (p.estimate entries n) f =
        p.inflow (fun _ => False) (p.estimate entries n) f :=
      wf.inflow_congr fun g hcalls => ⟨iff_false_intro (hmutual g hcalls), fun _ => rfl⟩
    have hnone : p.inflow (fun _ => False) (p.estimate entries n) f = 0 :=
      total_map_eq_zero fun _ _ => if_neg not_false
    rw [estimate, hinner, hnone, houter, Nat.add_zero]

/-- The inflow from some functions, if all other functions are of another kind or do not call. -/
theorem WellFormed.inflow_eq (wf : p.WellFormed) {kind : FunctionId → Prop}
    {chosen rest : List FunctionId}
    (hperm : (chosen ++ rest).Perm (p.functions.map FunctionBody.id))
    (hchosen : ∀ g ∈ chosen, kind g) (hrest : ∀ g ∈ rest, p.Calls g f → ¬ kind g) :
    p.inflow kind entries f =
      total ((chosen.filterMap p.function?).map fun g => g.flow (entries g.id) f) := by
  have hfunctions :
      p.functions.Perm (chosen.filterMap p.function? ++ rest.filterMap p.function?) := by
    have hself : (p.functions.map FunctionBody.id).filterMap p.function? = p.functions := by
      rw [List.filterMap_map]
      refine (List.filterMap_congr fun g hg => ?_).trans List.filterMap_some
      exact wf.function?_eq_some.mpr ⟨hg, rfl⟩
    have := (hperm.filterMap p.function?).symm
    rwa [hself, List.filterMap_append] at this
  rw [inflow, total_perm (hfunctions.map _), List.map_append, total_append]
  have hzero : total ((rest.filterMap p.function?).map fun g =>
      open Classical in if kind g.id then g.flow (entries g.id) f else 0) = 0 := by
    refine total_map_eq_zero fun g hg => ?_
    obtain ⟨id, hid, hg⟩ := List.mem_filterMap.mp hg
    obtain ⟨hmem, rfl⟩ := wf.function?_eq_some.mp hg
    by_cases hcalls : f ∈ g.callees
    · exact if_neg (hrest g.id hid (wf.calls_of_mem hmem hcalls))
    · rw [FunctionBody.flow_eq_zero hcalls, ite_self]
  rw [hzero, Nat.add_zero]
  congr 1
  refine List.map_congr_left fun g hg => ?_
  obtain ⟨id, hid, hg⟩ := List.mem_filterMap.mp hg
  obtain ⟨hmem, rfl⟩ := wf.function?_eq_some.mp hg
  exact if_pos (hchosen g.id hid)

/-! ### The order of components -/

/-- Components of mutually recursive functions, in an order in which callers come before callees. -/
structure Layers (p : Program) (components : List (List FunctionId)) : Prop where
  perm : components.flatten.Perm (p.functions.map FunctionBody.id)
  cycle : ∀ c ∈ components, ∀ f ∈ c, ∀ g, g ∈ c ↔ p.Mutual g f
  order : ∀ before c after, components = before ++ c :: after → ∀ f ∈ c, ∀ g ∈ after.flatten,
    ¬ p.Calls g f

/-- Paths to a function of the program are the same for the inliner. -/
theorem WellFormed.reaches_snapshot (wf : p.WellFormed) (hg : g ∈ p.functions.map FunctionBody.id) :
    ReflTransGen p.snapshot.Calls f g ↔ ReflTransGen p.Calls f g := by
  have hg' : g ∈ p.snapshot.functions := hg
  rw [reflTransGen_iff_eq_or_transGen, reflTransGen_iff_eq_or_transGen, wf.transGen_calls_snapshot]
  simp only [hg', and_true]

/-- The components of the call graph, from the last to the first, are such an order. -/
theorem WellFormed.layers (wf : p.WellFormed) :
    p.Layers (CallGraph.ofSnapshot p.snapshot).components.reverse := by
  have distinct : p.snapshot.functions.Nodup := wf.nodup
  have hperm : (CallGraph.ofSnapshot p.snapshot).components.reverse.flatten.Perm
      (p.functions.map FunctionBody.id) :=
    (List.reverse_perm _).flatten.trans (CallGraph.perm_components distinct)
  have hmem : ∀ {c f}, c ∈ (CallGraph.ofSnapshot p.snapshot).components → f ∈ c →
      f ∈ p.functions.map FunctionBody.id := fun hc hf =>
    (CallGraph.perm_components distinct).mem_iff.mp (List.mem_flatten.mpr ⟨_, hc, hf⟩)
  refine ⟨hperm, fun c hc f hf g => ?_, fun before c after heq f hf g hg hcalls => ?_⟩
  · have hc := List.mem_reverse.mp hc
    rw [CallGraph.mem_component_iff distinct hc hf, Mutual]
    constructor
    · rintro ⟨hfg, hgf⟩
      have hg := hmem hc ((CallGraph.mem_component_iff distinct hc hf).mpr ⟨hfg, hgf⟩)
      exact ⟨(wf.reaches_snapshot (hmem hc hf)).mp hgf, (wf.reaches_snapshot hg).mp hfg⟩
    · rintro ⟨hgf, hfg⟩
      have hg : g ∈ p.functions.map FunctionBody.id := by
        rcases ReflTransGen.cases_head hgf with rfl | ⟨_, hcalls, -⟩
        · exact hmem hc hf
        · exact wf.mem_of_calls hcalls
      exact ⟨(wf.reaches_snapshot hg).mpr hfg, (wf.reaches_snapshot (hmem hc hf)).mpr hgf⟩
  · have hcomponents : (CallGraph.ofSnapshot p.snapshot).components =
        after.reverse ++ (c :: before.reverse) := by
      rw [← List.reverse_reverse (CallGraph.ofSnapshot p.snapshot).components, heq]
      simp
    have htake : (CallGraph.ofSnapshot p.snapshot).components.take after.length =
        after.reverse := by
      rw [hcomponents, ← List.length_reverse, List.take_left]
    have hcalls' : p.snapshot.Calls g f := by
      refine wf.calls_snapshot.mpr ⟨hcalls, hmem (c := c) ?_ hf⟩
      rw [hcomponents]
      simp
    have hf' := CallGraph.mem_take_components_of_calls distinct (k := after.length)
      (by rw [htake]; exact (List.reverse_perm _).flatten.mem_iff.mpr hg) hcalls'
    rw [htake, (List.reverse_perm _).flatten.mem_iff] at hf'
    have hnodup := hperm.nodup_iff.mpr wf.nodup
    rw [heq, List.flatten_append, List.flatten_cons] at hnodup
    exact (List.nodup_append.mp (List.nodup_append.mp hnodup).2.1).2.2 f hf f hf' rfl

/-! ### Component by component -/

section Components

variable {components before after : List (List FunctionId)} {c : List FunctionId}
  (wf : p.WellFormed) (layers : p.Layers components) (split : components = before ++ c :: after)
include wf layers split

theorem Layers.perm_split :
    (before.flatten ++ (c ++ after.flatten)).Perm (p.functions.map FunctionBody.id) ∧
      (before.flatten ++ (c ++ after.flatten)).Nodup := by
  have hperm := layers.perm
  rw [split, List.flatten_append, List.flatten_cons] at hperm
  exact ⟨hperm, hperm.nodup_iff.mpr wf.nodup⟩

/-- Members of a component are not found before it. -/
theorem Layers.not_mem_before (hf : f ∈ c) : f ∉ before.flatten := fun hf' =>
  (List.nodup_append.mp (layers.perm_split wf split).2).2.2 f hf' f
    (List.mem_append_left _ hf) rfl

/-- The callers of a member are found before its component or in it. -/
theorem Layers.mem_of_calls (hf : f ∈ c) (hcalls : p.Calls g f) : g ∈ before.flatten ∨ g ∈ c := by
  have hg : g ∈ before.flatten ++ (c ++ after.flatten) :=
    (layers.perm_split wf split).1.mem_iff.mpr (wf.mem_of_calls hcalls)
  simp only [List.mem_append] at hg
  rcases hg with hg | hg | hg
  · exact .inl hg
  · exact .inr hg
  · exact absurd hcalls (layers.order before c after split f hf g hg)

/-- What comes into a component comes from before it. -/
theorem Layers.outerFlow_eq (hf : f ∈ c) : p.outerFlow entries f = p.rootCount f +
    Entries.inflow ((before.flatten.filterMap p.function?).map fun g => (g, entries g.id)) f := by
  have hcycle := layers.cycle c (by simp [split]) f hf
  rw [outerFlow, wf.inflow_eq (layers.perm_split wf split).1, Entries.inflow, List.map_map]
  · rfl
  · exact fun g hg h => layers.not_mem_before wf split ((hcycle g).mpr h) hg
  · intro g hg hcalls
    rw [not_not, ← hcycle]
    rcases layers.mem_of_calls wf split hf hcalls with hbefore | hc
    · exact absurd rfl ((List.nodup_append.mp (layers.perm_split wf split).2).2.2 g hbefore g hg)
    · exact hc

/-- What the members of a component owe each other comes from the component. -/
theorem Layers.innerFlow_eq (hf : f ∈ c) : p.innerFlow entries f =
    Entries.inflow ((c.filterMap p.function?).map fun g => (g, entries g.id)) f := by
  have hcycle := layers.cycle c (by simp [split]) f hf
  have hperm : (c ++ (before.flatten ++ after.flatten)).Perm (p.functions.map FunctionBody.id) :=
    (List.perm_append_comm_assoc _ _ _).trans (layers.perm_split wf split).1
  rw [innerFlow, wf.inflow_eq hperm, Entries.inflow, List.map_map]
  · rfl
  · exact fun g hg => (hcycle g).mp hg
  · intro g hg hcalls h
    have hnodup := hperm.nodup_iff.mpr wf.nodup
    exact (List.nodup_append.mp hnodup).2.2 g ((hcycle g).mpr h) g hg rfl

/-- Refining a component computes the estimate. -/
theorem Layers.refineTimes_eq (n : Nat) :
    Entries.refineTimes ((c.filterMap p.function?).map fun g => (g, p.outerFlow entries g.id)) n =
      (c.filterMap p.function?).map fun g => (g, p.estimate entries n g.id) := by
  induction n with
  | zero => rfl
  | succ n ih =>
    rw [Entries.refineTimes, ih, Entries.refine, List.map_map]
    refine List.map_congr_left fun g hg => ?_
    obtain ⟨id, hid, hg⟩ := List.mem_filterMap.mp hg
    obtain ⟨-, rfl⟩ := wf.function?_eq_some.mp hg
    rw [Function.comp_apply, estimate, layers.innerFlow_eq wf split hid]

/-- A component without a recursive member needs no refining. -/
theorem Layers.settle_eq (rounds : Nat) :
    p.settle rounds (CallGraph.ofSnapshot p.snapshot)
        ((before.flatten.filterMap p.function?).map fun g => (g, entries g.id)) c =
      ((before.flatten.filterMap p.function?).map fun g => (g, entries g.id)) ++
        (c.filterMap p.function?).map fun g => (g, p.estimate entries rounds g.id) := by
  have hmember : ∀ g ∈ c.filterMap p.function?, g.id ∈ c := by
    intro g hg
    obtain ⟨id, hid, hg⟩ := List.mem_filterMap.mp hg
    rwa [(wf.function?_eq_some.mp hg).2]
  have hbase : (c.filterMap p.function?).map (fun g => (g, p.rootCount g.id + Entries.inflow
      ((before.flatten.filterMap p.function?).map fun g => (g, entries g.id)) g.id)) =
      (c.filterMap p.function?).map fun g => (g, p.outerFlow entries g.id) :=
    List.map_congr_left fun g hg => by rw [layers.outerFlow_eq wf split (hmember g hg)]
  rw [settle, hbase]
  congr 1
  split
  · exact layers.refineTimes_eq wf split rounds
  · rename_i hflat
    refine List.map_congr_left fun g hg => ?_
    have hcycle : ¬ TransGen p.Calls g.id g.id := by
      rw [← wf.isRecursive_snapshot]
      exact fun h => hflat (List.any_eq_true.mpr ⟨g.id, hmember g hg, h⟩)
    rw [wf.estimate_eq hcycle, ← wf.estimate_eq hcycle 0]
    rfl

end Components

/-! ### The equation -/

/-- The entries known after some components are those of a solution, as far as these components go.
-/
structure Resolves (p : Program) (rounds : Nat) (done : List (List FunctionId)) (known : Entries)
    (entries : FunctionId → Nat) : Prop where
  known_eq : known = (done.flatten.filterMap p.function?).map fun g => (g, entries g.id)
  solves : ∀ f ∈ done.flatten, entries f = p.estimate entries rounds f

/-- The first few components have the callers of their members. -/
theorem Layers.mem_of_reaches {components done after : List (List FunctionId)} (wf : p.WellFormed)
    (layers : p.Layers components) (split : components = done ++ after) (hf : f ∈ done.flatten)
    (hreach : ReflTransGen p.Calls g f) : g ∈ done.flatten := by
  induction hreach using ReflTransGen.head_induction_on with
  | refl => exact hf
  | head hcalls _ ih =>
    obtain ⟨d, hd, hmem⟩ := List.mem_flatten.mp ih
    obtain ⟨first, last, rfl⟩ := List.append_of_mem hd
    rw [List.append_assoc, List.cons_append] at split
    rw [List.flatten_append, List.flatten_cons, List.mem_append, List.mem_append]
    rcases layers.mem_of_calls wf split hmem hcalls with hg | hg
    · exact .inl hg
    · exact .inr (.inl hg)

/-- One more component. Its entries are added to the solution, and the estimates for what came
before do not notice, as they depend on callers only. -/
theorem Layers.resolves_settle {components before after : List (List FunctionId)}
    {c : List FunctionId} {known : Entries} (wf : p.WellFormed) (layers : p.Layers components)
    (split : components = before ++ c :: after) (h : p.Resolves rounds before known entries) :
    ∃ entries', p.Resolves rounds (before ++ [c])
      (p.settle rounds (CallGraph.ofSnapshot p.snapshot) known c) entries' := by
  let extended : FunctionId → Nat := fun f =>
    if f ∈ c then p.estimate entries rounds f else entries f
  have split' : components = (before ++ [c]) ++ after := by simp [split]
  have hflatten : (before ++ [c]).flatten = before.flatten ++ c := by simp
  have hbefore : ∀ f ∈ before.flatten, extended f = entries f := fun f hf =>
    if_neg fun hc => layers.not_mem_before wf split hc hf
  have hsame : ∀ f ∈ (before ++ [c]).flatten, ∀ n,
      p.estimate extended n f = p.estimate entries n f := by
    intro f hf n
    refine estimate_congr (· ∈ (before ++ [c]).flatten) (fun f hf => ?_)
      (fun f hf e e' he => ?_) n hf
    · rw [outerFlow, outerFlow, wf.inflow_congr fun g hcalls => ⟨.rfl, fun hg => ?_⟩]
      rw [hflatten, List.mem_append] at hf
      rcases hf with hf | hf
      · exact hbefore g (layers.mem_of_reaches wf split hf (.single hcalls))
      · exact if_neg fun hc => hg ((layers.cycle c (by simp [split]) f hf g).mp hc)
    · exact wf.inflow_congr fun g _ =>
        ⟨.rfl, fun hg => he g (layers.mem_of_reaches wf split' hf hg.1)⟩
  refine ⟨extended, ?_, fun f hf => ?_⟩
  · rw [h.known_eq, layers.settle_eq wf split, hflatten, List.filterMap_append, List.map_append]
    congr 1
    · refine List.map_congr_left fun g hg => ?_
      obtain ⟨id, hid, hg⟩ := List.mem_filterMap.mp hg
      obtain ⟨-, rfl⟩ := wf.function?_eq_some.mp hg
      rw [hbefore _ hid]
    · refine List.map_congr_left fun g hg => ?_
      obtain ⟨id, hid, hg⟩ := List.mem_filterMap.mp hg
      obtain ⟨-, rfl⟩ := wf.function?_eq_some.mp hg
      rw [show extended g.id = p.estimate entries rounds g.id from if_pos hid]
  · rw [hsame f hf]
    rw [hflatten, List.mem_append] at hf
    rcases hf with hf | hf
    · rw [hbefore f hf, h.solves f hf]
    · exact if_pos hf

theorem Layers.resolves {components : List (List FunctionId)} (wf : p.WellFormed)
    (layers : p.Layers components) (rounds : Nat) : ∃ entries, p.Resolves rounds components
      (components.foldl (p.settle rounds (CallGraph.ofSnapshot p.snapshot)) []) entries := by
  suffices h : ∀ after before known entries, components = before ++ after →
      p.Resolves rounds before known entries → ∃ entries, p.Resolves rounds components
        (after.foldl (p.settle rounds (CallGraph.ofSnapshot p.snapshot)) known) entries from
    h components [] [] (fun _ => 0) rfl ⟨rfl, by simp⟩
  intro after
  induction after with
  | nil =>
    intro before known entries split h
    rw [List.append_nil] at split
    exact ⟨entries, split ▸ h⟩
  | cons c after ih =>
    intro before known entries split h
    obtain ⟨entries', h'⟩ := layers.resolves_settle wf split h
    exact ih (before ++ [c]) _ entries' (by simp [split]) h'

/-- **The entries of a profile solve the equation.** -/
theorem WellFormed.entries_eq (wf : p.WellFormed) (rounds : Nat)
    (hf : f ∈ p.functions.map FunctionBody.id) :
    (p.entries rounds).of f = p.estimate (p.entries rounds).of rounds f := by
  obtain ⟨entries, hknown, hsolves⟩ := wf.layers.resolves wf rounds
  have hmem : ∀ {f}, f ∈ p.functions.map FunctionBody.id →
      f ∈ (CallGraph.ofSnapshot p.snapshot).components.reverse.flatten :=
    fun hf => wf.layers.perm.mem_iff.mpr hf
  have hof : ∀ f ∈ p.functions.map FunctionBody.id, (p.entries rounds).of f = entries f := by
    intro f hf
    have hlist : p.entries rounds =
        ((CallGraph.ofSnapshot p.snapshot).components.reverse.flatten.filterMap p.function?).map
          fun g => (g, entries g.id) := hknown
    rw [Entries.of, hlist, List.find?_map]
    cases hfind : ((CallGraph.ofSnapshot p.snapshot).components.reverse.flatten.filterMap
        p.function?).find? ((fun x : FunctionBody × Nat => decide (x.1.id = f)) ∘
          fun g => (g, entries g.id)) with
    | some g =>
      have hid : g.id = f := by simpa using List.find?_some hfind
      simp [hid]
    | none =>
      obtain ⟨body, hbody, hid⟩ := List.mem_map.mp hf
      have hbody' := List.mem_filterMap.mpr ⟨f, hmem hf, wf.function?_eq_some.mpr ⟨hbody, hid⟩⟩
      exact absurd hid (by simpa using List.find?_eq_none.mp hfind body hbody')
  rw [hof f hf, hsolves f (hmem hf)]
  refine (estimate_congr (· ∈ p.functions.map FunctionBody.id) (fun f _ => ?_)
    (fun f _ e e' he => ?_) rounds hf).symm
  · rw [outerFlow, outerFlow, wf.inflow_congr fun g hcalls => ⟨.rfl, fun _ => ?_⟩]
    exact hof g (wf.mem_of_calls hcalls)
  · exact wf.inflow_congr fun g hcalls => ⟨.rfl, fun _ => he g (wf.mem_of_calls hcalls)⟩

/-- **Solutions agree on functions along with their callers.** The induction goes from the highest
rank down: callers off the cycle of a function have a higher rank, and the functions on it have the
same. -/
theorem WellFormed.entries_unique (wf : p.WellFormed) (among : FunctionId → Prop)
    (callers : ∀ f g, among f → p.Calls g f → among g)
    (h : ∀ f ∈ p.functions.map FunctionBody.id, among f → entries f = p.estimate entries rounds f)
    (h' : ∀ f ∈ p.functions.map FunctionBody.id, among f →
      entries' f = p.estimate entries' rounds f)
    (hf : f ∈ p.functions.map FunctionBody.id) (hamong : among f) : entries f = entries' f := by
  have hreach : ∀ {f g}, among f → ReflTransGen p.Calls g f → among g := by
    intro f g hf hg
    induction hg using ReflTransGen.head_induction_on with
    | refl => exact hf
    | head hcalls _ ih => exact callers _ _ ih hcalls
  induction hrank : p.allCallees.length + 1 - p.rank f using Nat.strongRecOn generalizing f with
  | ind n ih =>
    rw [h f hf hamong, h' f hf hamong]
    refine estimate_congr (p.Mutual f) (fun x hx => ?_) (fun x hx e e' he => ?_) rounds (.refl p f)
    · rw [outerFlow, outerFlow, wf.inflow_congr fun g hcalls => ⟨.rfl, fun hg => ?_⟩]
      have hlt := rank_lt_of_calls hcalls hg
      have hle := p.rank_le_calls g
      have heq := hx.rank_eq
      exact ih _ (by omega) (wf.mem_of_calls hcalls)
        (hreach hamong ((ReflTransGen.single hcalls).trans hx.2)) rfl
    · exact wf.inflow_congr fun g _ => ⟨.rfl, fun hg => he g (hx.trans hg.symm)⟩

end Program

end Inlining
