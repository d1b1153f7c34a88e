import Inlining.Proofs.Program.CallPaths
import Inlining.Proofs.Program.Edits
import Inlining.Proofs.Traversal

/-!
# The order of calls

The call graph lists what a function calls in the order of the first calls, and it lists all
functions with callers before callees. Both orders go back to the order in which edges are put in:
an edge that is there already is not put in again, so that a second call changes nothing, and the
successors of a node grow at their end.

An edge can be refused where one of its ends is missing. In the graph of a program none is, since
the nodes come first, and edges are put in between nodes that were looked up.

## Main definitions

* `Program.CallsWithin` — one function of a program calls another

## Main results

* `CallGraph.build_eq` — no edge is refused
* `CallGraph.callees_eq` — callees come in the order of the first calls
* `CallGraph.idxOf_topological_lt` — callers stand before callees unless there is a way back
* `Program.callGraph_exact` — what the call graph of a program says about calls
-/

namespace Inlining

/-! ### First occurrences -/

/-- One more member is kept if it is the first of its kind. -/
theorem eraseDups_concat {α : Type} [DecidableEq α] (l : List α) (a : α) :
    (l ++ [a]).eraseDups = if a ∈ l then l.eraseDups else l.eraseDups ++ [a] := by
  rw [List.eraseDups_append]
  by_cases ha : a ∈ l <;> simp [List.removeAll, ha, List.eraseDups_cons]

/-- The kept members stand in the order in which they first occur in the whole list. -/
theorem pairwise_idxOf_eraseDups_filter {α : Type} [DecidableEq α] (keep : α → Bool) (l : List α) :
    (l.filter keep).eraseDups.Pairwise fun a b => l.idxOf a < l.idxOf b := by
  induction l using List.reverseRecOn with
  | nil => simp
  | append_singleton l c ih =>
    have hplace : ∀ {a}, a ∈ (l.filter keep).eraseDups →
        a ∈ l ∧ (l ++ [c]).idxOf a = l.idxOf a := by
      intro a ha
      have hmem : a ∈ l := (List.mem_filter.mp (List.mem_eraseDups.mp ha)).1
      exact ⟨hmem, List.idxOf_append_of_mem hmem⟩
    have hold : (l.filter keep).eraseDups.Pairwise fun a b =>
        (l ++ [c]).idxOf a < (l ++ [c]).idxOf b := by
      refine ih.imp_of_mem fun ha hb hlt => ?_
      rwa [(hplace ha).2, (hplace hb).2]
    rw [List.filter_append]
    by_cases hc : keep c = true
    · rw [List.filter_singleton, hc, cond_true, eraseDups_concat]
      split
      · exact hold
      · rename_i hnew
        have hcl : c ∉ l := fun hmem => hnew (List.mem_filter.mpr ⟨hmem, hc⟩)
        refine List.pairwise_append.mpr ⟨hold, List.pairwise_singleton _ _, ?_⟩
        intro a ha b hb
        obtain rfl := List.mem_singleton.mp hb
        rw [(hplace ha).2, List.idxOf_append_of_notMem hcl]
        have := List.idxOf_lt_length_of_mem (hplace ha).1
        omega
    · simpa [hc] using hold

/-- What stands in the first part of a list has a lower position than what does not. -/
theorem idxOf_append_lt {α : Type} [DecidableEq α] {front : List α} (back : List α) {a b : α}
    (ha : a ∈ front) (hb : b ∉ front) : (front ++ back).idxOf a < (front ++ back).idxOf b := by
  rw [List.idxOf_append_of_mem ha, List.idxOf_append_of_notMem hb]
  have := List.idxOf_lt_length_of_mem ha
  omega

namespace Graph

variable {ν ε : Type}

/-- Between nodes that exist no edge is refused. -/
theorem connect_eq_ok {g : Graph ν ε} {source target : Nat} (value : ε)
    (hsource : source < g.nodes.size) (htarget : target < g.nodes.size) :
    connect source target value g = .ok () (g.link source target value) := by
  have hadd : addEdge source target value g = .ok ⟨⟩ (g.attach source target value) := by
    rw [addEdge_apply, if_neg hsource.not_ge, if_neg htarget.not_ge]
  by_cases hedge : g.hasEdge source target
  · simp [connect, link, hedge]
  · simp [connect, link, hedge, hadd, Update.after]

end Graph

namespace CallGraph

/-! ### Putting the graph together -/

variable {functions : List FunctionId} {graph : Graph FunctionId Unit} {nodeOf : FunctionMap Nat}

theorem connectCall_eq_ok (h : Numbers functions graph nodeOf) (call : FunctionId × FunctionId) :
    connectCall nodeOf call graph = .ok () (linkCall nodeOf graph call) := by
  rw [connectCall, linkCall]
  cases hsource : nodeOf[call.1]? with
  | none => cases nodeOf[call.2]? <;> rfl
  | some source =>
    cases htarget : nodeOf[call.2]? with
    | none => rfl
    | some target =>
      exact Graph.connect_eq_ok () (h.lt_of_nodeOf hsource) (h.lt_of_nodeOf htarget)

theorem connectAll_eq_ok {s : Snapshot} (h : Numbers s.functions graph nodeOf) :
    connectAll s nodeOf graph = .ok () (edgesOf s nodeOf graph) := by
  refine (forM_eq_foldl (Numbers s.functions · nodeOf)
    (fun caller _ hgraph => ?_) s.functions h).1
  refine forM_eq_foldl (Numbers s.functions · nodeOf)
    (fun call _ h => ?_) (s.callees caller) hgraph
  exact ⟨connectCall_eq_ok h (caller, call.2), (leads_linkCall h (caller, call.2)).1⟩

/-- **No edge is refused.** -/
theorem build_eq {s : Snapshot} (distinct : s.functions.Nodup) :
    build s = .ok (ofSnapshot s) := by
  simp only [build, Update.exec, connectAll_eq_ok (numbers_nodesOf s.functions distinct).1]
  rfl

/-! ### Callees -/

/-- The functions called from one function, once for each call. -/
def calledFrom (functions : List FunctionId) (calls : List (FunctionId × FunctionId))
    (f : FunctionId) : List FunctionId :=
  ((calls.filter fun call => call.1 = f).map Prod.snd).filter functions.contains

/-- One more call adds a callee to those of its caller, unless it is one of them. -/
theorem functionsAt_successors_linkCall (h : Numbers functions graph nodeOf) {i : Nat}
    {f : FunctionId} (hi : functions[i]? = some f) (call : FunctionId × FunctionId) :
    functionsAt (linkCall nodeOf graph call) ((linkCall nodeOf graph call).successors i) =
      if (call.1 = f ∧ call.2 ∈ functions) ∧ call.2 ∉ functionsAt graph (graph.successors i) then
        functionsAt graph (graph.successors i) ++ [call.2]
      else functionsAt graph (graph.successors i) := by
  have hnode : nodeOf[f]? = some i := (h.nodeOf_iff f i).mpr hi
  have hat : functionsAt (linkCall nodeOf graph call) = functionsAt graph := by
    funext nodes
    simp only [functionsAt, (leads_linkCall h call).1.nodes, h.nodes]
  rw [hat]
  by_cases hcall : call.1 = f ∧ call.2 ∈ functions
  · obtain ⟨target, htarget⟩ := List.mem_iff_getElem?.mp hcall.2
    have hcallee : nodeOf[call.2]? = some target := (h.nodeOf_iff call.2 target).mpr htarget
    -- The node of the callee is the only one that stands for it.
    have hmem : call.2 ∈ functionsAt graph (graph.successors i) ↔ target ∈ graph.successors i := by
      simp only [functionsAt, List.mem_filterMap, h.nodes, List.getElem?_toArray, ← h.nodeOf_iff,
        hcallee, Option.some.injEq, exists_eq_right']
    have hlink : linkCall nodeOf graph call = graph.link i target () := by
      simp only [linkCall, hcall.1, hnode, hcallee]
    rw [hlink, h.built.wellFormed.successors_link () i (h.lt_of_nodeOf hnode)
      (h.lt_of_nodeOf hcallee)]
    simp only [true_and, hcall, hmem]
    split
    · simp [functionsAt, h.nodes, htarget]
    · rfl
  · rw [if_neg fun hboth => hcall hboth.1]
    congr 1
    rw [linkCall]
    split
    · rename_i source target hsource htarget
      rw [h.built.wellFormed.successors_link () i (h.lt_of_nodeOf hsource)
        (h.lt_of_nodeOf htarget), if_neg]
      rintro ⟨rfl, -⟩
      refine hcall ⟨?_, List.mem_of_getElem? ((h.nodeOf_iff _ _).mp htarget)⟩
      exact Option.some.inj (((h.nodeOf_iff _ _).mp hsource).symm.trans hi)
    · rfl

theorem functionsAt_successors_foldl (h : Numbers functions graph nodeOf)
    (hempty : graph.edges = #[]) {i : Nat} {f : FunctionId} (hi : functions[i]? = some f)
    (calls : List (FunctionId × FunctionId)) :
    functionsAt (calls.foldl (linkCall nodeOf) graph)
        ((calls.foldl (linkCall nodeOf) graph).successors i) =
      (calledFrom functions calls f).eraseDups := by
  induction calls using List.reverseRecOn with
  | nil => simp [h.built.wellFormed.successors, hempty, functionsAt, calledFrom]
  | append_singleton calls call ih =>
    have hnumbers := (leads_foldl_linkCall h calls).1
    rw [List.foldl_append, List.foldl_cons, List.foldl_nil,
      functionsAt_successors_linkCall hnumbers hi, ih]
    simp only [List.mem_eraseDups]
    by_cases hcall : call.1 = f ∧ call.2 ∈ functions
    · have hlast : calledFrom functions (calls ++ [call]) f =
          calledFrom functions calls f ++ [call.2] := by
        simp [calledFrom, hcall]
      rw [hlast, eraseDups_concat]
      by_cases hold : call.2 ∈ calledFrom functions calls f <;> simp [hcall, hold]
    · have hlast : calledFrom functions (calls ++ [call]) f = calledFrom functions calls f := by
        by_cases hcaller : call.1 = f
        · have hcallee : call.2 ∉ functions := fun hmem => hcall ⟨hcaller, hmem⟩
          simp [calledFrom, hcaller, hcallee]
        · simp [calledFrom, hcaller]
      rw [hlast, if_neg fun hboth => hcall hboth.1]

/-- The calls of one function among those of all. -/
theorem calledFrom_callPairs {s : Snapshot} (distinct : s.functions.Nodup) {f : FunctionId}
    (hf : f ∈ s.functions) : calledFrom s.functions s.callPairs f =
      ((s.callees f).map Prod.snd).filter s.functions.contains := by
  have hown : ∀ l : List FunctionId, l.Nodup → ((l.flatMap fun g =>
      (s.callees g).map fun call => (g, call.2)).filter fun call => call.1 = f).map Prod.snd =
        if f ∈ l then (s.callees f).map Prod.snd else [] := by
    intro l hl
    induction l with
    | nil => rfl
    | cons g rest ih =>
      rw [List.nodup_cons] at hl
      rw [List.flatMap_cons, List.filter_append, List.map_append, ih hl.2]
      by_cases hg : g = f
      · subst hg
        simp [hl.1, List.filter_map, Function.comp_def]
      · simp [hg, Ne.symm hg, List.filter_map, Function.comp_def]
  rw [calledFrom, Snapshot.callPairs, hown s.functions distinct, if_pos hf]

/-- **Callees come in the order of the first calls.** -/
theorem callees_eq {s : Snapshot} (distinct : s.functions.Nodup) {f : FunctionId}
    (hf : f ∈ s.functions) : (ofSnapshot s).callees f =
      (((s.callees f).map Prod.snd).filter s.functions.contains).eraseDups := by
  obtain ⟨hnumbers, hempty⟩ := numbers_nodesOf s.functions distinct
  obtain ⟨i, hi⟩ := List.mem_iff_getElem?.mp hf
  have hnode := ((ofSnapshot_numbers distinct).nodeOf_iff f i).mpr hi
  rw [callees, hnode, ← calledFrom_callPairs distinct hf,
    ← functionsAt_successors_foldl hnumbers hempty hi, ← edgesOf_eq]
  rfl

theorem callees_eq_nil {s : Snapshot} (distinct : s.functions.Nodup) {f : FunctionId}
    (hf : f ∉ s.functions) : (ofSnapshot s).callees f = [] := by
  have hnode : (ofSnapshot s).nodeOf[f]? = none := by
    refine Option.eq_none_iff_forall_ne_some.mpr fun i hi => hf ?_
    exact List.mem_of_getElem? (((ofSnapshot_numbers distinct).nodeOf_iff f i).mp hi)
  rw [callees, hnode]

/-! ### Callers before callees -/

theorem perm_topological {s : Snapshot} (distinct : s.functions.Nodup) :
    (ofSnapshot s).topological.Perm s.functions :=
  ((List.reverse_perm _).flatten).trans (perm_components distinct)

/-- **Callers stand before callees unless there is a way back.** -/
theorem idxOf_topological_lt {s : Snapshot} (distinct : s.functions.Nodup) {f g : FunctionId}
    (hcalls : s.Calls f g) (hback : ¬ Relation.TransGen s.Calls g f) :
    (ofSnapshot s).topological.idxOf f < (ofSnapshot s).topological.idxOf g := by
  obtain ⟨c, hc, hfc⟩ := List.mem_flatten.mp ((perm_components distinct).mem_iff.mpr hcalls.1)
  obtain ⟨before, after, hsplit⟩ := List.append_of_mem hc
  -- What `f` calls lies in a component up to its own, and not in its own.
  have hg : g ∈ before.flatten := by
    have htake : (ofSnapshot s).components.take (before.length + 1) = before ++ [c] := by
      rw [hsplit, List.take_length_add_append]
      rfl
    have hmem : g ∈ (before ++ [c]).flatten := by
      rw [← htake]
      refine mem_take_components_of_calls distinct ?_ hcalls
      simp [htake, hfc]
    have hout : g ∉ c := by
      intro hgc
      obtain ⟨-, hreach⟩ := (mem_component_iff distinct hc hfc).mp hgc
      rcases Relation.reflTransGen_iff_eq_or_transGen.mp hreach with rfl | htrans
      · exact hback (.single hcalls)
      · exact hback htrans
    simpa [hout] using hmem
  have htop : (ofSnapshot s).topological =
      (after.reverse.flatten ++ c) ++ before.reverse.flatten := by
    simp [topological, hsplit]
  have hnodup : (ofSnapshot s).topological.Nodup :=
    (perm_topological distinct).nodup_iff.mpr distinct
  rw [htop] at hnodup ⊢
  refine idxOf_append_lt _ (List.mem_append_right _ hfc) fun hfront => ?_
  exact (List.nodup_append.mp hnodup).2.2 g hfront g (by simpa using hg) rfl

end CallGraph

/-! ### Programs -/

theorem Block.located_map_snd (f : FunctionId) (b : Block) :
    (b.located f).map Prod.snd = b.code := by
  simp [located, Function.comp_def]

theorem FunctionBody.located_filterMap (f : FunctionBody) :
    f.located.filterMap (fun x => x.2.callee?) = f.callees := by
  rw [located, callees, List.filterMap_flatMap]
  congr 1
  funext b
  rw [← b.located_map_snd f.id, List.filterMap_map]
  rfl

namespace Program

/-- One function of a program calls another. -/
def CallsWithin (p : Program) (f g : FunctionId) : Prop :=
  p.Calls f g ∧ g ∈ p.functions.map FunctionBody.id

variable {p : Program} {f g : FunctionId}

/-- The inliner sees the callees of a function in program order. -/
theorem map_callees_snapshot (p : Program) (f : FunctionId) :
    (p.snapshot.callees f).map Prod.snd = p.calleesOf f := by
  have htransfers : p.snapshot.transfers f =
      ((p.function? f).map FunctionBody.transfers).getD [] := rfl
  rw [Snapshot.callees, htransfers, calleesOf]
  cases p.function? f with
  | none => rfl
  | some body =>
    simp only [Option.map_some, Option.getD_some, FunctionBody.transfers_filterMap,
      List.map_filterMap, ← FunctionBody.located_filterMap]
    congr 1
    funext x
    simp

theorem WellFormed.callsWithin_eq (wf : p.WellFormed) : p.CallsWithin = p.snapshot.Calls := by
  funext f g
  exact propext wf.calls_snapshot.symm

/-- Callees are listed in the order of the first calls, also for what is no function of the
program. -/
theorem WellFormed.callees_snapshot (wf : p.WellFormed) (f : FunctionId) :
    (CallGraph.ofSnapshot p.snapshot).callees f =
      ((p.calleesOf f).filter (p.functions.map FunctionBody.id).contains).eraseDups := by
  by_cases hf : f ∈ p.snapshot.functions
  · rw [CallGraph.callees_eq wf.nodup hf, map_callees_snapshot]
    rfl
  · have hnone : p.function? f = none := by
      rwa [wf.mem_functions_snapshot, Option.not_isSome_iff_eq_none] at hf
    rw [CallGraph.callees_eq_nil wf.nodup hf, calleesOf, hnone]
    rfl

/-- **What the call graph of a program says about calls.** It can be built; the callees of a
function are the functions of the program that it calls, each once, in the order of the first calls;
a function is recursive exactly if a path of calls leads from it back to itself; and the functions
are listed each once, callers before callees unless there is a way back. -/
theorem callGraph_exact (edited : p.Edited) : ∃ graph, CallGraph.build p.snapshot = .ok graph ∧
    graph = CallGraph.ofSnapshot p.snapshot ∧
    (∀ f, (∀ g, g ∈ graph.callees f ↔ p.CallsWithin f g) ∧ (graph.callees f).Nodup ∧
      (graph.callees f).Pairwise fun g h => (p.calleesOf f).idxOf g < (p.calleesOf f).idxOf h) ∧
    (∀ f, graph.isRecursive f = true ↔ Relation.TransGen p.CallsWithin f f) ∧
    graph.topological.Nodup ∧ graph.topological.Perm (p.functions.map FunctionBody.id) ∧
    ∀ f g, p.CallsWithin f g → ¬ Relation.TransGen p.CallsWithin g f →
      graph.topological.idxOf f < graph.topological.idxOf g := by
  have wf := edited.wellFormed
  have hperm := CallGraph.perm_topological (s := p.snapshot) wf.nodup
  refine ⟨_, CallGraph.build_eq wf.nodup, rfl, fun f => ?_, fun f => ?_,
    hperm.nodup_iff.mpr wf.nodup, hperm, fun f g hcalls hback => ?_⟩
  · have hfirst := pairwise_idxOf_eraseDups_filter (p.functions.map FunctionBody.id).contains
      (p.calleesOf f)
    rw [wf.callees_snapshot f]
    refine ⟨fun g => ?_, hfirst.imp fun hlt heq => ?_, hfirst⟩
    · rw [List.mem_eraseDups, List.mem_filter, List.contains_iff_mem]
      rfl
    · rw [heq] at hlt
      exact Nat.lt_irrefl _ hlt
  · rw [wf.callsWithin_eq, CallGraph.isRecursive_iff wf.nodup]
  · rw [wf.callsWithin_eq] at hcalls hback
    exact CallGraph.idxOf_topological_lt wf.nodup hcalls hback

/-- `main` calls `even` twice, `leaf` through a closure, and a function that is not there; `even`
and `odd` call one another, and `odd` calls `leaf`. -/
def tangle : Program :=
  assemble ["main", "even", "odd", "leaf"]
    [(0, .call ⟨1⟩), (0, .callClosure ⟨3⟩), (0, .call ⟨1⟩), (0, .call ⟨9⟩), (1, .call ⟨2⟩),
      (2, .call ⟨1⟩), (2, .call ⟨3⟩)] [(0, 100)]

theorem callGraph_exact_tangle : tangle.Edited ∧
    ∃ graph, CallGraph.build tangle.snapshot = .ok graph ∧
      ⟨3⟩ ∈ graph.callees ⟨0⟩ ∧ ⟨9⟩ ∉ graph.callees ⟨0⟩ ∧ graph.isRecursive ⟨1⟩ = true ∧
      graph.isRecursive ⟨3⟩ = false ∧
      graph.topological.idxOf ⟨2⟩ < graph.topological.idxOf ⟨3⟩ := by
  have edited : tangle.Edited := (built_assemble _ _ _).edited
  have hcalls : tangle.CallsWithin ⟨1⟩ ⟨2⟩ ∧ tangle.CallsWithin ⟨2⟩ ⟨1⟩ ∧
      tangle.CallsWithin ⟨2⟩ ⟨3⟩ ∧ tangle.CallsWithin ⟨0⟩ ⟨3⟩ := by
    simp only [CallsWithin, Calls]
    decide +kernel
  have hunknown : ¬ tangle.CallsWithin ⟨0⟩ ⟨9⟩ := by
    simp only [CallsWithin, Calls]
    decide +kernel
  -- `leaf` calls nothing, so no path begins there.
  have hleaf : ∀ f, ¬ Relation.TransGen tangle.CallsWithin ⟨3⟩ f := by
    have hnone : tangle.calleesOf ⟨3⟩ = [] := by decide +kernel
    intro f hpath
    obtain ⟨g, ⟨hcall, -⟩, -⟩ := Relation.TransGen.head'_iff.mp hpath
    rw [Calls, hnone] at hcall
    cases hcall
  obtain ⟨graph, hbuild, -, hcallees, hrecursive, -, -, horder⟩ := callGraph_exact edited
  refine ⟨edited, graph, hbuild, ((hcallees _).1 _).mpr hcalls.2.2.2,
    fun hmem => hunknown (((hcallees _).1 _).mp hmem), (hrecursive _).mpr ?_, ?_,
    horder _ _ hcalls.2.2.1 (hleaf _)⟩
  · exact .tail (.single hcalls.1) hcalls.2.1
  · rw [← Bool.not_eq_true, hrecursive]
    exact hleaf _

end Program

end Inlining
