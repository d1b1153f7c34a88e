import Inlining.CallGraph
import Inlining.Proofs.Graph.Components
import Mathlib.Data.List.Induction

/-!
# Cycles of calls

A function is recursive in the call graph exactly if a path of calls leads from it back to itself.
The graph has numbers for nodes, and for a snapshot that lists every function once they are the
positions in the list; edges then say the same as calls, and a component with a cycle in it consists
of the functions on such cycles. What holds of components of nodes holds of components of functions.

## Main definitions

* `Snapshot.Calls` — one function of a snapshot calls another

## Main results

* `CallGraph.leads_iff` — edges are calls
* `CallGraph.isRecursive_iff` — recursive functions are those on a cycle of calls
* `CallGraph.perm_components`, `CallGraph.mem_component_iff`,
  `CallGraph.mem_take_components_of_calls` — components and their order
-/

namespace Inlining

namespace Snapshot

/-- One function of a snapshot calls another. -/
def Calls (s : Snapshot) (f g : FunctionId) : Prop :=
  f ∈ s.functions ∧ g ∈ s.functions ∧ ∃ location, (location, g) ∈ s.callees f

/-- All calls in the functions of a snapshot, as pairs of caller and callee. -/
def callPairs (s : Snapshot) : List (FunctionId × FunctionId) :=
  s.functions.flatMap fun f => (s.callees f).map fun call => (f, call.2)

theorem mem_callPairs {s : Snapshot} {f g : FunctionId} :
    (f, g) ∈ s.callPairs ↔ f ∈ s.functions ∧ ∃ location, (location, g) ∈ s.callees f := by
  simp [callPairs]

end Snapshot

namespace CallGraph

/-! ### Components with a cycle -/

theorem one_lt_length_iff {c : List Nat} (hnodup : c.Nodup) {v : Nat} (hv : v ∈ c) :
    1 < c.length ↔ ∃ w ∈ c, w ≠ v := by
  match c with
  | [] => cases hv
  | [a] => simp_all
  | a :: b :: rest =>
    refine iff_of_true (by simp) ?_
    have hab : a ≠ b := fun heq => (List.nodup_cons.mp hnodup).1 (heq ▸ List.mem_cons_self)
    by_cases hav : a = v
    · exact ⟨b, by simp, fun hbv => hab (hav.trans hbv.symm)⟩
    · exact ⟨a, by simp, hav⟩

/-- A component is a cycle if and only if there is a way from one of its nodes back to it. -/
theorem isCycle_iff {g : Graph FunctionId Unit} (wf : g.WellFormed) {c : List Nat}
    (hc : c ∈ g.components) {v : Nat} (hv : v ∈ c) :
    isCycle g c = true ↔ Relation.TransGen g.Leads v v := by
  have hnodup : c.Nodup := (List.nodup_flatten.mp wf.nodup_components).1 c hc
  rw [isCycle, Bool.or_eq_true, decide_eq_true_eq, one_lt_length_iff hnodup hv, List.any_eq_true]
  constructor
  · rintro (⟨w, hw, hne⟩ | ⟨w, hw, hloop⟩)
    · have hvw := wf.reaches_of_mem_component hc hv hw
      have hwv := wf.reaches_of_mem_component hc hw hv
      obtain heq | htrans := Relation.reflTransGen_iff_eq_or_transGen.mp hvw
      · exact absurd heq hne
      · exact htrans.trans_left hwv
    · have hvw := wf.reaches_of_mem_component hc hv hw
      have hwv := wf.reaches_of_mem_component hc hw hv
      exact (Relation.TransGen.tail' hvw (wf.hasEdge_iff.mp hloop)).trans_left hwv
  · intro hcycle
    obtain ⟨w, hleads, hback⟩ := Relation.TransGen.head'_iff.mp hcycle
    by_cases hvw : w = v
    · subst hvw
      exact .inr ⟨w, hv, wf.hasEdge_iff.mpr hleads⟩
    · exact .inl ⟨w, wf.mem_component_of_reaches hc hv (.single hleads) hback, hvw⟩

/-! ### Nodes and edges -/

/-- The nodes stand for the functions in their order, and there are no edges yet. -/
structure Numbers (functions : List FunctionId) (graph : Graph FunctionId Unit)
    (nodeOf : FunctionMap Nat) : Prop where
  built : graph.Built
  nodes : graph.nodes = functions.toArray
  nodeOf_iff : ∀ f (i : Nat), nodeOf[f]? = some i ↔ functions[i]? = some f

theorem Numbers.lt_of_nodeOf {functions : List FunctionId} {graph : Graph FunctionId Unit}
    {nodeOf : FunctionMap Nat} (h : Numbers functions graph nodeOf) {f : FunctionId} {i : Nat}
    (hi : nodeOf[f]? = some i) : i < graph.nodes.size := by
  obtain ⟨hlt, -⟩ := List.getElem?_eq_some_iff.mp ((h.nodeOf_iff f i).mp hi)
  simpa [h.nodes] using hlt

theorem nodesOf_append (functions : List FunctionId) (f : FunctionId) :
    nodesOf (functions ++ [f]) =
      (((nodesOf functions).1.addNode f).2,
        (nodesOf functions).2.insert f (nodesOf functions).1.nodes.size) := by
  rw [nodesOf, List.foldl_append]
  rfl

theorem numbers_nodesOf (functions : List FunctionId) (distinct : functions.Nodup) :
    Numbers functions (nodesOf functions).1 (nodesOf functions).2 ∧
      (nodesOf functions).1.edges = #[] := by
  induction functions using List.reverseRecOn with
  | nil => exact ⟨⟨.empty, rfl, by simp [nodesOf]⟩, rfl⟩
  | append_singleton functions f ih =>
    rw [List.nodup_append] at distinct
    obtain ⟨ih, hedges⟩ := ih distinct.1
    have hsize : (nodesOf functions).1.nodes.size = functions.length := by simp [ih.nodes]
    rw [nodesOf_append]
    refine ⟨⟨ih.built.addNode f, by simp [Graph.addNode, ih.nodes], fun g i => ?_⟩, hedges⟩
    have hlast : ∀ h, (functions ++ [f])[i]? = some h ↔
        functions[i]? = some h ∨ i = functions.length ∧ f = h := by
      intro h
      grind
    rw [Std.ExtTreeMap.getElem?_insert, hsize, hlast]
    by_cases hfg : f = g
    · subst hfg
      have hnew : functions[i]? ≠ some f := fun hi =>
        distinct.2.2 f (List.mem_of_getElem? hi) f (List.mem_singleton.mpr rfl) rfl
      simp [hnew, eq_comm]
    · simp [hfg, ih.nodeOf_iff]

/-- Links the nodes of caller and callee. -/
def linkCall (nodeOf : FunctionMap Nat) (graph : Graph FunctionId Unit)
    (call : FunctionId × FunctionId) : Graph FunctionId Unit :=
  match nodeOf[call.1]?, nodeOf[call.2]? with
  | some source, some target => graph.link source target ()
  | _, _ => graph

theorem edgesOf_eq (s : Snapshot) (nodeOf : FunctionMap Nat) (graph : Graph FunctionId Unit) :
    edgesOf s nodeOf graph = s.callPairs.foldl (linkCall nodeOf) graph := by
  rw [edgesOf, Snapshot.callPairs, List.foldl_flatMap]
  simp only [List.foldl_map]
  rfl

/-- One more call gives an edge between the nodes of its functions. -/
theorem leads_linkCall {functions : List FunctionId} {graph : Graph FunctionId Unit}
    {nodeOf : FunctionMap Nat} (h : Numbers functions graph nodeOf)
    (call : FunctionId × FunctionId) :
    Numbers functions (linkCall nodeOf graph call) nodeOf ∧
      ∀ i j : Nat, (linkCall nodeOf graph call).Leads i j ↔
        graph.Leads i j ∨ functions[i]? = some call.1 ∧ functions[j]? = some call.2 := by
  simp only [← h.nodeOf_iff]
  rw [linkCall]
  split
  · rename_i source target hsource htarget
    refine ⟨⟨h.built.link source target (), ?_, h.nodeOf_iff⟩, fun i j => ?_⟩
    · rw [Graph.nodes_link, h.nodes]
    · rw [h.built.wellFormed.leads_link () (h.lt_of_nodeOf hsource) (h.lt_of_nodeOf htarget),
        hsource, htarget]
      simp
  · rename_i hnone
    refine ⟨h, fun i j => (or_iff_left ?_).symm⟩
    rintro ⟨hi, hj⟩
    exact hnone i j hi hj

theorem leads_foldl_linkCall {functions : List FunctionId} {graph : Graph FunctionId Unit}
    {nodeOf : FunctionMap Nat} (h : Numbers functions graph nodeOf)
    (calls : List (FunctionId × FunctionId)) :
    Numbers functions (calls.foldl (linkCall nodeOf) graph) nodeOf ∧
      ∀ i j : Nat, (calls.foldl (linkCall nodeOf) graph).Leads i j ↔ graph.Leads i j ∨
        ∃ call ∈ calls, functions[i]? = some call.1 ∧ functions[j]? = some call.2 := by
  induction calls generalizing graph with
  | nil => exact ⟨h, by simp⟩
  | cons call rest ih =>
    obtain ⟨hnumbers, hleads⟩ := leads_linkCall h call
    obtain ⟨hall, hiff⟩ := ih hnumbers
    refine ⟨hall, fun i j => ?_⟩
    rw [List.foldl_cons, hiff, hleads, or_assoc]
    simp

theorem components_eq (s : Snapshot) : (ofSnapshot s).components =
    (ofSnapshot s).graph.components.map (functionsAt (ofSnapshot s).graph) := rfl

/-- Reading a list place by place. -/
theorem filterMap_getElem?_range {α : Type} (l : List α) :
    (List.range l.length).filterMap (l[·]?) = l := by
  induction l using List.reverseRecOn with
  | nil => rfl
  | append_singleton l a ih =>
    have hold : (List.range l.length).filterMap ((l ++ [a])[·]?) =
        (List.range l.length).filterMap (l[·]?) :=
      List.filterMap_congr fun i hi => List.getElem?_append_left (List.mem_range.mp hi)
    rw [List.length_append, List.length_singleton, List.range_succ, List.filterMap_append, hold, ih]
    simp

section OfSnapshot

variable {s : Snapshot} (distinct : s.functions.Nodup)
include distinct

theorem ofSnapshot_numbers :
    Numbers s.functions (ofSnapshot s).graph (ofSnapshot s).nodeOf := by
  obtain ⟨hnodes, -⟩ := numbers_nodesOf s.functions distinct
  have hedges := (leads_foldl_linkCall hnodes s.callPairs).1
  rw [← edgesOf_eq] at hedges
  exact hedges

/-- Edges are calls. -/
theorem leads_iff {i j : Nat} : (ofSnapshot s).graph.Leads i j ↔
    ∃ f g, s.functions[i]? = some f ∧ s.functions[j]? = some g ∧ s.Calls f g := by
  obtain ⟨hnodes, hempty⟩ := numbers_nodesOf s.functions distinct
  have hleads := (leads_foldl_linkCall hnodes s.callPairs).2 i j
  rw [← edgesOf_eq] at hleads
  have hnone : ¬ (nodesOf s.functions).1.Leads i j := by simp [Graph.Leads, hempty]
  refine hleads.trans ?_
  simp only [hnone, false_or, Prod.exists, Snapshot.mem_callPairs]
  constructor
  · rintro ⟨f, g, ⟨hf, hcall⟩, hi, hj⟩
    exact ⟨f, g, hi, hj, hf, List.mem_of_getElem? hj, hcall⟩
  · rintro ⟨f, g, hi, hj, hf, -, hcall⟩
    exact ⟨f, g, ⟨hf, hcall⟩, hi, hj⟩

/-- Paths of edges are paths of calls. -/
theorem transGen_leads_iff {i j : Nat} {f g : FunctionId} (hi : s.functions[i]? = some f)
    (hj : s.functions[j]? = some g) :
    Relation.TransGen (ofSnapshot s).graph.Leads i j ↔ Relation.TransGen s.Calls f g := by
  constructor
  · intro hpath
    have hlift : Relation.TransGen s.Calls (s.functions[i]?.getD f) (s.functions[j]?.getD f) := by
      refine hpath.lift (fun j => s.functions[j]?.getD f) fun a b hleads => ?_
      obtain ⟨x, y, hx, hy, hcalls⟩ := (leads_iff distinct).mp hleads
      simpa [Function.onFun, hx, hy] using hcalls
    simpa [hi, hj] using hlift
  · intro hpath
    have hplace : ∀ {g}, g ∈ s.functions → s.functions[s.functions.idxOf g]? = some g :=
      fun hg => List.getElem?_idxOf hg
    have hlift : Relation.TransGen (ofSnapshot s).graph.Leads
        (s.functions.idxOf f) (s.functions.idxOf g) :=
      hpath.lift s.functions.idxOf fun x y hcalls =>
        (leads_iff distinct).mpr ⟨x, y, hplace hcalls.1, hplace hcalls.2.1, hcalls⟩
    have hidx : ∀ {k : Nat} {h : FunctionId}, s.functions[k]? = some h →
        k = s.functions.idxOf h := by
      intro k h hk
      rw [← List.getElem?_inj (List.getElem?_eq_some_iff.mp hk).1 distinct, hk,
        hplace (List.mem_of_getElem? hk)]
    rwa [hidx hi, hidx hj]

theorem reaches_iff {i j : Nat} {f g : FunctionId} (hi : s.functions[i]? = some f)
    (hj : s.functions[j]? = some g) :
    (ofSnapshot s).graph.Reaches i j ↔ Relation.ReflTransGen s.Calls f g := by
  have hsame : j = i ↔ g = f := by
    rw [← List.getElem?_inj (List.getElem?_eq_some_iff.mp hj).1 distinct, hi, hj,
      Option.some.injEq]
  rw [Graph.Reaches, Relation.reflTransGen_iff_eq_or_transGen,
    Relation.reflTransGen_iff_eq_or_transGen, hsame, transGen_leads_iff distinct hi hj]

/-- The functions that nodes stand for. -/
theorem mem_functionsAt {nodes : List Nat} {f : FunctionId} :
    f ∈ functionsAt (ofSnapshot s).graph nodes ↔ ∃ v ∈ nodes, s.functions[v]? = some f := by
  simp only [functionsAt, List.mem_filterMap, (ofSnapshot_numbers distinct).nodes,
    List.getElem?_toArray]

/-- **Recursive functions are those on a cycle of calls.** -/
theorem isRecursive_iff {f : FunctionId} :
    (ofSnapshot s).isRecursive f = true ↔ Relation.TransGen s.Calls f f := by
  have hnumbers := ofSnapshot_numbers distinct
  have wf := hnumbers.built.wellFormed
  have hmem : (ofSnapshot s).isRecursive f = true ↔ ∃ c ∈ (ofSnapshot s).graph.components,
      isCycle (ofSnapshot s).graph c = true ∧ ∃ v ∈ c, s.functions[v]? = some f := by
    have hrecursive : (ofSnapshot s).recursive = Std.ExtTreeSet.ofList
        (((ofSnapshot s).graph.components.filter (isCycle (ofSnapshot s).graph)).flatMap
          (functionsAt (ofSnapshot s).graph)) := rfl
    simp only [isRecursive, hrecursive, Std.ExtTreeSet.contains_ofList, List.contains_iff_mem,
      List.mem_flatMap, List.mem_filter, mem_functionsAt distinct, and_assoc]
  rw [hmem]
  constructor
  · rintro ⟨c, hc, hcycle, v, hv, hf⟩
    exact (transGen_leads_iff distinct hf hf).mp ((isCycle_iff wf hc hv).mp hcycle)
  · intro hcycle
    obtain ⟨g, hcalls, -⟩ := Relation.TransGen.head'_iff.mp hcycle
    obtain ⟨v, hv⟩ := List.mem_iff_getElem?.mp hcalls.1
    have hlt : v < (ofSnapshot s).graph.nodes.size := by
      simpa [hnumbers.nodes] using (List.getElem?_eq_some_iff.mp hv).1
    obtain ⟨c, hc, hvc⟩ := List.mem_flatten.mp (wf.mem_components.mpr hlt)
    refine ⟨c, hc, ?_, v, hvc, hv⟩
    exact (isCycle_iff wf hc hvc).mpr ((transGen_leads_iff distinct hv hv).mpr hcycle)

/-! ### Components -/

/-- Every function lies in one component. -/
theorem perm_components : (ofSnapshot s).components.flatten.Perm s.functions := by
  have hnumbers := ofSnapshot_numbers distinct
  have hsize : (ofSnapshot s).graph.nodes.size = s.functions.length := by simp [hnumbers.nodes]
  obtain ⟨-, hperm, -⟩ := Graph.components_partition hnumbers.built
  have hflatten : (ofSnapshot s).components.flatten =
      (ofSnapshot s).graph.components.flatten.filterMap (s.functions[·]?) := by
    rw [components_eq, List.filterMap_flatten]
    congr 2
    funext c
    simp only [functionsAt, hnumbers.nodes, List.getElem?_toArray]
  rw [hflatten]
  refine (hperm.filterMap _).trans (.of_eq ?_)
  rw [hsize, filterMap_getElem?_range]

/-- Two functions lie in the same component if and only if each comes to call the other. -/
theorem mem_component_iff {c : List FunctionId} (hc : c ∈ (ofSnapshot s).components)
    {f g : FunctionId} (hf : f ∈ c) : g ∈ c ↔
      Relation.ReflTransGen s.Calls f g ∧ Relation.ReflTransGen s.Calls g f := by
  have wf := (ofSnapshot_numbers distinct).built.wellFormed
  rw [components_eq] at hc
  obtain ⟨nodes, hnodes, rfl⟩ := List.mem_map.mp hc
  obtain ⟨i, hi, hif⟩ := (mem_functionsAt distinct).mp hf
  rw [mem_functionsAt distinct]
  constructor
  · rintro ⟨j, hj, hjg⟩
    rw [← reaches_iff distinct hif hjg, ← reaches_iff distinct hjg hif]
    exact ⟨wf.reaches_of_mem_component hnodes hi hj, wf.reaches_of_mem_component hnodes hj hi⟩
  · rintro ⟨hfg, hgf⟩
    have hg : g ∈ s.functions := by
      rcases Relation.ReflTransGen.cases_tail hfg with rfl | ⟨_, -, hcalls⟩
      · exact List.mem_of_getElem? hif
      · exact hcalls.2.1
    obtain ⟨j, hjg⟩ := List.mem_iff_getElem?.mp hg
    rw [← reaches_iff distinct hif hjg] at hfg
    rw [← reaches_iff distinct hjg hif] at hgf
    exact ⟨j, wf.mem_component_of_reaches hnodes hi hfg hgf, hjg⟩

/-- No call leads out of the first few components. -/
theorem mem_take_components_of_calls {k : Nat} {f g : FunctionId}
    (hf : f ∈ ((ofSnapshot s).components.take k).flatten) (hcalls : s.Calls f g) :
    g ∈ ((ofSnapshot s).components.take k).flatten := by
  have wf := (ofSnapshot_numbers distinct).built.wellFormed
  have hmem : ∀ h, h ∈ ((ofSnapshot s).components.take k).flatten ↔
      ∃ v ∈ ((ofSnapshot s).graph.components.take k).flatten, s.functions[v]? = some h := by
    intro h
    rw [components_eq, ← List.map_take]
    simp only [List.mem_flatten, List.mem_map, exists_exists_and_eq_and, mem_functionsAt distinct]
    constructor
    · rintro ⟨c, hc, v, hv, hh⟩
      exact ⟨v, ⟨c, hc, hv⟩, hh⟩
    · rintro ⟨v, ⟨c, hc, hv⟩, hh⟩
      exact ⟨c, hc, v, hv, hh⟩
  rw [hmem] at hf ⊢
  obtain ⟨i, hi, hif⟩ := hf
  obtain ⟨j, hjg⟩ := List.mem_iff_getElem?.mp hcalls.2.1
  exact ⟨j, wf.mem_take_of_leads hi ((leads_iff distinct).mpr ⟨f, g, hif, hjg, hcalls⟩), hjg⟩

end OfSnapshot

end CallGraph

end Inlining
