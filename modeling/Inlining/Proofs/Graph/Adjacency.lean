import Inlining.Arithmetic
import Inlining.Graph.Basic
import Mathlib.Data.List.Basic
import Mathlib.Logic.Relation

/-!
# Edges and successors

The edges of a graph are kept in one list, and for every node there is a row with the positions of
the edges that leave it. The two say the same, `Graph.WellFormed`: the successors of a node are the
targets of its edges in the order of insertion, whichever way the graph was put together. Statements
about a graph are made about its edges, and the rows are for those who compute with them.

## Main definitions

* `Graph.Built` — the graphs that the operations build
* `Graph.Leads`, `Graph.Reaches` — edges and paths
* `Graph.WellFormed` — the rows agree with the edges

## Main results

* `Graph.addEdge_cases` — an edge is added or refused, according to its ends
* `Graph.Built.wellFormed` — built graphs are well-formed
* `Graph.WellFormed.mem_successors` — successors are the nodes at the other end of an edge
* `Graph.WellFormed.total_degrees` — every edge leaves one node
-/

namespace Inlining

namespace Graph

variable {ν ε : Type}

/-- The graphs that can be put together from nothing. An edge that is refused counts with the graph
that it leaves behind. -/
inductive Built : Graph ν ε → Prop where
  | empty : Built empty
  | addNode {g : Graph ν ε} (value : ν) : Built g → Built (g.addNode value).2
  | addEdge {g : Graph ν ε} (source target : Nat) (value : ε) :
      Built g → Built ((addEdge source target value).after g)
  | modifyNode {g : Graph ν ε} (node : Nat) (f : ν → ν) : Built g → Built (g.modifyNode node f)

/-- An edge leads from one node to another. -/
def Leads (g : Graph ν ε) (u v : Nat) : Prop := ∃ e ∈ g.edges, e.source = u ∧ e.target = v

/-- A path, which may be empty, leads from one node to another. -/
def Reaches (g : Graph ν ε) : Nat → Nat → Prop := Relation.ReflTransGen g.Leads

/-- Every node has a row, the rows hold the edges that leave the nodes, and edges have both ends. -/
structure WellFormed (g : Graph ν ε) : Prop where
  rows : g.outgoing.size = g.nodes.size
  inRange : ∀ (v : Nat) (row : Array Nat), g.outgoing[v]? = some row → ∀ e ∈ row, e < g.edges.size
  successors : ∀ v, g.successors v = (g.edges.toList.filter fun e => e.source = v).map Edge.target
  ends : ∀ e ∈ g.edges, e.source < g.nodes.size ∧ e.target < g.nodes.size

/-- An edge between nodes that exist is added; any other edge is refused, and nothing changes. -/
theorem addEdge_cases (g : Graph ν ε) (source target : Nat) (value : ε) :
    (source < g.nodes.size ∧ target < g.nodes.size) ∧
      addEdge source target value g = .ok () (g.attach source target value) ∨
    ¬ (source < g.nodes.size ∧ target < g.nodes.size) ∧
      ∃ error, addEdge source target value g = .error error g := by
  rw [addEdge_apply]
  by_cases hsource : g.nodes.size ≤ source
  · rw [if_pos hsource]
    exact .inr ⟨by omega, _, rfl⟩
  · rw [if_neg hsource]
    by_cases htarget : g.nodes.size ≤ target
    · rw [if_pos htarget]
      exact .inr ⟨by omega, _, rfl⟩
    · rw [if_neg htarget]
      exact .inl ⟨by omega, rfl⟩

/-- An edge is added if both its ends exist. -/
theorem after_addEdge (g : Graph ν ε) (source target : Nat) (value : ε) :
    (addEdge source target value).after g =
      if source < g.nodes.size ∧ target < g.nodes.size then g.attach source target value
      else g := by
  rcases addEdge_cases g source target value with ⟨hends, hadd⟩ | ⟨hends, error, hadd⟩
  · rw [Update.after, hadd, if_pos hends]
  · rw [Update.after, hadd, if_neg hends]

/-- A new node has an empty row. -/
theorem outgoing_addNode {g : Graph ν ε} (rows : g.outgoing.size = g.nodes.size) (value : ν)
    (v : Nat) :
    (g.addNode value).2.outgoing[v]? =
      if v = g.nodes.size then some #[] else g.outgoing[v]? := by
  simp only [addNode, Array.getElem?_push, rows]

/-- A new edge goes to the end of its source's row. -/
theorem outgoing_attach (g : Graph ν ε) (source target : Nat) (value : ε) (v : Nat) :
    (g.attach source target value).outgoing[v]? =
      g.outgoing[v]?.map fun row => if source = v then row.push g.edges.size else row := by
  simp only [attach, Array.getElem?_modify]
  split <;> simp

namespace WellFormed

variable {g : Graph ν ε}

/-! ### Growing a graph -/

theorem empty : (Graph.empty : Graph ν ε).WellFormed := by
  constructor <;> simp [Graph.empty, Graph.successors]

theorem addNode (wf : g.WellFormed) (value : ν) : (g.addNode value).2.WellFormed := by
  have hrow := outgoing_addNode wf.rows value
  constructor
  case rows => simp [Graph.addNode, wf.rows]
  case inRange =>
    intro v row hv e he
    rw [hrow] at hv
    split at hv
    · cases hv
      simp at he
    · exact wf.inRange v row hv e he
  case successors =>
    intro v
    rw [Graph.successors, hrow]
    split
    · -- No edge leaves a node that was not there.
      rename_i hv
      symm
      simp only [Option.getD_some, List.filterMap_nil, List.map_eq_nil_iff, List.filter_eq_nil_iff,
        decide_eq_true_eq]
      intro e he heq
      have := (wf.ends e (Array.mem_toList_iff.mp he)).1
      omega
    · exact wf.successors v
  case ends =>
    intro e he
    obtain ⟨hs, ht⟩ := wf.ends e he
    simp only [Graph.addNode, Array.size_push]
    omega

theorem attach (wf : g.WellFormed) {source target : Nat} (value : ε)
    (hsource : source < g.nodes.size) (htarget : target < g.nodes.size) :
    (g.attach source target value).WellFormed := by
  have hrow := outgoing_attach g source target value
  constructor
  case rows => simp [Graph.attach, wf.rows]
  case inRange =>
    intro v row hv e he
    rw [hrow] at hv
    obtain ⟨old, hold, rfl⟩ := Option.map_eq_some_iff.mp hv
    simp only [Graph.attach, Array.size_push]
    split at he
    · rcases Array.mem_push.mp he with he | rfl
      · exact Nat.lt_succ_of_lt (wf.inRange v old hold e he)
      · exact Nat.lt_succ_self _
    · exact Nat.lt_succ_of_lt (wf.inRange v old hold e he)
  case successors =>
    intro v
    obtain ⟨row, hv⟩ | hv : (∃ row, g.outgoing[v]? = some row) ∨ g.outgoing[v]? = none := by
      cases g.outgoing[v]? <;> simp
    · -- The row has the old edges at their old places.
      have hold : row.toList.filterMap (fun e => (g.attach source target value).edges[e]?.map
          Edge.target) = g.successors v := by
        rw [Graph.successors, hv, Option.getD_some]
        refine List.filterMap_congr fun e he => ?_
        have hlt := wf.inRange v row hv e (Array.mem_toList_iff.mp he)
        simp only [Graph.attach, Array.getElem?_push, Nat.ne_of_lt hlt, if_false]
      rw [Graph.successors, hrow, hv]
      simp only [Option.map_some, Option.getD_some]
      split
      · rename_i hsv
        rw [Array.toList_push, List.filterMap_append, hold, wf.successors]
        simp [Graph.attach, hsv]
      · rename_i hsv
        rw [hold, wf.successors]
        simp [Graph.attach, hsv]
    · have hne : source ≠ v := by
        rintro rfl
        rw [Array.getElem?_eq_none_iff, wf.rows] at hv
        omega
      have hold := wf.successors v
      rw [Graph.successors, hv] at hold
      rw [Graph.successors, hrow, hv]
      simpa [Graph.attach, hne] using hold
  case ends =>
    intro e he
    rcases Array.mem_push.mp he with he | rfl
    · exact wf.ends e he
    · exact ⟨hsource, htarget⟩

theorem addEdge (wf : g.WellFormed) (source target : Nat) (value : ε) :
    ((addEdge source target value).after g).WellFormed := by
  rw [after_addEdge]
  split
  · rename_i hends
    exact wf.attach value hends.1 hends.2
  · exact wf

theorem modifyNode (wf : g.WellFormed) (node : Nat) (f : ν → ν) :
    (g.modifyNode node f).WellFormed where
  rows := by simp [Graph.modifyNode, wf.rows]
  inRange := wf.inRange
  successors := wf.successors
  ends := by simpa [Graph.modifyNode] using wf.ends

/-! ### Reading a graph -/

/-- The successors of a node are the nodes at the other end of an edge. -/
theorem mem_successors (wf : g.WellFormed) {u v : Nat} : v ∈ g.successors u ↔ g.Leads u v := by
  simp [wf.successors, Leads, and_assoc]

theorem hasEdge_iff (wf : g.WellFormed) {u v : Nat} : g.hasEdge u v = true ↔ g.Leads u v := by
  rw [hasEdge, List.contains_iff_mem, wf.mem_successors]

theorem lt_of_leads (wf : g.WellFormed) {u v : Nat} (h : g.Leads u v) :
    u < g.nodes.size ∧ v < g.nodes.size := by
  obtain ⟨e, he, rfl, rfl⟩ := h
  exact wf.ends e he

/-- Between two nodes that exist there is an edge once they are linked, and nothing else changes. -/
theorem leads_link (wf : g.WellFormed) {source target : Nat} (value : ε) {u v : Nat}
    (hsource : source < g.nodes.size) (htarget : target < g.nodes.size) :
    (g.link source target value).Leads u v ↔ g.Leads u v ∨ source = u ∧ target = v := by
  rw [link]
  split
  · rename_i hedge
    rw [wf.hasEdge_iff] at hedge
    constructor
    · exact .inl
    · rintro (hleads | ⟨rfl, rfl⟩)
      · exact hleads
      · exact hedge
  · rw [after_addEdge, if_pos ⟨hsource, htarget⟩]
    simp only [Leads, Graph.attach, Array.mem_push, or_and_right, exists_or, exists_eq_left]

/-- Where two nodes are linked for the first time, the target comes behind the successors that the
source had. -/
theorem successors_link (wf : g.WellFormed) {source target : Nat} (value : ε) (v : Nat)
    (hsource : source < g.nodes.size) (htarget : target < g.nodes.size) :
    (g.link source target value).successors v =
      if source = v ∧ target ∉ g.successors v then g.successors v ++ [target]
      else g.successors v := by
  simp only [link, hasEdge, List.contains_iff_mem]
  by_cases hedge : target ∈ g.successors source
  · rw [if_pos hedge, if_neg]
    rintro ⟨rfl, hnew⟩
    exact hnew hedge
  · rw [if_neg hedge, after_addEdge, if_pos ⟨hsource, htarget⟩,
      (wf.attach value hsource htarget).successors, wf.successors]
    by_cases hv : source = v
    · subst hv
      rw [wf.successors] at hedge
      simp [Graph.attach, hedge]
    · simp [Graph.attach, hv]

/-- Every edge leaves one node. -/
theorem total_degrees (wf : g.WellFormed) :
    total ((List.range g.nodes.size).map fun v => (g.successors v).length) = g.edges.size := by
  have hcount : ∀ edges : List (Edge ε), (∀ e ∈ edges, e.source < g.nodes.size) →
      total ((List.range g.nodes.size).map fun v =>
        (edges.filter fun e => e.source = v).length) = edges.length := by
    intro edges
    induction edges with
    | nil => exact fun _ => total_map_eq_zero fun _ _ => rfl
    | cons e rest ih =>
      intro hends
      have hrest := ih fun e' he' => hends e' (List.mem_cons_of_mem e he')
      have hmem : e.source ∈ (List.range g.nodes.size).map id := by
        simpa using hends e List.mem_cons_self
      have hadd := total_map_add_of_key (by simpa using List.nodup_range) hmem
        (fun v => (rest.filter fun e => e.source = v).length) 1
      rw [List.length_cons, ← hrest, ← hadd]
      congr 1
      refine List.map_congr_left fun v _ => ?_
      by_cases hv : e.source = v
      · simp [hv]
      · simp [hv, Ne.symm hv]
  simp only [wf.successors, List.length_map]
  rw [hcount g.edges.toList fun e he => (wf.ends e (Array.mem_toList_iff.mp he)).1,
    Array.length_toList]

end WellFormed

/-- **Built graphs are well-formed.** -/
theorem Built.wellFormed {g : Graph ν ε} (built : g.Built) : g.WellFormed := by
  induction built with
  | empty => exact .empty
  | addNode value _ ih => exact ih.addNode value
  | addEdge source target value _ ih => exact ih.addEdge source target value
  | modifyNode node f _ ih => exact ih.modifyNode node f

theorem Built.link {g : Graph ν ε} (built : g.Built) (source target : Nat) (value : ε) :
    (g.link source target value).Built := by
  rw [Graph.link]
  split
  · exact built
  · exact built.addEdge source target value

theorem nodes_link (g : Graph ν ε) (source target : Nat) (value : ε) :
    (g.link source target value).nodes = g.nodes := by
  rw [link]
  split
  · rfl
  · rw [after_addEdge]
    split <;> rfl

/-! ### Graphs from pairs of numbers -/

/-- The graph with the given number of nodes and an edge for every pair of nodes. -/
def ofPairs (count : Nat) (pairs : List (Nat × Nat)) : Graph Unit Unit :=
  pairs.foldl (fun g (source, target) => (addEdge source target ()).after g)
    (Nat.repeat (fun g => (g.addNode ()).2) count empty)

theorem built_ofPairs (count : Nat) (pairs : List (Nat × Nat)) : (ofPairs count pairs).Built := by
  have hnodes : (Nat.repeat (fun g : Graph Unit Unit => (g.addNode ()).2) count empty).Built := by
    induction count with
    | zero => exact .empty
    | succ n ih => exact ih.addNode ()
  rw [ofPairs]
  generalize Nat.repeat _ count empty = g at hnodes
  induction pairs generalizing g with
  | nil => exact hnodes
  | cons pair rest ih => exact ih _ (hnodes.addEdge pair.1 pair.2 ())

end Graph

end Inlining
