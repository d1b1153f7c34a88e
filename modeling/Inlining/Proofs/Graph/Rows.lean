import Inlining.Proofs.Graph.Adjacency

/-!
# Rows and positions

An edge is stored once and known by its position; the row of a node holds positions. Here the rows
are pinned down completely: the row of a node lists the positions of the edges that leave it, in
ascending order, `Graph.Mirrored`. Each operation that grows a graph keeps this, the refused edges
included, and from it follows where a position occurs and where it does not.

## Main definitions

* `Graph.leaving` — the positions of the edges that leave a node, read off the edges alone
* `Graph.Mirrored` — the rows are these positions

## Main results

* `Graph.Built.mirrored` — the rows of built graphs mirror the edges
* `Graph.rows_mirror_edges` — what that means for rows, successors and edges yet to be added
-/

namespace Inlining

namespace Graph

variable {ν ε : Type}

/-- The positions of the edges that leave a node, in ascending order. -/
def leaving (g : Graph ν ε) (v : Nat) : List Nat :=
  (List.range g.edges.size).filter fun i => g.edges[i]?.any fun e => e.source = v

/-- The row of every node lists the edges that leave it. -/
def Mirrored (g : Graph ν ε) : Prop :=
  ∀ (v : Nat) (row : Array Nat), g.outgoing[v]? = some row → row.toList = g.leaving v

/-! ### Positions of edges -/

theorem mem_leaving {g : Graph ν ε} {v i : Nat} :
    i ∈ g.leaving v ↔ ∃ e, g.edges[i]? = some e ∧ e.source = v := by
  rw [leaving, List.mem_filter, List.mem_range, Option.any_eq_true]
  constructor
  · rintro ⟨-, e, he, hv⟩
    exact ⟨e, he, of_decide_eq_true hv⟩
  · rintro ⟨e, he, hv⟩
    exact ⟨(Array.getElem?_eq_some_iff.mp he).1, e, he, decide_eq_true hv⟩

theorem pairwise_leaving (g : Graph ν ε) (v : Nat) : (g.leaving v).Pairwise (· < ·) :=
  List.pairwise_lt_range.filter _

/-- An edge that is added has the position behind all others, and leaves its source. -/
theorem leaving_attach (g : Graph ν ε) (source target : Nat) (value : ε) (v : Nat) :
    (g.attach source target value).leaving v =
      if source = v then g.leaving v ++ [g.edges.size] else g.leaving v := by
  -- The range grows by one position at its end; below it the edges stay where they are.
  have hold : (List.range g.edges.size).filter (fun i =>
      (g.attach source target value).edges[i]?.any fun e => e.source = v) = g.leaving v := by
    refine List.filter_congr fun i hi => ?_
    have hne : i ≠ g.edges.size := Nat.ne_of_lt (List.mem_range.mp hi)
    simp only [attach, Array.getElem?_push, hne, if_false]
  have hnew : (g.attach source target value).edges[g.edges.size]?.any (fun e => e.source = v) =
      decide (source = v) := by
    simp [attach]
  rw [leaving, show (g.attach source target value).edges.size = g.edges.size + 1 by simp [attach],
    List.range_succ, List.filter_append, hold, List.filter_singleton, hnew]
  by_cases hv : source = v <;> simp [hv]

/-- No edge leaves a node that does not exist. -/
theorem WellFormed.leaving_eq_nil {g : Graph ν ε} (wf : g.WellFormed) {v : Nat}
    (hv : g.nodes.size ≤ v) : g.leaving v = [] := by
  refine List.eq_nil_iff_forall_not_mem.mpr fun i hi => ?_
  obtain ⟨e, he, rfl⟩ := mem_leaving.mp hi
  have := (wf.ends e (Array.mem_of_getElem? he)).1
  omega

/-! ### Growing a graph -/

namespace Mirrored

variable {g : Graph ν ε}

theorem empty : (Graph.empty : Graph ν ε).Mirrored := by
  intro v row hrow
  simp [Graph.empty] at hrow

theorem addNode (wf : g.WellFormed) (h : g.Mirrored) (value : ν) :
    (g.addNode value).2.Mirrored := by
  intro v row hrow
  rw [outgoing_addNode wf.rows] at hrow
  split at hrow
  · -- The new row is empty, and no edge can have left the node before it was there.
    rename_i hv
    cases hrow
    exact (wf.leaving_eq_nil (Nat.le_of_eq hv.symm)).symm
  · exact h v row hrow

theorem attach (h : g.Mirrored) (source target : Nat) (value : ε) :
    (g.attach source target value).Mirrored := by
  intro v row hrow
  rw [outgoing_attach] at hrow
  obtain ⟨old, hold, rfl⟩ := Option.map_eq_some_iff.mp hrow
  rw [leaving_attach, ← h v old hold]
  split
  · exact Array.toList_push
  · rfl

theorem addEdge (h : g.Mirrored) (source target : Nat) (value : ε) :
    ((addEdge source target value).after g).Mirrored := by
  rw [after_addEdge]
  split
  · exact h.attach source target value
  · exact h

theorem modifyNode (h : g.Mirrored) (node : Nat) (f : ν → ν) : (g.modifyNode node f).Mirrored :=
  h

/-! ### Where a position occurs -/

theorem mem_row_iff (h : g.Mirrored) {v : Nat} {row : Array Nat} (hrow : g.outgoing[v]? = some row)
    {i : Nat} : i ∈ row ↔ ∃ e, g.edges[i]? = some e ∧ e.source = v := by
  rw [← Array.mem_toList_iff, h v row hrow, mem_leaving]

/-- The position of an edge is in the row of its source, and in no other row. -/
theorem exists_row_iff (wf : g.WellFormed) (h : g.Mirrored) {i : Nat} {e : Edge ε}
    (he : g.edges[i]? = some e) (v : Nat) :
    (∃ row, g.outgoing[v]? = some row ∧ i ∈ row) ↔ e.source = v := by
  constructor
  · rintro ⟨row, hrow, hi⟩
    obtain ⟨e', he', hv⟩ := (h.mem_row_iff hrow).mp hi
    cases he.symm.trans he'
    exact hv
  · rintro rfl
    have hsource : e.source < g.outgoing.size := by
      rw [wf.rows]
      exact (wf.ends e (Array.mem_of_getElem? he)).1
    have hrow := Array.getElem?_eq_getElem hsource
    exact ⟨_, hrow, (h.mem_row_iff hrow).mpr ⟨e, he, rfl⟩⟩

end Mirrored

/-- **The rows of built graphs mirror the edges.** -/
theorem Built.mirrored {g : Graph ν ε} (built : g.Built) : g.Mirrored := by
  induction built with
  | empty => exact .empty
  | addNode value built ih => exact .addNode built.wellFormed ih value
  | addEdge source target value _ ih => exact ih.addEdge source target value
  | modifyNode node f _ ih => exact ih.modifyNode node f

/-! ### Accepted and refused edges -/

/-- An edge is refused exactly if one of its ends does not exist, and then nothing changes. -/
theorem addEdge_eq_error_iff {g h : Graph ν ε} {source target : Nat} {value : ε} :
    (∃ error, addEdge source target value g = .error error h) ↔
      (g.nodes.size ≤ source ∨ g.nodes.size ≤ target) ∧ h = g := by
  rcases addEdge_cases g source target value with ⟨hends, hadd⟩ | ⟨hends, error, hadd⟩ <;> rw [hadd]
  · constructor
    · rintro ⟨_, ⟨⟩⟩
    · rintro ⟨hmissing, -⟩
      omega
  · constructor
    · rintro ⟨_, ⟨⟩⟩
      exact ⟨by omega, rfl⟩
    · rintro ⟨-, rfl⟩
      exact ⟨error, rfl⟩

/-- An edge that is accepted comes behind the edges that were there; the nodes stay. -/
theorem edges_of_addEdge_eq_ok {g h : Graph ν ε} {source target : Nat} {value : ε}
    (hok : addEdge source target value g = .ok () h) :
    h.nodes = g.nodes ∧ h.edges = g.edges.push { source, target, value } := by
  rcases addEdge_cases g source target value with ⟨-, hadd⟩ | ⟨-, error, hadd⟩ <;> rw [hadd] at hok
  · cases hok
    exact ⟨rfl, rfl⟩
  · cases hok

/-! ### Rows and edges -/

/-- **The rows mirror the edges.** There is one row for each node. A row ascends and holds positions
of edges only, and the position of an edge is in the row of its source and in no other. So the
successors of a node, whether it exists or not, are the targets of the edges that leave it in the
order of insertion, and two nodes have an edge exactly if one of the edges leads from the first to
the second. An edge is refused exactly if one of its ends does not exist, which changes nothing, and
an edge that is accepted comes behind all others. -/
theorem rows_mirror_edges {g : Graph ν ε} (built : g.Built) :
    g.outgoing.size = g.nodes.size ∧
    (∀ (v : Nat) (row : Array Nat), g.outgoing[v]? = some row →
      row.toList.Pairwise (· < ·) ∧ ∀ i ∈ row, i < g.edges.size) ∧
    (∀ (i : Nat) (e : Edge ε), g.edges[i]? = some e → ∀ v,
      (∃ row, g.outgoing[v]? = some row ∧ i ∈ row) ↔ e.source = v) ∧
    (∀ v, g.successors v = (g.edges.toList.filter fun e => e.source = v).map Edge.target) ∧
    (∀ u v, g.hasEdge u v = true ↔ ∃ e ∈ g.edges, e.source = u ∧ e.target = v) ∧
    ∀ (source target : Nat) (value : ε) (h : Graph ν ε),
      ((∃ error, addEdge source target value g = .error error h) ↔
        (g.nodes.size ≤ source ∨ g.nodes.size ≤ target) ∧ h = g) ∧
      (addEdge source target value g = .ok () h →
        h.nodes = g.nodes ∧ h.edges = g.edges.push { source, target, value }) := by
  have wf := built.wellFormed
  have mirrored := built.mirrored
  refine ⟨wf.rows, fun v row hrow => ⟨?_, wf.inRange v row hrow⟩,
    fun i e he v => mirrored.exists_row_iff wf he v, wf.successors, fun u v => wf.hasEdge_iff,
    fun source target value h => ⟨addEdge_eq_error_iff, edges_of_addEdge_eq_ok⟩⟩
  rw [mirrored v row hrow]
  exact g.pairwise_leaving v

/-- A graph that grows in an awkward order: its first edge is a loop, the next is refused because
its target comes only later, a node changes between two parallel edges, and the last edge has no
source. -/
def latecomer : Graph Nat Nat :=
  empty |>.addNode 10 |>.2
    |> (addEdge 0 0 1).after |> (addEdge 0 1 2).after
    |>.addNode 20 |>.2
    |> (addEdge 0 1 3).after |> (addEdge 1 0 4).after
    |>.modifyNode 0 (· + 1)
    |> (addEdge 0 1 5).after |> (addEdge 2 0 6).after

theorem rows_mirror_edges_latecomer : latecomer.Built ∧
    latecomer.outgoing = #[#[0, 1, 3], #[2]] ∧ [0, 1, 3].Pairwise (· < ·) ∧
    (∃ row, latecomer.outgoing[1]? = some row ∧ 2 ∈ row) ∧
    (¬ ∃ row, latecomer.outgoing[0]? = some row ∧ 2 ∈ row) ∧
    latecomer.successors 0 = [0, 1, 1] ∧ latecomer.successors 7 = [] ∧
    latecomer.hasEdge 1 0 = true ∧
    (∃ error, addEdge 1 2 7 latecomer = .error error latecomer) ∧
    ∃ h, addEdge 1 1 7 latecomer = .ok () h ∧ h.edges = latecomer.edges.push ⟨1, 1, 7⟩ := by
  have built : latecomer.Built :=
    Built.empty |>.addNode 10 |>.addEdge 0 0 1 |>.addEdge 0 1 2 |>.addNode 20 |>.addEdge 0 1 3
      |>.addEdge 1 0 4 |>.modifyNode 0 (· + 1) |>.addEdge 0 1 5 |>.addEdge 2 0 6
  have hedge : latecomer.edges[2]? = some ⟨1, 0, 4⟩ := rfl
  obtain ⟨-, hrows, hplace, hsuccessors, hhas, hadd⟩ := rows_mirror_edges built
  refine ⟨built, by decide +kernel, (hrows 0 #[0, 1, 3] (by decide +kernel)).1,
    (hplace 2 _ hedge 1).mpr rfl, (hplace 2 _ hedge 0).not.mpr (by decide),
    (hsuccessors 0).trans (by decide +kernel), (hsuccessors 7).trans (by decide +kernel),
    (hhas 1 0).mpr ⟨_, Array.mem_of_getElem? hedge, rfl, rfl⟩,
    (hadd 1 2 7 latecomer).1.mpr ⟨.inr (by decide +kernel), rfl⟩,
    latecomer.attach 1 1 7, rfl, ((hadd 1 1 7 _).2 rfl).2⟩

end Graph

end Inlining
