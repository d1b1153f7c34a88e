import Inlining.Proofs.Graph.Search

/-!
# Components

The search does what `Graph.components` is asked for. Two things are to be shown besides the
invariant of `Search.Valid`. First, the steps allowed are enough: what remains to be done, one unit
for every fresh node and for every edge that was not followed, shrinks by one with every step and
is not more than `Graph.work` in the beginning. Second, when the path is empty, so is the stack, and
every node that was discovered has its component.

The order of the result comes from the same invariant. Nothing leads out of a prefix of it: the
edges of a component lead to itself or to one that was completed before.

## Main definitions

* `Search.remaining` — the steps that are left
* `Search.Rests` — the search between two roots
* `Graph.searched` — the search after the first few roots

## Main results

* `Search.Valid.run` — the search from one root ends
* `Graph.WellFormed.same_component_iff` — components are the classes of mutual reachability
* `Graph.WellFormed.component_le_of_reaches` — what is reached stands no later
* `Graph.components_partition`, `Graph.components_reverse_topological` — what is said of the
  components, of all graphs that can be built
-/

namespace Inlining

variable {ν ε : Type}

namespace Search

/-! ### The steps allowed are enough -/

/-- The steps that a node costs as long as it is fresh: one to leave it, and one for every edge. -/
def price (g : Graph ν ε) (s : Search) (v : Nat) : Nat :=
  if s.isFresh v then (g.successors v).length + 1 else 0

/-- The steps to the end of the path. -/
def pathPrice (path : List Visit) : Nat := total (path.map fun x => x.pending.length + 1)

/-- The steps that are left. -/
def remaining (g : Graph ν ε) (s : Search) : Nat :=
  total ((List.range g.nodes.size).map (s.price g)) + pathPrice s.path

/-- A node is paid for when it enters the path, as much as it cost before. -/
theorem remaining_discover (g : Graph ν ε) {s : Search} {v : Nat}
    (hsize : s.number.size = g.nodes.size) (hfresh : s.number[v]? = some none) :
    (s.discover g v).remaining g = s.remaining g := by
  have hv : v < s.number.size := (Array.getElem?_eq_some_iff.mp hfresh).1
  have hprice : ∀ w, s.price g w =
      if id w = v then (s.discover g v).price g w + ((g.successors v).length + 1)
      else (s.discover g v).price g w := by
    intro w
    rw [price, price, isFresh, isFresh, number_discover g s w hv]
    by_cases hw : w = v
    · simp [hw, hfresh]
    · simp [hw, Ne.symm hw]
  have hmem : v ∈ (List.range g.nodes.size).map id := by simpa [← hsize] using hv
  have hadd := total_map_add_of_key (by simpa using List.nodup_range) hmem
    ((s.discover g v).price g) ((g.successors v).length + 1)
  rw [remaining, remaining, List.map_congr_left fun w _ => hprice w, hadd]
  change _ + ((g.successors v).length + 1 + pathPrice s.path) = _
  omega

/-- A step takes one unit off the path, and may discover a node after that. -/
theorem step_cases (g : Graph ν ε) {s : Search} (hpath : s.path ≠ []) :
    ∃ t : Search, t.number = s.number ∧ pathPrice t.path + 1 = pathPrice s.path ∧
      (s.step g = t ∨ ∃ v, t.number[v]? = some none ∧ s.step g = t.discover g v) := by
  rw [step]
  split
  · rename_i hnil
    exact absurd hnil hpath
  · rename_i v outer heq
    refine ⟨backtrack v { s with path := outer }, ?_, ?_, .inl rfl⟩
    all_goals
      rw [backtrack]
      cases outer <;> simp only <;> split <;>
        simp [complete, lower, heq, pathPrice, total_cons, Nat.add_comm]
  · rename_i v u pending outer heq
    have hprice : pathPrice (⟨v, pending⟩ :: outer) + 1 = pathPrice s.path := by
      simp only [heq, pathPrice, List.map_cons, total_cons, List.length_cons]
      omega
    let t := { s with path := ⟨v, pending⟩ :: outer }
    rw [follow]
    split
    · rename_i hfresh
      exact ⟨t, rfl, hprice, .inr ⟨u, hfresh, rfl⟩⟩
    · rename_i k _
      split
      · exact ⟨t.lower v k, rfl, hprice, .inl rfl⟩
      · exact ⟨t, rfl, hprice, .inl rfl⟩
    · exact ⟨t, rfl, hprice, .inl rfl⟩

theorem remaining_step {g : Graph ν ε} {s : Search} (hsize : s.number.size = g.nodes.size)
    (hpath : s.path ≠ []) : (s.step g).remaining g + 1 = s.remaining g := by
  obtain ⟨t, hnumber, hprice, hstep⟩ := step_cases g hpath
  have ht : t.remaining g + 1 = s.remaining g := by
    have hfresh : t.price g = s.price g := by
      funext v
      rw [price, price, isFresh, isFresh, hnumber]
    rw [remaining, remaining, hfresh, ← hprice, Nat.add_assoc]
  obtain hstep | ⟨v, hfresh, hstep⟩ := hstep
  · rw [hstep, ht]
  · rw [hstep, remaining_discover g (hnumber ▸ hsize) hfresh, ht]

/-- What was discovered stays discovered. -/
theorem known_step (g : Graph ν ε) {s : Search} {v : Nat} (h : s.Known v) : (s.step g).Known v := by
  by_cases hpath : s.path = []
  · rwa [step, hpath]
  obtain ⟨t, hnumber, -, hstep⟩ := step_cases g hpath
  have ht : t.Known v := by rwa [Known, hnumber]
  obtain hstep | ⟨u, hfresh, hstep⟩ := hstep
  · rwa [hstep]
  · rw [hstep, known_discover g t v (Array.getElem?_eq_some_iff.mp hfresh).1]
    exact .inr ht

theorem known_run (g : Graph ν ε) (n : Nat) {s : Search} {v : Nat} (h : s.Known v) :
    (s.run g n).Known v := by
  induction n generalizing s with
  | zero => exact h
  | succ n ih =>
    rw [run]
    split
    · exact h
    · exact ih (known_step g h)

/-- With as many steps as are left the search comes to the end of the path. -/
theorem Valid.run {g : Graph ν ε} (wf : g.WellFormed) {n : Nat} {s : Search} (h : s.Valid g none)
    (henough : s.remaining g ≤ n) : (s.run g n).Valid g none ∧ (s.run g n).path = [] := by
  induction n generalizing s with
  | zero =>
    refine ⟨h, ?_⟩
    cases hpath : s.path with
    | nil => exact hpath
    | cons x outer =>
      rw [remaining, hpath, pathPrice, List.map_cons, total_cons] at henough
      omega
  | succ n ih =>
    rw [Search.run]
    split
    · rename_i hempty
      exact ⟨h, List.isEmpty_iff.mp hempty⟩
    · rename_i hne
      have hstep := remaining_step h.orderly.number_size (mt List.isEmpty_iff.mpr hne)
      exact ih (h.step wf) (by omega)

/-! ### From root to root -/

/-- The search between two roots. -/
structure Rests (g : Graph ν ε) (s : Search) : Prop where
  valid : s.Valid g none
  path : s.path = []

namespace Rests

variable {g : Graph ν ε} {s : Search}

theorem start (g : Graph ν ε) : (Search.start g.nodes.size).Rests g := by
  have hnone : ∀ v, ¬ (Search.start g.nodes.size).Known v := by
    rintro v ⟨k, hk⟩
    simp [Search.start, Array.getElem?_replicate] at hk
  refine ⟨⟨?_, ?_, ?_⟩, rfl⟩
  · constructor
    case known => exact fun v => iff_of_false (hnone v) (by simp [Search.start])
    case lt_next => exact fun v hv => absurd hv (hnone v)
    all_goals simp [Search.start, trail, Array.getElem?_replicate]
  · constructor <;> simp [Search.start, trail]
  · constructor <;> simp [Search.start]

/-- At rest no more is left than the whole work. -/
theorem remaining_le (wf : g.WellFormed) (h : s.Rests g) : s.remaining g ≤ g.work := by
  have hle : ∀ nodes : List Nat, total (nodes.map (s.price g)) ≤
      nodes.length + total (nodes.map fun v => (g.successors v).length) := by
    intro nodes
    induction nodes with
    | nil => exact Nat.le_refl _
    | cons v rest ih =>
      have hv : s.price g v ≤ (g.successors v).length + 1 := by
        rw [price]
        split <;> omega
      simp only [List.map_cons, total_cons, List.length_cons]
      omega
  have hwork := hle (List.range g.nodes.size)
  rw [wf.total_degrees, List.length_range] at hwork
  rw [remaining, h.path]
  exact hwork

/-- Nothing waits at rest. -/
theorem stack (h : s.Rests g) : s.stack = [] := by
  refine List.eq_nil_iff_forall_not_mem.mpr fun w hw => ?_
  obtain ⟨v, hv, -⟩ := h.valid.linked.up w hw
  rw [trail, h.path] at hv
  cases hv

theorem known_iff (h : s.Rests g) (v : Nat) : s.Known v ↔ v ∈ s.completed.flatten := by
  simp [h.valid.orderly.known v, h.stack]

/-- The first node of a new path. -/
theorem discover (h : s.Rests g) {root : Nat} (hfresh : s.number[root]? = some none) :
    (s.discover g root).Valid g none :=
  h.valid.discover hfresh (by simp) (by simp [trail, h.path])

/-- Exploring from one root. -/
theorem explore (wf : g.WellFormed) (h : s.Rests g) (root : Nat) : (g.explore s root).Rests g := by
  rw [Graph.explore]
  split
  · rename_i hfresh
    rw [isFresh, beq_iff_eq] at hfresh
    have hleft := remaining_discover g h.valid.orderly.number_size hfresh
    obtain ⟨hvalid, hpath⟩ := (h.discover hfresh).run wf (hleft ▸ h.remaining_le wf)
    exact ⟨hvalid, hpath⟩
  · exact h

theorem known_explore (h : s.Rests g) {root : Nat} (hroot : root < g.nodes.size) :
    (g.explore s root).Known root := by
  rw [Graph.explore]
  have hlt : root < s.number.size := by rwa [h.valid.orderly.number_size]
  split
  · exact known_run g _ ((known_discover g s root hlt).mpr (.inl rfl))
  · rename_i hfresh
    rw [isFresh, Array.getElem?_eq_getElem hlt, beq_iff_eq] at hfresh
    obtain ⟨k, hk⟩ := Option.ne_none_iff_exists'.mp fun hnone => hfresh (congrArg some hnone)
    exact ⟨k, by rw [Array.getElem?_eq_getElem hlt, hk]⟩

end Rests

/-- Exploring from some other root forgets nothing. -/
theorem known_explore_of_known (g : Graph ν ε) {s : Search} {v : Nat} (h : s.Known v) (root : Nat) :
    (g.explore s root).Known v := by
  rw [Graph.explore]
  split
  · rename_i hfresh
    rw [isFresh, beq_iff_eq] at hfresh
    refine known_run g _ ((known_discover g s v ?_).mpr (.inr h))
    exact (Array.getElem?_eq_some_iff.mp hfresh).1
  · exact h

end Search

namespace Graph

/-! ### What the components are -/

/-- The search when it has dealt with the first few roots. -/
def searched (g : Graph ν ε) (count : Nat) : Search :=
  (List.range count).foldl g.explore (.start g.nodes.size)

theorem searched_succ (g : Graph ν ε) (root : Nat) :
    g.searched (root + 1) = g.explore (g.searched root) root := by
  rw [searched, List.range_succ, List.foldl_append]
  rfl

section Components

variable {g : Graph ν ε} (wf : g.WellFormed)
include wf

theorem WellFormed.rests_searched (count : Nat) : (g.searched count).Rests g := by
  induction count with
  | zero => exact .start g
  | succ root ih =>
    rw [searched_succ]
    exact ih.explore wf root

theorem WellFormed.known_searched {count v : Nat} (hv : v < count) (hlt : v < g.nodes.size) :
    (g.searched count).Known v := by
  induction count with
  | zero => omega
  | succ root ih =>
    rw [searched_succ]
    rcases Nat.lt_succ_iff_lt_or_eq.mp hv with hv | rfl
    · exact Search.known_explore_of_known g (ih hv) root
    · exact (wf.rests_searched v).known_explore hlt

/-- After all roots the nodes are known. -/
theorem WellFormed.known_searched_iff {v : Nat} :
    (g.searched g.nodes.size).Known v ↔ v < g.nodes.size := by
  constructor
  · rintro ⟨k, hk⟩
    rw [← (wf.rests_searched g.nodes.size).valid.orderly.number_size]
    exact (Array.getElem?_eq_some_iff.mp hk).1
  · exact fun hv => wf.known_searched hv hv

/-- The components are read off a search that rests and knows all nodes. -/
theorem WellFormed.exists_rests : ∃ s : Search, s.Rests g ∧ g.components = s.completed.reverse ∧
    ∀ v, v ∈ s.completed.flatten ↔ v < g.nodes.size := by
  have hrests := wf.rests_searched g.nodes.size
  refine ⟨_, hrests, rfl, fun v => ?_⟩
  rw [← hrests.known_iff, wf.known_searched_iff]

theorem WellFormed.component_ne_nil {c : List Nat} (hc : c ∈ g.components) : c ≠ [] := by
  obtain ⟨s, hs, heq, -⟩ := wf.exists_rests
  rw [heq, List.mem_reverse] at hc
  exact hs.valid.resolved.nonempty c hc

theorem WellFormed.mem_components {v : Nat} :
    v ∈ g.components.flatten ↔ v < g.nodes.size := by
  obtain ⟨s, -, heq, hnodes⟩ := wf.exists_rests
  rw [← hnodes, heq, List.mem_flatten, List.mem_flatten]
  simp only [List.mem_reverse]

theorem WellFormed.nodup_components : g.components.flatten.Nodup := by
  obtain ⟨s, hs, heq, -⟩ := wf.exists_rests
  have hnodup := hs.valid.orderly.nodup
  rw [hs.stack, List.nil_append] at hnodup
  rw [heq]
  exact hnodup.perm (List.reverse_perm s.completed).flatten.symm

theorem WellFormed.reaches_of_mem_component {c : List Nat} (hc : c ∈ g.components) {u v : Nat}
    (hu : u ∈ c) (hv : v ∈ c) : g.Reaches u v := by
  obtain ⟨s, hs, heq, -⟩ := wf.exists_rests
  rw [heq, List.mem_reverse] at hc
  exact hs.valid.resolved.strong c hc u hu v hv

/-- No edge leads out of the first few components. -/
theorem WellFormed.mem_take_of_leads {k u v : Nat} (hu : u ∈ (g.components.take k).flatten)
    (h : g.Leads u v) : v ∈ (g.components.take k).flatten := by
  obtain ⟨s, hs, heq, -⟩ := wf.exists_rests
  obtain ⟨c, hc, hu⟩ := List.mem_flatten.mp hu
  obtain ⟨before, after, htake⟩ := List.append_of_mem hc
  have hsplit : s.completed =
      ((g.components.drop k).reverse ++ after.reverse) ++ c :: before.reverse := by
    have hwhole := List.take_append_drop k g.components
    rw [htake, heq] at hwhole
    rw [← List.reverse_reverse s.completed, ← hwhole]
    simp [heq]
  have hv := hs.valid.resolved.closed _ c _ hsplit u hu v (wf.mem_successors.mpr h)
  rw [htake]
  simp only [List.mem_flatten, List.mem_cons, List.mem_reverse, List.mem_append] at hv ⊢
  obtain ⟨d, hd, hv⟩ := hv
  exact ⟨d, by tauto, hv⟩

omit wf in
/-- What is reached from the first few components lies in them, unless an edge leads out. -/
theorem Reaches.mem_of_closed {g : Graph ν ε} {nodes : List Nat}
    (hclosed : ∀ u ∈ nodes, ∀ v, g.Leads u v → v ∈ nodes) {u v : Nat} (h : g.Reaches u v)
    (hu : u ∈ nodes) : v ∈ nodes := by
  induction h with
  | refl => exact hu
  | tail _ hlead ih => exact hclosed _ ih _ hlead

/-- A node is found in the first few components only if its own is one of them. -/
theorem WellFormed.lt_of_mem_take {j k v : Nat} {d : List Nat} (hd : g.components[j]? = some d)
    (hv : v ∈ d) (htake : v ∈ (g.components.take k).flatten) : j < k := by
  refine Nat.lt_of_not_le fun hle => ?_
  have hdrop : v ∈ (g.components.drop k).flatten := by
    refine List.mem_flatten.mpr ⟨d, List.mem_of_getElem? (i := j - k) ?_, hv⟩
    rw [List.getElem?_drop, Nat.add_sub_cancel' hle, hd]
  have hnodup := wf.nodup_components
  rw [← List.take_append_drop k g.components, List.flatten_append] at hnodup
  exact (List.nodup_append.mp hnodup).2.2 v htake v hdrop rfl

/-- What is reached from a component stands no later. -/
theorem WellFormed.component_le_of_reaches {i j u v : Nat} {c d : List Nat}
    (hc : g.components[i]? = some c) (hd : g.components[j]? = some d) (hu : u ∈ c) (hv : v ∈ d)
    (h : g.Reaches u v) : j ≤ i := by
  have htake : u ∈ (g.components.take (i + 1)).flatten := by
    refine List.mem_flatten.mpr ⟨c, List.mem_of_getElem? (i := i) ?_, hu⟩
    rw [List.getElem?_take_of_lt (Nat.lt_succ_self i), hc]
  have hclosed := h.mem_of_closed (fun _ hu _ => wf.mem_take_of_leads hu) htake
  exact Nat.le_of_lt_succ (wf.lt_of_mem_take hd hv hclosed)

/-- A component has all nodes that its members reach and that reach them. -/
theorem WellFormed.mem_component_of_reaches {c : List Nat} (hc : c ∈ g.components) {u v : Nat}
    (hu : u ∈ c) (huv : g.Reaches u v) (hvu : g.Reaches v u) : v ∈ c := by
  have hv : v < g.nodes.size := by
    rcases Relation.ReflTransGen.cases_tail huv with rfl | ⟨_, -, hleads⟩
    · exact wf.mem_components.mp (List.mem_flatten.mpr ⟨c, hc, hu⟩)
    · exact (wf.lt_of_leads hleads).2
  obtain ⟨d, hd, hvd⟩ := List.mem_flatten.mp (wf.mem_components.mpr hv)
  obtain ⟨i, hi⟩ := List.mem_iff_getElem?.mp hc
  obtain ⟨j, hj⟩ := List.mem_iff_getElem?.mp hd
  have hij : i = j := Nat.le_antisymm (wf.component_le_of_reaches hj hi hvd hu hvu)
    (wf.component_le_of_reaches hi hj hu hvd huv)
  rw [hij, hj] at hi
  cases hi
  exact hvd

/-- Components are the classes of mutual reachability. -/
theorem WellFormed.same_component_iff {u v : Nat} (hu : u < g.nodes.size) :
    (∃ c ∈ g.components, u ∈ c ∧ v ∈ c) ↔ g.Reaches u v ∧ g.Reaches v u := by
  constructor
  · rintro ⟨c, hc, hu, hv⟩
    exact ⟨wf.reaches_of_mem_component hc hu hv, wf.reaches_of_mem_component hc hv hu⟩
  · rintro ⟨huv, hvu⟩
    obtain ⟨c, hc, huc⟩ := List.mem_flatten.mp (wf.mem_components.mpr hu)
    exact ⟨c, hc, huc, wf.mem_component_of_reaches hc huc huv hvu⟩

end Components

variable {g : Graph ν ε}

/-- **The components of a graph are its strongly connected components.** None is empty, every node
lies in exactly one of them, and two nodes lie in the same one if and only if each can be reached
from the other. -/
theorem components_partition (built : g.Built) :
    (∀ c ∈ g.components, c ≠ []) ∧
    g.components.flatten.Perm (List.range g.nodes.size) ∧
    ∀ u v, u < g.nodes.size → v < g.nodes.size →
      ((∃ c ∈ g.components, u ∈ c ∧ v ∈ c) ↔ g.Reaches u v ∧ g.Reaches v u) := by
  have wf := built.wellFormed
  refine ⟨fun c hc => wf.component_ne_nil hc, ?_, fun u v hu _ => wf.same_component_iff hu⟩
  rw [List.perm_ext_iff_of_nodup wf.nodup_components List.nodup_range]
  intro v
  rw [wf.mem_components, List.mem_range]

/-- A ring of three with two edges between the same nodes, a way out to a node that leads to itself,
and a node that leads into the ring. -/
def ring : Graph Unit Unit := ofPairs 5 [(0, 1), (1, 2), (2, 0), (0, 1), (2, 3), (3, 3), (4, 0)]

theorem components_partition_ring : ring.Built ∧ ring.components = [[3], [2, 1, 0], [4]] ∧
    [3, 2, 1, 0, 4].Perm (List.range 5) ∧ ring.Reaches 1 0 ∧
    ¬ (ring.Reaches 2 3 ∧ ring.Reaches 3 2) := by
  have built : ring.Built := built_ofPairs 5 _
  have heq : ring.components = [[3], [2, 1, 0], [4]] := by decide +kernel
  obtain ⟨-, hperm, hsame⟩ := components_partition built
  rw [heq] at hperm hsame
  exact ⟨built, heq, hperm, ((hsame 0 1 (by decide) (by decide)).mp (by decide)).2,
    mt (hsame 2 3 (by decide) (by decide)).mpr (by decide)⟩

/-- **Components stand in reverse topological order.** Both ends of an edge lie in a component, and
if these stand at different places, the one with the target comes first. -/
theorem components_reverse_topological (built : g.Built) {e : Edge ε} (he : e ∈ g.edges) :
    (∃ c ∈ g.components, e.source ∈ c) ∧ (∃ d ∈ g.components, e.target ∈ d) ∧
    ∀ (i j : Nat) (c d : List Nat), g.components[i]? = some c → e.source ∈ c →
      g.components[j]? = some d → e.target ∈ d → i ≠ j → j < i := by
  have wf := built.wellFormed
  obtain ⟨hsource, htarget⟩ := wf.ends e he
  refine ⟨List.mem_flatten.mp (wf.mem_components.mpr hsource),
    List.mem_flatten.mp (wf.mem_components.mpr htarget), fun i j c d hi hc hj hd hne => ?_⟩
  have hleads : g.Leads e.source e.target := ⟨e, he, rfl, rfl⟩
  have hle : j ≤ i := wf.component_le_of_reaches hi hj hc hd (.single hleads)
  exact Nat.lt_of_le_of_ne hle hne.symm

theorem components_reverse_topological_ring : ring.Built ∧ ⟨2, 3, ()⟩ ∈ ring.edges ∧
    ring.components = [[3], [2, 1, 0], [4]] ∧ ∀ (i j : Nat),
      ring.components[i]? = some [2, 1, 0] → ring.components[j]? = some [3] → i ≠ j → j < i := by
  have built : ring.Built := built_ofPairs 5 _
  have he : (⟨2, 3, ()⟩ : Edge Unit) ∈ ring.edges :=
    Array.mem_of_getElem? (i := 4) (by rfl)
  obtain ⟨-, -, hlt⟩ := components_reverse_topological built he
  exact ⟨built, he, by decide +kernel,
    fun i j hi hj => hlt i j [2, 1, 0] [3] hi (by decide) hj (by decide)⟩

end Graph

end Inlining
