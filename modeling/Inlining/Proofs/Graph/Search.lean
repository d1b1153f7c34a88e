import Inlining.Graph.Components
import Inlining.Proofs.Graph.Adjacency
import Mathlib.Data.List.Nodup

/-!
# What the search keeps true

The search holds three kinds of node: fresh ones, those that wait on the stack, and those that have
a component. Numbers grow along the stack, and the nodes on the path, the *trail*, are some of those
on the stack. The argument rests on two facts about the stack. A node on the trail reaches all nodes
above it on the stack, since these were discovered while it was on the path; and every node on the
stack reaches a node on the trail that is not above it. When the last node of the trail reaches
nothing older than itself, the nodes above it are therefore exactly those with which it lies on a
cycle.

Each step takes an edge in hand and puts it down again, or leaves a node. The invariant between the
two halves of a step is the same one, with an exception for the edge in hand.

## Main definitions

* `Search.Orderly` — numbers, stack and trail fit together
* `Search.Linked` — what the nodes on the stack reach, and what is known of it
* `Search.Resolved` — completed components are components, and they lead to earlier ones only
* `Search.Valid` — all three

## Main results

* `Search.Valid.step` — a step keeps the invariant
-/

namespace Inlining

namespace Search

variable {ν ε : Type}

/-- A node was discovered. -/
def Known (s : Search) (v : Nat) : Prop := ∃ k, s.number[v]? = some (some k)

/-- The number under which a node was discovered. -/
def numberOf (s : Search) (v : Nat) : Nat := (s.number[v]?.getD none).getD 0

/-- The nodes on the path, from the node at hand back to the root. -/
def trail (s : Search) : List Nat := s.path.map Visit.node

/-- The last node on the trail that is not above the given one. -/
def Owns (s : Search) (v w : Nat) : Prop :=
  s.numberOf v ≤ s.numberOf w ∧
    ∀ u ∈ s.trail, s.numberOf u ≤ s.numberOf w → s.numberOf u ≤ s.numberOf v

/-- Every node is in one place at most, numbers grow along the stack, and the trail runs along
it. -/
structure Orderly (g : Graph ν ε) (s : Search) : Prop where
  number_size : s.number.size = g.nodes.size
  nodup : (s.stack ++ s.completed.flatten).Nodup
  known : ∀ v, s.Known v ↔ v ∈ s.stack ∨ v ∈ s.completed.flatten
  waiting : ∀ v : Nat, s.waiting[v]? = some true ↔ v ∈ s.stack
  waiting_size : s.waiting.size = g.nodes.size
  lowest_size : s.lowest.size = g.nodes.size
  lt_next : ∀ v, s.Known v → s.numberOf v < s.next
  descending : s.stack.Pairwise fun v w => s.numberOf w < s.numberOf v
  trail_stack : s.trail.Sublist s.stack
  pending : ∀ x ∈ s.path, ∀ t ∈ x.pending, t ∈ g.successors x.node

/-- What the nodes on the stack reach. An edge from the stack is in hand, or pending, or its target
has been discovered; and where the target waits, the owner of the source knows of it. -/
structure Linked (g : Graph ν ε) (s : Search) (hand : Option (Nat × Nat)) : Prop where
  down : ∀ v ∈ s.trail, ∀ w ∈ s.stack, s.numberOf v ≤ s.numberOf w → g.Reaches v w
  up : ∀ w ∈ s.stack, ∃ v ∈ s.trail, s.numberOf v ≤ s.numberOf w ∧ g.Reaches w v
  lowest : ∀ v ∈ s.trail, s.lowestOf v ≤ s.numberOf v ∧
    ∃ w ∈ s.stack, s.numberOf w = s.lowestOf v ∧ g.Reaches v w
  edges : ∀ w ∈ s.stack, ∀ t ∈ g.successors w, hand = some (w, t) ∨
    (∃ x ∈ s.path, x.node = w ∧ t ∈ x.pending) ∨
    (s.Known t ∧ (t ∈ s.stack → ∀ v ∈ s.trail, s.Owns v w → s.lowestOf v ≤ s.numberOf t))

/-- Members of a completed component reach each other, and edges from it lead to itself or to a
component that was completed before. -/
structure Resolved (g : Graph ν ε) (completed : List (List Nat)) : Prop where
  nonempty : ∀ c ∈ completed, c ≠ []
  strong : ∀ c ∈ completed, ∀ u ∈ c, ∀ v ∈ c, g.Reaches u v
  closed : ∀ later c earlier, completed = later ++ c :: earlier →
    ∀ u ∈ c, ∀ t ∈ g.successors u, t ∈ (c :: earlier).flatten

/-- The stack in two parts: from a node to the top, and what lies below the node. -/
structure Splits (s : Search) (v : Nat) (members rest : List Nat) : Prop where
  stack_eq : s.stack = members ++ rest
  above : ∀ w ∈ members, s.numberOf v ≤ s.numberOf w
  below : ∀ w ∈ rest, s.numberOf w < s.numberOf v

/-- The invariant of the search, with an edge in hand or between steps. -/
structure Valid (g : Graph ν ε) (s : Search) (hand : Option (Nat × Nat)) : Prop where
  orderly : s.Orderly g
  linked : s.Linked g hand
  resolved : Resolved g s.completed

/-! ### Reading after a change -/

section Reading

variable (g : Graph ν ε) (s : Search) (v w : Nat)

theorem numberOf_eq {k : Nat} (h : s.number[v]? = some (some k)) : s.numberOf v = k := by
  simp [numberOf, h]

variable {s v} in
theorem not_known_of_fresh (h : s.number[v]? = some none) : ¬ s.Known v := by
  rintro ⟨k, hk⟩
  rw [h] at hk
  cases hk

theorem lowestOf_lower (n : Nat) : (s.lower v n).lowestOf w =
    if v = w then min n (s.lowestOf w) else s.lowestOf w := by
  rw [lowestOf, lowestOf, lower, Array.getElem?_modify]
  split
  · cases s.lowest[w]? <;> simp
  · rfl

variable {v} (hv : v < s.number.size)
include hv

theorem number_discover : (s.discover g v).number[w]? =
    if v = w then some (some s.next) else s.number[w]? := by
  rw [discover, Array.getElem?_setIfInBounds]
  simp [hv]

theorem numberOf_discover : (s.discover g v).numberOf w =
    if v = w then s.next else s.numberOf w := by
  rw [numberOf, number_discover g s w hv]
  split <;> rfl

theorem known_discover : (s.discover g v).Known w ↔ v = w ∨ s.Known w := by
  rw [Known, number_discover g s w hv]
  by_cases h : v = w <;> simp [h, Known]

end Reading

/-- The search once the members of a component are off the stack. -/
def retire (s : Search) (members rest : List Nat) : Search :=
  { s with
    waiting := members.foldl (fun w v => w.setIfInBounds v false) s.waiting
    stack := rest
    completed := members :: s.completed }

/-- Completing a component takes the nodes down to its root off the stack. -/
theorem complete_eq_retire {s : Search} {root : Nat} {above below : List Nat}
    (hstack : s.stack = above ++ root :: below) (hroot : root ∉ above) :
    s.complete root = s.retire (above ++ [root]) below := by
  have htake : s.stack.takeWhile (· != root) = above := by
    rw [hstack, List.takeWhile_append_of_pos]
    · simp
    · intro v hv
      simp only [bne_iff_ne, ne_eq]
      rintro rfl
      exact hroot hv
  have hdrop : s.stack.dropWhile (· != root) = root :: below := by
    rw [hstack, List.dropWhile_append_of_pos]
    · simp
    · intro v hv
      simp only [bne_iff_ne, ne_eq]
      rintro rfl
      exact hroot hv
  simp only [complete, retire, htake, hdrop, List.tail_cons]

theorem getElem?_foldl_setIfInBounds (members : List Nat) (waiting : Array Bool) (v : Nat) :
    (members.foldl (fun w u => w.setIfInBounds u false) waiting)[v]? =
      if v ∈ members then waiting[v]?.map fun _ => false else waiting[v]? := by
  induction members generalizing waiting with
  | nil => simp
  | cons u rest ih =>
    rw [List.foldl_cons, ih, Array.getElem?_setIfInBounds]
    by_cases huv : u = v
    · subst huv
      by_cases hu : u < waiting.size <;> simp [hu]
    · simp [huv, Ne.symm huv]

theorem size_foldl_setIfInBounds (members : List Nat) (waiting : Array Bool) :
    (members.foldl (fun w u => w.setIfInBounds u false) waiting).size = waiting.size := by
  induction members generalizing waiting with
  | nil => rfl
  | cons u rest ih => rw [List.foldl_cons, ih, Array.size_setIfInBounds]

/-- One more component, all of whose edges stay inside or lead to those completed before. -/
theorem Resolved.cons {g : Graph ν ε} {completed : List (List Nat)} (h : Resolved g completed)
    {c : List Nat} (hne : c ≠ []) (hstrong : ∀ u ∈ c, ∀ v ∈ c, g.Reaches u v)
    (hclosed : ∀ u ∈ c, ∀ t ∈ g.successors u, t ∈ (c :: completed).flatten) :
    Resolved g (c :: completed) := by
  refine ⟨List.forall_mem_cons.mpr ⟨hne, h.nonempty⟩, List.forall_mem_cons.mpr ⟨hstrong, h.strong⟩,
    fun later d earlier heq => ?_⟩
  cases later with
  | nil =>
    obtain ⟨rfl, rfl⟩ := List.cons.inj heq
    exact hclosed
  | cons _ later => exact h.closed later d earlier (List.cons.inj heq).2

namespace Splits

variable {s : Search} {v w : Nat} {members rest : List Nat}

theorem mem_members_iff (hs : s.Splits v members rest) :
    w ∈ members ↔ w ∈ s.stack ∧ s.numberOf v ≤ s.numberOf w := by
  rw [hs.stack_eq, List.mem_append]
  constructor
  · exact fun hw => ⟨.inl hw, hs.above w hw⟩
  · rintro ⟨hw | hw, hle⟩
    · exact hw
    · exact absurd (hs.below w hw) (Nat.not_lt.mpr hle)

theorem mem_rest_iff (hs : s.Splits v members rest) :
    w ∈ rest ↔ w ∈ s.stack ∧ s.numberOf w < s.numberOf v := by
  rw [hs.stack_eq, List.mem_append]
  constructor
  · exact fun hw => ⟨.inr hw, hs.below w hw⟩
  · rintro ⟨hw | hw, hlt⟩
    · exact absurd hlt (Nat.not_lt.mpr (hs.above w hw))
    · exact hw

end Splits

namespace Orderly

variable {g : Graph ν ε} {s : Search} {u v w : Nat}

theorem mem_stack (h : s.Orderly g) (hv : v ∈ s.trail) : v ∈ s.stack := h.trail_stack.subset hv

theorem known_of_mem (h : s.Orderly g) (hv : v ∈ s.stack) : s.Known v := (h.known v).mpr (.inl hv)

theorem lt_next_of_mem (h : s.Orderly g) (hv : v ∈ s.stack) : s.numberOf v < s.next :=
  h.lt_next v (h.known_of_mem hv)

/-- Nodes on the stack are told apart by their numbers. -/
theorem eq_of_numberOf_eq (h : s.Orderly g) (hv : v ∈ s.stack) (hw : w ∈ s.stack)
    (heq : s.numberOf v = s.numberOf w) : v = w := by
  have hnodup : (s.stack.map s.numberOf).Nodup := by
    rw [List.Nodup, List.pairwise_map]
    exact h.descending.imp fun hlt => Nat.ne_of_gt hlt
  exact List.inj_on_of_nodup_map hnodup hv hw heq

/-- A node on the trail owns itself, and no other node does. -/
theorem eq_of_owns (h : s.Orderly g) (hv : v ∈ s.trail) (hw : w ∈ s.trail) (howns : s.Owns v w) :
    v = w :=
  h.eq_of_numberOf_eq (h.mem_stack hv) (h.mem_stack hw)
    (Nat.le_antisymm howns.1 (howns.2 w hw (Nat.le_refl _)))

/-- The node at hand has the greatest number on the trail. -/
theorem lt_of_mem_tail (h : s.Orderly g) {rest : List Nat} (htrail : s.trail = v :: rest)
    (hu : u ∈ rest) :
    s.numberOf u < s.numberOf v := by
  have hpair := h.descending.sublist h.trail_stack
  rw [htrail, List.pairwise_cons] at hpair
  exact hpair.1 u hu

section Fresh

variable {t : Nat} (h : s.Orderly g) (hfresh : s.number[t]? = some none)
include h hfresh

theorem ne_of_mem (hw : w ∈ s.stack) : t ≠ w := by
  rintro rfl
  exact not_known_of_fresh hfresh (h.known_of_mem hw)

theorem lt_of_fresh : t < g.nodes.size := by
  rw [← h.number_size]
  exact (Array.getElem?_eq_some_iff.mp hfresh).1

theorem numberOf_discover_self : (s.discover g t).numberOf t = s.next := by
  rw [numberOf_discover g s t (h.number_size ▸ h.lt_of_fresh hfresh), if_pos rfl]

theorem numberOf_discover_of_mem (hw : w ∈ s.stack) :
    (s.discover g t).numberOf w = s.numberOf w := by
  rw [numberOf_discover g s w (h.number_size ▸ h.lt_of_fresh hfresh),
    if_neg (h.ne_of_mem hfresh hw)]

theorem lowestOf_discover (w : Nat) : (s.discover g t).lowestOf w =
    if t = w then s.next else s.lowestOf w := by
  have hlt : t < s.lowest.size := h.lowest_size ▸ h.lt_of_fresh hfresh
  rw [lowestOf, lowestOf, Search.discover, Array.getElem?_setIfInBounds]
  by_cases htw : t = w
  · simp [htw, htw ▸ hlt]
  · simp [htw]

/-- The node discovered last has the greatest number and stands on top of stack and trail. -/
theorem discover : (s.discover g t).Orderly g := by
  have hlt : t < s.number.size := h.number_size ▸ h.lt_of_fresh hfresh
  have hknown := fun w => known_discover g s w hlt
  have hstack : (s.discover g t).stack = t :: s.stack := rfl
  constructor
  case number_size => simp [Search.discover, h.number_size]
  case waiting_size => simp [Search.discover, h.waiting_size]
  case lowest_size => simp [Search.discover, h.lowest_size]
  case nodup =>
    refine List.nodup_cons.mpr ⟨fun ht => not_known_of_fresh hfresh ?_, h.nodup⟩
    exact (h.known t).mpr (List.mem_append.mp ht)
  case known =>
    intro w
    rw [hknown, hstack, List.mem_cons, h.known, or_assoc, eq_comm]
    rfl
  case waiting =>
    intro w
    have hsize : t < s.waiting.size := h.waiting_size ▸ h.lt_of_fresh hfresh
    rw [hstack, List.mem_cons, ← h.waiting, Search.discover, Array.getElem?_setIfInBounds]
    by_cases htw : t = w
    · simp [htw, htw ▸ hsize]
    · simp [htw, Ne.symm htw]
  case lt_next =>
    intro w hw
    change _ < s.next + 1
    rw [numberOf_discover g s w hlt]
    split
    · exact Nat.lt_succ_self _
    · rename_i htw
      exact Nat.lt_succ_of_lt (h.lt_next w (((hknown w).mp hw).resolve_left htw))
  case descending =>
    rw [hstack, List.pairwise_cons]
    constructor
    · intro w hw
      rw [h.numberOf_discover_of_mem hfresh hw, h.numberOf_discover_self hfresh]
      exact h.lt_next_of_mem hw
    · refine h.descending.imp_of_mem fun hv hw hlt => ?_
      rwa [h.numberOf_discover_of_mem hfresh hv, h.numberOf_discover_of_mem hfresh hw]
  case trail_stack => exact h.trail_stack.cons_cons t
  case pending =>
    intro x hx u hu
    rcases List.mem_cons.mp hx with rfl | hx
    · exact hu
    · exact h.pending x hx u hu

end Fresh

/-- Nodes that get their component leave the stack for good. -/
theorem retire (h : s.Orderly g) {members rest : List Nat} (hs : s.Splits v members rest)
    (htrail : s.trail.Sublist rest) : (s.retire members rest).Orderly g := by
  refine { h with
    nodup := ?_, known := ?_, waiting := ?_, waiting_size := ?_, descending := ?_,
    trail_stack := htrail }
  · refine h.nodup.perm ?_
    rw [hs.stack_eq]
    change (members ++ rest ++ s.completed.flatten).Perm
      (rest ++ (members ++ s.completed.flatten))
    rw [← List.append_assoc]
    exact List.perm_append_comm.append_right _
  · intro w
    have hknown := h.known w
    rw [hs.stack_eq, List.mem_append] at hknown
    change s.Known w ↔ w ∈ rest ∨ w ∈ (members :: s.completed).flatten
    rw [hknown, List.flatten_cons, List.mem_append, or_assoc]
    exact or_left_comm
  · intro w
    change (members.foldl _ s.waiting)[w]? = some true ↔ w ∈ rest
    rw [getElem?_foldl_setIfInBounds, hs.mem_rest_iff]
    split
    · rename_i hw
      have hle := hs.above w hw
      constructor
      · simp
      · exact fun ⟨_, hlt⟩ => absurd hlt (Nat.not_lt.mpr hle)
    · rename_i hw
      rw [hs.mem_members_iff] at hw
      rw [h.waiting]
      exact ⟨fun hmem => ⟨hmem, Nat.lt_of_not_le fun hle => hw ⟨hmem, hle⟩⟩, And.left⟩
  · change (members.foldl _ s.waiting).size = _
    rw [size_foldl_setIfInBounds, h.waiting_size]
  · have hpair := h.descending
    rw [hs.stack_eq] at hpair
    exact (List.pairwise_append.mp hpair).2.1

end Orderly

namespace Valid

variable {g : Graph ν ε} {s : Search} {hand : Option (Nat × Nat)} {v t : Nat}
  {pending : List Nat} {outer : List Visit}

/-! ### Following an edge -/

/-- Taking an edge in hand leaves the trail as it is. -/
theorem take (h : s.Valid g none) (hpath : s.path = ⟨v, t :: pending⟩ :: outer) :
    { s with path := ⟨v, pending⟩ :: outer }.Valid g (some (v, t)) := by
  have htrail : { s with path := ⟨v, pending⟩ :: outer }.trail = s.trail := by simp [trail, hpath]
  have howns : ∀ u w, { s with path := ⟨v, pending⟩ :: outer }.Owns u w ↔ s.Owns u w := by
    intro u w
    rw [Owns, Owns, htrail]
    rfl
  refine ⟨{ h.orderly with trail_stack := ?_, pending := ?_ }, ⟨?_, ?_, ?_, ?_⟩, h.resolved⟩
  · rw [htrail]
    exact h.orderly.trail_stack
  · intro x hx u hu
    rcases List.mem_cons.mp hx with rfl | hx
    · exact h.orderly.pending ⟨v, t :: pending⟩ (by simp [hpath]) u (List.mem_cons_of_mem t hu)
    · exact h.orderly.pending x (by simp [hpath, hx]) u hu
  · rw [htrail]
    exact h.linked.down
  · rw [htrail]
    exact h.linked.up
  · rw [htrail]
    exact h.linked.lowest
  · intro w hw u hu
    rw [htrail]
    rcases h.linked.edges w hw u hu with hhand | ⟨x, hx, rfl, hpend⟩ | ⟨hknown, hlow⟩
    · cases hhand
    · rw [hpath] at hx
      rcases List.mem_cons.mp hx with rfl | hx
      · rcases List.mem_cons.mp hpend with rfl | hpend
        · exact .inl rfl
        · exact .inr (.inl ⟨⟨v, pending⟩, List.mem_cons_self, rfl, hpend⟩)
      · exact .inr (.inl ⟨x, List.mem_cons_of_mem _ hx, rfl, hpend⟩)
    · exact .inr (.inr ⟨hknown, fun ht x hx hown => hlow ht x hx ((howns x w).mp hown)⟩)

/-- Discovering a fresh node that the whole trail reaches. It is the target of the edge in hand, or
a new root. -/
theorem discover (h : s.Valid g hand) (hfresh : s.number[t]? = some none)
    (hhand : ∀ w u, hand = some (w, u) → u = t) (hreach : ∀ u ∈ s.trail, g.Reaches u t) :
    (s.discover g t).Valid g none := by
  have hlt : t < s.number.size := h.orderly.number_size ▸ h.orderly.lt_of_fresh hfresh
  have hknown := fun w => known_discover g s w hlt
  have hself := h.orderly.numberOf_discover_self hfresh
  have hold := fun w => h.orderly.numberOf_discover_of_mem (w := w) hfresh
  have hlowest := h.orderly.lowestOf_discover hfresh
  have hne := fun w => h.orderly.ne_of_mem (w := w) hfresh
  have hnext := fun w => h.orderly.lt_next_of_mem (v := w)
  have hmem := fun w => h.orderly.mem_stack (v := w)
  refine ⟨h.orderly.discover hfresh, ?_, h.resolved⟩
  have htrail : (s.discover g t).trail = t :: s.trail := rfl
  have hstack : (s.discover g t).stack = t :: s.stack := rfl
  constructor <;> rw [htrail, hstack]
  case down =>
    intro u hu w hw hle
    rcases List.mem_cons.mp hu with hut | hu <;> rcases List.mem_cons.mp hw with hwt | hw
    · rw [hut, hwt]
      exact .refl
    · rw [hut, hself, hold w hw] at hle
      exact absurd (hnext w hw) (Nat.not_lt.mpr hle)
    · rw [hwt]
      exact hreach u hu
    · rw [hold u (hmem u hu), hold w hw] at hle
      exact h.linked.down u hu w hw hle
  case up =>
    intro w hw
    rcases List.mem_cons.mp hw with rfl | hw
    · exact ⟨w, List.mem_cons_self, Nat.le_refl _, .refl⟩
    · obtain ⟨u, hu, hle, hr⟩ := h.linked.up w hw
      refine ⟨u, List.mem_cons_of_mem t hu, ?_, hr⟩
      rwa [hold u (hmem u hu), hold w hw]
  case lowest =>
    intro u hu
    rcases List.mem_cons.mp hu with rfl | hu
    · rw [hlowest, if_pos rfl, hself]
      exact ⟨Nat.le_refl _, u, List.mem_cons_self, hself, .refl⟩
    · obtain ⟨hle, w, hw, heq, hr⟩ := h.linked.lowest u hu
      rw [hlowest, if_neg (hne u (hmem u hu)), hold u (hmem u hu)]
      exact ⟨hle, w, List.mem_cons_of_mem t hw, (hold w hw).trans heq, hr⟩
  case edges =>
    intro w hw' u hu
    right
    rcases List.mem_cons.mp hw' with rfl | hw
    · exact .inl ⟨⟨w, g.successors w⟩, List.mem_cons_self, rfl, hu⟩
    rcases h.linked.edges w hw u hu with heq | ⟨x, hx, rfl, hpend⟩ | ⟨hu', hlow⟩
    · -- The lowest number of a node on the trail is at most its own, hence below that of `t`.
      obtain rfl := hhand w u heq
      refine .inr ⟨(hknown u).mpr (.inl rfl), fun _ x hx _ => ?_⟩
      rw [hself, hlowest]
      split
      · exact Nat.le_refl _
      · rename_i hxu
        have hx := (List.mem_cons.mp hx).resolve_left (Ne.symm hxu)
        exact Nat.le_of_lt (Nat.lt_of_le_of_lt (h.linked.lowest x hx).1 (hnext x (hmem x hx)))
    · exact .inl ⟨x, List.mem_cons_of_mem _ hx, rfl, hpend⟩
    · refine .inr ⟨(hknown u).mpr (.inr hu'), fun humem x hx hown => ?_⟩
      have hut : u ≠ t := by
        rintro rfl
        exact not_known_of_fresh hfresh hu'
      have humem := (List.mem_cons.mp humem).resolve_left hut
      have hxt : x ≠ t := by
        -- The node discovered last owns nothing older.
        rintro rfl
        have hle := hown.1
        rw [hself, hold w hw] at hle
        exact absurd (hnext w hw) (Nat.not_lt.mpr hle)
      have hx := (List.mem_cons.mp hx).resolve_left hxt
      rw [hlowest, if_neg (Ne.symm hxt), hold u humem]
      refine hlow humem x hx ⟨?_, fun y hy hle => ?_⟩
      · rw [← hold x (hmem x hx), ← hold w hw]
        exact hown.1
      · rw [← hold y (hmem y hy), ← hold x (hmem x hx)]
        refine hown.2 y (List.mem_cons_of_mem t hy) ?_
        rwa [hold y (hmem y hy), hold w hw]

/-- Noting that a node on the trail reaches a node that waits. -/
theorem lower (h : s.Valid g hand) {w : Nat} (hw : w ∈ s.stack)
    (hreach : g.Reaches v w) : (s.lower v (s.numberOf w)).Valid g hand := by
  have hlowest := s.lowestOf_lower v
  have hle : ∀ u, (s.lower v (s.numberOf w)).lowestOf u ≤ s.lowestOf u := by
    intro u
    rw [hlowest]
    split
    · exact Nat.min_le_right _ _
    · exact Nat.le_refl _
  refine ⟨{ h.orderly with lowest_size := ?_ }, ⟨h.linked.down, h.linked.up, ?_, ?_⟩, h.resolved⟩
  · simp [Search.lower, h.orderly.lowest_size]
  · intro u hu
    obtain ⟨hle', x, hx, heq, hr⟩ := h.linked.lowest u hu
    refine ⟨Nat.le_trans (hle u) hle', ?_⟩
    rw [hlowest]
    split
    · rename_i hvu
      subst hvu
      by_cases hmin : s.numberOf w ≤ s.lowestOf v
      · exact ⟨w, hw, (Nat.min_eq_left hmin).symm, hreach⟩
      · exact ⟨x, hx, heq.trans (Nat.min_eq_right (by omega)).symm, hr⟩
    · exact ⟨x, hx, heq, hr⟩
  · intro u hu t ht
    refine (h.linked.edges u hu t ht).imp_right (Or.imp_right fun ⟨hknown, hlow⟩ => ?_)
    exact ⟨hknown, fun hmem x hx hown => Nat.le_trans (hle x) (hlow hmem x hx hown)⟩

/-- Putting down an edge whose target was discovered and, if it waits, noted. -/
theorem putDown (h : s.Valid g (some (v, t))) (hv : v ∈ s.trail) (hknown : s.Known t)
    (hnoted : t ∈ s.stack → s.lowestOf v ≤ s.numberOf t) : s.Valid g none := by
  refine ⟨h.orderly, ⟨h.linked.down, h.linked.up, h.linked.lowest, fun w hw u hu => ?_⟩, h.resolved⟩
  rcases h.linked.edges w hw u hu with heq | hrest
  · cases heq
    refine .inr (.inr ⟨hknown, fun hmem x hx hown => ?_⟩)
    obtain rfl := h.orderly.eq_of_owns hx hv hown
    exact hnoted hmem
  · exact .inr hrest

/-- Following an edge from the node at hand. -/
theorem follow (wf : g.WellFormed) (h : s.Valid g (some (v, t))) {rest : List Nat}
    (htrail : s.trail = v :: rest) (ht : t ∈ g.successors v) : (s.follow g v t).Valid g none := by
  have hleads := wf.mem_successors.mp ht
  have hv : v ∈ s.trail := by
    rw [htrail]
    exact List.mem_cons_self
  rw [Search.follow]
  split
  · rename_i hfresh
    refine h.discover hfresh (fun w u heq => by cases heq; rfl) fun u hu => ?_
    have hle : s.numberOf u ≤ s.numberOf v := by
      rw [htrail] at hu
      rcases List.mem_cons.mp hu with rfl | hu
      · exact Nat.le_refl _
      · exact Nat.le_of_lt (h.orderly.lt_of_mem_tail htrail hu)
    exact (h.linked.down u hu v (h.orderly.mem_stack hv) hle).tail hleads
  · rename_i k hk
    have hknown : s.Known t := ⟨k, hk⟩
    rw [← s.numberOf_eq t hk]
    split
    · rename_i hwait
      have ht' : t ∈ s.stack := (h.orderly.waiting t).mp (by simpa using hwait)
      refine (h.lower ht' (.single hleads)).putDown hv hknown fun _ => ?_
      rw [lowestOf_lower, if_pos rfl]
      exact Nat.min_le_left _ _
    · rename_i hwait
      refine h.putDown hv hknown fun ht' => absurd ?_ hwait
      simpa using (h.orderly.waiting t).mpr ht'
  · -- Edges have both ends.
    rename_i hnone
    rw [Array.getElem?_eq_none_iff, h.orderly.number_size] at hnone
    exact absurd (wf.lt_of_leads hleads).2 (Nat.not_lt.mpr hnone)

/-! ### Leaving a node -/

section Leave

variable (h : s.Valid g none) (hpath : s.path = ⟨v, []⟩ :: outer)

theorem trail_of_path {x : Visit} (hpath : s.path = x :: outer) :
    s.trail = x.node :: outer.map Visit.node := by
  rw [trail, hpath, List.map_cons]

include h hpath

theorem mem_stack_of_path : v ∈ s.stack :=
  h.orderly.mem_stack (by rw [trail_of_path hpath]; exact List.mem_cons_self)

theorem lt_of_path {u : Nat} (hu : u ∈ outer.map Visit.node) : s.numberOf u < s.numberOf v :=
  h.orderly.lt_of_mem_tail (trail_of_path hpath) hu

/-- All edges of a node that is being left have been followed. -/
theorem edges_of_path {w : Nat} (hw : w ∈ s.stack) (ht : t ∈ g.successors w) :
    (∃ x ∈ outer, x.node = w ∧ t ∈ x.pending) ∨
      (s.Known t ∧ (t ∈ s.stack → ∀ u ∈ s.trail, s.Owns u w → s.lowestOf u ≤ s.numberOf t)) := by
  rcases h.linked.edges w hw t ht with hhand | ⟨x, hx, rfl, hpend⟩ | hrest
  · cases hhand
  · rw [hpath] at hx
    rcases List.mem_cons.mp hx with rfl | hx
    · cases hpend
    · exact .inl ⟨x, hx, rfl, hpend⟩
  · exact .inr hrest

/-- The node at hand owns all nodes from itself to the top of the stack. -/
theorem owns_of_path {w : Nat} (hle : s.numberOf v ≤ s.numberOf w) : s.Owns v w := by
  refine ⟨hle, fun u hu _ => ?_⟩
  rw [trail_of_path hpath] at hu
  rcases List.mem_cons.mp hu with rfl | hu
  · exact Nat.le_refl _
  · exact Nat.le_of_lt (h.lt_of_path hpath hu)

/-- A node that reaches something older stays on the stack when it is left. What it owned belongs to
the node before it from then on, which must have been told. -/
theorem leave (hlt : s.lowestOf v < s.numberOf v)
    (htold : ∀ x ∈ outer.head?, s.lowestOf x.node ≤ s.lowestOf v) :
    { s with path := outer }.Valid g none := by
  have htrail : s.trail = v :: outer.map Visit.node := trail_of_path hpath
  have hsub : ∀ {u}, u ∈ outer.map Visit.node → u ∈ s.trail := by
    intro u hu
    rw [htrail]
    exact List.mem_cons_of_mem v hu
  have hv : v ∈ s.trail := by
    rw [htrail]
    exact List.mem_cons_self
  refine ⟨{ h.orderly with trail_stack := ?_, pending := ?_ }, ⟨?_, ?_, ?_, ?_⟩, h.resolved⟩
  · have hstack := h.orderly.trail_stack
    rw [htrail] at hstack
    exact (List.sublist_cons_self v _).trans hstack
  · exact fun x hx => h.orderly.pending x (by rw [hpath]; exact List.mem_cons_of_mem _ hx)
  · exact fun u hu => h.linked.down u (hsub hu)
  · -- From what `v` reaches a path leads to a node on the trail that is older than `v`.
    obtain ⟨-, low, hlow, hlowEq, hvlow⟩ := h.linked.lowest v hv
    obtain ⟨q, hq, hqle, hlowq⟩ := h.linked.up low hlow
    have hqrest : q ∈ outer.map Visit.node := by
      rw [htrail] at hq
      refine (List.mem_cons.mp hq).resolve_left ?_
      rintro rfl
      omega
    intro w hw
    obtain ⟨u, hu, hle, hr⟩ := h.linked.up w hw
    rw [htrail] at hu
    rcases List.mem_cons.mp hu with rfl | hu
    · have hqw : s.numberOf q ≤ s.numberOf w := by
        have := h.lt_of_path hpath hqrest
        omega
      exact ⟨q, hqrest, hqw, hr.trans (hvlow.trans hlowq)⟩
    · exact ⟨u, hu, hle, hr⟩
  · exact fun u hu => h.linked.lowest u (hsub hu)
  · intro w hw t ht
    right
    rcases h.edges_of_path hpath hw ht with hpend | ⟨hknown, hlow⟩
    · exact .inl hpend
    refine .inr ⟨hknown, fun htmem u hu hown => ?_⟩
    by_cases hvw : s.numberOf v ≤ s.numberOf w
    · cases outer with
      | nil => cases hu
      | cons x rest =>
        have hx : x.node ∈ (x :: rest).map Visit.node := List.mem_cons_self
        have hxu : u = x.node := by
          refine h.orderly.eq_of_numberOf_eq (h.orderly.mem_stack (hsub hu))
            (h.orderly.mem_stack (hsub hx)) (Nat.le_antisymm ?_ ?_)
          · have hpair := h.orderly.descending.sublist h.orderly.trail_stack
            rw [htrail, List.map_cons, List.pairwise_cons, List.pairwise_cons] at hpair
            rcases List.mem_cons.mp hu with rfl | hu
            · exact Nat.le_refl _
            · exact Nat.le_of_lt (hpair.2.1 u hu)
          · exact hown.2 x.node hx (Nat.le_trans (Nat.le_of_lt (h.lt_of_path hpath hx)) hvw)
        rw [hxu]
        exact Nat.le_trans (htold x rfl) (hlow htmem v hv (h.owns_of_path hpath hvw))
    · refine hlow htmem u (hsub hu) ⟨hown.1, fun u' hu' hle' => ?_⟩
      rw [htrail] at hu'
      rcases List.mem_cons.mp hu' with rfl | hu'
      · exact absurd hle' hvw
      · exact hown.2 u' hu' hle'

omit h in
/-- The stack around the node at hand: what was discovered from it on, and what before. -/
theorem exists_splits (h : s.Orderly g) : ∃ above below, s.stack = above ++ v :: below ∧
    v ∉ above ∧ (outer.map Visit.node).Sublist below ∧ s.Splits v (above ++ [v]) below := by
  have hsub := h.trail_stack
  rw [trail_of_path hpath] at hsub
  obtain ⟨above, below, hstack⟩ := List.append_of_mem (hsub.subset List.mem_cons_self)
  have hpair := h.descending
  rw [hstack, List.pairwise_append, List.pairwise_cons] at hpair
  have hv : v ∉ above := fun hmem =>
    Nat.lt_irrefl _ (hpair.2.2 v hmem v List.mem_cons_self)
  refine ⟨above, below, hstack, hv, ?_, ?_, ?_, hpair.2.1.1⟩
  · -- The part of the trail above `v` would have to start with `v`.
    rw [hstack, List.sublist_append_iff] at hsub
    obtain ⟨l₁, l₂, heq, h₁, h₂⟩ := hsub
    cases l₁ with
    | nil =>
      rw [List.nil_append] at heq
      rw [← heq] at h₂
      exact List.cons_sublist_cons.mp h₂
    | cons u l₁ =>
      obtain ⟨rfl, -⟩ := List.cons.inj heq
      exact absurd (h₁.subset List.mem_cons_self) hv
  · rw [hstack, List.append_assoc, List.singleton_append]
  · intro w hw
    rcases List.mem_append.mp hw with hw | hw
    · exact Nat.le_of_lt (hpair.2.2 w hw v List.mem_cons_self)
    · exact Nat.le_of_eq (by rw [List.mem_singleton.mp hw])

/-- What lies below a component on the stack knows as much as before. -/
theorem linked_retire {members rest : List Nat} (hs : s.Splits v members rest) :
    ({ s with path := outer }.retire members rest).Linked g none := by
  have htrail : s.trail = v :: outer.map Visit.node := trail_of_path hpath
  have hsub : ∀ {u}, u ∈ outer.map Visit.node → u ∈ s.trail := by
    intro u hu
    rw [htrail]
    exact List.mem_cons_of_mem v hu
  have hstack : ∀ {w}, w ∈ rest → w ∈ s.stack := fun hw => (hs.mem_rest_iff.mp hw).1
  constructor
  case down => exact fun u hu w hw => h.linked.down u (hsub hu) w (hstack hw)
  case up =>
    intro w hw
    obtain ⟨u, hu, hle, hr⟩ := h.linked.up w (hstack hw)
    rw [htrail] at hu
    refine ⟨u, (List.mem_cons.mp hu).resolve_left ?_, hle, hr⟩
    rintro rfl
    exact absurd (hs.below w hw) (Nat.not_lt.mpr hle)
  case lowest =>
    intro u hu
    obtain ⟨hle, w, hw, heq, hr⟩ := h.linked.lowest u (hsub hu)
    have hlt := h.lt_of_path hpath hu
    exact ⟨hle, w, hs.mem_rest_iff.mpr ⟨hw, by omega⟩, heq, hr⟩
  case edges =>
    intro w hw t ht
    right
    refine (h.edges_of_path hpath (hstack hw) ht).imp_right fun ⟨hknown, hlow⟩ => ?_
    refine ⟨hknown, fun htmem u hu hown => ?_⟩
    refine hlow (hstack htmem) u (hsub hu) ⟨hown.1, fun u' hu' hle' => ?_⟩
    rw [htrail] at hu'
    rcases List.mem_cons.mp hu' with rfl | hu'
    · exact absurd (hs.below w hw) (Nat.not_lt.mpr hle')
    · exact hown.2 u' hu' hle'

/-- From a node that reaches nothing older than itself to the top of the stack stands a
component. -/
theorem resolved_retire {members rest : List Nat} (hs : s.Splits v members rest)
    (heq : s.lowestOf v = s.numberOf v) : Resolved g (members :: s.completed) := by
  have htrail : s.trail = v :: outer.map Visit.node := trail_of_path hpath
  have hv : v ∈ s.trail := by
    rw [htrail]
    exact List.mem_cons_self
  have hvmem : v ∈ members := hs.mem_members_iff.mpr ⟨h.mem_stack_of_path hpath, Nat.le_refl _⟩
  refine h.resolved.cons (List.ne_nil_of_mem hvmem) ?_ ?_
  · intro u hu w hw
    obtain ⟨humem, -⟩ := hs.mem_members_iff.mp hu
    obtain ⟨hwmem, hwle⟩ := hs.mem_members_iff.mp hw
    obtain ⟨x, hx, -, hux⟩ := h.linked.up u humem
    have hxle : s.numberOf x ≤ s.numberOf v := by
      rw [htrail] at hx
      rcases List.mem_cons.mp hx with rfl | hx
      · exact Nat.le_refl _
      · exact Nat.le_of_lt (h.lt_of_path hpath hx)
    have hxv : g.Reaches x v := h.linked.down x hx v (h.mem_stack_of_path hpath) hxle
    exact hux.trans (hxv.trans (h.linked.down v hv w hwmem hwle))
  · intro u hu t ht
    obtain ⟨humem, hule⟩ := hs.mem_members_iff.mp hu
    rw [List.flatten_cons, List.mem_append]
    rcases h.edges_of_path hpath humem ht with ⟨x, hx, rfl, -⟩ | ⟨hknown, hlow⟩
    · -- Nodes with pending edges are older than `v`.
      exact absurd (h.lt_of_path hpath (List.mem_map_of_mem hx)) (Nat.not_lt.mpr hule)
    · refine ((h.orderly.known t).mp hknown).imp_left fun htmem => ?_
      have hle := hlow htmem v hv (h.owns_of_path hpath hule)
      exact hs.mem_members_iff.mpr ⟨htmem, heq ▸ hle⟩

/-- A node that reaches nothing older than itself completes a component. -/
theorem complete (heq : s.lowestOf v = s.numberOf v) :
    ({ s with path := outer }.complete v).Valid g none := by
  obtain ⟨above, below, hstack, hnot, hsub, hs⟩ := exists_splits hpath h.orderly
  have houter : { s with path := outer }.Orderly g :=
    { h.orderly with
      trail_stack := by
        rw [hstack]
        exact (hsub.trans (List.sublist_cons_self v below)).trans (List.sublist_append_right _ _)
      pending := fun x hx => h.orderly.pending x (by rw [hpath]; exact List.mem_cons_of_mem _ hx) }
  rw [complete_eq_retire (s := { s with path := outer }) hstack hnot]
  exact ⟨houter.retire (v := v) ⟨hs.stack_eq, hs.above, hs.below⟩ hsub, h.linked_retire hpath hs,
    h.resolved_retire hpath hs heq⟩

/-- Leaving the node at hand, once the node before it was told. -/
theorem leave_or_complete (htold : ∀ x ∈ outer.head?, s.lowestOf x.node ≤ s.lowestOf v) :
    (if s.number[v]? == some (some (s.lowestOf v)) then { s with path := outer }.complete v
      else { s with path := outer }).Valid g none := by
  have hv : v ∈ s.trail := by
    rw [trail_of_path hpath]
    exact List.mem_cons_self
  obtain ⟨k, hk⟩ := h.orderly.known_of_mem (h.orderly.mem_stack hv)
  have hnum := s.numberOf_eq v hk
  rw [hk, ← hnum]
  split
  · rename_i heq
    exact h.complete hpath (by simpa using Eq.symm (beq_iff_eq.mp heq))
  · rename_i hne
    refine h.leave hpath (Nat.lt_of_le_of_ne (h.linked.lowest v hv).1 fun heq => hne ?_) htold
    rw [heq, beq_self_eq_true]

end Leave

/-- Leaving the node at hand. -/
theorem backtrack (h : s.Valid g none) (hpath : s.path = ⟨v, []⟩ :: outer) :
    (Search.backtrack v { s with path := outer }).Valid g none := by
  cases outer with
  | nil => exact h.leave_or_complete hpath (by simp)
  | cons x rest =>
    have htrail : s.trail = v :: x.node :: rest.map Visit.node := trail_of_path hpath
    have hlt : s.numberOf x.node < s.numberOf v := h.lt_of_path hpath List.mem_cons_self
    -- The node before reaches what the node at hand reaches.
    obtain ⟨-, low, hlow, hlowEq, hvlow⟩ := h.linked.lowest v (by simp [htrail])
    have hxv : g.Reaches x.node v :=
      h.linked.down x.node (by simp [htrail]) v (h.mem_stack_of_path hpath) (Nat.le_of_lt hlt)
    have htold := h.lower hlow (hxv.trans hvlow)
    rw [hlowEq] at htold
    have hself : (s.lower x.node (s.lowestOf v)).lowestOf v = s.lowestOf v := by
      rw [lowestOf_lower, if_neg]
      rintro heq
      rw [heq] at hlt
      exact Nat.lt_irrefl _ hlt
    have hleave := htold.leave_or_complete hpath (by
      intro y hy
      cases hy
      rw [hself, lowestOf_lower, if_pos rfl]
      exact Nat.min_le_left _ _)
    rw [hself] at hleave
    exact hleave

/-- A step keeps the invariant. -/
theorem step (wf : g.WellFormed) (h : s.Valid g none) : (s.step g).Valid g none := by
  rw [Search.step]
  split
  · exact h
  · rename_i v outer hpath
    exact h.backtrack hpath
  · rename_i v t pending outer hpath
    refine (h.take hpath).follow wf rfl ?_
    exact h.orderly.pending ⟨v, t :: pending⟩ (by rw [hpath]; exact List.mem_cons_self) t
      List.mem_cons_self

end Valid

end Search

end Inlining
