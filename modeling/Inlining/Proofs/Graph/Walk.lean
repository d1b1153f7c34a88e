import Inlining.Proofs.Graph.Components
import Mathlib.Logic.Function.Iterate

/-!
# The search as a walk

The search keeps tables with one entry for each node, reads and writes them by position, and goes on
until its path is empty. Here it is written out once more with every such access and with a log:
which node is entered, which edge is taken off the visit of its source, and which position of a
table is read or written. A component is taken off the stack member by member until its root turns
up. The log is there to be counted; without it the walk is the search, since the root of a component
is always found on the stack.

What the log holds follows from three moves. Taking an edge moves it from the visit to the log, so
what was taken from a node and what is pending are its successors together; entering a node makes
all of them pending; and a visit is left when nothing is. At the end nothing is pending.

## Main definitions

* `Walk` — a search with the log of what it did
* `Walk.step`, `Walk.explore` — the search with its log
* `Walk.Accounts` — what the log says of the search
* `Walk.Tracks` — the walk has come as far as a search, and its log accounts for it

## Main results

* `Walk.Tracks.step` — a step of the walk is a step of the search, and keeps the accounts
* `Walk.Tracks.exploreAll` — and so it is from any roots
* `Graph.walk_covers_once` — every node is entered once and every edge taken once, within the tables
-/

namespace Inlining

/-- Something that a walk does. -/
inductive Walk.Event where
  /-- A node is entered. -/
  | enter (node : Nat)
  /-- An edge is taken off the visit of its source. -/
  | take (source target : Nat)
  /-- The entry of a table at a position is read or written. -/
  | touch (position : Nat)

/-- A search and what it has done so far. -/
structure Walk where
  search : Search
  /-- What was done, the last first. -/
  log : List Walk.Event := []

namespace Walk

variable {ν ε α β : Type}

/-- A table of the search. -/
structure Table (α : Type) where
  entries : Search → Array α
  put : Search → Array α → Search

namespace Table

def number : Table (Option Nat) where
  entries := Search.number
  put s number := { s with number }

def lowest : Table Nat where
  entries := Search.lowest
  put s lowest := { s with lowest }

def waiting : Table Bool where
  entries := Search.waiting
  put s waiting := { s with waiting }

end Table

/-! ### The steps of a walk -/

/-- Adds to the log. -/
def note (e : Event) : StateM Walk Unit := modify fun w => { w with log := e :: w.log }

/-- Changes the search. -/
def change (f : Search → Search) : StateM Walk Unit :=
  modify fun w => { w with search := f w.search }

/-- Reads an entry of a table. -/
def read (table : Table α) (position : Nat) : StateM Walk (Option α) := do
  note (.touch position)
  return (table.entries (← get).search)[position]?

/-- Writes an entry of a table. -/
def write (table : Table α) (position : Nat) (entry : α) : StateM Walk Unit := do
  note (.touch position)
  change fun s => table.put s ((table.entries s).setIfInBounds position entry)

/-- Enters a node. -/
def enter (g : Graph ν ε) (node : Nat) : StateM Walk Unit := do
  note (.enter node)
  let next := (← get).search.next
  write .number node (some next)
  write .lowest node next
  change fun s => { s with stack := node :: s.stack, next := next + 1 }
  write .waiting node true
  change fun s => { s with path := { node, pending := g.successors node } :: s.path }

/-- Notes that a node's subtree reaches the given number. -/
def lower (node number : Nat) : StateM Walk Unit := do
  let old ← read .lowest node
  write .lowest node (min number (old.getD 0))

/-- Takes nodes off the stack until the root of a component has been taken, or the stack is empty,
and returns them. -/
def popTo (root : Nat) : List Nat → StateM Walk (List Nat)
  | [] => return []
  | member :: rest => do
    change fun s => { s with stack := rest }
    write .waiting member false
    if member = root then return [member]
    else return member :: (← popTo root rest)

/-- Completes the component with the given root. -/
def close (root : Nat) : StateM Walk Unit := do
  let members ← popTo root (← get).search.stack
  change fun s => { s with completed := members :: s.completed }

/-- Follows an edge. -/
def follow (g : Graph ν ε) (node target : Nat) : StateM Walk Unit := do
  match ← read .number target with
  | some none => enter g target
  | some (some number) =>
    if (← read .waiting target) == some true then lower node number
  | none => return

/-- Notes that the node at hand reaches the given number, if there is such a node. -/
def tell (number : Nat) : StateM Walk Unit := do
  match (← get).search.path with
  | outer :: _ => lower outer.node number
  | [] => return

/-- Completes the component of a node that has the given number. -/
def settle (node number : Nat) : StateM Walk Unit := do
  if (← read .number node) == some (some number) then close node

/-- Leaves a node. -/
def backtrack (node : Nat) : StateM Walk Unit := do
  let lowest := (← read .lowest node).getD 0
  tell lowest
  settle node lowest

/-- One step, at the node at hand. -/
def step (g : Graph ν ε) : StateM Walk Unit := do
  match (← get).search.path with
  | [] => return
  | { node, pending := [] } :: outer =>
    change fun s => { s with path := outer }
    backtrack node
  | { node, pending := target :: pending } :: outer =>
    note (.take node target)
    change fun s => { s with path := { node, pending } :: outer }
    follow g node target

/-- Steps until the path is empty, at most as often as given. -/
def run (g : Graph ν ε) : Nat → StateM Walk Unit
  | 0 => return
  | n + 1 => do
    unless (← get).search.path.isEmpty do
      step g
      run g n

/-- Walks through all that can be reached from a node, if it is fresh. -/
def explore (g : Graph ν ε) (root : Nat) : StateM Walk Unit := do
  if (← read .number root) == some none then
    enter g root
    run g g.work

theorem bind_apply (x : StateM Walk α) (f : α → StateM Walk β) (w : Walk) :
    (x >>= f) w = f (x w).1 (x w).2 := rfl

theorem get_apply (w : Walk) : (get : StateM Walk Walk) w = (w, w) := rfl

theorem enter_apply (g : Graph ν ε) (v : Nat) (w : Walk) : (enter g v w).2 =
    { search := w.search.discover g v
      log := .touch v :: .touch v :: .touch v :: .enter v :: w.log } := rfl

theorem lower_apply (v n : Nat) (w : Walk) : (lower v n w).2 =
    { search := w.search.lower v n
      log := .touch v :: .touch v :: w.log } := by
  have hset : w.search.lowest.modify v (min n) =
      w.search.lowest.setIfInBounds v (min n (w.search.lowestOf v)) := by
    refine Array.ext_getElem? fun i => ?_
    rw [Array.getElem?_modify, Array.getElem?_setIfInBounds, Search.lowestOf]
    split
    · rename_i hvi
      subst hvi
      by_cases hv : v < w.search.lowest.size <;> simp [hv]
    · rfl
  rw [Search.lower, hset]
  rfl

/-- Where the root is on the stack, the nodes down to it are taken off and come out. -/
theorem popTo_apply {root : Nat} {above : List Nat} (hroot : root ∉ above) (below : List Nat)
    (w : Walk) : popTo root (above ++ root :: below) w = (above ++ [root],
      { search := { w.search with
          waiting := (above ++ [root]).foldl (fun t v => t.setIfInBounds v false) w.search.waiting
          stack := below }
        log := ((above ++ [root]).map Event.touch).reverse ++ w.log }) := by
  induction above generalizing w with
  | nil =>
    rw [List.nil_append, popTo, if_pos rfl]
    rfl
  | cons v above ih =>
    obtain ⟨hne, habove⟩ := not_or.mp (mt List.mem_cons.mpr hroot)
    rw [List.cons_append, popTo, if_neg (Ne.symm hne), bind_apply, bind_apply, bind_apply,
      ih habove, List.cons_append, List.map_cons, List.reverse_cons, List.append_assoc]
    rfl

theorem close_apply {root : Nat} {above below : List Nat} {w : Walk}
    (hstack : w.search.stack = above ++ root :: below) (hroot : root ∉ above) :
    (close root w).2 =
      { search := w.search.complete root
        log := ((above ++ [root]).map Event.touch).reverse ++ w.log } := by
  have hpop := popTo_apply hroot below w
  rw [← hstack] at hpop
  rw [Search.complete_eq_retire hstack hroot, close, bind_apply, bind_apply]
  change (change _ (popTo root w.search.stack w).2).2 = _
  rw [get_apply, hpop]
  rfl

/-! ### What the log says -/

/-- The nodes entered. -/
def entered : List Event → List Nat
  | [] => []
  | .enter v :: log => entered log ++ [v]
  | .take _ _ :: log => entered log
  | .touch _ :: log => entered log

/-- The targets of the edges taken from a node, in order. -/
def taken (v : Nat) : List Event → List Nat
  | [] => []
  | .enter _ :: log => taken v log
  | .take u t :: log => if u = v then taken v log ++ [t] else taken v log
  | .touch _ :: log => taken v log

/-- The positions of tables that were read or written. -/
def touched : List Event → List Nat
  | [] => []
  | .enter _ :: log => touched log
  | .take _ _ :: log => touched log
  | .touch i :: log => touched log ++ [i]

/-- The successors of a node still to look at. -/
def pendingOf (path : List Visit) (v : Nat) : List Nat :=
  (path.filter fun x => x.node == v).flatMap Visit.pending

theorem pendingOf_cons (x : Visit) (path : List Visit) (v : Nat) :
    pendingOf (x :: path) v = (if x.node = v then x.pending else []) ++ pendingOf path v := by
  by_cases hx : x.node = v <;> simp [pendingOf, hx]

/-- What the log says of the search: the nodes known are those entered, none of them twice; of a
node that was entered the edges are taken or pending, each once and in order; and no position is
outside the tables. -/
structure Accounts (g : Graph ν ε) (s : Search) (log : List Event) : Prop where
  nodup : (entered log).Nodup
  entered : ∀ v, v ∈ entered log ↔ s.Known v
  edges : ∀ v, taken v log ++ pendingOf s.path v =
    if v ∈ Walk.entered log then g.successors v else []
  touched : ∀ i ∈ touched log, i < g.nodes.size

namespace Accounts

variable {g : Graph ν ε} {s : Search} {log : List Event} {v t : Nat}

theorem start (g : Graph ν ε) : Accounts g (.start g.nodes.size) [] where
  nodup := List.nodup_nil
  entered v := by
    have hrests := Search.Rests.start g
    rw [hrests.known_iff]
    rfl
  edges _ := rfl
  touched _ hi := by cases hi

/-- The accounts depend on the numbers and on what is pending. -/
theorem congr (h : Accounts g s log) {s' : Search} (hnumber : s'.number = s.number)
    (hpending : ∀ v, pendingOf s'.path v = pendingOf s.path v) : Accounts g s' log where
  nodup := h.nodup
  entered v := by
    rw [h.entered, Search.Known, Search.Known, hnumber]
  edges v := by
    rw [hpending, h.edges]
  touched := h.touched

theorem touch (h : Accounts g s log) (hv : v < g.nodes.size) :
    Accounts g s (.touch v :: log) where
  nodup := h.nodup
  entered := h.entered
  edges := h.edges
  touched i hi := by
    rcases List.mem_append.mp hi with hi | hi
    · exact h.touched i hi
    · rwa [List.mem_singleton.mp hi]

theorem touchAll (h : Accounts g s log) {positions : List Nat}
    (hlt : ∀ i ∈ positions, i < g.nodes.size) :
    Accounts g s ((positions.map Event.touch).reverse ++ log) := by
  induction positions generalizing log with
  | nil => exact h
  | cons i rest ih =>
    rw [List.forall_mem_cons] at hlt
    rw [List.map_cons, List.reverse_cons, List.append_assoc]
    exact ih (h.touch hlt.1) hlt.2

/-- An edge that is taken was the next one pending. -/
theorem take (h : Accounts g s log) {pending : List Nat} {outer : List Visit}
    (hpath : s.path = ⟨v, t :: pending⟩ :: outer) :
    Accounts g { s with path := ⟨v, pending⟩ :: outer } (.take v t :: log) where
  nodup := h.nodup
  entered := h.entered
  edges u := by
    refine Eq.trans ?_ (h.edges u)
    rw [hpath, taken, pendingOf_cons, pendingOf_cons]
    by_cases hu : v = u <;> simp [hu]
  touched := h.touched

/-- A visit is left when nothing is pending in it. -/
theorem leave (h : Accounts g s log) {outer : List Visit} (hpath : s.path = ⟨v, []⟩ :: outer) :
    Accounts g { s with path := outer } log := by
  refine h.congr rfl fun u => ?_
  rw [hpath, pendingOf_cons, ite_self, List.nil_append]

/-- Entering a node makes all its edges pending. None was taken or pending before. -/
theorem enter (h : Accounts g s log) (hfresh : s.number[v]? = some none) :
    Accounts g (s.discover g v) (.enter v :: log) := by
  have hlt : v < s.number.size := (Array.getElem?_eq_some_iff.mp hfresh).1
  have hnew : v ∉ Walk.entered log := mt (h.entered v).mp (Search.not_known_of_fresh hfresh)
  constructor
  case nodup =>
    refine List.nodup_append.mpr ⟨h.nodup, List.nodup_singleton v, fun u hu w hw => ?_⟩
    rw [List.mem_singleton.mp hw]
    rintro rfl
    exact hnew hu
  case entered =>
    intro u
    rw [Search.known_discover g s u hlt, Walk.entered, List.mem_append, h.entered,
      List.mem_singleton, or_comm, eq_comm]
  case edges =>
    intro u
    have hedges := h.edges u
    change taken u log ++ pendingOf (⟨v, g.successors v⟩ :: s.path) u = _
    rw [pendingOf_cons]
    by_cases hu : v = u
    · subst hu
      rw [if_neg hnew, List.append_eq_nil_iff] at hedges
      simp [Walk.entered, hedges]
    · simpa [Walk.entered, hu, Ne.symm hu] using hedges
  case touched => exact h.touched

end Accounts

/-! ### The walk is the search -/

/-- The walk has come as far as the search, and its log accounts for it. -/
structure Tracks (g : Graph ν ε) (w : Walk) (s : Search) : Prop where
  search : w.search = s
  accounts : Accounts g s w.log

namespace Tracks

variable {g : Graph ν ε} {w : Walk} {s : Search} {v t : Nat}

theorem enter (h : w.Tracks g s) (hv : v < g.nodes.size) (hfresh : s.number[v]? = some none) :
    (Walk.enter g v w).2.Tracks g (s.discover g v) := by
  obtain ⟨rfl, h⟩ := h
  rw [enter_apply]
  exact ⟨rfl, (((h.enter hfresh).touch hv).touch hv).touch hv⟩

theorem lower (h : w.Tracks g s) (hv : v < g.nodes.size) (n : Nat) :
    (Walk.lower v n w).2.Tracks g (s.lower v n) := by
  obtain ⟨rfl, h⟩ := h
  rw [lower_apply]
  exact ⟨rfl, ((h.touch hv).touch hv).congr rfl fun _ => rfl⟩

theorem close (h : w.Tracks g s) (hv : v ∈ s.stack) (hlt : ∀ u ∈ s.stack, u < g.nodes.size) :
    (Walk.close v w).2.Tracks g (s.complete v) := by
  obtain ⟨rfl, h⟩ := h
  obtain ⟨above, below, hstack, hnot⟩ := List.eq_append_cons_of_mem hv
  rw [close_apply hstack hnot]
  refine ⟨rfl, (h.touchAll fun i hi => hlt i ?_).congr rfl fun _ => rfl⟩
  rw [hstack, List.append_cons]
  exact List.mem_append_left below hi

theorem read (h : w.Tracks g s) (hv : v < g.nodes.size) (table : Table α) :
    (Walk.read table v w).1 = (table.entries s)[v]? ∧ (Walk.read table v w).2.Tracks g s := by
  obtain ⟨rfl, h⟩ := h
  exact ⟨rfl, rfl, h.touch hv⟩

theorem follow (h : w.Tracks g s) (hv : v < g.nodes.size) (ht : t < g.nodes.size) :
    (Walk.follow g v t w).2.Tracks g (s.follow g v t) := by
  obtain ⟨hnumber, h⟩ := h.read ht .number
  change _ = s.number[t]? at hnumber
  rw [Walk.follow, bind_apply, hnumber, Search.follow]
  rcases hn : s.number[t]? with _ | _ | n
  · exact h
  · exact h.enter ht hn
  · obtain ⟨hwaiting, h⟩ := h.read ht .waiting
    change _ = s.waiting[t]? at hwaiting
    simp only [bind_apply, hwaiting]
    split
    · exact h.lower hv n
    · exact h

theorem tell (h : w.Tracks g s) (hpath : ∀ x ∈ s.path, x.node < g.nodes.size) (n : Nat) :
    (Walk.tell n w).2.Tracks g (match s.path with
      | outer :: _ => s.lower outer.node n
      | [] => s) := by
  rw [Walk.tell, bind_apply, get_apply, h.search]
  cases hp : s.path with
  | nil => exact h
  | cons x rest => exact h.lower (hpath x (by simp [hp])) n

theorem settle (h : w.Tracks g s) (hv : v ∈ s.stack) (hlt : ∀ u ∈ s.stack, u < g.nodes.size)
    (n : Nat) : (Walk.settle v n w).2.Tracks g
      (if s.number[v]? == some (some n) then s.complete v else s) := by
  obtain ⟨hnumber, h⟩ := h.read (hlt v hv) .number
  change _ = s.number[v]? at hnumber
  rw [Walk.settle, bind_apply, hnumber]
  split
  · exact h.close hv hlt
  · exact h

theorem backtrack (h : w.Tracks g s) (hv : v ∈ s.stack) (hlt : ∀ u ∈ s.stack, u < g.nodes.size)
    (hpath : ∀ x ∈ s.path, x.node < g.nodes.size) :
    (Walk.backtrack v w).2.Tracks g (s.backtrack v) := by
  obtain ⟨hlowest, h⟩ := h.read (hlt v hv) .lowest
  have htold := h.tell hpath (s.lowestOf v)
  rw [Walk.backtrack, bind_apply, bind_apply, hlowest, Search.backtrack]
  cases hp : s.path <;> rw [hp] at htold <;> exact htold.settle hv hlt _

/-- A step of the walk is a step of the search. -/
theorem step (wf : g.WellFormed) (h : w.Tracks g s) (valid : s.Valid g none) :
    (Walk.step g w).2.Tracks g (s.step g) := by
  have hstack : ∀ u ∈ s.stack, u < g.nodes.size := by
    intro u hu
    obtain ⟨k, hk⟩ := valid.orderly.known_of_mem hu
    rw [← valid.orderly.number_size]
    exact (Array.getElem?_eq_some_iff.mp hk).1
  have htrail : ∀ x ∈ s.path, x.node ∈ s.stack := fun x hx =>
    valid.orderly.mem_stack (List.mem_map_of_mem hx)
  rw [Walk.step, bind_apply, get_apply, h.search, Search.step]
  rcases hpath : s.path with _ | ⟨⟨v, _ | ⟨t, pending⟩⟩, outer⟩ <;> rw [hpath] at htrail
  · exact h
  · have hleft : { w with search := { w.search with path := outer } }.Tracks g
        { s with path := outer } := by
      obtain ⟨rfl, h⟩ := h
      exact ⟨rfl, h.leave hpath⟩
    exact hleft.backtrack (htrail ⟨v, []⟩ List.mem_cons_self) hstack
      fun x hx => hstack _ (htrail x (List.mem_cons_of_mem _ hx))
  · have ht : t ∈ g.successors v :=
      valid.orderly.pending ⟨v, t :: pending⟩ (by simp [hpath]) t List.mem_cons_self
    have htaken : Tracks g
        { search := { w.search with path := ⟨v, pending⟩ :: outer }, log := .take v t :: w.log }
        { s with path := ⟨v, pending⟩ :: outer } := by
      obtain ⟨rfl, h⟩ := h
      exact ⟨rfl, h.take hpath⟩
    exact htaken.follow (hstack v (htrail ⟨v, t :: pending⟩ List.mem_cons_self))
      (wf.lt_of_leads (wf.mem_successors.mp ht)).2

theorem run (wf : g.WellFormed) (h : w.Tracks g s) (valid : s.Valid g none) (n : Nat) :
    (Walk.run g n w).2.Tracks g (s.run g n) := by
  induction n generalizing w s with
  | zero => exact h
  | succ n ih =>
    rw [Walk.run, bind_apply, get_apply, h.search, Search.run]
    split
    · exact h
    · exact ih (h.step wf valid) (valid.step wf)

theorem explore (wf : g.WellFormed) (h : w.Tracks g s) (rests : s.Rests g) {root : Nat}
    (hroot : root < g.nodes.size) : (Walk.explore g root w).2.Tracks g (g.explore s root) := by
  obtain ⟨hnumber, h⟩ := h.read hroot .number
  rw [Walk.explore, bind_apply, hnumber, Graph.explore, Search.isFresh]
  change Tracks g ((if s.number[root]? == some none then _ else _ : StateM Walk Unit) _).2 _
  split
  · rename_i hfresh
    rw [beq_iff_eq] at hfresh
    exact (h.enter hroot hfresh).run wf (rests.discover hfresh) g.work
  · exact h

theorem exploreAll (wf : g.WellFormed) (h : w.Tracks g s) (rests : s.Rests g) {roots : List Nat}
    (hroots : ∀ root ∈ roots, root < g.nodes.size) :
    (roots.forM (Walk.explore g) w).2.Tracks g (roots.foldl g.explore s) := by
  induction roots generalizing w s with
  | nil => exact h
  | cons root rest ih =>
    rw [List.forall_mem_cons] at hroots
    exact ih (h.explore wf rests hroots.1) (rests.explore wf root) hroots.2

end Tracks

end Walk

/-- Some number of steps makes up a run. -/
theorem Search.exists_iterate_eq_run {ν ε : Type} (g : Graph ν ε) (n : Nat) (s : Search) :
    ∃ m, (step g)^[m] s = s.run g n := by
  induction n generalizing s with
  | zero => exact ⟨0, rfl⟩
  | succ n ih =>
    rw [run]
    split
    · exact ⟨0, rfl⟩
    · obtain ⟨m, hm⟩ := ih (s.step g)
      exact ⟨m + 1, hm⟩

namespace Graph

variable {ν ε : Type}

/-- The walk through the whole graph. -/
def walk (g : Graph ν ε) : Walk :=
  ((List.range g.nodes.size).forM (Walk.explore g) { search := .start g.nodes.size }).2

variable {g : Graph ν ε}

/-- **The walk ends, covers the graph once, and stays within its tables.** Before and after each
root the stack and the path are empty. From a root that is fresh, some number of steps leads to the
state in which the next root is looked at, where the path is empty again. Over the whole walk every
node is entered once, the edges of every node are taken once each and in their order, and every
position at which a table is read or written is the number of a node. The walk comes to the state
that the search comes to, from which the components are read. -/
theorem walk_covers_once (built : g.Built) :
    (∀ count, (g.searched count).stack = [] ∧ (g.searched count).path = []) ∧
    (∀ root, (g.searched root).isFresh root →
      ∃ m, (Search.step g)^[m] ((g.searched root).discover g root) = g.searched (root + 1)) ∧
    (Walk.entered g.walk.log).Perm (List.range g.nodes.size) ∧
    (∀ v, Walk.taken v g.walk.log =
      (g.edges.toList.filter fun e => e.source = v).map Edge.target) ∧
    (∀ i ∈ Walk.touched g.walk.log, i < g.nodes.size) ∧
    g.walk.search = g.searched g.nodes.size ∧ g.components = g.walk.search.completed.reverse := by
  have wf := built.wellFormed
  have hrests := wf.rests_searched
  obtain ⟨hsearch, haccounts⟩ : g.walk.Tracks g (g.searched g.nodes.size) :=
    Walk.Tracks.exploreAll wf ⟨rfl, .start g⟩ (.start g) fun _ => List.mem_range.mp
  have hentered : ∀ v, v ∈ Walk.entered g.walk.log ↔ v < g.nodes.size := fun v =>
    (haccounts.entered v).trans wf.known_searched_iff
  refine ⟨fun count => ⟨(hrests count).stack, (hrests count).path⟩, fun root hfresh => ?_, ?_,
    fun v => ?_, haccounts.touched, hsearch, by rw [hsearch]; rfl⟩
  · rw [searched_succ, explore, if_pos hfresh]
    exact Search.exists_iterate_eq_run g g.work _
  · rw [List.perm_ext_iff_of_nodup haccounts.nodup List.nodup_range]
    intro v
    rw [hentered, List.mem_range]
  · -- Nothing is pending, and a node that does not exist has no edges.
    have hedges := haccounts.edges v
    rw [(hrests _).path, show Walk.pendingOf [] v = [] from rfl, List.append_nil] at hedges
    rw [hedges, ← wf.successors, ite_eq_left_iff, hentered]
    refine fun hv => (List.eq_nil_iff_forall_not_mem.mpr fun t ht => hv ?_).symm
    exact (wf.lt_of_leads (wf.mem_successors.mp ht)).1

theorem walk_covers_once_ring : ring.Built ∧ (ring.searched 0).isFresh 0 = true ∧
    (∃ m, (Search.step ring)^[m] ((ring.searched 0).discover ring 0) = ring.searched 1) ∧
    Walk.entered ring.walk.log = [0, 1, 2, 3, 4] ∧ Walk.taken 0 ring.walk.log = [1, 1] ∧
    Walk.touched ring.walk.log ≠ [] ∧ ∀ i ∈ Walk.touched ring.walk.log, i < 5 := by
  have built : ring.Built := built_ofPairs 5 _
  have hfresh : (ring.searched 0).isFresh 0 = true := by decide +kernel
  obtain ⟨-, hends, -, htaken, htouched, -⟩ := walk_covers_once built
  exact ⟨built, hfresh, hends 0 hfresh, by decide +kernel, (htaken 0).trans (by decide +kernel),
    by decide +kernel, htouched⟩

end Graph

end Inlining
