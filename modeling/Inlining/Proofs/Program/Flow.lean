import Inlining.Proofs.Program.Edits
import Inlining.Proofs.Program.Entries

/-!
# The flow equations of a profile

A profile can be checked without knowing how it was computed. Every block has a frequency, which its
weight makes of the entries of its function, and a function is entered from outside and with every
run of a call that leads to it, where a call runs as often as the block that holds it.

Off the cycles of calls this is an equation. On a cycle the entries are at most what comes in: every
round starts from what comes from outside the cycle and adds what comes from the cycle by the
estimate before, so that estimates never fall from one round to the next. The last one is therefore
at most what it would have been after one round more, and that round reads the entries that the
profile has in the end.

## Main definitions

* `Program.callsTo` — the calls that lead to a function, wherever they stand
* `Program.callRuns` — how often these calls run by a table of frequencies

## Main results

* `Program.estimate_mono`, `Program.estimate_le_succ` — estimates never fall
* `Program.WellFormed.entries_le` — functions are entered at most as often as something comes in
* `Program.WellFormed.callRuns_profile` — what comes in are the runs of the calls
* `Program.Edited.profile_flow` — the flow equations
-/

namespace Inlining

theorem fullWeight_pos : 0 < fullWeight := by decide

/-- A block runs more often if its function is entered more often. -/
theorem blockRuns_mono {n m : Nat} (h : n ≤ m) (weight : Nat) :
    blockRuns n weight ≤ blockRuns m weight :=
  Nat.div_le_div_right (Nat.mul_le_mul_right weight h)

namespace FunctionBody

theorem flow_mono (f : FunctionBody) (g : FunctionId) {n m : Nat} (h : n ≤ m) :
    f.flow n g ≤ f.flow m g :=
  total_map_le fun b _ => Nat.mul_le_mul_right _ (blockRuns_mono h b.weight)

/-- The calls in a function's body that lead to another function. -/
def callsTo (f : FunctionBody) (g : FunctionId) : List Location :=
  (f.located.filter fun x => x.2.callee? = some g).map Prod.fst

end FunctionBody

namespace Program

/-- The calls that lead to a function, wherever they stand. -/
def callsTo (p : Program) (g : FunctionId) : List Location := p.functions.flatMap (·.callsTo g)

/-- How often the calls that lead to a function run, if blocks run as often as a table says. -/
def callRuns (p : Program) (table : FrequencyTable) (g : FunctionId) : Nat :=
  total ((p.callsTo g).map fun l => table.getD l.block 0)

variable {p : Program} {f g : FunctionId} {entries entries' : FunctionId → Nat}
  {kind : FunctionId → Prop}

/-! ### Estimates from round to round -/

theorem inflow_mono (h : ∀ g, kind g → entries g ≤ entries' g) :
    p.inflow kind entries f ≤ p.inflow kind entries' f := by
  refine total_map_le fun g _ => ?_
  by_cases hg : kind g.id
  · rw [if_pos hg, if_pos hg]
    exact g.flow_mono f (h g.id hg)
  · rw [if_neg hg, if_neg hg]

theorem inflow_not_add (p : Program) (kind : FunctionId → Prop) (entries : FunctionId → Nat)
    (f : FunctionId) : p.inflow (fun g => ¬ kind g) entries f + p.inflow kind entries f =
      p.inflow (fun _ => True) entries f := by
  rw [inflow, inflow, inflow, ← total_map_add]
  congr 1
  refine List.map_congr_left fun g _ => ?_
  by_cases hg : kind g.id <;> simp [hg]

/-- Estimates grow with what comes from outside and with the rounds, for functions whose cycles stay
among them. -/
theorem estimate_mono {q : Program} (among : FunctionId → Prop)
    (outer : ∀ f, among f → p.outerFlow entries f ≤ q.outerFlow entries' f)
    (inner : ∀ f, among f → ∀ e e' : FunctionId → Nat, (∀ g, among g → e g ≤ e' g) →
      p.innerFlow e f ≤ q.innerFlow e' f) {n m : Nat} (h : n ≤ m) (hf : among f) :
    p.estimate entries n f ≤ q.estimate entries' m f := by
  induction n generalizing f m with
  | zero =>
    cases m with
    | zero => exact outer f hf
    | succ m => exact (outer f hf).trans (Nat.le_add_right _ _)
  | succ n ih =>
    cases m with
    | zero => exact absurd h (Nat.not_succ_le_zero n)
    | succ m =>
      have hrounds : n ≤ m := Nat.le_of_succ_le_succ h
      exact Nat.add_le_add (outer f hf) (inner f hf _ _ fun g hg => ih hrounds hg)

/-- **Estimates never fall** from one round to the next. -/
theorem estimate_le_succ (p : Program) (entries : FunctionId → Nat) (n : Nat) (f : FunctionId) :
    p.estimate entries n f ≤ p.estimate entries (n + 1) f :=
  estimate_mono (fun _ => True) (fun _ _ => Nat.le_refl _)
    (fun _ _ _ _ h => inflow_mono fun g _ => h g trivial) (Nat.le_succ n) trivial

/-- **Functions are entered at most as often as something comes in.** -/
theorem WellFormed.entries_le (wf : p.WellFormed) (rounds : Nat)
    (hf : f ∈ p.functions.map FunctionBody.id) : (p.entries rounds).of f ≤
      p.rootCount f + p.inflow (fun _ => True) (p.entries rounds).of f := by
  have hinner : p.innerFlow (p.estimate (p.entries rounds).of rounds) f =
      p.innerFlow (p.entries rounds).of f :=
    wf.inflow_congr fun g hcalls =>
      ⟨.rfl, fun _ => (wf.entries_eq rounds (wf.mem_of_calls hcalls)).symm⟩
  calc (p.entries rounds).of f
      = p.estimate (p.entries rounds).of rounds f := wf.entries_eq rounds hf
    _ ≤ p.estimate (p.entries rounds).of (rounds + 1) f := p.estimate_le_succ _ _ _
    _ = p.outerFlow (p.entries rounds).of f + p.innerFlow (p.entries rounds).of f := by
      rw [estimate, hinner]
    _ = p.rootCount f + p.inflow (fun _ => True) (p.entries rounds).of f := by
      rw [outerFlow, innerFlow, Nat.add_assoc, inflow_not_add]

/-! ### Runs of calls -/

/-- The calls in a block run with the block. -/
theorem total_located (table : FrequencyTable) (b : Block) (f g : FunctionId) :
    total ((((b.located f).filter fun x => x.2.callee? = some g).map Prod.fst).map
        fun l => table.getD l.block 0) =
      table.getD b.id 0 * b.code.countP fun i => i.callee? = some g := by
  have hblock : ∀ x ∈ (b.located f).filter fun x => x.2.callee? = some g, x.1.block = b.id :=
    fun x hx => (Block.mem_located.mp (List.mem_of_mem_filter hx)).2.1
  have hcount : ((b.located f).filter fun x => x.2.callee? = some g).length =
      b.code.countP fun i => i.callee? = some g := by
    rw [← List.countP_eq_length_filter, Block.located, List.countP_map]
    conv_rhs => rw [← List.zipIdx_map_fst 0 b.code, List.countP_map]
    rfl
  rw [List.map_map, ← hcount, ← total_map_const]
  congr 1
  refine List.map_congr_left fun x hx => ?_
  rw [Function.comp_apply, hblock x hx]

/-- **What comes in are the runs of the calls**, by the profile itself. -/
theorem WellFormed.callRuns_profile (wf : p.WellFormed) (rounds : Nat) (g : FunctionId) :
    p.callRuns (p.profile rounds) g = p.inflow (fun _ => True) (p.entries rounds).of g := by
  rw [callRuns, callsTo, total_map_flatMap, inflow]
  congr 1
  refine List.map_congr_left fun f hf => ?_
  rw [if_pos trivial, FunctionBody.flow, FunctionBody.callsTo, FunctionBody.located,
    List.filter_flatMap, List.map_flatMap, total_map_flatMap]
  congr 1
  refine List.map_congr_left fun b hb => ?_
  rw [total_located, Std.ExtTreeMap.getD_eq_getD_getElem?, wf.getElem?_profile rounds hf hb,
    Option.getD_some]

/-! ### The blocks of a profile -/

/-- A profile has one entry for each block and no others. -/
theorem WellFormed.keys_profile (wf : p.WellFormed) (rounds : Nat) :
    (p.profile rounds).keys.Perm (p.functions.flatMap FunctionBody.blockIds) := by
  rw [List.perm_ext_iff_of_nodup Std.ExtTreeMap.nodup_keys wf.nodup_blockIds]
  intro b
  rw [Std.ExtTreeMap.mem_keys, Std.ExtTreeMap.mem_iff_isSome_getElem?, List.mem_flatMap]
  constructor
  · intro hb
    rw [profile, FrequencyTable.ofEntries] at hb
    rcases getElem?_foldl_insert Prod.fst Prod.snd (p.functions.flatMap fun f =>
        f.blocks.map fun b => (b.id, blockRuns ((p.entries rounds).of f.id) b.weight)) ∅ b with
      ⟨a, ha, rfl, -⟩ | ⟨-, hnone⟩
    · obtain ⟨f, hf, ha⟩ := List.mem_flatMap.mp ha
      obtain ⟨c, hc, rfl⟩ := List.mem_map.mp ha
      exact ⟨f, hf, FunctionBody.mem_blockIds.mpr ⟨c, hc, rfl⟩⟩
    · rw [hnone] at hb
      cases hb
  · rintro ⟨f, hf, hb⟩
    obtain ⟨c, hc, rfl⟩ := FunctionBody.mem_blockIds.mp hb
    exact Option.isSome_of_eq_some (wf.getElem?_profile rounds hf hc)

/-- The frequency of an entry block is that of the function. -/
theorem WellFormed.profile_entryBlock (wf : p.WellFormed) (full : p.FullEntries) (rounds : Nat)
    {b : BlockId} (hb : p.entryBlock? f = some b) :
    (p.profile rounds)[b]? = some ((p.entries rounds).of f) := by
  obtain ⟨entry, hbind, rfl⟩ := Option.map_eq_some_iff.mp hb
  obtain ⟨x, hx, hentry⟩ := Option.bind_eq_some_iff.mp hbind
  obtain ⟨hmem, rfl⟩ := wf.function?_eq_some.mp hx
  have hweight := full x hmem
  rw [FunctionBody.EntersFully, hentry, Option.map_some, Option.some.injEq] at hweight
  rw [wf.getElem?_profile rounds hmem (List.mem_of_head? hentry), hweight, blockRuns,
    Nat.mul_div_cancel _ fullWeight_pos]

/-- **The flow equations of a profile.** It has one entry for each block of the program. Where the
entry block of a function runs `n` times, a block of the function runs `n` times its weight in
thousandths, rounded down. And `n` is at most what comes in, the entries from outside and the runs
of all calls that lead to the function; off the cycles of calls it is just that. -/
theorem Edited.profile_flow (edited : p.Edited) (rounds : Nat) :
    (p.profile rounds).keys.Perm (p.functions.flatMap FunctionBody.blockIds) ∧
    ∀ f ∈ p.functions, ∃ b n, p.entryBlock? f.id = some b ∧ (p.profile rounds)[b]? = some n ∧
      (∀ c ∈ f.blocks, (p.profile rounds)[c.id]? = some (n * c.weight / 1000)) ∧
      n ≤ p.rootCount f.id + p.callRuns (p.profile rounds) f.id ∧
      ((CallGraph.ofSnapshot p.snapshot).isRecursive f.id = false →
        n = p.rootCount f.id + p.callRuns (p.profile rounds) f.id) := by
  have wf := edited.wellFormed
  refine ⟨wf.keys_profile rounds, fun f hf => ?_⟩
  have hmem : f.id ∈ p.functions.map FunctionBody.id := List.mem_map.mpr ⟨f, hf, rfl⟩
  obtain ⟨entry, hentry, -⟩ := Option.map_eq_some_iff.mp (edited.fullEntries f hf)
  have hblock : p.entryBlock? f.id = some entry.id := by
    rw [entryBlock?, wf.function?_eq_some.mpr ⟨hf, rfl⟩, Option.bind_some, hentry, Option.map_some]
  rw [wf.callRuns_profile]
  refine ⟨entry.id, (p.entries rounds).of f.id, hblock,
    wf.profile_entryBlock edited.fullEntries rounds hblock,
    fun c hc => wf.getElem?_profile rounds hf hc, wf.entries_le rounds hmem, fun hflat => ?_⟩
  have hcycle : ¬ Relation.TransGen p.Calls f.id f.id := by
    rw [← wf.isRecursive_snapshot, hflat]
    exact Bool.false_ne_true
  rw [← wf.estimate_eq hcycle rounds]
  exact wf.entries_eq rounds hmem

/-- A main function with a loop that calls a leaf twice, once of them by way of a closure, and a
function that calls the leaf and, every other time, itself. -/
def weir : Program :=
  let bare := assemble ["main", "again", "leaf"] [(0, .call ⟨1⟩), (1, .call ⟨2⟩)] [(0, 1000)]
  let blocks := (addBlock ⟨1⟩ 500).after ((addBlock ⟨0⟩ 5000).after bare)
  [(3, Instruction.callClosure ⟨2⟩), (3, .call ⟨2⟩), (4, .call ⟨1⟩)].foldl
    (fun p x => (push ⟨x.1⟩ x.2).after p) blocks

theorem edited_weir : weir.Edited := by
  refine List.foldlRecOn (motive := Edited) _ _ ?_ fun _ hp _ _ => .push _ _ hp
  exact .addBlock _ _ (.addBlock _ _ (built_assemble _ _ _).edited)

/-- With two rounds the function that calls itself is entered 1750 times, though 1875 entries come
in; the leaf is entered as often as something comes in. -/
theorem profile_flow_weir : weir.Edited ∧
    (CallGraph.ofSnapshot weir.snapshot).isRecursive ⟨1⟩ = true ∧
    (weir.profile 2)[(⟨1⟩ : BlockId)]? = some 1750 ∧
    1750 ≤ weir.rootCount ⟨1⟩ + weir.callRuns (weir.profile 2) ⟨1⟩ ∧
    (CallGraph.ofSnapshot weir.snapshot).isRecursive ⟨2⟩ = false ∧
    (weir.profile 2)[(⟨2⟩ : BlockId)]? = some 11750 ∧
    11750 = weir.rootCount ⟨2⟩ + weir.callRuns (weir.profile 2) ⟨2⟩ := by
  have hagain : ∃ f ∈ weir.functions, f.id = ⟨1⟩ ∧ weir.entryBlock? f.id = some ⟨1⟩ := by
    decide +kernel
  have hleaf : ∃ f ∈ weir.functions, f.id = ⟨2⟩ ∧ weir.entryBlock? f.id = some ⟨2⟩ := by
    decide +kernel
  have hruns : (weir.profile 2)[(⟨1⟩ : BlockId)]? = some 1750 ∧
      (weir.profile 2)[(⟨2⟩ : BlockId)]? = some 11750 := by decide +kernel
  have hflat : (CallGraph.ofSnapshot weir.snapshot).isRecursive ⟨2⟩ = false := by decide +kernel
  obtain ⟨-, hflow⟩ := edited_weir.profile_flow 2
  obtain ⟨f, hf, hid, hentry⟩ := hagain
  obtain ⟨g, hg, hid', hentry'⟩ := hleaf
  obtain ⟨b, n, hb, hn, -, hle, -⟩ := hflow f hf
  obtain ⟨b', n', hb', hn', -, -, heq⟩ := hflow g hg
  cases hb.symm.trans hentry
  cases hb'.symm.trans hentry'
  cases hn.symm.trans hruns.1
  cases hn'.symm.trans hruns.2
  rw [hid] at hle
  rw [hid'] at heq
  exact ⟨edited_weir, by decide +kernel, hruns.1, hle, hflat, hruns.2, heq hflat⟩

end Program

end Inlining
