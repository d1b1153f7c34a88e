import Inlining.Proofs.Program.Edits
import Mathlib.Logic.Relation

/-!
# Numbers are used once

A program is only ever spoken of by number: a site names a function, a block and a position, and the
index, the profile and the reports on inlines name sites. This is safe as long as a number means one
thing for good. It does: no two blocks share a number, the register of blocks says exactly which
function holds which block, and a number that was given up is not given out again.

The operations touch functions, register, roots and counters one by one, and some of them fail half
way. All that they can do is said once, `Program.Effect`: a function is added, blocks are put behind
those of one function, or functions are taken out. The rules follow from these three cases.

## Main definitions

* `Program.Edit` — one operation, whether it succeeds or fails
* `Program.Effect` — what an operation can do
* `Program.Orderly` — the rules that hold of a program at all times
* `Program.Follows` — what a program has in common with an earlier one

## Main results

* `Program.Edit.effect` — an operation does one of these things
* `Program.Edited.registered`, `Program.Edited.rooted` — the register and the roots are right
* `Program.follows_of_edits` — blocks are put behind those that are there, under new numbers
* `Program.Edited.numbers_used_once` — the rules, and what numbers mean over time
-/

namespace Inlining

open Relation

/-! ### The register -/

namespace BlockOwners

theorem getElem?_enter (owners : BlockOwners) (f : FunctionId) (blocks : List Block)
    (b : BlockId) : (owners.enter f blocks)[b]? =
      if b ∈ blocks.map Block.id then some f else owners[b]? := by
  rw [enter]
  induction blocks generalizing owners with
  | nil => simp
  | cons x rest ih =>
    rw [List.foldl_cons, ih, Std.ExtTreeMap.getElem?_insert]
    by_cases hrest : b ∈ rest.map Block.id
    · simp [hrest]
    · by_cases hx : x.id = b
      · simp [hx]
      · simp [hrest, hx, Ne.symm hx]

theorem getElem?_strike (owners : BlockOwners) (blocks : List Block) (b : BlockId) :
    (owners.strike blocks)[b]? = if b ∈ blocks.map Block.id then none else owners[b]? := by
  rw [strike]
  induction blocks generalizing owners with
  | nil => simp
  | cons x rest ih =>
    rw [List.foldl_cons, ih, Std.ExtTreeMap.getElem?_erase]
    by_cases hrest : b ∈ rest.map Block.id
    · simp [hrest]
    · by_cases hx : x.id = b
      · simp [hx]
      · simp [hrest, hx, Ne.symm hx]

end BlockOwners

/-! ### Outlines -/

/-- The number of a block and its weight, which never change. -/
def Block.outline (b : Block) : BlockId × Nat := (b.id, b.weight)

namespace FunctionBody

/-- The outlines of a function's blocks, in order. -/
def outline (f : FunctionBody) : List (BlockId × Nat) := f.blocks.map Block.outline

theorem map_fst_outline (f : FunctionBody) : f.outline.map Prod.fst = f.blockIds := by
  rw [outline, List.map_map]
  rfl

theorem head?_outline (f : FunctionBody) : f.outline.head? = f.entry?.map Block.outline :=
  List.head?_map

theorem outline_modifyBlock (f : FunctionBody) (b : BlockId) {change : Block → Block}
    (keeps : ∀ x, (change x).outline = x.outline) :
    (f.modifyBlock b change).outline = f.outline := by
  rw [outline, outline, modifyBlock, List.map_map]
  refine List.map_congr_left fun x _ => ?_
  rw [Function.comp_apply]
  split
  · exact keeps x
  · rfl

end FunctionBody

namespace Program

/-! ### What an edit does -/

/-- One operation on a program. One that fails counts with what it leaves behind. -/
inductive Edit : Program → Program → Prop
  | addFunction (p : Program) (name : String) : Edit p (p.addFunction name).2
  | addBlock (p : Program) (f : FunctionId) (weight : Nat) : Edit p ((addBlock f weight).after p)
  | push (p : Program) (b : BlockId) (i : Instruction) : Edit p ((push b i).after p)
  | setRoot (p : Program) (f : FunctionId) (count : Nat) : Edit p ((setRoot f count).after p)
  | inline (p : Program) (site : CallSite) : Edit p ((inline site).after p)
  | sweep (p : Program) : Edit p p.sweep.2

variable {p q r : Program}

theorem Edited.edit (edited : p.Edited) (edit : Edit p q) : q.Edited := by
  cases edit with
  | addFunction name => exact .addFunction name edited
  | addBlock f weight => exact .addBlock f weight edited
  | push b i => exact .push b i edited
  | setRoot f count => exact .setRoot f count edited
  | inline site => exact .inline site edited
  | sweep => exact .sweep edited

theorem Edited.edits (edited : p.Edited) (edits : ReflTransGen Edit p q) : q.Edited := by
  induction edits with
  | refl => exact edited
  | tail _ edit ih => exact ih.edit edit

theorem Edited.edits_empty (edited : p.Edited) : ReflTransGen Edit {} p := by
  induction edited with
  | empty => exact .refl
  | addFunction name _ ih => exact ih.tail (.addFunction _ name)
  | addBlock f weight _ ih => exact ih.tail (.addBlock _ f weight)
  | push b i _ ih => exact ih.tail (.push _ b i)
  | setRoot f count _ ih => exact ih.tail (.setRoot _ f count)
  | inline site _ ih => exact ih.tail (.inline _ site)
  | sweep _ ih => exact ih.tail (.sweep _)

/-- What an operation can do to a program. -/
inductive Effect (p q : Program) : Prop
  | added (name : String) (eq : q = (p.addFunction name).2)
  | grown (target : FunctionId) (fresh : List Block) (change : FunctionBody → FunctionBody)
      (functions : q.functions = p.functions.map change) (id : ∀ f, (change f).id = f.id)
      (outline : ∀ f, (change f).outline =
        f.outline ++ if f.id = target then fresh.map Block.outline else [])
      (found : fresh ≠ [] → target ∈ p.functions.map FunctionBody.id)
      (numbers : ∀ b ∈ fresh, p.nextBlock ≤ b.id.index)
      (owners : q.owners = p.owners.enter target fresh)
      (roots : ∀ f ∈ q.roots, f ∈ p.roots ∨ f ∈ p.functions.map FunctionBody.id)
      (nextFunction : p.nextFunction ≤ q.nextFunction) (nextBlock : p.nextBlock ≤ q.nextBlock)
  | swept (eq : q = p.sweep.2)

theorem mem_map_id_of_isSome {f : FunctionId} (h : (p.function? f).isSome) :
    f ∈ p.functions.map FunctionBody.id := by
  obtain ⟨x, hx, hid⟩ := List.find?_isSome.mp h
  exact List.mem_map.mpr ⟨x, hx, of_decide_eq_true hid⟩

/-- An operation that changes neither functions nor register. -/
theorem Effect.of_functions (functions : q.functions = p.functions) (owners : q.owners = p.owners)
    (roots : ∀ f ∈ q.roots, f ∈ p.roots ∨ f ∈ p.functions.map FunctionBody.id)
    (nextFunction : p.nextFunction ≤ q.nextFunction) (nextBlock : p.nextBlock ≤ q.nextBlock) :
    Effect p q :=
  .grown ⟨0⟩ [] id (by rw [functions, List.map_id]) (fun _ => rfl) (by simp) (by simp) (by simp)
    owners roots nextFunction nextBlock

theorem Effect.refl (p : Program) : Effect p p :=
  .of_functions rfl rfl (fun _ => .inl) (Nat.le_refl _) (Nat.le_refl _)

/-- **An operation does one of these things**, also where it fails. -/
theorem Edit.effect (edit : Edit p q) (wf : p.WellFormed) : Effect p q := by
  cases edit with
  | addFunction name => exact .added name rfl
  | addBlock f weight =>
    rw [Update.after, addBlock_apply]
    by_cases hf : (p.function? f).isSome
    · simp only [hf, if_true]
      refine .grown f [⟨⟨p.nextBlock⟩, weight, []⟩] _ rfl (fun x => ?_) (fun x => ?_)
        (fun _ => mem_map_id_of_isSome hf) (by simp) rfl (fun _ => .inl) (Nat.le_refl _)
        (Nat.le_succ _)
      · split <;> rfl
      · split <;> simp [FunctionBody.outline]
    · simp only [hf]
      exact .of_functions rfl rfl (fun _ => .inl) (Nat.le_refl _) (Nat.le_succ _)
  | push b i =>
    rcases after_push p b i with heq | ⟨f, -, heq⟩
    · rw [heq]
      exact .refl p
    · rw [heq]
      refine .grown f [] _ rfl (fun x => ?_) (fun x => ?_) (by simp) (by simp) rfl
        (fun _ => .inl) (Nat.le_refl _) (Nat.le_refl _)
      · split <;> rfl
      · split
        · rw [List.map_nil, List.append_nil]
          exact x.outline_modifyBlock b fun _ => rfl
        · simp
  | setRoot f count =>
    rw [Update.after, setRoot_apply]
    by_cases hf : (p.function? f).isSome
    · simp only [hf, if_true]
      refine .of_functions rfl rfl (fun g hg => ?_) (Nat.le_refl _) (Nat.le_refl _)
      rcases Std.ExtTreeMap.mem_insert.mp hg with heq | hg
      · exact .inr (Std.compare_eq_iff_eq.mp heq ▸ mem_map_id_of_isSome hf)
      · exact .inl hg
    · simp only [hf]
      exact .refl p
  | inline site =>
    rw [Update.after, inline_apply]
    cases hbody : p.calleeAt site with
    | error e => exact .refl p
    | ok body =>
      obtain ⟨hcaller, hcall, -⟩ := calleeAt_eq_ok.mp hbody
      obtain ⟨x, hx, -⟩ := wf.callAt?_eq_some.mp hcall
      simp only [splice_eq]
      refine .grown site.caller (p.clones site body) _ rfl (fun x => ?_) (fun x => ?_)
        (fun _ => hcaller ▸ mem_map_id_of_isSome (Option.isSome_of_eq_some hx))
        (fun b hb => nextBlock_le_of_mem_clones hb) rfl (fun _ => .inl) (Nat.le_refl _)
        (Nat.le_add_right _ _)
      · split <;> rfl
      · split
        · rw [graft, FunctionBody.outline, List.map_append]
          congr 1
          exact x.outline_modifyBlock site.location.block fun _ => rfl
        · simp
  | sweep => exact .swept rfl

/-! ### Register and roots -/

/-- The function of the given number holds a block. -/
def Holds (p : Program) (f : FunctionId) (b : BlockId) : Prop :=
  ∃ body ∈ p.functions, body.id = f ∧ b ∈ body.blockIds

/-- The register has the blocks of the program, each under the function that holds it. -/
def Registered (p : Program) : Prop := ∀ b f, p.owner? b = some f ↔ p.Holds f b

/-- Roots are functions of the program. -/
def Rooted (p : Program) : Prop := ∀ f ∈ p.roots, f ∈ p.functions.map FunctionBody.id

theorem WellFormed.lt_of_holds (wf : p.WellFormed) {f : FunctionId} {b : BlockId}
    (h : p.Holds f b) : b.index < p.nextBlock := by
  obtain ⟨body, hbody, -, hb⟩ := h
  exact wf.block_lt body hbody b hb

theorem holds_addFunction (p : Program) (name : String) (f : FunctionId) (b : BlockId) :
    (p.addFunction name).2.Holds f b ↔
      p.Holds f b ∨ f = ⟨p.nextFunction⟩ ∧ b = ⟨p.nextBlock⟩ := by
  simp only [Holds, Program.addFunction, List.mem_append, List.mem_singleton, or_and_right,
    exists_or, exists_eq_left, FunctionBody.blockIds, List.map_cons, List.map_nil]
  rw [eq_comm (a := f)]

/-- Blocks that are put behind those of a function are held by it. -/
theorem holds_of_grown {target : FunctionId} {fresh : List Block}
    {change : FunctionBody → FunctionBody} (functions : q.functions = p.functions.map change)
    (id : ∀ f, (change f).id = f.id)
    (outline : ∀ f, (change f).outline =
      f.outline ++ if f.id = target then fresh.map Block.outline else [])
    (found : fresh ≠ [] → target ∈ p.functions.map FunctionBody.id) (f : FunctionId)
    (b : BlockId) : q.Holds f b ↔ p.Holds f b ∨ f = target ∧ b ∈ fresh.map Block.id := by
  have hids : ∀ x, b ∈ (change x).blockIds ↔
      b ∈ x.blockIds ∨ x.id = target ∧ b ∈ fresh.map Block.id := by
    intro x
    rw [← FunctionBody.map_fst_outline, outline, List.map_append, List.mem_append,
      FunctionBody.map_fst_outline]
    split
    · rw [List.map_map]
      simp_all [Block.outline]
    · simp_all
  rw [Holds, functions]
  constructor
  · rintro ⟨_, hbody, hid, hb⟩
    obtain ⟨x, hx, rfl⟩ := List.mem_map.mp hbody
    rw [id] at hid
    rcases (hids x).mp hb with hb | ⟨htarget, hb⟩
    · exact .inl ⟨x, hx, hid, hb⟩
    · exact .inr ⟨hid.symm.trans htarget, hb⟩
  · rintro (⟨x, hx, hid, hb⟩ | ⟨rfl, hb⟩)
    · exact ⟨change x, List.mem_map_of_mem hx, (id x).trans hid, (hids x).mpr (.inl hb)⟩
    · obtain ⟨x, hx, hid⟩ := List.mem_map.mp (found (by rintro rfl; simp at hb))
      exact ⟨change x, List.mem_map_of_mem hx, (id x).trans hid, (hids x).mpr (.inr ⟨hid, hb⟩)⟩

theorem holds_sweep (p : Program) (f : FunctionId) (b : BlockId) :
    p.sweep.2.Holds f b ↔ p.Holds f b ∧ f ∉ p.dead := by
  have hids : ∀ x : FunctionBody, x.bare.blockIds = x.blockIds := fun x => by
    simp [FunctionBody.bare, FunctionBody.blockIds]
  rw [Holds, functions_sweep]
  constructor
  · rintro ⟨_, hbody, rfl, hb⟩
    obtain ⟨x, hx, rfl⟩ := List.mem_map.mp hbody
    obtain ⟨hx, hlive⟩ := List.mem_filter.mp hx
    exact ⟨⟨x, hx, rfl, hids x ▸ hb⟩, of_decide_eq_true hlive⟩
  · rintro ⟨⟨x, hx, rfl, hb⟩, hlive⟩
    refine ⟨x.bare, List.mem_map_of_mem (List.mem_filter.mpr ⟨hx, decide_eq_true hlive⟩), rfl, ?_⟩
    rw [hids]
    exact hb

/-- A register stays right if new blocks are entered under the function that holds them. -/
theorem Registered.enter (h : p.Registered) (wf : p.WellFormed) {target : FunctionId}
    {fresh : List Block} (owners : q.owners = p.owners.enter target fresh)
    (numbers : ∀ b ∈ fresh, p.nextBlock ≤ b.id.index)
    (holds : ∀ f b, q.Holds f b ↔ p.Holds f b ∨ f = target ∧ b ∈ fresh.map Block.id) :
    q.Registered := by
  intro b f
  rw [owner?, owners, BlockOwners.getElem?_enter, holds]
  by_cases hb : b ∈ fresh.map Block.id
  · -- A number from the counter is held by nobody yet.
    have hnew : ¬ p.Holds f b := by
      intro hold
      obtain ⟨x, hx, rfl⟩ := List.mem_map.mp hb
      exact Nat.not_lt.mpr (numbers x hx) (wf.lt_of_holds hold)
    simp [hb, hnew, eq_comm]
  · simp only [hb, if_false, and_false, or_false]
    exact h b f

theorem Registered.sweep (h : p.Registered) : p.sweep.2.Registered := by
  intro b f
  have hdead : b ∈ ((p.functions.filter fun x => x.id ∈ p.dead).flatMap
      FunctionBody.blocks).map Block.id ↔ ∃ g ∈ p.dead, p.Holds g b := by
    simp only [List.mem_map, List.mem_flatMap, List.mem_filter, decide_eq_true_eq, Holds,
      FunctionBody.mem_blockIds]
    constructor
    · rintro ⟨x, ⟨body, ⟨hbody, hdead⟩, hx⟩, hid⟩
      exact ⟨body.id, hdead, body, hbody, rfl, x, hx, hid⟩
    · rintro ⟨_, hdead, body, hbody, rfl, x, hx, hid⟩
      exact ⟨x, ⟨body, ⟨hbody, hdead⟩, hx⟩, hid⟩
  change (p.owners.strike _)[b]? = some f ↔ _
  rw [BlockOwners.getElem?_strike, holds_sweep, ← h b f]
  by_cases hb : ∃ g ∈ p.dead, p.Holds g b
  · rw [if_pos (hdead.mpr hb)]
    obtain ⟨g, hg, hholds⟩ := hb
    rw [(h b g).mpr hholds]
    simp only [reduceCtorEq, Option.some.injEq, false_iff, not_and, not_not]
    rintro rfl
    exact hg
  · rw [if_neg (mt hdead.mp hb)]
    refine ⟨fun hf => ⟨hf, fun hf' => hb ⟨f, hf', (h b f).mp hf⟩⟩, And.left⟩

theorem Registered.effect (h : p.Registered) (wf : p.WellFormed) (effect : Effect p q) :
    q.Registered := by
  cases effect with
  | added name eq =>
    subst eq
    have owners : (p.addFunction name).2.owners =
        p.owners.enter ⟨p.nextFunction⟩ [⟨⟨p.nextBlock⟩, fullWeight, []⟩] := rfl
    refine h.enter wf owners (by simp) fun f b => ?_
    rw [holds_addFunction]
    simp
  | grown target fresh change functions id outline found numbers owners =>
    exact h.enter wf owners numbers (holds_of_grown functions id outline found)
  | swept eq => exact eq ▸ h.sweep

theorem Rooted.effect (h : p.Rooted) (effect : Effect p q) : q.Rooted := by
  cases effect with
  | added name eq =>
    subst eq
    intro f hf
    rw [Program.addFunction, List.map_append]
    exact List.mem_append_left _ (h f hf)
  | grown target fresh change functions id _ _ _ _ roots =>
    have hsame : q.functions.map FunctionBody.id = p.functions.map FunctionBody.id := by
      rw [functions, List.map_map]
      exact List.map_congr_left fun x _ => id x
    intro f hf
    rw [hsame]
    exact (roots f hf).elim (h f) fun hmem => hmem
  | swept eq =>
    subst eq
    intro f hf
    change f ∈ p.roots.filter fun f _ => f ∉ p.dead at hf
    obtain ⟨hroot, hlive⟩ := Std.ExtTreeMap.mem_filter.mp hf
    exact mem_functions_sweep.mpr ⟨h f hroot, by simpa using hlive⟩

/-- What effects keep holds at all times. -/
theorem Edited.invariant {P : Program → Prop} (start : P {})
    (keeps : ∀ {p q}, p.WellFormed → Effect p q → P p → P q) (edited : p.Edited) : P p := by
  have edits := edited.edits_empty
  clear edited
  induction edits with
  | refl => exact start
  | @tail q r before edit ih =>
    have wf : q.WellFormed := (Edited.edits .empty before).wellFormed
    exact keeps wf (edit.effect wf) ih

/-- **The register is right at all times.** -/
theorem Edited.registered (edited : p.Edited) : p.Registered :=
  edited.invariant (by simp [Registered, owner?, Holds]) fun wf effect h => h.effect wf effect

/-- **Roots are functions of the program at all times.** -/
theorem Edited.rooted (edited : p.Edited) : p.Rooted :=
  edited.invariant (by simp [Rooted]) fun _ effect h => h.effect effect

/-! ### Over time -/

/-- What a program has in common with an earlier one. -/
structure Follows (p q : Program) : Prop where
  nextFunction : p.nextFunction ≤ q.nextFunction
  nextBlock : p.nextBlock ≤ q.nextBlock
  /-- A function was there before, with new blocks behind those that it had, or it is new with all
  its blocks. -/
  functions : ∀ g ∈ q.functions,
    (∃ f ∈ p.functions, f.id = g.id ∧ ∃ fresh, g.outline = f.outline ++ fresh ∧
      ∀ b ∈ fresh, p.nextBlock ≤ b.1.index) ∨
    p.nextFunction ≤ g.id.index ∧ ∀ b ∈ g.outline, p.nextBlock ≤ b.1.index

theorem Follows.refl (p : Program) : p.Follows p :=
  ⟨Nat.le_refl _, Nat.le_refl _, fun g hg =>
    .inl ⟨g, hg, rfl, [], (List.append_nil _).symm, by simp⟩⟩

theorem Follows.trans (h : p.Follows q) (h' : q.Follows r) : p.Follows r := by
  refine ⟨h.nextFunction.trans h'.nextFunction, h.nextBlock.trans h'.nextBlock, fun g hg => ?_⟩
  have hnew : ∀ {fresh : List (BlockId × Nat)}, (∀ b ∈ fresh, q.nextBlock ≤ b.1.index) →
      ∀ b ∈ fresh, p.nextBlock ≤ b.1.index := fun hfresh b hb => h.nextBlock.trans (hfresh b hb)
  rcases h'.functions g hg with ⟨f, hf, hid, fresh, hgf, hfresh⟩ | ⟨hid, hblocks⟩
  · rcases h.functions f hf with ⟨e, he, hid', fresh', hfe, hfresh'⟩ | ⟨hid', hblocks⟩
    · refine .inl ⟨e, he, hid'.trans hid, fresh' ++ fresh, ?_, ?_⟩
      · rw [hgf, hfe, List.append_assoc]
      · exact List.forall_mem_append.mpr ⟨hfresh', hnew hfresh⟩
    · refine .inr ⟨hid ▸ hid', ?_⟩
      rw [hgf]
      exact List.forall_mem_append.mpr ⟨hblocks, hnew hfresh⟩
  · exact .inr ⟨h.nextFunction.trans hid, hnew hblocks⟩

theorem Effect.follows (effect : Effect p q) : p.Follows q := by
  cases effect with
  | added name eq =>
    subst eq
    refine ⟨Nat.le_succ _, Nat.le_succ _, fun g hg => ?_⟩
    rcases List.mem_append.mp hg with hg | hg
    · exact (Follows.refl p).functions g hg
    · rw [List.mem_singleton.mp hg]
      exact .inr ⟨Nat.le_refl _, by simp [FunctionBody.outline, Block.outline]⟩
  | grown target fresh change functions id outline _ numbers _ _ nextFunction nextBlock =>
    refine ⟨nextFunction, nextBlock, fun g hg => ?_⟩
    rw [functions] at hg
    obtain ⟨f, hf, rfl⟩ := List.mem_map.mp hg
    refine .inl ⟨f, hf, (id f).symm, _, outline f, ?_⟩
    split
    · simpa [Block.outline] using numbers
    · simp
  | swept eq =>
    subst eq
    refine ⟨Nat.le_refl _, Nat.le_refl _, fun g hg => ?_⟩
    rw [functions_sweep] at hg
    obtain ⟨f, hf, rfl⟩ := List.mem_map.mp hg
    refine .inl ⟨f, (List.mem_filter.mp hf).1, rfl, [], ?_, by simp⟩
    rw [List.append_nil, FunctionBody.outline, FunctionBody.outline, FunctionBody.bare,
      List.map_map]
    rfl

theorem follows_of_edits (edited : p.Edited) (edits : ReflTransGen Edit p q) : p.Follows q := by
  induction edits with
  | refl => exact .refl p
  | tail before edit ih => exact ih.trans (edit.effect (edited.edits before).wellFormed).follows

section Follows

variable (h : p.Follows q) {f : FunctionId} {b : BlockId}
include h

/-- A function that is gone stays so. -/
theorem Follows.function?_eq_none (wf : p.WellFormed) (wf' : q.WellFormed)
    (given : f.index < p.nextFunction) (gone : p.function? f = none) : q.function? f = none := by
  rw [Option.eq_none_iff_forall_ne_some]
  intro body hbody
  obtain ⟨hmem, rfl⟩ := wf'.function?_eq_some.mp hbody
  rcases h.functions body hmem with ⟨x, hx, hid, -⟩ | ⟨hle, -⟩
  · rw [wf.function?_eq_some.mpr ⟨hx, hid⟩] at gone
    cases gone
  · omega

/-- A block that is gone stays so. -/
theorem Follows.owner?_eq_none (registered : p.Registered) (registered' : q.Registered)
    (given : b.index < p.nextBlock) (gone : p.owner? b = none) : q.owner? b = none := by
  rw [Option.eq_none_iff_forall_ne_some]
  intro f hf
  obtain ⟨body, hmem, rfl, hb⟩ := (registered' b f).mp hf
  rw [← FunctionBody.map_fst_outline] at hb
  obtain ⟨o, ho, rfl⟩ := List.mem_map.mp hb
  rcases h.functions body hmem with ⟨x, hx, -, fresh, houtline, hfresh⟩ | ⟨-, hblocks⟩
  · rw [houtline] at ho
    rcases List.mem_append.mp ho with ho | ho
    · have hheld : p.Holds x.id o.1 := ⟨x, hx, rfl, x.map_fst_outline ▸ List.mem_map_of_mem ho⟩
      rw [(registered _ _).mpr hheld] at gone
      cases gone
    · exact Nat.not_lt.mpr (hfresh o ho) given
  · exact Nat.not_lt.mpr (hblocks o ho) given

/-- The first block of a function stays the first. -/
theorem Follows.outline_entry (wf : p.WellFormed) (wf' : q.WellFormed) {x y : FunctionBody}
    (hx : p.function? f = some x) (hy : q.function? f = some y) :
    y.entry?.map Block.outline = x.entry?.map Block.outline := by
  obtain ⟨hmem, rfl⟩ := wf.function?_eq_some.mp hx
  obtain ⟨hmem', hid⟩ := wf'.function?_eq_some.mp hy
  rcases h.functions y hmem' with ⟨z, hz, hzy, fresh, houtline, -⟩ | ⟨hle, -⟩
  · obtain rfl := wf.eq_of_id_eq hz hmem (hzy.trans hid)
    have hsome : (z.outline.head?).isSome := by
      rw [List.isSome_head?, FunctionBody.outline, ne_eq, List.map_eq_nil_iff]
      exact wf.entered z hmem
    rw [← FunctionBody.head?_outline, ← FunctionBody.head?_outline, houtline, List.head?_append,
      Option.or_of_isSome hsome]
  · have := wf.function_lt x hmem
    rw [hid] at hle
    omega

end Follows

/-! ### The rules -/

/-- The rules that hold of a program at all times. -/
structure Orderly (p : Program) : Prop where
  functions : (p.functions.map FunctionBody.id).Nodup
  /-- No two blocks of the program share a number. -/
  blocks : (p.functions.flatMap FunctionBody.blockIds).Nodup
  /-- The register has the blocks that there are, each under the function that holds it. -/
  owner : ∀ b f, p.owner? b = some f ↔ ∃ body ∈ p.functions, body.id = f ∧ b ∈ body.blockIds
  function_lt : ∀ f ∈ p.functions, f.id.index < p.nextFunction
  block_lt : ∀ f ∈ p.functions, ∀ b ∈ f.blockIds, b.index < p.nextBlock
  /-- A function has a first block, which runs once for every entry. -/
  entry : ∀ f ∈ p.functions, ∃ b rest, f.blocks = b :: rest ∧ b.weight = fullWeight
  root : ∀ f ∈ p.roots, ∃ body ∈ p.functions, body.id = f

theorem Edited.orderly (edited : p.Edited) : p.Orderly := by
  have wf := edited.wellFormed
  refine ⟨wf.nodup, wf.nodup_blockIds, edited.registered, wf.function_lt, wf.block_lt,
    fun f hf => ?_, fun f hf => List.mem_map.mp (edited.rooted f hf)⟩
  obtain ⟨b, hb, hweight⟩ := Option.map_eq_some_iff.mp (edited.fullEntries f hf)
  obtain ⟨rest, hblocks⟩ := List.head?_eq_some_iff.mp hb
  exact ⟨b, rest, hblocks, hweight⟩

/-- **Numbers are used once.** However a program was put together, inlined into and swept, it is
orderly. A number that a function or block had at any time is below the counters from then on. If
the function or block was taken out at some later time, then its number is not in use at any time
after that; and as long as a function stays, its first block stays the first and keeps its weight.
-/
theorem Edited.numbers_used_once (edited : p.Edited) (later : ReflTransGen Edit p q)
    (last : ReflTransGen Edit q r) : p.Orderly ∧
    (∀ f, (p.function? f).isSome → f.index < q.nextFunction ∧
      (q.function? f = none → r.function? f = none)) ∧
    (∀ b, (p.owner? b).isSome → b.index < q.nextBlock ∧
      (q.owner? b = none → r.owner? b = none)) ∧
    ∀ f x y, p.function? f = some x → q.function? f = some y →
      y.entry?.map Block.outline = x.entry?.map Block.outline := by
  have edited' := edited.edits later
  have edited'' := edited'.edits last
  have hlater := follows_of_edits edited later
  have hlast := follows_of_edits edited' last
  refine ⟨edited.orderly, fun f hf => ?_, fun b hb => ?_, fun f x y hx hy => ?_⟩
  · obtain ⟨x, hx⟩ := Option.isSome_iff_exists.mp hf
    obtain ⟨hmem, rfl⟩ := edited.wellFormed.function?_eq_some.mp hx
    have hlt := (edited.wellFormed.function_lt x hmem).trans_le hlater.nextFunction
    exact ⟨hlt, hlast.function?_eq_none edited'.wellFormed edited''.wellFormed hlt⟩
  · obtain ⟨f, hf⟩ := Option.isSome_iff_exists.mp hb
    have hlt := (edited.wellFormed.lt_of_holds ((edited.registered b f).mp hf)).trans_le
      hlater.nextBlock
    exact ⟨hlt, hlast.owner?_eq_none edited'.registered edited''.registered hlt⟩
  · exact hlater.outline_entry edited.wellFormed edited'.wellFormed hx hy

/-- A main function and a leaf that it calls. -/
def twig : Program :=
  assemble ["main", "leaf"] [(0, .call ⟨1⟩), (1, .op)] [(0, 100)]

/-- The twig once the call was inlined and the leaf swept away. -/
def prunedTwig : Program := ((inline ⟨⟨⟨0⟩, ⟨0⟩, 0⟩, ⟨0⟩, ⟨1⟩⟩).after twig).sweep.2

/-- The pruned twig after an attempt to give the leaf a block, and with a new function. -/
def regrownTwig : Program := (((addBlock ⟨1⟩ 500).after prunedTwig).addFunction "bud").2

/-- The new function has neither the number of the leaf nor that of its block, nor has anything
else. The number of the block that could not be added is lost. -/
theorem numbers_used_once_twig : twig.Edited ∧ ReflTransGen Edit twig prunedTwig ∧
    ReflTransGen Edit prunedTwig regrownTwig ∧
    (twig.function? ⟨1⟩).isSome ∧ prunedTwig.function? ⟨1⟩ = none ∧
    regrownTwig.function? ⟨1⟩ = none ∧
    (twig.owner? ⟨1⟩).isSome ∧ prunedTwig.owner? ⟨1⟩ = none ∧ regrownTwig.owner? ⟨1⟩ = none ∧
    regrownTwig.functions.map (fun f => (f.id, f.blockIds)) =
      [(⟨0⟩, [⟨0⟩, ⟨2⟩]), (⟨2⟩, [⟨4⟩])] := by
  have edited : twig.Edited := (built_assemble _ _ _).edited
  have later : ReflTransGen Edit twig prunedTwig :=
    .tail (.single (.inline _ ⟨⟨⟨0⟩, ⟨0⟩, 0⟩, ⟨0⟩, ⟨1⟩⟩)) (.sweep _)
  have last : ReflTransGen Edit prunedTwig regrownTwig :=
    .tail (.single (.addBlock _ ⟨1⟩ 500)) (.addFunction _ "bud")
  obtain ⟨-, hfunctions, hblocks, -⟩ := edited.numbers_used_once later last
  have hfunction : (twig.function? ⟨1⟩).isSome := by decide +kernel
  have hgone : prunedTwig.function? ⟨1⟩ = none := by decide +kernel
  have hblock : (twig.owner? ⟨1⟩).isSome := by decide +kernel
  have hstruck : prunedTwig.owner? ⟨1⟩ = none := by decide +kernel
  exact ⟨edited, later, last, hfunction, hgone, (hfunctions _ hfunction).2 hgone, hblock, hstruck,
    (hblocks _ hblock).2 hstruck, by decide +kernel⟩

end Program

end Inlining
