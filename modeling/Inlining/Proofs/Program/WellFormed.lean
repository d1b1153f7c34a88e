import Inlining.Program.Basic

/-!
# Well-formed programs

Functions and blocks are known by their numbers, so a look-up can only be trusted if no number is
given twice. `Program.WellFormed` says that none is, and that every number is below the one that
would be given next. Programs that were put together with the operations of `Inlining.Program.Basic`
are well-formed, whether or not the single operations succeeded.

All later changes of a program — code changed in place, blocks appended, functions taken out — go
through two lemmas, `WellFormed.extend` and `WellFormed.filter`.

## Main definitions

* `Program.Built` — the programs that the operations build
* `Program.WellFormed` — no number is given twice
* `Program.assemble` — a program from its code

## Main results

* `Program.Built.wellFormed` — built programs are well-formed
* `Program.WellFormed.function?_eq_some`, `Program.WellFormed.block?_eq_some` — look-ups find
  exactly what is there
-/

namespace Inlining

/-- In a list whose keys are all different, looking up a key finds the one entry that has it. -/
theorem find?_key_eq_some {α κ : Type} [DecidableEq κ] {key : α → κ} {l : List α}
    (distinct : (l.map key).Nodup) {k : κ} {a : α} :
    l.find? (fun x => key x = k) = some a ↔ a ∈ l ∧ key a = k := by
  induction l with
  | nil => simp
  | cons x xs ih =>
    rw [List.map_cons, List.nodup_cons] at distinct
    rw [List.find?_cons]
    by_cases hx : key x = k
    · simp only [hx, decide_true, Option.some.injEq, List.mem_cons]
      constructor
      · rintro rfl
        exact ⟨.inl rfl, hx⟩
      · rintro ⟨rfl | ha, hk⟩
        · rfl
        · exact absurd (List.mem_map.mpr ⟨a, ha, hk.trans hx.symm⟩) distinct.1
    · simp only [hx, decide_false, ih distinct.2, List.mem_cons]
      constructor
      · rintro ⟨ha, hk⟩
        exact ⟨.inr ha, hk⟩
      · rintro ⟨rfl | ha, hk⟩
        · exact absurd hk hx
        · exact ⟨ha, hk⟩

/-- The numbers of a function's blocks, in order. -/
def FunctionBody.blockIds (f : FunctionBody) : List BlockId := f.blocks.map Block.id

@[simp] theorem FunctionBody.blockIds_modifyBlock (f : FunctionBody) (b : BlockId)
    {change : Block → Block} (keeps : ∀ x, (change x).id = x.id) :
    (f.modifyBlock b change).blockIds = f.blockIds := by
  simp only [blockIds, modifyBlock, List.map_map]
  refine List.map_congr_left fun x _ => ?_
  simp only [Function.comp_apply]
  split <;> simp [keeps]

theorem FunctionBody.mem_blockIds {f : FunctionBody} {b : BlockId} :
    b ∈ f.blockIds ↔ ∃ x ∈ f.blocks, x.id = b := List.mem_map

namespace Program

/-- The programs that can be put together from nothing. An operation that fails counts with what it
leaves behind. -/
inductive Built : Program → Prop where
  | empty : Built {}
  | addFunction {p : Program} (name : String) : Built p → Built (p.addFunction name).2
  | addBlock {p : Program} (f : FunctionId) (weight : Nat) :
      Built p → Built ((addBlock f weight).after p)
  | push {p : Program} (b : BlockId) (i : Instruction) : Built p → Built ((push b i).after p)
  | setRoot {p : Program} (f : FunctionId) (count : Nat) :
      Built p → Built ((setRoot f count).after p)

/-- No number of a function or block is given twice, and all are below the next one. -/
structure WellFormed (p : Program) : Prop where
  ascending : p.functions.Pairwise fun f g => f.id.index < g.id.index
  function_lt : ∀ f ∈ p.functions, f.id.index < p.nextFunction
  block_lt : ∀ f ∈ p.functions, ∀ b ∈ f.blockIds, b.index < p.nextBlock
  distinct : ∀ f ∈ p.functions, f.blockIds.Nodup
  /-- A block's number says which function it belongs to. -/
  owner : ∀ f ∈ p.functions, ∀ g ∈ p.functions, ∀ b ∈ f.blockIds, b ∈ g.blockIds → f.id = g.id
  entered : ∀ f ∈ p.functions, f.blocks ≠ []

namespace WellFormed

variable {p q : Program}

/-! ### Look-ups -/

theorem nodup (wf : p.WellFormed) : (p.functions.map FunctionBody.id).Nodup := by
  rw [List.Nodup, List.pairwise_map]
  refine wf.ascending.imp fun {f g} hlt heq => ?_
  rw [heq] at hlt
  exact Nat.lt_irrefl _ hlt

theorem function?_eq_some (wf : p.WellFormed) {f : FunctionId} {body : FunctionBody} :
    p.function? f = some body ↔ body ∈ p.functions ∧ body.id = f :=
  find?_key_eq_some wf.nodup

/-- Two functions of the same number are the same. -/
theorem eq_of_id_eq (wf : p.WellFormed) {f g : FunctionBody} (hf : f ∈ p.functions)
    (hg : g ∈ p.functions) (h : f.id = g.id) : f = g := by
  have hf' := wf.function?_eq_some.mpr ⟨hf, h⟩
  have hg' := wf.function?_eq_some.mpr ⟨hg, rfl⟩
  exact Option.some.inj (hf'.symm.trans hg')

theorem block?_eq_some (wf : p.WellFormed) {f : FunctionBody} (hf : f ∈ p.functions) {b : BlockId}
    {x : Block} : f.block? b = some x ↔ x ∈ f.blocks ∧ x.id = b :=
  find?_key_eq_some (wf.distinct f hf)

/-- Two blocks of the same number are the same, in the same function. -/
theorem eq_of_block_id_eq (wf : p.WellFormed) {f g : FunctionBody} (hf : f ∈ p.functions)
    (hg : g ∈ p.functions) {b c : Block} (hb : b ∈ f.blocks) (hc : c ∈ g.blocks)
    (h : b.id = c.id) : f = g ∧ b = c := by
  have hfg : f = g := wf.eq_of_id_eq hf hg <|
    wf.owner f hf g hg b.id (FunctionBody.mem_blockIds.mpr ⟨b, hb, rfl⟩)
      (FunctionBody.mem_blockIds.mpr ⟨c, hc, h.symm⟩)
  subst hfg
  have hb' := (wf.block?_eq_some hf).mpr ⟨hb, h⟩
  have hc' := (wf.block?_eq_some hf).mpr ⟨hc, rfl⟩
  exact ⟨rfl, Option.some.inj (hb'.symm.trans hc')⟩

theorem nodup_blockIds (wf : p.WellFormed) :
    (p.functions.flatMap FunctionBody.blockIds).Nodup := by
  rw [List.Nodup, List.pairwise_flatMap]
  refine ⟨wf.distinct, wf.ascending.imp_of_mem fun hf hg hlt b hb c hc heq => ?_⟩
  have hid := wf.owner _ hf _ hg b hb (heq ▸ hc)
  rw [hid] at hlt
  exact Nat.lt_irrefl _ hlt

/-! ### The two ways to change a program -/

/-- Functions changed in place: every function keeps its number and its blocks, and one of them may
get new blocks at its end. -/
theorem extend (wf : p.WellFormed) (target : FunctionId) (fresh : List BlockId)
    (change : FunctionBody → FunctionBody) (functions : q.functions = p.functions.map change)
    (next : q.nextFunction = p.nextFunction) (id : ∀ f, (change f).id = f.id)
    (blocks : ∀ f ∈ p.functions, (change f).blockIds =
      f.blockIds ++ if f.id = target then fresh else [])
    (nodup : fresh.Nodup) (lower : ∀ b ∈ fresh, p.nextBlock ≤ b.index)
    (upper : ∀ b ∈ fresh, b.index < q.nextBlock) (grows : p.nextBlock ≤ q.nextBlock) :
    q.WellFormed := by
  have hblocks : ∀ f ∈ p.functions, ∀ b, b ∈ (change f).blockIds ↔
      b ∈ f.blockIds ∨ f.id = target ∧ b ∈ fresh := by
    intro f hf b
    rw [blocks f hf, List.mem_append]
    split <;> simp_all
  have hold : ∀ f ∈ p.functions, ∀ b ∈ f.blockIds, b ∉ fresh := by
    intro f hf b hb hfresh
    have := wf.block_lt f hf b hb
    have := lower b hfresh
    omega
  constructor
  case ascending =>
    rw [functions, List.pairwise_map]
    exact wf.ascending.imp fun h => by rwa [id, id]
  case function_lt =>
    rw [functions, next]
    intro g hg
    obtain ⟨f, hf, rfl⟩ := List.mem_map.mp hg
    rw [id]
    exact wf.function_lt f hf
  case block_lt =>
    rw [functions]
    intro g hg b hb
    obtain ⟨f, hf, rfl⟩ := List.mem_map.mp hg
    rcases (hblocks f hf b).mp hb with hb | ⟨-, hb⟩
    · exact Nat.lt_of_lt_of_le (wf.block_lt f hf b hb) grows
    · exact upper b hb
  case distinct =>
    rw [functions]
    intro g hg
    obtain ⟨f, hf, rfl⟩ := List.mem_map.mp hg
    rw [blocks f hf]
    refine List.nodup_append.mpr ⟨wf.distinct f hf, by split <;> simp [nodup], ?_⟩
    rintro a ha b hb rfl
    split at hb
    · exact hold f hf a ha hb
    · simp at hb
  case owner =>
    rw [functions]
    intro g hg g' hg' b hb hb'
    obtain ⟨f, hf, rfl⟩ := List.mem_map.mp hg
    obtain ⟨f', hf', rfl⟩ := List.mem_map.mp hg'
    rw [id, id]
    -- A fresh number belongs to the target; an old one cannot be fresh.
    rcases (hblocks f hf b).mp hb with hb | ⟨ht, hb⟩ <;>
      rcases (hblocks f' hf' b).mp hb' with hb' | ⟨ht', hb'⟩
    · exact wf.owner f hf f' hf' b hb hb'
    · exact absurd hb' (hold f hf b hb)
    · exact absurd hb (hold f' hf' b hb')
    · exact ht.trans ht'.symm
  case entered =>
    rw [functions]
    intro g hg hnil
    obtain ⟨f, hf, rfl⟩ := List.mem_map.mp hg
    have hids : (change f).blockIds = [] := by rw [FunctionBody.blockIds, hnil]; rfl
    rw [blocks f hf, List.append_eq_nil_iff] at hids
    exact wf.entered f hf (List.map_eq_nil_iff.mp hids.1)

/-- Functions taken out. -/
theorem filter (wf : p.WellFormed) {keep : FunctionBody → Bool}
    (functions : q.functions = p.functions.filter keep) (next : q.nextFunction = p.nextFunction)
    (nextBlock : q.nextBlock = p.nextBlock) : q.WellFormed := by
  have hsub : ∀ {f}, f ∈ q.functions → f ∈ p.functions := by
    intro f hf
    rw [functions] at hf
    exact (List.mem_filter.mp hf).1
  constructor
  case ascending =>
    rw [functions]
    exact wf.ascending.sublist List.filter_sublist
  case function_lt => exact fun f hf => next ▸ wf.function_lt f (hsub hf)
  case block_lt => exact fun f hf b hb => nextBlock ▸ wf.block_lt f (hsub hf) b hb
  case distinct => exact fun f hf => wf.distinct f (hsub hf)
  case owner => exact fun f hf g hg => wf.owner f (hsub hf) g (hsub hg)
  case entered => exact fun f hf => wf.entered f (hsub hf)

/-- Only functions and the next numbers matter. -/
theorem congr (wf : p.WellFormed) (functions : q.functions = p.functions)
    (next : q.nextFunction = p.nextFunction) (nextBlock : q.nextBlock = p.nextBlock) :
    q.WellFormed :=
  wf.filter (functions.trans (List.filter_eq_self.mpr fun _ _ => rfl).symm) next nextBlock

end WellFormed

/-! ### Built programs -/

theorem appendBlock_apply (p : Program) (f : FunctionId) (block : Block) :
    appendBlock f block p =
      if (p.function? f).isSome then
        .ok () { p.modifyFunction f fun x => { x with blocks := x.blocks ++ [block] } with
          owners := p.owners.enter f [block] }
      else .error (.host (.unknownFunction f)) p := by
  simp [appendBlock]

theorem addBlock_apply (p : Program) (f : FunctionId) (weight : Nat) :
    addBlock f weight p =
      let id : BlockId := ⟨p.nextBlock⟩
      let block : Block := { id, weight, code := [] }
      let q := { p with nextBlock := p.nextBlock + 1 }
      if (p.function? f).isSome then
        .ok id { q.modifyFunction f fun x => { x with blocks := x.blocks ++ [block] } with
          owners := p.owners.enter f [block] }
      else .error (.host (.unknownFunction f)) q := by
  have hfunction : ({ p with nextBlock := p.nextBlock + 1 } : Program).function? f =
      p.function? f := rfl
  cases hsome : (p.function? f).isSome <;>
    simp [addBlock, freshBlock, appendBlock_apply, hfunction, hsome]

theorem push_apply (p : Program) (b : BlockId) (i : Instruction) :
    push b i p =
      match p.owner b with
      | .error e => .error e p
      | .ok f => match (p.function? f).bind fun x => x.block? b with
        | none => .error (.host (.vanishedBlock b f)) p
        | some target =>
          if Word.greatest32 < target.code.length then .error (.host (.fullBlock b)) p
          else .ok ⟨f, b, target.code.length⟩
            (p.modifyFunction f fun x =>
              x.modifyBlock b fun y => { y with code := y.code ++ [i] }) := by
  cases howner : p.owner b with
  | error e => simp [push, howner]
  | ok f =>
    cases htarget : (p.function? f).bind fun x => x.block? b <;> simp [push, howner, htarget]

/-- Pushing an instruction changes the code of one block at most, and not of one that is full. -/
theorem after_push (p : Program) (b : BlockId) (i : Instruction) :
    (push b i).after p = p ∨ ∃ f,
      (∃ x target, p.function? f = some x ∧ x.block? b = some target ∧
        target.code.length ≤ Word.greatest32) ∧
      (push b i).after p = p.modifyFunction f fun x =>
        x.modifyBlock b fun y => { y with code := y.code ++ [i] } := by
  rw [Update.after, push_apply]
  cases p.owner b with
  | error e => exact .inl rfl
  | ok f =>
    simp only
    cases htarget : (p.function? f).bind fun x => x.block? b with
    | none => exact .inl rfl
    | some target =>
      simp only
      by_cases hfull : Word.greatest32 < target.code.length
      · rw [if_pos hfull]
        exact .inl rfl
      · rw [if_neg hfull]
        obtain ⟨x, hx, hb⟩ := Option.bind_eq_some_iff.mp htarget
        exact .inr ⟨f, ⟨x, target, hx, hb, Nat.le_of_not_lt hfull⟩, rfl⟩

theorem setRoot_apply (p : Program) (f : FunctionId) (count : Nat) :
    setRoot f count p =
      if (p.function? f).isSome then .ok ⟨⟩ { p with roots := p.roots.insert f count }
      else .error (.host (.unknownFunction f)) p := by
  simp [setRoot]

namespace WellFormed

variable {p : Program}

theorem addFunction (wf : p.WellFormed) (name : String) : (p.addFunction name).2.WellFormed := by
  -- The new function has the greatest number, and so has its one block.
  have hids : ∀ b, b ∈ FunctionBody.blockIds ⟨⟨p.nextFunction⟩, name,
      [{ id := ⟨p.nextBlock⟩, weight := fullWeight, code := [] }]⟩ ↔ b = ⟨p.nextBlock⟩ := by
    simp [FunctionBody.blockIds]
  constructor <;> simp only [Program.addFunction, List.mem_append, List.mem_singleton]
  case ascending =>
    refine List.pairwise_append.mpr ⟨wf.ascending, by simp, ?_⟩
    intro f hf g hg
    rw [List.mem_singleton.mp hg]
    exact wf.function_lt f hf
  case function_lt =>
    rintro f (hf | rfl)
    · exact Nat.lt_succ_of_lt (wf.function_lt f hf)
    · exact Nat.lt_succ_self _
  case block_lt =>
    rintro f (hf | rfl) b hb
    · exact Nat.lt_succ_of_lt (wf.block_lt f hf b hb)
    · rw [(hids b).mp hb]
      exact Nat.lt_succ_self _
  case distinct =>
    rintro f (hf | rfl)
    · exact wf.distinct f hf
    · simp [FunctionBody.blockIds]
  case owner =>
    rintro f (hf | rfl) g (hg | rfl) b hb hb'
    · exact wf.owner f hf g hg b hb hb'
    · have := wf.block_lt f hf b hb
      rw [(hids b).mp hb'] at this
      exact absurd this (Nat.lt_irrefl _)
    · have := wf.block_lt g hg b hb'
      rw [(hids b).mp hb] at this
      exact absurd this (Nat.lt_irrefl _)
    · rfl
  case entered =>
    rintro f (hf | rfl)
    · exact wf.entered f hf
    · simp

theorem addBlock (wf : p.WellFormed) (f : FunctionId) (weight : Nat) :
    ((addBlock f weight).after p).WellFormed := by
  rw [Update.after, addBlock_apply]
  by_cases hf : (p.function? f).isSome
  · simp only [hf, if_true]
    refine wf.extend f [⟨p.nextBlock⟩] _ rfl rfl ?_ ?_ (by simp) (by simp)
      (by simp [modifyFunction]) (Nat.le_succ _)
    · intro x
      simp only
      split <;> rfl
    · intro x _
      simp only
      split <;> simp [FunctionBody.blockIds]
  · simp only [hf]
    refine wf.extend f [] id (by simp) rfl (fun _ => rfl) (by simp)
      .nil (by simp) (by simp) (Nat.le_succ _)

theorem push (wf : p.WellFormed) (b : BlockId) (i : Instruction) :
    ((push b i).after p).WellFormed := by
  rcases after_push p b i with heq | ⟨f, -, heq⟩
  · rw [heq]
    exact wf
  · rw [heq]
    refine wf.extend f [] _ rfl rfl ?_ ?_ .nil (by simp) (by simp) (Nat.le_refl _)
    · intro x
      simp only
      split <;> rfl
    · intro x _
      simp only
      split <;> simp

theorem setRoot (wf : p.WellFormed) (f : FunctionId) (count : Nat) :
    ((setRoot f count).after p).WellFormed := by
  rw [Update.after, setRoot_apply]
  split
  · rename_i heq
    split at heq
    · cases heq
      exact wf.congr rfl rfl rfl
    · cases heq
  · rename_i heq
    split at heq
    · cases heq
    · cases heq
      exact wf

end WellFormed

/-- **Built programs are well-formed.** -/
theorem Built.wellFormed {p : Program} (built : p.Built) : p.WellFormed := by
  induction built with
  | empty => constructor <;> simp
  | addFunction name _ ih => exact ih.addFunction name
  | addBlock f weight _ ih => exact ih.addBlock f weight
  | push b i _ ih => exact ih.push b i
  | setRoot f count _ ih => exact ih.setRoot f count

/-- Functions of the given names, with code for their entry blocks and with some of them as roots.
The first block of a function has the number of the function. -/
def assemble (names : List String) (code : List (Nat × Instruction)) (roots : List (Nat × Nat)) :
    Program :=
  let bare := names.foldl (fun p name => (p.addFunction name).2) {}
  let full := code.foldl (fun p x => (push ⟨x.1⟩ x.2).after p) bare
  roots.foldl (fun p x => (setRoot ⟨x.1⟩ x.2).after p) full

theorem built_assemble (names : List String) (code : List (Nat × Instruction))
    (roots : List (Nat × Nat)) : (assemble names code roots).Built := by
  refine List.foldlRecOn (motive := Built) _ _ ?_ fun _ hp _ _ => .setRoot _ _ hp
  refine List.foldlRecOn (motive := Built) _ _ ?_ fun _ hp _ _ => .push _ _ hp
  exact List.foldlRecOn (motive := Built) _ _ .empty fun _ hp _ _ => .addFunction _ hp

end Program

end Inlining
