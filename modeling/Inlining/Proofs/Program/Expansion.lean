import Inlining.Proofs.Program.CallPaths
import Mathlib.Data.Multiset.Basic

/-!
# What functions come to

A function that comes to no cycle of calls can be written out: each call of a function of the
program stands for what that function comes to, and what is left are the instructions that are no
such calls. Markers stand for nothing. This is the *expansion* of the function, taken without regard
to order.

Inlining replaces a call by the instructions it stands for, and sweeping takes away what no
expansion has a use for. Neither changes an expansion.

The expansion is computed by writing out calls to a depth that no path of calls exceeds unless it
comes to a cycle. From there on the depth no longer matters, `Program.unroll_eq`, so that the
expansion satisfies its defining equation, `Program.expansion_eq`.

## Main definitions

* `Program.expand` — the expansion of a function
* `Program.Unrolls` — the function comes to no cycle of calls
* `Program.Retains` — expansions stay as they are

## Main results

* `Program.WellFormed.expansion_eq` — the expansion as the sum over the instructions
* `Program.WellFormed.retains_splice` — inlining keeps expansions
* `Program.WellFormed.retains_sweep` — sweeping keeps expansions
-/

namespace Inlining

open Relation

namespace Program

/-- What an instruction stands for, if functions of the program stand for what is given: nothing for
a marker, and itself unless it calls such a function. -/
def meaning (p : Program) (known : FunctionId → List Instruction) (i : Instruction) :
    List Instruction :=
  if i.isMarker then []
  else match i.callee? with
    | none => [i]
    | some g => if (p.function? g).isSome then known g else [i]

/-- A function with calls written out to the given depth. -/
def unroll (p : Program) : Nat → FunctionId → List Instruction
  | 0, _ => []
  | n + 1, f => match p.function? f with
    | none => []
    | some body => body.instructions.flatMap (p.meaning (p.unroll n))

/-- A function with all calls written out. Without a cycle there are no more calls one below the
other than there are calls. -/
def expansion (p : Program) (f : FunctionId) : List Instruction :=
  p.unroll (p.allCallees.length + 1) f

/-- What a function comes to, in no order. -/
def expand (p : Program) (f : FunctionId) : Multiset Instruction := Multiset.ofList (p.expansion f)

/-- No recursive function can be reached. -/
def Unrolls (p : Program) (f : FunctionId) : Prop :=
  ∀ g, ReflTransGen p.Calls f g → (CallGraph.ofSnapshot p.snapshot).isRecursive g = false

variable {p q r : Program} {f g : FunctionId} {body : FunctionBody}

/-! ### Functions that come to no cycle -/

theorem Unrolls.of_reaches (h : p.Unrolls f) (hreach : ReflTransGen p.Calls f g) : p.Unrolls g :=
  fun _ hg => h _ (hreach.trans hg)

theorem Unrolls.not_transGen (h : p.Unrolls f) (wf : p.WellFormed) :
    ¬ TransGen p.Calls f f := by
  rw [← wf.isRecursive_snapshot, h f .refl]
  exact Bool.false_ne_true

/-- Where no paths are added, no cycle is added. -/
theorem Unrolls.of_calls (h : p.Unrolls f) (wf : p.WellFormed) (wf' : q.WellFormed)
    (calls : ∀ f g, q.Calls f g → TransGen p.Calls f g) : q.Unrolls f := by
  intro g hg
  have hreach := reaches_of_calls calls hg
  rw [Bool.eq_false_iff, ne_eq, wf'.isRecursive_snapshot]
  exact fun hcycle => (h.of_reaches hreach).not_transGen wf (TransGen.closed calls _ _ hcycle)

theorem Unrolls.rank_lt (h : p.Unrolls f) (wf : p.WellFormed) (hg : TransGen p.Calls f g) :
    p.rank g < p.rank f :=
  Program.rank_lt hg.to_reflTransGen fun hback => h.not_transGen wf (hg.trans_left hback)

theorem calls_of_mem_instructions (hbody : p.function? f = some body) {i : Instruction}
    (hi : i ∈ body.instructions) (hg : i.callee? = some g) : p.Calls f g := by
  rw [calls_iff_function?]
  refine ⟨body, hbody, ?_⟩
  rw [FunctionBody.callees_eq]
  exact List.mem_filterMap.mpr ⟨i, hi, hg⟩

/-! ### Depth -/

/-- A call of a function of the program stands for what that function stands for. -/
theorem meaning_call {known : FunctionId → List Instruction} {i : Instruction}
    (hcallee : i.callee? = some g) (hg : (p.function? g).isSome) : p.meaning known i = known g := by
  have hmarker : i.isMarker = false := by
    cases i with
    | inlined => cases hcallee
    | _ => rfl
  simp [meaning, hmarker, hcallee, hg]

/-- Instructions stand for the same if their callees do. -/
theorem meaning_perm {known known' : FunctionId → List Instruction} {i : Instruction}
    (functions : ∀ g, i.callee? = some g → (q.function? g).isSome = (p.function? g).isSome)
    (same : ∀ g, i.callee? = some g → (q.function? g).isSome → (known' g).Perm (known g)) :
    (q.meaning known' i).Perm (p.meaning known i) := by
  rw [meaning, meaning]
  split
  · exact .refl _
  · cases hcallee : i.callee? with
    | none => exact .refl _
    | some g =>
      simp only [← functions g hcallee]
      split
      · exact same g hcallee ‹_›
      · exact .refl _

theorem flatMap_meaning_perm {known known' : FunctionId → List Instruction} {l : List Instruction}
    (functions : ∀ i ∈ l, ∀ g, i.callee? = some g →
      (q.function? g).isSome = (p.function? g).isSome)
    (same : ∀ i ∈ l, ∀ g, i.callee? = some g → (q.function? g).isSome → (known' g).Perm (known g)) :
    (l.flatMap (q.meaning known')).Perm (l.flatMap (p.meaning known)) :=
  List.Perm.flatMap_left _ fun i hi => meaning_perm (functions i hi) (same i hi)

/-- From the rank of a function on, the depth does not matter. -/
theorem WellFormed.unroll_perm (wf : p.WellFormed) {m n : Nat} (hf : p.Unrolls f)
    (hm : p.rank f ≤ m) (hn : p.rank f ≤ n) : (p.unroll m f).Perm (p.unroll n f) := by
  induction m generalizing n f with
  | zero => exact absurd (p.rank_pos f) (by omega)
  | succ m ih =>
    obtain ⟨n, rfl⟩ := Nat.exists_eq_succ_of_ne_zero (Nat.ne_of_gt ((p.rank_pos f).trans_le hn))
    rw [unroll, unroll]
    cases hbody : p.function? f with
    | none => exact .refl _
    | some body =>
      refine flatMap_meaning_perm (fun _ _ _ _ => rfl) fun i hi g hg _ => ?_
      have hcalls := calls_of_mem_instructions hbody hi hg
      have hlt := hf.rank_lt wf (.single hcalls)
      exact ih (hf.of_reaches (.single hcalls)) (by omega) (by omega)

/-- **The expansion as the sum over the instructions.** -/
theorem WellFormed.expansion_eq (wf : p.WellFormed) (hf : p.Unrolls f)
    (hbody : p.function? f = some body) :
    (p.expansion f).Perm (body.instructions.flatMap (p.meaning p.expansion)) := by
  rw [expansion, unroll, hbody]
  refine flatMap_meaning_perm (fun _ _ _ _ => rfl) fun i hi g hg _ => ?_
  have hcalls := calls_of_mem_instructions hbody hi hg
  have hlt := hf.rank_lt wf (.single hcalls)
  have hle := p.rank_le_calls f
  exact wf.unroll_perm (hf.of_reaches (.single hcalls)) (by omega) (by omega)

/-! ### Programs with the same expansions -/

/-- The second program has no functions or paths that the first one does not have, and its functions
come to the same. -/
structure Retains (p q : Program) : Prop where
  functions : ∀ f, (q.function? f).isSome → (p.function? f).isSome
  calls : ∀ f g, q.Calls f g → TransGen p.Calls f g
  expansion : ∀ f, (q.function? f).isSome → p.Unrolls f → (q.expansion f).Perm (p.expansion f)

theorem Retains.refl (p : Program) : p.Retains p :=
  ⟨fun _ => id, fun _ _ => .single, fun _ _ _ => .refl _⟩

theorem Retains.trans (hpq : p.Retains q) (hqr : q.Retains r) (wf : p.WellFormed)
    (wf' : q.WellFormed) : p.Retains r := by
  refine ⟨fun f hf => hpq.functions f (hqr.functions f hf),
    fun f g h => TransGen.closed hpq.calls _ _ (hqr.calls f g h), fun f hf hunrolls => ?_⟩
  exact (hqr.expansion f hf (hunrolls.of_calls wf wf' hpq.calls)).trans
    (hpq.expansion f (hqr.functions f hf) hunrolls)

/-- Expansions stay if each one does as long as those do that it depends on. The induction is on the
rank, since a function that is inlined changes what its caller depends on. -/
theorem WellFormed.retains (wf : p.WellFormed) (wf' : q.WellFormed)
    (functions : ∀ f, (q.function? f).isSome → (p.function? f).isSome)
    (calls : ∀ f g, q.Calls f g → TransGen p.Calls f g)
    (step : ∀ f body, q.function? f = some body → p.Unrolls f →
      (∀ g, TransGen p.Calls f g → (q.function? g).isSome →
        (q.expansion g).Perm (p.expansion g)) →
      (body.instructions.flatMap (q.meaning q.expansion)).Perm (p.expansion f)) :
    p.Retains q := by
  refine ⟨functions, calls, fun f hf hunrolls => ?_⟩
  induction hrank : p.rank f using Nat.strongRecOn generalizing f with
  | ind n ih =>
    obtain ⟨body, hbody⟩ := Option.isSome_iff_exists.mp hf
    refine (wf'.expansion_eq (hunrolls.of_calls wf wf' calls) hbody).trans ?_
    refine step f body hbody hunrolls fun g hg hg' => ?_
    exact ih (p.rank g) (hrank ▸ hunrolls.rank_lt wf hg) g hg'
      (hunrolls.of_reaches hg.to_reflTransGen) rfl

/-- **Inlining keeps expansions.** -/
theorem WellFormed.retains_splice (wf : p.WellFormed) {site : CallSite}
    (h : p.calleeAt site = .ok body) : p.Retains (p.splice site body) := by
  have hbody := (calleeAt_eq_ok.mp h).2.2
  have hsome : ∀ f, ((p.splice site body).function? f).isSome = (p.function? f).isSome := by
    intro f
    rw [function?_splice, Option.isSome_map]
  refine wf.retains wf.splice (fun f hf => hsome f ▸ hf)
    (fun f g => (wf.inlines h).transGen_calls wf (wf.calls_site h))
    fun f body' hbody' hunrolls same => ?_
  have hpart : ∀ {l : List Instruction},
      (∀ i ∈ l, ∀ g, i.callee? = some g → TransGen p.Calls f g) →
      (l.flatMap ((p.splice site body).meaning (p.splice site body).expansion)).Perm
        (l.flatMap (p.meaning p.expansion)) := fun hl =>
    flatMap_meaning_perm (fun _ _ g _ => hsome g) fun i hi g hg hg' => same g (hl i hi g hg) hg'
  rw [function?_splice] at hbody'
  obtain ⟨x, hx, rfl⟩ := Option.map_eq_some_iff.mp hbody'
  obtain ⟨hxmem, hxid⟩ := wf.function?_eq_some.mp hx
  have hown := fun i hi g hg =>
    TransGen.single (calls_of_mem_instructions (g := g) (i := i) hx hi hg)
  split
  case isFalse => exact (hpart hown).trans (wf.expansion_eq hunrolls hx).symm
  case isTrue hcaller =>
    obtain ⟨y, hymem, hyid, i, hi, hcallee, hgraft⟩ := wf.instructions_graft h
    obtain rfl := wf.eq_of_id_eq hxmem hymem (hcaller.trans hyid.symm)
    have hcalls : p.Calls f site.callee := calls_of_mem_instructions hx hi hcallee
    have hunrolls' := hunrolls.of_reaches (.single hcalls)
    have hcopied := (hpart fun j hj g hg =>
      .head hcalls (.single (calls_of_mem_instructions hbody hj hg))).trans
        (wf.expansion_eq hunrolls' hbody).symm
    have hkept := (hpart hown).trans (wf.expansion_eq hunrolls hx).symm
    have hcallee' : ((p.splice site body).function? site.callee).isSome := by
      rw [hsome, hbody]
      rfl
    have hgone : ((p.splice site body).meaning (p.splice site body).expansion i).Perm
        (p.expansion site.callee) := by
      rw [meaning_call hcallee hcallee']
      exact same site.callee (.single hcalls) hcallee'
    -- The call and the copied code stand for the same, so what is left stands for the rest.
    have hperm := hgraft.flatMap_right
      ((p.splice site body).meaning (p.splice site body).expansion)
    simp only [List.flatMap_append, List.flatMap_singleton] at hperm
    refine (List.perm_append_left_iff (p.expansion site.callee)).mp ?_
    exact ((hgone.symm.append_right _).trans hperm).trans (hcopied.append hkept)

/-- Markers stand for nothing, so that nothing is lost without them. -/
theorem flatMap_meaning_bare (known : FunctionId → List Instruction) (body : FunctionBody) :
    body.bare.instructions.flatMap (p.meaning known) =
      body.instructions.flatMap (p.meaning known) := by
  rw [instructions_bare]
  induction body.instructions with
  | nil => rfl
  | cons i rest ih =>
    rw [List.filter_cons, List.flatMap_cons, ← ih]
    cases hi : i.isMarker with
    | false => simp
    | true => simp [meaning, hi]

/-- **Sweeping keeps expansions.** -/
theorem WellFormed.retains_sweep (wf : p.WellFormed) : p.Retains p.sweep.2 := by
  have hfunction : ∀ {f body}, p.sweep.2.function? f = some body →
      f ∉ p.dead ∧ ∃ x, p.function? f = some x ∧ body = x.bare := by
    intro f body hbody
    rw [function?_sweep] at hbody
    split at hbody
    · cases hbody
    · obtain ⟨x, hx, rfl⟩ := Option.map_eq_some_iff.mp hbody
      exact ⟨‹_›, x, hx, rfl⟩
  refine wf.retains wf.sweep ?_ (fun f g hcalls => .single (wf.trims_sweep.calls f g hcalls)) ?_
  · intro f hf
    obtain ⟨_, hbody⟩ := Option.isSome_iff_exists.mp hf
    obtain ⟨-, x, hx, -⟩ := hfunction hbody
    exact Option.isSome_of_eq_some hx
  · intro f _ hbody hunrolls same
    obtain ⟨hstays, x, hx, rfl⟩ := hfunction hbody
    rw [flatMap_meaning_bare]
    refine .trans ?_ (wf.expansion_eq hunrolls hx).symm
    refine flatMap_meaning_perm (fun i hi g hg => ?_) fun i hi g hg hg' => ?_
    · have hdead := wf.not_mem_dead_of_calls hstays (calls_of_mem_instructions hx hi hg)
      rw [function?_sweep, if_neg hdead, Option.isSome_map]
    · exact same g (.single (calls_of_mem_instructions hx hi hg)) hg'

end Program

end Inlining
