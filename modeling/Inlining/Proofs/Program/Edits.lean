import Inlining.Proofs.Program.Inline
import Inlining.Proofs.Program.Sweep

/-!
# Programs in the course of their edits

A program is put together function by function, and then calls are inlined and dead functions swept
away, in any order. Whatever was done to it, it is well-formed, and the entry block of each function
runs once for every entry: building puts blocks behind the entry block, and so does inlining.

Numbers are not bounded, but half a word is enough for every location unless a counter has run past
its end. For positions nothing is asked: a full block takes no more instructions, and inlining
copies blocks as they are.

## Main definitions

* `Program.Edited` — programs that were put together, inlined into and swept
* `Program.FullEntries` — entry blocks run once for every entry
* `Program.Fits` — every position in a block fits half a word

## Main results

* `Program.Edited.fullEntries` — entry blocks run once for every entry at all times
* `Program.Edited.location_le` — locations fit half words as long as the counters do
-/

namespace Inlining

namespace FunctionBody

/-- The entry block runs once for every entry. -/
def EntersFully (f : FunctionBody) : Prop := f.entry?.map Block.weight = some fullWeight

variable {f : FunctionBody}

theorem EntersFully.append (h : f.EntersFully) (more : List Block) :
    EntersFully { f with blocks := f.blocks ++ more } := by
  obtain ⟨b, hb, hweight⟩ := Option.map_eq_some_iff.mp h
  rw [FunctionBody.entry?] at hb
  rw [EntersFully, FunctionBody.entry?, List.head?_append, hb, Option.some_or, Option.map_some,
    hweight]

theorem EntersFully.map (h : f.EntersFully) {change : Block → Block}
    (keeps : ∀ b, (change b).weight = b.weight) :
    EntersFully { f with blocks := f.blocks.map change } := by
  obtain ⟨b, hb, hweight⟩ := Option.map_eq_some_iff.mp h
  rw [FunctionBody.entry?] at hb
  rw [EntersFully, FunctionBody.entry?, List.head?_map, hb, Option.map_some, Option.map_some, keeps,
    hweight]

theorem EntersFully.modifyBlock (h : f.EntersFully) (b : BlockId) {change : Block → Block}
    (keeps : ∀ x, (change x).weight = x.weight) : (f.modifyBlock b change).EntersFully := by
  refine h.map fun x => ?_
  split
  · exact keeps x
  · rfl

end FunctionBody

namespace Program

/-- The programs that can be put together from nothing and changed by inlining and sweeping. An
operation that fails counts with what it leaves behind. -/
inductive Edited : Program → Prop where
  | empty : Edited {}
  | addFunction {p : Program} (name : String) : Edited p → Edited (p.addFunction name).2
  | addBlock {p : Program} (f : FunctionId) (weight : Nat) :
      Edited p → Edited ((addBlock f weight).after p)
  | push {p : Program} (b : BlockId) (i : Instruction) : Edited p → Edited ((push b i).after p)
  | setRoot {p : Program} (f : FunctionId) (count : Nat) :
      Edited p → Edited ((setRoot f count).after p)
  | inline {p : Program} (site : CallSite) : Edited p → Edited ((inline site).after p)
  | sweep {p : Program} : Edited p → Edited p.sweep.2

theorem Built.edited {p : Program} (built : p.Built) : p.Edited := by
  induction built with
  | empty => exact .empty
  | addFunction name _ ih => exact .addFunction name ih
  | addBlock f weight _ ih => exact .addBlock f weight ih
  | push b i _ ih => exact .push b i ih
  | setRoot f count _ ih => exact .setRoot f count ih

theorem Edited.wellFormed {p : Program} (edited : p.Edited) : p.WellFormed := by
  induction edited with
  | empty => exact Built.wellFormed .empty
  | addFunction name _ ih => exact ih.addFunction name
  | addBlock f weight _ ih => exact ih.addBlock f weight
  | push b i _ ih => exact ih.push b i
  | setRoot f count _ ih => exact ih.setRoot f count
  | @inline p site _ ih =>
    rw [Update.after, inline_apply]
    cases p.calleeAt site with
    | ok body => exact ih.splice
    | error e => exact ih
  | sweep _ ih => exact ih.sweep

/-! ### Entry blocks -/

/-- The entry block of each function runs once for every entry. -/
def FullEntries (p : Program) : Prop := ∀ f ∈ p.functions, f.EntersFully

variable {p : Program}

theorem FullEntries.modifyFunction (h : p.FullEntries) (f : FunctionId)
    {change : FunctionBody → FunctionBody}
    (keeps : ∀ x : FunctionBody, x.EntersFully → (change x).EntersFully) :
    (p.modifyFunction f change).FullEntries := by
  intro g hg
  obtain ⟨x, hx, rfl⟩ := List.mem_map.mp hg
  split
  · exact keeps x (h x hx)
  · exact h x hx

/-- **Entry blocks run once for every entry**, whatever was done to the program. -/
theorem Edited.fullEntries (edited : p.Edited) : p.FullEntries := by
  induction edited with
  | empty => simp [FullEntries]
  | addFunction name _ ih =>
    intro f hf
    rcases List.mem_append.mp hf with hf | hf
    · exact ih f hf
    · rw [List.mem_singleton.mp hf]
      rfl
  | @addBlock p f weight _ ih =>
    rw [Update.after, addBlock_apply]
    have hcounted : FullEntries { p with nextBlock := p.nextBlock + 1 } := ih
    by_cases hf : (p.function? f).isSome
    · simp only [hf, if_true]
      exact hcounted.modifyFunction f fun x hx => hx.append _
    · simp only [hf]
      exact hcounted
  | @push p b i _ ih =>
    rcases after_push p b i with heq | ⟨f, -, heq⟩
    · rw [heq]
      exact ih
    · rw [heq]
      exact ih.modifyFunction f fun x hx => hx.modifyBlock b fun _ => rfl
  | @setRoot p f count _ ih =>
    rw [Update.after, setRoot_apply]
    by_cases hf : (p.function? f).isSome
    · simp only [hf, if_true]
      exact ih
    · simp only [hf]
      exact ih
  | @inline p site _ ih =>
    rw [Update.after, inline_apply]
    cases p.calleeAt site with
    | error e => exact ih
    | ok body =>
      have hgraft : (p.modifyFunction site.caller (p.graft site body)).FullEntries :=
        ih.modifyFunction site.caller fun x hx => by
          have hmarked : (x.modifyBlock site.location.block (markBlock site)).EntersFully :=
            hx.modifyBlock site.location.block fun _ => rfl
          exact hmarked.append _
      simp only [splice_eq]
      exact hgraft
  | @sweep p _ ih =>
    intro f hf
    obtain ⟨g, hg, rfl⟩ := List.mem_map.mp ((functions_sweep p) ▸ hf)
    exact (ih g (List.mem_filter.mp hg).1).map fun _ => rfl

/-! ### Half words -/

/-- Every position in a block fits half a word. -/
def Fits (p : Program) : Prop :=
  ∀ f ∈ p.functions, ∀ b ∈ f.blocks, b.code.length ≤ Word.greatest32 + 1

/-- A changed function fits if the blocks that it gets do. -/
theorem Fits.modifyFunction (h : p.Fits) (f : FunctionId) {change : FunctionBody → FunctionBody}
    (keeps : ∀ x ∈ p.functions, x.id = f → ∀ b ∈ (change x).blocks,
      b.code.length ≤ Word.greatest32 + 1) : (p.modifyFunction f change).Fits := by
  intro g hg b hb
  obtain ⟨x, hx, rfl⟩ := List.mem_map.mp hg
  split at hb
  · rename_i hid
    exact keeps x hx hid b hb
  · exact h x hx b hb

/-- A block that takes one more instruction had a position left for it. -/
theorem Fits.push (h : p.Fits) (wf : p.WellFormed) (b : BlockId) (i : Instruction) :
    ((push b i).after p).Fits := by
  rcases after_push p b i with heq | ⟨f, ⟨x, target, hx, htarget, hroom⟩, heq⟩
  · rw [heq]
    exact h
  · rw [heq]
    refine h.modifyFunction f fun y hy hid c hc => ?_
    obtain rfl : y = x := Option.some.inj ((wf.function?_eq_some.mpr ⟨hy, hid⟩).symm.trans hx)
    obtain ⟨z, hz, rfl⟩ := List.mem_map.mp hc
    by_cases hb : z.id = b
    · obtain rfl : z = target :=
        Option.some.inj (((wf.block?_eq_some hy).mpr ⟨hz, hb⟩).symm.trans htarget)
      simpa [hb] using hroom
    · simpa [hb] using h y hy z hz

/-- Clones are as long as their blocks, and the marker takes the place of the call. -/
theorem Fits.splice (h : p.Fits) {site : CallSite} {body : FunctionBody}
    (hbody : body ∈ p.functions) : (p.splice site body).Fits := by
  rw [splice_eq]
  refine h.modifyFunction site.caller fun x hx _ b hb => ?_
  rcases List.mem_append.mp hb with hb | hb
  · obtain ⟨y, hy, rfl⟩ := List.mem_map.mp hb
    have hlength : (if y.id = site.location.block then markBlock site y else y).code.length =
        y.code.length := by
      split <;> simp [markBlock]
    exact hlength ▸ h x hx y hy
  · obtain ⟨n, hn⟩ := List.mem_iff_getElem?.mp hb
    rw [getElem?_clones] at hn
    obtain ⟨y, hy, rfl⟩ := Option.map_eq_some_iff.mp hn
    exact h body hbody y (List.mem_of_getElem? hy)

/-- **Positions fit half a word**, whatever was done to the program. -/
theorem Edited.fits (edited : p.Edited) : p.Fits := by
  induction edited with
  | empty => simp [Fits]
  | addFunction name _ ih =>
    intro f hf b hb
    rcases List.mem_append.mp hf with hf | hf
    · exact ih f hf b hb
    · rw [List.mem_singleton.mp hf] at hb
      rw [List.mem_singleton.mp hb]
      exact Nat.zero_le _
  | @addBlock p f weight _ ih =>
    rw [Update.after, addBlock_apply]
    have hcounted : Fits { p with nextBlock := p.nextBlock + 1 } := ih
    by_cases hf : (p.function? f).isSome
    · simp only [hf, if_true]
      refine hcounted.modifyFunction f fun x hx _ b hb => ?_
      rcases List.mem_append.mp hb with hb | hb
      · exact ih x hx b hb
      · rw [List.mem_singleton.mp hb]
        exact Nat.zero_le _
    · simp only [hf]
      exact hcounted
  | push b i edited ih => exact ih.push edited.wellFormed b i
  | @setRoot p f count _ ih =>
    rw [Update.after, setRoot_apply]
    by_cases hf : (p.function? f).isSome
    · simp only [hf, if_true]
      exact ih
    · simp only [hf]
      exact ih
  | @inline p site edited ih =>
    rw [Update.after, inline_apply]
    cases hbody : p.calleeAt site with
    | error e => exact ih
    | ok body =>
      obtain ⟨-, -, hcallee⟩ := calleeAt_eq_ok.mp hbody
      exact ih.splice (edited.wellFormed.function?_eq_some.mp hcallee).1
  | @sweep p _ ih =>
    intro f hf b hb
    obtain ⟨g, hg, rfl⟩ := List.mem_map.mp ((functions_sweep p) ▸ hf)
    obtain ⟨c, hc, rfl⟩ := List.mem_map.mp hb
    exact Nat.le_trans (List.length_filter_le _ _) (ih g (List.mem_filter.mp hg).1 c hc)

/-- **Locations fit half words as long as the counters do.** -/
theorem Edited.location_le (edited : p.Edited)
    (functions : p.nextFunction ≤ Word.greatest32 + 1) (blocks : p.nextBlock ≤ Word.greatest32 + 1)
    {l : Location} {i : Instruction} (h : p.instruction? l = some i) :
    l.function.index ≤ Word.greatest32 ∧ l.block.index ≤ Word.greatest32 ∧
      l.index ≤ Word.greatest32 := by
  have wf := edited.wellFormed
  obtain ⟨b, hb, hi⟩ := Option.bind_eq_some_iff.mp h
  obtain ⟨f, hf, hblock⟩ := Option.bind_eq_some_iff.mp hb
  obtain ⟨hmem, hid⟩ := wf.function?_eq_some.mp hf
  have hfunction := wf.function_lt f hmem
  have hposition := (List.getElem?_eq_some_iff.mp hi).1
  have hlength := edited.fits f hmem b ((wf.block?_eq_some hmem).mp hblock).1
  have hnumber := wf.block_lt_of_instruction? h
  rw [hid] at hfunction
  omega

end Program

end Inlining
