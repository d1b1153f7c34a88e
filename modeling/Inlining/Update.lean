import Inlining.Error

/-!
# Fallible updates

A step that may fail returns its result or an error together with the state that it leaves behind.
"A failure changes nothing" is then a statement that one can make and prove, and a failure that does
change something says what.

## Main definitions

* `Update` — a fallible step on a state
* `Update.after`, `Update.outcome`, `Update.exec` — the parts of what a step does
* `Update.within` — a step on a part of a larger state

## Main results

One equation for each way of putting steps together, which says what the composed step does to a
state. They are tagged for `simp`, and proofs open an update with them and nothing else.
-/

namespace Inlining

/-- A fallible step on a state. Success and failure both say what state they leave behind. -/
abbrev Update (σ α : Type) := EStateM Error σ α

namespace Update

variable {σ τ α β : Type}

/-- The state that a step leaves behind, whether it succeeds or fails. -/
def after (step : Update σ α) (s : σ) : σ :=
  match step s with
  | .ok _ t => t
  | .error _ t => t

/-- The result of a step or its error, without the state. -/
def outcome (step : Update σ α) (s : σ) : Except Error α :=
  match step s with
  | .ok a _ => .ok a
  | .error e _ => .error e

/-- The state after a step that succeeds, or its error. -/
def exec (step : Update σ α) (s : σ) : Except Error σ :=
  match step s with
  | .ok _ t => .ok t
  | .error e _ => .error e

/-- A step on a part of the state: `part` reads the part and `put` writes it back, also when the
step fails. -/
def within (part : σ → τ) (put : σ → τ → σ) (step : Update τ α) : Update σ α := fun s =>
  match step (part s) with
  | .ok a t => .ok a (put s t)
  | .error e t => .error e (put s t)

/-- A result or an error that leaves the state alone. -/
def ofExcept : Except Error α → Update σ α
  | .ok a => pure a
  | .error e => throw e

/-! ### What composed steps do to a state -/

@[simp] theorem pure_apply (a : α) (s : σ) : (pure a : Update σ α) s = .ok a s := rfl

@[simp] theorem throw_apply (e : Error) (s : σ) : (throw e : Update σ α) s = .error e s := rfl

@[simp] theorem bind_apply (x : Update σ α) (f : α → Update σ β) (s : σ) :
    (x >>= f) s = match x s with
      | .ok a t => f a t
      | .error e t => .error e t := by
  change EStateM.bind x f s = _
  rw [EStateM.bind]
  cases x s <;> rfl

@[simp] theorem map_apply (f : α → β) (x : Update σ α) (s : σ) :
    (f <$> x) s = match x s with
      | .ok a t => .ok (f a) t
      | .error e t => .error e t := by
  change EStateM.map f x s = _
  rw [EStateM.map]
  cases x s <;> rfl

@[simp] theorem discard_apply (x : Update σ α) (s : σ) :
    discard x s = match x s with
      | .ok _ t => .ok ⟨⟩ t
      | .error e t => .error e t :=
  map_apply _ x s

@[simp] theorem get_apply (s : σ) : (get : Update σ σ) s = .ok s s := rfl

@[simp] theorem set_apply (t s : σ) : (set t : Update σ PUnit) s = .ok ⟨⟩ t := rfl

@[simp] theorem modify_apply (f : σ → σ) (s : σ) :
    (modify f : Update σ PUnit) s = .ok ⟨⟩ (f s) := rfl

@[simp] theorem modifyGet_apply (f : σ → α × σ) (s : σ) :
    (modifyGet f : Update σ α) s = .ok (f s).1 (f s).2 := rfl

@[simp] theorem ofExcept_ok (a : α) (s : σ) : (ofExcept (.ok a) : Update σ α) s = .ok a s := rfl

@[simp] theorem ofExcept_error (e : Error) (s : σ) :
    (ofExcept (.error e) : Update σ α) s = .error e s := rfl

@[simp] theorem ite_apply (c : Prop) [Decidable c] (x y : Update σ α) (s : σ) :
    (if c then x else y) s = if c then x s else y s := by
  split <;> rfl

@[simp] theorem within_apply (part : σ → τ) (put : σ → τ → σ) (x : Update τ α) (s : σ) :
    x.within part put s = match x (part s) with
      | .ok a t => .ok a (put s t)
      | .error e t => .error e (put s t) := rfl

end Update

end Inlining
