/-!
# Arithmetic of sizes and frequencies

Sizes, budgets and frequencies are mathematical numbers here. Where a result is kept in a machine
word it is cut to the range of the word or wraps around, and the bounds, the cutting and the
wrapping are defined once. Sizes and flows of a whole are the totals of those of its parts, and
totals are not cut. The share that falls to a part of a whole is an exact fraction, rounded to the
nearest natural number. A share half way between two numbers goes to the even one, so that no error
builds up in one direction over many splits.

## Main definitions

* `Word.clamp`, `Word.wrap` — results that are cut to a word, and results that wrap around
* `total` — the sum of a list
* `share` — a rounded fraction
-/

namespace Inlining

/-! ### Machine words -/

namespace Word

/-- The least signed word. -/
def least : Int := -0x8000000000000000

/-- The greatest signed word. -/
def greatest : Int := 0x7fffffffffffffff

/-- The greatest unsigned word. -/
def greatestUnsigned : Nat := 0xffffffffffffffff

/-- The greatest unsigned half word. -/
def greatest32 : Nat := 0xffffffff

/-- The signed word nearest to an integer. -/
def clamp (i : Int) : Int := max least (min greatest i)

/-- The unsigned word that is left of a natural number when its higher bits are dropped. -/
def wrap (n : Nat) : Nat := n % 0x10000000000000000

/-- Whether an integer is a signed word. -/
def isSigned (i : Int) : Bool := least ≤ i && i ≤ greatest

theorem clamp_eq_self {i : Int} (lo : least ≤ i) (hi : i ≤ greatest) : clamp i = i := by
  simp only [clamp]
  omega

theorem wrap_eq_self {n : Nat} (h : n ≤ greatestUnsigned) : wrap n = n :=
  Nat.mod_eq_of_lt (Nat.lt_succ_of_le h)

end Word

/-! ### Totals -/

/-- The sum of the given numbers. -/
def total (counts : List Nat) : Nat := counts.foldr (· + ·) 0

theorem total_cons (n : Nat) (counts : List Nat) : total (n :: counts) = n + total counts := rfl

theorem total_append (counts more : List Nat) :
    total (counts ++ more) = total counts + total more := by
  induction counts with
  | nil => exact (Nat.zero_add _).symm
  | cons n rest ih => rw [List.cons_append, total_cons, total_cons, ih, Nat.add_assoc]

theorem le_total_of_mem {n : Nat} {counts : List Nat} (h : n ∈ counts) : n ≤ total counts := by
  induction h with
  | head rest => exact Nat.le_add_right n (total rest)
  | tail m _ ih => exact Nat.le_trans ih (Nat.le_add_left _ m)

theorem total_map_eq_zero {α : Type} {l : List α} {value : α → Nat}
    (h : ∀ x ∈ l, value x = 0) : total (l.map value) = 0 := by
  induction l with
  | nil => rfl
  | cons x xs ih =>
    rw [List.map_cons, total_cons, h x List.mem_cons_self,
      ih fun y hy => h y (List.mem_cons_of_mem x hy)]

theorem total_map_const {α : Type} (n : Nat) (l : List α) :
    total (l.map fun _ => n) = n * l.length := by
  induction l with
  | nil => rfl
  | cons _ xs ih => rw [List.map_cons, total_cons, ih, List.length_cons, Nat.mul_succ, Nat.add_comm]

theorem total_map_add {α : Type} (value more : α → Nat) (l : List α) :
    total (l.map fun x => value x + more x) = total (l.map value) + total (l.map more) := by
  induction l with
  | nil => rfl
  | cons x xs ih =>
    simp only [List.map_cons, total_cons, ih]
    omega

theorem total_map_le {α : Type} {l : List α} {value bound : α → Nat}
    (h : ∀ x ∈ l, value x ≤ bound x) : total (l.map value) ≤ total (l.map bound) := by
  induction l with
  | nil => exact Nat.le_refl _
  | cons x xs ih =>
    rw [List.map_cons, List.map_cons, total_cons, total_cons]
    exact Nat.add_le_add (h x List.mem_cons_self) (ih fun y hy => h y (List.mem_cons_of_mem x hy))

/-- A total over parts, part by part. -/
theorem total_map_flatMap {α β : Type} (parts : α → List β) (value : β → Nat) (l : List α) :
    total ((l.flatMap parts).map value) = total (l.map fun x => total ((parts x).map value)) := by
  induction l with
  | nil => rfl
  | cons x xs ih =>
    rw [List.flatMap_cons, List.map_append, total_append, ih, List.map_cons, total_cons]

/-- The order does not matter for a total. -/
theorem total_perm {counts more : List Nat} (h : counts.Perm more) : total counts = total more := by
  induction h with
  | nil => rfl
  | cons n _ ih => rw [total_cons, total_cons, ih]
  | swap m n rest =>
    simp only [total_cons]
    omega
  | trans _ _ ih₁ ih₂ => exact ih₁.trans ih₂

/-- A total over part of a list. -/
theorem total_map_filter {α : Type} (keep : α → Bool) (value : α → Nat) (l : List α) :
    total ((l.filter keep).map value) = total (l.map fun x => if keep x then value x else 0) := by
  induction l with
  | nil => rfl
  | cons x xs ih =>
    rw [List.map_cons, total_cons, ← ih, List.filter_cons]
    cases keep x with
    | false => exact (Nat.zero_add _).symm
    | true => rfl

/-- A total in which one key, which occurs once, counts for more. -/
theorem total_map_add_of_key {α κ : Type} [DecidableEq κ] {key : α → κ} {l : List α}
    (distinct : (l.map key).Nodup) {k : κ} (hk : k ∈ l.map key) (value : α → Nat) (more : Nat) :
    total (l.map fun x => if key x = k then value x + more else value x) =
      total (l.map value) + more := by
  induction l with
  | nil => simp at hk
  | cons x xs ih =>
    rw [List.map_cons, List.nodup_cons] at distinct
    simp only [List.map_cons, total_cons]
    by_cases hx : key x = k
    · have hrest : (xs.map fun y => if key y = k then value y + more else value y) =
          xs.map value := by
        refine List.map_congr_left fun y hy => if_neg fun hyk => distinct.1 ?_
        exact List.mem_map.mpr ⟨y, hy, hyk.trans hx.symm⟩
      rw [hrest, if_pos hx]
      omega
    · rw [ih distinct.2 (by simpa [Ne.symm hx] using hk), if_neg hx]
      omega

/-! ### Shares -/

/-- `value * part / whole`, rounded to the nearest natural number, halves to the even one. -/
def share (value part whole : Nat) : Nat :=
  let quotient := value * part / whole
  let remainder := value * part % whole
  if 2 * remainder < whole then quotient
  else if whole < 2 * remainder then quotient + 1
  else if quotient % 2 = 1 then quotient + 1
  else quotient

end Inlining
