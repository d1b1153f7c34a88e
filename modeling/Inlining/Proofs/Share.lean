import Inlining.Arithmetic
import Mathlib.Tactic.SplitIfs

/-!
# Shares are rounded to the nearest number

A share is the natural number nearest to a quotient, and of two at the same distance the even one.
That says what a share is without saying how it is found, `Nearest`, and it leaves no choice: if
the quotients are in order, so are the numbers nearest to them, and then one quotient has one such
number. Two neighbours are as far from the same quotient only if it lies half way between them, and
one of the two is odd.

Distances are measured in units of the divisor, so that no fractions occur.

## Main definitions

* `Nearest` — the number nearest to a quotient, the even one of two

## Main results

* `Nearest.le_of_le` — the numbers nearest to quotients stand in their order
* `nearest_share` — a share is the number nearest to the quotient
* `share_half_even` — what a share is and how it grows
* `share_add_share` — complementary shares add up, up to a double tie
-/

namespace Inlining

/-- `r` is a natural number nearest to `a / b`. It is even if the quotient lies half way to the next
one. -/
structure Nearest (a b r : Nat) : Prop where
  near : 2 * ((r * b : Nat) - a : Int).natAbs ≤ b
  even : 2 * ((r * b : Nat) - a : Int).natAbs = b → r % 2 = 0

namespace Nearest

variable {a a' b r r' : Nat}

/-- The numbers nearest to quotients stand in their order. -/
theorem le_of_le (hb : 0 < b) (h : Nearest a b r) (h' : Nearest a' b r') (hle : a ≤ a') :
    r ≤ r' := by
  refine Nat.le_of_not_lt fun hlt => ?_
  have hnear := h.near
  have hnear' := h'.near
  -- The two are a whole divisor apart, so each is half of it away from the same quotient.
  have hapart : r' * b + b ≤ r * b := by
    rw [← Nat.succ_mul]
    exact Nat.mul_le_mul_right b hlt
  have hnext : r = r' + 1 := Nat.eq_of_mul_eq_mul_right hb (by rw [Nat.succ_mul]; omega)
  have heven := h.even (by omega)
  have heven' := h'.even (by omega)
  omega

theorem eq (hb : 0 < b) (h : Nearest a b r) (h' : Nearest a b r') : r = r' :=
  Nat.le_antisymm (h.le_of_le hb h' (Nat.le_refl a)) (h'.le_of_le hb h (Nat.le_refl a))

/-- A quotient that is a number is nearest to itself. -/
theorem of_mul (hb : 0 < b) (r : Nat) : Nearest (r * b) b r := by
  constructor <;> omega

end Nearest

/-- A share is rounded up past the half, and at the half from an odd number. -/
theorem share_eq (value part whole : Nat) : share value part whole = value * part / whole +
    if whole < 2 * (value * part % whole) ∨
      2 * (value * part % whole) = whole ∧ value * part / whole % 2 = 1 then 1 else 0 := by
  rw [share]
  split_ifs <;> omega

/-- A share is the fraction rounded down, or one more. -/
theorem share_bounds (value part whole : Nat) :
    value * part / whole ≤ share value part whole ∧
      share value part whole ≤ value * part / whole + 1 := by
  rw [share_eq]
  split_ifs <;> omega

/-- A share is the number nearest to the quotient. -/
theorem nearest_share (value part : Nat) {whole : Nat} (hwhole : 0 < whole) :
    Nearest (value * part) whole (share value part whole) := by
  have hdiv := Nat.div_add_mod (value * part) whole
  have hlt := Nat.mod_lt (value * part) hwhole
  rw [share_eq]
  generalize value * part / whole = q at *
  generalize value * part % whole = r at *
  rw [Nat.mul_comm whole] at hdiv
  split_ifs with hup
  · have hnext : (q + 1) * whole = q * whole + whole := Nat.succ_mul q whole
    constructor <;> omega
  · constructor <;> rw [Nat.add_zero] <;> omega

/-- A share of a proper part is at most the value. -/
theorem share_le (value : Nat) {part whole : Nat} (hpart : part ≤ whole) (hwhole : 0 < whole) :
    share value part whole ≤ value :=
  (nearest_share value part hwhole).le_of_le hwhole (.of_mul hwhole value)
    (Nat.mul_le_mul_left value hpart)

/-- **Shares are rounded to the nearest number, halves to the even one.** A share is the one natural
number that is nearest to the quotient in this sense. It grows with the value and with the part, and
the share of a part that is not more than the whole is not more than the value. -/
theorem share_half_even (value part : Nat) {whole : Nat} (hwhole : 0 < whole) :
    (∀ r, Nearest (value * part) whole r ↔ r = share value part whole) ∧
    (∀ more, value ≤ more → share value part whole ≤ share more part whole) ∧
    (∀ more, part ≤ more → share value part whole ≤ share value more whole) ∧
    (part ≤ whole → share value part whole ≤ value) := by
  have hshare := nearest_share value part hwhole
  refine ⟨fun r => ⟨fun hr => hr.eq hwhole hshare, ?_⟩, fun more hmore => ?_, fun more hmore => ?_,
    fun hpart => share_le value hpart hwhole⟩
  · rintro rfl
    exact hshare
  · exact hshare.le_of_le hwhole (nearest_share more part hwhole) (Nat.mul_le_mul_right part hmore)
  · exact hshare.le_of_le hwhole (nearest_share value more hwhole) (Nat.mul_le_mul_left value hmore)

/-- Twenty-five tenths go down to two and thirty-five tenths up to four. Of the two numbers next to
twenty-five tenths, three is no less near but odd. -/
theorem share_half_even_tenths : 0 < 10 ∧ share 5 5 10 = 2 ∧ share 7 5 10 = 4 ∧
    Nearest 25 10 2 ∧ ¬ Nearest 25 10 3 ∧ share 5 5 10 ≤ share 7 5 10 ∧ share 5 5 10 ≤ 5 := by
  obtain ⟨hnearest, hvalue, -, hle⟩ := share_half_even 5 5 (show 0 < 10 by decide)
  exact ⟨by decide, by decide, by decide, (hnearest 2).mpr (by decide),
    mt (hnearest 3).mp (by decide), hvalue 7 (by decide), hle (by decide)⟩

/-! ### Complementary shares -/

/-- The quotients of complementary parts add up to the value, with one for the remainders. -/
theorem div_add_div_of_complement (value : Nat) {part whole : Nat} (hpart : part ≤ whole)
    (hwhole : 0 < whole) :
    (value * part % whole = 0 ∧ value * (whole - part) % whole = 0 ∧
      value * part / whole + value * (whole - part) / whole = value) ∨
    (value * part % whole + value * (whole - part) % whole = whole ∧
      value * part / whole + value * (whole - part) / whole + 1 = value) := by
  have hsum : value * part + value * (whole - part) = whole * value := by
    rw [← Nat.mul_add, Nat.add_sub_cancel' hpart, Nat.mul_comm]
  have hdiv := Nat.div_add_mod (value * part) whole
  have hdiv' := Nat.div_add_mod (value * (whole - part)) whole
  have hlt := Nat.mod_lt (value * part) hwhole
  have hlt' := Nat.mod_lt (value * (whole - part)) hwhole
  generalize value * part / whole = q at *
  generalize value * (whole - part) / whole = q' at *
  generalize value * part % whole = r at *
  generalize value * (whole - part) % whole = r' at *
  -- The remainders add up to less than twice the whole, and to a multiple of it.
  have hle : q + q' ≤ value := by
    refine Nat.le_of_mul_le_mul_left ?_ hwhole
    rw [Nat.mul_add]
    omega
  obtain ⟨d, rfl⟩ := Nat.exists_eq_add_of_le hle
  have hrest : r + r' = whole * d := by
    rw [Nat.mul_add, Nat.mul_add] at hsum
    omega
  match d with
  | 0 => exact .inl ⟨by omega, by omega, rfl⟩
  | 1 => exact .inr ⟨by omega, rfl⟩
  | d + 2 =>
    rw [Nat.mul_add] at hrest
    omega

/-- **Complementary shares add up.** They miss the whole by one if it is odd and both are half way
between two numbers. -/
theorem share_add_share (value : Nat) {part whole : Nat} (hpart : part ≤ whole)
    (hwhole : 0 < whole) :
    if value % 2 = 1 ∧ 2 * (value * part % whole) = whole then
      share value part whole + share value (whole - part) whole = value + 1 ∨
        share value part whole + share value (whole - part) whole + 1 = value
    else share value part whole + share value (whole - part) whole = value := by
  have hparts := div_add_div_of_complement value hpart hwhole
  rw [share_eq, share_eq]
  generalize value * part / whole = q at *
  generalize value * (whole - part) / whole = q' at *
  generalize value * part % whole = r at *
  generalize value * (whole - part) % whole = r' at *
  split_ifs <;> omega

end Inlining
