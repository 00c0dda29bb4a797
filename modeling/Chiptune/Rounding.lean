/-!
# Rounding to nearest

Quotients of natural numbers rounded to the nearest integer, an exact half going
to the even neighbour, and the same rounding to 53 significant bits, which is the
precision of binary64 numbers.
-/

set_option autoImplicit false

namespace Chiptune.Rounding

/-- The quotient rounded to the nearest integer, a half going to the even one. -/
def roundDiv (num den : Nat) : Nat :=
  let q := num / den
  let r := num % den
  if 2 * r > den ∨ (2 * r = den ∧ q % 2 = 1) then q + 1 else q

/-- The natural number nearest to `n` with 53 significant bits. -/
def significant (n : Nat) : Nat :=
  let spare := n.log2 - 52
  roundDiv n (1 <<< spare) <<< spare

/-- The integer part of a quotient that was rounded to 53 significant bits. A
quotient just below an integer may be rounded up to it. The quotient is to be
zero, or at least one and below `2 ^ 53`. -/
def floorOfRounded (num den : Nat) : Nat :=
  let spare := 52 - (num / den).log2
  roundDiv (num <<< spare) den >>> spare

/-- The rounded quotient lies within half a unit of the exact one. -/
theorem roundDiv_near (num den : Nat) (hden : 0 < den) :
    2 * num ≤ 2 * (den * roundDiv num den) + den ∧
      2 * (den * roundDiv num den) ≤ 2 * num + den := by
  have hsplit := Nat.div_add_mod num den
  have hlt := Nat.mod_lt num hden
  unfold roundDiv
  simp only
  split
  · rename_i h
    rw [Nat.mul_add, Nat.mul_one]
    omega
  · rename_i h
    omega

end Chiptune.Rounding
