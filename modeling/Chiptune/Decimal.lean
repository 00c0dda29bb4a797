/-!
# Decimal text with a fixed number of places

`places` writes a count of `10 ^ -k` units as a decimal number with `k` places.
-/

set_option autoImplicit false

namespace Chiptune.Decimal

/-- The digits of `n` with zeros in front up to the width `k`. -/
def padded (k n : Nat) : String :=
  let digits := Nat.repr n
  "".pushn '0' (k - digits.length) ++ digits

/-- A count of units of `10 ^ -k`, written with `k` places. -/
def places (k units : Nat) : String :=
  let one := Nat.pow 10 k
  Nat.repr (units / one) ++ "." ++ padded k (units % one)

end Chiptune.Decimal
