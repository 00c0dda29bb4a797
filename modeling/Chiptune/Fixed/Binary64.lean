import Chiptune.Fixed

/-!
# Fixed-point numbers and binary64 words

Conversion between fixed-point numbers and the bit patterns of binary64
floating-point numbers, in exact integer arithmetic. Every fixed-point number
has an exact binary64 form; in the other direction low bits are dropped and
values outside the range go to its nearer end.
-/

set_option autoImplicit false

namespace Chiptune.Fixed

/-- The number of a binary64 word. Negative values and NaN give zero, values
beyond the range the largest number; other values lose the bits below the
sixteenth fraction bit. -/
def ofBinary64 (bits : UInt64) : Fixed :=
  let word := bits.toNat
  let negative := word >>> 63 = 1
  let exponent := (word >>> 52) % 2048
  let fraction := word % (1 <<< 52)
  if exponent = 2047 then
    if fraction = 0 ∧ ¬ negative then largest else zero
  else if negative then zero
  else
    let significand := if exponent = 0 then fraction else fraction + (1 <<< 52)
    let scale := max exponent 1
    let units :=
      if 1059 ≤ scale then significand <<< (scale - 1059)
      else significand >>> (1059 - scale)
    if units < UInt32.size then ⟨units.toUInt32⟩ else largest

/-- The binary64 word with the same value. -/
def toBinary64 (a : Fixed) : UInt64 :=
  let units := a.raw.toNat
  if units = 0 then 0
  else
    let k := units.log2
    (((k + 1007) <<< 52) + ((units - (1 <<< k)) <<< (52 - k))).toUInt64

end Chiptune.Fixed
