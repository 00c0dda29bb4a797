import Chiptune.Decimal
import Chiptune.Fixed
import Chiptune.Rounding

/-!
# Text of fixed-point numbers

Numbers are written with four places. The exact value is rounded once, and a
half goes to the even digit.
-/

set_option autoImplicit false

namespace Chiptune.Fixed

/-- The number with four places. -/
def text (a : Fixed) : String :=
  Decimal.places 4 (Rounding.roundDiv (a.raw.toNat * 10000) 65536)

end Chiptune.Fixed
