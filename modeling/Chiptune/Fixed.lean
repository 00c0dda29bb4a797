import Chiptune.Checked

/-!
# Fixed-point numbers

An unsigned 16.16 number: a 32-bit word whose value is `raw / 65536`. Phases,
periods and amplitude factors are such numbers. Sums, differences and integer
multiples stop with a fault when they leave the word; products of two numbers
go through an exact intermediate and keep the low 32 bits of the result.
-/

set_option autoImplicit false

namespace Chiptune

/-- An unsigned fixed-point number with sixteen fraction bits. -/
structure Fixed where
  raw : UInt32
  deriving DecidableEq, Repr, Inhabited

namespace Fixed

def zero : Fixed := ⟨0⟩

def one : Fixed := ⟨65536⟩

def half : Fixed := ⟨32768⟩

/-- The largest number, one raw unit below 65536. -/
def largest : Fixed := ⟨4294967295⟩

instance : LE Fixed := ⟨fun a b => a.raw ≤ b.raw⟩

instance : LT Fixed := ⟨fun a b => a.raw < b.raw⟩

instance (a b : Fixed) : Decidable (a ≤ b) := inferInstanceAs (Decidable (a.raw ≤ b.raw))

instance (a b : Fixed) : Decidable (a < b) := inferInstanceAs (Decidable (a.raw < b.raw))

instance : Ord Fixed := ⟨fun a b => Ord.compare a.raw b.raw⟩

/-- The number with integer part `v` and no fraction. -/
def ofInteger (v : UInt16) : Fixed := ⟨v.toUInt32 <<< 16⟩

/-- The fraction bits. -/
def fract (a : Fixed) : Fixed := ⟨a.raw &&& 0xFFFF⟩

/-- The integer bits. -/
def floor (a : Fixed) : Fixed := ⟨a.raw &&& 0xFFFF0000⟩

/-- The next integer value above the integer bits. From the top integer it
wraps to zero. -/
def stepUp (a : Fixed) : Fixed := ⟨a.floor.raw + one.raw⟩

/-- The least integer value not below `a`; the top integer step wraps. -/
def ceil (a : Fixed) : Fixed := if a.fract = zero then a else a.stepUp

/-- The nearest integer value, halves going up; the top integer step wraps. -/
def round (a : Fixed) : Fixed := if a.fract < half then a.floor else a.stepUp

/-- The integer part. -/
def trunc (a : Fixed) : UInt16 := (a.raw >>> 16).toUInt16

/-- The nearest integer. -/
def toInteger (a : Fixed) : UInt16 := a.round.trunc

/-- The product, with the low fraction bits dropped. -/
def mul (a b : Fixed) : Fixed :=
  ⟨((a.raw.toUInt64 * b.raw.toUInt64) >>> 16).toUInt32⟩

/-- The quotient, with the low fraction bits dropped; none for a zero divisor. -/
def div? (a b : Fixed) : Option Fixed :=
  if b = zero then none else some ⟨((a.raw.toUInt64 <<< 16) / b.raw.toUInt64).toUInt32⟩

/-- The difference, or zero where it would be negative. -/
def monus (a b : Fixed) : Fixed := if b ≤ a then ⟨a.raw - b.raw⟩ else zero

def add (a b : Fixed) : Except Fault Fixed := return ⟨← Checked.add32 a.raw b.raw⟩

def sub (a b : Fixed) : Except Fault Fixed := return ⟨← Checked.sub32 a.raw b.raw⟩

/-- The remainder of the raw words. -/
def rem (a b : Fixed) : Except Fault Fixed := return ⟨← Checked.rem32 a.raw b.raw⟩

/-- The integer multiple `n * a`. -/
def times (a : Fixed) (n : UInt32) : Except Fault Fixed := return ⟨← Checked.mul32 a.raw n⟩

/-- The raw word divided by an integer. -/
def divBy (a : Fixed) (n : UInt32) : Except Fault Fixed := return ⟨← Checked.div32 a.raw n⟩

theorem le_iff {a b : Fixed} : a ≤ b ↔ a.raw.toNat ≤ b.raw.toNat := UInt32.le_iff_toNat_le

theorem lt_iff {a b : Fixed} : a < b ↔ a.raw.toNat < b.raw.toNat := UInt32.lt_iff_toNat_lt

theorem ext_toNat {a b : Fixed} (h : a.raw.toNat = b.raw.toNat) : a = b := by
  cases a; cases b; exact congrArg Fixed.mk (UInt32.toNat_inj.mp h)

end Fixed

end Chiptune
