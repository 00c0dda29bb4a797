/-!
# Bit sources

The noise voice draws its bits from a source: a state with a function that
gives a bit and the next state. `Lfsr` is a 16-bit shift register, `BitCycle`
a word that is repeated for ever.
-/

set_option autoImplicit false

namespace Chiptune

/-- A state that gives a bit and the next state. -/
class BitSource (ρ : Type) where
  draw : ρ → Bool × ρ

/-- A 16-bit shift register in Galois form. -/
structure Lfsr where
  state : UInt16
  deriving DecidableEq, Repr

namespace Lfsr

/-- The state that is used unless another is named. -/
def defaultSeed : UInt16 := 0xACE1

/-- Feedback from the bits 16, 14, 13 and 11. -/
def taps : UInt16 := 0xB400

/-- A register with a seed. The register never leaves zero, so the default seed
stands in for it. -/
def seeded (seed : UInt16) : Lfsr := ⟨if seed = 0 then defaultSeed else seed⟩

/-- Gives the lowest bit and shifts. -/
def draw (r : Lfsr) : Bool × Lfsr :=
  if r.state &&& 1 = 1 then (true, ⟨(r.state >>> 1) ^^^ taps⟩) else (false, ⟨r.state >>> 1⟩)

instance : BitSource Lfsr := ⟨draw⟩

end Lfsr

/-- A word of bits that is repeated for ever, and the place of the next bit. -/
structure BitCycle where
  bits : Array Bool
  place : Nat
  deriving DecidableEq, Repr

namespace BitCycle

/-- The word from its first bit. -/
def ofBits (bits : List Bool) : BitCycle := ⟨bits.toArray, 0⟩

def draw (c : BitCycle) : Bool × BitCycle :=
  (c.bits.getD c.place false,
    { c with place := if c.place + 1 < c.bits.size then c.place + 1 else 0 })

instance : BitSource BitCycle := ⟨draw⟩

end BitCycle

/-- The next `n` bits of a source, in order, and the state after them. -/
def BitSource.take {ρ : Type} [BitSource ρ] : Nat → ρ → List Bool × ρ
  | 0, r => ([], r)
  | n + 1, r =>
      let (bit, r) := draw r
      let (bits, r) := take n r
      (bit :: bits, r)

/-- How many of the next `n` bits are set, and the state after them. -/
def BitSource.countOnes {ρ : Type} [BitSource ρ] : Nat → Nat → ρ → Nat × ρ
  | 0, ones, r => (ones, r)
  | n + 1, ones, r =>
      let (bit, r) := draw r
      countOnes n (if bit then ones + 1 else ones) r

end Chiptune
