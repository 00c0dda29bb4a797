import Chiptune.Decimal
import Chiptune.Rounding

/-!
# Note frequencies

Note 69 sounds at 440 Hz and each further note raises the frequency by a
twelfth of an octave. Most of these frequencies are irrational, so the library
holds a table of binary64 approximations, and all that depends on a frequency
depends on the table down to its last bit. `noteFrequency_near` bounds the error
of the table; it compares twelfth powers, which are exact.
-/

set_option autoImplicit false

namespace Chiptune

/-- The frequencies of all notes by octaves of twelve, in units of `2 ^ -49` Hz.
Every entry has at most 53 significant bits. -/
def octaves : List (List Nat) :=
    [[0x105A0250C2B956, 0x1152EC0E758E6F, 0x125AA2E3AF0B22, 0x13720820155763,
      0x149A0A791E127A, 0x15D3A6D600CABD, 0x171FE927CA0DEA, 0x187FED4E47ADFE,
      0x19F4E00A91D08F, 0x1B800000000000, 0x1D229EC465C8A0, 0x1EDE22007F791C],
     [0x20B404A18572AC, 0x22A5D81CEB1CDE, 0x24B545C75E1644, 0x26E410402AAEC6,
      0x293414F23C24F4, 0x2BA74DAC01957A, 0x2E3FD24F941BD4, 0x30FFDA9C8F5BFC,
      0x33E9C01523A11E, 0x37000000000000, 0x3A453D88CB9144, 0x3DBC4400FEF230],
     [0x416809430AE558, 0x454BB039D639C0, 0x496A8B8EBC2C80, 0x4DC82080555D8C,
      0x526829E47849EC, 0x574E9B58032AF0, 0x5C7FA49F2837A8, 0x61FFB5391EB800,
      0x67D3802A474238, 0x6E000000000000, 0x748A7B11972288, 0x7B788801FDE460],
     [0x82D0128615CAB0, 0x8A976073AC7380, 0x92D5171D785900, 0x9B904100AABB18,
      0xA4D053C8F093D8, 0xAE9D36B00655E0, 0xB8FF493E506F50, 0xC3FF6A723D7000,
      0xCFA700548E8470, 0xDC000000000000, 0xE914F6232E4510, 0xF6F11003FBC8D0],
     [0x105A0250C2B9560, 0x1152EC0E758E6F0, 0x125AA2E3AF0B210, 0x137208201557630,
      0x149A0A791E127B0, 0x15D3A6D600CABC0, 0x171FE927CA0DEA0, 0x187FED4E47ADFF0,
      0x19F4E00A91D08E0, 0x1B8000000000000, 0x1D229EC465C8A20, 0x1EDE22007F791A0],
     [0x20B404A18572AC0, 0x22A5D81CEB1CDE0, 0x24B545C75E16420, 0x26E410402AAEC60,
      0x293414F23C24F60, 0x2BA74DAC0195780, 0x2E3FD24F941BD40, 0x30FFDA9C8F5BFE0,
      0x33E9C01523A11C0, 0x370000000000000, 0x3A453D88CB91440, 0x3DBC4400FEF2340],
     [0x416809430AE5580, 0x454BB039D639BC0, 0x496A8B8EBC2C840, 0x4DC82080555D900,
      0x526829E47849EC0, 0x574E9B58032AF00, 0x5C7FA49F2837A80, 0x61FFB5391EB8000,
      0x67D3802A4742380, 0x6E0000000000000, 0x748A7B119722880, 0x7B788801FDE4680],
     [0x82D0128615CAB00, 0x8A976073AC73780, 0x92D5171D7859080, 0x9B904100AABB180,
      0xA4D053C8F093D80, 0xAE9D36B00655E00, 0xB8FF493E506F500, 0xC3FF6A723D6FF80,
      0xCFA700548E84700, 0xDC0000000000000, 0xE914F6232E45100, 0xF6F11003FBC8C00],
     [0x105A0250C2B95600, 0x1152EC0E758E7000, 0x125AA2E3AF0B2000, 0x1372082015576300,
      0x149A0A791E127B00, 0x15D3A6D600CABC00, 0x171FE927CA0DEA00, 0x187FED4E47AE0000,
      0x19F4E00A91D08E00, 0x1B80000000000000, 0x1D229EC465C8A200, 0x1EDE22007F791800],
     [0x20B404A18572AC00, 0x22A5D81CEB1CE000, 0x24B545C75E164000, 0x26E410402AAEC600,
      0x293414F23C24F600, 0x2BA74DAC01957800, 0x2E3FD24F941BD400, 0x30FFDA9C8F5C0000,
      0x33E9C01523A11C00, 0x3700000000000000, 0x3A453D88CB914000, 0x3DBC4400FEF23800],
     [0x416809430AE55800, 0x454BB039D639BC00, 0x496A8B8EBC2C8800, 0x4DC82080555D8C00,
      0x526829E47849E800, 0x574E9B58032AF400, 0x5C7FA49F2837A800, 0x61FFB5391EB7F800,
      0x67D3802A47423C00, 0x6E00000000000000, 0x748A7B1197228000, 0x7B788801FDE47000],
     [0x82D0128615CAB000, 0x8A976073AC737800, 0x92D5171D78591000, 0x9B904100AABB1800,
      0xA4D053C8F093D000, 0xAE9D36B00655E800, 0xB8FF493E506F5000, 0xC3FF6A723D6FF000,
      0xCFA700548E847800, 0xDC00000000000000, 0xE914F6232E450000, 0xF6F11003FBC8E000],
     [0x105A0250C2B956000, 0x1152EC0E758E6F000, 0x125AA2E3AF0B22000, 0x13720820155763000,
      0x149A0A791E127A000, 0x15D3A6D600CABD000, 0x171FE927CA0DEA000, 0x187FED4E47ADFE000,
      0x19F4E00A91D08F000, 0x1B800000000000000, 0x1D229EC465C8A0000, 0x1EDE22007F791C000],
     [0x20B404A18572AC000, 0x22A5D81CEB1CDE000, 0x24B545C75E1644000, 0x26E410402AAEC6000,
      0x293414F23C24F4000, 0x2BA74DAC01957A000, 0x2E3FD24F941BD4000, 0x30FFDA9C8F5BFC000,
      0x33E9C01523A11E000, 0x37000000000000000, 0x3A453D88CB914C000, 0x3DBC4400FEF22E000],
     [0x416809430AE558000, 0x454BB039D639C4000, 0x496A8B8EBC2C7C000, 0x4DC82080555D8C000,
      0x526829E47849F4000, 0x574E9B58032AE8000, 0x5C7FA49F2837A8000, 0x61FFB5391EB80C000,
      0x67D3802A47422C000, 0x6E000000000000000, 0x748A7B11972298000, 0x7B788801FDE45C000],
     [0x82D0128615CAB0000, 0x8A976073AC7388000, 0x92D5171D7858F8000, 0x9B904100AABB18000,
      0xA4D053C8F093E8000, 0xAE9D36B00655D0000, 0xB8FF493E506F50000, 0xC3FF6A723D7018000,
      0xCFA700548E8458000, 0xDC000000000000000, 0xE914F6232E4530000, 0xF6F11003FBC8B8000],
     [0x105A0250C2B9560000, 0x1152EC0E758E710000, 0x125AA2E3AF0B1F0000, 0x137208201557630000,
      0x149A0A791E127D0000, 0x15D3A6D600CABA0000, 0x171FE927CA0DEA0000, 0x187FED4E47AE030000,
      0x19F4E00A91D08B0000, 0x1B8000000000000000, 0x1D229EC465C8A60000, 0x1EDE22007F79170000],
     [0x20B404A18572AC0000, 0x22A5D81CEB1CE20000, 0x24B545C75E163E0000, 0x26E410402AAEC60000,
      0x293414F23C24FA0000, 0x2BA74DAC0195740000, 0x2E3FD24F941BD40000, 0x30FFDA9C8F5C060000,
      0x33E9C01523A1160000, 0x370000000000000000, 0x3A453D88CB914C0000, 0x3DBC4400FEF22E0000],
     [0x416809430AE5580000, 0x454BB039D639C40000, 0x496A8B8EBC2C7C0000, 0x4DC82080555D8C0000,
      0x526829E47849F40000, 0x574E9B58032AE80000, 0x5C7FA49F2837A80000, 0x61FFB5391EB80C0000,
      0x67D3802A47422C0000, 0x6E0000000000000000, 0x748A7B119722980000, 0x7B788801FDE45C0000],
     [0x82D0128615CAB00000, 0x8A976073AC73880000, 0x92D5171D7858F80000, 0x9B904100AABB180000,
      0xA4D053C8F093E80000, 0xAE9D36B00655D00000, 0xB8FF493E506F500000, 0xC3FF6A723D70180000,
      0xCFA700548E84580000, 0xDC0000000000000000, 0xE914F6232E45300000, 0xF6F11003FBC8B80000],
     [0x105A0250C2B95600000, 0x1152EC0E758E7100000, 0x125AA2E3AF0B1F00000, 0x1372082015576300000,
      0x149A0A791E127D00000, 0x15D3A6D600CABA00000, 0x171FE927CA0DEA00000, 0x187FED4E47AE0300000,
      0x19F4E00A91D08B00000, 0x1B80000000000000000, 0x1D229EC465C8A600000, 0x1EDE22007F791700000],
     [0x20B404A18572AC00000, 0x22A5D81CEB1CE200000, 0x24B545C75E163E00000, 0x26E410402AAEC600000]]

/-- The frequency of a note in units of `2 ^ -49` Hz. -/
def noteFrequency (note : UInt8) : Nat :=
  (octaves.getD (note.toNat / 12) []).getD (note.toNat % 12) 0

/-- The frequency of a note in hertz, with six places. -/
def noteFrequencyText (note : UInt8) : String :=
  Decimal.places 6 (Rounding.roundDiv (noteFrequency note * 1000000) (1 <<< 49))

/-- A frequency is that of a note up to one part in `2 ^ 50`. -/
def IsNearNote (note frequency : Nat) : Prop :=
  Nat.pow (frequency * ((1 <<< 50) - 1)) 12 <<< 69 ≤ Nat.pow (440 <<< 99) 12 <<< note ∧
    Nat.pow (440 <<< 99) 12 <<< note ≤ Nat.pow (frequency * ((1 <<< 50) + 1)) 12 <<< 69

instance (note frequency : Nat) : Decidable (IsNearNote note frequency) :=
  inferInstanceAs (Decidable (_ ∧ _))

/-- The table is equal-tempered up to one part in `2 ^ 50`. -/
theorem noteFrequency_near (note : UInt8) : IsNearNote note.toNat (noteFrequency note) := by
  have table : ∀ n : Fin 256, IsNearNote n.val (noteFrequency (UInt8.ofNat n.val)) := by
    decide +kernel
  have h := table ⟨note.toNat, note.toNat_lt⟩
  simpa using h

end Chiptune
