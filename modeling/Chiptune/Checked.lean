import Chiptune.Fault

/-!
# Checked arithmetic

Addition, subtraction and multiplication of machine words that stop with a
fault instead of wrapping. Each operation compares the exact result, taken in
`Nat` or `Int`, with the range of the word; where the result fits, it is the
word operation itself.
-/

set_option autoImplicit false

namespace Chiptune.Checked

/-- The 8-bit difference, if the second operand is not the larger one. -/
def sub8 (a b : UInt8) : Except Fault UInt8 :=
  if b ≤ a then .ok (a - b) else .error .subOverflow

/-- The 16-bit product, if it fits. -/
def mul16 (a b : UInt16) : Except Fault UInt16 :=
  if a.toNat * b.toNat < UInt16.size then .ok (a * b) else .error .mulOverflow

/-- The signed 16-bit product, if it fits. -/
def mulInt16 (a b : Int16) : Except Fault Int16 :=
  let exact := a.toInt * b.toInt
  if -32768 ≤ exact ∧ exact ≤ 32767 then .ok (a * b) else .error .mulOverflow

/-- The 32-bit sum, if it fits. -/
def add32 (a b : UInt32) : Except Fault UInt32 :=
  if a.toNat + b.toNat < UInt32.size then .ok (a + b) else .error .addOverflow

/-- The 32-bit difference, if the second operand is not the larger one. -/
def sub32 (a b : UInt32) : Except Fault UInt32 :=
  if b ≤ a then .ok (a - b) else .error .subOverflow

/-- The 32-bit product, if it fits. -/
def mul32 (a b : UInt32) : Except Fault UInt32 :=
  if a.toNat * b.toNat < UInt32.size then .ok (a * b) else .error .mulOverflow

/-- The 32-bit quotient of a nonzero divisor. -/
def div32 (a b : UInt32) : Except Fault UInt32 :=
  if b = 0 then .error .divideByZero else .ok (a / b)

/-- The 32-bit remainder of a nonzero divisor. -/
def rem32 (a b : UInt32) : Except Fault UInt32 :=
  if b = 0 then .error .remainderByZero else .ok (a % b)

/-- The 64-bit sum, if it fits. -/
def add64 (a b : UInt64) : Except Fault UInt64 :=
  if a.toNat + b.toNat < UInt64.size then .ok (a + b) else .error .addOverflow

theorem add32_eq_ok {a b : UInt32} (h : a.toNat + b.toNat < UInt32.size) :
    add32 a b = .ok (a + b) := by
  simp [add32, h]

theorem sub32_eq_ok {a b : UInt32} (h : b ≤ a) : sub32 a b = .ok (a - b) := by
  simp [sub32, h]

theorem mul32_eq_ok {a b : UInt32} (h : a.toNat * b.toNat < UInt32.size) :
    mul32 a b = .ok (a * b) := by
  simp [mul32, h]

end Chiptune.Checked
