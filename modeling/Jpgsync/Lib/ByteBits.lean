import Mathlib.Data.Nat.Bitwise

/-!
# ByteBits — single bits of an 8-bit cell under C's integer rules

A byte is widened to a machine integer before `|` and `&`, and the result
of a compound assignment is cut back to eight bits. Shifting by eight or
more therefore sets nothing and tests nothing; the two lemmas at the end
say exactly that.
-/

namespace ByteBits

/-- `b |= (1 << k)` on an 8-bit cell. -/
def orBit (b : UInt8) (k : Nat) : UInt8 := UInt8.ofNat (b.toNat ||| 1 <<< k)

/-- `b & (1 << k)` as a truth value. -/
def hasBit (b : UInt8) (k : Nat) : Bool := b.toNat &&& 1 <<< k != 0

theorem hasBit_eq_testBit (b : UInt8) (k : Nat) : hasBit b k = b.toNat.testBit k := by
  rw [hasBit, Nat.one_shiftLeft, Nat.and_two_pow]
  cases b.toNat.testBit k <;> simp

/-- Past the eighth bit nothing is set. -/
theorem hasBit_of_le (b : UInt8) {k : Nat} (h : 8 ≤ k) : hasBit b k = false := by
  rw [hasBit_eq_testBit]
  apply Nat.testBit_lt_two_pow
  calc b.toNat < 2 ^ 8 := b.toNat_lt
    _ ≤ 2 ^ k := Nat.pow_le_pow_right (by decide) h

@[simp] theorem hasBit_zero (k : Nat) : hasBit 0 k = false := by
  simp [hasBit]

/-- Setting bit `k` sets bit `k` when it exists and no other. -/
theorem hasBit_orBit (b : UInt8) (k j : Nat) :
    hasBit (orBit b k) j = (hasBit b j || (decide (k = j) && decide (j < 8))) := by
  by_cases hj : j < 8
  · rw [hasBit_eq_testBit, hasBit_eq_testBit, orBit, UInt8.toNat_ofNat',
      Nat.testBit_mod_two_pow, Nat.testBit_or, Nat.one_shiftLeft, Nat.testBit_two_pow]
    simp [hj]
  · rw [hasBit_of_le _ (by omega), hasBit_of_le _ (by omega)]
    simp [hj]

end ByteBits
