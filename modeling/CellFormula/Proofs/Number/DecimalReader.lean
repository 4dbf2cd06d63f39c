import CellFormula.Number.Decimal
import CellFormula.Proofs.Number.Nearest
/-! Reading a decimal yields the correctly rounded number for every coefficient and exponent.
Decimals that are not worth their power of ten are behind infinity, or at most half of the least
positive number. -/
namespace CellFormula.Decimal
open Number

def value (d : Decimal) : ℚ := d.coefficient * 10 ^ d.exponent

theorem ten_ne_zero : (10 : ℚ) ≠ 0 := by norm_num

private theorem cast_pow_ten (places : Nat) : ((Nat.pow 10 places : Nat) : ℚ) = 10 ^ places :=
  Nat.cast_pow 10 places

theorem value_eq_div (d : Decimal) :
    d.value = ((d.coefficient * Nat.pow 10 d.exponent.toNat : Nat) : ℚ) /
      (Nat.pow 10 (-d.exponent).toNat : Nat) := by
  have split : d.exponent = d.exponent.toNat - (-d.exponent).toNat := by omega
  have power : (10 : ℚ) ^ d.exponent = 10 ^ d.exponent.toNat / 10 ^ (-d.exponent).toNat := by
    conv_lhs => rw [split]
    rw [zpow_sub₀ ten_ne_zero, zpow_natCast, zpow_natCast]
  rw [value, power, Nat.cast_mul, cast_pow_ten, cast_pow_ten, mul_div_assoc]

private theorem mul_two_pow_le_pow_ten {coefficient places unit : Nat}
    (h : coefficient.log2 + 1 + unit ≤ 3 * places) :
    coefficient * 2 ^ unit ≤ Nat.pow 10 places := by
  calc coefficient * 2 ^ unit
    _ ≤ 2 ^ (coefficient.log2 + 1) * 2 ^ unit := Nat.mul_le_mul_right _ Nat.lt_log2_self.le
    _ = 2 ^ (coefficient.log2 + 1 + unit) := (Nat.pow_add ..).symm
    _ ≤ 2 ^ (3 * places) := Nat.pow_le_pow_right (by decide) h
    _ = 8 ^ places := Nat.pow_mul 2 3 places
    _ ≤ Nat.pow 10 places := Nat.pow_le_pow_left (by decide) places

private theorem sizeOfBits_infinityBits_le : sizeOfBits infinityBits ≤ 10 ^ (310 : ℤ) := by
  have power : 2 ^ 53 * 2 ^ 971 ≤ 10 ^ 310 := by decide +kernel
  rw [IsNearest.sizeOfBits_last.2]
  exact_mod_cast power

private theorem isNearest_of_large {d : Decimal} (nonzero : d.coefficient ≠ 0)
    (large : 310 ≤ d.exponent) :
    IsNearest d.value infinityBits := by
  refine .infinity (sizeOfBits_infinityBits_le.trans ?_)
  have one : (1 : ℚ) ≤ d.coefficient := Nat.one_le_cast.2 (Nat.pos_of_ne_zero nonzero)
  calc (10 : ℚ) ^ (310 : ℤ)
    _ ≤ 10 ^ d.exponent := zpow_le_zpow_right₀ (by norm_num) large
    _ ≤ d.value := le_mul_of_one_le_left (by positivity) one

private theorem isNearest_of_small {d : Decimal}
    (small : 3 * d.exponent + d.coefficient.log2 + 1 ≤ -1075) : IsNearest d.value 0 := by
  obtain ⟨places, exponent⟩ : ∃ places : Nat, d.exponent = -places :=
    ⟨(-d.exponent).toNat, by omega⟩
  refine .zero ?_ ?_
  · unfold value
    positivity
  · have scale : (0 : ℚ) < 10 ^ places := by positivity
    rw [value, exponent, zpow_neg, zpow_natCast, mul_right_comm, ← div_eq_mul_inv,
      div_le_one scale, ← cast_pow_ten]
    have units : d.coefficient * 2 ^ 1075 ≤ Nat.pow 10 places :=
      mul_two_pow_le_pow_ten (by omega)
    exact_mod_cast units

theorem isNearest_nearestBits (d : Decimal) : IsNearest d.value d.nearestBits := by
  unfold Decimal.nearestBits
  split
  · rename_i zero
    have none : d.value = 0 := by rw [value, zero, Nat.cast_zero, zero_mul]
    rw [none]
    exact .zero le_rfl (by rw [zero_mul]; exact zero_le_one)
  · rename_i nonzero
    split
    · rename_i large
      exact isNearest_of_large nonzero large
    · split
      · rename_i small
        exact isNearest_of_small small
      · rw [value_eq_div]
        exact Number.isNearest_nearestBits _ (Nat.pow_pos (by decide))

end CellFormula.Decimal
