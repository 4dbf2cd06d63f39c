import CellFormula.Number.Decimal
import Mathlib.Algebra.Group.Nat.Defs
/-! The shortest decimal of a finite magnitude reads back as that magnitude: the search only stops
at decimals that do, and its last resort is the exact value. -/
namespace CellFormula

namespace Number

@[simp] theorem roundHalfEven_mul (quotient : Nat) {den : Nat} (positive : 0 < den) :
    roundHalfEven (den * quotient) den = quotient := by
  unfold roundHalfEven
  rw [Nat.mul_div_cancel_left _ positive, Nat.mul_mod_right]
  have less : compare (2 * 0) den = .lt := by
    rw [Nat.compare_eq_lt]
    exact positive
  rw [less]

private theorem log2_significand {significand : Nat} (places : Nat) (h : 2 ^ 52 ≤ significand)
    (h' : significand < 2 ^ 53) : (significand * 2 ^ places).log2 = 52 + places := by
  have positive : 0 < 2 ^ places := Nat.two_pow_pos places
  have nonzero : significand * 2 ^ places ≠ 0 :=
    Nat.mul_ne_zero (by omega) (Nat.ne_of_gt positive)
  rw [Nat.log2_eq_iff nonzero, Nat.add_right_comm, Nat.pow_add, Nat.pow_add]
  exact ⟨Nat.mul_le_mul_right _ h, (Nat.mul_lt_mul_right positive).2 h'⟩

theorem exists_significand (bits : Nat) :
    ∃ significand places, unitsOfBits bits = significand * 2 ^ places ∧
      (significand * 2 ^ places).log2 - 52 = places ∧ (places <<< 52) + significand = bits := by
  have split := Nat.div_add_mod bits (2 ^ 52)
  have fraction_lt : bits % 2 ^ 52 < 2 ^ 52 := Nat.mod_lt _ (by decide)
  unfold unitsOfBits
  simp only [Nat.shiftRight_eq_div_pow, Nat.shiftLeft_eq, Nat.one_mul]
  split
  · rename_i subnormal
    rw [subnormal] at split
    refine ⟨bits % 2 ^ 52, 0, (Nat.mul_one _).symm, ?_, by omega⟩
    rw [Nat.pow_zero, Nat.mul_one]
    by_cases zero : bits % 2 ^ 52 = 0
    · rw [zero]
      decide
    · have short := (Nat.log2_lt zero).2 fraction_lt
      omega
  · rename_i normal
    refine ⟨2 ^ 52 + bits % 2 ^ 52, bits / 2 ^ 52 - 1, rfl, ?_, by omega⟩
    rw [log2_significand _ (by omega) (by omega), Nat.add_sub_cancel_left]

private theorem shiftLeft_eq_mul (num places : Nat) : num <<< places = num * 1 <<< places := by
  rw [Nat.one_shiftLeft, Nat.shiftLeft_eq]

private theorem one_shiftLeft_pos (places : Nat) : 0 < 1 <<< places := by
  rw [Nat.one_shiftLeft]
  exact Nat.two_pow_pos places

@[simp] theorem nearestBits_unitsOfBits {bits : Nat} (finite : bits ≤ infinityBits) :
    nearestBits (unitsOfBits bits) (1 <<< 1074) = bits := by
  obtain ⟨significand, places, units, log2, same⟩ := exists_significand bits
  have positive := one_shiftLeft_pos 1074
  unfold nearestBits
  dsimp only
  rw [shiftLeft_eq_mul _ 1074]
  generalize 1 <<< 1074 = unit at positive ⊢
  rw [Nat.mul_div_cancel _ positive, units, log2]
  have value : significand * 2 ^ places * unit = unit <<< places * significand := by
    rw [Nat.shiftLeft_eq]
    ac_rfl
  have scale : 0 < unit <<< places := by
    rw [Nat.shiftLeft_eq]
    exact Nat.mul_pos positive (Nat.two_pow_pos places)
  rw [value, roundHalfEven_mul significand scale, same]
  exact Nat.min_eq_left finite

theorem unitsOfBits_ne_zero {bits : Nat} (nonzero : bits ≠ 0) : unitsOfBits bits ≠ 0 := by
  obtain ⟨significand, places, units, log2, same⟩ := exists_significand bits
  rw [units]
  intro zero
  rw [zero] at log2
  have none : significand = 0 :=
    (Nat.mul_eq_zero.1 zero).resolve_right (Nat.ne_of_gt (Nat.two_pow_pos places))
  rw [none, ← log2] at same
  exact nonzero same.symm

end Number

namespace Decimal
open Number

private theorem pow_five_pos (places : Nat) : 0 < Nat.pow 5 places := Nat.pow_pos (by decide)

private theorem nearestBits_decimal (units places : Nat) :
    Number.nearestBits (units * Nat.pow 5 places) (Nat.pow 10 places) =
      Number.nearestBits units (1 <<< places) := by
  have ten : Nat.pow 10 places = Nat.pow 5 places * 1 <<< places := by
    rw [Nat.one_shiftLeft]
    exact Nat.mul_pow 5 2 places
  rw [ten, Nat.mul_comm units, nearestBits_mul_left _ _ _ (pow_five_pos places)]

private theorem le_log2_expansion {units : Nat} (nonzero : units ≠ 0) (places : Nat) :
    2 * places ≤ (units * Nat.pow 5 places).log2 := by
  have power := pow_five_pos places
  rw [Nat.le_log2 (Nat.mul_ne_zero nonzero (Nat.ne_of_gt power)), Nat.pow_mul]
  calc (2 ^ 2) ^ places ≤ Nat.pow 5 places := Nat.pow_le_pow_left (by decide) places
    _ ≤ units * Nat.pow 5 places := Nat.le_mul_of_pos_left _ (Nat.pos_of_ne_zero nonzero)

/-- The expansion of a value is long enough to be no decimal that is nearest to zero. -/
theorem nearestBits_expansion {units places : Nat} {exponent : Int} (nonzero : units ≠ 0)
    (few : places ≤ 1074) (h : exponent = -(places : Int)) :
    (⟨units * Nat.pow 5 places, exponent⟩ : Decimal).nearestBits =
      Number.nearestBits units (1 <<< places) := by
  have long := le_log2_expansion nonzero places
  have coefficient := Nat.mul_ne_zero nonzero (Nat.ne_of_gt (pow_five_pos places))
  have whole : exponent.toNat = 0 := by omega
  have fraction : (-exponent).toNat = places := by omega
  unfold Decimal.nearestBits
  dsimp only
  rw [if_neg coefficient, if_neg (by omega), if_neg (by omega), whole, fraction,
    ← nearestBits_decimal]
  exact congrArg (Number.nearestBits · _) (Nat.mul_one _)

theorem nearestBits_shortestFrom {bits expansion : Nat}
    (exact : (⟨expansion, -1074⟩ : Decimal).nearestBits = bits) (places : Nat) :
    (shortestFrom bits expansion places).nearestBits = bits := by
  induction places with
  | zero => exact exact
  | succ places ih =>
    unfold shortestFrom
    dsimp only
    split
    · rename_i below
      split
      · rename_i above
        exact above.1
      · exact below
    · split
      · assumption
      · exact ih

@[simp] theorem nearestBits_shortest {bits : Nat} (finite : bits ≤ infinityBits) :
    (shortest bits).nearestBits = bits := by
  unfold shortest
  split
  · rename_i zero
    rw [zero]
    rfl
  · rename_i nonzero
    apply nearestBits_shortestFrom
    have nearest := nearestBits_unitsOfBits finite
    -- under a name, the number of places is no power to evaluate
    generalize value : (1074 : Nat) = places at nearest ⊢
    rw [nearestBits_expansion (unitsOfBits_ne_zero nonzero) (by omega) (by omega)]
    exact nearest

theorem shortest_eq_shortestFrom {bits places : Nat} (nonzero : bits ≠ 0)
    (low : Nat.pow 10 places ≤ unitsOfBits bits * Nat.pow 5 1074)
    (high : unitsOfBits bits * Nat.pow 5 1074 < Nat.pow 10 (places + 1)) :
    shortest bits = shortestFrom bits (unitsOfBits bits * Nat.pow 5 1074) (places + 1) := by
  rw [shortest, if_neg nonzero]
  generalize unitsOfBits bits * Nat.pow 5 1074 = expansion at low high ⊢
  have long : places < (Nat.repr expansion).length := by
    rcases Nat.eq_zero_or_pos places with rfl | positive
    · exact Nat.length_repr_pos
    · exact Nat.lt_of_not_le fun le => Nat.not_lt_of_le low ((Nat.length_repr_le_iff positive).1 le)
  have short : (Nat.repr expansion).length ≤ places + 1 :=
    (Nat.length_repr_le_iff (Nat.succ_pos places)).2 high
  dsimp only
  rw [Nat.le_antisymm short long]

end Decimal
end CellFormula
