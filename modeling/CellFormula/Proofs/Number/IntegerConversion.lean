import CellFormula.Proofs.Number.Nearest
import CellFormula.Proofs.Number.Shortest
/-! The conversion of 64-bit integers. An integer is shifted until 53 bits are left, with what falls
out kept in two bits, and these decide how it is rounded; the result has the bits of the nearest
number. -/
namespace CellFormula.Number
open Float.Model Float.Model.UnpackedFloat

private theorem shiftRight_succ (em : ExtendedMantissa) (count : Nat) :
    em >>> (count + 1) = (em >>> count).shiftRightOne := rfl

/-- The round bit is the last one that fell out, and the sticky bit tells if any before it was set. -/
private theorem shiftRight_eq (mantissa count : Nat) :
    (⟨mantissa, false, false⟩ : ExtendedMantissa) >>> (count + 1) =
      ⟨mantissa / 2 ^ (count + 1), mantissa / 2 ^ count % 2 != 0, mantissa % 2 ^ count != 0⟩ := by
  induction count with
  | zero =>
    change (⟨mantissa / 2, mantissa % 2 != 0, false⟩ : ExtendedMantissa) = _
    simp [Nat.mod_one]
  | succ count ih =>
    have sticky : (mantissa / 2 ^ count % 2 != 0 || mantissa % 2 ^ count != 0) =
        (mantissa % 2 ^ (count + 1) != 0) := by
      rw [Nat.mod_pow_succ, Bool.eq_iff_iff]
      have positive := Nat.two_pow_pos count
      simp only [Bool.or_eq_true, bne_iff_ne, ne_eq, Nat.add_eq_zero_iff, Nat.mul_eq_zero,
        positive.ne', false_or]
      rw [not_and_or, or_comm]
    rw [shiftRight_succ, ih, ExtendedMantissa.shiftRightOne]
    dsimp only
    rw [sticky, Nat.div_div_eq_div_mul, ← Nat.pow_succ]

private theorem roundedMantissa_shiftRight (mantissa count : Nat) :
    ((⟨mantissa, false, false⟩ : ExtendedMantissa) >>> count).roundedMantissa =
      roundHalfEven mantissa (2 ^ count) := by
  cases count with
  | zero =>
    have whole := roundHalfEven_mul mantissa Nat.one_pos
    rw [Nat.one_mul] at whole
    exact whole.symm
  | succ count =>
    rw [shiftRight_eq, roundHalfEven]
    have rest := Nat.mod_pow_succ (b := 2) (k := count) (x := mantissa)
    have bound := Nat.mod_lt mantissa (Nat.two_pow_pos count)
    have power := Nat.pow_succ 2 count
    rcases Nat.mod_two_eq_zero_or_one (mantissa / 2 ^ count) with unset | set
    · have order : compare (2 * (mantissa % 2 ^ (count + 1))) (2 ^ (count + 1)) = .lt := by
        rw [Nat.compare_eq_lt, rest, unset]
        omega
      rw [order, unset]
      cases mantissa % 2 ^ count != 0 <;> rfl
    · rcases Nat.eq_zero_or_pos (mantissa % 2 ^ count) with none | some
      · have order : compare (2 * (mantissa % 2 ^ (count + 1))) (2 ^ (count + 1)) = .eq := by
          rw [Nat.compare_eq_eq, rest, set, none]
          omega
        rw [order, set, none]
        rfl
      · have order : compare (2 * (mantissa % 2 ^ (count + 1))) (2 ^ (count + 1)) = .gt := by
          rw [Nat.compare_eq_gt, rest, set]
          omega
        have sticky : (mantissa % 2 ^ count != 0) = true := bne_iff_ne.2 some.ne'
        rw [order, set, sticky]
        rfl

private theorem targetExponent_eq (mantissa : Nat) (exponent : Int) :
    Format.binary64.targetExponent (totalExponent mantissa exponent) =
      max (mantissa.log2 + exponent - 52) (-1074) := by
  simp only [Format.targetExponent, totalExponent, Format.mantissaBits, Format.minExponent]
  norm_num
  omega

private theorem log2_shiftLeft {n : Nat} (positive : 0 < n) (places : Nat) :
    (n <<< places).log2 = n.log2 + places := by
  have power := Nat.two_pow_pos places
  rw [Nat.shiftLeft_eq, Nat.log2_eq_iff (Nat.mul_pos positive power).ne', Nat.add_right_comm,
    Nat.pow_add, Nat.pow_add]
  exact ⟨Nat.mul_le_mul_right _ (Nat.log2_self_le positive.ne'),
    (Nat.mul_lt_mul_right power).2 Nat.lt_log2_self⟩

theorem toNat_pack_finite {significand : Nat} (low : 2 ^ 52 ≤ significand)
    (high : significand < 2 ^ 53) {places : Nat} (few : places ≤ 2045) {exponent : Int}
    (h : exponent + 1074 = places) (positive : 0 < significand) :
    (UnpackedFloat.pack Format.binary64 (.finite .positive significand exponent positive)).toNat =
      places * 2 ^ 52 + significand := by
  have bits : significand.log2 + 1 = Format.binary64.mantissaBits := by
    rw [(Nat.log2_eq_iff positive.ne').2 ⟨low, high⟩]
    rfl
  have field : (exponent + Format.binary64.exponentBias +
      Format.binary64.mantissaBitsWithoutImplicit).toNat = places + 1 := by
    change (exponent + (1023 : Nat) + (52 : Nat)).toNat = _
    omega
  have finite : ¬ 2 ^ Format.binary64.exponentBits ≤ places + 1 + 1 := by
    change ¬ 2 ^ 11 ≤ _
    omega
  simp only [UnpackedFloat.pack, field, if_neg finite, if_pos bits]
  rw [toNat_packComponents, BitVec.toNat_ofNat, BitVec.toNat_ofNat]
  change 0 * 2 ^ 63 + _ + _ = _
  omega

private theorem shiftToTargetExponent_eq (mantissa : Nat) (exponent : Int) :
    shiftToTargetExponent Format.binary64 mantissa exponent .exact =
      ((⟨mantissa, false, false⟩ : ExtendedMantissa) >>>
          (max (mantissa.log2 + exponent - 52) (-1074) - exponent).toNat,
        exponent + (max (mantissa.log2 + exponent - 52) (-1074) - exponent).toNat) := by
  rw [shiftToTargetExponent, targetExponent_eq]
  rfl

/-- A significand that was rounded up to the next power of two loses a place. -/
theorem toNat_pack_roundWithAccuracy {mantissa : Nat} {exponent : Int} {em : ExtendedMantissa}
    {shifted : Int}
    (first : shiftToTargetExponent Format.binary64 mantissa exponent .exact = (em, shifted))
    (low : 2 ^ 52 ≤ em.roundedMantissa) (high : em.roundedMantissa ≤ 2 ^ 53)
    {places : Nat} (few : places ≤ 2044) (h : shifted + 1074 = places) :
    (UnpackedFloat.pack Format.binary64
      (roundWithAccuracy Format.binary64 .positive mantissa exponent .exact)).toNat =
        places * 2 ^ 52 + em.roundedMantissa := by
  rw [roundWithAccuracy, first]
  dsimp only
  rcases Nat.lt_or_ge em.roundedMantissa (2 ^ 53) with below | full
  · have bits : em.roundedMantissa.log2 = 52 := by
      rw [Nat.log2_eq_iff (by omega)]
      exact ⟨low, below⟩
    have second : shiftToTargetExponent Format.binary64 em.roundedMantissa shifted .exact =
        (⟨em.roundedMantissa, false, false⟩, shifted) := by
      have stays : (max (((52 : Nat) : Int) + shifted - 52) (-1074) - shifted).toNat = 0 := by omega
      rw [shiftToTargetExponent_eq, bits, stays]
      exact congrArg (Prod.mk _) (add_zero shifted)
    rw [second]
    dsimp only
    rw [dif_neg (by omega), toNat_pack_finite low below (by omega) h]
  · have same : em.roundedMantissa = 2 ^ 53 := le_antisymm high full
    have second : shiftToTargetExponent Format.binary64 (2 ^ 53) shifted .exact =
        (⟨2 ^ 52, false, false⟩, shifted + 1) := by
      have moves : (max (((53 : Nat) : Int) + shifted - 52) (-1074) - shifted).toNat = 1 := by omega
      rw [shiftToTargetExponent_eq, Nat.log2_two_pow, moves]
      rfl
    rw [same, second]
    dsimp only
    rw [dif_neg (by decide), toNat_pack_finite le_rfl (by decide) (by omega)
      (show shifted + 1 + 1074 = (places + 1 : Nat) by omega)]
    omega

section Integer
variable {n : Nat}

private theorem placesOf_integer (positive : 0 < n) :
    placesOf (n <<< 1074) 1 = n.log2 + 1022 := by
  rw [placesOf, Nat.div_one, log2_shiftLeft positive]
  rfl

private theorem roundHalfEven_integer (positive : 0 < n) (few : n.log2 < 64) :
    roundHalfEven (n <<< 1074) (1 <<< placesOf (n <<< 1074) 1) =
      roundHalfEven (n <<< (52 - n.log2)) (2 ^ (n.log2 - 52)) := by
  obtain ⟨common, all⟩ : ∃ common, 1074 = common + (52 - n.log2) :=
    ⟨1074 - (52 - n.log2), by omega⟩
  have num : n <<< 1074 = 2 ^ common * n <<< (52 - n.log2) := by
    rw [all, Nat.shiftLeft_eq, Nat.shiftLeft_eq, Nat.pow_add]
    exact Nat.mul_left_comm ..
  have den : 1 <<< (n.log2 + 1022) = 2 ^ common * 2 ^ (n.log2 - 52) := by
    rw [Nat.one_shiftLeft, ← Nat.pow_add]
    exact congrArg (2 ^ ·) (by omega)
  rw [placesOf_integer positive, num, den, roundHalfEven_mul_left _ _ _ (Nat.two_pow_pos _)]

private theorem ofInt_eq (positive : 0 < n) (few : n.log2 < 64) :
    UnpackedFloat.ofInt Format.binary64 n =
      roundWithAccuracy Format.binary64 .positive (n <<< (52 - n.log2))
        (-((52 - n.log2 : Nat) : Int)) .exact := by
  have target : Format.binary64.targetExponent (totalExponent n 0) = n.log2 - 52 := by
    rw [targetExponent_eq]
    omega
  have amount : (0 - ((n.log2 : Int) - 52)).toNat = 52 - n.log2 := by omega
  have order : compare (n : Int) 0 = .gt := by
    rw [compare_gt_iff_gt]
    exact_mod_cast positive
  rw [UnpackedFloat.ofInt, UnpackedFloat.normalize, order]
  dsimp only
  rw [UnpackedFloat.round, Int.toNat_natCast, target, decreaseExponent, amount, zero_sub]

private theorem shift_integer (positive : 0 < n) (few : n.log2 < 64) :
    shiftToTargetExponent Format.binary64 (n <<< (52 - n.log2))
        (-((52 - n.log2 : Nat) : Int)) .exact =
      ((⟨n <<< (52 - n.log2), false, false⟩ : ExtendedMantissa) >>> (n.log2 - 52),
        (n.log2 : Int) - 52) := by
  have amount : (max (((n.log2 + (52 - n.log2) : Nat) : Int) + -((52 - n.log2 : Nat) : Int) - 52)
      (-1074) - -((52 - n.log2 : Nat) : Int)).toNat = n.log2 - 52 := by omega
  rw [shiftToTargetExponent_eq, log2_shiftLeft positive, amount]
  exact congrArg (Prod.mk _) (by omega)

theorem toNat_pack_ofInt (positive : 0 < n) (few : n.log2 < 64) :
    (UnpackedFloat.pack Format.binary64 (UnpackedFloat.ofInt Format.binary64 n)).toNat =
      nearestBits n 1 := by
  have places := placesOf_integer positive
  have fits := fits_roundHalfEven (n <<< 1074) 1
  have rounded : roundHalfEven (n <<< 1074) (1 <<< placesOf (n <<< 1074) 1) =
      ((⟨n <<< (52 - n.log2), false, false⟩ : ExtendedMantissa) >>>
        (n.log2 - 52)).roundedMantissa := by
    rw [roundHalfEven_integer positive few, roundedMantissa_shiftRight]
  rw [nearestBits_eq]
  rw [rounded, places] at fits ⊢
  rw [ofInt_eq positive few, toNat_pack_roundWithAccuracy (shift_integer positive few)
    (fits.low (Nat.succ_ne_zero _)) fits.high (show n.log2 + 1022 ≤ 2044 by omega) (by omega)]
  symm
  refine Nat.min_eq_left ?_
  have high := fits.high
  change _ ≤ 0x7ff * 2 ^ 52
  omega

end Integer

theorem ofModel_ofInt64 {value : Nat} (bound : value < 2 ^ 63) :
    Float.ofModel (.ofInt64 (.ofNat value)) = ofMagnitudeBits (nearestBits value 1) := by
  have integer : (Int64.ofNat value).toInt = value := Int64.toInt_ofNat_of_lt bound
  have bits : (UnpackedFloat.pack Format.binary64
      (UnpackedFloat.ofInt Format.binary64 (value : Int))).toNat = nearestBits value 1 := by
    rcases Nat.eq_zero_or_pos value with rfl | positive
    · decide +kernel
    · have few := (Nat.log2_lt positive.ne').2 bound
      exact toNat_pack_ofInt positive (by omega)
  apply Float.toBits_inj.1
  rw [toBits_ofMagnitudeBits (nearestBits_le value 1), ← bits]
  change UInt64.ofBitVec (UnpackedFloat.pack Format.binary64
    (UnpackedFloat.ofInt Format.binary64 (Int64.ofNat value).toInt)) = _
  rw [integer]
  exact UInt64.ofNat_toNat.symm

end CellFormula.Number
