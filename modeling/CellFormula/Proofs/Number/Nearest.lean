import CellFormula.Proofs.Number.Bits
/-! Correct rounding. Magnitudes with the same number of places behind the significand lie on a
grid, and to round to the grid is to round an integer. No magnitude off the grid is nearer. -/
namespace CellFormula.Number

/-- The size of a magnitude. That of infinity is the power of two behind the finite ones. -/
def sizeOfBits (bits : Nat) : ℚ := unitsOfBits bits / 2 ^ 1074

/-- The bits are those of the magnitude nearest to a number, the even ones at equal distance. -/
structure IsNearest (x : ℚ) (bits : Nat) : Prop where
  bounded : bits ≤ infinityBits
  nearest : ∀ other ≤ infinityBits, |x - sizeOfBits bits| ≤ |x - sizeOfBits other|
  even : ∀ other ≤ infinityBits, other ≠ bits →
    |x - sizeOfBits bits| = |x - sizeOfBits other| → Even bits

/-! ### Integers -/

theorem abs_sub_roundHalfEven (num : Nat) {den : Nat} (positive : 0 < den) :
    |(num / den : ℚ) - roundHalfEven num den| ≤ 1 / 2 ∧
      (|(num / den : ℚ) - roundHalfEven num den| = 1 / 2 → Even (roundHalfEven num den)) := by
  have scale : (0 : ℚ) < den := Nat.cast_pos.2 positive
  have split : (num / den : ℚ) = (num / den : Nat) + (num % den : Nat) / den := by
    have whole : (num : ℚ) = den * (num / den : Nat) + (num % den : Nat) := by
      exact_mod_cast (Nat.div_add_mod num den).symm
    rw [whole]
    field_simp
  have fraction : (0 : ℚ) ≤ (num % den : Nat) / den := by positivity
  rw [split]
  unfold roundHalfEven
  dsimp only
  generalize num / den = quotient
  cases order : compare (2 * (num % den)) den with
  | lt =>
    have less : ((num % den : Nat) / den : ℚ) < 1 / 2 := by
      rw [div_lt_div_iff₀ scale two_pos]
      have := Nat.compare_eq_lt.1 order
      norm_cast
      omega
    dsimp only
    rw [add_sub_cancel_left, abs_of_nonneg fraction]
    exact ⟨less.le, fun tie => absurd tie less.ne⟩
  | eq =>
    have half : ((num % den : Nat) / den : ℚ) = 1 / 2 := by
      rw [div_eq_div_iff scale.ne' two_ne_zero]
      have := Nat.compare_eq_eq.1 order
      norm_cast
      omega
    dsimp only
    rw [half]
    rcases Nat.mod_two_eq_zero_or_one quotient with even | odd
    · rw [even]
      norm_num
      exact Nat.even_iff.2 even
    · rw [odd]
      norm_num
      exact Nat.even_iff.2 (by omega)
  | gt =>
    have more : 1 / 2 < ((num % den : Nat) / den : ℚ) := by
      rw [div_lt_div_iff₀ two_pos scale]
      have := Nat.compare_eq_gt.1 order
      norm_cast
      omega
    have less : ((num % den : Nat) / den : ℚ) < 1 := by
      rw [div_lt_one scale]
      exact_mod_cast Nat.mod_lt num positive
    dsimp only
    push_cast
    have distance : |(quotient + (num % den : Nat) / den : ℚ) - (quotient + 1)| < 1 / 2 := by
      rw [abs_lt]
      constructor <;> linarith
    exact ⟨distance.le, fun tie => absurd tie distance.ne⟩

theorem roundHalfEven_bounds (num den : Nat) :
    num / den ≤ roundHalfEven num den ∧ roundHalfEven num den ≤ num / den + 1 := by
  unfold roundHalfEven
  dsimp only
  split <;> omega

/-! ### Magnitudes -/

/-- What stands before a number of places: at most the next power of two, and no less than the highest
bit if there are any places. -/
structure Fits (significand places : Nat) : Prop where
  high : significand ≤ 2 ^ 53
  low : places ≠ 0 → 2 ^ 52 ≤ significand

variable {significand places bits other : Nat}

theorem unitsOfBits_of_fits (h : Fits significand places) :
    unitsOfBits (places * 2 ^ 52 + significand) = significand * 2 ^ places := by
  obtain ⟨high, low⟩ := h
  unfold unitsOfBits
  simp only [Nat.shiftRight_eq_div_pow, Nat.shiftLeft_eq, Nat.one_mul]
  rcases Nat.lt_or_ge significand (2 ^ 52) with unset | set
  · obtain rfl : places = 0 := by
      by_contra some
      exact absurd unset (Nat.not_lt.2 (low some))
    rw [Nat.zero_mul, Nat.zero_add, Nat.div_eq_of_lt unset, if_pos rfl, Nat.mod_eq_of_lt unset,
      Nat.pow_zero, Nat.mul_one]
  · rcases Nat.lt_or_ge significand (2 ^ 53) with below | full
    · have field : (places * 2 ^ 52 + significand) / 2 ^ 52 = places + 1 := by omega
      have fraction : 2 ^ 52 + (places * 2 ^ 52 + significand) % 2 ^ 52 = significand := by omega
      rw [field, fraction, if_neg (Nat.succ_ne_zero _), Nat.add_sub_cancel]
    · -- a full significand carries into the exponent field
      obtain rfl := Nat.le_antisymm high full
      have field : (places * 2 ^ 52 + 2 ^ 53) / 2 ^ 52 = places + 2 := by omega
      have fraction : (places * 2 ^ 52 + 2 ^ 53) % 2 ^ 52 = 0 := by omega
      rw [field, fraction, if_neg (Nat.succ_ne_zero _), Nat.add_zero]
      change 2 ^ 52 * 2 ^ (places + 1) = _
      ring

theorem exists_fits (bits : Nat) :
    ∃ significand places, Fits significand places ∧ significand < 2 ^ 53 ∧
      bits = places * 2 ^ 52 + significand := by
  have fraction := Nat.mod_lt bits (Nat.two_pow_pos 52)
  have split := Nat.div_add_mod bits (2 ^ 52)
  rcases Nat.eq_zero_or_pos (bits / 2 ^ 52) with subnormal | normal
  · refine ⟨bits % 2 ^ 52, 0, ⟨by omega, fun some => absurd rfl some⟩, by omega, by omega⟩
  · refine ⟨2 ^ 52 + bits % 2 ^ 52, bits / 2 ^ 52 - 1, ⟨by omega, fun _ => by omega⟩, by omega, ?_⟩
    omega

private theorem add_step_le_unitsOfBits (h : Fits significand places) :
    (significand + 1) * 2 ^ places ≤ unitsOfBits (places * 2 ^ 52 + significand + 1) := by
  obtain ⟨high, low⟩ := h
  rcases Nat.lt_or_ge significand (2 ^ 53) with below | full
  · have next : Fits (significand + 1) places := ⟨below, fun some => Nat.le_succ_of_le (low some)⟩
    rw [Nat.add_assoc, unitsOfBits_of_fits next]
  · obtain rfl := Nat.le_antisymm high full
    have next : Fits (2 ^ 52 + 1) (places + 1) := ⟨by decide, fun _ => by decide⟩
    have carry : places * 2 ^ 52 + 2 ^ 53 + 1 = (places + 1) * 2 ^ 52 + (2 ^ 52 + 1) := by ring
    rw [carry, unitsOfBits_of_fits next]
    calc (2 ^ 53 + 1) * 2 ^ places ≤ (2 ^ 52 + 1) * 2 * 2 ^ places :=
          Nat.mul_le_mul_right _ (by decide)
      _ = (2 ^ 52 + 1) * 2 ^ (places + 1) := by ring

theorem strictMono_unitsOfBits : StrictMono unitsOfBits := by
  refine strictMono_nat_of_lt_succ fun bits => ?_
  obtain ⟨significand, places, fits, -, rfl⟩ := exists_fits bits
  refine Nat.lt_of_lt_of_le ?_ (add_step_le_unitsOfBits fits)
  rw [unitsOfBits_of_fits fits]
  exact (Nat.mul_lt_mul_right (Nat.two_pow_pos _)).2 (Nat.lt_succ_self _)

private theorem abs_sub_le_of_far {x near far step : ℚ} (close : |x - near| ≤ step / 2)
    (away : step ≤ |far - near|) :
    |x - near| ≤ |x - far| ∧ (|x - near| = |x - far| → |x - near| = step / 2) := by
  have triangle := abs_sub_le far x near
  rw [abs_sub_comm far x] at triangle
  constructor
  · linarith
  · intro same
    linarith

/-- A magnitude on the grid that is at most half a step away from a number of units is nearest to it,
unless it is the least one of the grid and the number lies below it. -/
theorem nearest_of_fits (h : Fits significand places) {units : ℚ}
    (close : |units - significand * 2 ^ places| ≤ 2 ^ places / 2)
    (tie : |units - significand * 2 ^ places| = 2 ^ places / 2 → Even significand)
    (least : places ≠ 0 → significand = 2 ^ 52 → (significand * 2 ^ places : ℚ) ≤ units)
    (different : other ≠ places * 2 ^ 52 + significand) :
    |units - significand * 2 ^ places| ≤ |units - unitsOfBits other| ∧
      (|units - significand * 2 ^ places| = |units - unitsOfBits other| →
        Even (places * 2 ^ 52 + significand)) := by
  have even : Even significand → Even (places * 2 ^ 52 + significand) :=
    fun even => (Even.mul_left (by decide) places).add even
  have off : (2 ^ places : ℚ) ≤ |(unitsOfBits other : ℚ) - significand * 2 ^ places| →
      |units - significand * 2 ^ places| ≤ |units - unitsOfBits other| ∧
        (|units - significand * 2 ^ places| = |units - unitsOfBits other| →
          Even (places * 2 ^ 52 + significand)) := by
    intro away
    obtain ⟨le, half⟩ := abs_sub_le_of_far close away
    exact ⟨le, fun same => even (tie (half same))⟩
  rcases Nat.lt_or_gt_of_ne different with below | above
  · by_cases first : places ≠ 0 ∧ significand = 2 ^ 52
    · -- the grid is finer below, but the number is not there
      have less := strictMono_unitsOfBits below
      rw [unitsOfBits_of_fits h] at less
      have less : (unitsOfBits other : ℚ) < significand * 2 ^ places := by exact_mod_cast less
      have notBelow := least first.1 first.2
      rw [abs_of_nonneg (by linarith), abs_of_nonneg (by linarith)]
      exact ⟨by linarith, fun same => absurd same (by linarith)⟩
    · refine off ?_
      have before : Fits (significand - 1) places := by
        refine ⟨Nat.le_trans (Nat.sub_le _ _) h.high, fun some => ?_⟩
        have low := h.low some
        have notFirst : significand ≠ 2 ^ 52 := fun same => first ⟨some, same⟩
        omega
      have positive : 0 < significand := by
        rcases Nat.eq_zero_or_pos places with rfl | some
        · omega
        · exact Nat.lt_of_lt_of_le (Nat.two_pow_pos 52) (h.low some.ne')
      have le : other ≤ places * 2 ^ 52 + (significand - 1) := by omega
      have le := strictMono_unitsOfBits.monotone le
      rw [unitsOfBits_of_fits before] at le
      have le : (unitsOfBits other : ℚ) ≤ (significand - 1) * 2 ^ places := by
        have cast : ((significand - 1 : Nat) : ℚ) = significand - 1 := Nat.cast_pred positive
        rw [← cast]
        exact_mod_cast le
      rw [abs_sub_comm]
      refine le_trans ?_ (le_abs_self _)
      linarith
  · refine off ?_
    have le := (add_step_le_unitsOfBits h).trans (strictMono_unitsOfBits.monotone above)
    have le : ((significand + 1) * 2 ^ places : ℚ) ≤ unitsOfBits other := by exact_mod_cast le
    refine le_trans ?_ (le_abs_self _)
    linarith

/-! ### Quotients -/

private theorem cast_shiftLeft (num places : Nat) :
    ((num <<< places : Nat) : ℚ) = num * 2 ^ places := by
  rw [Nat.shiftLeft_eq]
  push_cast
  rfl

def placesOf (units den : Nat) : Nat := (units / den).log2 - 52

private theorem quotient_lt (units den : Nat) : units / (den <<< placesOf units den) < 2 ^ 53 := by
  rw [Nat.shiftLeft_eq, ← Nat.div_div_eq_div_mul, Nat.div_lt_iff_lt_mul (Nat.two_pow_pos _),
    ← Nat.pow_add]
  have power : 2 ^ ((units / den).log2 + 1) ≤ 2 ^ (53 + placesOf units den) :=
    Nat.pow_le_pow_right (by decide) (by unfold placesOf; omega)
  exact Nat.lt_of_lt_of_le Nat.lt_log2_self power

private theorem le_quotient {units den : Nat} (some : placesOf units den ≠ 0) :
    2 ^ 52 * 2 ^ placesOf units den ≤ units / den := by
  have nonzero : units / den ≠ 0 := by
    intro zero
    exact some (by rw [placesOf, zero]; decide)
  have split : 52 + placesOf units den = (units / den).log2 := by
    unfold placesOf at some ⊢
    omega
  rw [← Nat.pow_add, split]
  exact Nat.log2_self_le nonzero

theorem fits_roundHalfEven (units den : Nat) :
    Fits (roundHalfEven units (den <<< placesOf units den)) (placesOf units den) := by
  obtain ⟨low, high⟩ := roundHalfEven_bounds units (den <<< placesOf units den)
  have below := quotient_lt units den
  refine ⟨by omega, fun some => Nat.le_trans ?_ low⟩
  rw [Nat.shiftLeft_eq, ← Nat.div_div_eq_div_mul, Nat.le_div_iff_mul_le (Nat.two_pow_pos _)]
  exact le_quotient some

/-- With no end to the exponents, the rounded significand is nearest to the quotient. -/
theorem nearest_unbounded (units : Nat) {den : Nat} (positive : 0 < den) {bits : Nat}
    (rounded : bits = placesOf units den * 2 ^ 52 +
      roundHalfEven units (den <<< placesOf units den)) (different : other ≠ bits) :
    |(units / den : ℚ) - unitsOfBits bits| ≤ |(units / den : ℚ) - unitsOfBits other| ∧
      (|(units / den : ℚ) - unitsOfBits bits| = |(units / den : ℚ) - unitsOfBits other| →
        Even bits) := by
  have fits := fits_roundHalfEven units den
  have some := @le_quotient units den
  have scaled : 0 < den <<< placesOf units den := by
    rw [Nat.shiftLeft_eq]
    exact Nat.mul_pos positive (Nat.two_pow_pos _)
  obtain ⟨close, tie⟩ := abs_sub_roundHalfEven units scaled
  generalize roundHalfEven units (den <<< placesOf units den) = significand at *
  generalize placesOf units den = places at *
  subst rounded
  have step : (0 : ℚ) < 2 ^ places := by positivity
  have onGrid : ∀ n : ℚ, |(units / den : ℚ) - n * 2 ^ places| =
      |(units / (den <<< places : Nat) : ℚ) - n| * 2 ^ places := by
    intro n
    rw [← abs_of_pos step, ← abs_mul, abs_of_pos step, sub_mul, cast_shiftLeft,
      div_mul_eq_mul_div, mul_div_mul_right _ _ step.ne']
  have value : (unitsOfBits (places * 2 ^ 52 + significand) : ℚ) = significand * 2 ^ places := by
    exact_mod_cast unitsOfBits_of_fits fits
  rw [value]
  apply nearest_of_fits fits
  · rw [onGrid]
    linarith [mul_le_mul_of_nonneg_right close step.le]
  · rw [onGrid]
    intro half
    refine tie (mul_right_cancel₀ step.ne' ?_)
    linarith
  · rintro behind rfl
    have quotient : ((2 ^ 52 * 2 ^ places : Nat) : ℚ) ≤ (units / den : Nat) := by
      exact_mod_cast some behind
    have floor : ((units / den : Nat) : ℚ) ≤ units / den := Nat.cast_div_le
    push_cast at quotient
    push_cast
    linarith
  · exact different

/-! ### Rounding -/

private theorem abs_sub_sizeOfBits (x : ℚ) (bits : Nat) :
    |x - sizeOfBits bits| = |x * 2 ^ 1074 - unitsOfBits bits| / 2 ^ 1074 := by
  have unit : (0 : ℚ) < 2 ^ 1074 := by positivity
  rw [sizeOfBits, ← abs_of_pos unit, ← abs_div, abs_of_pos unit, sub_div,
    mul_div_cancel_right₀ _ unit.ne']

theorem IsNearest.of_units {x : ℚ} (bounded : bits ≤ infinityBits)
    (h : ∀ other ≤ infinityBits, other ≠ bits →
      |x * 2 ^ 1074 - unitsOfBits bits| ≤ |x * 2 ^ 1074 - unitsOfBits other| ∧
        (|x * 2 ^ 1074 - unitsOfBits bits| = |x * 2 ^ 1074 - unitsOfBits other| → Even bits)) :
    IsNearest x bits where
  bounded := bounded
  nearest other le := by
    rcases eq_or_ne other bits with rfl | different
    · exact le_rfl
    · rw [abs_sub_sizeOfBits, abs_sub_sizeOfBits]
      exact div_le_div_of_nonneg_right (h other le different).1 (by positivity)
  even other le different same := by
    rw [abs_sub_sizeOfBits, abs_sub_sizeOfBits] at same
    have unit : (2 ^ 1074 : ℚ) ≠ 0 := by positivity
    exact (h other le different).2 ((div_left_inj' unit).1 same)

theorem nearestBits_eq (num den : Nat) :
    nearestBits num den = min (placesOf (num <<< 1074) den * 2 ^ 52 +
      roundHalfEven (num <<< 1074) (den <<< placesOf (num <<< 1074) den)) infinityBits := by
  rw [← Nat.shiftLeft_eq]
  rfl

theorem isNearest_nearestBits (num : Nat) {den : Nat} (positive : 0 < den) :
    IsNearest (num / den) (nearestBits num den) := by
  have units : (num / den : ℚ) * (2 : ℚ) ^ 1074 = ((num <<< 1074 : Nat) : ℚ) / den := by
    rw [cast_shiftLeft, div_mul_eq_mul_div]
  refine .of_units (nearestBits_le num den) fun other le different => ?_
  rw [units]
  have clipped := nearestBits_eq num den
  generalize rounding : placesOf (num <<< 1074) den * 2 ^ 52 +
    roundHalfEven (num <<< 1074) (den <<< placesOf (num <<< 1074) den) = rounded at clipped
  rcases Nat.lt_or_ge infinityBits rounded with beyond | within
  · -- the quotient lies behind infinity, and so behind all others
    rw [clipped, Nat.min_eq_right beyond.le] at different ⊢
    obtain ⟨nearer, -⟩ := nearest_unbounded (num <<< 1074) positive rounding.symm beyond.ne
    have order : (unitsOfBits infinityBits : ℚ) < unitsOfBits rounded := by
      exact_mod_cast strictMono_unitsOfBits beyond
    have less : (unitsOfBits other : ℚ) < unitsOfBits infinityBits := by
      exact_mod_cast strictMono_unitsOfBits (Nat.lt_of_le_of_ne le different)
    have behind : (unitsOfBits infinityBits : ℚ) ≤ (num <<< 1074 : Nat) / den := by
      by_contra before
      rw [abs_of_nonpos (by linarith), abs_of_nonpos (by linarith)] at nearer
      linarith
    rw [abs_of_nonneg (by linarith), abs_of_nonneg (by linarith)]
    exact ⟨by linarith, fun same => absurd same (by linarith)⟩
  · rw [clipped, Nat.min_eq_left within] at different ⊢
    exact nearest_unbounded _ positive rounding.symm different

namespace IsNearest
variable {x : ℚ}

theorem strictMono_sizeOfBits : StrictMono sizeOfBits := by
  intro bits other less
  have less : (unitsOfBits bits : ℚ) < unitsOfBits other := by
    exact_mod_cast strictMono_unitsOfBits less
  exact div_lt_div_of_pos_right less (by positivity)

/-- There is one nearest magnitude only: between two with even bits there is another one. -/
theorem unique (h : IsNearest x bits) (h' : IsNearest x other) : bits = other := by
  wlog less : bits < other generalizing bits other
  · rcases Nat.lt_or_ge other bits with greater | le
    · exact (this h' h greater).symm
    · exact Nat.le_antisymm le (Nat.not_lt.1 less)
  have same : |x - sizeOfBits bits| = |x - sizeOfBits other| :=
    le_antisymm (h.nearest other h'.bounded) (h'.nearest bits h.bounded)
  obtain ⟨half, rfl⟩ := h.even other h'.bounded less.ne' same
  obtain ⟨half', rfl⟩ := h'.even _ h.bounded less.ne same.symm
  have first : half + half < half + half + 1 := Nat.lt_succ_self _
  have second : half + half + 1 < half' + half' := by omega
  have closer := h.nearest _ (second.le.trans h'.bounded)
  have low := strictMono_sizeOfBits first
  have high := strictMono_sizeOfBits second
  rcases abs_eq_abs.1 same with equal | opposite
  · linarith
  · -- the number is in the middle of the two, and nearer to what is between them
    rw [abs_of_nonneg (by linarith : 0 ≤ x - sizeOfBits (half + half)), le_abs] at closer
    rcases closer with above | below
    · linarith
    · linarith

theorem zero (h : 0 ≤ x) (small : x * 2 ^ 1075 ≤ 1) : IsNearest x 0 := by
  refine .of_units (Nat.zero_le _) fun other _ different => ?_
  have double : (2 : ℚ) ^ 1075 = 2 ^ 1074 * 2 := pow_succ 2 1074
  have positive : (0 : ℚ) < 2 ^ 1074 := by positivity
  rw [double] at small
  generalize (2 : ℚ) ^ 1074 = unit at *
  have none : ((unitsOfBits 0 : Nat) : ℚ) = 0 := Nat.cast_zero
  have some : (1 : ℚ) ≤ |(unitsOfBits other : ℚ) - 0| := by
    rw [sub_zero, Nat.abs_cast]
    exact_mod_cast strictMono_unitsOfBits (Nat.pos_of_ne_zero different)
  have close : |x * unit - 0| ≤ 1 / 2 := by
    rw [sub_zero, abs_of_nonneg (by positivity)]
    linarith
  rw [none]
  exact ⟨(abs_sub_le_of_far close some).1, fun _ => Even.zero⟩

theorem infinity (h : sizeOfBits infinityBits ≤ x) : IsNearest x infinityBits where
  bounded := le_rfl
  nearest other le := by
    have size := strictMono_sizeOfBits.monotone le
    rw [abs_of_nonneg (by linarith), abs_of_nonneg (by linarith)]
    linarith
  even _ _ _ _ := by decide

theorem sizeOfBits_last : sizeOfBits (infinityBits - 1) = (2 ^ 53 - 1) * 2 ^ 971 ∧
    sizeOfBits infinityBits = 2 ^ 53 * 2 ^ 971 := by
  have last : Fits (2 ^ 53 - 1) 2045 := ⟨by decide, fun _ => by decide⟩
  have next : Fits (2 ^ 53) 2045 := ⟨by decide, fun _ => by decide⟩
  have units : (2 : ℚ) ^ 2045 = 2 ^ 971 * 2 ^ 1074 := by rw [← pow_add]
  have size : ∀ {significand}, Fits significand 2045 →
      sizeOfBits (2045 * 2 ^ 52 + significand) = significand * 2 ^ 971 := by
    intro significand fits
    rw [sizeOfBits, unitsOfBits_of_fits fits, Nat.cast_mul, Nat.cast_pow, Nat.cast_two, units,
      ← mul_assoc, mul_div_cancel_right₀ _ (by positivity)]
  constructor
  · rw [show infinityBits - 1 = 2045 * 2 ^ 52 + (2 ^ 53 - 1) from rfl, size last]
    norm_num
  · rw [show infinityBits = 2045 * 2 ^ 52 + 2 ^ 53 from rfl, size next]
    norm_num

theorem eq_infinityBits_iff (h : IsNearest x bits) :
    bits = infinityBits ↔ (2 ^ 54 - 1) * 2 ^ 970 ≤ x := by
  have middle : (2 ^ 54 - 1) * 2 ^ 970 =
      (sizeOfBits (infinityBits - 1) + sizeOfBits infinityBits) / 2 := by
    have double : (2 : ℚ) ^ 971 = 2 * 2 ^ 970 := by rw [pow_succ, mul_comm]
    rw [sizeOfBits_last.1, sizeOfBits_last.2, double]
    generalize (2 : ℚ) ^ 970 = step
    ring
  have order := strictMono_sizeOfBits (show infinityBits - 1 < infinityBits by decide)
  rw [middle]
  constructor
  · rintro rfl
    by_contra below
    have closer := h.nearest (infinityBits - 1) (Nat.sub_le _ _)
    rw [abs_sub_comm x, abs_of_nonneg (by linarith), le_abs] at closer
    rcases closer with behind | before
    · linarith
    · linarith
  · intro above
    by_contra finite
    have less : bits < infinityBits := Nat.lt_of_le_of_ne h.bounded finite
    have size : sizeOfBits bits ≤ sizeOfBits (infinityBits - 1) :=
      strictMono_sizeOfBits.monotone (Nat.le_pred_of_lt less)
    have closer := h.nearest infinityBits le_rfl
    have near : |x - sizeOfBits infinityBits| ≤ x - sizeOfBits (infinityBits - 1) := by
      rw [abs_le]
      constructor <;> linarith
    rw [abs_of_nonneg (by linarith)] at closer
    -- the only candidate is the last finite magnitude, but its bits are odd
    obtain rfl : bits = infinityBits - 1 :=
      strictMono_sizeOfBits.injective (le_antisymm size (by linarith))
    refine absurd (h.even infinityBits le_rfl less.ne' ?_) (by decide)
    rw [abs_of_nonneg (by linarith)]
    linarith

end IsNearest

end CellFormula.Number
