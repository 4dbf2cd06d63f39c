import CellFormula.Proofs.Number.DecimalReader
import CellFormula.Proofs.Number.IntegerConversion
import CellFormula.Proofs.Parsing.Words
/-! Digits with and without a point behind them. Below `2 ^ 63` digits are converted as an integer,
and otherwise they are read as a decimal, as digits before a point always are. Each way rounds
correctly, and there is one correctly rounded number only. -/
namespace CellFormula.Parsing
open Number

variable {digits : List Char}

def pointed (digits : List Char) : List Char := digits ++ ".0".toList

private theorem nonempty_pointed (digits : List Char) : pointed digits ≠ [] := by simp [pointed]

private theorem letter_pointed (h : AreDigits digits) :
    ∀ c ∈ pointed digits, Glyph.ofChar c = .letter c ∧ c ≠ '"' := by
  intro c mem
  rcases List.mem_append.1 mem with digit | behind
  · exact letter_digit (h c digit)
  · have all : ∀ c ∈ ".0".toList, Glyph.ofChar c = .letter c ∧ c ≠ '"' :=
      List.all_iff_forall_prop.1 (by decide)
    exact all c behind

private theorem read?_pointed (h : AreDigits digits) (nonempty : digits ≠ []) :
    Decimal.read? (pointed digits) = some ⟨10 * Decimal.ofDigits digits, -1⟩ := by
  have read := Decimal.read?_point h nonempty (Decimal.areDigits_zeros 1)
  rw [Decimal.ofDigits_append_zeros] at read
  exact read

private theorem integer?_pointed (h : AreDigits digits) :
    Constant.integer? (pointed digits) = none :=
  Constant.integer?_point (h.append (Decimal.areDigits_zeros 1))

private theorem value_whole (value : Nat) : (⟨value, 0⟩ : Decimal).value = value := by
  simp [Decimal.value]

private theorem value_pointed (value : Nat) : (⟨10 * value, -1⟩ : Decimal).value = value := by
  change ((10 * value : Nat) : ℚ) * 10 ^ (-1 : ℤ) = value
  rw [zpow_neg_one, Nat.cast_mul, mul_right_comm, Nat.cast_ofNat,
    mul_inv_cancel₀ Decimal.ten_ne_zero, one_mul]

theorem parse_letters {letters : List Char} (nonempty : letters ≠ [])
    (letter : ∀ c ∈ letters, Glyph.ofChar c = .letter c ∧ c ≠ '"') {x : Float}
    (spells : Constant.ofWord? letters = some (.number x)) :
    parse (String.ofList letters) = .ok (.num x) := by
  have read := Word.parse_eq ⟨letters, nonempty, letter⟩
  rw [Word.toTerm_tree, spells] at read
  exact read

section
variable (h : AreDigits digits) (nonempty : digits ≠ [])
include h nonempty

private theorem integer?_digits_of_lt (small : Decimal.ofDigits digits < 2 ^ 63) :
    Constant.integer? digits = some (Decimal.ofDigits digits) :=
  (Constant.integer?_digits h nonempty).trans (if_pos small)

private theorem integer?_digits_of_le (large : 2 ^ 63 ≤ Decimal.ofDigits digits) :
    Constant.integer? digits = none :=
  (Constant.integer?_digits h nonempty).trans (if_neg (Nat.not_lt.2 large))

theorem readUnsigned?_digits :
    readUnsigned? digits = some (Decimal.toFloat ⟨Decimal.ofDigits digits, 0⟩) := by
  obtain ⟨c, rest, rfl⟩ := List.exists_cons_of_ne_nil nonempty
  rw [readUnsigned?_digit (h c List.mem_cons_self), Decimal.read?_whole h nonempty]
  rfl

theorem readUnsigned?_pointed :
    readUnsigned? (pointed digits) = some (Decimal.toFloat ⟨10 * Decimal.ofDigits digits, -1⟩) := by
  have reads := read?_pointed h nonempty
  obtain ⟨c, rest, rfl⟩ := List.exists_cons_of_ne_nil nonempty
  have opens : pointed (c :: rest) = c :: pointed rest := rfl
  rw [opens] at reads ⊢
  rw [readUnsigned?_digit (h c List.mem_cons_self), reads]
  rfl

end

theorem ofWord?_of_readUnsigned? {letters : List Char} (noInteger : Constant.integer? letters = none)
    {x : Float} (reads : readUnsigned? letters = some x) :
    Constant.ofWord? letters = some (.number x) := by
  rw [Constant.ofWord?, noInteger]
  dsimp only
  rw [reads]

/-- Both spellings of an integer are one number: the correctly rounded one, which is infinite from
the middle between the largest finite number and the next power of two on. -/
theorem parse_digits (digits : List Char) (areDigits : AreDigits digits)
    (nonempty : digits ≠ []) :
    let value := Decimal.ofDigits digits
    ∃ x : Float,
      parse (String.ofList digits) = .ok (.num x) ∧
      parse (String.ofList (pointed digits)) = .ok (.num x) ∧
      (∃ bits, x.toBits = .ofNat bits ∧ IsNearest value bits ∧
        (bits = infinityBits ↔ (2 ^ 54 - 1) * 2 ^ 970 ≤ (value : ℚ))) ∧
      (value < 2 ^ 63 →
        Constant.integer? digits = some value ∧ x = Float.ofModel (.ofInt64 (.ofNat value))) ∧
      (2 ^ 63 ≤ value →
        Constant.integer? digits = none ∧ readUnsigned? digits = some x) ∧
      Constant.integer? (pointed digits) = none ∧ readUnsigned? (pointed digits) = some x := by
  intro value
  let whole : Decimal := ⟨value, 0⟩
  let point : Decimal := ⟨10 * value, -1⟩
  -- both decimals write the integer, so the same bits are nearest to them
  have nearest := whole.isNearest_nearestBits
  have nearest' := point.isNearest_nearestBits
  rw [value_whole] at nearest
  rw [value_pointed] at nearest'
  have same : point.toFloat = whole.toFloat := congrArg ofMagnitudeBits (nearest'.unique nearest)
  have reads : readUnsigned? digits = some whole.toFloat := readUnsigned?_digits areDigits nonempty
  have reads' : readUnsigned? (pointed digits) = some whole.toFloat :=
    same ▸ readUnsigned?_pointed areDigits nonempty
  have converted : whole.toFloat = ofMagnitudeBits (nearestBits value 1) :=
    congrArg ofMagnitudeBits (Decimal.nearestBits_integer value)
  have noInteger := integer?_pointed areDigits
  have spells : Constant.ofWord? digits = some (.number whole.toFloat) := by
    rcases Nat.lt_or_ge value (2 ^ 63) with small | large
    · rw [Constant.ofWord?_of_integer (integer?_digits_of_lt areDigits nonempty small), converted]
      rfl
    · exact ofWord?_of_readUnsigned? (integer?_digits_of_le areDigits nonempty large) reads
  have spells' := ofWord?_of_readUnsigned? noInteger reads'
  have letters : ∀ c ∈ digits, Glyph.ofChar c = .letter c ∧ c ≠ '"' :=
    fun c mem => letter_digit (areDigits c mem)
  refine ⟨whole.toFloat, parse_letters nonempty letters spells,
    parse_letters (nonempty_pointed digits) (letter_pointed areDigits) spells', ?_, ?_, ?_,
    noInteger, reads'⟩
  · exact ⟨whole.nearestBits, toBits_ofMagnitudeBits nearest.bounded, nearest,
      nearest.eq_infinityBits_iff⟩
  · intro small
    exact ⟨integer?_digits_of_lt areDigits nonempty small,
      converted.trans (ofModel_ofInt64 small).symm⟩
  · intro large
    exact ⟨integer?_digits_of_le areDigits nonempty large, reads⟩

/-- The first integer that is no number, and the first of those that are read as decimals. -/
theorem parse_digits_of_halfway :
    (∃ x, parse "9007199254740993" = .ok (.num x) ∧ parse "9007199254740993.0" = .ok (.num x) ∧
      x.toBits = 0x4340000000000000) ∧
    ∃ x, parse "9223372036854775808" = .ok (.num x) ∧
      parse "9223372036854775808.0" = .ok (.num x) ∧ x.toBits = 0x43e0000000000000 := by
  have nearest : ∀ value bits : Nat, IsNearest value bits → bits = nearestBits value 1 := by
    intro value bits h
    have rounded := isNearest_nearestBits value Nat.one_pos
    rw [Nat.cast_one, div_one] at rounded
    exact h.unique rounded
  constructor
  · obtain ⟨x, whole, point, ⟨bits, same, h, -⟩, -⟩ := parse_digits "9007199254740993".toList
      (List.all_iff_forall_prop.1 (by decide)) (by decide)
    refine ⟨x, whole, point, ?_⟩
    rw [same, nearest _ _ h]
    decide +kernel
  · obtain ⟨x, whole, point, ⟨bits, same, h, -⟩, -⟩ := parse_digits "9223372036854775808".toList
      (List.all_iff_forall_prop.1 (by decide)) (by decide)
    refine ⟨x, whole, point, ?_⟩
    rw [same, nearest _ _ h]
    decide +kernel

end CellFormula.Parsing
