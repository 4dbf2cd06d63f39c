import CellFormula.Proofs.Parsing.Numeral
/-! The text of any number reads back as the number, its sign included. -/
namespace CellFormula.Number

@[simp] theorem readUnsigned?_text {x : Float} (h : IsUnsigned x) :
    readUnsigned? (text x) = some x := by
  obtain rfl | ⟨bits, le, rfl⟩ := h
  · rw [text_nan]
    decide +kernel
  · rw [text_ofMagnitudeBits le]
    split
    · rename_i same
      rw [same]
      decide +kernel
    · rename_i ne
      have finite := exponent_shortest (Nat.lt_of_le_of_ne le ne)
      obtain ⟨c, rest, decimal, opens, digit, reads, same⟩ := Decimal.exists_read?_positional finite
      rw [opens, readUnsigned?_digit digit, reads, Option.map_some, same, Decimal.toFloat,
        Decimal.nearestBits_shortest le]

private theorem readSigned?_of_unsigned {x : Float} (h : IsUnsigned x) :
    readSigned? (text x) = some x := by
  have reads := readUnsigned?_text h
  obtain ⟨-, letters⟩ := letters_text h
  unfold readSigned?
  split
  · rename_i rest opens
    have plus := (letters '+' (by simp [opens])).1
    cases plus
  · rename_i rest opens
    have minus := (letters '-' (by simp [opens])).1
    cases minus
  · exact reads

private theorem text_of_isNegative {x : Float} (number : x.isNaN = false)
    (negative : isNegative x = true) :
    text x = '-' :: text (ofMagnitudeBits (magnitudeBits x)) := by
  rw [text_ofMagnitudeBits (magnitudeBits_le number)]
  simp only [text, number, negative, Bool.false_eq_true, if_false, if_true]

@[simp] theorem readSigned?_text (x : Float) : readSigned? (text x) = some x := by
  cases number : x.isNaN with
  | true =>
    have same : x = nan := by
      rw [Float.isNaN_eq_decide_eq_nan, decide_eq_true_iff] at number
      exact number.trans (by decide +kernel)
    exact readSigned?_of_unsigned (.inl same)
  | false =>
    have magnitude : IsUnsigned (ofMagnitudeBits (magnitudeBits x)) :=
      .inr ⟨_, magnitudeBits_le number, rfl⟩
    have whole := eq_of_magnitude number
    cases negative : isNegative x with
    | false =>
      rw [negative, if_neg Bool.false_ne_true] at whole
      rw [whole]
      exact readSigned?_of_unsigned magnitude
    | true =>
      rw [negative, if_pos rfl] at whole
      rw [text_of_isNegative number negative]
      change (readUnsigned? _).map Float.neg = some x
      rw [readUnsigned?_text magnitude, Option.map_some, ← whole]

end CellFormula.Number
