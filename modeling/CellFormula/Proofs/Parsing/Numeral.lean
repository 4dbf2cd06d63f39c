import CellFormula.Parsing.Token
import CellFormula.Proofs.Number.Bits
import CellFormula.Proofs.Number.Shortest
/-! Numerals: the text of a number that has no sign is one word, and the word spells that number. -/
namespace CellFormula

def AreDigits (chars : List Char) : Prop := ∀ c ∈ chars, c.isDigit = true

private theorem mem_digits {c : Char} (h : c.isDigit = true) : c ∈ "0123456789".toList := by
  have bounds : 48 ≤ c.toNat ∧ c.toNat ≤ 57 := by
    simpa [Char.isDigit, UInt32.le_iff_toNat_le] using h
  have value : c = Char.ofNat c.toNat := (Char.ofNat_toNat c).symm
  obtain ⟨low, high⟩ := bounds
  rw [value]
  generalize c.toNat = code at low high
  have cases : code = 48 ∨ code = 49 ∨ code = 50 ∨ code = 51 ∨ code = 52 ∨ code = 53 ∨
    code = 54 ∨ code = 55 ∨ code = 56 ∨ code = 57 := by omega
  rcases cases with rfl | rfl | rfl | rfl | rfl | rfl | rfl | rfl | rfl | rfl <;> decide

theorem AreDigits.append {first last : List Char} (h : AreDigits first) (h' : AreDigits last) :
    AreDigits (first ++ last) :=
  List.forall_mem_append.2 ⟨h, h'⟩

namespace Decimal

private theorem areDigits_toDigits (n : Nat) : AreDigits (Nat.toDigits 10 n) :=
  fun _ mem => Nat.isDigit_of_mem_toDigits (by decide) (by decide) mem

theorem areDigits_zeros (count : Nat) : AreDigits (List.replicate count '0') := by
  intro c mem
  rw [List.eq_of_mem_replicate mem]
  decide

@[simp] theorem ofDigits_append_zeros (digits : List Char) (count : Nat) :
    ofDigits (digits ++ List.replicate count '0') = Nat.pow 10 count * ofDigits digits :=
  (Nat.ofDigitChars_append 0).trans Nat.ofDigitChars_replicate_zero

private theorem ofDigits_zeros_append (count : Nat) (digits : List Char) :
    ofDigits (List.replicate count '0' ++ digits) = ofDigits digits := by
  have zeros : Nat.ofDigitChars 10 (List.replicate count '0') 0 = 0 :=
    Nat.ofDigitChars_replicate_zero
  exact (Nat.ofDigitChars_append 0).trans (congrArg (Nat.ofDigitChars 10 digits) zeros)

theorem takeWhile_digits {digits : List Char} (h : AreDigits digits) (rest : List Char)
    (stops : ∀ c, rest.head? = some c → c.isDigit = false) :
    (digits ++ rest).takeWhile Char.isDigit = digits ∧
      (digits ++ rest).dropWhile Char.isDigit = rest := by
  rw [List.takeWhile_append_of_pos h, List.dropWhile_append_of_pos h]
  cases rest with
  | nil => simp
  | cons c rest =>
    have stop := stops c rfl
    simp [stop]

theorem read?_whole {digits : List Char} (h : AreDigits digits) (nonempty : digits ≠ []) :
    read? digits = some ⟨ofDigits digits, 0⟩ := by
  obtain ⟨whole, rest⟩ := takeWhile_digits h [] nofun
  rw [List.append_nil] at whole rest
  simp [read?, whole, rest, splitFraction, readExponent?, nonempty]

theorem read?_point {whole fraction : List Char} (h : AreDigits whole) (nonempty : whole ≠ [])
    (h' : AreDigits fraction) :
    read? (whole ++ '.' :: fraction) =
      some ⟨ofDigits (whole ++ fraction), -(fraction.length : Int)⟩ := by
  have point : ∀ c, ('.' :: fraction).head? = some c → c.isDigit = false := by
    rintro c ⟨⟩
    decide
  obtain ⟨before, behind⟩ := takeWhile_digits h _ point
  obtain ⟨digits, none⟩ := takeWhile_digits h' [] nofun
  rw [List.append_nil] at digits none
  simp [read?, before, behind, splitFraction, digits, none, readExponent?, nonempty]

inductive Positional (d : Decimal) : Prop
  | whole {digits : List Char} (isWhole : 0 ≤ d.exponent) (text : d.positional = digits)
      (areDigits : AreDigits digits) (nonempty : digits ≠ [])
      (value : ofDigits digits = d.coefficient * Nat.pow 10 d.exponent.toNat)
  | point {whole fraction : List Char} (text : d.positional = whole ++ '.' :: fraction)
      (areDigits : AreDigits (whole ++ fraction)) (nonempty : whole ≠ [])
      (value : ofDigits (whole ++ fraction) = d.coefficient)
      (places : -(fraction.length : Int) = d.exponent)

private theorem positional_cases (d : Decimal) : d.Positional := by
  have areDigits := areDigits_toDigits d.coefficient
  have value : ofDigits (Nat.toDigits 10 d.coefficient) = d.coefficient :=
    Nat.ofDigitChars_ten_toDigits
  have nonempty : Nat.toDigits 10 d.coefficient ≠ [] := Nat.toDigits_ne_nil
  have text := positional.eq_def d
  dsimp only at text
  generalize Nat.toDigits 10 d.coefficient = digits at areDigits value nonempty text
  split at text
  · rename_i isWhole
    refine .whole isWhole text (areDigits.append (areDigits_zeros _)) (by simp [nonempty]) ?_
    rw [ofDigits_append_zeros, value, Nat.mul_comm]
  · rename_i notWhole
    split at text
    · rename_i few
      have all := List.take_append_drop (digits.length - (-d.exponent).toNat) digits
      refine .point text ?_ ?_ ?_ ?_
      · rw [all]
        exact areDigits
      · rw [Ne, List.take_eq_nil_iff]
        rintro (none | none)
        · omega
        · exact nonempty none
      · rw [all, value]
      · rw [List.length_drop]
        omega
    · rename_i many
      let zeros := (-d.exponent).toNat - digits.length
      refine .point text ?_ (List.cons_ne_nil '0' []) ?_ ?_
      · exact (areDigits_zeros (zeros + 1)).append areDigits
      · exact (ofDigits_zeros_append (zeros + 1) digits).trans value
      · rw [List.length_append, List.length_replicate]
        omega

private theorem nearestBits_whole {d : Decimal} (isWhole : 0 ≤ d.exponent)
    (finite : d.exponent < 310) :
    d.nearestBits = Number.nearestBits (d.coefficient * Nat.pow 10 d.exponent.toNat) 1 := by
  unfold Decimal.nearestBits
  split
  · rename_i zero
    rw [zero, Nat.zero_mul]
    decide
  · rename_i nonzero
    have none : (-d.exponent).toNat = 0 := by omega
    rw [if_neg (by omega), if_neg (by omega), none]

@[simp] theorem nearestBits_integer (value : Nat) :
    (⟨value, 0⟩ : Decimal).nearestBits = Number.nearestBits value 1 := by
  have bits := @nearestBits_whole ⟨value, 0⟩ (Int.le_refl 0) (by decide : (0 : Int) < 310)
  exact bits.trans (congrArg (Number.nearestBits · 1) (Nat.mul_one value))

theorem exists_read?_positional {d : Decimal} (finite : d.exponent < 310) :
    ∃ c rest decimal, d.positional = c :: rest ∧ c.isDigit = true ∧
      read? (c :: rest) = some decimal ∧ decimal.toFloat = d.toFloat := by
  cases d.positional_cases with
  | @whole digits isWhole text areDigits nonempty value =>
    obtain ⟨c, rest, opens⟩ := List.exists_cons_of_ne_nil nonempty
    refine ⟨c, rest, ⟨ofDigits digits, 0⟩, text.trans opens, areDigits c (by simp [opens]), ?_, ?_⟩
    · rw [← opens]
      exact read?_whole areDigits nonempty
    · rw [toFloat, nearestBits_integer, value, ← nearestBits_whole isWhole finite, toFloat]
  | @point whole fraction text areDigits nonempty value places =>
    obtain ⟨first, last⟩ := List.forall_mem_append.1 areDigits
    obtain ⟨c, rest, opens⟩ := List.exists_cons_of_ne_nil nonempty
    have reads := read?_point first nonempty last
    rw [value, places, opens] at reads
    exact ⟨c, rest ++ '.' :: fraction, d, by rw [text, opens]; rfl, first c (by simp [opens]),
      reads, rfl⟩

end Decimal

namespace Number

theorem readUnsigned?_digit {c : Char} (digit : c.isDigit = true) (rest : List Char) :
    readUnsigned? (c :: rest) = (Decimal.read? (c :: rest)).map Decimal.toFloat := by
  have noWord : c.toLower ≠ 'i' ∧ c.toLower ≠ 'n' := by
    have all : ∀ c ∈ "0123456789".toList, c.toLower ≠ 'i' ∧ c.toLower ≠ 'n' :=
      List.all_iff_forall_prop.1 (by decide)
    exact all c (mem_digits digit)
  unfold readUnsigned?
  dsimp only
  rw [if_neg, if_neg]
  · intro same
    exact noWord.2 (List.cons.inj same).1
  · rintro (same | same)
    · exact noWord.1 (List.cons.inj same).1
    · exact noWord.1 (List.cons.inj same).1

end Number

namespace Parsing.Constant

theorem integer?_decimal {letters : List Char} (h : 'x' ∉ letters) :
    integer? letters = integer?.bounded letters Char.isDigit (Decimal.ofDigits letters) := by
  unfold integer?
  split
  · exact absurd (by simp) h
  · rfl

theorem integer?_digits {digits : List Char} (h : AreDigits digits) (nonempty : digits ≠ []) :
    integer? digits =
      if Decimal.ofDigits digits < 1 <<< 63 then some (Decimal.ofDigits digits) else none := by
  have noMark : 'x' ∉ digits := fun mem => absurd (h _ mem) (by decide)
  have all : digits.all Char.isDigit = true := List.all_eq_true.2 h
  rw [integer?_decimal noMark, integer?.bounded]
  simp only [ne_eq, nonempty, not_false_eq_true, all, true_and]

theorem integer?_point {whole fraction : List Char} (h : AreDigits (whole ++ fraction)) :
    integer? (whole ++ '.' :: fraction) = none := by
  have noMark : 'x' ∉ whole ++ '.' :: fraction := by
    have digits : 'x' ∉ whole ++ fraction := fun mem => absurd (h _ mem) (by decide)
    simpa using digits
  rw [integer?_decimal noMark, integer?.bounded, if_neg]
  rintro ⟨-, all, -⟩
  have point := List.all_eq_true.1 all '.' (by simp)
  cases point

theorem ofWord?_of_integer {letters : List Char} {value : Nat}
    (h : integer? letters = some value) : ofWord? letters = some (ofInteger value) := by
  rw [ofWord?, h]

theorem ofWord?_of_decimal {letters : List Char} (noInteger : integer? letters = none)
    {c : Char} {rest : List Char} (opens : letters = c :: rest) (digit : c.isDigit = true)
    {d : Decimal} (h : Decimal.read? letters = some d) :
    ofWord? letters = some (.number d.toFloat) := by
  have reads : Number.readUnsigned? letters = some d.toFloat := by
    subst opens
    rw [Number.readUnsigned?_digit digit, h]
    rfl
  rw [ofWord?, noInteger]
  dsimp only
  rw [reads]

theorem ofWord?_positional {d : Decimal} (finite : d.exponent < 310) :
    ofWord? d.positional = some (.number d.toFloat) := by
  obtain ⟨c, rest, decimal, opens, digit, reads, same⟩ := d.exists_read?_positional finite
  cases integer : integer? d.positional with
  | none => rw [ofWord?_of_decimal integer opens digit (opens ▸ reads), same]
  | some written =>
    rw [ofWord?_of_integer integer, ofInteger]
    -- only digits alone are an integer
    cases d.positional_cases with
    | whole isWhole text areDigits nonempty value =>
      rw [text, integer?_digits areDigits nonempty, value] at integer
      split at integer
      · cases integer
        rw [← d.nearestBits_whole isWhole finite, Decimal.toFloat]
      · cases integer
    | point text areDigits nonempty value places =>
      rw [text, integer?_point areDigits] at integer
      cases integer

end Parsing.Constant

namespace Number
open Parsing

/-- The numbers that words spell: those without a sign, and NaN. -/
def IsUnsigned (x : Float) : Prop := x = nan ∨ ∃ bits ≤ infinityBits, x = ofMagnitudeBits bits

theorem nearestBits_decimal_le (d : Decimal) : d.nearestBits ≤ infinityBits := by
  unfold Decimal.nearestBits
  split
  · exact Nat.zero_le _
  · split
    · exact Nat.le_refl _
    · split
      · exact Nat.zero_le _
      · exact nearestBits_le _ _

theorem isUnsigned_readUnsigned? {chars : List Char} {x : Float}
    (h : readUnsigned? chars = some x) : IsUnsigned x := by
  unfold readUnsigned? at h
  dsimp only at h
  split at h
  · cases h
    exact .inr ⟨infinityBits, Nat.le_refl _, rfl⟩
  · split at h
    · cases h
      exact .inl rfl
    · obtain ⟨d, -, rfl⟩ := Option.map_eq_some_iff.1 h
      exact .inr ⟨d.nearestBits, nearestBits_decimal_le d, rfl⟩

theorem isUnsigned_ofWord? {letters : List Char} {x : Float}
    (h : Constant.ofWord? letters = some (.number x)) : IsUnsigned x := by
  unfold Constant.ofWord? at h
  split at h
  · cases h
    exact .inr ⟨_, nearestBits_le _ _, rfl⟩
  · split at h
    · rename_i reads
      cases h
      exact isUnsigned_readUnsigned? reads
    · split at h
      · cases h
      · split at h
        · cases h
        · cases h

theorem isUnsigned_ofSignedExponent? {letters digits : List Char} {sign : Mark} {x : Float}
    (h : Constant.ofSignedExponent? letters sign digits = some (.number x)) : IsUnsigned x := by
  unfold Constant.ofSignedExponent? at h
  split at h
  · obtain ⟨value, reads, same⟩ := Option.map_eq_some_iff.1 h
    cases same
    exact isUnsigned_readUnsigned? reads
  · cases h

theorem exponent_shortest {bits : Nat} (finite : bits < infinityBits) :
    (Decimal.shortest bits).exponent < 310 := by
  have reads := Decimal.nearestBits_shortest (Nat.le_of_lt finite)
  by_cases zero : bits = 0
  · rw [zero]
    decide
  · refine Int.not_le.1 fun large => ?_
    unfold Decimal.nearestBits at reads
    split at reads
    · exact zero reads.symm
    · omega

@[simp] theorem text_nan : text nan = "NaN".toList := by
  have isNaN : nan.isNaN = true := by decide +kernel
  rw [text, if_pos isNaN]

theorem text_ofMagnitudeBits {bits : Nat} (h : bits ≤ infinityBits) :
    text (ofMagnitudeBits bits) =
      if bits = infinityBits then "inf".toList else (Decimal.shortest bits).positional := by
  simp only [text, isNaN_ofMagnitudeBits h, isNegative_ofMagnitudeBits h,
    magnitudeBits_ofMagnitudeBits h, Bool.false_eq_true, if_false]

theorem ofWord?_text {x : Float} (h : IsUnsigned x) :
    Constant.ofWord? (text x) = some (.number x) := by
  obtain rfl | ⟨bits, le, rfl⟩ := h
  · rw [text_nan]
    decide +kernel
  · rw [text_ofMagnitudeBits le]
    split
    · rename_i same
      rw [same]
      decide +kernel
    · rename_i ne
      have finite : bits < infinityBits := Nat.lt_of_le_of_ne le ne
      rw [Constant.ofWord?_positional (exponent_shortest finite), Decimal.toFloat,
        Decimal.nearestBits_shortest le]

theorem letter_digit {c : Char} (digit : c.isDigit = true) :
    Glyph.ofChar c = .letter c ∧ c ≠ '"' := by
  have all : ∀ c ∈ "0123456789".toList, Glyph.ofChar c = .letter c ∧ c ≠ '"' :=
    List.all_iff_forall_prop.1 (by decide)
  exact all c (mem_digits digit)

private theorem letters_positional (d : Decimal) :
    d.positional ≠ [] ∧ ∀ c ∈ d.positional, Glyph.ofChar c = .letter c ∧ c ≠ '"' := by
  cases d.positional_cases with
  | whole isWhole text areDigits nonempty value =>
    rw [text]
    exact ⟨nonempty, fun c mem => letter_digit (areDigits c mem)⟩
  | point text areDigits nonempty value places =>
    obtain ⟨first, last⟩ := List.forall_mem_append.1 areDigits
    rw [text, List.forall_mem_append, List.forall_mem_cons]
    refine ⟨by simp, fun c mem => letter_digit (first c mem), by decide, ?_⟩
    exact fun c mem => letter_digit (last c mem)

theorem letters_text {x : Float} (h : IsUnsigned x) :
    text x ≠ [] ∧ ∀ c ∈ text x, Glyph.ofChar c = .letter c ∧ c ≠ '"' := by
  obtain rfl | ⟨bits, le, rfl⟩ := h
  · rw [text_nan]
    exact ⟨by decide, List.all_iff_forall_prop.1 (by decide)⟩
  · rw [text_ofMagnitudeBits le]
    split
    · exact ⟨by decide, List.all_iff_forall_prop.1 (by decide)⟩
    · exact letters_positional _

end Number
end CellFormula
