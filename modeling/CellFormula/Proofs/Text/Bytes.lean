/-! Texts as bytes, which are in the order of the code points: the first byte of a character grows
with the number of its bytes, and among equally many the bytes are digits of the code point. -/
namespace CellFormula.Text

def bytes (text : String) : List UInt8 := text.toUTF8.data.toList

private theorem bytes_eq_flatMap (text : String) :
    bytes text = text.toList.flatMap String.utf8EncodeChar := by
  rw [bytes, String.toUTF8_eq_toByteArray, ← String.utf8Encode_toList, List.utf8Encode,
    List.toList_data_toByteArray]

private theorem cons_lt_of_lt {first second : Nat} (less : first < second) (fits : second < 256)
    (rest tail : List UInt8) : UInt8.ofNat first :: rest < UInt8.ofNat second :: tail := by
  apply List.cons_lt_cons_iff.2
  left
  rw [UInt8.lt_iff_toNat_lt, UInt8.toNat_ofNat', UInt8.toNat_ofNat']
  omega

/-- The digit at a place decides, unless it is the same and the lower places do. -/
private theorem cons_lt_of_digit {code other : Nat} {rest tail : List UInt8}
    (place base offset : Nat) (positive : 0 < place * base) (fits : base + offset ≤ 256)
    (less : code % (place * base) < other % (place * base))
    (lower : code % place < other % place → rest < tail) :
    UInt8.ofNat (code / place % base + offset) :: rest <
      UInt8.ofNat (other / place % base + offset) :: tail := by
  have belowBase : other / place % base < base := Nat.mod_lt _ (Nat.pos_of_mul_pos_left positive)
  have belowPlace : other % place < place := Nat.mod_lt _ (Nat.pos_of_mul_pos_right positive)
  rw [Nat.mod_mul, Nat.mod_mul] at less
  rcases Nat.lt_trichotomy (code / place % base) (other / place % base) with
    smaller | same | greater
  · apply cons_lt_of_lt
    · omega
    · omega
  · rw [same] at less ⊢
    apply List.cons_lt_cons_iff.2
    right
    exact ⟨rfl, lower (Nat.lt_of_add_lt_add_right less)⟩
  · have excess := Nat.mul_le_mul_left place greater
    rw [Nat.mul_succ] at excess
    omega

private theorem utf8EncodeChar_append_lt {c d : Char} (less : c < d) (rest tail : List UInt8) :
    String.utf8EncodeChar c ++ rest < String.utf8EncodeChar d ++ tail := by
  have codes : c.val.toNat < d.val.toNat := less
  have bound : d.val.toNat < 0x110000 := by
    rcases d.valid with low | ⟨_, high⟩
    · exact Nat.lt_trans low (by decide)
    · exact high
  unfold String.utf8EncodeChar
  dsimp only
  generalize c.val.toNat = code at codes ⊢
  generalize d.val.toNat = other at codes bound ⊢
  -- the first byte decides if the second character is longer; it cannot be shorter
  split
  · repeat' split
    all_goals exact cons_lt_of_lt (by omega) (by omega) _ _
  · rw [if_neg (by omega : ¬ other ≤ 0x7f)]
    split
    · split
      · apply cons_lt_of_digit 64 32 0xc0 (by decide) (by decide) (by omega)
        intro last
        exact cons_lt_of_lt (by omega) (by omega) _ _
      · split
        all_goals exact cons_lt_of_lt (by omega) (by omega) _ _
    · rw [if_neg (by omega : ¬ other ≤ 0x7ff)]
      split
      · split
        · apply cons_lt_of_digit 4096 16 0xe0 (by decide) (by decide) (by omega)
          intro lower
          apply cons_lt_of_digit 64 64 0x80 (by decide) (by decide) (by omega)
          intro last
          exact cons_lt_of_lt (by omega) (by omega) _ _
        · exact cons_lt_of_lt (by omega) (by omega) _ _
      · rw [if_neg (by omega : ¬ other ≤ 0xffff)]
        apply cons_lt_of_digit 262144 8 0xf0 (by decide) (by decide) (by omega)
        intro lower
        apply cons_lt_of_digit 4096 64 0x80 (by decide) (by decide) (by omega)
        intro lowest
        apply cons_lt_of_digit 64 64 0x80 (by decide) (by decide) (by omega)
        intro last
        exact cons_lt_of_lt (by omega) (by omega) _ _

theorem flatMap_utf8EncodeChar_lt {chars others : List Char} (less : chars < others) :
    chars.flatMap String.utf8EncodeChar < others.flatMap String.utf8EncodeChar := by
  induction chars generalizing others with
  | nil =>
    cases others with
    | nil => exact absurd less (List.lt_irrefl _)
    | cons d others =>
      obtain ⟨first, rest, encoded⟩ := List.exists_cons_of_ne_nil (@String.utf8EncodeChar_ne_nil d)
      rw [List.flatMap_nil, List.flatMap_cons, encoded]
      exact List.nil_lt_cons _ _
  | cons c chars ih =>
    cases others with
    | nil => exact absurd less (List.not_lt_nil _)
    | cons d others =>
      rw [List.flatMap_cons, List.flatMap_cons]
      rcases List.cons_lt_cons_iff.1 less with first | ⟨rfl, later⟩
      · exact utf8EncodeChar_append_lt first _ _
      · exact List.append_left_lt (ih later)

theorem bytes_lt_of_lt {text other : String} (less : text < other) : bytes text < bytes other := by
  rw [bytes_eq_flatMap, bytes_eq_flatMap]
  exact flatMap_utf8EncodeChar_lt less

end CellFormula.Text
