/-! Nearest binary64 numbers of nonnegative rationals, in units of `2 ^ (-1074)`. With `places`
binary places dropped, the bits of a magnitude are `places * 2 ^ 52` plus the rounded significand,
whose implicit bit carries into the exponent field. -/
namespace CellFormula.Number

/-- The integer nearest to `num / den`; a tie goes to the even neighbour. -/
def roundHalfEven (num den : Nat) : Nat :=
  let quotient := num / den
  match compare (2 * (num % den)) den with
  | .lt => quotient
  | .eq => quotient + quotient % 2
  | .gt => quotient + 1

/-- The bits of positive infinity, which follow those of the largest finite number. -/
def infinityBits : Nat := 0x7ff <<< 52

def nearestBits (num den : Nat) : Nat :=
  let units := num <<< 1074
  let places := (units / den).log2 - 52
  min ((places <<< 52) + roundHalfEven units (den <<< places)) infinityBits

/-- The size of a finite magnitude in units of `2 ^ (-1074)`. -/
def unitsOfBits (bits : Nat) : Nat :=
  let field := bits >>> 52
  let fraction := bits % (1 <<< 52)
  if field = 0 then fraction else ((1 <<< 52) + fraction) <<< (field - 1)

def magnitudeBits (x : Float) : Nat := x.toBits.toNat % (1 <<< 63)

def isNegative (x : Float) : Bool := x.toBits.toNat ≥ 1 <<< 63

def ofMagnitudeBits (bits : Nat) : Float := Float.ofBits (.ofNat bits)

def infinity : Float := ofMagnitudeBits infinityBits

def nan : Float := ofMagnitudeBits (infinityBits + (1 <<< 51))

theorem nearestBits_le (num den : Nat) : nearestBits num den ≤ infinityBits :=
  Nat.min_le_right ..

theorem roundHalfEven_mul_left (factor num den : Nat) (positive : 0 < factor) :
    roundHalfEven (factor * num) (factor * den) = roundHalfEven num den := by
  unfold roundHalfEven
  rw [Nat.mul_div_mul_left _ _ positive, Nat.mul_mod_mul_left]
  have order : compare (2 * (factor * (num % den))) (factor * den) =
      compare (2 * (num % den)) den := by
    rw [Nat.mul_left_comm]
    simp only [Nat.compare_eq_ite_lt, Nat.mul_lt_mul_left positive]
  rw [order]

theorem nearestBits_mul_left (factor num den : Nat) (positive : 0 < factor) :
    nearestBits (factor * num) (factor * den) = nearestBits num den := by
  unfold nearestBits
  simp only [Nat.shiftLeft_eq, Nat.mul_assoc, Nat.mul_div_mul_left _ _ positive,
    roundHalfEven_mul_left _ _ _ positive]

end CellFormula.Number
