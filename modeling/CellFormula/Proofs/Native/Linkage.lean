import CellFormula.Native.Generator
import Mathlib.Data.List.Basic
/-! Symbols of cells, and drafts whose registry resolves every slot to its own cell. -/
namespace CellFormula.Native

private theorem digitChar_injective {a b : Nat} (ha : a < 16) (hb : b < 16)
    (h : Nat.digitChar a = Nat.digitChar b) : a = b := by
  have all : ∀ i j : Fin 16, Nat.digitChar i.val = Nat.digitChar j.val → i = j := by decide
  exact congrArg Fin.val (all ⟨a, ha⟩ ⟨b, hb⟩ h)

/-- The hexadecimal digits of a number determine it, for no number has leading zeros. -/
private theorem toDigits_sixteen_injective {a b : Nat} (h : Nat.toDigits 16 a = Nat.toDigits 16 b) :
    a = b := by
  induction a using Nat.strongRecOn generalizing b with
  | ind a ih =>
    rw [Nat.toDigits_eq_if (by decide), Nat.toDigits_eq_if (n := b) (by decide)] at h
    split at h <;> split at h
    · exact digitChar_injective ‹_› ‹_› (List.singleton_inj.1 h)
    · simp [List.singleton_eq_append_iff] at h
    · simp [List.append_eq_singleton_iff] at h
    · obtain ⟨front, last⟩ := List.append_inj' h rfl
      have quotient : a / 16 = b / 16 := ih (a / 16) (by omega) front
      have remainder : a % 16 = b % 16 :=
        digitChar_injective (Nat.mod_lt _ (by decide)) (Nat.mod_lt _ (by decide))
          (List.singleton_inj.1 last)
      omega

theorem slotSymbol_injective {a b : Fin n} (h : slotSymbol a = slotSymbol b) : a = b := by
  have digits := congrArg String.toList h
  simp only [slotSymbol, String.toList_append, String.toList_ofList] at digits
  exact Fin.ext (toDigits_sixteen_injective (List.append_cancel_left digits))

end CellFormula.Native
