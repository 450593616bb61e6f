import Mathlib.Data.Int.Basic
import Mathlib.Tactic.Ring

/-!
# The type `Int`

An `Int` of the source has 64 bits, and a sum or product that does not fit is wrapped. The functions here are
for the places where that decides a result.
-/

namespace Tidal

/-- The numbers of the type `Int`. -/
def FitsInt (z : ℤ) : Prop := -2 ^ 63 ≤ z ∧ z < 2 ^ 63

instance (z : ℤ) : Decidable (FitsInt z) := inferInstanceAs (Decidable (_ ∧ _))

namespace MachineInt

/-- The `Int` with the same 64 bits. -/
def wrap (z : ℤ) : ℤ := Int.bmod z (2 ^ 64)

/-- `(+) :: Int -> Int -> Int`. -/
def add (x y : ℤ) : ℤ := wrap (x + y)

/-- `(-) :: Int -> Int -> Int`. -/
def sub (x y : ℤ) : ℤ := wrap (x - y)

/-- `(*) :: Int -> Int -> Int`. -/
def mul (x y : ℤ) : ℤ := wrap (x * y)

end MachineInt

section FitsInt

variable {x y z : ℤ}

theorem FitsInt.bmod_eq (h : FitsInt z) : Int.bmod z (2 ^ 64) = z := by
  obtain ⟨h1, h2⟩ := h
  exact Int.bmod_eq_of_le_mul_two (by push_cast; omega) (by push_cast; omega)

theorem FitsInt.between (hx : FitsInt x) (hz : FitsInt z) (h1 : x ≤ y) (h2 : y ≤ z) : FitsInt y :=
  ⟨hx.1.trans h1, h2.trans_lt hz.2⟩

end FitsInt

namespace MachineInt

variable {x y z : ℤ}

theorem fitsInt_wrap (z : ℤ) : FitsInt (wrap z) := by
  have h1 := Int.le_bmod (x := z) (m := 2 ^ 64) (by decide)
  have h2 := Int.bmod_lt (x := z) (m := 2 ^ 64) (by decide)
  refine ⟨?_, ?_⟩
  · rw [wrap]
    omega
  · rw [wrap]
    omega

@[simp] theorem wrap_eq_iff : wrap z = z ↔ FitsInt z :=
  ⟨fun h => h ▸ fitsInt_wrap z, FitsInt.bmod_eq⟩

theorem add_eq_iff : add x y = x + y ↔ FitsInt (x + y) := wrap_eq_iff

end MachineInt

end Tidal
