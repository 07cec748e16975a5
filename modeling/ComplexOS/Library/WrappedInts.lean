import Mathlib.Algebra.Order.Ring.Int

/-! # Integers that wrap around

Two's complement arithmetic on 32 bits: the integer that is congruent modulo `2^32` and lies
between `-2^31` and `2^31`.
-/
namespace ComplexOS.WrappedInts

def wrap (x : ℤ) : ℤ := Int.bmod x (2^32)

/-- The integers that an `int` has room for. -/
def Fits (x : ℤ) : Prop := -2^31 ≤ x ∧ x < 2^31

instance (x : ℤ) : Decidable (Fits x) := inferInstanceAs (Decidable (_ ∧ _))

variable {x y : ℤ}

theorem Fits.wrap_eq (h : Fits x) : wrap x = x := by
  obtain ⟨hlo,hhi⟩ := h
  exact Int.bmod_eq_of_le (by omega) (by omega)

end ComplexOS.WrappedInts
