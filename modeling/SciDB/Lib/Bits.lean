import Mathlib

/-!
# Smearing bits

Or-ing a number with itself shifted right by 1, 2, 4, ... copies its highest set
bit into every lower position.  Each step doubles the window of bits that a
result bit has looked at; a window as wide as the number gives the next power of
two minus one.
-/

namespace SciDB.Bits

/-- Every bit of `r` says whether one of the `w` bits of `x` from there on is set. -/
def Window (w r x : Nat) : Prop :=
  ∀ i, r.testBit i = true ↔ ∃ j, i ≤ j ∧ j < i + w ∧ x.testBit j = true

theorem window_one (x : Nat) : Window 1 x x := by
  intro i
  constructor
  · intro h
    exact ⟨i, le_rfl, by omega, h⟩
  · rintro ⟨j, hij, hji, h⟩
    rwa [show i = j by omega]

/-- One shift by the width of the window doubles it. -/
theorem Window.double {w r x : Nat} (h : Window w r x) : Window (2 * w) (r ||| r >>> w) x := by
  intro i
  rw [Nat.testBit_or, Nat.testBit_shiftRight, Bool.or_eq_true, h, h]
  constructor
  · rintro (⟨j, hij, hji, hj⟩ | ⟨j, hij, hji, hj⟩)
    · exact ⟨j, hij, by omega, hj⟩
    · exact ⟨j, by omega, by omega, hj⟩
  · rintro ⟨j, hij, hji, hj⟩
    by_cases hlt : j < i + w
    · exact .inl ⟨j, hij, hlt, hj⟩
    · exact .inr ⟨j, by omega, by omega, hj⟩

/-- A window that sees all bits turns a number into a block of ones. -/
theorem Window.eq_two_pow_sub_one {w r x : Nat} (h : Window w r x) (hx : x < 2 ^ w) :
    r = 2 ^ x.size - 1 := by
  apply Nat.eq_of_testBit_eq
  intro i
  rw [Nat.testBit_two_pow_sub_one, Bool.eq_iff_iff, h, decide_eq_true_eq, Nat.lt_size]
  constructor
  · rintro ⟨j, hij, _, hj⟩
    exact (Nat.pow_le_pow_right (by norm_num) hij).trans (Nat.ge_two_pow_of_testBit hj)
  · intro hle
    rcases Nat.exists_ge_and_testBit_of_ge_two_pow hle with ⟨j, hij, hj⟩
    have hjw : j < w := by
      by_contra hge
      have := Nat.ge_two_pow_of_testBit hj
      have := Nat.pow_le_pow_right (n := 2) (by norm_num) (Nat.le_of_not_lt hge)
      omega
    exact ⟨j, hij, by omega, hj⟩

end SciDB.Bits
