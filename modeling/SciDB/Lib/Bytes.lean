import Mathlib

/-!
# Little-endian bytes

Numbers of a fixed width as lists of bytes, least significant byte first, and
reads of a byte range out of a file.
-/

namespace SciDB.Bytes

/-- There are numbers of seven bits. -/
instance neZero_128 : NeZero 128 := ⟨by decide⟩

/-- The lowest `w` bytes of a number. -/
def le : (w : Nat) → (n : Nat) → List UInt8
  | 0, _ => []
  | w + 1, n => UInt8.ofNat n :: le w (n / 256)

/-- The number that bytes stand for. -/
def ofLe : List UInt8 → Nat
  | [] => 0
  | b :: bs => b.toNat + 256 * ofLe bs

@[simp]
theorem length_le (w n : Nat) : (le w n).length = w := by
  induction w generalizing n with
  | zero => rfl
  | succ w ih => simp [le, ih]

theorem ofLe_le (w n : Nat) : ofLe (le w n) = n % 256 ^ w := by
  induction w generalizing n with
  | zero => simp [le, ofLe, Nat.mod_one]
  | succ w ih =>
    have hbyte : (UInt8.ofNat n).toNat = n % 256 := by simp
    rw [le, ofLe, ih, hbyte, pow_succ, Nat.mul_comm (256 ^ w), Nat.mod_mul]

theorem ofLe_le_of_lt {w n : Nat} (h : n < 256 ^ w) : ofLe (le w n) = n := by
  rw [ofLe_le, Nat.mod_eq_of_lt h]

/-- The `len` bytes from position `off` on. -/
def slice (bytes : List UInt8) (off len : Nat) : List UInt8 :=
  (bytes.drop off).take len

/-- A slice of the middle part of a byte string. -/
theorem slice_mid {a b c : List UInt8} {off len : Nat} (hoff : a.length = off)
    (hlen : b.length = len) : slice (a ++ (b ++ c)) off len = b := by
  subst hoff hlen
  simp [slice]

end SciDB.Bytes
