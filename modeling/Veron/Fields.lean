/-
Words put together from bit fields.  Where the bits of a word are clear, or-ing
a field in is adding it.
-/
import Mathlib.Data.Nat.Bitwise
import Veron.Word

namespace Veron

variable {w : ℕ}

/-- Bits `k, ..., k + m - 1` of a word, as a number. -/
def field (x : BitVec w) (k m : ℕ) : ℕ := x.toNat / 2 ^ k % 2 ^ m

/-- The same bits as a two's complement number. -/
def signedField (x : BitVec w) (k m : ℕ) : ℤ := Int.bmod (field x k m) (2 ^ m)

theorem or_mul_two_pow {a b k m : ℕ} (ha : a / 2 ^ k % 2 ^ m = 0)
    (hb : b < 2 ^ m) : a ||| b * 2 ^ k = a + b * 2 ^ k := by
  have hpos : 0 < 2 ^ k := Nat.two_pow_pos k
  have hlow : a % 2 ^ k < 2 ^ k := Nat.mod_lt a hpos
  have hsplit : 2 ^ (k + m) * (a / 2 ^ k / 2 ^ m) + a % 2 ^ k = a := by
    have hhigh := Nat.div_add_mod (a / 2 ^ k) (2 ^ m)
    rw [ha, Nat.add_zero] at hhigh
    rw [pow_add, Nat.mul_assoc, hhigh]
    exact Nat.div_add_mod a (2 ^ k)
  have hmid : 2 ^ k * b + a % 2 ^ k < 2 ^ (k + m) := by
    have hstep : 2 ^ k * (b + 1) ≤ 2 ^ k * 2 ^ m := Nat.mul_le_mul_left _ hb
    rw [Nat.mul_add, Nat.mul_one] at hstep
    rw [pow_add]
    omega
  have hlo : 2 ^ (k + m) * (a / 2 ^ k / 2 ^ m) + a % 2 ^ k =
      2 ^ (k + m) * (a / 2 ^ k / 2 ^ m) ||| a % 2 ^ k :=
    Nat.two_pow_add_eq_or_of_lt (by omega) _
  calc a ||| b * 2 ^ k
      = 2 ^ (k + m) * (a / 2 ^ k / 2 ^ m) ||| (2 ^ k * b ||| a % 2 ^ k) := by
        rw [Nat.or_comm (2 ^ k * b), ← Nat.or_assoc, ← hlo, hsplit, Nat.mul_comm b]
    _ = 2 ^ (k + m) * (a / 2 ^ k / 2 ^ m) + (2 ^ k * b + a % 2 ^ k) := by
        rw [← Nat.two_pow_add_eq_or_of_lt hlow, ← Nat.two_pow_add_eq_or_of_lt hmid]
    _ = a + b * 2 ^ k := by
        rw [Nat.mul_comm b]
        omega

/-- A field or-ed in at a place that is clear. -/
theorem toNat_or_shiftLeft {x y : BitVec w} {k m : ℕ} (hx : field x k m = 0)
    (hy : y.toNat < 2 ^ m) (hk : k + m ≤ w) :
    (x ||| y <<< k).toNat = x.toNat + y.toNat * 2 ^ k := by
  have hfit : y.toNat * 2 ^ k < 2 ^ w := by
    calc y.toNat * 2 ^ k < 2 ^ m * 2 ^ k :=
          Nat.mul_lt_mul_of_pos_right hy (Nat.two_pow_pos k)
      _ = 2 ^ (k + m) := by rw [← pow_add, Nat.add_comm]
      _ ≤ 2 ^ w := Nat.pow_le_pow_right Nat.two_pos hk
  rw [BitVec.toNat_or, toNat_shiftLeft_of_lt hfit, or_mul_two_pow hx hy]

/-- A field or-ed in at the bottom. -/
theorem toNat_or_low {x y : BitVec w} {m : ℕ} (hx : field x 0 m = 0)
    (hy : y.toNat < 2 ^ m) : (x ||| y).toNat = x.toNat + y.toNat := by
  have h := or_mul_two_pow (k := 0) hx hy
  rw [BitVec.toNat_or]
  simpa only [pow_zero, Nat.mul_one] using h

theorem toNat_and_mask (x : BitVec w) {m : ℕ} {mask : BitVec w}
    (hmask : mask.toNat = 2 ^ m - 1) : (x &&& mask).toNat = x.toNat % 2 ^ m := by
  rw [BitVec.toNat_and, hmask, Nat.and_two_pow_sub_one_eq_mod]

end Veron
