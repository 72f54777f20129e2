/-
Machine words of the runtime: 64-bit unsigned longs, their 32-bit halves, and
the bit-counting loop the arithmetic below uses on them.
-/
import Mathlib.Data.Nat.Size
import Mathlib.Tactic.Ring

namespace Veron

abbrev ULong := BitVec 64

/-- An `unsigned int`. -/
abbrev UInt := BitVec 32

def lowMask : ULong := 0xffffffff

variable {w : ℕ}

/-- The number of shifts that empty `t`. -/
def bitLength (t : BitVec w) : ℕ :=
  if h : t = 0 then 0 else bitLength (t >>> 1) + 1
termination_by t.toNat
decreasing_by
  have hpos : t.toNat ≠ 0 := fun h' => h (BitVec.eq_of_toNat_eq (by simpa using h'))
  rw [BitVec.toNat_ushiftRight, Nat.shiftRight_eq_div_pow]
  omega

theorem toNat_shiftRight (t : BitVec w) (j : ℕ) :
    (t >>> j).toNat = t.toNat / 2 ^ j := by
  rw [BitVec.toNat_ushiftRight, Nat.shiftRight_eq_div_pow]

theorem toNat_shiftLeft_of_lt {t : BitVec w} {j : ℕ}
    (h : t.toNat * 2 ^ j < 2 ^ w) : (t <<< j).toNat = t.toNat * 2 ^ j := by
  rw [BitVec.toNat_shiftLeft, Nat.shiftLeft_eq, Nat.mod_eq_of_lt h]

theorem toNat_ne_zero {t : BitVec w} (h : t ≠ 0) : t.toNat ≠ 0 :=
  fun h' => h (BitVec.eq_of_toNat_eq (by simpa using h'))

theorem low_half_toNat (t : ULong) : (t &&& lowMask).toNat = t.toNat % 2 ^ 32 := by
  rw [BitVec.toNat_and]
  exact Nat.and_two_pow_sub_one_eq_mod _ 32

theorem low_bit_ne_zero_iff (t : BitVec w) (hw : 0 < w) : t &&& 1 ≠ 0 ↔ t.toNat % 2 = 1 := by
  have hone : (1#w).toNat = 1 := by
    rw [BitVec.toNat_ofNat, Nat.mod_eq_of_lt (Nat.one_lt_two_pow (by omega))]
  have hand : (t &&& 1).toNat = t.toNat % 2 := by
    rw [BitVec.toNat_and]
    change t.toNat &&& (1#w).toNat = _
    rw [hone, Nat.and_one_is_mod]
  rw [ne_eq, ← BitVec.toNat_inj, hand]
  change ¬ _ = (0#w).toNat ↔ _
  rw [BitVec.toNat_zero]
  omega

theorem one_shift_toNat {k : ℕ} (hk : k < w) :
    (1#w <<< k).toNat = 2 ^ k := by
  have hpow : 2 ^ k < 2 ^ w := Nat.pow_lt_pow_right (by decide) hk
  have hone : (1#w).toNat = 1 := by
    rw [BitVec.toNat_ofNat, Nat.mod_eq_of_lt (Nat.one_lt_two_pow (by omega))]
  rw [toNat_shiftLeft_of_lt, hone, Nat.one_mul]
  rw [hone, Nat.one_mul]
  exact hpow

/-- The mask `(1 << k) - 1` keeps the bits below `k`. -/
theorem low_bits_toNat (t : ULong) {k : ℕ} (hk : k < 64) :
    (t &&& (((1 : ULong) <<< k) - 1)).toNat = t.toNat % 2 ^ k := by
  have hone : ((1 : ULong) <<< k).toNat = 2 ^ k := one_shift_toNat hk
  have hsub : (((1 : ULong) <<< k) - 1).toNat = 2 ^ k - 1 := by
    rw [BitVec.toNat_sub_of_le, hone]
    · rfl
    · rw [BitVec.le_def, hone]
      exact Nat.one_le_two_pow
  rw [BitVec.toNat_and, hsub, Nat.and_two_pow_sub_one_eq_mod]

theorem toNat_lt_of_lt_shift {t : ULong} {k : ℕ} (hk : k < 64) :
    t < (1 : ULong) <<< k ↔ t.toNat < 2 ^ k := by
  have hone : ((1 : ULong) <<< k).toNat = 2 ^ k := one_shift_toNat hk
  rw [BitVec.lt_def, hone]

theorem shift_le_iff {t : ULong} {k : ℕ} (hk : k < 64) :
    (1 : ULong) <<< k ≤ t ↔ 2 ^ k ≤ t.toNat := by
  rw [← BitVec.not_lt, toNat_lt_of_lt_shift hk, Nat.not_lt]

theorem bitLength_eq_size (t : BitVec w) : bitLength t = t.toNat.size := by
  induction t using bitLength.induct with
  | case1 => simp [bitLength]
  | case2 t hne ih =>
      have hpos : t.toNat ≠ 0 := toNat_ne_zero hne
      rw [bitLength, dif_neg hne, ih, toNat_shiftRight, Nat.pow_one]
      have hsize := Nat.size_bit (b := t.toNat.bodd) (n := t.toNat.div2)
        (by rw [Nat.bit_bodd_div2]; exact hpos)
      rw [Nat.bit_bodd_div2, Nat.div2_val] at hsize
      rw [hsize]

end Veron
