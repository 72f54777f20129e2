/-
The constants of binary32, and its midpoints, which are even patterns of
binary64.
-/
import Mathlib.Data.Nat.Log
import Veron.Binary64
import Veron.DoubleRounding

namespace Veron

namespace BinaryFormat

theorem binary32_minExp : binary32.minExp = -149 := by
  norm_num [minExp, binary32]

theorem binary32_infIndex : binary32.infIndex = 255 * 2 ^ 23 := by
  norm_num [infIndex, binary32]

theorem binary32_signBit : binary32.signBit = 2 ^ 31 := by
  norm_num [BinaryFormat.signBit, binary32]

theorem binary32_grid_inf : binary32.grid binary32.infIndex = 2 ^ 128 := by
  have h := binary32.grid_pack (k := 254) (s := 2 ^ 23) (by norm_num [binary32])
    (Or.inr (by norm_num [binary32]))
  have hindex : 254 * 2 ^ binary32.trail + 2 ^ 23 = binary32.infIndex := by
    norm_num [binary32, infIndex]
  rw [hindex, binary32_minExp] at h
  rw [h]
  norm_num

/-- Up to half the least subnormal everything rounds to zero. -/
theorem nearestEven_binary32_zero {x : ℚ} (hx : x ≤ 2 ^ (-150 : ℤ)) :
    NearestEven binary32.grid binary32.infIndex x 0 := by
  have hhalf : (2 : ℚ) ^ (-149 : ℤ) = 2 * 2 ^ (-150 : ℤ) := by
    rw [← zpow_one_add₀ (by norm_num)]
    norm_num
  rw [nearestEven_zero_iff binary32.grid_strictMono (by norm_num [binary32_infIndex]),
    binary32.grid_zero, binary32.grid_one, binary32_minExp, hhalf]
  linarith

/-- The midpoint above the binary32 pattern `k * 2 ^ 23 + s`, as a binary64 pattern. -/
def narrowMidpoint (k s : ℕ) : ℕ :=
  (924 + k - (52 - Nat.log 2 (2 * s + 1))) * 2 ^ 52 + (2 * s + 1) * 2 ^ (52 - Nat.log 2 (2 * s + 1))

theorem midpoint_significand {s : ℕ} (hs : s < 2 ^ 24) :
    ∃ t, 52 - Nat.log 2 (2 * s + 1) = t ∧ 28 ≤ t ∧ t ≤ 52 ∧
      2 ^ 52 ≤ (2 * s + 1) * 2 ^ t ∧ (2 * s + 1) * 2 ^ t < 2 ^ 53 := by
  have hne : 2 * s + 1 ≠ 0 := by omega
  have hlog : Nat.log 2 (2 * s + 1) < 25 := Nat.log_lt_of_lt_pow hne (by omega)
  have hlow := Nat.pow_log_le_self 2 hne
  have hhigh := Nat.lt_pow_succ_log_self (show 1 < 2 by decide) (2 * s + 1)
  generalize Nat.log 2 (2 * s + 1) = l at hlog hlow hhigh ⊢
  have hpow : 2 ^ l * 2 ^ (52 - l) = 2 ^ 52 := by
    rw [← pow_add]
    congr 1
    omega
  refine ⟨52 - l, rfl, by omega, by omega, ?_, ?_⟩
  · rw [← hpow]
    exact Nat.mul_le_mul_right _ hlow
  · calc (2 * s + 1) * 2 ^ (52 - l) < 2 ^ (l + 1) * 2 ^ (52 - l) :=
          Nat.mul_lt_mul_of_pos_right hhigh (Nat.two_pow_pos _)
      _ = 2 ^ 53 := by
          rw [pow_succ, Nat.mul_right_comm, hpow, ← pow_succ]

theorem grid_narrowMidpoint (k : ℕ) {s : ℕ} (hs : s < 2 ^ 24) :
    binary64.grid (narrowMidpoint k s) = (2 * s + 1 : ℕ) * 2 ^ ((k : ℤ) - 150) := by
  obtain ⟨t, ht, -, hle, hge, hlt⟩ := midpoint_significand hs
  have hgrid := binary64.grid_pack (k := 924 + k - t) (s := (2 * s + 1) * 2 ^ t)
    hlt.le (Or.inr hge)
  rw [narrowMidpoint, ht]
  change binary64.grid _ = _ at hgrid
  rw [show (924 + k - t) * 2 ^ 52 = (924 + k - t) * 2 ^ binary64.trail from rfl, hgrid,
    binary64_minExp, Nat.cast_mul, Nat.cast_pow, mul_assoc]
  congr 1
  rw [Nat.cast_ofNat, ← zpow_natCast, ← zpow_add₀ (by norm_num), Nat.cast_sub (by omega)]
  congr 1
  push_cast
  ring

theorem narrow_midpoint (k : ℕ) {s : ℕ} (hs : s < 2 ^ 24) (hk : k = 0 ∨ 2 ^ 23 ≤ s) :
    2 * binary64.grid (narrowMidpoint k s) =
      binary32.grid (k * 2 ^ 23 + s) + binary32.grid (k * 2 ^ 23 + s + 1) := by
  have hlow := binary32.grid_pack (k := k) (s := s) hs.le hk
  have hhigh := binary32.grid_pack (k := k) (s := s + 1) hs (hk.imp_right Nat.le_succ_of_le)
  change binary32.grid (k * 2 ^ 23 + s) = _ at hlow
  change binary32.grid (k * 2 ^ 23 + (s + 1)) = _ at hhigh
  have hexp : (2 : ℚ) ^ (binary32.minExp + k) = 2 * 2 ^ ((k : ℤ) - 150) := by
    rw [binary32_minExp, ← zpow_one_add₀ (by norm_num)]
    congr 1
    ring
  rw [grid_narrowMidpoint k hs, hlow, Nat.add_assoc, hhigh, hexp]
  push_cast
  ring

theorem even_narrowMidpoint (k : ℕ) {s : ℕ} (hs : s < 2 ^ 24) : Even (narrowMidpoint k s) := by
  obtain ⟨t, ht, hpos, -⟩ := midpoint_significand hs
  obtain ⟨u, rfl⟩ := Nat.exists_eq_add_of_le' (show 1 ≤ t by omega)
  rw [narrowMidpoint, ht]
  apply (binary64.even_pack_iff _ _).mpr
  exact ⟨(2 * s + 1) * 2 ^ u, by ring⟩

/-- Every binary32 midpoint, the one below infinity included, is an even binary64
pattern. -/
theorem midpointsEven_narrow :
    MidpointsEven binary64.grid binary32.grid binary64.infIndex binary32.infIndex := by
  intro c hc
  obtain ⟨k, s, rfl, hs, hk⟩ := binary32.exists_pack c
  change s < 2 ^ 24 at hs
  change k = 0 ∨ 2 ^ 23 ≤ s at hk
  change k * 2 ^ 23 + s < _ at hc
  rw [binary32_infIndex] at hc
  obtain ⟨t, ht, hpos, hle, hge, hlt⟩ := midpoint_significand hs
  have hindex : 0 < narrowMidpoint k s ∧ narrowMidpoint k s < 2047 * 2 ^ 52 - 1 := by
    rw [narrowMidpoint, ht]
    omega
  obtain ⟨i, hi⟩ := Nat.exists_eq_add_of_le' hindex.1
  refine ⟨i, ?_, ?_, ?_⟩
  · rw [← hi]
    exact narrow_midpoint k hs hk
  · rw [← hi]
    exact even_narrowMidpoint k hs
  · rw [binary64_infIndex]
    omega

end BinaryFormat

end Veron
