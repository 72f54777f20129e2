/-
The constants of binary64, and the two thresholds of its rounding: half the
least subnormal, which still rounds to zero, and the midpoint above the largest
finite value, which already rounds to infinity.
-/
import Mathlib.Tactic.NormNum
import Veron.BinaryFormat

namespace Veron

namespace BinaryFormat

theorem binary64_minExp : binary64.minExp = -1074 := by
  norm_num [minExp, binary64]

theorem binary64_infIndex : binary64.infIndex = 2047 * 2 ^ 52 := by
  norm_num [infIndex, binary64]

theorem binary64_signBit : binary64.signBit = 2 ^ 63 := by
  norm_num [BinaryFormat.signBit, binary64]

theorem binary64_grid_one : binary64.grid 1 = 2 ^ (-1074 : ℤ) := by
  rw [grid_one, binary64_minExp]

theorem binary64_grid_inf : binary64.grid binary64.infIndex = 2 ^ 1024 := by
  have h := binary64.grid_pack (k := 2046) (s := 2 ^ 52) (by norm_num [binary64])
    (Or.inr (by norm_num [binary64]))
  have hindex : 2046 * 2 ^ binary64.trail + 2 ^ 52 = binary64.infIndex := by
    norm_num [binary64, infIndex]
  rw [hindex, binary64_minExp] at h
  rw [h, Nat.cast_pow, Nat.cast_ofNat, ← zpow_natCast, ← zpow_natCast,
    ← zpow_add₀ (by norm_num)]
  norm_num

theorem binary64_grid_pred_inf :
    binary64.grid (binary64.infIndex - 1) = 2 ^ 1024 - 2 ^ 971 := by
  have h := binary64.grid_pack (k := 2045) (s := 2 ^ 53 - 1) (by norm_num [binary64])
    (Or.inr (by norm_num [binary64]))
  have hindex : 2045 * 2 ^ binary64.trail + (2 ^ 53 - 1) = binary64.infIndex - 1 := by
    norm_num [binary64, infIndex]
  rw [hindex, binary64_minExp] at h
  have hcast : ((2 ^ 53 - 1 : ℕ) : ℚ) = 2 ^ 53 - 1 := by norm_num
  have hscale : (2 : ℚ) ^ (-1074 + (2045 : ℕ) : ℤ) = 2 ^ 971 := by
    rw [← zpow_natCast (2 : ℚ) 971]
    norm_num
  rw [h, hcast, hscale, sub_mul, one_mul, ← pow_add]

theorem withSign_injective (F : BinaryFormat) (neg : Bool) :
    Function.Injective (F.withSign neg) := by
  intro b b' h
  unfold withSign at h
  cases neg
  · exact h
  · exact Nat.add_left_cancel h

theorem roundsTo_withSign_iff (F : BinaryFormat) (neg : Bool) (mag : ℚ) (b : ℕ) :
    F.RoundsTo neg mag (F.withSign neg b) ↔ NearestEven F.grid F.infIndex mag b := by
  constructor
  · rintro ⟨b', hb', heq⟩
    rw [F.withSign_injective neg heq]
    exact hb'
  · exact fun h => ⟨b, h, rfl⟩

/-- A value on the grid rounds to itself. -/
theorem roundsTo_grid {b : ℕ} (hb : b ≤ binary64.infIndex) (sign : Bool) :
    binary64.RoundsTo sign (binary64.grid b) (binary64.withSign sign b) :=
  ⟨b, binary64.nearestEven_grid hb, rfl⟩

/-- What rounds to zero: everything up to half the least subnormal. -/
theorem roundsTo_zero_iff (neg : Bool) (mag : ℚ) :
    binary64.RoundsTo neg mag (binary64.withSign neg 0) ↔ mag ≤ 2 ^ (-1075 : ℤ) := by
  have hlast : 1 ≤ binary64.infIndex := by norm_num [binary64_infIndex]
  have hhalf : (2 : ℚ) ^ (-1074 : ℤ) = 2 * 2 ^ (-1075 : ℤ) := by
    rw [← zpow_one_add₀ (by norm_num)]
    norm_num
  rw [roundsTo_withSign_iff, nearestEven_zero_iff binary64.grid_strictMono hlast,
    binary64.grid_zero, binary64_grid_one, hhalf]
  constructor <;> intro h <;> linarith

/-- What rounds to infinity: everything from the midpoint above the largest
finite value on. -/
theorem roundsTo_inf_iff (neg : Bool) (mag : ℚ) :
    binary64.RoundsTo neg mag (binary64.withSign neg binary64.infIndex) ↔
      2 ^ 1024 - 2 ^ 970 ≤ mag := by
  obtain ⟨c, hc⟩ : ∃ c, binary64.infIndex = c + 1 :=
    ⟨2047 * 2 ^ 52 - 1, by norm_num [binary64_infIndex]⟩
  have heven : Even (c + 1) := by
    rw [← hc, binary64_infIndex]
    exact ⟨2047 * 2 ^ 51, by norm_num⟩
  have hpred := binary64_grid_pred_inf
  have hinf := binary64_grid_inf
  have hhalf : (2 : ℚ) ^ 971 = 2 * 2 ^ 970 := pow_succ' 2 970
  rw [roundsTo_withSign_iff]
  rw [hc] at hpred hinf ⊢
  rw [Nat.add_sub_cancel] at hpred
  rw [nearestEven_last_iff binary64.grid_strictMono heven, hpred, hinf, hhalf]
  generalize (2 : ℚ) ^ 1024 = limit
  generalize (2 : ℚ) ^ 970 = half
  constructor <;> intro h <;> linarith

end BinaryFormat

end Veron
