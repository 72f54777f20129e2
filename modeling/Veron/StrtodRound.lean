/-
`assemble` rounds once.  Given the leading 54 bits of a value and whether
anything was cut off below them, it returns the binary64 pattern nearest to the
value, subnormal results and overflow included.
-/
import Veron.SoftFloatPack
import Veron.Strtod

namespace Veron

namespace Strtod

open BinaryFormat SoftFloat

theorem withNeg_eq_putSign (neg : Bool) (out : ULong) :
    withNeg neg out = putSign neg out := by
  cases neg
  · rfl
  · exact BitVec.or_comm _ _

theorem withNeg_toNat (neg : Bool) (out : ULong) (hout : out.toNat < 2 ^ 63) :
    (withNeg neg out).toNat = binary64.withSign neg out.toNat := by
  rw [withNeg_eq_putSign]
  exact putSign_toNat neg hout

/-- The rounding test on the round bit, the sticky flag and the low bit. -/
theorem round_iff (sig54 : ULong) (sticky : Bool) :
    (sig54 &&& 1 ≠ 0 ∧ (sticky = true ∨ (sig54 >>> 1) &&& 1 ≠ 0)) ↔
      4 < (4 * sig54.toNat + 2 * sticky.toNat) % 8 ∨
        ((4 * sig54.toNat + 2 * sticky.toNat) % 8 = 4 ∧
          (4 * sig54.toNat + 2 * sticky.toNat) / 8 % 2 = 1) := by
  rw [low_bit_ne_zero_iff _ (by decide), low_bit_ne_zero_iff _ (by decide), toNat_shiftRight]
  cases sticky with
  | false =>
      simp only [Bool.false_eq_true, false_or, Bool.toNat_false]
      omega
  | true =>
      simp only [true_or, and_true, Bool.toNat_true]
      omega

theorem roundGuard_cut (sig54 : ULong) (sticky : Bool) :
    roundGuard (4 * sig54.toNat + 2 * sticky.toNat) = (sig54 >>> 1).toNat +
      if sig54 &&& 1 ≠ 0 ∧ (sticky = true ∨ (sig54 >>> 1) &&& 1 ≠ 0) then 1 else 0 := by
  have hst := Bool.toNat_le sticky
  have hmant : (4 * sig54.toNat + 2 * sticky.toNat) / 8 = (sig54 >>> 1).toNat := by
    rw [toNat_shiftRight]
    omega
  rw [roundGuard, if_congr (round_iff sig54 sticky).symm rfl rfl, hmant]

/-- After a subnormal shift the rounded significand is the pattern. -/
theorem assembleRounded_sub (neg : Bool) {sig54 : ULong} (sticky : Bool) (topexp : ℤ)
    (hlt : sig54.toNat < 2 ^ 53) :
    (assembleRounded neg true sig54 sticky topexp).toNat =
      binary64.withSign neg (roundGuard (4 * sig54.toNat + 2 * sticky.toNat)) := by
  have hhalf := toNat_shiftRight sig54 1
  rw [roundGuard_cut]
  unfold assembleRounded
  by_cases hup : sig54 &&& 1 ≠ 0 ∧ (sticky = true ∨ (sig54 >>> 1) &&& 1 ≠ 0)
  · have hsucc : (sig54 >>> 1 + 1).toNat = (sig54 >>> 1).toNat + 1 := by
      rw [BitVec.toNat_add]
      change (_ + 1) % 2 ^ 64 = _
      omega
    have hcarry : sig54 >>> 1 + 1 ≠ 0x20000000000000 := by
      intro h
      rw [h] at hsucc
      change 2 ^ 53 = _ at hsucc
      omega
    have hsign := withNeg_toNat neg (sig54 >>> 1 + 1) (by omega)
    rw [hsucc] at hsign
    simpa only [if_pos hup, if_neg hcarry, ↓reduceIte, ge_iff_le, Int.reduceLE, le_refl]
      using hsign
  · have hsign := withNeg_toNat neg (sig54 >>> 1) (by omega)
    simpa only [if_neg hup, ↓reduceIte, ge_iff_le, Int.reduceLE, le_refl, Nat.add_zero]
      using hsign

theorem assembleRounded_normal (neg : Bool) {sig54 : ULong} (sticky : Bool) {topexp : ℤ}
    (htop : -1022 ≤ topexp) (hge : 2 ^ 53 ≤ sig54.toNat) (hlt : sig54.toNat < 2 ^ 54) :
    (assembleRounded neg false sig54 sticky topexp).toNat =
      binary64.withSign neg (min binary64.infIndex
        ((topexp + 1022).toNat * 2 ^ 52 +
          roundGuard (4 * sig54.toNat + 2 * sticky.toNat))) := by
  have hhalf := toNat_shiftRight sig54 1
  -- the two ways to emit agree
  have hemit : ∀ (mant : ULong) (e : ℤ), -1022 ≤ e → 2 ^ 52 ≤ mant.toNat →
      mant.toNat < 2 ^ 53 →
      (if e + 1023 ≥ 2047 then withNeg neg 0x7ff0000000000000
        else if e + 1023 ≤ 0 then withNeg neg mant
        else withNeg neg
          ((BitVec.ofInt 64 (e + 1023) <<< 52) ||| (mant &&& 0xfffffffffffff))).toNat =
        binary64.withSign neg (min binary64.infIndex
          ((e + 1022).toNat * 2 ^ 52 + mant.toNat)) := by
    intro mant e he hm hm'
    rw [← packNormal_emit neg mant he hm hm', if_neg (c := e + 1023 ≤ 0) (by omega),
      withNeg_eq_putSign, withNeg_eq_putSign]
    have hiff : e + 1023 ≥ 2047 ↔ e > 1023 := by omega
    rw [if_congr hiff rfl rfl]
    rfl
  rw [roundGuard_cut]
  unfold assembleRounded
  by_cases hup : sig54 &&& 1 ≠ 0 ∧ (sticky = true ∨ (sig54 >>> 1) &&& 1 ≠ 0)
  · have hsucc : (sig54 >>> 1 + 1).toNat = (sig54 >>> 1).toNat + 1 := by
      rw [BitVec.toNat_add]
      change (_ + 1) % 2 ^ 64 = _
      omega
    have hconst : (0x20000000000000 : ULong).toNat = 2 ^ 53 := by decide
    by_cases hcarry : sig54 >>> 1 + 1 = 0x20000000000000
    · have htwo : (sig54 >>> 1).toNat + 1 = 2 ^ 53 := by rw [← hsucc, hcarry, hconst]
      have hnext := toNat_shiftRight (sig54 >>> 1 + 1) 1
      rw [hsucc, htwo] at hnext
      have h := hemit ((sig54 >>> 1 + 1) >>> 1) (topexp + 1) (by omega)
        (by omega) (by omega)
      have hsame : (topexp + 1 + 1022).toNat * 2 ^ 52 +
          ((sig54 >>> 1 + 1) >>> 1).toNat =
            (topexp + 1022).toNat * 2 ^ 52 + ((sig54 >>> 1).toNat + 1) := by omega
      rw [hsame] at h
      simpa only [if_pos hup, if_pos hcarry, Bool.false_eq_true, ↓reduceIte] using h
    · have hne : (sig54 >>> 1).toNat + 1 ≠ 2 ^ 53 := by
        intro h
        exact hcarry (BitVec.eq_of_toNat_eq (by rw [hsucc, hconst, h]))
      have h := hemit (sig54 >>> 1 + 1) topexp htop (by omega) (by omega)
      rw [hsucc] at h
      simpa only [if_pos hup, if_neg hcarry, Bool.false_eq_true, ↓reduceIte] using h
  · have h := hemit (sig54 >>> 1) topexp htop (by omega) (by omega)
    simpa only [if_neg hup, Bool.false_eq_true, ↓reduceIte, Nat.add_zero] using h

/-- `assemble` returns the pattern nearest to the value it was cut from. -/
theorem assemble_rounds (neg : Bool) {sig54 : ULong} {sticky : Bool} (topexp : ℤ) {z : ℚ}
    (hge : 2 ^ 53 ≤ sig54.toNat) (hlt : sig54.toNat < 2 ^ 54)
    (hcut : Cut sig54.toNat sticky z) :
    binary64.RoundsTo neg (z * 2 ^ (topexp - 53))
      (assemble neg sig54 sticky topexp).toNat := by
  have htwo : (2 : ℚ) ≠ 0 := by norm_num
  have hne : sig54 ≠ 0 := by
    intro h
    rw [h] at hge
    exact absurd hge (by decide)
  unfold assemble
  rw [if_neg hne]
  by_cases hsub : topexp < -1022
  · rw [if_pos hsub]
    by_cases hfar : -1022 - topexp ≥ 54
    · simp only [if_pos hfar]
      have hzero : (withNeg neg 0).toNat = binary64.withSign neg 0 := by
        cases neg <;> rfl
      have hzlt : z ≤ 2 ^ 54 := by
        have hcast : ((sig54.toNat : ℚ) + 1) ≤ 2 ^ 54 := by exact_mod_cast hlt
        exact hcut.lt.le.trans hcast
      have hexp : (2 : ℚ) ^ (topexp - 53) ≤ 2 ^ (-1129 : ℤ) :=
        zpow_le_zpow_right₀ (by norm_num) (by omega)
      rw [hzero, roundsTo_zero_iff]
      calc z * 2 ^ (topexp - 53)
          ≤ 2 ^ 54 * 2 ^ (-1129 : ℤ) := mul_le_mul hzlt hexp (by positivity) (by norm_num)
        _ = 2 ^ (-1075 : ℤ) := by
            rw [← zpow_natCast (2 : ℚ) 54, ← zpow_add₀ htwo]
            norm_num
    · obtain ⟨d, hd⟩ := Int.eq_ofNat_of_zero_le (show 0 ≤ -1022 - topexp by omega)
      rw [hd] at hfar
      simp only [hd, if_neg hfar, Int.toNat_natCast]
      have hshift := toNat_shiftRight sig54 d
      have hpow : 2 ^ d ≤ 2 ^ 53 := Nat.pow_le_pow_right (by decide) (by omega)
      have hpow1 : 2 ^ 1 ≤ 2 ^ d := Nat.pow_le_pow_right (by decide) (by omega)
      have hsmall : (sig54 >>> d).toNat < 2 ^ 53 := by
        rw [hshift]
        apply Nat.div_lt_of_lt_mul
        calc sig54.toNat < 2 ^ 1 * 2 ^ 53 := hlt
          _ ≤ 2 ^ d * 2 ^ 53 := Nat.mul_le_mul_right _ hpow1
      have hsig : sig54 >>> d ≠ 0 := by
        intro h
        have hzero : (sig54 >>> d).toNat = 0 := by rw [h]; rfl
        have hpos : 0 < sig54.toNat / 2 ^ d :=
          Nat.div_pos (hpow.trans hge) (Nat.two_pow_pos d)
        omega
      have hlost : (sig54 &&& ((1 : ULong) <<< d - 1) != 0) =
          decide (sig54.toNat % 2 ^ d ≠ 0) := by
        rw [Bool.eq_iff_iff, bne_iff_ne, decide_eq_true_eq, ne_eq, ← BitVec.toNat_inj,
          low_bits_toNat sig54 (by omega)]
        rfl
      rw [if_neg hsig, hlost, assembleRounded_sub neg _ _ hsmall, roundsTo_withSign_iff,
        hshift]
      have hcut' := hcut.shift d
      rw [hshift] at hsmall
      generalize (sticky || decide (sig54.toNat % 2 ^ d ≠ 0)) = sticky' at hcut' ⊢
      have hst' := Bool.toNat_le sticky'
      have hnear := binary64.nearestEven_cut (k := 0) (e := -1075) hcut'
        (hsmall.trans (by norm_num [binary64])) (Or.inl rfl)
        (by rw [binary64_minExp]; norm_num)
      have hmin : roundGuard (4 * (sig54.toNat / 2 ^ d) + 2 * sticky'.toNat) ≤
          binary64.infIndex := by
        rw [binary64_infIndex]
        unfold roundGuard
        split_ifs <;> omega
      rw [Nat.zero_mul, Nat.zero_add, Nat.min_eq_right hmin] at hnear
      have hvalue : z / 2 ^ d * 2 ^ (-1075 : ℤ) = z * 2 ^ (topexp - 53) := by
        rw [show topexp - 53 = -1075 - (d : ℤ) by omega, zpow_sub₀ htwo, zpow_natCast]
        ring
      rw [hvalue] at hnear
      exact hnear
  · rw [if_neg hsub, assembleRounded_normal neg sticky (Int.not_lt.mp hsub) hge hlt,
      roundsTo_withSign_iff]
    obtain ⟨k, hk⟩ := Int.eq_ofNat_of_zero_le (show 0 ≤ topexp + 1022 by omega)
    rw [hk, Int.toNat_natCast]
    exact binary64.nearestEven_cut hcut (hlt.trans_le (by norm_num [binary64]))
      (Or.inr (le_trans (by norm_num [binary64]) hge)) (by rw [binary64_minExp]; omega)

end Strtod

end Veron
