/-
Packing rounds correctly.  Whatever exact value the significand stands for,
`sfPack` returns the binary64 pattern nearest to it: the normalising shifts
keep the value, every bit they drop survives as the sticky bit, and the
subnormal shift rounds once like the normal path does.
-/
import Mathlib.Tactic.NormNum
import Mathlib.Tactic.FieldSimp
import Veron.Binary64
import Veron.SoftFloat

namespace Veron

namespace SoftFloat

open BinaryFormat

/-- The left normalisation multiplies by a power of two and lowers the
exponent by as much; it does nothing when bit 55 is already set. -/
theorem normalizeUp_spec (sig : ULong) (e : ℤ) (hne : sig ≠ 0) :
    ∃ j : ℕ, (normalizeUp sig e).2 = e - j ∧
      (normalizeUp sig e).1.toNat = 2 ^ j * sig.toNat ∧
      2 ^ 55 ≤ (normalizeUp sig e).1.toNat ∧
      (j = 0 ∨ (normalizeUp sig e).1.toNat < 2 ^ 56) := by
  induction sig, e using normalizeUp.induct with
  | case1 sig e hlow ih =>
      have hlt : sig.toNat < 2 ^ 55 := (toNat_lt_of_lt_shift (by decide)).mp hlow.2
      have hdouble : (sig <<< 1).toNat = sig.toNat * 2 :=
        toNat_shiftLeft_of_lt (by omega)
      have hpos := toNat_ne_zero hne
      have hne' : sig <<< 1 ≠ 0 := by
        intro h
        rw [h] at hdouble
        change 0 = _ at hdouble
        omega
      obtain ⟨j, hexp, hval, hge, hbound⟩ := ih hne'
      rw [normalizeUp, if_pos hlow]
      refine ⟨j + 1, ?_, ?_, hge, Or.inr ?_⟩
      · rw [hexp]
        push_cast
        ring
      · rw [hval, hdouble, pow_succ]
        ring
      · rcases hbound with rfl | hbound
        · rw [hval, hdouble]
          omega
        · exact hbound
  | case2 sig e hhigh =>
      rw [normalizeUp, if_neg hhigh]
      have hge : ¬ sig < (1 : ULong) <<< 55 := fun h => hhigh ⟨hne, h⟩
      rw [toNat_lt_of_lt_shift (by decide), Nat.not_lt] at hge
      exact ⟨0, by simp, by simp, hge, Or.inl rfl⟩

theorem standsFor_shiftSticky {sig : ULong} {y : ℚ}
    (h : StandsFor 4 sig.toNat y) :
    StandsFor 4 (shiftSticky sig).toNat (y / 2) := by
  have hjam := StandsFor.jam (k := 1) h
  rw [pow_one] at hjam
  rw [shiftSticky_toNat]
  exact hjam.of_dvd ⟨2, rfl⟩

theorem shiftSticky_bounds (sig : ULong) :
    sig.toNat / 2 ≤ (shiftSticky sig).toNat ∧
      (shiftSticky sig).toNat ≤ (sig.toNat + 1) / 2 := by
  rw [shiftSticky_toNat, jam_eq]
  constructor
  · omega
  · split_ifs <;> omega

/-- The right normalisation leaves bit 55 leading and still stands for the
value it was given. -/
theorem normalizeDown_spec (sig : ULong) (e : ℤ) {y : ℚ}
    (hge : 2 ^ 55 ≤ sig.toNat) (hy : StandsFor 4 sig.toNat y) :
    ∃ i : ℕ, (normalizeDown sig e).2 = e + i ∧
      StandsFor 4 (normalizeDown sig e).1.toNat (y / 2 ^ i) ∧
      2 ^ 55 ≤ (normalizeDown sig e).1.toNat ∧
      (normalizeDown sig e).1.toNat < 2 ^ 56 := by
  induction sig, e using normalizeDown.induct generalizing y with
  | case1 sig e hlarge ih =>
      have hlow : 2 ^ 56 ≤ sig.toNat := (shift_le_iff (by decide)).mp hlarge
      have hstep := shiftSticky_bounds sig
      obtain ⟨i, hexp, hstands, hge', hlt⟩ :=
        ih (by omega) (standsFor_shiftSticky hy)
      rw [normalizeDown, if_pos hlarge]
      refine ⟨i + 1, ?_, ?_, hge', hlt⟩
      · rw [hexp]
        push_cast
        ring
      · rw [div_div, ← pow_succ'] at hstands
        exact hstands
  | case2 sig e hsmall =>
      rw [normalizeDown, if_neg hsmall]
      rw [shift_le_iff (by decide), Nat.not_le] at hsmall
      exact ⟨0, by simp, by simpa using hy, hge, hsmall⟩

/-- What a significand may owe to dropped bits when it reaches `sfPack`:
nothing, or one sticky bit below a leading bit no lower than 54. -/
def Carries (sig : ULong) (y : ℚ) : Prop :=
  y = sig.toNat ∨ (StandsFor 2 sig.toNat y ∧ 2 ^ 54 ≤ sig.toNat)

theorem normalize_spec (sig : ULong) (e : ℤ) {y : ℚ} (hne : sig ≠ 0)
    (hy : Carries sig y) :
    ∃ z : ℚ, ∃ up down,
      normalizeUp sig e = up ∧ normalizeDown up.1 up.2 = down ∧
      StandsFor 4 down.1.toNat z ∧ z * 2 ^ (down.2 - 55) = y * 2 ^ (e - 55) ∧
      2 ^ 55 ≤ down.1.toNat ∧ down.1.toNat < 2 ^ 56 := by
  obtain ⟨j, hexp, hval, hge, hbound⟩ := normalizeUp_spec sig e hne
  have hstands : StandsFor 4 (normalizeUp sig e).1.toNat (2 ^ j * y) := by
    rw [hval]
    rcases hy with rfl | ⟨hsticky, hlarge⟩
    · have hcast : (2 ^ j * sig.toNat : ℚ) = ((2 ^ j * sig.toNat : ℕ) : ℚ) := by
        push_cast
        rfl
      rw [hcast]
      exact StandsFor.natCast 4 _
    · -- bit 54 is set, so at most one left shift happened
      have hj : j ≤ 1 := by
        by_contra hcon
        have hpow : 2 ^ 2 ≤ 2 ^ j := Nat.pow_le_pow_right (by decide) (by omega)
        have hprod : 2 ^ 2 * 2 ^ 54 ≤ 2 ^ j * sig.toNat := Nat.mul_le_mul hpow hlarge
        omega
      have hmul := hsticky.mul (Nat.two_pow_pos j)
      push_cast at hmul
      apply hmul.of_dvd
      rcases Nat.le_one_iff_eq_zero_or_eq_one.mp hj with rfl | rfl
      · exact ⟨2, rfl⟩
      · exact ⟨1, rfl⟩
  obtain ⟨i, hexp', hstands', hge', hlt⟩ :=
    normalizeDown_spec (normalizeUp sig e).1 (normalizeUp sig e).2 hge hstands
  refine ⟨_, _, _, rfl, rfl, hstands', ?_, hge', hlt⟩
  have htwo : (2 : ℚ) ≠ 0 := by norm_num
  have hshift : e - (j : ℤ) + i - 55 = e - 55 - j + i := by ring
  rw [hexp', hexp, hshift, zpow_add₀ htwo, zpow_sub₀ htwo, zpow_natCast,
    zpow_natCast]
  field_simp

theorem shiftStickyN_spec (n : ℕ) (sig : ULong) {y : ℚ}
    (hy : StandsFor 4 sig.toNat y) (hlt : sig.toNat < 2 ^ 56) :
    StandsFor 4 (shiftStickyN n sig).toNat (y / 2 ^ n) ∧
      (shiftStickyN n sig).toNat < 2 ^ 56 ∧
      (0 < n → (shiftStickyN n sig).toNat ≤ 2 ^ 55) := by
  induction n generalizing sig y with
  | zero => exact ⟨by simpa [shiftStickyN] using hy, hlt, by omega⟩
  | succ n ih =>
      have hstep := shiftSticky_bounds sig
      have hnext := ih (shiftSticky sig) (standsFor_shiftSticky hy) (by omega)
      rw [div_div, ← pow_succ'] at hnext
      refine ⟨hnext.1, hnext.2.1, fun _ => ?_⟩
      rw [shiftStickyN]
      rcases Nat.eq_zero_or_pos n with rfl | hn
      · rw [shiftStickyN]
        omega
      · exact hnext.2.2 hn

theorem roundsUp_iff (sig : ULong) :
    roundsUp sig = true ↔
      4 < sig.toNat % 8 ∨ (sig.toNat % 8 = 4 ∧ sig.toNat / 8 % 2 = 1) := by
  have hguard : (sig &&& 7).toNat = sig.toNat % 8 := by
    rw [BitVec.toNat_and]
    exact Nat.and_two_pow_sub_one_eq_mod sig.toNat 3
  have hodd : ((sig >>> 3) &&& 1).toNat = sig.toNat / 8 % 2 := by
    rw [BitVec.toNat_and, toNat_shiftRight]
    exact Nat.and_two_pow_sub_one_eq_mod _ 1
  simp only [roundsUp, Bool.or_eq_true, Bool.and_eq_true, decide_eq_true_eq,
    beq_iff_eq, bne_iff_ne, gt_iff_lt, BitVec.lt_def, ← BitVec.toNat_inj,
    hguard, hodd, ne_eq]
  change 4 < _ ∨ _ = 4 ∧ ¬ _ = 0 ↔ _
  omega

/-- The rounded significand both paths of `sfPack` compute. -/
theorem rounded_toNat (sig : ULong) (hlt : sig.toNat < 2 ^ 56) :
    (if roundsUp sig then (sig >>> 3) + 1 else sig >>> 3).toNat =
      roundGuard sig.toNat := by
  have hlow := toNat_shiftRight sig 3
  simp only [roundGuard, ← roundsUp_iff]
  split_ifs with hup
  · rw [BitVec.toNat_add, hlow]
    change (_ + 1) % 2 ^ 64 = _
    omega
  · rw [hlow]
    omega

theorem signBit_or_toNat {r : ULong} (hr : r.toNat < 2 ^ 63) :
    (signBit ||| r).toNat = 2 ^ 63 + r.toNat := by
  rw [BitVec.toNat_or]
  exact (Nat.two_pow_add_eq_or_of_lt hr 1).symm

theorem putSign_toNat (sign : Bool) {r : ULong} (hr : r.toNat < 2 ^ 63) :
    (putSign sign r).toNat = binary64.withSign sign r.toNat := by
  cases sign
  · rfl
  · rw [withSign, binary64_signBit]
    exact signBit_or_toNat hr

/-- The exponent field above the stored significand, whose hidden bit the mask
drops. -/
theorem field_or_toNat {f : ℤ} {low : ULong} (hf : 0 ≤ f) (hf' : f < 2048)
    (hge : 2 ^ 52 ≤ low.toNat) (hlt : low.toNat < 2 ^ 53) :
    ((BitVec.ofInt 64 f <<< mantBits) ||| (low &&& mantMask)).toNat =
      f.toNat * 2 ^ 52 + (low.toNat - 2 ^ 52) := by
  have hofInt : (BitVec.ofInt 64 f).toNat = f.toNat := by
    rw [BitVec.toNat_ofInt, Int.emod_eq_of_lt hf (by norm_num; omega)]
  have hfield : (BitVec.ofInt 64 f <<< mantBits).toNat = f.toNat * 2 ^ 52 := by
    rw [toNat_shiftLeft_of_lt, hofInt]
    · rfl
    · rw [hofInt, mantBits]
      omega
  have hmask : (low &&& mantMask).toNat = low.toNat - 2 ^ 52 := by
    rw [BitVec.toNat_and]
    change low.toNat &&& (2 ^ 52 - 1) = _
    rw [Nat.and_two_pow_sub_one_eq_mod]
    omega
  rw [BitVec.toNat_or, hfield, hmask, Nat.mul_comm,
    ← Nat.two_pow_add_eq_or_of_lt (by omega)]

/-- The rounded significand is the pattern, also when rounding carries it to
the least normal. -/
theorem packSubnormal_toNat (sign : Bool) {sig : ULong}
    (hlt : sig.toNat < 2 ^ 56) (hround : roundGuard sig.toNat < 2 ^ 53) :
    (packSubnormal sign sig).toNat =
      binary64.withSign sign (roundGuard sig.toNat) := by
  have hlow := rounded_toNat sig hlt
  unfold packSubnormal
  generalize (if roundsUp sig then (sig >>> 3) + 1 else sig >>> 3) = low at hlow
  rw [← hlow] at hround ⊢
  by_cases hhidden : hidden ≤ low
  · have hge : 2 ^ 52 ≤ low.toNat := hhidden
    have hsub : (low - hidden).toNat = low.toNat - 2 ^ 52 :=
      BitVec.toNat_sub_of_le hhidden
    have hr : (((1 : ULong) <<< mantBits) ||| (low - hidden)).toNat = low.toNat := by
      rw [BitVec.toNat_or, hsub]
      change 2 ^ 52 * 1 ||| _ = _
      rw [← Nat.two_pow_add_eq_or_of_lt (by omega)]
      omega
    have hsign := putSign_toNat sign (r := ((1 : ULong) <<< mantBits) ||| (low - hidden))
      (by omega)
    rw [hr] at hsign
    simpa only [hhidden, ↓reduceIte] using hsign
  · have hsign := putSign_toNat sign (r := low) (by omega)
    simpa only [hhidden, ↓reduceIte] using hsign

/-- Carrying out of the significand does not change the packed number, and an
exponent past 1023 is at or beyond infinity. -/
theorem packNormal_emit (sign : Bool) {e : ℤ} (low : ULong) (he : -1022 ≤ e)
    (hge : 2 ^ 52 ≤ low.toNat) (hlt : low.toNat < 2 ^ 53) :
    (if e > 1023 then putSign sign ((2047 : ULong) <<< mantBits)
      else putSign sign
        ((BitVec.ofInt 64 (e + 1023) <<< mantBits) ||| (low &&& mantMask))).toNat =
      binary64.withSign sign
        (min binary64.infIndex ((e + 1022).toNat * 2 ^ 52 + low.toNat)) := by
  rw [binary64_infIndex]
  by_cases hover : e > 1023
  · have hinf : ((2047 : ULong) <<< mantBits).toNat = 2047 * 2 ^ 52 := by decide
    rw [if_pos hover, Nat.min_eq_left (by omega), ← hinf]
    exact putSign_toNat sign (by decide)
  · have hfield := field_or_toNat (f := e + 1023) (by omega) (by omega) hge hlt
    have hvalue : (e + 1023).toNat * 2 ^ 52 + (low.toNat - 2 ^ 52) =
        (e + 1022).toNat * 2 ^ 52 + low.toNat := by omega
    rw [hvalue] at hfield
    have hsign := putSign_toNat sign
      (r := (BitVec.ofInt 64 (e + 1023) <<< mantBits) ||| (low &&& mantMask)) (by omega)
    rw [hfield] at hsign
    rw [if_neg hover, Nat.min_eq_right (by omega)]
    exact hsign

theorem packNormal_toNat (sign : Bool) {e : ℤ} {sig : ULong} (he : -1022 ≤ e)
    (hge : 2 ^ 55 ≤ sig.toNat) (hlt : sig.toNat < 2 ^ 56) :
    (packNormal sign e sig).toNat =
      binary64.withSign sign (min binary64.infIndex
        ((e + 1022).toNat * 2 ^ 52 + roundGuard sig.toNat)) := by
  have hround := rounded_toNat sig hlt
  have hshift := toNat_shiftRight sig 3
  have hrange : 2 ^ 52 ≤ roundGuard sig.toNat ∧ roundGuard sig.toNat ≤ 2 ^ 53 := by
    unfold roundGuard
    split_ifs <;> omega
  unfold packNormal
  by_cases hup : roundsUp sig = true
  · rw [if_pos hup] at hround
    by_cases hcarry : hidden <<< 1 ≤ sig >>> 3 + 1
    · have htop : 2 ^ 53 ≤ (sig >>> 3 + 1).toNat := hcarry
      have hhalf := toNat_shiftRight (sig >>> 3 + 1) 1
      have hemit := packNormal_emit sign (e := e + 1) ((sig >>> 3 + 1) >>> 1)
        (by omega) (by omega) (by omega)
      have hsame : (e + 1 + 1022).toNat * 2 ^ 52 + ((sig >>> 3 + 1) >>> 1).toNat =
          (e + 1022).toNat * 2 ^ 52 + roundGuard sig.toNat := by omega
      rw [hsame] at hemit
      simpa only [hup, hcarry, ↓reduceIte] using hemit
    · have hsmall : (sig >>> 3 + 1).toNat < 2 ^ 53 := Nat.lt_of_not_le hcarry
      have hemit := packNormal_emit sign (sig >>> 3 + 1) he (by omega) hsmall
      rw [hround] at hemit
      simpa only [hup, hcarry, ↓reduceIte] using hemit
  · rw [if_neg hup] at hround
    have hemit := packNormal_emit sign (sig >>> 3) he (by omega) (by omega)
    rw [hround] at hemit
    simpa only [hup, Bool.false_eq_true, ↓reduceIte] using hemit

/-- `sfPack` returns the pattern nearest to the value its argument stands for,
whatever the exponent. -/
theorem sfPack_rounds (sign : Bool) (e : ℤ) {sig : ULong} {y : ℚ} (hne : sig ≠ 0)
    (hy : Carries sig y) :
    binary64.RoundsTo sign (y * 2 ^ (e - 55)) (sfPack sign e sig).toNat := by
  obtain ⟨z, up, down, hup, hdown, hstands, hvalue, hge, hlt⟩ :=
    normalize_spec sig e hne hy
  have htwo : (2 : ℚ) ≠ 0 := by norm_num
  have hzlt : z < 2 ^ 56 := by
    have h := (hstands (2 ^ 54)).2.mp (by omega)
    norm_num at h ⊢
    exact h
  have hzpos : 0 ≤ z := hstands.nonneg
  simp only [sfPack, if_neg hne, hup, hdown]
  rw [← hvalue]
  by_cases hsub : down.2 < -1022
  · rw [if_pos hsub]
    by_cases hfar : -1022 - down.2 > 63
    · -- below half the least subnormal
      rw [if_pos hfar]
      have hzero : (if sign then signBit else 0).toNat = binary64.withSign sign 0 := by
        cases sign <;> rfl
      rw [hzero, roundsTo_zero_iff]
      have hexp : (2 : ℚ) ^ (down.2 - 55) ≤ 2 ^ (-1141 : ℤ) :=
        zpow_le_zpow_right₀ (by norm_num) (by omega)
      calc z * 2 ^ (down.2 - 55)
          ≤ 2 ^ 56 * 2 ^ (-1141 : ℤ) := mul_le_mul hzlt.le hexp (by positivity) (by norm_num)
        _ = 2 ^ (-1085 : ℤ) := by
            rw [← zpow_natCast (2 : ℚ) 56, ← zpow_add₀ htwo]
            norm_num
        _ ≤ 2 ^ (-1075 : ℤ) := zpow_le_zpow_right₀ (by norm_num) (by norm_num)
    · rw [if_neg hfar]
      obtain ⟨n, hn⟩ := Int.eq_ofNat_of_zero_le (show 0 ≤ -1022 - down.2 by omega)
      obtain ⟨hst, hlt', hle⟩ := shiftStickyN_spec n down.1 hstands hlt
      rw [hn, Int.toNat_natCast]
      have hsmall := hle (by omega)
      have hbound : roundGuard (shiftStickyN n down.1).toNat < 2 ^ 53 := by
        unfold roundGuard
        split_ifs <;> omega
      have hnear := binary64.nearestEven_roundGuard (k := 0) hst
        (by norm_num [binary64]; omega) (Or.inl rfl)
      rw [binary64_minExp, binary64_infIndex, Nat.zero_mul, Nat.zero_add,
        Nat.min_eq_right (by omega)] at hnear
      have hx : z / 2 ^ n / 8 * 2 ^ ((-1074 : ℤ) + (0 : ℕ)) =
          z * 2 ^ (down.2 - 55) := by
        have hexp : down.2 - 55 = -1074 + (0 : ℕ) - n - 3 := by
          push_cast
          omega
        rw [hexp, zpow_sub₀ htwo, zpow_sub₀ htwo, zpow_natCast]
        generalize (2 : ℚ) ^ ((-1074 : ℤ) + (0 : ℕ)) = scale
        norm_num
        ring
      rw [hx] at hnear
      exact ⟨_, hnear, packSubnormal_toNat sign hlt' hbound⟩
  · rw [if_neg hsub]
    obtain ⟨k, hk⟩ := Int.eq_ofNat_of_zero_le (show 0 ≤ down.2 + 1022 by omega)
    have hnear := binary64.nearestEven_roundGuard (k := k) hstands
      (by norm_num [binary64]; omega) (Or.inr (by norm_num [binary64]; omega))
    have hx : z / 8 * 2 ^ (binary64.minExp + (k : ℤ)) = z * 2 ^ (down.2 - 55) := by
      have hexp : down.2 - 55 = binary64.minExp + k - 3 := by
        rw [binary64_minExp]
        omega
      rw [hexp, zpow_sub₀ htwo]
      norm_num
      ring
    rw [hx] at hnear
    have hpattern := packNormal_toNat sign (Int.not_lt.mp hsub) hge hlt
    rw [hk, Int.toNat_natCast] at hpattern
    exact ⟨_, hnear, hpattern⟩

end SoftFloat

end Veron
