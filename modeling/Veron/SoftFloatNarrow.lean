/-
Narrowing binary64 to binary32.  The significand is cut at a place that depends
on the exponent and rounded there once, so every finite word goes to the
nearest binary32 pattern, subnormal results and overflow included.
-/
import Veron.Binary32
import Veron.SoftFloatDecode
import Veron.StrtodRound

namespace Veron

namespace Strtod

open BinaryFormat SoftFloat

/-- `strtod_to_f32` from the rounding on: `drop` low bits of the significand go. -/
def narrowRounded (sign : UInt) (mant : ULong) (drop : ℕ) (ex : ℤ) : UInt :=
  let rbit : UInt := ((mant >>> (drop - 1)) &&& 1).setWidth 32
  let sticky : Bool := mant &&& (((1 : ULong) <<< (drop - 1)) - 1) != 0
  let m24 : UInt := (mant >>> drop).setWidth 32
  let (m24, ex) :=
    if rbit ≠ 0 ∧ (sticky = true ∨ m24 &&& 1 ≠ 0) then
      if m24 + 1 = 0x1000000 then ((m24 + 1) >>> 1, ex + 1)
      else (m24 + 1, ex)
    else (m24, ex)
  if ex ≥ 255 then sign ||| 0x7f800000
  else if ex = 0 then sign ||| m24
  else sign ||| (BitVec.ofInt 32 ex <<< 23) ||| (m24 &&& 0x7fffff)

/-- `strtod_to_f32` of a significand and its exponent, both nonzero. -/
def narrowFinite (sign : UInt) (mant : ULong) (ex : ℤ) : UInt :=
  let ex := ex + 127
  if ex ≥ 255 then sign ||| 0x7f800000
  else if ex ≤ 0 then
    let drop := 29 + (1 - ex)
    if drop ≥ 54 then sign else narrowRounded sign mant drop.toNat 0
  else narrowRounded sign mant 29 ex

/-- `(unsigned int)(sign << 31)`. -/
def signWord (b : ULong) : UInt := (((b >>> 63) &&& 1) <<< 31).setWidth 32

/-- `strtod_to_f32`. -/
def strtodToF32 (b : ULong) : UInt :=
  let ex : ℤ := ((b >>> 52) &&& 0x7ff).toNat
  let mant := b &&& 0xfffffffffffff
  if ex = 0x7ff then
    let out := signWord b ||| 0x7f800000
    if mant ≠ 0 then out ||| 0x400000 else out
  else if ex = 0 ∧ mant = 0 then signWord b
  else if ex = 0 then narrowFinite (signWord b) mant (-1022)
  else narrowFinite (signWord b) (mant ||| 0x10000000000000) (ex - 1023)

/-- A sign word goes on top of every magnitude pattern. -/
def IsSign (sign : UInt) (neg : Bool) : Prop :=
  ∀ r : UInt, r.toNat < 2 ^ 31 → (sign ||| r).toNat = binary32.withSign neg r.toNat

theorem signWord_isSign (b : ULong) : IsSign (signWord b) (sfSign b) := by
  intro r hr
  have hlt : b.toNat < 2 ^ 64 := b.isLt
  have hbit : ((b >>> 63) &&& 1).toNat = b.toNat / 2 ^ 63 := by
    rw [BitVec.toNat_and, toNat_shiftRight]
    change _ &&& 1 = _
    rw [Nat.and_one_is_mod]
    omega
  have hword : (signWord b).toNat = 2 ^ 31 * (b.toNat / 2 ^ 63) := by
    rw [signWord, BitVec.toNat_setWidth, toNat_shiftLeft_of_lt (by rw [hbit]; omega), hbit]
    omega
  rw [BitVec.toNat_or, hword, ← Nat.two_pow_add_eq_or_of_lt hr, sfSign_eq, withSign,
    binary32_signBit]
  rcases Nat.lt_or_ge b.toNat (2 ^ 63) with hpos | hneg
  · rw [Nat.div_eq_of_lt hpos]
    simp
  · have hone : b.toNat / 2 ^ 63 = 1 := by omega
    rw [hone]
    simp

/-- The exponent field above the stored significand. -/
theorem narrow_field_toNat {ex : ℤ} {m24 : UInt} (hpos : 1 ≤ ex) (hlt : ex < 255)
    (hge : 2 ^ 23 ≤ m24.toNat) (hm : m24.toNat < 2 ^ 24) :
    ((BitVec.ofInt 32 ex <<< 23) ||| (m24 &&& 0x7fffff)).toNat =
      (ex - 1).toNat * 2 ^ 23 + m24.toNat := by
  have hofInt : (BitVec.ofInt 32 ex).toNat = ex.toNat := by
    rw [BitVec.toNat_ofInt, Int.emod_eq_of_lt (by omega) (by norm_num; omega)]
  have hmask : (m24 &&& 0x7fffff).toNat = m24.toNat - 2 ^ 23 := by
    rw [BitVec.toNat_and]
    change m24.toNat &&& (2 ^ 23 - 1) = _
    rw [Nat.and_two_pow_sub_one_eq_mod]
    omega
  rw [BitVec.toNat_or, toNat_shiftLeft_of_lt (by rw [hofInt]; omega), hofInt, hmask,
    Nat.mul_comm, ← Nat.two_pow_add_eq_or_of_lt (by omega)]
  omega

/-- The last lines of `strtod_to_f32`: a carry out of the significand does not change
the packed number. -/
theorem narrow_emit {sign : UInt} {neg : Bool} (hsign : IsSign sign neg) (ex : ℤ)
    (m24 : UInt)
    (h : (ex = 0 ∧ m24.toNat ≤ 2 ^ 23) ∨
      (1 ≤ ex ∧ 2 ^ 23 ≤ m24.toNat ∧ m24.toNat < 2 ^ 24)) :
    (if ex ≥ 255 then sign ||| 0x7f800000
      else if ex = 0 then sign ||| m24
      else sign ||| (BitVec.ofInt 32 ex <<< 23) ||| (m24 &&& 0x7fffff)).toNat =
      binary32.withSign neg (min binary32.infIndex ((ex - 1).toNat * 2 ^ 23 + m24.toNat)) := by
  rw [binary32_infIndex]
  rcases h with ⟨rfl, hm⟩ | ⟨hpos, hge, hm⟩
  · have hfield : (0 - 1 : ℤ).toNat * 2 ^ 23 + m24.toNat = m24.toNat := by
      rw [show (0 - 1 : ℤ).toNat = 0 from rfl, Nat.zero_mul, Nat.zero_add]
    rw [if_neg (by decide), if_pos rfl, hsign m24 (by omega), hfield,
      Nat.min_eq_right (by omega)]
  · rcases Int.lt_or_le ex 255 with hlt | hover
    · have hfield := narrow_field_toNat hpos hlt hge hm
      rw [if_neg (by omega), if_neg (by omega), BitVec.or_assoc,
        hsign _ (by rw [hfield]; omega), hfield, Nat.min_eq_right (by omega)]
    · have hinf : (0x7f800000 : UInt).toNat = 255 * 2 ^ 23 := by decide
      rw [if_pos hover, hsign _ (by decide), hinf, Nat.min_eq_left (by omega)]

/-- The rounding test of the narrowing is the one on the bits above the cut. -/
theorem narrow_up_iff (mant : ULong) {drop : ℕ} (hdrop : 0 < drop) (sticky : Bool) :
    ((((mant >>> (drop - 1)) &&& 1).setWidth 32 : UInt) ≠ 0 ∧
        (sticky = true ∨ ((mant >>> drop).setWidth 32 : UInt) &&& 1 ≠ 0)) ↔
      ((mant >>> (drop - 1)) &&& 1 ≠ 0 ∧
        (sticky = true ∨ ((mant >>> (drop - 1)) >>> 1) &&& 1 ≠ 0)) := by
  have hnext : (mant >>> (drop - 1)) >>> 1 = mant >>> drop := by
    rw [← BitVec.shiftRight_add, Nat.sub_add_cancel (by omega)]
  have hbit : ((mant >>> (drop - 1)) &&& 1).setWidth 32 ≠ (0 : UInt) ↔
      (mant >>> (drop - 1)) &&& 1 ≠ 0 := by
    have hle : ((mant >>> (drop - 1)) &&& 1).toNat ≤ 1 := by
      rw [BitVec.toNat_and]
      exact Nat.and_le_right
    rw [ne_eq, ne_eq, ← BitVec.toNat_inj, ← BitVec.toNat_inj, BitVec.toNat_setWidth,
      Nat.mod_eq_of_lt (by omega)]
    rfl
  have hlow : ((mant >>> drop).setWidth 32 : UInt) &&& 1 ≠ 0 ↔ (mant >>> drop) &&& 1 ≠ 0 := by
    rw [low_bit_ne_zero_iff _ (by decide), low_bit_ne_zero_iff _ (by decide),
      BitVec.toNat_setWidth]
    omega
  rw [hnext, hbit, hlow]

/-- The rounded significand goes out under its exponent, whichever of the two it is. -/
theorem narrowRounded_toNat {sign : UInt} {neg : Bool} (hsign : IsSign sign neg)
    {mant : ULong} {drop : ℕ} {ex : ℤ} (hdrop : 29 ≤ drop) (hlt : drop < 54)
    (hex : (ex = 0 ∧ mant.toNat / 2 ^ (drop - 1) < 2 ^ 24) ∨
      (1 ≤ ex ∧ 2 ^ 24 ≤ mant.toNat / 2 ^ (drop - 1) ∧
        mant.toNat / 2 ^ (drop - 1) < 2 ^ 25)) :
    (narrowRounded sign mant drop ex).toNat =
      binary32.withSign neg (min binary32.infIndex ((ex - 1).toNat * 2 ^ 23 +
        roundGuard (4 * (mant.toNat / 2 ^ (drop - 1)) +
          2 * (decide (mant.toNat % 2 ^ (drop - 1) ≠ 0)).toNat))) := by
  have hcut := toNat_shiftRight mant (drop - 1)
  have hnext : (mant >>> (drop - 1)) >>> 1 = mant >>> drop := by
    rw [← BitVec.shiftRight_add, Nat.sub_add_cancel (by omega)]
  have hhalf : (mant >>> drop).toNat = mant.toNat / 2 ^ (drop - 1) / 2 := by
    rw [← hnext, toNat_shiftRight, hcut, Nat.pow_one]
  have hwidth : ((mant >>> drop).setWidth 32 : UInt).toNat = (mant >>> drop).toNat := by
    rw [BitVec.toNat_setWidth]
    omega
  have hlost : (mant &&& ((1 : ULong) <<< (drop - 1) - 1) != 0) =
      decide (mant.toNat % 2 ^ (drop - 1) ≠ 0) := by
    rw [Bool.eq_iff_iff, bne_iff_ne, decide_eq_true_eq, ne_eq, ← BitVec.toNat_inj,
      low_bits_toNat mant (by omega)]
    rfl
  rw [← hcut, roundGuard_cut, if_congr (narrow_up_iff mant (by omega) _).symm rfl rfl, hnext]
  unfold narrowRounded
  rw [hlost]
  generalize decide (mant.toNat % 2 ^ (drop - 1) ≠ 0) = sticky
  rw [← hcut] at hhalf hex
  generalize ((mant >>> (drop - 1)) &&& 1).setWidth 32 = rbit
  generalize ((mant >>> drop).setWidth 32 : UInt) = m24 at hwidth
  rw [← hwidth]
  by_cases hup : rbit ≠ 0 ∧ (sticky = true ∨ m24 &&& 1 ≠ 0)
  · have hsucc : (m24 + 1).toNat = m24.toNat + 1 := by
      rw [BitVec.toNat_add]
      change (_ + 1) % 2 ^ 32 = _
      omega
    have hconst : (0x1000000 : UInt).toNat = 2 ^ 24 := by decide
    by_cases hcarry : m24 + 1 = 0x1000000
    · have htwo : m24.toNat + 1 = 2 ^ 24 := by rw [← hsucc, hcarry, hconst]
      have hshift := toNat_shiftRight (m24 + 1) 1
      rw [hsucc, htwo] at hshift
      have h := narrow_emit hsign (ex + 1) ((m24 + 1) >>> 1)
        (Or.inr (by omega))
      have hsame : (ex + 1 - 1).toNat * 2 ^ 23 + ((m24 + 1) >>> 1).toNat =
          (ex - 1).toNat * 2 ^ 23 + (m24.toNat + 1) := by omega
      rw [hsame] at h
      simpa only [if_pos hup, if_pos hcarry] using h
    · have hne : m24.toNat + 1 ≠ 2 ^ 24 := by
        intro h
        exact hcarry (BitVec.eq_of_toNat_eq (by rw [hsucc, hconst, h]))
      have h := narrow_emit hsign ex (m24 + 1) (by omega)
      rw [hsucc] at h
      simpa only [if_pos hup, if_neg hcarry] using h
  · have h := narrow_emit hsign ex m24 (by omega)
    simpa only [if_neg hup, Nat.add_zero] using h

/-- Rounding a significand with its exponent, the binary point after bit 52. -/
theorem narrowFinite_rounds {sign : UInt} {neg : Bool} (hsign : IsSign sign neg)
    {mant : ULong} {ex : ℤ} (hm : mant.toNat < 2 ^ 53)
    (hex : ex = -1022 ∨ 2 ^ 52 ≤ mant.toNat) :
    binary32.RoundsTo neg (mant.toNat * 2 ^ (ex - 52)) (narrowFinite sign mant ex).toNat := by
  have htwo : (2 : ℚ) ≠ 0 := by norm_num
  have hmQ : (mant.toNat : ℚ) < 2 ^ 53 := by exact_mod_cast hm
  unfold narrowFinite
  dsimp only
  by_cases hover : ex + 127 ≥ 255
  · -- from twice the largest power on
    have hge : 2 ^ 52 ≤ mant.toNat := hex.resolve_left (by omega)
    have hgeQ : (2 : ℚ) ^ 52 ≤ mant.toNat := by exact_mod_cast hge
    have hexp : (2 : ℚ) ^ (76 : ℤ) ≤ 2 ^ (ex - 52) :=
      zpow_le_zpow_right₀ (by norm_num) (by omega)
    have hle : binary32.grid binary32.infIndex ≤ mant.toNat * 2 ^ (ex - 52) := by
      calc binary32.grid binary32.infIndex = 2 ^ 52 * 2 ^ (76 : ℤ) := by
            rw [binary32_grid_inf]
            norm_num
        _ ≤ mant.toNat * 2 ^ (ex - 52) := mul_le_mul hgeQ hexp (by positivity) (by positivity)
    have hinf : (0x7f800000 : UInt).toNat = binary32.infIndex := by
      rw [binary32_infIndex]
      decide
    rw [if_pos hover, hsign _ (by decide), hinf, roundsTo_withSign_iff]
    exact NearestEven.of_last_le binary32.grid_strictMono hle
  rw [if_neg hover]
  by_cases hsub : ex + 127 ≤ 0
  · rw [if_pos hsub]
    by_cases hfar : 29 + (1 - (ex + 127)) ≥ 54
    · have hzero : sign.toNat = binary32.withSign neg 0 := by
        have h := hsign 0 (by decide)
        rwa [show sign ||| 0 = sign from BitVec.or_zero] at h
      have hexp : (2 : ℚ) ^ (ex - 52) ≤ 2 ^ (-203 : ℤ) :=
        zpow_le_zpow_right₀ (by norm_num) (by omega)
      rw [if_pos hfar, hzero, roundsTo_withSign_iff]
      apply nearestEven_binary32_zero
      calc (mant.toNat : ℚ) * 2 ^ (ex - 52)
          ≤ 2 ^ 53 * 2 ^ (-203 : ℤ) := mul_le_mul hmQ.le hexp (by positivity) (by norm_num)
        _ = 2 ^ (-150 : ℤ) := by
            rw [← zpow_natCast (2 : ℚ) 53, ← zpow_add₀ htwo]
            norm_num
    · obtain ⟨d, hd⟩ := Int.eq_ofNat_of_zero_le (show 0 ≤ 28 + (1 - (ex + 127)) by omega)
      have hdrop : 29 + (1 - (ex + 127)) = ((d + 1 : ℕ) : ℤ) := by
        push_cast
        omega
      rw [if_neg hfar, hdrop, Int.toNat_natCast]
      have hpow : 2 ^ 29 ≤ 2 ^ d := Nat.pow_le_pow_right (by decide) (by omega)
      have hq : mant.toNat / 2 ^ d < 2 ^ 24 := by
        apply Nat.div_lt_of_lt_mul
        calc mant.toNat < 2 ^ 29 * 2 ^ 24 := hm
          _ ≤ 2 ^ d * 2 ^ 24 := Nat.mul_le_mul_right _ hpow
      have hcut := Cut.of_div (K := ℚ) (Nat.div_add_mod' mant.toNat (2 ^ d))
        (Nat.mod_lt _ (Nat.two_pow_pos d))
      have hnear := binary32.nearestEven_cut (k := 0) (e := -150) hcut
        (hq.trans (by norm_num [binary32])) (Or.inl rfl)
        (by rw [binary32_minExp]; norm_num)
      rw [narrowRounded_toNat hsign (by omega) (by omega) (Or.inl ⟨rfl, hq⟩),
        roundsTo_withSign_iff]
      have hvalue : (mant.toNat : ℚ) / ((2 ^ d : ℕ) : ℚ) * 2 ^ (-150 : ℤ) =
          mant.toNat * 2 ^ (ex - 52) := by
        rw [show ex - 52 = -150 - (d : ℤ) by omega, zpow_sub₀ htwo, zpow_natCast]
        push_cast
        ring
      rw [hvalue] at hnear
      exact hnear
  · have hge : 2 ^ 52 ≤ mant.toNat := hex.resolve_left (by omega)
    obtain ⟨k, hk⟩ := Int.eq_ofNat_of_zero_le (show 0 ≤ ex + 126 by omega)
    have hcut := Cut.of_div (K := ℚ) (Nat.div_add_mod' mant.toNat (2 ^ 28))
      (Nat.mod_lt _ (Nat.two_pow_pos 28))
    have hnear := binary32.nearestEven_cut (k := k) (e := ex - 24) hcut
      (show _ < 2 ^ 25 by omega) (Or.inr (show 2 ^ 24 ≤ _ by omega))
      (by rw [binary32_minExp]; omega)
    rw [if_neg hsub, narrowRounded_toNat hsign (by omega) (by omega)
      (Or.inr ⟨by omega, by omega, by omega⟩), roundsTo_withSign_iff,
      show (ex + 127 - 1).toNat = k by omega]
    have hvalue : (mant.toNat : ℚ) / ((2 ^ 28 : ℕ) : ℚ) * 2 ^ (ex - 24) =
        mant.toNat * 2 ^ (ex - 52) := by
      rw [show ex - 52 = ex - 24 - (28 : ℕ) by push_cast; ring, zpow_sub₀ htwo (ex - 24),
        zpow_natCast]
      push_cast
      ring
    rw [hvalue] at hnear
    exact hnear

theorem strtodToF32_rounds (b : ULong) :
    binary32.IsConversion (binary64.decode b.toNat) (strtodToF32 b).toNat := by
  have hsign := signWord_isSign b
  change binary32.IsConversion _ (if sfExp b = 0x7ff then
      if sfMant b ≠ 0 then signWord b ||| 0x7f800000 ||| 0x400000 else signWord b ||| 0x7f800000
    else if sfExp b = 0 ∧ sfMant b = 0 then signWord b
    else if sfExp b = 0 then narrowFinite (signWord b) (sfMant b) (-1022)
    else narrowFinite (signWord b) (sfMant b ||| SoftFloat.hidden) (sfExp b - 1023)).toNat
  by_cases hones : sfExp b = 0x7ff
  · rw [if_pos hones, decode_exp_all_ones hones]
    by_cases hmant : sfMant b ≠ 0
    · have hquiet : (0x7f800000 ||| 0x400000 : UInt).toNat = 511 * 2 ^ 22 := by decide
      rw [if_pos hmant, if_pos hmant, BitVec.or_assoc, hsign _ (by decide), hquiet]
      exact binary32.decode_withSign_nan _ (by norm_num [binary32_infIndex])
        (by norm_num [binary32_signBit])
    · have hinf : (0x7f800000 : UInt).toNat = binary32.infIndex := by
        rw [binary32_infIndex]
        decide
      rw [if_neg hmant, if_neg hmant, hsign _ (by decide), hinf]
      rfl
  rw [if_neg hones, decode_exp_low hones]
  change binary32.RoundsTo _ _ _
  by_cases hexp : sfExp b = 0
  · have hmant := sfMant_toNat b
    rw [grid_of_exp_zero hexp]
    by_cases hzero : sfMant b = 0
    · have hword : (signWord b).toNat = binary32.withSign (sfSign b) 0 := by
        have h := hsign 0 (by decide)
        rwa [show signWord b ||| 0 = signWord b from BitVec.or_zero] at h
      rw [if_pos ⟨hexp, hzero⟩, hword, hzero, roundsTo_withSign_iff]
      apply nearestEven_binary32_zero
      rw [show ((0 : ULong).toNat : ℚ) = 0 from Nat.cast_zero, zero_mul]
      positivity
    · rw [if_neg fun h => hzero h.2, if_pos hexp]
      exact narrowFinite_rounds hsign (by omega) (Or.inl rfl)
  · obtain ⟨hvalue, hge, hlt⟩ := grid_eq_scaled b hexp
    rw [if_neg fun h => hexp h.1, if_neg hexp, hvalue]
    exact narrowFinite_rounds hsign hlt (Or.inr hge)

end Strtod

end Veron
