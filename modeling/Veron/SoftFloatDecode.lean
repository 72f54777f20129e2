/-
Reading the fields of a bit pattern.  The predicates of the source classify a
word exactly as the format decodes it, and unpacking a nonzero finite word
gives its value with bit 55 leading and three clear guard bits.
-/
import Veron.SoftFloatPack

namespace Veron

namespace SoftFloat

open BinaryFormat

theorem sfSign_eq (a : ULong) : sfSign a = decide (a.toNat / 2 ^ 63 % 2 = 1) := by
  have hshift := toNat_shiftRight a 63
  have hlt : a.toNat < 2 ^ 64 := a.isLt
  have hiff : a >>> 63 ≠ 0 ↔ a.toNat / 2 ^ 63 % 2 = 1 := by
    rw [ne_eq, ← BitVec.toNat_inj, hshift]
    change ¬ _ = 0 ↔ _
    omega
  rw [sfSign, Bool.eq_iff_iff, bne_iff_ne, decide_eq_true_eq, hiff]

theorem sfMant_toNat (a : ULong) : (sfMant a).toNat = a.toNat % 2 ^ 52 := by
  rw [sfMant, BitVec.toNat_and]
  exact Nat.and_two_pow_sub_one_eq_mod _ 52

theorem sfExp_eq (a : ULong) : sfExp a = (a.toNat / 2 ^ 52 % 2 ^ 11 : ℕ) := by
  rw [sfExp, BitVec.toNat_and, toNat_shiftRight]
  exact congrArg Nat.cast (Nat.and_two_pow_sub_one_eq_mod _ 11)

theorem sfMant_eq_zero_iff (a : ULong) : sfMant a = 0 ↔ a.toNat % 2 ^ 52 = 0 := by
  rw [← BitVec.toNat_inj, sfMant_toNat]
  rfl

/-- The magnitude pattern is the exponent field above the fraction. -/
theorem mag_split (a : ULong) :
    a.toNat % 2 ^ 63 = a.toNat / 2 ^ 52 % 2 ^ 11 * 2 ^ 52 + a.toNat % 2 ^ 52 := by
  have hlt : a.toNat < 2 ^ 64 := a.isLt
  omega

theorem sfIsNan_iff (a : ULong) :
    sfIsNan a = true ↔ binary64.infIndex < a.toNat % 2 ^ 63 := by
  rw [sfIsNan, Bool.and_eq_true, beq_iff_eq, bne_iff_ne, ne_eq, sfExp_eq,
    sfMant_eq_zero_iff, mag_split, binary64_infIndex]
  omega

theorem sfIsInf_iff (a : ULong) :
    sfIsInf a = true ↔ a.toNat % 2 ^ 63 = binary64.infIndex := by
  rw [sfIsInf, Bool.and_eq_true, beq_iff_eq, beq_iff_eq, sfExp_eq,
    sfMant_eq_zero_iff, mag_split, binary64_infIndex]
  omega

theorem sfIsZero_iff (a : ULong) : sfIsZero a = true ↔ a.toNat % 2 ^ 63 = 0 := by
  rw [sfIsZero, beq_iff_eq, ← BitVec.toNat_inj, BitVec.toNat_and]
  change a.toNat &&& (2 ^ 63 - 1) = 0 ↔ _
  rw [Nat.and_two_pow_sub_one_eq_mod]

/-- A word is its sign on top of its magnitude pattern. -/
theorem toNat_eq_withSign (a : ULong) :
    a.toNat = binary64.withSign (sfSign a) (a.toNat % 2 ^ 63) := by
  have hlt : a.toNat < 2 ^ 64 := a.isLt
  rw [withSign, binary64_signBit, sfSign_eq]
  by_cases h : a.toNat / 2 ^ 63 % 2 = 1
  · simp only [h, decide_true, ↓reduceIte]
    omega
  · simp only [h, decide_false, Bool.false_eq_true, ↓reduceIte]
    omega

theorem decode_eq (a : ULong) :
    binary64.decode a.toNat =
      if sfIsNan a then .nan
      else if sfIsInf a then .infinite (sfSign a)
      else .finite (sfSign a) (binary64.grid (a.toNat % 2 ^ 63)) := by
  simp only [decode, binary64_signBit, ← sfSign_eq, sfIsNan_iff, sfIsInf_iff]

theorem decode_nan {a : ULong} (h : sfIsNan a = true) :
    binary64.decode a.toNat = .nan := by
  rw [decode_eq, if_pos h]

theorem decode_infinite {a : ULong} (hnan : sfIsNan a = false)
    (hinf : sfIsInf a = true) :
    binary64.decode a.toNat = .infinite (sfSign a) ∧
      a.toNat = binary64.withSign (sfSign a) binary64.infIndex := by
  rw [decode_eq, hnan, hinf]
  refine ⟨rfl, ?_⟩
  rw [← (sfIsInf_iff a).mp hinf]
  exact toNat_eq_withSign a

theorem decode_finite {a : ULong} (hnan : sfIsNan a = false)
    (hinf : sfIsInf a = false) :
    binary64.decode a.toNat =
        .finite (sfSign a) (binary64.grid (a.toNat % 2 ^ 63)) ∧
      a.toNat % 2 ^ 63 < binary64.infIndex := by
  rw [decode_eq, hnan, hinf]
  refine ⟨rfl, ?_⟩
  have hn := (sfIsNan_iff a).not.mp (by simp [hnan])
  have hi := (sfIsInf_iff a).not.mp (by simp [hinf])
  omega

theorem grid_of_isZero {a : ULong} (h : sfIsZero a = true) :
    binary64.grid (a.toNat % 2 ^ 63) = 0 := by
  rw [(sfIsZero_iff a).mp h, grid_zero]

theorem quietNan_toNat : quietNan.toNat = binary64.quietNan := by
  decide

/-- An exponent and a significand with bit 55 leading, three guard bits clear,
and the value they hold. -/
structure Unpacked (e : ℤ) (sig : ULong) (x : ℚ) : Prop where
  value : x = sig.toNat * 2 ^ (e - 55)
  leading : 2 ^ 55 ≤ sig.toNat
  bounded : sig.toNat < 2 ^ 56
  guard : 8 ∣ sig.toNat

theorem Unpacked.pos {e : ℤ} {sig : ULong} {x : ℚ} (h : Unpacked e sig x) :
    0 < x := by
  have hsig : (0 : ℚ) < sig.toNat := by
    have := h.leading
    exact_mod_cast (by omega : 0 < sig.toNat)
  rw [h.value]
  positivity

theorem unpack_subnormal (a : ULong) (hexp : sfExp a = 0) (hmant : sfMant a ≠ 0) :
    Unpacked (sfUnpack a).1 (sfUnpack a).2 (binary64.grid (a.toNat % 2 ^ 63)) := by
  have hm := sfMant_toNat a
  have hpos := toNat_ne_zero hmant
  have hshift : (sfMant a <<< 3).toNat = (sfMant a).toNat * 8 :=
    toNat_shiftLeft_of_lt (by omega)
  have hne : sfMant a <<< 3 ≠ 0 := by
    intro h
    rw [h] at hshift
    change 0 = _ at hshift
    omega
  obtain ⟨j, hexp', hval, hge, hbound⟩ := normalizeUp_spec (sfMant a <<< 3) (-1022) hne
  have hunpack : sfUnpack a = ((normalizeUp (sfMant a <<< 3) (-1022)).2,
      (normalizeUp (sfMant a <<< 3) (-1022)).1) := by
    simp only [sfUnpack, hexp, hmant, ↓reduceIte]
  rw [hunpack]
  have hfield : a.toNat / 2 ^ 52 % 2 ^ 11 = 0 := by
    rw [sfExp_eq] at hexp
    exact_mod_cast hexp
  have hmag : a.toNat % 2 ^ 63 = (sfMant a).toNat := by
    rw [mag_split, hfield, hm]
    omega
  refine ⟨?_, hge, ?_, ?_⟩
  · have hgrid := binary64.grid_pack (k := 0) (s := (sfMant a).toNat)
      (by norm_num [binary64]; omega) (Or.inl rfl)
    rw [Nat.zero_mul, Nat.zero_add, binary64_minExp] at hgrid
    have htwo : (2 : ℚ) ≠ 0 := by norm_num
    have hscale : (2 : ℚ) ^ (-1022 - (j : ℤ) - 55) =
        2 ^ ((-1074 : ℤ) + (0 : ℕ)) / 2 ^ j / 8 := by
      have heq : -1022 - (j : ℤ) - 55 = -1074 + (0 : ℕ) - j - 3 := by
        push_cast
        ring
      rw [heq, zpow_sub₀ htwo, zpow_sub₀ htwo, zpow_natCast]
      norm_num
    dsimp only
    rw [hmag, hgrid, hexp', hval, hshift, hscale]
    generalize (2 : ℚ) ^ ((-1074 : ℤ) + (0 : ℕ)) = scale
    push_cast
    field_simp
  · rcases hbound with rfl | hbound
    · dsimp only
      rw [hval, hshift]
      omega
    · exact hbound
  · dsimp only
    rw [hval, hshift, ← Nat.mul_assoc]
    exact Nat.dvd_mul_left 8 _

theorem unpack_normal (a : ULong) (hexp : sfExp a ≠ 0) :
    Unpacked (sfUnpack a).1 (sfUnpack a).2 (binary64.grid (a.toNat % 2 ^ 63)) := by
  have hm := sfMant_toNat a
  have hunpack : sfUnpack a = (sfExp a - 1023, (sfMant a ||| hidden) <<< 3) := by
    simp only [sfUnpack, hexp, ↓reduceIte]
  have hor : (sfMant a ||| hidden).toNat = 2 ^ 52 + (sfMant a).toNat := by
    have hlt : (sfMant a).toNat < 2 ^ 52 := by omega
    rw [BitVec.toNat_or, Nat.or_comm]
    exact (Nat.two_pow_add_eq_or_of_lt hlt 1).symm
  have hsig : ((sfMant a ||| hidden) <<< 3).toNat = (2 ^ 52 + (sfMant a).toNat) * 8 := by
    rw [toNat_shiftLeft_of_lt (by rw [hor]; omega), hor]
    norm_num
  rw [sfExp_eq] at hexp hunpack
  obtain ⟨k, hk⟩ := Nat.exists_eq_add_of_lt
    (Nat.pos_of_ne_zero fun h => hexp (congrArg Nat.cast h))
  rw [Nat.zero_add] at hk
  rw [hunpack]
  refine ⟨?_, ?_, ?_, ?_⟩
  · have hgrid := binary64.grid_pack (k := k) (s := 2 ^ 52 + (sfMant a).toNat)
      (by norm_num [binary64]; omega) (Or.inr (Nat.le_add_right _ _))
    have hmag : a.toNat % 2 ^ 63 =
        k * 2 ^ binary64.trail + (2 ^ 52 + (sfMant a).toNat) := by
      change _ = k * 2 ^ 52 + _
      rw [mag_split, hk, hm]
      ring
    have htwo : (2 : ℚ) ≠ 0 := by norm_num
    have hscale : (2 : ℚ) ^ (((k + 1 : ℕ) : ℤ) - 1023 - 55) =
        2 ^ ((-1074 : ℤ) + k) / 8 := by
      have heq : ((k + 1 : ℕ) : ℤ) - 1023 - 55 = -1074 + k - 3 := by
        push_cast
        ring
      rw [heq, zpow_sub₀ htwo]
      norm_num
    dsimp only
    rw [hmag, hgrid, hsig, hk, hscale, binary64_minExp]
    push_cast
    ring
  · dsimp only
    rw [hsig]
    omega
  · dsimp only
    rw [hsig]
    omega
  · dsimp only
    rw [hsig]
    exact Nat.dvd_mul_left 8 _

/-- The value of a normal word, its exponent counted from the binary point. -/
theorem grid_eq_scaled (a : ULong) (hexp : sfExp a ≠ 0) :
    binary64.grid (a.toNat % 2 ^ 63) =
      (sfMant a ||| hidden).toNat * 2 ^ (sfExp a - 1023 - 52) ∧
    2 ^ 52 ≤ (sfMant a ||| hidden).toNat ∧ (sfMant a ||| hidden).toNat < 2 ^ 53 := by
  have hunpack : sfUnpack a = (sfExp a - 1023, (sfMant a ||| hidden) <<< 3) := by
    simp only [sfUnpack, hexp, ↓reduceIte]
  have hmant : (sfMant a).toNat < 2 ^ 52 := by
    rw [sfMant_toNat]
    exact Nat.mod_lt _ (by decide)
  have hor : (sfMant a ||| hidden).toNat = 2 ^ 52 + (sfMant a).toNat := by
    rw [BitVec.toNat_or, Nat.or_comm]
    exact (Nat.two_pow_add_eq_or_of_lt hmant 1).symm
  have hshift : ((sfMant a ||| hidden) <<< 3).toNat = (sfMant a ||| hidden).toNat * 2 ^ 3 :=
    toNat_shiftLeft_of_lt (by omega)
  have hvalue := (unpack_normal a hexp).value
  rw [hunpack, hshift] at hvalue
  refine ⟨?_, by omega, by omega⟩
  rw [hvalue, show sfExp a - 1023 - 55 = sfExp a - 1023 - 52 - (3 : ℕ) by push_cast; ring,
    zpow_sub₀ (by norm_num), zpow_natCast]
  push_cast
  field_simp
  norm_num

theorem decode_exp_all_ones {b : ULong} (hexp : sfExp b = 0x7ff) :
    binary64.decode b.toNat = if sfMant b ≠ 0 then .nan else .infinite (sfSign b) := by
  by_cases hmant : sfMant b = 0
  · rw [if_neg (not_not.mpr hmant)]
    exact (decode_infinite (by simp [sfIsNan, hmant]) (by simp [sfIsInf, hexp, hmant])).1
  · rw [if_pos hmant]
    exact decode_nan (by simpa [sfIsNan, hexp] using hmant)

theorem decode_exp_low {b : ULong} (hexp : sfExp b ≠ 0x7ff) :
    binary64.decode b.toNat = .finite (sfSign b) (binary64.grid (b.toNat % 2 ^ 63)) :=
  (decode_finite (by simp [sfIsNan, hexp]) (by simp [sfIsInf, hexp])).1

/-- The value of a word whose exponent field is empty. -/
theorem grid_of_exp_zero {b : ULong} (hexp : sfExp b = 0) :
    binary64.grid (b.toNat % 2 ^ 63) = (sfMant b).toNat * 2 ^ (-1022 - 52 : ℤ) := by
  have hmant := sfMant_toNat b
  rw [sfExp_eq] at hexp
  have hmag : b.toNat % 2 ^ 63 = (sfMant b).toNat := by
    rw [mag_split, hmant]
    omega
  have hgrid := binary64.grid_pack (k := 0) (s := (sfMant b).toNat)
    (by norm_num [binary64]; omega) (Or.inl rfl)
  rw [Nat.zero_mul, Nat.zero_add, binary64_minExp] at hgrid
  rw [hmag, hgrid]
  norm_num

theorem sfUnpack_spec (a : ULong) (hzero : sfIsZero a = false) :
    Unpacked (sfUnpack a).1 (sfUnpack a).2 (binary64.grid (a.toNat % 2 ^ 63)) := by
  by_cases hexp : sfExp a = 0
  · apply unpack_subnormal a hexp
    intro hmant
    rw [sfMant_eq_zero_iff] at hmant
    have hfield : a.toNat / 2 ^ 52 % 2 ^ 11 = 0 := by
      rw [sfExp_eq] at hexp
      exact_mod_cast hexp
    have hiff := sfIsZero_iff a
    rw [hzero, mag_split, hfield, hmant] at hiff
    simp at hiff
  · exact unpack_normal a hexp

end SoftFloat

end Veron
