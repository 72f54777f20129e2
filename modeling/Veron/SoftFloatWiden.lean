/-
Widening binary32 to binary64.  It is exact, so narrowing a widened number gives
it back.
-/
import Mathlib.Data.Nat.Bitwise
import Veron.SoftFloatNarrow

namespace Veron

namespace SoftFloat

open BinaryFormat

/-- `sf_to_f32`. -/
def sfToF32 (b : ULong) : UInt := Strtod.strtodToF32 b

/-- `while ((mant & 8388608) == 0) { mant = mant << 1; e = e - 1; }`.  It is entered
with a nonzero significand below bit 23; the further tests make the recursion
total. -/
def widenLoop (mant : ULong) (e : ℤ) : ULong × ℤ :=
  if mant &&& 8388608 = 0 ∧ mant ≠ 0 ∧ mant < 8388608 then widenLoop (mant <<< 1) (e - 1)
  else (mant, e)
termination_by 2 ^ 23 - mant.toNat
decreasing_by
  rename_i h
  obtain ⟨-, hne, hlt⟩ := h
  have hpos := toNat_ne_zero hne
  have hlt : mant.toNat < 2 ^ 23 := hlt
  rw [BitVec.toNat_shiftLeft, Nat.shiftLeft_eq]
  omega

/-- `sf_from_f32`. -/
def sfFromF32 (f : UInt) : ULong :=
  let sign : ULong := f.setWidth 64 >>> 31
  let ex : ULong := (f.setWidth 64 >>> 23) &&& 255
  let mant : ULong := f.setWidth 64 &&& 8388607
  if ex = 255 then
    if mant ≠ 0 then 0x7ff8000000000000
    else if sign ≠ 0 then 0xfff0000000000000
    else 0x7ff0000000000000
  else if ex = 0 then
    if mant = 0 then (if sign ≠ 0 then 0x8000000000000000 else 0)
    else
      -- a subnormal float is normal in the wider exponent
      let (mant, e) := widenLoop mant (-126)
      let mant := mant &&& 8388607
      (sign <<< 63) ||| (BitVec.ofInt 64 (e + 1023) <<< 52) ||| (mant <<< 29)
  else (sign <<< 63) ||| ((ex - 127 + 1023) <<< 52) ||| (mant <<< 29)

/-- The loop shifts the leading bit to place 23, and lowers the exponent by as much. -/
theorem widenLoop_spec (mant : ULong) (e : ℤ) (hne : mant ≠ 0) (hlt : mant.toNat < 2 ^ 24) :
    ∃ j : ℕ, (widenLoop mant e).2 = e - j ∧
      (widenLoop mant e).1.toNat = mant.toNat * 2 ^ j ∧
      2 ^ 23 ≤ (widenLoop mant e).1.toNat ∧ (widenLoop mant e).1.toNat < 2 ^ 24 := by
  induction mant, e using widenLoop.induct with
  | case1 mant e hlow ih =>
      have hsmall : mant.toNat < 2 ^ 23 := hlow.2.2
      have hpos := toNat_ne_zero hne
      have hdouble : (mant <<< 1).toNat = mant.toNat * 2 ^ 1 :=
        toNat_shiftLeft_of_lt (by omega)
      have hne' : mant <<< 1 ≠ 0 := by
        intro h
        rw [h] at hdouble
        change 0 = _ at hdouble
        omega
      obtain ⟨j, hexp, hval, hge, hlt'⟩ := ih hne' (by omega)
      rw [widenLoop, if_pos hlow]
      refine ⟨j + 1, ?_, ?_, hge, hlt'⟩
      · rw [hexp]
        push_cast
        ring
      · rw [hval, hdouble, pow_succ]
        ring
  | case2 mant e hhigh =>
      rw [widenLoop, if_neg hhigh]
      refine ⟨0, by simp, by simp, ?_, hlt⟩
      by_contra hsmall
      have hbit : mant &&& 8388608 = 0 := by
        rw [← BitVec.toNat_inj, BitVec.toNat_and]
        change mant.toNat &&& 2 ^ 23 = 0
        rw [Nat.and_two_pow, Nat.testBit_lt_two_pow (Nat.not_le.mp hsmall)]
        rfl
      exact hhigh ⟨hbit, hne, Nat.not_le.mp hsmall⟩

/-- The sign bit goes on top of a magnitude pattern. -/
theorem widen_sign_toNat (f : UInt) {r : ULong} (hr : r.toNat < 2 ^ 63) :
    ((f.setWidth 64 >>> 31 : ULong) <<< 63 ||| r).toNat =
      binary64.withSign (decide (f.toNat / binary32.signBit % 2 = 1)) r.toNat := by
  have hlt : f.toNat < 2 ^ 32 := f.isLt
  have hbit : (f.setWidth 64 >>> 31 : ULong).toNat = f.toNat / 2 ^ 31 := by
    rw [toNat_shiftRight, BitVec.toNat_setWidth]
    omega
  rw [BitVec.toNat_or, toNat_shiftLeft_of_lt (by rw [hbit]; omega), hbit, Nat.mul_comm,
    ← Nat.two_pow_add_eq_or_of_lt hr, withSign, binary64_signBit, binary32_signBit]
  rcases Nat.lt_or_ge f.toNat (2 ^ 31) with hpos | hneg
  · rw [Nat.div_eq_of_lt hpos]
    simp
  · have hone : f.toNat / 2 ^ 31 = 1 := by omega
    rw [hone]
    simp

/-- A 24-bit significand moved up to the place it has in the wider format. -/
theorem widen_field_toNat {k s : ℕ} {ex mant : ULong} (hk : ex.toNat = k + 1) (hlt : k < 2046)
    (hs : 2 ^ 23 ≤ s) (hs' : s < 2 ^ 24) (hmant : mant.toNat = s - 2 ^ 23) :
    ((ex <<< 52) ||| (mant <<< 29)).toNat = k * 2 ^ 52 + s * 2 ^ 29 := by
  rw [BitVec.toNat_or, toNat_shiftLeft_of_lt (by omega), toNat_shiftLeft_of_lt (by omega), hk,
    hmant, Nat.mul_comm, ← Nat.two_pow_add_eq_or_of_lt (by omega)]
  omega

theorem decode_widened (neg : Bool) {k s : ℕ} (hlt : k < 2046) (hs : 2 ^ 23 ≤ s)
    (hs' : s < 2 ^ 24) :
    binary64.decode (binary64.withSign neg (k * 2 ^ 52 + s * 2 ^ 29)) =
      .finite neg (s * 2 ^ ((k : ℤ) - 1045)) := by
  have hgrid := binary64.grid_pack (k := k) (s := s * 2 ^ 29) (show _ ≤ 2 ^ 53 by omega)
    (Or.inr (show 2 ^ 52 ≤ _ by omega))
  have hscale : ((s * 2 ^ 29 : ℕ) : ℚ) * 2 ^ (binary64.minExp + k) =
      s * 2 ^ ((k : ℤ) - 1045) := by
    have hexp : (k : ℤ) - 1045 = (29 : ℕ) + (binary64.minExp + k) := by
      rw [binary64_minExp]
      push_cast
      ring
    rw [hexp, zpow_add₀ (by norm_num) ((29 : ℕ) : ℤ), zpow_natCast]
    push_cast
    ring
  rw [binary64.decode_withSign neg (by rw [binary64_infIndex]; omega)]
  rw [hscale] at hgrid
  rw [← hgrid]
  rfl

theorem sfFromF32_decode (f : UInt) :
    binary64.decode (sfFromF32 f).toNat = binary32.decode f.toNat := by
  have hflt : f.toNat < 2 ^ 32 := f.isLt
  have hexp : ((f.setWidth 64 >>> 23 : ULong) &&& 255).toNat = f.toNat / 2 ^ 23 % 2 ^ 8 := by
    rw [BitVec.toNat_and, toNat_shiftRight, BitVec.toNat_setWidth,
      Nat.mod_eq_of_lt (hflt.trans (by decide))]
    exact Nat.and_two_pow_sub_one_eq_mod _ 8
  have hmant : ((f.setWidth 64 : ULong) &&& 8388607).toNat = f.toNat % 2 ^ 23 := by
    rw [BitVec.toNat_and, BitVec.toNat_setWidth, Nat.mod_eq_of_lt (hflt.trans (by decide))]
    exact Nat.and_two_pow_sub_one_eq_mod _ 23
  have hsign : (f.setWidth 64 >>> 31 : ULong) ≠ 0 ↔
      decide (f.toNat / binary32.signBit % 2 = 1) = true := by
    rw [decide_eq_true_iff, ne_eq, ← BitVec.toNat_inj, toNat_shiftRight, BitVec.toNat_setWidth,
      binary32_signBit]
    change ¬ _ = 0 ↔ _
    omega
  have hput : ∀ r : ULong, r.toNat < 2 ^ 63 → _ := fun r hr => widen_sign_toNat f hr
  have hsplit := binary32.eq_withSign (b := f.toNat) (by rw [binary32_signBit]; omega)
  have hmag : f.toNat % binary32.signBit =
      f.toNat / 2 ^ 23 % 2 ^ 8 * 2 ^ 23 + f.toNat % 2 ^ 23 := by
    rw [binary32_signBit]
    omega
  have hE : f.toNat / 2 ^ 23 % 2 ^ 8 < 2 ^ 8 := Nat.mod_lt _ (by decide)
  have hM : f.toNat % 2 ^ 23 < 2 ^ 23 := Nat.mod_lt _ (by decide)
  rw [hsplit, hmag]
  unfold sfFromF32
  dsimp only
  generalize (f.setWidth 64 >>> 23 : ULong) &&& 255 = ex at hexp ⊢
  generalize (f.setWidth 64 : ULong) &&& 8388607 = mant at hmant ⊢
  generalize (f.setWidth 64 : ULong) >>> 31 = sign at hput hsign ⊢
  generalize decide (f.toNat / binary32.signBit % 2 = 1) = neg at hput hsign ⊢
  generalize f.toNat / 2 ^ 23 % 2 ^ 8 = E at hexp hE ⊢
  generalize f.toNat % 2 ^ 23 = M at hmant hM ⊢
  rw [if_congr hsign rfl rfl, if_congr hsign rfl rfl]
  have hones : ex = 255 ↔ E = 255 := by
    rw [← BitVec.toNat_inj, hexp]
    rfl
  have hempty : ex = 0 ↔ E = 0 := by
    rw [← BitVec.toNat_inj, hexp]
    rfl
  have hzero : mant = 0 ↔ M = 0 := by
    rw [← BitVec.toNat_inj, hmant]
    rfl
  by_cases hcase : E = 255
  · subst hcase
    rw [if_pos (hones.mpr rfl), if_congr (not_congr hzero) rfl rfl]
    by_cases hM0 : M = 0
    · subst hM0
      have hinf : (if neg = true then 0xfff0000000000000 else 0x7ff0000000000000 : ULong).toNat =
          binary64.withSign neg binary64.infIndex := by
        rw [binary64_infIndex]
        cases neg <;> decide
      rw [if_neg (not_not.mpr rfl), hinf, decode_withSign_inf, Nat.add_zero, ← binary32_infIndex,
        decode_withSign_inf]
    · rw [if_pos hM0, binary32.decode_withSign_nan neg (by rw [binary32_infIndex]; omega)
        (by rw [binary32_signBit]; omega)]
      decide
  rw [if_neg (mt hones.mp hcase),
    binary32.decode_withSign neg (by rw [binary32_infIndex]; omega)]
  by_cases hE0 : E = 0
  · subst hE0
    rw [if_pos (hempty.mpr rfl), Nat.zero_mul, Nat.zero_add]
    by_cases hM0 : M = 0
    · subst hM0
      have hword : (if neg = true then 0x8000000000000000 else 0 : ULong).toNat =
          binary64.withSign neg 0 := by
        cases neg <;> decide
      rw [if_pos (hzero.mpr rfl), hword, grid_zero,
        decode_withSign _ _ (by rw [binary64_infIndex]; omega), grid_zero]
    · rw [if_neg (mt hzero.mp hM0)]
      obtain ⟨j, hexp', hval, hge, hlt⟩ :=
        widenLoop_spec mant (-126) (mt hzero.mp hM0) (by omega)
      have hj : j < 24 := by
        rw [hval] at hlt
        exact (Nat.pow_lt_pow_iff_right (by decide)).mp
          ((Nat.le_mul_of_pos_left _ (by omega)).trans_lt hlt)
      generalize widenLoop mant (-126) = out at hexp' hval hge hlt ⊢
      obtain ⟨mant', e⟩ := out
      dsimp only at hexp' hval hge hlt ⊢
      have hmask : (mant' &&& 8388607).toNat = mant'.toNat - 2 ^ 23 := by
        rw [BitVec.toNat_and]
        change mant'.toNat &&& (2 ^ 23 - 1) = _
        rw [Nat.and_two_pow_sub_one_eq_mod]
        omega
      have hofInt : (BitVec.ofInt 64 (e + 1023)).toNat = 896 - j + 1 := by
        rw [BitVec.toNat_ofInt, Int.emod_eq_of_lt (by omega) (by norm_num; omega)]
        omega
      have hfield := widen_field_toNat hofInt (by omega) hge hlt hmask
      rw [BitVec.or_assoc, hput _ (by rw [hfield]; omega), hfield,
        decode_widened neg (by omega) hge hlt, hval, hmant]
      have hgrid := binary32.grid_pack (k := 0) (s := M) (show M ≤ 2 ^ 24 by omega) (Or.inl rfl)
      rw [Nat.zero_mul, Nat.zero_add, binary32_minExp] at hgrid
      have hcast : ((896 - j : ℕ) : ℤ) - 1045 = -149 + (0 : ℕ) - j := by
        rw [Nat.cast_sub (by omega)]
        push_cast
        ring
      rw [hgrid, hcast, zpow_sub₀ (by norm_num), zpow_natCast]
      push_cast
      congr 1
      field_simp
  · rw [if_neg (mt hempty.mp hE0)]
    obtain ⟨k, rfl⟩ := Nat.exists_eq_add_of_lt (Nat.pos_of_ne_zero hE0)
    have hbias : (ex - 127 + 1023).toNat = k + 896 + 1 := by
      rw [BitVec.toNat_add, BitVec.toNat_sub, hexp]
      change ((2 ^ 64 - 127 + (0 + k + 1)) % 2 ^ 64 + 1023) % 2 ^ 64 = _
      omega
    have hfield := widen_field_toNat hbias (by omega) (show 2 ^ 23 ≤ 2 ^ 23 + M by omega)
      (by omega) (show mant.toNat = _ by omega)
    have hgrid := binary32.grid_pack (k := k) (s := 2 ^ 23 + M) (show _ ≤ 2 ^ 24 by omega)
      (Or.inr (show 2 ^ 23 ≤ _ by omega))
    have hindex : (0 + k + 1) * 2 ^ 23 + M = k * 2 ^ binary32.trail + (2 ^ 23 + M) := by
      change _ = k * 2 ^ 23 + _
      ring
    have hexp' : ((k + 896 : ℕ) : ℤ) - 1045 = binary32.minExp + k := by
      rw [binary32_minExp]
      push_cast
      ring
    rw [BitVec.or_assoc, hput _ (by rw [hfield]; omega), hfield,
      decode_widened neg (by omega) (by omega) (by omega), hindex, hgrid, hexp']

/-- Widening is exact, narrowing what was widened undoes it, and narrowing rounds to
nearest, ties to even. -/
theorem sfFromF32_sfToF32_correct :
    (∀ f : UInt, binary64.decode (sfFromF32 f).toNat = binary32.decode f.toNat) ∧
    (∀ f : UInt, binary32.decode f.toNat ≠ .nan → sfToF32 (sfFromF32 f) = f) ∧
    ∀ b : ULong, binary32.IsConversion (binary64.decode b.toNat) (sfToF32 b).toNat := by
  refine ⟨sfFromF32_decode, ?_, Strtod.strtodToF32_rounds⟩
  intro f hnan
  have hback := Strtod.strtodToF32_rounds (sfFromF32 f)
  rw [sfFromF32_decode] at hback
  have hlt : f.toNat < 2 * binary32.signBit := by
    rw [binary32_signBit]
    exact f.isLt
  exact BitVec.eq_of_toNat_eq (hback.eq hlt hnan)

/-- The least subnormal comes back. -/
theorem sfFromF32_sfToF32_least : sfToF32 (sfFromF32 1) = 1 :=
  sfFromF32_sfToF32_correct.2.1 1 (by decide)

end SoftFloat

end Veron
