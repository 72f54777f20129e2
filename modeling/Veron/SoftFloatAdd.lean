/-
Addition and subtraction are the IEEE operations on every pair of words.  The
smaller operand is aligned with one sticky bit; a cancellation deep enough to
need more than one left shift only happens where nothing was dropped.
-/
import Mathlib.Data.Nat.Cast.Field
import Veron.SoftFloatDecode

namespace Veron

namespace SoftFloat

open BinaryFormat

/-- Alignment keeps the side of every even number, and at a gap of at most
three it drops nothing because the guard bits are clear. -/
theorem alignDown_spec {d : ℕ} {mb : ULong} (hne : mb.toNat ≠ 0)
    (hlt : mb.toNat < 2 ^ 56) :
    StandsFor 2 (alignDown d mb).toNat ((mb.toNat : ℚ) / 2 ^ d) ∧
      (alignDown d mb).toNat = if 60 < d then 1 else jam d mb.toNat := by
  have hmb : mb ≠ 0 := fun h => hne (by rw [h]; rfl)
  unfold alignDown
  by_cases hfar : (d : ℤ) > 60
  · have hd : 60 < d := by omega
    rw [if_pos hfar, if_pos hmb, if_pos hd]
    refine ⟨?_, rfl⟩
    have hpow : (0 : ℚ) < 2 ^ d := by positivity
    have hmbQ : (0 : ℚ) < mb.toNat := by exact_mod_cast Nat.pos_of_ne_zero hne
    apply StandsFor.one (div_pos hmbQ hpow)
    rw [div_lt_iff₀ hpow]
    have hle : (2 : ℚ) ^ 56 ≤ 2 ^ d := pow_le_pow_right₀ (by norm_num) (by omega)
    have hltQ : (mb.toNat : ℚ) < 2 ^ 56 := by exact_mod_cast hlt
    linarith
  · have hd : ¬ 60 < d := by omega
    have hmask := low_bits_toNat mb (k := d) (by omega)
    have hjam : (if (if (d : ℤ) > 0 then mb &&& (((1 : ULong) <<< (d : ℤ).toNat) - 1)
        else 0) ≠ 0 then (if (d : ℤ) > 0 then mb >>> (d : ℤ).toNat else mb) ||| 1
        else (if (d : ℤ) > 0 then mb >>> (d : ℤ).toNat else mb)).toNat =
          jam d mb.toNat := by
      rw [Int.toNat_natCast]
      rcases Nat.eq_zero_or_pos d with rfl | hpos
      · simp [jam, Nat.mod_one]
      · have hposZ : (d : ℤ) > 0 := by omega
        simp only [hposZ, ↓reduceIte, ne_eq, ← BitVec.toNat_inj, hmask]
        unfold jam
        by_cases hr : mb.toNat % 2 ^ d = 0
        · simp only [hr, ↓reduceIte]
          rw [if_neg (by simp), Nat.or_zero, toNat_shiftRight]
        · rw [if_pos (by simpa using hr), if_neg hr, BitVec.toNat_or,
            toNat_shiftRight]
          rfl
    rw [if_neg hfar, if_neg hd]
    refine ⟨?_, hjam⟩
    rw [hjam]
    exact StandsFor.jam (StandsFor.natCast _ _)

theorem jam_le (k n : ℕ) : jam k n ≤ n / 2 ^ k + 1 := by
  rw [jam_eq]
  split_ifs <;> omega

/-- The exact facts about the aligned operand that the three outcomes of an
addition need. -/
theorem aligned_bounds {d : ℕ} {mb : ULong} (hguard : 8 ∣ mb.toNat)
    (hlow : 2 ^ 55 ≤ mb.toNat) (hlt : mb.toNat < 2 ^ 56) :
    (alignDown d mb).toNat < 2 ^ 56 ∧
      (((alignDown d mb).toNat : ℚ) = (mb.toNat : ℚ) / 2 ^ d ∧
          (d = 0 ∨ (alignDown d mb).toNat < 2 ^ 55) ∨
        (alignDown d mb).toNat < 2 ^ 54) := by
  obtain ⟨hstands, hval⟩ := alignDown_spec (d := d) (by omega) hlt
  rw [hval]
  have hle := jam_le d mb.toNat
  rcases Nat.lt_or_ge 60 d with hd | hd
  · rw [if_pos hd]
    exact ⟨by norm_num, Or.inr (by norm_num)⟩
  rw [if_neg (by omega)]
  rcases Nat.lt_or_ge d 2 with hsmall | hlarge
  · have hexact : mb.toNat % 2 ^ d = 0 := by
      apply Nat.mod_eq_zero_of_dvd
      apply dvd_trans _ hguard
      exact Nat.pow_dvd_pow 2 (show d ≤ 3 by omega)
    have hjam : jam d mb.toNat = mb.toNat / 2 ^ d := by simp [jam, hexact]
    rw [hjam]
    have hdiv := Nat.div_le_self mb.toNat (2 ^ d)
    refine ⟨by omega, Or.inl ⟨?_, ?_⟩⟩
    · rw [Nat.cast_div (Nat.dvd_of_mod_eq_zero hexact) (by positivity)]
      push_cast
      rfl
    · rcases Nat.eq_zero_or_pos d with rfl | hpos
      · exact Or.inl rfl
      · obtain rfl : d = 1 := by omega
        exact Or.inr (by omega)
  · have hquarter : mb.toNat / 2 ^ d ≤ mb.toNat / 2 ^ 2 :=
      Nat.div_le_div_left (Nat.pow_le_pow_right (by decide) hlarge) (by decide)
    have hfour : mb.toNat / 2 ^ 2 + 2 ≤ 2 ^ 54 := by omega
    exact ⟨by omega, Or.inr (by omega)⟩

theorem signed_of_pos (s : Bool) {w : ℚ} (hw : 0 < w) :
    signedRat s w ≠ 0 ∧ decide (signedRat s w < 0) = s ∧ |signedRat s w| = w := by
  cases s
  · simp [signedRat, hw.ne', hw.le, abs_of_pos hw]
  · simp [signedRat, hw.ne', hw, abs_of_pos hw]

theorem signedRat_add (s : Bool) (x y : ℚ) :
    signedRat s x + signedRat s y = signedRat s (x + y) := by
  cases s <;> simp only [signedRat, Bool.false_eq_true, ↓reduceIte]
  ring

theorem signedRat_not (s : Bool) (x : ℚ) : signedRat (!s) x = -signedRat s x := by
  cases s <;> simp [signedRat]

/-- What the sum of two nonzero values is packed to. -/
theorem addAligned_spec (sa sb : Bool) {ea eb : ℤ} {ma mb : ULong} {x y z : ℚ}
    (ha : Unpacked ea ma x) (hb : Unpacked eb mb y) (hle : eb ≤ ea)
    (hz : z = signedRat sa x + signedRat sb y) :
    if z = 0 then addAligned sa ea ma sb eb mb = 0
    else binary64.RoundsTo (decide (z < 0)) |z|
      (addAligned sa ea ma sb eb mb).toNat := by
  subst hz
  obtain ⟨d, hd⟩ := Int.eq_ofNat_of_zero_le (sub_nonneg.mpr hle)
  have hmb := hb.leading
  have hma := ha.leading
  obtain ⟨hstands, -⟩ := alignDown_spec (d := d) (by omega) hb.bounded
  obtain ⟨hbound, hshape⟩ := aligned_bounds (d := d) hb.guard hb.leading hb.bounded
  have hscale : (0 : ℚ) < 2 ^ (ea - 55) := by positivity
  have hy : y = (mb.toNat : ℚ) / 2 ^ d * 2 ^ (ea - 55) := by
    have htwo : (2 : ℚ) ≠ 0 := by norm_num
    have hexp : eb - 55 = ea - 55 - d := by omega
    rw [hb.value, hexp, zpow_sub₀ htwo, zpow_natCast]
    field_simp
  have heven : 2 ∣ ma.toNat := dvd_trans (by norm_num) ha.guard
  have hma' := ha.bounded
  rw [addAligned, hd]
  generalize hn : alignDown (d : ℤ) mb = n at hstands hbound hshape
  generalize hw : (mb.toNat : ℚ) / 2 ^ d = w at hstands hshape hy
  have hwpos : 0 < w := by
    have h := hb.pos
    rw [hy] at h
    exact pos_of_mul_pos_left h hscale.le
  by_cases hsign : sa = sb
  · -- like signs: no cancellation
    subst hsign
    have hsum : (ma + n).toNat = ma.toNat + n.toNat := by
      rw [BitVec.toNat_add, Nat.mod_eq_of_lt (by omega)]
    have hne : ma + n ≠ 0 := by
      intro h
      rw [h] at hsum
      change 0 = _ at hsum
      omega
    have hcarries : Carries (ma + n) (ma.toNat + w) := by
      refine Or.inr ⟨?_, by omega⟩
      rw [hsum]
      exact hstands.add_left heven
    have hround := sfPack_rounds sa ea hne hcarries
    have hval : x + y = (ma.toNat + w) * 2 ^ (ea - 55) := by
      rw [ha.value, hy]
      ring
    obtain ⟨hz, hdec, habs⟩ := signed_of_pos sa (add_pos ha.pos hb.pos)
    rw [signedRat_add, if_neg hz, hdec, habs, hval]
    simpa only [↓reduceIte] using hround
  · -- unlike signs: the larger significand gives the sign
    obtain rfl : sb = !sa := by cases sa <;> cases sb <;> simp_all
    have hdiff : signedRat sa x + signedRat (!sa) y =
        signedRat sa ((ma.toNat - w) * 2 ^ (ea - 55)) := by
      rw [signedRat_not, ha.value, hy]
      cases sa <;> simp only [signedRat, Bool.false_eq_true, ↓reduceIte] <;> ring
    rw [hdiff, if_neg hsign]
    obtain ⟨c, hc⟩ := heven
    have hside := hstands c
    rw [Nat.mul_comm, ← hc] at hside
    rcases Nat.lt_trichotomy n.toNat ma.toNat with hlt | heq | hgt
    · have hwlt : w < ma.toNat := hside.2.mp hlt
      have hsub : (ma - n).toNat = ma.toNat - n.toNat :=
        BitVec.toNat_sub_of_le (Nat.le_of_lt hlt)
      have hne : ma - n ≠ 0 := by
        intro h
        rw [h] at hsub
        change 0 = _ at hsub
        omega
      have hcarries : Carries (ma - n) (ma.toNat - w) := by
        rcases hshape with ⟨hexact, _⟩ | hsmall
        · left
          rw [hsub, ← hexact, Nat.cast_sub hlt.le]
        · refine Or.inr ⟨?_, by omega⟩
          rw [hsub]
          exact hstands.sub_left ⟨c, hc⟩ hlt.le
      have hround := sfPack_rounds sa ea hne hcarries
      obtain ⟨hz, hdec, habs⟩ :=
        signed_of_pos sa (mul_pos (sub_pos.mpr hwlt) hscale)
      have hneq : ma ≠ n := fun h => by rw [h] at hlt; omega
      rw [if_neg hz, hdec, habs, if_neg hneq, if_pos (BitVec.lt_def.mpr hlt)]
      exact hround
    · have hweq : w = ma.toNat := by
        apply le_antisymm
        · exact not_lt.mp fun h => absurd (hside.1.mpr h) (by omega)
        · exact not_lt.mp fun h => absurd (hside.2.mpr h) (by omega)
      have hz : signedRat sa ((ma.toNat - w) * 2 ^ (ea - 55)) = 0 := by
        rw [hweq, sub_self, zero_mul]
        cases sa <;> simp [signedRat]
      rw [if_pos hz, if_pos (BitVec.eq_of_toNat_eq heq.symm)]
    · have hwgt : (ma.toNat : ℚ) < w := hside.1.mp hgt
      have hexact : (n.toNat : ℚ) = w := by
        rcases hshape with ⟨hexact, _⟩ | hsmall
        · exact hexact
        · omega
      have hsub : (n - ma).toNat = n.toNat - ma.toNat :=
        BitVec.toNat_sub_of_le (Nat.le_of_lt hgt)
      have hne : n - ma ≠ 0 := by
        intro h
        rw [h] at hsub
        change 0 = _ at hsub
        omega
      have hcarries : Carries (n - ma) (w - ma.toNat) := by
        left
        rw [hsub, ← hexact, Nat.cast_sub hgt.le]
      have hround := sfPack_rounds (!sa) ea hne hcarries
      have hflip : signedRat sa ((ma.toNat - w) * 2 ^ (ea - 55)) =
          signedRat (!sa) ((w - ma.toNat) * 2 ^ (ea - 55)) := by
        rw [signedRat_not]
        cases sa <;> simp only [signedRat, Bool.false_eq_true, ↓reduceIte] <;> ring
      obtain ⟨hz, hdec, habs⟩ :=
        signed_of_pos (!sa) (mul_pos (sub_pos.mpr hwgt) hscale)
      have hneq : ma ≠ n := fun h => by rw [h] at hgt; omega
      have hnlt : ¬ n < ma := Nat.not_lt.mpr hgt.le
      rw [hflip, if_neg hz, hdec, habs, if_neg hneq, if_neg hnlt]
      exact hround

theorem signedRat_zero (s : Bool) : signedRat s 0 = 0 := by
  cases s <;> simp [signedRat]

theorem signBit_toNat_withSign (s : Bool) :
    (if s then signBit else 0).toNat = binary64.withSign s 0 := by
  cases s <;> decide

/-- A nonzero finite word is the rounding of its own signed value. -/
theorem roundsTo_self {b : ULong} (hnan : sfIsNan b = false)
    (hinf : sfIsInf b = false) (hzero : sfIsZero b = false) :
    let z := signedRat (sfSign b) (binary64.grid (b.toNat % 2 ^ 63))
    z ≠ 0 ∧ binary64.RoundsTo (decide (z < 0)) |z| b.toNat := by
  obtain ⟨hz, hdec, habs⟩ := signed_of_pos (sfSign b) (sfUnpack_spec b hzero).pos
  refine ⟨hz, ?_⟩
  rw [hdec, habs]
  have hself := roundsTo_grid (decode_finite hnan hinf).2.le (sfSign b)
  rwa [← toNat_eq_withSign] at hself

theorem sfAdd_finite {a b : ULong} (hna : sfIsNan a = false) (hia : sfIsInf a = false)
    (hnb : sfIsNan b = false) (hib : sfIsInf b = false) :
    let z := signedRat (sfSign a) (binary64.grid (a.toNat % 2 ^ 63)) +
      signedRat (sfSign b) (binary64.grid (b.toNat % 2 ^ 63))
    if z = 0 then
      (sfAdd a b).toNat = binary64.withSign (sfSign a && sfSign b) 0
    else binary64.RoundsTo (decide (z < 0)) |z| (sfAdd a b).toNat := by
  cases hza : sfIsZero a with
  | true =>
      rw [grid_of_isZero hza, signedRat_zero, zero_add]
      cases hzb : sfIsZero b with
      | true =>
          rw [grid_of_isZero hzb, signedRat_zero]
          simp only [↓reduceIte, sfAdd, hna, hnb, hia, hib, hza, hzb, Bool.or_self,
            Bool.false_eq_true]
          exact signBit_toNat_withSign _
      | false =>
          obtain ⟨hz, hround⟩ := roundsTo_self hnb hib hzb
          rw [if_neg hz]
          simpa only [↓reduceIte, sfAdd, hna, hnb, hia, hib, hza, hzb,
            Bool.or_self, Bool.false_eq_true] using hround
  | false =>
      cases hzb : sfIsZero b with
      | true =>
          rw [grid_of_isZero hzb, signedRat_zero, add_zero]
          obtain ⟨hz, hround⟩ := roundsTo_self hna hia hza
          rw [if_neg hz]
          simpa only [↓reduceIte, sfAdd, hna, hnb, hia, hib, hza, hzb,
            Bool.or_self, Bool.false_eq_true] using hround
      | false =>
          have ha := sfUnpack_spec a hza
          have hb := sfUnpack_spec b hzb
          -- an exact zero has unlike signs, so it is positive
          have hpositive : signedRat (sfSign a) (binary64.grid (a.toNat % 2 ^ 63)) +
              signedRat (sfSign b) (binary64.grid (b.toNat % 2 ^ 63)) = 0 →
              (sfSign a && sfSign b) = false := by
            intro h
            by_contra hboth
            rw [Bool.not_eq_false, Bool.and_eq_true] at hboth
            rw [hboth.1, hboth.2, signedRat_add] at h
            exact (signed_of_pos true (add_pos ha.pos hb.pos)).1 h
          simp only [sfAdd, hna, hnb, hia, hib, hza, hzb, Bool.or_self,
            Bool.false_eq_true, ↓reduceIte]
          by_cases hswap : (sfUnpack a).1 < (sfUnpack b).1
          · have hspec := addAligned_spec (sfSign b) (sfSign a) hb ha hswap.le
              (add_comm _ _)
            rw [if_pos hswap]
            split_ifs at hspec ⊢ with hz
            · rw [hspec, hpositive hz]
              rfl
            · exact hspec
          · have hspec := addAligned_spec (sfSign a) (sfSign b) ha hb
              (not_lt.mp hswap) rfl
            rw [if_neg hswap]
            split_ifs at hspec ⊢ with hz
            · rw [hspec, hpositive hz]
              rfl
            · exact hspec

theorem sfAdd_isSum (a b : ULong) :
    binary64.IsSum a.toNat b.toNat (sfAdd a b).toNat := by
  cases hna : sfIsNan a with
  | true =>
      simp only [IsSum, decode_nan hna, sfAdd, hna, Bool.true_or, ↓reduceIte]
      exact quietNan_toNat
  | false =>
  cases hnb : sfIsNan b with
  | true =>
      simp only [IsSum, decode_nan hnb, sfAdd, hna, hnb, Bool.false_or, ↓reduceIte]
      cases binary64.decode a.toNat <;> exact quietNan_toNat
  | false =>
  cases hia : sfIsInf a with
  | true =>
      obtain ⟨hda, hva⟩ := decode_infinite hna hia
      cases hib : sfIsInf b with
      | true =>
          obtain ⟨hdb, -⟩ := decode_infinite hnb hib
          simp only [IsSum, hda, hdb, sfAdd, hna, hnb, hia, hib, Bool.or_self,
            Bool.false_eq_true, ↓reduceIte, Bool.true_and, bne_iff_ne, ne_eq]
          by_cases hsign : sfSign a = sfSign b
          · rw [if_neg (not_not.mpr hsign), if_pos hsign]
            exact hva
          · rw [if_pos hsign, if_neg hsign]
            exact quietNan_toNat
      | false =>
          obtain ⟨hdb, -⟩ := decode_finite hnb hib
          simpa only [IsSum, hda, hdb, sfAdd, hna, hnb, hia, hib, Bool.or_self,
            Bool.false_eq_true, ↓reduceIte, Bool.false_and] using hva
  | false =>
      obtain ⟨hda, -⟩ := decode_finite hna hia
      cases hib : sfIsInf b with
      | true =>
          obtain ⟨hdb, hvb⟩ := decode_infinite hnb hib
          simpa only [IsSum, hda, hdb, sfAdd, hna, hnb, hia, hib, Bool.or_self,
            Bool.false_eq_true, ↓reduceIte] using hvb
      | false =>
          obtain ⟨hdb, -⟩ := decode_finite hnb hib
          have hfinite := sfAdd_finite hna hia hnb hib
          simpa only [IsSum, hda, hdb] using hfinite

theorem sfNeg_mag (b : ULong) : (sfNeg b).toNat % 2 ^ 63 = b.toNat % 2 ^ 63 := by
  rw [sfNeg, BitVec.toNat_xor, Nat.xor_mod_two_pow]
  exact Nat.xor_zero _

theorem sfSign_sfNeg (b : ULong) : sfSign (sfNeg b) = !sfSign b := by
  have hlt : b.toNat < 2 ^ 64 := b.isLt
  have hshift : (sfNeg b).toNat / 2 ^ 63 = b.toNat / 2 ^ 63 ^^^ 1 := by
    rw [sfNeg, BitVec.toNat_xor, Nat.xor_div_two_pow]
    rfl
  rw [sfSign_eq, sfSign_eq, hshift]
  have hcases : b.toNat / 2 ^ 63 = 0 ∨ b.toNat / 2 ^ 63 = 1 := by omega
  rcases hcases with h | h <;> rw [h] <;> rfl

/-- Flipping the sign bit negates what a word denotes. -/
theorem decode_sfNeg (b : ULong) :
    binary64.decode (sfNeg b).toNat =
      match binary64.decode b.toNat with
      | .nan => .nan
      | .infinite t => .infinite (!t)
      | .finite t y => .finite (!t) y := by
  have hnan : sfIsNan (sfNeg b) = sfIsNan b := by
    rw [Bool.eq_iff_iff, sfIsNan_iff, sfIsNan_iff, sfNeg_mag]
  have hinf : sfIsInf (sfNeg b) = sfIsInf b := by
    rw [Bool.eq_iff_iff, sfIsInf_iff, sfIsInf_iff, sfNeg_mag]
  rw [decode_eq, decode_eq, hnan, hinf, sfSign_sfNeg, sfNeg_mag]
  cases sfIsNan b <;> cases sfIsInf b <;> rfl

theorem sfSub_isDifference (a b : ULong) :
    binary64.IsDifference a.toNat b.toNat (sfSub a b).toNat := by
  have hsum := sfAdd_isSum a (sfNeg b)
  unfold IsSum at hsum
  unfold IsDifference sfSub
  rw [decode_sfNeg] at hsum
  cases hda : binary64.decode a.toNat with
  | nan => simpa only [hda] using hsum
  | infinite s =>
      cases hdb : binary64.decode b.toNat with
      | nan => simpa only [hda, hdb] using hsum
      | infinite t =>
          simp only [hda, hdb] at hsum ⊢
          rw [hsum]
          cases s <;> cases t <;> rfl
      | finite t y => simpa only [hda, hdb] using hsum
  | finite s x =>
      cases hdb : binary64.decode b.toNat with
      | nan => simpa only [hda, hdb] using hsum
      | infinite t => simpa only [hda, hdb] using hsum
      | finite t y =>
          simp only [hda, hdb, signedRat_not, ← sub_eq_add_neg] at hsum ⊢
          exact hsum

/-- Both operations, on every pair of words. -/
theorem sfAdd_sfSub_correct (a b : ULong) :
    binary64.IsSum a.toNat b.toNat (sfAdd a b).toNat ∧
      binary64.IsDifference a.toNat b.toNat (sfSub a b).toNat :=
  ⟨sfAdd_isSum a b, sfSub_isDifference a b⟩

/-- The least normal less the largest subnormal is the least subnormal. -/
example : sfSub 0x0010000000000000 0x000fffffffffffff = 1 := by decide +kernel

end SoftFloat

end Veron
