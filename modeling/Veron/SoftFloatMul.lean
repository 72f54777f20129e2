/-
Multiplication is the IEEE product on every pair of words.  The two-word
product built from 32-bit halves is exact and none of its sums wraps, and the
56 bits handed on carry everything below them in one sticky bit.
-/
import Mathlib.Data.Nat.Size
import Veron.SoftFloatAdd

namespace Veron

namespace SoftFloat

open BinaryFormat

/-- Every word `mulWords` computes on the way is the number it is meant to be,
and the two it returns make the exact product. -/
structure MulExact (ma mb : ULong) : Prop where
  lowLow : ((ma &&& lowMask) * (mb &&& lowMask)).toNat =
    ma.toNat % 2 ^ 32 * (mb.toNat % 2 ^ 32)
  lowHigh : ((ma &&& lowMask) * (mb >>> 32)).toNat =
    ma.toNat % 2 ^ 32 * (mb.toNat / 2 ^ 32)
  highLow : ((ma >>> 32) * (mb &&& lowMask)).toNat =
    ma.toNat / 2 ^ 32 * (mb.toNat % 2 ^ 32)
  highHigh : ((ma >>> 32) * (mb >>> 32)).toNat =
    ma.toNat / 2 ^ 32 * (mb.toNat / 2 ^ 32)
  carry : ((((ma &&& lowMask) * (mb &&& lowMask)) >>> 32) +
      (((ma &&& lowMask) * (mb >>> 32)) &&& lowMask) +
      (((ma >>> 32) * (mb &&& lowMask)) &&& lowMask)).toNat =
    ma.toNat % 2 ^ 32 * (mb.toNat % 2 ^ 32) / 2 ^ 32 +
      ma.toNat % 2 ^ 32 * (mb.toNat / 2 ^ 32) % 2 ^ 32 +
      ma.toNat / 2 ^ 32 * (mb.toNat % 2 ^ 32) % 2 ^ 32
  product : (mulWords ma mb).1.toNat * 2 ^ 64 + (mulWords ma mb).2.toNat =
    ma.toNat * mb.toNat

theorem toNat_mul_of_halves {u v : ULong} (hu : u.toNat < 2 ^ 32)
    (hv : v.toNat < 2 ^ 32) :
    (u * v).toNat = u.toNat * v.toNat ∧
      u.toNat * v.toNat ≤ (2 ^ 32 - 1) * (2 ^ 32 - 1) := by
  have hle : u.toNat * v.toNat ≤ (2 ^ 32 - 1) * (2 ^ 32 - 1) :=
    Nat.mul_le_mul (by omega) (by omega)
  refine ⟨?_, hle⟩
  rw [BitVec.toNat_mul, Nat.mod_eq_of_lt (by omega)]

theorem mulWords_exact (ma mb : ULong) : MulExact ma mb := by
  have hma : ma.toNat < 2 ^ 64 := ma.isLt
  have hmb : mb.toNat < 2 ^ 64 := mb.isLt
  have hal := low_half_toNat ma
  have hbl := low_half_toNat mb
  have hah := toNat_shiftRight ma 32
  have hbh := toNat_shiftRight mb 32
  obtain ⟨hlo, hlo'⟩ := toNat_mul_of_halves (u := ma &&& lowMask)
    (v := mb &&& lowMask) (by omega) (by omega)
  obtain ⟨hmid1, hmid1'⟩ := toNat_mul_of_halves (u := ma &&& lowMask)
    (v := mb >>> 32) (by omega) (by omega)
  obtain ⟨hmid2, hmid2'⟩ := toNat_mul_of_halves (u := ma >>> 32)
    (v := mb &&& lowMask) (by omega) (by omega)
  obtain ⟨hhi, hhi'⟩ := toNat_mul_of_halves (u := ma >>> 32)
    (v := mb >>> 32) (by omega) (by omega)
  rw [hal, hbl] at hlo hlo'
  rw [hal, hbh] at hmid1 hmid1'
  rw [hah, hbl] at hmid2 hmid2'
  rw [hah, hbh] at hhi hhi'
  -- the product of the halves, as one linear identity over the four products
  have hsplit : ma.toNat * mb.toNat =
      ma.toNat / 2 ^ 32 * (mb.toNat / 2 ^ 32) * 2 ^ 64 +
        (ma.toNat % 2 ^ 32 * (mb.toNat / 2 ^ 32) +
          ma.toNat / 2 ^ 32 * (mb.toNat % 2 ^ 32)) * 2 ^ 32 +
        ma.toNat % 2 ^ 32 * (mb.toNat % 2 ^ 32) := by
    conv_lhs => rw [← Nat.div_add_mod ma.toNat (2 ^ 32), ← Nat.div_add_mod mb.toNat (2 ^ 32)]
    ring
  have hcarry : ((((ma &&& lowMask) * (mb &&& lowMask)) >>> 32) +
      (((ma &&& lowMask) * (mb >>> 32)) &&& lowMask) +
      (((ma >>> 32) * (mb &&& lowMask)) &&& lowMask)).toNat =
      ma.toNat % 2 ^ 32 * (mb.toNat % 2 ^ 32) / 2 ^ 32 +
        ma.toNat % 2 ^ 32 * (mb.toNat / 2 ^ 32) % 2 ^ 32 +
        ma.toNat / 2 ^ 32 * (mb.toNat % 2 ^ 32) % 2 ^ 32 := by
    rw [BitVec.toNat_add, BitVec.toNat_add, toNat_shiftRight, low_half_toNat,
      low_half_toNat, hlo, hmid1, hmid2]
    omega
  refine ⟨hlo, hmid1, hmid2, hhi, hcarry, ?_⟩
  rw [hsplit]
  unfold mulWords
  dsimp only
  generalize hc : (((ma &&& lowMask) * (mb &&& lowMask)) >>> 32) +
      (((ma &&& lowMask) * (mb >>> 32)) &&& lowMask) +
      (((ma >>> 32) * (mb &&& lowMask)) &&& lowMask) = carry at hcarry ⊢
  have hlow : ((((ma &&& lowMask) * (mb &&& lowMask)) &&& lowMask) |||
      (carry <<< 32)).toNat =
        carry.toNat % 2 ^ 32 * 2 ^ 32 +
          ma.toNat % 2 ^ 32 * (mb.toNat % 2 ^ 32) % 2 ^ 32 := by
    have hshift : (carry <<< 32).toNat = 2 ^ 32 * (carry.toNat % 2 ^ 32) := by
      rw [BitVec.toNat_shiftLeft, Nat.shiftLeft_eq]
      omega
    rw [BitVec.toNat_or, low_half_toNat, hlo, hshift, Nat.or_comm,
      ← Nat.two_pow_add_eq_or_of_lt (Nat.mod_lt _ (by decide)), Nat.mul_comm]
  rw [hlow, BitVec.toNat_add, BitVec.toNat_add, BitVec.toNat_add, toNat_shiftRight,
    toNat_shiftRight, toNat_shiftRight, hhi, hmid1, hmid2, hcarry]
  generalize ma.toNat / 2 ^ 32 * (mb.toNat / 2 ^ 32) = hh at *
  generalize ma.toNat / 2 ^ 32 * (mb.toNat % 2 ^ 32) = hl at *
  generalize ma.toNat % 2 ^ 32 * (mb.toNat / 2 ^ 32) = lh at *
  generalize ma.toNat % 2 ^ 32 * (mb.toNat % 2 ^ 32) = ll at *
  omega

/-- The top of a two-word number `p` of 105 or 106 bits: a shift by 49 or 50
with the rest in the sticky bit. -/
theorem takeProduct_spec {hi lo : ULong} {p : ℕ}
    (hp : hi.toNat * 2 ^ 64 + lo.toNat = p) (hlow : 2 ^ 104 ≤ p) (hhigh : p < 2 ^ 106) :
    ∃ k : ℕ, (takeProduct hi lo).2 = k ∧
      (takeProduct hi lo).1.toNat = jam k p ∧ 2 ^ 55 ≤ p / 2 ^ k := by
  have hlo : lo.toNat < 2 ^ 64 := lo.isLt
  have hhi0 : hi ≠ 0 := by
    intro h
    rw [h] at hp
    change 0 * 2 ^ 64 + _ = p at hp
    omega
  have hlen : ∃ k : ℕ, (64 + bitLength hi : ℕ) = 56 + k ∧ (k = 49 ∨ k = 50) ∧
      2 ^ 55 ≤ p / 2 ^ k ∧ p / 2 ^ k < 2 ^ 56 := by
    rw [bitLength_eq_size]
    rcases Nat.lt_or_ge p (2 ^ 105) with h | h
    · have hsize : hi.toNat.size = 41 :=
        Nat.le_antisymm (Nat.size_le.mpr (by omega)) (Nat.lt_size.mpr (by omega))
      exact ⟨49, by omega, Or.inl rfl, by omega, by omega⟩
    · have hsize : hi.toNat.size = 42 :=
        Nat.le_antisymm (Nat.size_le.mpr (by omega)) (Nat.lt_size.mpr (by omega))
      exact ⟨50, by omega, Or.inr rfl, by omega, by omega⟩
  obtain ⟨k, hk, hk', hge, hlt⟩ := hlen
  have hkpos : (k : ℤ) > 0 := by omega
  have hkZ : ((64 + bitLength hi : ℕ) : ℤ) - 56 = k := by omega
  have hkle : k < 64 := by omega
  have hmask : (lo &&& (((1 : ULong) <<< k) - 1)).toNat = p % 2 ^ k := by
    have hmod : p % 2 ^ k = lo.toNat % 2 ^ k := by
      rcases hk' with rfl | rfl <;> omega
    rw [hmod, low_bits_toNat lo hkle]
  have hquot : ((hi <<< (64 - (k : ℤ)).toNat) ||| (lo >>> k)).toNat = p / 2 ^ k := by
    have hsub : (64 - (k : ℤ)).toNat = 64 - k := by omega
    have hshift : (hi <<< (64 - k)).toNat = 2 ^ (64 - k) * hi.toNat := by
      rw [toNat_shiftLeft_of_lt, Nat.mul_comm]
      rcases hk' with rfl | rfl <;> omega
    rw [hsub, BitVec.toNat_or, hshift, toNat_shiftRight,
      ← Nat.two_pow_add_eq_or_of_lt]
    · rcases hk' with rfl | rfl <;> omega
    · rcases hk' with rfl | rfl <;> omega
  refine ⟨k, ?_, ?_, hge⟩
  · simp only [takeProduct, hhi0, ne_eq, not_false_eq_true, ↓reduceIte]
    exact hkZ
  · simp only [takeProduct, hhi0, ne_eq, not_false_eq_true, ↓reduceIte, hkZ,
      Int.toNat_natCast, hkpos, decide_true, Bool.true_and, bne_iff_ne]
    unfold jam
    by_cases hr : p % 2 ^ k = 0
    · have hzero : lo &&& (((1 : ULong) <<< k) - 1) = 0 :=
        BitVec.eq_of_toNat_eq (by rw [hmask, hr]; rfl)
      rw [if_neg (not_not.mpr hzero), if_pos hr, Nat.or_zero, hquot]
    · have hne : lo &&& (((1 : ULong) <<< k) - 1) ≠ 0 := by
        intro h
        rw [h] at hmask
        exact hr hmask.symm
      rw [if_pos hne, if_neg hr, BitVec.toNat_or, hquot]
      rfl

/-- The product of two nonzero finite values. -/
theorem sfMul_pack (s : Bool) {ea eb : ℤ} {ma mb : ULong} {x y : ℚ}
    (ha : Unpacked ea ma x) (hb : Unpacked eb mb y) :
    let words := mulWords (ma >>> 3) (mb >>> 3)
    let top := takeProduct words.1 words.2
    binary64.RoundsTo s (x * y)
      (sfPack s (ea + eb + top.2 - 49) top.1).toNat := by
  obtain ⟨c, hc⟩ := ha.guard
  obtain ⟨d, hd⟩ := hb.guard
  have hma := toNat_shiftRight ma 3
  have hmb := toNat_shiftRight mb 3
  have hca : (ma >>> 3).toNat = c := by omega
  have hdb : (mb >>> 3).toNat = d := by omega
  have hbounds := And.intro (And.intro ha.leading ha.bounded)
    (And.intro hb.leading hb.bounded)
  have hprod := (mulWords_exact (ma >>> 3) (mb >>> 3)).product
  rw [hca, hdb] at hprod
  have hlow : 2 ^ 104 ≤ c * d := by
    calc 2 ^ 104 = 2 ^ 52 * 2 ^ 52 := by norm_num
      _ ≤ c * d := Nat.mul_le_mul (by omega) (by omega)
  have hhigh : c * d < 2 ^ 106 := by
    calc c * d < 2 ^ 53 * 2 ^ 53 := Nat.mul_lt_mul'' (by omega) (by omega)
      _ = 2 ^ 106 := by norm_num
  obtain ⟨k, hk, hjam, hge⟩ := takeProduct_spec hprod hlow hhigh
  dsimp only
  rw [hk]
  generalize (takeProduct (mulWords (ma >>> 3) (mb >>> 3)).1
    (mulWords (ma >>> 3) (mb >>> 3)).2).1 = sig at hjam ⊢
  have hsticky : StandsFor 2 sig.toNat (((c * d : ℕ) : ℚ) / 2 ^ k) := by
    rw [hjam]
    exact StandsFor.jam (StandsFor.natCast _ _)
  have hlarge : 2 ^ 55 ≤ sig.toNat := by
    rw [hjam, jam_eq]
    omega
  have hne : sig ≠ 0 := by
    intro h
    rw [h] at hlarge
    exact absurd hlarge (by decide)
  have hround := sfPack_rounds s (ea + eb + k - 49) hne
    (Or.inr ⟨hsticky, by omega⟩)
  have hvalue : x * y =
      ((c * d : ℕ) : ℚ) / 2 ^ k * 2 ^ (ea + eb + k - 49 - 55) := by
    have htwo : (2 : ℚ) ≠ 0 := by norm_num
    have hexp : ea + eb + (k : ℤ) - 49 - 55 = (ea - 55) + (eb - 55) + k + 6 := by ring
    rw [ha.value, hb.value, hc, hd, hexp, zpow_add₀ htwo, zpow_add₀ htwo,
      zpow_add₀ htwo, zpow_natCast]
    push_cast
    field_simp
    norm_num
    ring
  rw [hvalue]
  exact hround

theorem signedInf_toNat (s : Bool) :
    (signedInf s).toNat = binary64.withSign s binary64.infIndex := by
  cases s <;> decide

theorem grid_ne_zero {a : ULong} (h : sfIsZero a = false) :
    binary64.grid (a.toNat % 2 ^ 63) ≠ 0 :=
  (sfUnpack_spec a h).pos.ne'

theorem sfMul_finite {a b : ULong} (hna : sfIsNan a = false) (hia : sfIsInf a = false)
    (hnb : sfIsNan b = false) (hib : sfIsInf b = false) :
    binary64.RoundsTo (sfSign a ^^ sfSign b)
      (binary64.grid (a.toNat % 2 ^ 63) * binary64.grid (b.toNat % 2 ^ 63))
      (sfMul a b).toNat := by
  by_cases hzero : sfIsZero a || sfIsZero b
  · have hprod : binary64.grid (a.toNat % 2 ^ 63) *
        binary64.grid (b.toNat % 2 ^ 63) = binary64.grid 0 := by
      rw [grid_zero, mul_eq_zero]
      rw [Bool.or_eq_true] at hzero
      exact hzero.imp grid_of_isZero grid_of_isZero
    simp only [sfMul, hna, hnb, hia, hib, hzero, Bool.or_self, Bool.false_eq_true,
      ↓reduceIte]
    rw [hprod, signBit_toNat_withSign]
    exact roundsTo_grid (Nat.zero_le _) _
  · rw [Bool.not_eq_true, Bool.or_eq_false_iff] at hzero
    simp only [sfMul, hna, hnb, hia, hib, hzero.1, hzero.2, Bool.or_self,
      Bool.false_eq_true, ↓reduceIte]
    exact sfMul_pack _ (sfUnpack_spec a hzero.1) (sfUnpack_spec b hzero.2)

theorem sfMul_isProduct (a b : ULong) :
    binary64.IsProduct a.toNat b.toNat (sfMul a b).toNat := by
  cases hna : sfIsNan a with
  | true =>
      simp only [IsProduct, decode_nan hna, sfMul, hna, Bool.true_or, ↓reduceIte]
      exact quietNan_toNat
  | false =>
  cases hnb : sfIsNan b with
  | true =>
      simp only [IsProduct, decode_nan hnb, sfMul, hna, hnb, Bool.false_or, ↓reduceIte]
      cases binary64.decode a.toNat <;> exact quietNan_toNat
  | false =>
  cases hia : sfIsInf a with
  | true =>
      obtain ⟨hda, -⟩ := decode_infinite hna hia
      cases hib : sfIsInf b with
      | true =>
          have hzb : sfIsZero b = false := by
            rw [Bool.eq_false_iff, ne_eq, sfIsZero_iff, (sfIsInf_iff b).mp hib]
            decide
          obtain ⟨hdb, -⟩ := decode_infinite hnb hib
          simp only [IsProduct, hda, hdb, sfMul, hna, hnb, hia, hzb, Bool.or_self,
            Bool.false_eq_true, ↓reduceIte]
          exact signedInf_toNat _
      | false =>
          obtain ⟨hdb, -⟩ := decode_finite hnb hib
          simp only [IsProduct, hda, hdb, sfMul, hna, hnb, hia, Bool.or_self,
            Bool.false_eq_true, ↓reduceIte]
          cases hzb : sfIsZero b with
          | true => rw [if_pos (grid_of_isZero hzb)]; exact quietNan_toNat
          | false => rw [if_neg (grid_ne_zero hzb)]; exact signedInf_toNat _
  | false =>
      obtain ⟨hda, -⟩ := decode_finite hna hia
      cases hib : sfIsInf b with
      | true =>
          obtain ⟨hdb, -⟩ := decode_infinite hnb hib
          simp only [IsProduct, hda, hdb, sfMul, hna, hnb, hia, hib, Bool.or_self,
            Bool.false_eq_true, ↓reduceIte]
          cases hza : sfIsZero a with
          | true => rw [if_pos (grid_of_isZero hza)]; exact quietNan_toNat
          | false => rw [if_neg (grid_ne_zero hza)]; exact signedInf_toNat _
      | false =>
          obtain ⟨hdb, -⟩ := decode_finite hnb hib
          simp only [IsProduct, hda, hdb]
          exact sfMul_finite hna hia hnb hib

/-- The product of every pair of words, and the exactness of the word product
it is built on. -/
theorem sfMul_correct (a b : ULong) :
    binary64.IsProduct a.toNat b.toNat (sfMul a b).toNat ∧
      ∀ ma mb : ULong, MulExact ma mb :=
  ⟨sfMul_isProduct a b, mulWords_exact⟩

end SoftFloat

end Veron
