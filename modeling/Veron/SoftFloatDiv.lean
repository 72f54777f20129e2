/-
Division is the IEEE quotient on every pair of words.  The restoring loop keeps
`quotient * divisor + remainder` equal to the scaled dividend with the
remainder below the divisor, so neither of its shifts loses a bit.
-/
import Veron.SoftFloatMul

namespace Veron

namespace SoftFloat

open BinaryFormat

/-- The state after `i` steps of dividing `n` by `mb`. -/
structure DivInv (n : ℕ) (mb : ULong) (i : ℕ) (st : ULong × ULong) : Prop where
  split : st.1.toNat * mb.toNat + st.2.toNat = n * 2 ^ i
  rem_lt : st.2 < mb
  quot_low : 2 ^ i ≤ st.1.toNat
  quot_high : st.1.toNat < 2 ^ (i + 1)

theorem DivInv.shifts_exact {n i : ℕ} {mb : ULong} {st : ULong × ULong}
    (h : DivInv n mb i st) (hmb : mb.toNat < 2 ^ 53) (hi : i ≤ 55) :
    (st.1 <<< 1).toNat = 2 * st.1.toNat ∧ (st.2 <<< 1).toNat = 2 * st.2.toNat := by
  have hquot := h.quot_high
  have hpow : 2 ^ (i + 1) ≤ 2 ^ 56 := Nat.pow_le_pow_right (by decide) (by omega)
  have hrem : st.2.toNat < mb.toNat := h.rem_lt
  constructor
  · rw [toNat_shiftLeft_of_lt (by omega), Nat.pow_one, Nat.mul_comm]
  · rw [toNat_shiftLeft_of_lt (by omega), Nat.pow_one, Nat.mul_comm]

theorem or_one_toNat (q : ULong) (heven : q.toNat % 2 = 0) :
    (q ||| 1).toNat = q.toNat + 1 := by
  rw [BitVec.toNat_or]
  change q.toNat ||| 1 = _
  rw [or_one_eq]
  omega

/-- One step of the loop keeps the invariant. -/
theorem DivInv.step {n i : ℕ} {mb : ULong} {st : ULong × ULong}
    (h : DivInv n mb i st) (hmb : mb.toNat < 2 ^ 53) (hi : i ≤ 55) :
    DivInv n mb (i + 1) (divStep mb st) := by
  obtain ⟨hq, hr⟩ := h.shifts_exact hmb hi
  have hsplit := h.split
  have hrem : st.2.toNat < mb.toNat := h.rem_lt
  have hlow := h.quot_low
  have hhigh := h.quot_high
  have hdouble : n * 2 ^ (i + 1) = 2 * (st.1.toNat * mb.toNat) + 2 * st.2.toNat := by
    rw [pow_succ, ← Nat.mul_assoc, ← hsplit]
    ring
  rw [pow_succ] at hhigh
  by_cases hfits : mb ≤ st.2 <<< 1
  · have hle : mb.toNat ≤ 2 * st.2.toNat := hr ▸ hfits
    have hsub : (st.2 <<< 1 - mb).toNat = 2 * st.2.toNat - mb.toNat := by
      rw [BitVec.toNat_sub_of_le hfits, hr]
    have hor : (st.1 <<< 1 ||| 1).toNat = 2 * st.1.toNat + 1 := by
      rw [or_one_toNat _ (by omega), hq]
    have hstep : divStep mb st = (st.1 <<< 1 ||| 1, st.2 <<< 1 - mb) := by
      simp only [divStep, hfits, ↓reduceIte]
    rw [hstep]
    refine ⟨?_, ?_, ?_, ?_⟩
    · dsimp only
      rw [hor, hsub, hdouble, Nat.add_mul, Nat.one_mul, Nat.mul_assoc]
      omega
    · change (st.2 <<< 1 - mb).toNat < mb.toNat
      omega
    · rw [pow_succ]
      dsimp only
      omega
    · rw [pow_succ, pow_succ]
      dsimp only
      omega
  · have hlt : 2 * st.2.toNat < mb.toNat := by
      have hnot : ¬ mb.toNat ≤ (st.2 <<< 1).toNat := hfits
      omega
    have hstep : divStep mb st = (st.1 <<< 1, st.2 <<< 1) := by
      simp only [divStep, hfits, ↓reduceIte]
    rw [hstep]
    refine ⟨?_, ?_, ?_, ?_⟩
    · dsimp only
      rw [hq, hr, hdouble, Nat.mul_assoc]
    · change (st.2 <<< 1).toNat < mb.toNat
      omega
    · rw [pow_succ]
      dsimp only
      omega
    · rw [pow_succ, pow_succ]
      dsimp only
      omega

theorem divLoop_succ (mb : ULong) (n : ℕ) (st : ULong × ULong) :
    divLoop mb (n + 1) st = divStep mb (divLoop mb n st) := by
  induction n generalizing st with
  | zero => rfl
  | succ n ih =>
      rw [divLoop, ih]
      rfl

/-- The invariant along the whole loop. -/
theorem divLoop_inv {ma mb : ULong} (hle : mb ≤ ma)
    (hlt : ma.toNat < 2 * mb.toNat) (hmb : mb.toNat < 2 ^ 53) {i : ℕ} (hi : i ≤ 55) :
    DivInv ma.toNat mb i (divLoop mb i (1, ma - mb)) := by
  induction i with
  | zero =>
      have hsub : (ma - mb).toNat = ma.toNat - mb.toNat := BitVec.toNat_sub_of_le hle
      have hle' : mb.toNat ≤ ma.toNat := hle
      refine ⟨?_, ?_, le_rfl, Nat.one_lt_two⟩
      · change 1 * mb.toNat + (ma - mb).toNat = _
        omega
      · change (ma - mb).toNat < mb.toNat
        omega
  | succ i ih =>
      rw [divLoop_succ]
      exact (ih (by omega)).step hmb (by omega)

/-- What the loop is entered with: the dividend at least the divisor and less
than twice it, and a divisor of 53 bits. -/
theorem divOperands_spec {ea eb : ℤ} {ma mb : ULong} {x y : ℚ}
    (ha : Unpacked ea ma x) (hb : Unpacked eb mb y) :
    let ops := divOperands ma mb
    ops.2.1 ≤ ops.1 ∧ ops.1.toNat < 2 * ops.2.1.toNat ∧ ops.2.1.toNat < 2 ^ 53 ∧
      0 < ops.2.1.toNat ∧
      x / y = (ops.1.toNat : ℚ) / ops.2.1.toNat * 2 ^ (ea - eb + ops.2.2) := by
  obtain ⟨c, hc⟩ := ha.guard
  obtain ⟨d, hd⟩ := hb.guard
  have hma := toNat_shiftRight ma 3
  have hmb := toNat_shiftRight mb 3
  have hca : (ma >>> 3).toNat = c := by omega
  have hdb : (mb >>> 3).toNat = d := by omega
  have hal := ha.leading
  have hab := ha.bounded
  have hbl := hb.leading
  have hbb := hb.bounded
  have htwo : (2 : ℚ) ≠ 0 := by norm_num
  have hdQ : (d : ℚ) ≠ 0 := by
    have : d ≠ 0 := by omega
    exact_mod_cast this
  have hquot : x / y = (c : ℚ) / d * 2 ^ (ea - eb) := by
    rw [ha.value, hb.value, hc, hd, zpow_sub₀ htwo, zpow_sub₀ htwo, zpow_sub₀ htwo]
    push_cast
    field_simp
  unfold divOperands
  by_cases hless : ma >>> 3 < mb >>> 3
  · have hcd : c < d := by
      rw [← hca, ← hdb]
      exact hless
    have hdouble : ((ma >>> 3) <<< 1).toNat = 2 * c := by
      rw [toNat_shiftLeft_of_lt (by omega), hca, Nat.pow_one, Nat.mul_comm]
    simp only [hless, ↓reduceIte]
    rw [hdouble, hdb]
    refine ⟨?_, by omega, by omega, by omega, ?_⟩
    · change (mb >>> 3).toNat ≤ ((ma >>> 3) <<< 1).toNat
      omega
    · rw [hquot, zpow_add₀ htwo]
      push_cast
      field_simp
  · have hcd : d ≤ c := by
      rw [← hca, ← hdb]
      exact Nat.not_lt.mp hless
    simp only [hless, ↓reduceIte]
    rw [hca, hdb, add_zero]
    exact ⟨Nat.not_lt.mp hless, by omega, by omega, by omega, hquot⟩

/-- The quotient of two nonzero finite values. -/
theorem sfDiv_pack (s : Bool) {ea eb : ℤ} {ma mb : ULong} {x y : ℚ}
    (ha : Unpacked ea ma x) (hb : Unpacked eb mb y) :
    let ops := divOperands ma mb
    let st := divLoop ops.2.1 55 (1, ops.1 - ops.2.1)
    binary64.RoundsTo s (x / y)
      (sfPack s (ea - eb + ops.2.2) (if st.2 ≠ 0 then st.1 ||| 1 else st.1)).toNat := by
  obtain ⟨hle, hlt, hsmall, hpos, hvalue⟩ := divOperands_spec ha hb
  generalize divOperands ma mb = ops at *
  obtain ⟨n, d, adj⟩ := ops
  dsimp only at *
  have hinv := divLoop_inv hle hlt hsmall (le_refl 55)
  generalize divLoop d 55 (1, n - d) = st at hinv ⊢
  have hrem : st.2.toNat < d.toNat := hinv.rem_lt
  have hsticky : (if st.2 ≠ 0 then st.1 ||| 1 else st.1).toNat =
      stick st.1.toNat st.2.toNat := by
    unfold stick
    by_cases hzero : st.2 = 0
    · simp [hzero]
    · rw [if_pos hzero, if_neg (toNat_ne_zero hzero), BitVec.toNat_or]
      rfl
  have hlarge := hinv.quot_low
  generalize (if st.2 ≠ 0 then st.1 ||| 1 else st.1) = q at hsticky ⊢
  have hge : 2 ^ 55 ≤ q.toNat := by
    rw [hsticky, stick_eq]
    omega
  have hne : q ≠ 0 := by
    intro h
    rw [h] at hge
    exact absurd hge (by decide)
  have hstands : StandsFor 2 q.toNat (((n.toNat * 2 ^ 55 : ℕ) : ℚ) / d.toNat) := by
    rw [hsticky]
    exact StandsFor.stick hinv.split hrem
  have hround := sfPack_rounds s (ea - eb + adj) hne (Or.inr ⟨hstands, by omega⟩)
  have hexact : x / y = ((n.toNat * 2 ^ 55 : ℕ) : ℚ) / d.toNat *
      2 ^ (ea - eb + adj - 55) := by
    have htwo : (2 : ℚ) ≠ 0 := by norm_num
    rw [hvalue, zpow_sub₀ htwo]
    push_cast
    field_simp
  rw [hexact]
  exact hround

theorem sfDiv_finite {a b : ULong} (hna : sfIsNan a = false) (hia : sfIsInf a = false)
    (hnb : sfIsNan b = false) (hib : sfIsInf b = false) :
    if binary64.grid (b.toNat % 2 ^ 63) = 0 then
      (sfDiv a b).toNat = if binary64.grid (a.toNat % 2 ^ 63) = 0 then
        binary64.quietNan
        else binary64.withSign (sfSign a ^^ sfSign b) binary64.infIndex
    else binary64.RoundsTo (sfSign a ^^ sfSign b)
      (binary64.grid (a.toNat % 2 ^ 63) / binary64.grid (b.toNat % 2 ^ 63))
      (sfDiv a b).toNat := by
  cases hzb : sfIsZero b with
  | true =>
      rw [if_pos (grid_of_isZero hzb)]
      simp only [sfDiv, hna, hnb, hia, hib, hzb, Bool.or_self, Bool.false_eq_true,
        ↓reduceIte]
      cases hza : sfIsZero a with
      | true => rw [if_pos (grid_of_isZero hza)]; exact quietNan_toNat
      | false => rw [if_neg (grid_ne_zero hza)]; exact signedInf_toNat _
  | false =>
      rw [if_neg (grid_ne_zero hzb)]
      cases hza : sfIsZero a with
      | true =>
          simp only [sfDiv, hna, hnb, hia, hib, hza, hzb, Bool.or_self,
            Bool.false_eq_true, ↓reduceIte]
          rw [grid_of_isZero hza, zero_div, signBit_toNat_withSign, ← grid_zero binary64]
          exact roundsTo_grid (Nat.zero_le _) _
      | false =>
          simp only [sfDiv, hna, hnb, hia, hib, hza, hzb, Bool.or_self,
            Bool.false_eq_true, ↓reduceIte]
          exact sfDiv_pack _ (sfUnpack_spec a hza) (sfUnpack_spec b hzb)

theorem sfDiv_isQuotient (a b : ULong) :
    binary64.IsQuotient a.toNat b.toNat (sfDiv a b).toNat := by
  cases hna : sfIsNan a with
  | true =>
      simp only [IsQuotient, decode_nan hna, sfDiv, hna, Bool.true_or, ↓reduceIte]
      exact quietNan_toNat
  | false =>
  cases hnb : sfIsNan b with
  | true =>
      simp only [IsQuotient, decode_nan hnb, sfDiv, hna, hnb, Bool.false_or, ↓reduceIte]
      cases binary64.decode a.toNat <;> exact quietNan_toNat
  | false =>
  cases hia : sfIsInf a with
  | true =>
      obtain ⟨hda, -⟩ := decode_infinite hna hia
      cases hib : sfIsInf b with
      | true =>
          obtain ⟨hdb, -⟩ := decode_infinite hnb hib
          simp only [IsQuotient, hda, hdb, sfDiv, hna, hnb, hia, hib, Bool.or_self,
            Bool.false_eq_true, ↓reduceIte]
          exact quietNan_toNat
      | false =>
          obtain ⟨hdb, -⟩ := decode_finite hnb hib
          simp only [IsQuotient, hda, hdb, sfDiv, hna, hnb, hia, hib, Bool.or_self,
            Bool.false_eq_true, ↓reduceIte]
          exact signedInf_toNat _
  | false =>
      obtain ⟨hda, -⟩ := decode_finite hna hia
      cases hib : sfIsInf b with
      | true =>
          obtain ⟨hdb, -⟩ := decode_infinite hnb hib
          simp only [IsQuotient, hda, hdb, sfDiv, hna, hnb, hia, hib, Bool.or_self,
            Bool.false_eq_true, ↓reduceIte]
          exact signBit_toNat_withSign _
      | false =>
          obtain ⟨hdb, -⟩ := decode_finite hnb hib
          simp only [IsQuotient, hda, hdb]
          exact sfDiv_finite hna hia hnb hib

/-- The quotient of every pair of words, and for nonzero operands a loop whose
remainder stays below the divisor and whose shifts lose nothing. -/
theorem sfDiv_correct (a b : ULong) :
    binary64.IsQuotient a.toNat b.toNat (sfDiv a b).toNat ∧
      (sfIsZero a = false → sfIsZero b = false →
        let ops := divOperands (sfUnpack a).2 (sfUnpack b).2
        ∀ i ≤ 55,
          let st := divLoop ops.2.1 i (1, ops.1 - ops.2.1)
          st.1.toNat * ops.2.1.toNat + st.2.toNat = ops.1.toNat * 2 ^ i ∧
            st.2 < ops.2.1 ∧ (st.1 <<< 1).toNat = 2 * st.1.toNat ∧
            (st.2 <<< 1).toNat = 2 * st.2.toNat) := by
  refine ⟨sfDiv_isQuotient a b, ?_⟩
  intro hza hzb ops i hi
  obtain ⟨hle, hlt, hsmall, -, -⟩ :=
    divOperands_spec (sfUnpack_spec a hza) (sfUnpack_spec b hzb)
  have hinv := divLoop_inv hle hlt hsmall hi
  exact ⟨hinv.split, hinv.rem_lt, hinv.shifts_exact hsmall hi⟩

/-- The loop at the quotient of one by three. -/
theorem sfDiv_correct_one_third :
    binary64.IsQuotient 0x3ff0000000000000 0x4008000000000000
        (sfDiv 0x3ff0000000000000 0x4008000000000000).toNat ∧
      let ops := divOperands (sfUnpack 0x3ff0000000000000).2
        (sfUnpack 0x4008000000000000).2
      ∀ i ≤ 55,
        let st := divLoop ops.2.1 i (1, ops.1 - ops.2.1)
        st.1.toNat * ops.2.1.toNat + st.2.toNat = ops.1.toNat * 2 ^ i ∧
          st.2 < ops.2.1 ∧ (st.1 <<< 1).toNat = 2 * st.1.toNat ∧
          (st.2 <<< 1).toNat = 2 * st.2.toNat :=
  ⟨(sfDiv_correct 0x3ff0000000000000 0x4008000000000000).1,
    (sfDiv_correct 0x3ff0000000000000 0x4008000000000000).2 (by decide) (by decide)⟩

end SoftFloat

end Veron
