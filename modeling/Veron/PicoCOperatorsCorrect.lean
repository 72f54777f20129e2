/-
When the code that pico-c emits for an operator gives the result that C defines: comparisons
look at the sign of a difference that may wrap, and division is unsigned.
-/
import Mathlib.Algebra.Order.Ring.Int
import Mathlib.Tactic.Ring
import Veron.PicoCShort

namespace Veron.PicoC

open A64

section Words

variable {a b d : Reg} {r : ℤ}

theorem inRange_toInt (a : Reg) : InRange a.toInt := ⟨a.le_toInt, a.toInt_lt⟩

theorem toInt_ofInt (h : InRange r) : (BitVec.ofInt 64 r).toInt = r := by
  obtain ⟨hlo, hhi⟩ := h
  rw [BitVec.toInt_ofInt]
  exact Int.bmod_eq_of_le (by omega) (by omega)

theorem eq_ofInt_iff (h : InRange r) : a = BitVec.ofInt 64 r ↔ a.toInt = r := by
  rw [← BitVec.toInt_inj, toInt_ofInt h]

theorem toInt_of_lt (h : a.toNat < 2 ^ 63) : a.toInt = a.toNat := by
  rw [BitVec.toInt_eq_toNat_cond, if_pos (by omega)]

theorem toNat_of_nonneg (h : 0 ≤ a.toInt) : (a.toNat : ℤ) = a.toInt ∧ a.toNat < 2 ^ 63 := by
  have hlt := a.isLt
  rw [BitVec.toInt_eq_toNat_cond] at h ⊢
  split_ifs at h ⊢ <;> omega

theorem toNat_of_neg (h : a.toInt < 0) : (a.toNat : ℤ) = a.toInt + 2 ^ 64 ∧ 2 ^ 63 ≤ a.toNat := by
  have hlt := a.isLt
  rw [BitVec.toInt_eq_toNat_cond] at h ⊢
  split_ifs at h ⊢ <;> omega

theorem ofInt_truth_inj {p q : Prop} [Decidable p] [Decidable q] :
    BitVec.ofInt 64 (truth p) = BitVec.ofInt 64 (truth q) ↔ (p ↔ q) := by
  by_cases hp : p <;> by_cases hq : q <;> simp [truth, hp, hq]

theorem sign_eq (d : Reg) : sign d = BitVec.ofInt 64 (truth (d.toInt < 0)) := by
  refine BitVec.eq_of_toNat_eq ?_
  rw [sign, BitVec.toNat_ushiftRight, Nat.shiftRight_eq_div_pow, truth]
  split_ifs with hneg
  · have hlt := d.isLt
    have hle := (toNat_of_neg hneg).2
    change _ = 1
    omega
  · have hlt := (toNat_of_nonneg (Int.not_lt.mp hneg)).2
    change _ = 0
    omega

theorem one_sub_truth {p : Prop} [Decidable p] :
    1 - BitVec.ofInt 64 (truth p) = BitVec.ofInt 64 (truth ¬p) := by
  by_cases hp : p <;> simp [truth, hp]

theorem exists_toInt_sub (a b : Reg) :
    ∃ k : ℤ, (a - b).toInt = a.toInt - b.toInt + 2 ^ 64 * k := by
  refine ⟨-(a.toInt - b.toInt).bdiv (2 ^ 64), ?_⟩
  rw [BitVec.toInt_sub, Int.bmod_eq_self_sub_mul_bdiv]
  push_cast
  ring

/-- One of a word and its negative is negative, unless both are zero. -/
theorem nonzero_eq (d : Reg) : nonzero d = BitVec.ofInt 64 (truth (d ≠ 0)) := by
  have hsign : nonzero d = sign (d ||| (0 - d)) := rfl
  have hor : (d ||| (0 - d)).toInt < 0 ↔ d.toInt < 0 ∨ (0 - d).toInt < 0 := by
    have hmsb : (d ||| (0 - d)).msb = (d.msb || (0 - d).msb) := BitVec.msb_or
    rw [BitVec.msb_eq_toInt, BitVec.msb_eq_toInt, BitVec.msb_eq_toInt] at hmsb
    have hiff := Bool.eq_iff_iff.mp hmsb
    rwa [Bool.or_eq_true, decide_eq_true_iff, decide_eq_true_iff, decide_eq_true_iff] at hiff
  obtain ⟨k, hk⟩ := exists_toInt_sub 0 d
  have hd := inRange_toInt d
  have hneg := inRange_toInt (0 - d)
  have hzero : d = 0 ↔ d.toInt = 0 := BitVec.toInt_inj.symm
  have h0 : (0 : Reg).toInt = 0 := rfl
  rw [h0] at hk
  rw [hsign, sign_eq, ofInt_truth_inj, hor, ne_eq, hzero]
  simp only [InRange] at hd hneg
  omega

/-- The difference of two words has the sign of the true one when that is representable. -/
theorem sub_neg_iff (a b : Reg) :
    ((a - b).toInt < 0 ↔ a.toInt < b.toInt) ↔ InRange (a.toInt - b.toInt) := by
  obtain ⟨k, hk⟩ := exists_toInt_sub a b
  have ha := inRange_toInt a
  have hb := inRange_toInt b
  have hd := inRange_toInt (a - b)
  simp only [InRange] at *
  omega

/-- The operands that an unsigned division divides as a signed one does. -/
def DivRight (a b : ℤ) : Prop := (0 ≤ a ∧ (0 < b ∨ a < -b)) ∨ (a < 0 ∧ (b = 1 ∨ a = b))

def ModRight (a b : ℤ) : Prop :=
  (0 ≤ a ∧ (0 < b ∨ a < -b)) ∨ (a < 0 ∧ ((0 < b ∧ b ∣ a ∧ b ∣ 2 ^ 64) ∨ a = b))

theorem toInt_udiv_of_lt (h : a.toNat / b.toNat < 2 ^ 63) :
    (a / b).toInt = (a.toNat / b.toNat : ℕ) := by
  have hdiv : (a / b).toNat = a.toNat / b.toNat := BitVec.toNat_udiv
  rw [toInt_of_lt (by rwa [hdiv]), hdiv]

theorem udiv_eq_iff_of_neg_of_neg (ha : a.toInt < 0) (hb : b.toInt < 0) :
    (a / b).toInt = a.toInt.tdiv b.toInt ↔ DivRight a.toInt b.toInt := by
  obtain ⟨hA, hA63⟩ := toNat_of_neg ha
  obtain ⟨hB, hB63⟩ := toNat_of_neg hb
  have hAlt := a.isLt
  have htdiv : a.toInt.tdiv b.toInt = -a.toInt / -b.toInt := by
    rw [← Int.tdiv_eq_ediv_of_nonneg (by omega), Int.neg_tdiv_neg]
  rcases lt_trichotomy a.toInt b.toInt with hlt | heq | hgt
  · -- The unsigned quotient is 0, the signed one is not.
    have hq : a.toNat / b.toNat = 0 := Nat.div_eq_of_lt (by omega)
    have hpos : 1 ≤ -a.toInt / -b.toInt := by
      rw [Int.le_ediv_iff_mul_le (by omega)]
      omega
    rw [toInt_udiv_of_lt (by omega), hq, htdiv, DivRight]
    omega
  · have hself : -b.toInt / -b.toInt = 1 := Int.ediv_self (by omega)
    have hq : a.toNat / b.toNat = 1 := by
      rw [show a.toNat = b.toNat by omega, Nat.div_self (by omega)]
    rw [toInt_udiv_of_lt (by omega), hq, htdiv, heq, hself]
    exact iff_of_true rfl (.inr ⟨hb, .inr rfl⟩)
  · have hq : a.toNat / b.toNat = 1 :=
      Nat.div_eq_of_lt_le (by omega) (by omega)
    have hzero : -a.toInt / -b.toInt = 0 := Int.ediv_eq_zero_of_lt (by omega) (by omega)
    rw [toInt_udiv_of_lt (by omega), hq, htdiv, hzero, DivRight]
    omega

theorem udiv_eq_iff_of_neg_of_pos (ha : a.toInt < 0) (hb : 0 < b.toInt) :
    (a / b).toInt = a.toInt.tdiv b.toInt ↔ DivRight a.toInt b.toInt := by
  obtain ⟨hA, hA63⟩ := toNat_of_neg ha
  obtain ⟨hB, hB63⟩ := toNat_of_nonneg hb.le
  rcases eq_or_ne b.toInt 1 with hone | hone
  · have hb1 : b = 1 := BitVec.toInt_inj.mp hone
    rw [hb1]
    refine iff_of_true ?_ (.inr ⟨ha, .inl rfl⟩)
    have hdiv : a / 1 = a := BitVec.udiv_one
    rw [hdiv]
    exact (Int.tdiv_one _).symm
  · -- The unsigned quotient is positive and at most half of the dividend.
    have hle : a.toNat / b.toNat ≤ a.toNat / 2 := Nat.div_le_div_left (by omega) (by decide)
    have hpos : 1 ≤ a.toNat / b.toNat := by
      rw [Nat.le_div_iff_mul_le (by omega)]
      omega
    have hneg : 0 ≤ (-a.toInt).tdiv b.toInt := Int.tdiv_nonneg (by omega) hb.le
    rw [Int.neg_tdiv] at hneg
    have hAlt := a.isLt
    rw [toInt_udiv_of_lt (by omega), DivRight]
    omega

theorem udiv_eq_iff_of_nonneg_of_neg (ha : 0 ≤ a.toInt) (hb : b.toInt < 0) :
    (a / b).toInt = a.toInt.tdiv b.toInt ↔ DivRight a.toInt b.toInt := by
  obtain ⟨hA, hA63⟩ := toNat_of_nonneg ha
  obtain ⟨hB, hB63⟩ := toNat_of_neg hb
  have hq : a.toNat / b.toNat = 0 := Nat.div_eq_of_lt (by omega)
  have htdiv : a.toInt.tdiv b.toInt = -(a.toInt / -b.toInt) := by
    rw [← Int.tdiv_eq_ediv_of_nonneg ha, Int.tdiv_neg, neg_neg]
  have hpos : 1 ≤ a.toInt / -b.toInt ↔ -b.toInt ≤ a.toInt := by
    rw [Int.le_ediv_iff_mul_le (by omega), one_mul]
  have hnonneg : 0 ≤ a.toInt / -b.toInt := Int.ediv_nonneg ha (by omega)
  rw [toInt_udiv_of_lt (by omega), hq, htdiv, DivRight]
  omega

theorem udiv_eq_iff_of_nonneg_of_pos (ha : 0 ≤ a.toInt) (hb : 0 < b.toInt) :
    (a / b).toInt = a.toInt.tdiv b.toInt ↔ DivRight a.toInt b.toInt := by
  obtain ⟨hA, hA63⟩ := toNat_of_nonneg ha
  obtain ⟨hB, -⟩ := toNat_of_nonneg hb.le
  have hlt : a.toNat / b.toNat < 2 ^ 63 := (Nat.div_le_self _ _).trans_lt hA63
  rw [toInt_udiv_of_lt hlt, Int.natCast_ediv, hA, hB, Int.tdiv_eq_ediv_of_nonneg ha]
  exact iff_of_true rfl (.inl ⟨ha, .inl hb⟩)

theorem udiv_eq_iff (hb : b.toInt ≠ 0) :
    (a / b).toInt = a.toInt.tdiv b.toInt ↔ DivRight a.toInt b.toInt := by
  rcases lt_or_ge a.toInt 0 with ha | ha <;> rcases lt_or_gt_of_ne hb with hb | hb
  · exact udiv_eq_iff_of_neg_of_neg ha hb
  · exact udiv_eq_iff_of_neg_of_pos ha hb
  · exact udiv_eq_iff_of_nonneg_of_neg ha hb
  · exact udiv_eq_iff_of_nonneg_of_pos ha hb

theorem sub_udiv_mul (a b : Reg) : a - a / b * b = a % b := by
  have hmul : a.toNat / b.toNat * b.toNat ≤ a.toNat := Nat.div_mul_le_self _ _
  have hlt := a.isLt
  have hprod : (a / b * b).toNat = a.toNat / b.toNat * b.toNat := by
    rw [BitVec.toNat_mul, BitVec.toNat_udiv, Nat.mod_eq_of_lt (by omega)]
  refine BitVec.eq_of_toNat_eq ?_
  rw [BitVec.toNat_sub_of_le (by rw [BitVec.le_def, hprod]; exact hmul), hprod, BitVec.toNat_umod]
  have hdecomp := Nat.div_add_mod' a.toNat b.toNat
  omega

theorem toInt_umod_of_lt (h : a.toNat % b.toNat < 2 ^ 63) :
    (a % b).toInt = (a.toNat % b.toNat : ℕ) := by
  have hmod : (a % b).toNat = a.toNat % b.toNat := BitVec.toNat_umod
  rw [toInt_of_lt (by rwa [hmod]), hmod]

theorem umod_eq_iff_of_neg_of_neg (ha : a.toInt < 0) (hb : b.toInt < 0) :
    (a % b).toInt = a.toInt.tmod b.toInt ↔ ModRight a.toInt b.toInt := by
  obtain ⟨hA, hA63⟩ := toNat_of_neg ha
  obtain ⟨hB, hB63⟩ := toNat_of_neg hb
  have hAlt := a.isLt
  have htmod : a.toInt.tmod b.toInt = -(-a.toInt % -b.toInt) := by
    rw [← Int.tmod_eq_emod_of_nonneg (by omega), Int.tmod_neg, Int.neg_tmod, neg_neg]
  rw [ModRight]
  rcases lt_trichotomy a.toInt b.toInt with hlt | heq | hgt
  · -- The unsigned remainder is the dividend itself, the signed one is nearer to zero.
    have hself : a % b = a := BitVec.eq_of_toNat_eq (by
      rw [BitVec.toNat_umod, Nat.mod_eq_of_lt (by omega)])
    have hrem : -a.toInt % -b.toInt < -b.toInt := Int.emod_lt_of_pos _ (by omega)
    rw [hself, htmod]
    omega
  · have hself : a % b = 0 := by
      rw [BitVec.toInt_inj.mp heq]
      exact BitVec.umod_self
    have hrem : -a.toInt % -b.toInt = 0 := by rw [heq, Int.emod_self]
    rw [hself, htmod, hrem]
    exact iff_of_true rfl (.inr ⟨ha, .inr heq⟩)
  · have hmod : a.toNat % b.toNat = a.toNat - b.toNat := by
      rw [Nat.mod_eq_sub_mod (by omega), Nat.mod_eq_of_lt (by omega)]
    have hrem : -a.toInt % -b.toInt = -a.toInt := Int.emod_eq_of_lt (by omega) (by omega)
    rw [toInt_umod_of_lt (by omega), hmod, htmod, hrem]
    omega

theorem umod_eq_iff_of_neg_of_pos (ha : a.toInt < 0) (hb : 0 < b.toInt) :
    (a % b).toInt = a.toInt.tmod b.toInt ↔ ModRight a.toInt b.toInt := by
  obtain ⟨hA, hA63⟩ := toNat_of_neg ha
  obtain ⟨hB, hB63⟩ := toNat_of_nonneg hb.le
  have hlt : a.toNat % b.toNat < b.toNat := Nat.mod_lt _ (by omega)
  have htmod : a.toInt.tmod b.toInt = -(-a.toInt % b.toInt) := by
    rw [← Int.tmod_eq_emod_of_nonneg (by omega), Int.neg_tmod, neg_neg]
  have hrem : 0 ≤ -a.toInt % b.toInt := Int.emod_nonneg _ hb.ne'
  have hdvd : -a.toInt % b.toInt = 0 ↔ b.toInt ∣ a.toInt := by
    rw [← Int.dvd_iff_emod_eq_zero, Int.dvd_neg]
  have hword : ((a.toNat % b.toNat : ℕ) : ℤ) = 0 ↔ b.toInt ∣ a.toInt + 2 ^ 64 := by
    rw [← hA, ← hB, Int.natCast_eq_zero, Int.natCast_dvd_natCast, Nat.dvd_iff_mod_eq_zero]
  -- Of the two remainders one is not negative and the other not positive.
  have hzero : ((a.toNat % b.toNat : ℕ) : ℤ) = -(-a.toInt % b.toInt) ↔
      ((a.toNat % b.toNat : ℕ) : ℤ) = 0 ∧ -a.toInt % b.toInt = 0 := by omega
  rw [toInt_umod_of_lt (by omega), htmod, hzero, hdvd, hword, ModRight]
  constructor
  · rintro ⟨hsum, ha'⟩
    exact .inr ⟨ha, .inl ⟨hb, ha', (Int.dvd_add_right ha').mp hsum⟩⟩
  · rintro (⟨hnonneg, _⟩ | ⟨_, ⟨_, ha', hpow⟩ | heq⟩)
    · omega
    · exact ⟨Int.dvd_add ha' hpow, ha'⟩
    · omega

theorem umod_eq_iff_of_nonneg_of_neg (ha : 0 ≤ a.toInt) (hb : b.toInt < 0) :
    (a % b).toInt = a.toInt.tmod b.toInt ↔ ModRight a.toInt b.toInt := by
  obtain ⟨hA, hA63⟩ := toNat_of_nonneg ha
  obtain ⟨hB, hB63⟩ := toNat_of_neg hb
  have hself : a.toNat % b.toNat = a.toNat := Nat.mod_eq_of_lt (by omega)
  have htmod : a.toInt.tmod b.toInt = a.toInt % -b.toInt := by
    rw [← Int.tmod_eq_emod_of_nonneg ha, Int.tmod_neg]
  have hrem : a.toInt % -b.toInt < -b.toInt := Int.emod_lt_of_pos _ (by omega)
  rw [toInt_umod_of_lt (by omega), hself, hA, htmod, ModRight]
  rcases lt_or_ge a.toInt (-b.toInt) with hlt | hge
  · rw [Int.emod_eq_of_lt ha hlt]
    omega
  · omega

theorem umod_eq_iff_of_nonneg_of_pos (ha : 0 ≤ a.toInt) (hb : 0 < b.toInt) :
    (a % b).toInt = a.toInt.tmod b.toInt ↔ ModRight a.toInt b.toInt := by
  obtain ⟨hA, hA63⟩ := toNat_of_nonneg ha
  obtain ⟨hB, -⟩ := toNat_of_nonneg hb.le
  have hlt : a.toNat % b.toNat < 2 ^ 63 := (Nat.mod_le _ _).trans_lt hA63
  rw [toInt_umod_of_lt hlt, Int.natCast_emod, hA, hB, Int.tmod_eq_emod_of_nonneg ha]
  exact iff_of_true rfl (.inl ⟨ha, .inl hb⟩)

theorem umod_eq_iff (hb : b.toInt ≠ 0) :
    (a % b).toInt = a.toInt.tmod b.toInt ↔ ModRight a.toInt b.toInt := by
  rcases lt_or_ge a.toInt 0 with ha | ha <;> rcases lt_or_gt_of_ne hb with hb | hb
  · exact umod_eq_iff_of_neg_of_neg ha hb
  · exact umod_eq_iff_of_neg_of_pos ha hb
  · exact umod_eq_iff_of_nonneg_of_neg ha hb
  · exact umod_eq_iff_of_nonneg_of_pos ha hb

end Words

/-- The operands for which the code of an operator is right. -/
def Binary.Right (a b : ℤ) : Binary → Prop
  | .lt | .ge => InRange (a - b)
  | .gt | .le => InRange (b - a)
  | .div => DivRight a b
  | .mod => ModRight a b
  | _ => True

section Words

variable {a b : Reg} {r x : ℤ}

theorem inRange?_eq_some : inRange? x = some r ↔ InRange x ∧ x = r := by
  rw [inRange?]
  split_ifs with h <;> simp [h]

theorem shiftLeft_eq {k : ℕ} (ha : 0 ≤ a.toInt) :
    a <<< k = BitVec.ofInt 64 (a.toInt * 2 ^ k) := by
  have hcast : a.toInt * 2 ^ k = (a.toNat * 2 ^ k : ℕ) := by
    rw [← (toNat_of_nonneg ha).1]
    push_cast
    rfl
  rw [hcast, BitVec.ofInt_natCast]
  refine BitVec.eq_of_toNat_eq ?_
  rw [BitVec.toNat_shiftLeft, BitVec.toNat_ofNat, Nat.shiftLeft_eq]

theorem ushiftRight_eq {k : ℕ} (ha : 0 ≤ a.toInt) :
    a >>> k = BitVec.ofInt 64 (a.toInt / 2 ^ k) := by
  have hcast : a.toInt / 2 ^ k = (a.toNat / 2 ^ k : ℕ) := by
    rw [← (toNat_of_nonneg ha).1]
    push_cast
    rfl
  have hlt : a.toNat / 2 ^ k < 2 ^ 64 := (Nat.div_le_self _ _).trans_lt a.isLt
  rw [hcast, BitVec.ofInt_natCast]
  refine BitVec.eq_of_toNat_eq ?_
  rw [BitVec.toNat_ushiftRight, BitVec.toNat_ofNat, Nat.shiftRight_eq_div_pow,
    Nat.mod_eq_of_lt hlt]

/-- An amount from 0 to 63 is itself modulo 64. -/
theorem amount_eq (hlo : 0 ≤ b.toInt) (hhi : b.toInt < 64) : b.toNat % 64 = b.toInt.toNat := by
  have hb := (toNat_of_nonneg hlo).1
  omega

theorem inRange_tmod (hb : b.toInt ≠ 0) : InRange (a.toInt.tmod b.toInt) := by
  have hb' := inRange_toInt b
  have habs : (a.toInt.tmod b.toInt).natAbs < b.toInt.natAbs := by
    rw [Int.natAbs_tmod]
    exact Nat.mod_lt _ (by omega)
  simp only [InRange] at *
  omega

theorem sub_ne_zero_iff : a - b ≠ 0 ↔ a.toInt ≠ b.toInt := by
  rw [ne_eq, ne_eq, BitVec.toInt_inj, BitVec.sub_eq_iff_eq_add]
  exact not_congr (by rw [show 0 + b = b from BitVec.zero_add b])

theorem Binary.word_eq_iff {op : Binary} (h : op.eval a.toInt b.toInt = some r) :
    op.word a b = BitVec.ofInt 64 r ↔ op.Right a.toInt b.toInt := by
  cases op with
  | lt =>
      cases h
      rw [word, sign_eq, ofInt_truth_inj, sub_neg_iff, Right]
  | gt =>
      cases h
      rw [word, sign_eq, ofInt_truth_inj, gt_iff_lt, sub_neg_iff, Right]
  | le =>
      cases h
      rw [word, sign_eq, one_sub_truth, ofInt_truth_inj, ← not_lt, not_iff_not, sub_neg_iff, Right]
  | ge =>
      cases h
      rw [word, sign_eq, one_sub_truth, ofInt_truth_inj, ge_iff_le, ← not_lt, not_iff_not,
        sub_neg_iff, Right]
  | eq =>
      cases h
      rw [word, nonzero_eq, one_sub_truth, ofInt_truth_inj, sub_ne_zero_iff, not_ne_iff]
      exact iff_of_true Iff.rfl trivial
  | ne =>
      cases h
      rw [word, nonzero_eq, ofInt_truth_inj, sub_ne_zero_iff]
      exact iff_of_true Iff.rfl trivial
  | add =>
      obtain ⟨_, rfl⟩ := inRange?_eq_some.mp h
      rw [word, BitVec.ofInt_add, BitVec.ofInt_toInt, BitVec.ofInt_toInt]
      exact iff_of_true rfl trivial
  | sub =>
      obtain ⟨_, rfl⟩ := inRange?_eq_some.mp h
      rw [word, Int.sub_eq_add_neg, BitVec.ofInt_add, BitVec.ofInt_neg, BitVec.ofInt_toInt,
        BitVec.ofInt_toInt, ← BitVec.sub_eq_add_neg]
      exact iff_of_true rfl trivial
  | mul =>
      obtain ⟨_, rfl⟩ := inRange?_eq_some.mp h
      rw [word, BitVec.ofInt_mul, BitVec.ofInt_toInt, BitVec.ofInt_toInt]
      exact iff_of_true rfl trivial
  | div =>
      rw [eval] at h
      split_ifs at h with hb
      obtain ⟨hrange, rfl⟩ := inRange?_eq_some.mp h
      rw [word, eq_ofInt_iff hrange, udiv_eq_iff hb, Right]
  | mod =>
      rw [eval] at h
      split_ifs at h with hundef
      obtain ⟨hb, _⟩ := not_or.mp hundef
      cases h
      rw [word, sub_udiv_mul, eq_ofInt_iff (inRange_tmod hb), umod_eq_iff hb, Right]
  | and =>
      cases h
      rw [word, BitVec.ofInt_toInt, BitVec.ofInt_toInt, BitVec.ofInt_toInt]
      exact iff_of_true rfl trivial
  | or =>
      cases h
      rw [word, BitVec.ofInt_toInt, BitVec.ofInt_toInt, BitVec.ofInt_toInt]
      exact iff_of_true rfl trivial
  | xor =>
      cases h
      rw [word, BitVec.ofInt_toInt, BitVec.ofInt_toInt, BitVec.ofInt_toInt]
      exact iff_of_true rfl trivial
  | shl =>
      rw [eval] at h
      split_ifs at h with hundef
      obtain ⟨hrange, rfl⟩ := inRange?_eq_some.mp h
      rw [word, amount_eq (by omega) (by omega), shiftLeft_eq (by omega)]
      exact iff_of_true rfl trivial
  | shr =>
      rw [eval] at h
      split_ifs at h with hundef
      cases h
      rw [word, amount_eq (by omega) (by omega), ushiftRight_eq (by omega)]
      exact iff_of_true rfl trivial

theorem Unary.word_eq {op : Unary} (h : op.eval a.toInt = some r) :
    op.word a = BitVec.ofInt 64 r := by
  cases op with
  | not =>
      cases h
      have hzero : a ≠ 0 ↔ ¬ a.toInt = 0 := not_congr BitVec.toInt_inj.symm
      rw [word, nonzero_eq, one_sub_truth, ofInt_truth_inj, hzero, not_not]
  | neg =>
      obtain ⟨_, rfl⟩ := inRange?_eq_some.mp h
      rw [word, BitVec.ofInt_neg, BitVec.ofInt_toInt]
      exact BitVec.zero_sub a
  | compl =>
      cases h
      rw [word, Int.sub_eq_add_neg, BitVec.ofInt_add, BitVec.ofInt_neg, BitVec.ofInt_toInt]
      bv_omega

theorem compare_zero (a : Reg) : (A64.compare a 0).z = true ↔ a.toInt = 0 := by
  have hsub : (A64.compare a 0).z = decide (a - 0 = 0) := rfl
  rw [hsub, decide_eq_true_iff, ← not_iff_not]
  exact sub_ne_zero_iff

theorem Short.word_eq (op : Short) (a b : Reg) :
    op.word a b = BitVec.ofInt 64 (op.eval a.toInt b.toInt) := by
  have hb : b ≠ 0 ↔ b.toInt ≠ 0 := not_congr BitVec.toInt_inj.symm
  cases op with
  | and =>
      have hholds : and.cond.holds (A64.compare a 0) = true ↔ a.toInt = 0 := compare_zero a
      rw [word, eval]
      split_ifs with htaken
      · rw [hholds] at htaken
        simp [htaken, truth, early]
      · rw [hholds] at htaken
        rw [nonzero_eq, ofInt_truth_inj, hb]
        exact (and_iff_right htaken).symm
  | or =>
      have hholds : or.cond.holds (A64.compare a 0) = true ↔ a.toInt ≠ 0 := by
        have hnot : or.cond.holds (A64.compare a 0) = !(A64.compare a 0).z := rfl
        rw [hnot, Bool.not_eq_true', ← Bool.not_eq_true, compare_zero]
      rw [word, eval]
      split_ifs with htaken
      · rw [hholds] at htaken
        simp [htaken, truth, early]
      · rw [hholds, not_not] at htaken
        rw [nonzero_eq, ofInt_truth_inj, hb]
        exact (or_iff_right (not_not_intro htaken)).symm

/-- There is a machine with any two words on its value stack, and the code for them is one. -/
theorem Binary.Replaces.unique {op : Binary} {s t : Reg} (hs : op.Replaces a b s)
    (ht : op.Replaces a b t) : s = t := by
  let mem := store (store (fun _ => 0) 0 a) (0 + 8) b
  let m : Machine := ⟨fun _ => 16, mem, ⟨false, false, false, false⟩⟩
  have hslot : m.reg 9 - 16 = 0 := BitVec.sub_self (16 : Reg)
  have hslot' : m.reg 9 - 8 = 0 + 8 := by
    rw [show m.reg 9 = 16 from rfl]
    decide
  have hleft : load m.mem (m.reg 9 - 16) = a := by
    rw [hslot]
    exact (load_store_above _ 0 b).trans load_store
  have hright : load m.mem (m.reg 9 - 8) = b := by
    rw [hslot']
    exact load_store
  obtain ⟨ls, ⟨text, hemit, hread⟩, hrun⟩ := hs 0 []
  obtain ⟨ls', ⟨text', hemit', hread'⟩, hrun'⟩ := ht 0 []
  rw [hemit] at hemit'
  cases hemit'
  rw [hread] at hread'
  cases hread'
  obtain ⟨m₁, hexec, hpushed⟩ := hrun m hleft hright
  obtain ⟨m₂, hexec', hpushed'⟩ := hrun' m hleft hright
  rw [hexec] at hexec'
  cases hexec'
  exact hpushed.top.symm.trans hpushed'.top

theorem Binary.replaces_iff {op : Binary} (h : op.eval a.toInt b.toInt = some r) :
    op.Replaces a b (BitVec.ofInt 64 r) ↔ op.Right a.toInt b.toInt := by
  rw [← word_eq_iff h]
  constructor
  · exact fun hr => (op.replaces_word a b).unique hr
  · intro heq
    rw [← heq]
    exact op.replaces_word a b

end Words

/-- A comparison is right exactly when the difference that it looks at is representable, and
division and remainder exactly when the unsigned ones agree; the other operators always are. -/
theorem emitapply_exact (a b : Reg) :
    (∀ (op : Binary) (r : ℤ), op.eval a.toInt b.toInt = some r →
      (op.Replaces a b (BitVec.ofInt 64 r) ↔ op.Right a.toInt b.toInt)) ∧
    (∀ op : Short, op.Replaces a b (BitVec.ofInt 64 (op.eval a.toInt b.toInt))) ∧
    ∀ (op : Unary) (r : ℤ), op.eval a.toInt = some r → op.Replaces a (BitVec.ofInt 64 r) := by
  refine ⟨fun op r h => op.replaces_iff h, fun op => ?_, fun op r h => ?_⟩
  · rw [← op.word_eq]
    exact op.replaces_word a b
  · rw [← op.word_eq h]
    exact op.replaces_word a

theorem div_seven_two : Binary.div.Replaces 7 2 (BitVec.ofInt 64 3) :=
  ((emitapply_exact 7 2).1 .div 3 (by decide)).mpr (.inl (by decide))

/-- -7 / 2, and `<` on the least word and 1. -/
theorem not_all_replaced :
    ¬ (∀ (a b : Reg) (r : ℤ), Binary.div.eval a.toInt b.toInt = some r →
      Binary.div.Replaces a b (BitVec.ofInt 64 r)) ∧
    ¬ ∀ (a b : Reg) (r : ℤ), Binary.lt.eval a.toInt b.toInt = some r →
      Binary.lt.Replaces a b (BitVec.ofInt 64 r) := by
  constructor
  · intro h
    have hright := (Binary.replaces_iff (by decide)).mp (h (-7) 2 (-3) (by decide))
    rw [Binary.Right, DivRight] at hright
    revert hright
    decide
  · intro h
    have hright := (Binary.replaces_iff (by decide)).mp (h (BitVec.intMin 64) 1 1 (by decide))
    revert hright
    change ¬ InRange _
    decide

end Veron.PicoC
