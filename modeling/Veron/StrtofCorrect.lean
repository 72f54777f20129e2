/-
`strtof` on decimal literals.  It rounds to binary64 and narrows that, so the
result is the nearest binary32 number unless the first rounding lands on a
binary32 midpoint from the wrong side.
-/
import Veron.SoftFloatNarrow
import Veron.StrtodCorrect

namespace Veron

namespace Strtod

open BinaryFormat SoftFloat

/-- `strtof`. -/
def strtof (s : List Char) : Option (UInt × List Char) := do
  let (b, p) ← strtodBits s
  some (strtodToF32 b, p)

/-- Narrowing a pattern rounds what it stands for; infinity stands for the point above
the largest finite value. -/
theorem strtodToF32_withSign {neg : Bool} {b : ℕ} {w : ULong} (hb : b ≤ binary64.infIndex)
    (hw : w.toNat = binary64.withSign neg b) :
    ∃ r, NearestEven binary32.grid binary32.infIndex (binary64.grid b) r ∧
      (strtodToF32 w).toNat = binary32.withSign neg r := by
  have hround := strtodToF32_rounds w
  rw [hw] at hround
  rcases hb.lt_or_eq with hlt | rfl
  · rw [decode_withSign _ _ hlt] at hround
    exact hround
  · rw [decode_withSign_inf] at hround
    refine ⟨binary32.infIndex, NearestEven.of_last_le binary32.grid_strictMono ?_, hround⟩
    rw [binary32_grid_inf, binary64_grid_inf]
    exact pow_le_pow_right₀ (by norm_num) (by norm_num)

variable {lit : DecimalLiteral} {rest : List Char}

/-- On a literal `strtof` rounds twice. -/
theorem strtof_literal (h : LongestPrefix (lit.text ++ rest) lit) :
    ∃ b r w, NearestEven binary64.grid binary64.infIndex (lit.magAt (firstSix lit.expAbs)) b ∧
      NearestEven binary32.grid binary32.infIndex (binary64.grid b) r ∧
      strtof (lit.text ++ rest) = some (w, rest) ∧ w.toNat = binary32.withSign lit.neg r := by
  obtain ⟨d, hrun, b, hb, hd⟩ := strtodBits_literal h
  obtain ⟨r, hr, hw⟩ := strtodToF32_withSign hb.le_last hd
  refine ⟨b, r, strtodToF32 d, hb, hr, ?_, hw⟩
  rw [strtof, hrun]
  rfl

/-- What narrows to zero: everything up to half a binary64 unit above half the least
subnormal. -/
theorem narrow_zero_iff {y : ℚ} {b r : ℕ}
    (hb : NearestEven binary64.grid binary64.infIndex y b)
    (hr : NearestEven binary32.grid binary32.infIndex (binary64.grid b) r) :
    r = 0 ↔ y ≤ 2 ^ (-150 : ℤ) + 2 ^ (-203 : ℤ) := by
  have hmono := binary32.grid_strictMono
  have hpattern : narrowMidpoint 0 0 = 872 * 2 ^ 52 + 2 ^ 52 := by
    norm_num [narrowMidpoint]
  have hmid := narrow_midpoint 0 (s := 0) (by decide) (Or.inl rfl)
  rw [Nat.zero_mul, Nat.zero_add] at hmid
  have heven := even_narrowMidpoint 0 (s := 0) (by decide)
  have hlow := binary64.grid_pack (k := 872) (s := 2 ^ 52) (by norm_num [binary64])
    (Or.inr le_rfl)
  have hhigh := binary64.grid_pack (k := 872) (s := 2 ^ 52 + 1) (by norm_num [binary64])
    (Or.inr (Nat.le_succ _))
  rw [show binary64.trail = 52 from rfl] at hlow hhigh
  rw [hpattern] at hmid heven
  have hthreshold := hb.le_iff binary64.grid_strictMono
    (by norm_num [binary64_infIndex]) heven
  rw [Nat.add_assoc, hlow, hhigh, binary64_minExp] at hthreshold
  have hhalf : r = 0 ↔ b ≤ 872 * 2 ^ 52 + 2 ^ 52 := by
    rw [← binary64.grid_strictMono.le_iff_le, ← mul_le_mul_iff_right₀ (zero_lt_two (α := ℚ)),
      hmid,
      ← nearestEven_zero_iff hmono (show 1 ≤ binary32.infIndex by norm_num [binary32_infIndex])]
    exact ⟨fun h => h ▸ hr, fun h => hr.unique hmono h⟩
  rw [hhalf, hthreshold]
  norm_num
  constructor <;> intro h <;> linarith

/-- What narrows to infinity: everything from half a binary64 unit below the midpoint
above the largest finite value on. -/
theorem narrow_inf_iff {y : ℚ} {b r : ℕ}
    (hb : NearestEven binary64.grid binary64.infIndex y b)
    (hr : NearestEven binary32.grid binary32.infIndex (binary64.grid b) r) :
    r = binary32.infIndex ↔ 2 ^ 128 - 2 ^ 103 - 2 ^ 74 ≤ y := by
  have hmono := binary32.grid_strictMono
  have hlog : Nat.log 2 (2 * (2 ^ 24 - 1) + 1) = 24 := by
    rw [Nat.log_eq_iff (Or.inl (by decide))]
    decide
  have hpattern : narrowMidpoint 253 (2 ^ 24 - 1) = 1149 * 2 ^ 52 + (2 ^ 53 - 2 ^ 28 - 1) + 1 := by
    rw [narrowMidpoint, hlog]
    norm_num
  have hmid := narrow_midpoint 253 (s := 2 ^ 24 - 1) (by decide) (Or.inr (by decide))
  have heven := even_narrowMidpoint 253 (s := 2 ^ 24 - 1) (by decide)
  have hlow := binary64.grid_pack (k := 1149) (s := 2 ^ 53 - 2 ^ 28 - 1) (by norm_num [binary64])
    (Or.inr (by norm_num [binary64]))
  have hhigh := binary64.grid_pack (k := 1149) (s := 2 ^ 53 - 2 ^ 28 - 1 + 1)
    (by norm_num [binary64])
    (Or.inr (by norm_num [binary64]))
  rw [show binary64.trail = 52 from rfl] at hlow hhigh
  rw [hpattern] at hmid heven
  have hthreshold := hb.ge_iff binary64.grid_strictMono
    (by norm_num [binary64_infIndex]) heven
  rw [hlow, Nat.add_assoc (1149 * 2 ^ 52), hhigh, binary64_minExp] at hthreshold
  have hlast : binary32.infIndex = 253 * 2 ^ 23 + (2 ^ 24 - 1) + 1 := by
    norm_num [binary32_infIndex]
  have hinf : Even (253 * 2 ^ 23 + (2 ^ 24 - 1) + 1) := by
    norm_num [Nat.even_iff]
  have hhalf : r = binary32.infIndex ↔ 1149 * 2 ^ 52 + (2 ^ 53 - 2 ^ 28 - 1) + 1 ≤ b := by
    rw [hlast] at hr ⊢
    rw [← binary64.grid_strictMono.le_iff_le, ← mul_le_mul_iff_right₀ (zero_lt_two (α := ℚ)),
      hmid, ← nearestEven_last_iff hmono hinf]
    exact ⟨fun h => h ▸ hr, fun h => hr.unique hmono h⟩
  rw [hhalf, Nat.add_assoc (1149 * 2 ^ 52), hthreshold]
  norm_num
  constructor <;> intro h <;> linarith

/-- Rounding by way of binary64 does no harm.  An exponent the cap cuts short counts
with its first six digits, and these have to overflow or underflow by themselves. -/
def NarrowHarmless (lit : DecimalLiteral) : Prop :=
  if lit.expAbs < 10 ^ 6 ∨ decimal lit.digits = 0 then
    ¬ DoublyRounded binary64.grid binary32.grid binary32.infIndex lit.mag
  else if lit.expNeg then lit.magAt (firstSix lit.expAbs) ≤ 2 ^ (-150 : ℤ) + 2 ^ (-203 : ℤ)
  else 2 ^ 128 - 2 ^ 103 - 2 ^ 74 ≤ lit.magAt (firstSix lit.expAbs)

/-- Every string below 100000 characters whose longest literal prefix is a decimal
literal gets the binary32 number nearest to that literal, and an end pointer just past
it, exactly when the way through binary64 does no harm. -/
theorem strtof_correct_iff {s : List Char} (hs : LongestPrefix s lit)
    (hlen : s.length < 100000) :
    (∃ r, strtof s = some (r, s.drop lit.text.length) ∧
      binary32.RoundsTo lit.neg lit.mag r.toNat) ↔ NarrowHarmless lit := by
  obtain ⟨rest, rfl⟩ := hs.isPrefix
  obtain ⟨b, r, w, hb, hr, hrun, hw⟩ := strtof_literal hs
  rw [List.drop_left, hrun]
  have hiff : (∃ r', some (w, rest) = some (r', rest) ∧
      binary32.RoundsTo lit.neg lit.mag r'.toNat) ↔
        NearestEven binary32.grid binary32.infIndex lit.mag r := by
    rw [← roundsTo_withSign_iff binary32 lit.neg, ← hw]
    constructor
    · rintro ⟨r', heq, hround⟩
      obtain rfl : w = r' := (Prod.mk.inj (Option.some.inj heq)).1
      exact hround
    · exact fun h => ⟨w, rfl, h⟩
  have hmono := binary32.grid_strictMono
  rw [hiff, NarrowHarmless]
  by_cases hexact : lit.expAbs < 10 ^ 6 ∨ decimal lit.digits = 0
  · have hmag : lit.magAt (firstSix lit.expAbs) = lit.mag := by
      rcases hexact with hsmall | hzero
      · rw [firstSix_of_lt hsmall]
        rfl
      · rw [DecimalLiteral.mag, magAt_of_zero hzero, magAt_of_zero hzero]
    rw [hmag] at hb
    rw [if_pos hexact]
    exact hb.double_iff binary64.grid_strictMono hmono midpointsEven_narrow hr
  · rw [if_neg hexact]
    simp only [not_or, not_lt] at hexact
    have hshort : lit.text.length < 100000 := by
      rw [List.length_append] at hlen
      omega
    obtain ⟨hover, hunder⟩ := mag_out_of_range hshort hexact.1 hexact.2
    by_cases hsign : lit.expNeg = true
    · have hzero : NearestEven binary32.grid binary32.infIndex lit.mag 0 :=
        nearestEven_binary32_zero ((hunder hsign).trans
          (zpow_le_zpow_right₀ (by norm_num) (by norm_num)))
      rw [if_pos hsign, ← narrow_zero_iff hb hr]
      constructor
      · exact fun h => h.unique hmono hzero
      · rintro rfl
        exact hzero
    · have hbig : binary32.grid binary32.infIndex ≤ lit.mag := by
        rw [binary32_grid_inf]
        refine le_trans ?_ (hover (Bool.eq_false_iff.mpr hsign))
        calc (2 : ℚ) ^ 128 ≤ 2 ^ 1023 := pow_le_pow_right₀ (by norm_num) (by norm_num)
          _ = 2 ^ 1024 - 2 ^ 1023 := eq_sub_of_add_eq (by rw [← two_mul, ← pow_succ'])
          _ ≤ 2 ^ 1024 - 2 ^ 970 :=
            sub_le_sub_left (pow_le_pow_right₀ (by norm_num) (by norm_num)) _
      have hinf := NearestEven.of_last_le hmono hbig
      rw [if_neg hsign, ← narrow_inf_iff hb hr]
      constructor
      · exact fun h => h.unique hmono hinf
      · rintro rfl
        exact hinf

/-- `1.5`. -/
def threeHalves : DecimalLiteral where
  sign := none
  whole := [lastDigit 1]
  fraction := some [lastDigit 5]
  exponent := none
  some_digit := by decide

theorem strtof_threeHalves :
    ∃ r, strtof "1.5".toList = some (r, []) ∧ binary32.RoundsTo false (3 / 2) r.toNat := by
  have hmag : threeHalves.mag = 3 / 2 := by
    have hdigits : decimal threeHalves.digits = 15 := by decide
    have habs : threeHalves.expAbs = 0 := by decide
    rw [DecimalLiteral.mag, DecimalLiteral.magAt, hdigits, habs]
    norm_num [threeHalves, DecimalLiteral.expNeg, DecimalLiteral.fractionLength]
  have hgrid : binary64.grid (1022 * 2 ^ binary64.trail + (2 ^ 52 + 2 ^ 51)) = 3 / 2 := by
    rw [binary64.grid_pack (by norm_num [binary64]) (Or.inr (by norm_num [binary64])),
      binary64_minExp]
    norm_num
  have hharmless : NarrowHarmless threeHalves := by
    rw [NarrowHarmless, if_pos (Or.inl (by decide)), hmag, ← hgrid]
    exact not_doublyRounded_self binary64.grid_strictMono _
  obtain ⟨r, hrun, hround⟩ :=
    (strtof_correct_iff (DecimalLiteral.longestPrefix_text threeHalves) (by decide)).mpr
      hharmless
  rw [hmag] at hround
  exact ⟨r, hrun, hround⟩

/-- `1.0000000596046447753906250001`, which is just above the midpoint of 1 and its
successor. -/
def aboveMidpoint : DecimalLiteral where
  sign := none
  whole := [lastDigit 1]
  fraction := some ([0, 0, 0, 0, 0, 0, 0, 5, 9, 6, 0, 4, 6, 4, 4, 7, 7, 5, 3, 9, 0, 6, 2, 5,
    0, 0, 0, 1].map lastDigit)
  exponent := none
  some_digit := by decide

/-- The double is the midpoint itself, and the tie goes down to 1. -/
theorem aboveMidpoint_wrong :
    LongestPrefix aboveMidpoint.text aboveMidpoint ∧ aboveMidpoint.text.length < 100000 ∧
      aboveMidpoint.text = "1.0000000596046447753906250001".toList ∧
      strtof aboveMidpoint.text = some (0x3f800000, []) ∧
      ¬ ∃ r, strtof aboveMidpoint.text =
          some (r, aboveMidpoint.text.drop aboveMidpoint.text.length) ∧
        binary32.RoundsTo aboveMidpoint.neg aboveMidpoint.mag r.toNat := by
  have hlongest := DecimalLiteral.longestPrefix_text aboveMidpoint
  have hmag : aboveMidpoint.mag = 1 + 2 ^ (-24 : ℤ) + 1 / 10 ^ 28 := by
    have hdigits : decimal aboveMidpoint.digits = 10000000596046447753906250001 := by decide
    have habs : aboveMidpoint.expAbs = 0 := by decide
    rw [DecimalLiteral.mag, DecimalLiteral.magAt, hdigits, habs]
    norm_num [aboveMidpoint, DecimalLiteral.expNeg, DecimalLiteral.fractionLength]
  have hwhole : LongestPrefix (aboveMidpoint.text ++ []) aboveMidpoint := by
    rw [List.append_nil]
    exact hlongest
  obtain ⟨d, hrun, hround⟩ := strtodBits_literal hwhole
  rw [List.append_nil] at hrun
  have hcap : aboveMidpoint.magAt (firstSix aboveMidpoint.expAbs) = aboveMidpoint.mag := by
    rw [firstSix_of_lt (by decide), DecimalLiteral.mag]
  rw [hcap, hmag] at hround
  have hlow := binary64.grid_pack (k := 1022) (s := 2 ^ 52 + 2 ^ 28) (by norm_num [binary64])
    (Or.inr (by norm_num [binary64]))
  have hhigh := binary64.grid_pack (k := 1022) (s := 2 ^ 52 + 2 ^ 28 + 1)
    (by norm_num [binary64]) (Or.inr (by norm_num [binary64]))
  rw [binary64_minExp] at hlow hhigh
  rw [← Nat.add_assoc] at hhigh
  have hnear := NearestEven.of_between binary64.grid_strictMono
    (x := 1 + 2 ^ (-24 : ℤ) + 1 / 10 ^ 28) (b := 1022 * 2 ^ binary64.trail + (2 ^ 52 + 2 ^ 28))
    (show _ ≤ binary64.infIndex by norm_num [binary64, infIndex]) (by rw [hlow]; norm_num)
    (by rw [hhigh]; norm_num)
  rw [if_pos (Or.inl (by rw [hlow, hhigh]; norm_num))] at hnear
  have hd : d = 0x3ff0000010000000 :=
    BitVec.eq_of_toNat_eq (hround.unique ⟨_, hnear, rfl⟩)
  have hone : strtof aboveMidpoint.text = some (0x3f800000, []) := by
    rw [strtof, hrun, hd]
    decide
  refine ⟨hlongest, by decide, by decide, hone, ?_⟩
  rintro ⟨r, hrun', b, hb, hr⟩
  rw [hone, Option.some.injEq, Prod.mk.injEq] at hrun'
  obtain rfl : 126 * 2 ^ binary32.trail + 2 ^ 23 = b := by
    rw [← hrun'.1] at hr
    exact hr
  have hlow32 := binary32.grid_pack (k := 126) (s := 2 ^ 23) (by norm_num [binary32])
    (Or.inr (by norm_num [binary32]))
  have hhigh32 := binary32.grid_pack (k := 126) (s := 2 ^ 23 + 1) (by norm_num [binary32])
    (Or.inr (by norm_num [binary32]))
  rw [binary32_minExp] at hlow32 hhigh32
  have hmid := hb.high_midpoint binary32.grid_strictMono (Nat.lt_succ_self _)
    (by norm_num [binary32, infIndex])
  rw [Nat.succ_eq_add_one, Nat.add_assoc, hlow32, hhigh32, hmag] at hmid
  norm_num at hmid

end Strtod

end Veron
