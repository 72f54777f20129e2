/-
Integers to binary64 and back.  A `long` and an `unsigned long` share the word;
the flag of the source says which of the two is meant.  Into the format an
integer is rounded to nearest, out of it a value is truncated toward zero.
-/
import Mathlib.Algebra.Order.Floor.Ring
import Mathlib.Data.Rat.Floor
import Veron.SoftFloatDecode

namespace Veron

/-- Truncation toward zero, as a C cast does. -/
def truncate (x : ℚ) : ℤ := if x < 0 then ⌈x⌉ else ⌊x⌋

theorem truncate_signedRat (neg : Bool) {mag : ℚ} (hmag : 0 ≤ mag) :
    truncate (signedRat neg mag) = if neg then -⌊mag⌋ else ⌊mag⌋ := by
  cases neg with
  | false =>
      change (if mag < 0 then ⌈mag⌉ else ⌊mag⌋) = ⌊mag⌋
      exact if_neg (not_lt.mpr hmag)
  | true =>
      change (if -mag < 0 then ⌈-mag⌉ else ⌊-mag⌋) = -⌊mag⌋
      rcases hmag.lt_or_eq with hpos | rfl
      · rw [if_pos (neg_neg_of_pos hpos), Int.ceil_neg]
      · simp

namespace SoftFloat

open BinaryFormat

/-- The integer a word is, read as a `long` or as an `unsigned long`. -/
def intValue (isUnsigned : Bool) (v : ULong) : ℤ :=
  if isUnsigned then v.toNat else v.toInt

/-- The integers of the type. -/
def Representable (isUnsigned : Bool) (t : ℤ) : Prop :=
  if isUnsigned then 0 ≤ t ∧ t < 2 ^ 64 else -2 ^ 63 ≤ t ∧ t < 2 ^ 63

/-- `sf_to_int`. -/
def sfToInt (a : ULong) (isUnsigned : Bool) : ULong :=
  let sign := sfSign a
  if sfIsNan a then 0
  else
    let e := sfExp a
    let m := sfMant a
    if e = 0 then 0
    else
      let e := e - 1023
      if e < 0 then 0
      else if e > 63 then
        if isUnsigned then 0xffffffffffffffff
        else if sign then 0x8000000000000000
        else 0x7fffffffffffffff
      else
        let m := m ||| hidden
        let r := if e ≥ mantBits then m <<< (e - mantBits).toNat else m >>> (mantBits - e).toNat
        if sign then -r else r

/-- The 56 leading bits of an integer, what is below them in the last. -/
def leadingBits (u : ULong) (len : ℕ) : ULong :=
  if len > 56 then
    let k := len - 56
    let st : Bool := u &&& (((1 : ULong) <<< k) - 1) != 0
    let sig := u >>> k
    if st then sig ||| 1 else sig
  else u <<< (56 - len)

/-- `sf_from_int`. -/
def sfFromInt (v : ULong) (isUnsigned : Bool) : ULong :=
  let (sign, u) :=
    if isUnsigned then (false, v)
    else if v.slt 0 then (true, -v)
    else (false, v)
  if u = 0 then 0
  else
    let len := bitLength u
    sfPack sign ((len : ℤ) - 1) (leadingBits u len)

theorem sticky_shift_toNat (u : ULong) {k : ℕ} (hk : k < 64) :
    (if u &&& (((1 : ULong) <<< k) - 1) != 0 then (u >>> k) ||| 1 else u >>> k).toNat =
      jam k u.toNat := by
  have hlost : (u &&& (((1 : ULong) <<< k) - 1) != 0) = true ↔ ¬ u.toNat % 2 ^ k = 0 := by
    rw [bne_iff_ne, ne_eq, ← BitVec.toNat_inj, low_bits_toNat u hk]
    rfl
  unfold jam
  by_cases hr : u.toNat % 2 ^ k = 0
  · rw [if_neg fun h => hlost.mp h hr, if_pos hr, Nat.or_zero, toNat_shiftRight]
  · rw [if_pos (hlost.mpr hr), if_neg hr, BitVec.toNat_or, toNat_shiftRight]
    rfl

/-- The leading bits with their sticky bit stand for the integer. -/
theorem leadingBits_carries {u : ULong} (hu : u ≠ 0) :
    ∃ y : ℚ, Carries (leadingBits u (bitLength u)) y ∧
      y * 2 ^ ((bitLength u : ℤ) - 1 - 55) = u.toNat ∧ leadingBits u (bitLength u) ≠ 0 := by
  have hpos : 0 < u.toNat := Nat.pos_of_ne_zero (toNat_ne_zero hu)
  have hsize : u.toNat.size ≤ 64 := Nat.size_le.mpr u.isLt
  have hsize_pos := Nat.size_pos.mpr hpos
  have htop : 2 ^ (u.toNat.size - 1) ≤ u.toNat :=
    Nat.lt_size.mp (Nat.sub_lt hsize_pos Nat.one_pos)
  have hlt := Nat.lt_size_self u.toNat
  have htwo : (2 : ℚ) ≠ 0 := by norm_num
  rw [bitLength_eq_size]
  generalize hlen : u.toNat.size = len at hsize hsize_pos htop hlt ⊢
  unfold leadingBits
  by_cases hlong : len > 56
  · obtain ⟨k, rfl⟩ := Nat.exists_eq_add_of_lt hlong
    have hk : 56 + k + 1 - 56 = k + 1 := by omega
    have hjam := sticky_shift_toNat u (k := k + 1) (by omega)
    have hlarge : 2 ^ 55 ≤ u.toNat / 2 ^ (k + 1) := by
      rw [Nat.le_div_iff_mul_le (Nat.two_pow_pos _), ← pow_add]
      exact htop.trans' (Nat.pow_le_pow_right (by decide) (by omega))
    have hge : 2 ^ 55 ≤ jam (k + 1) u.toNat := by
      rw [jam_eq]
      omega
    rw [if_pos hlong, hk]
    refine ⟨(u.toNat : ℚ) / 2 ^ (k + 1), Or.inr ⟨?_, ?_⟩, ?_, ?_⟩
    · rw [hjam]
      exact StandsFor.jam (StandsFor.natCast _ _)
    · rw [hjam]
      omega
    · have hexp : ((56 + k + 1 : ℕ) : ℤ) - 1 - 55 = (k + 1 : ℕ) := by
        push_cast
        ring
      rw [hexp, zpow_natCast, div_mul_cancel₀ _ (by positivity)]
    · intro hzero
      rw [hzero] at hjam
      change 0 = _ at hjam
      omega
  · obtain ⟨j, hj⟩ := Nat.exists_eq_add_of_le (Nat.not_lt.mp hlong)
    have hshift : 56 - len = j := by omega
    have hfit : u.toNat * 2 ^ j < 2 ^ 56 := by
      calc u.toNat * 2 ^ j < 2 ^ len * 2 ^ j :=
            Nat.mul_lt_mul_of_pos_right hlt (Nat.two_pow_pos j)
        _ = 2 ^ 56 := by rw [← pow_add, ← hj]
    have hword : (u <<< j).toNat = u.toNat * 2 ^ j := toNat_shiftLeft_of_lt (by omega)
    rw [if_neg hlong, hshift]
    refine ⟨((u <<< j).toNat : ℚ), Or.inl rfl, ?_, ?_⟩
    · have hexp : (len : ℤ) - 1 - 55 = -(j : ℤ) := by omega
      rw [hexp, hword, zpow_neg, zpow_natCast]
      push_cast
      exact mul_inv_cancel_right₀ (by positivity) _
    · intro hzero
      rw [hzero] at hword
      have hmul : 0 < u.toNat * 2 ^ j := Nat.mul_pos hpos (Nat.two_pow_pos j)
      change 0 = _ at hword
      omega

/-- The magnitude and the sign the source takes apart. -/
theorem magnitude_spec (v : ULong) (isUnsigned : Bool) :
    ∃ u : ULong,
      (if isUnsigned then (false, v) else if v.slt 0 then (true, -v) else (false, v)) =
        (decide (intValue isUnsigned v < 0), u) ∧
      (u.toNat : ℤ) = |intValue isUnsigned v| := by
  have hlt : v.toNat < 2 ^ 64 := v.isLt
  cases isUnsigned with
  | true => exact ⟨v, by simp [intValue], by simp [intValue]⟩
  | false =>
      have hint : v.toInt = if 2 * v.toNat < 2 ^ 64 then (v.toNat : ℤ) else v.toNat - 2 ^ 64 :=
        BitVec.toInt_eq_toNat_cond v
      have hslt : v.slt 0 = decide (v.toInt < 0) := rfl
      change ∃ u, (if v.slt 0 = true then (true, -v) else (false, v)) =
        (decide (v.toInt < 0), u) ∧ (u.toNat : ℤ) = |v.toInt|
      by_cases hneg : v.toInt < 0
      · refine ⟨-v, by rw [if_pos (hslt.trans (decide_eq_true hneg)), decide_eq_true hneg], ?_⟩
        rw [abs_of_neg hneg, BitVec.toNat_neg]
        split_ifs at hint <;> omega
      · have hfalse : v.slt 0 = false := hslt.trans (decide_eq_false hneg)
        refine ⟨v, by rw [hfalse, decide_eq_false hneg]; rfl, ?_⟩
        rw [abs_of_nonneg (not_lt.mp hneg)]
        split_ifs at hint <;> omega

theorem sfFromInt_rounds (v : ULong) (isUnsigned : Bool) :
    binary64.RoundsTo (decide (intValue isUnsigned v < 0)) |(intValue isUnsigned v : ℚ)|
      (sfFromInt v isUnsigned).toNat := by
  obtain ⟨u, hparts, habs⟩ := magnitude_spec v isUnsigned
  have hmag : |(intValue isUnsigned v : ℚ)| = u.toNat := by
    rw [← Int.cast_abs, ← habs, Int.cast_natCast]
  rw [hmag, sfFromInt, hparts]
  by_cases hu : u = 0
  · have hzero : intValue isUnsigned v = 0 := by
      rw [hu] at habs
      exact abs_eq_zero.mp habs.symm
    have hgrid := roundsTo_grid (Nat.zero_le _) (decide (intValue isUnsigned v < 0))
    rw [binary64.grid_zero] at hgrid
    simpa [hu, hzero, withSign] using hgrid
  · obtain ⟨y, hcarries, hvalue, hne⟩ := leadingBits_carries hu
    have hround := sfPack_rounds (decide (intValue isUnsigned v < 0)) ((bitLength u : ℤ) - 1)
      hne hcarries
    rw [hvalue] at hround
    simpa only [if_neg hu] using hround

theorem grid_lt_one {b : ℕ} (h : b < 1023 * 2 ^ 52) : binary64.grid b < 1 := by
  have hone := binary64.grid_pack (k := 1022) (s := 2 ^ 52) (by norm_num [binary64])
    (Or.inr (by norm_num [binary64]))
  have hindex : 1022 * 2 ^ binary64.trail + 2 ^ 52 = 1023 * 2 ^ 52 := by norm_num [binary64]
  rw [hindex, binary64_minExp] at hone
  norm_num at hone
  rw [← hone]
  exact binary64.grid_strictMono (by simpa using h)

/-- Shifting the significand to the binary point leaves the whole part. -/
theorem floor_scaled {m : ULong} {e : ℤ} (hm : m.toNat < 2 ^ 53) (he : e ≤ 63) :
    ((if e ≥ mantBits then m <<< (e - mantBits).toNat else m >>> (mantBits - e).toNat).toNat : ℤ) =
      ⌊(m.toNat : ℚ) * 2 ^ (e - 52)⌋ := by
  have hbits : (mantBits : ℤ) = 52 := rfl
  rw [hbits]
  by_cases hlarge : e ≥ 52
  · obtain ⟨d, hd⟩ := Int.eq_ofNat_of_zero_le (show 0 ≤ e - 52 by omega)
    have hpow : 2 ^ d ≤ 2 ^ 11 := Nat.pow_le_pow_right (by decide) (by omega)
    have hfit : m.toNat * 2 ^ d < 2 ^ 64 := by
      calc m.toNat * 2 ^ d < 2 ^ 53 * 2 ^ d := Nat.mul_lt_mul_of_pos_right hm (Nat.two_pow_pos d)
        _ ≤ 2 ^ 53 * 2 ^ 11 := Nat.mul_le_mul_left _ hpow
    have hcast : (m.toNat : ℚ) * 2 ^ (d : ℤ) = ((m.toNat * 2 ^ d : ℕ) : ℚ) := by
      rw [zpow_natCast]
      push_cast
      rfl
    rw [if_pos hlarge, hd, Int.toNat_natCast, toNat_shiftLeft_of_lt hfit, hcast,
      Int.floor_natCast]
  · obtain ⟨d, hd⟩ := Int.eq_ofNat_of_zero_le (show 0 ≤ 52 - e by omega)
    have hcast : (m.toNat : ℚ) * 2 ^ (e - 52) = (m.toNat : ℚ) / ((2 ^ d : ℕ) : ℚ) := by
      rw [show e - 52 = -(d : ℤ) by omega, zpow_neg, zpow_natCast]
      push_cast
      rfl
    rw [if_neg hlarge, hd, Int.toNat_natCast, toNat_shiftRight, hcast,
      Rat.floor_natCast_div_natCast]
    push_cast
    rfl

/-- A word that holds an integer of the type modulo 2^64 is that integer. -/
theorem intValue_of_representable {isUnsigned neg : Bool} {r : ULong}
    (h : Representable isUnsigned (if neg then -(r.toNat : ℤ) else r.toNat)) :
    intValue isUnsigned (if neg then -r else r) = if neg then -(r.toNat : ℤ) else r.toNat := by
  have hlt : r.toNat < 2 ^ 64 := r.isLt
  have hneg : (-r).toNat = (2 ^ 64 - r.toNat) % 2 ^ 64 := BitVec.toNat_neg r
  have hint : r.toInt = if 2 * r.toNat < 2 ^ 64 then (r.toNat : ℤ) else r.toNat - 2 ^ 64 :=
    BitVec.toInt_eq_toNat_cond r
  have hint' : (-r).toInt =
      if 2 * (-r).toNat < 2 ^ 64 then ((-r).toNat : ℤ) else (-r).toNat - 2 ^ 64 :=
    BitVec.toInt_eq_toNat_cond (-r)
  cases isUnsigned <;> cases neg <;>
    simp only [Representable, intValue, Bool.false_eq_true, ↓reduceIte] at h ⊢
  · split_ifs at hint <;> omega
  · rw [hint', hneg]
    split_ifs <;> omega
  · omega

/-- Where the truncated value is an integer of the type, it is the result. -/
theorem sfToInt_truncates {a : ULong} {neg : Bool} {mag : ℚ}
    (hdecode : binary64.decode a.toNat = .finite neg mag) {isUnsigned : Bool}
    (hrep : Representable isUnsigned (truncate (signedRat neg mag))) :
    intValue isUnsigned (sfToInt a isUnsigned) = truncate (signedRat neg mag) := by
  rw [decode_eq] at hdecode
  have hnan : sfIsNan a = false := by
    by_contra h
    rw [Bool.not_eq_false] at h
    rw [if_pos h] at hdecode
    cases hdecode
  rw [hnan, if_neg Bool.false_ne_true] at hdecode
  obtain ⟨rfl, rfl⟩ : sfSign a = neg ∧ binary64.grid (a.toNat % 2 ^ 63) = mag := by
    split at hdecode
    · cases hdecode
    · exact ⟨(Datum.finite.inj hdecode).1, (Datum.finite.inj hdecode).2⟩
  have hnonneg := binary64.grid_nonneg (a.toNat % 2 ^ 63)
  rw [truncate_signedRat _ hnonneg] at hrep ⊢
  have hzero : intValue isUnsigned 0 = 0 := by cases isUnsigned <;> rfl
  unfold sfToInt
  simp only [hnan, Bool.false_eq_true, ↓reduceIte]
  by_cases hsmall : sfExp a < 1023
  · -- below one everything truncates to zero
    have hindex : a.toNat % 2 ^ 63 < 1023 * 2 ^ 52 := by
      rw [sfExp_eq] at hsmall
      have hfield : a.toNat / 2 ^ 52 % 2 ^ 11 < 1023 := by exact_mod_cast hsmall
      rw [mag_split]
      omega
    have hfloor : ⌊binary64.grid (a.toNat % 2 ^ 63)⌋ = 0 :=
      Int.floor_eq_zero_iff.mpr ⟨hnonneg, grid_lt_one hindex⟩
    have hresult : ∀ r : ULong, (if sfExp a = 0 then 0 else
        if sfExp a - 1023 < 0 then 0 else r) = 0 := by
      intro r
      rw [if_pos (show sfExp a - 1023 < 0 by omega), ite_self]
    rw [hresult, hzero, hfloor]
    simp
  · obtain ⟨hvalue, hge, hlt⟩ := grid_eq_scaled a (by omega)
    rw [if_neg (by omega), if_neg (by omega)]
    by_cases hlarge : sfExp a - 1023 > 63
    · -- two to the sixty-fourth and beyond is in neither type
      exfalso
      have hbig : (2 : ℚ) ^ 64 ≤ binary64.grid (a.toNat % 2 ^ 63) := by
        have hscale : (2 : ℚ) ^ (12 : ℤ) ≤ 2 ^ (sfExp a - 1023 - 52) :=
          zpow_le_zpow_right₀ (by norm_num) (by omega)
        have hmant : (2 : ℚ) ^ 52 ≤ (sfMant a ||| hidden).toNat := by exact_mod_cast hge
        calc (2 : ℚ) ^ 64 = 2 ^ 52 * 2 ^ (12 : ℤ) := by norm_num
          _ ≤ _ := mul_le_mul hmant hscale (by positivity) (by positivity)
          _ = _ := hvalue.symm
      have hfloor : (2 : ℤ) ^ 64 ≤ ⌊binary64.grid (a.toNat % 2 ^ 63)⌋ :=
        Int.le_floor.mpr (by exact_mod_cast hbig)
      unfold Representable at hrep
      split_ifs at hrep <;> omega
    · have hfloor := floor_scaled hlt (not_lt.mp hlarge)
      rw [← hvalue] at hfloor
      rw [if_neg hlarge]
      rw [← hfloor] at hrep ⊢
      exact intValue_of_representable hrep

/-- Up to `2 ^ 53` every integer is on the grid. -/
theorem exists_grid_eq {n : ℕ} (h : n ≤ 2 ^ 53) :
    ∃ b < binary64.infIndex, binary64.grid b = n := by
  rcases Nat.eq_zero_or_pos n with rfl | hpos
  · exact ⟨0, by norm_num [binary64_infIndex], by rw [binary64.grid_zero, Nat.cast_zero]⟩
  have hsize : n.size ≤ 54 := Nat.size_le.mpr (by omega)
  have hsize_pos := Nat.size_pos.mpr hpos
  have htop : 2 ^ (n.size - 1) ≤ n := Nat.lt_size.mp (Nat.sub_lt hsize_pos Nat.one_pos)
  have hlt := Nat.lt_size_self n
  obtain ⟨j, hj⟩ : ∃ j, j = 53 - n.size := ⟨_, rfl⟩
  have hle : n * 2 ^ j ≤ 2 ^ 53 := by
    rcases Nat.lt_or_ge 53 n.size with hlong | hshort
    · obtain rfl : j = 0 := by omega
      simpa using h
    · calc n * 2 ^ j ≤ 2 ^ n.size * 2 ^ j := Nat.mul_le_mul_right _ hlt.le
        _ = 2 ^ 53 := by rw [← pow_add, hj, Nat.add_sub_cancel' hshort]
  have hge : 2 ^ 52 ≤ n * 2 ^ j := by
    calc 2 ^ 52 ≤ 2 ^ (n.size - 1 + j) := Nat.pow_le_pow_right (by decide) (by omega)
      _ = 2 ^ (n.size - 1) * 2 ^ j := pow_add _ _ _
      _ ≤ n * 2 ^ j := Nat.mul_le_mul_right _ htop
  have hgrid := binary64.grid_pack (k := 1074 - j) (s := n * 2 ^ j) hle (Or.inr hge)
  refine ⟨_, ?_, hgrid.trans ?_⟩
  · rw [binary64_infIndex]
    change (1074 - j) * 2 ^ 52 + n * 2 ^ j < 2047 * 2 ^ 52
    omega
  · have hexp : binary64.minExp + ((1074 - j : ℕ) : ℤ) = -(j : ℤ) := by
      rw [binary64_minExp]
      omega
    rw [hexp, zpow_neg, zpow_natCast]
    push_cast
    exact mul_inv_cancel_right₀ (by positivity) _

theorem representable_intValue (isUnsigned : Bool) (v : ULong) :
    Representable isUnsigned (intValue isUnsigned v) := by
  cases isUnsigned with
  | true => exact ⟨Int.natCast_nonneg _, Int.ofNat_lt.mpr v.isLt⟩
  | false => exact ⟨BitVec.le_toInt v, BitVec.toInt_lt⟩

theorem intValue_injective (isUnsigned : Bool) : Function.Injective (intValue isUnsigned) := by
  intro v w h
  cases isUnsigned with
  | true => exact BitVec.eq_of_toNat_eq (Int.natCast_inj.mp h)
  | false => exact BitVec.eq_of_toInt_eq h

theorem truncate_intCast (t : ℤ) : truncate (t : ℚ) = t := by
  rw [truncate, Int.ceil_intCast, Int.floor_intCast, ite_self]

theorem signedRat_abs (t : ℤ) : signedRat (decide (t < 0)) |(t : ℚ)| = t := by
  unfold signedRat
  by_cases hneg : t < 0
  · rw [if_pos (decide_eq_true hneg), abs_of_neg (by exact_mod_cast hneg), neg_neg]
  · rw [if_neg (by simpa using hneg), abs_of_nonneg (by exact_mod_cast not_lt.mp hneg)]

theorem sfToInt_sfFromInt (v : ULong) (isUnsigned : Bool) (hv : |intValue isUnsigned v| ≤ 2 ^ 53) :
    sfToInt (sfFromInt v isUnsigned) isUnsigned = v := by
  have habs : |(intValue isUnsigned v : ℚ)| = (intValue isUnsigned v).natAbs := by
    rw [← Int.cast_abs, Int.abs_eq_natAbs, Int.cast_natCast]
  rw [Int.abs_eq_natAbs] at hv
  obtain ⟨b, hb, hgrid⟩ := exists_grid_eq (n := (intValue isUnsigned v).natAbs) (by omega)
  have hround := sfFromInt_rounds v isUnsigned
  rw [habs, ← hgrid] at hround
  have hpattern := hround.unique (roundsTo_grid hb.le _)
  have hdecode := binary64.decode_withSign (decide (intValue isUnsigned v < 0)) hb
  rw [← hpattern, hgrid, ← habs] at hdecode
  have htrunc : truncate (signedRat (decide (intValue isUnsigned v < 0))
      |(intValue isUnsigned v : ℚ)|) = intValue isUnsigned v := by
    rw [signedRat_abs, truncate_intCast]
  apply intValue_injective isUnsigned
  rw [sfToInt_truncates hdecode (by rw [htrunc]; exact representable_intValue _ _), htrunc]

/-- Into the format every 64-bit integer is rounded to nearest, ties to even; out of
it a value whose truncation is an integer of the type gives that integer; and up to
`2 ^ 53` the two are inverse to each other. -/
theorem sfFromInt_sfToInt_correct (isUnsigned : Bool) :
    (∀ v, binary64.RoundsTo (decide (intValue isUnsigned v < 0)) |(intValue isUnsigned v : ℚ)|
      (sfFromInt v isUnsigned).toNat) ∧
    (∀ a neg mag, binary64.decode a.toNat = .finite neg mag →
      Representable isUnsigned (truncate (signedRat neg mag)) →
      intValue isUnsigned (sfToInt a isUnsigned) = truncate (signedRat neg mag)) ∧
    (∀ v, |intValue isUnsigned v| ≤ 2 ^ 53 → sfToInt (sfFromInt v isUnsigned) isUnsigned = v) :=
  ⟨fun v => sfFromInt_rounds v isUnsigned, fun _ _ _ hdecode hrep => sfToInt_truncates hdecode hrep,
    fun v => sfToInt_sfFromInt v isUnsigned⟩

/-- The least integer of the exact range comes back. -/
theorem sfFromInt_sfToInt_least :
    sfToInt (sfFromInt 0xffe0000000000000 false) false = 0xffe0000000000000 :=
  (sfFromInt_sfToInt_correct false).2.2 0xffe0000000000000 (by decide)

end SoftFloat

end Veron
