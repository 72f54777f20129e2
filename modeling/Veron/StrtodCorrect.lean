/-
`strtod_bits` on decimal literals.  It takes exactly the longest literal, and
the result is the literal rounded to nearest, except that an exponent of seven
digits or more is read as its first six.
-/
import Veron.StrtodScan

namespace Veron

namespace Strtod

open BinaryFormat Bignum

section Literal

variable {lit : DecimalLiteral} {rest : List Char}

theorem hexPrefix_of_hexStart (sign : Option Bool) {p : List Char}
    (h : hexStart p = true) : HexPrefix (signText sign ++ p) := by
  unfold hexStart at h
  split at h
  · rename_i x c q
    rw [Bool.and_eq_true, Bool.or_eq_true, Bool.or_eq_true, Bool.and_eq_true, beq_iff_eq,
      beq_iff_eq, beq_iff_eq] at h
    obtain ⟨hx, hc | ⟨rfl, hq⟩⟩ := h
    · exact ⟨sign, x, c :: q, rfl, hx, Or.inl ⟨c, q, rfl, hc⟩⟩
    · cases q with
      | nil => exact Bool.noConfusion hq
      | cons d q => exact ⟨sign, x, '.' :: d :: q, rfl, hx, Or.inr ⟨d, q, rfl, hq⟩⟩
  · exact Bool.noConfusion h

/-- After its sign a literal starts with a digit or a point. -/
theorem body_head (lit : DecimalLiteral) (tail : List Char) :
    ∃ c p, lit.whole.map digitChar ++ (DecimalLiteral.fractionText lit.fraction ++ tail) =
        c :: p ∧ c ≠ '-' ∧ c ≠ '+' ∧ isSpace c = false := by
  have hsome := lit.some_digit
  cases hwhole : lit.whole with
  | cons d more =>
      obtain ⟨hminus, hplus, -, -, -, hspace⟩ := not_special_digitChar d
      exact ⟨_, _, rfl, hminus, hplus, hspace⟩
  | nil =>
      cases hfraction : lit.fraction with
      | none =>
          rw [hwhole, hfraction] at hsome
          exact absurd rfl hsome
      | some f => exact ⟨'.', _, rfl, by decide, by decide, by decide⟩

theorem dropWhile_isSpace (sign : Option Bool) {c : Char} (p : List Char)
    (hc : isSpace c = false) :
    (signText sign ++ c :: p).dropWhile isSpace = signText sign ++ c :: p := by
  rcases sign with - | (- | -)
  · exact List.dropWhile_cons_of_neg (by rw [hc]; exact Bool.false_ne_true)
  · rfl
  · rfl

/-- What stands behind the digits of the longest literal. -/
theorem tail_of_longest (h : LongestPrefix (lit.text ++ rest) lit) :
    (DecimalLiteral.exponentText lit.exponent ++ rest).head?.any isDigit = false ∧
      (lit.fraction = none →
        ∀ p, DecimalLiteral.exponentText lit.exponent ++ rest ≠ '.' :: p) ∧
      scanExp ['e', 'E'] (DecimalLiteral.exponentText lit.exponent ++ rest) =
        (if lit.expNeg then -(firstSix lit.expAbs : ℤ) else firstSix lit.expAbs, rest) := by
  have hdigit := h.head_not_digit
  unfold DecimalLiteral.expNeg DecimalLiteral.expAbs
  cases hexp : lit.exponent with
  | none =>
      refine ⟨hdigit, h.no_point hexp, ?_⟩
      have hzero : firstSix 0 = 0 := firstSix_of_lt (by decide)
      change scanExp ['e', 'E'] rest = _
      rw [scanExp_none (h.no_exponent hexp), hzero]
      rfl
  | some x =>
      refine ⟨?_, ?_, scanExp_text x hdigit⟩
      · change isDigit (if x.upper then 'E' else 'e') = false
        cases x.upper <;> decide
      · intro _ p hp
        have hhead : (if x.upper then 'E' else 'e') = '.' := (List.cons.inj hp).1
        revert hhead
        cases x.upper <;> decide

/-- On a literal the result is the literal rounded, with the first six digits of
its exponent in place of the exponent, and the end pointer is behind it. -/
theorem strtodBits_literal (h : LongestPrefix (lit.text ++ rest) lit) :
    ∃ r, strtodBits (lit.text ++ rest) = some (r, rest) ∧
      binary64.RoundsTo lit.neg (lit.magAt (firstSix lit.expAbs)) r.toNat := by
  obtain ⟨htail, hpoint, hexp⟩ := tail_of_longest h
  have htext : lit.text ++ rest = signText lit.sign ++ (lit.whole.map digitChar ++
      (DecimalLiteral.fractionText lit.fraction ++
        (DecimalLiteral.exponentText lit.exponent ++ rest))) := by
    simp only [DecimalLiteral.text, List.append_assoc]
  obtain ⟨st, hscan, hst⟩ := scanDigits_spec lit.whole lit.fraction htail hpoint
  obtain ⟨c, p, hbody, hminus, hplus, hspace⟩ :=
    body_head lit (DecimalLiteral.exponentText lit.exponent ++ rest)
  have hhex := h.not_hex
  rw [htext] at hhex ⊢
  rw [hbody] at hscan hhex ⊢
  have hnothex : hexStart (c :: p) = false := by
    by_contra hstart
    exact hhex (hexPrefix_of_hexStart lit.sign (Bool.not_eq_false _ ▸ hstart))
  have hsign : scanSign (signText lit.sign ++ c :: p) = (lit.neg, c :: p) :=
    scanSign_text lit.sign fun q =>
      ⟨fun heq => hminus (List.cons.inj heq).1, fun heq => hplus (List.cons.inj heq).1⟩
  have hseen : st.seen = true := hst.seen.mpr (by simpa using lit.some_digit)
  have hten : ∀ d ∈ lit.digits, d < 10 := by
    intro d hd
    obtain ⟨e, -, rfl⟩ := List.mem_map.mp hd
    exact e.isLt
  obtain ⟨r, hrun, hround⟩ := hst.decimalBits plainOps_sound lit.neg hten
    (if lit.expNeg then -(firstSix lit.expAbs : ℤ) else firstSix lit.expAbs)
  rw [decimalBitsWith_plain] at hrun
  refine ⟨r, ?_, hround⟩
  unfold strtodBits
  rw [dropWhile_isSpace lit.sign p hspace, hsign]
  simp only [hnothex, Bool.false_eq_true, ↓reduceIte, hscan, hseen, hexp, hrun,
    Option.bind_eq_bind, Option.bind_some]

end Literal

section Cap

variable {lit : DecimalLiteral}

/-- The cap on the exponent does no harm: it was not reached, there is nothing
to scale, or the six digits that are read already overflow or underflow. -/
def CapHarmless (lit : DecimalLiteral) : Prop :=
  lit.expAbs < 10 ^ 6 ∨ decimal lit.digits = 0 ∨
    (lit.expNeg = false ∧ 2 ^ 1024 - 2 ^ 970 ≤ lit.magAt (firstSix lit.expAbs)) ∨
    (lit.expNeg = true ∧ lit.magAt (firstSix lit.expAbs) ≤ 2 ^ (-1075 : ℤ))

theorem magAt_of_zero (h : decimal lit.digits = 0) (e : ℕ) : lit.magAt e = 0 := by
  rw [DecimalLiteral.magAt, h, Nat.cast_zero, zero_mul]

theorem magAt_mono (hneg : lit.expNeg = false) {e e' : ℕ} (h : e ≤ e') :
    lit.magAt e ≤ lit.magAt e' := by
  unfold DecimalLiteral.magAt
  rw [hneg]
  simp only [Bool.false_eq_true, ↓reduceIte]
  gcongr
  norm_num

theorem magAt_anti (hneg : lit.expNeg = true) {e e' : ℕ} (h : e ≤ e') :
    lit.magAt e' ≤ lit.magAt e := by
  unfold DecimalLiteral.magAt
  rw [hneg]
  simp only [↓reduceIte]
  gcongr
  norm_num

theorem length_digits_le (lit : DecimalLiteral) : lit.digits.length ≤ lit.text.length := by
  unfold DecimalLiteral.digits DecimalLiteral.text
  cases lit.fraction with
  | none =>
      simp [DecimalLiteral.fractionText]
      omega
  | some f =>
      simp [DecimalLiteral.fractionText]
      omega

theorem fractionLength_le (lit : DecimalLiteral) :
    lit.fractionLength ≤ lit.digits.length := by
  simp [DecimalLiteral.fractionLength, DecimalLiteral.digits]

theorem decimal_digits_lt (lit : DecimalLiteral) :
    decimal lit.digits < 10 ^ lit.digits.length := by
  apply decimal_lt
  intro d hd
  obtain ⟨e, -, rfl⟩ := List.mem_map.mp hd
  exact e.isLt

/-- An exponent the cap changes takes a nonzero literal of that length far out
of range. -/
theorem mag_out_of_range (hlen : lit.text.length < 100000)
    (hcap : 10 ^ 6 ≤ lit.expAbs) (hne : decimal lit.digits ≠ 0) :
    (lit.expNeg = false → 2 ^ 1024 - 2 ^ 970 ≤ lit.mag) ∧
      (lit.expNeg = true → lit.mag ≤ 2 ^ (-1075 : ℤ)) := by
  have hdigits := length_digits_le lit
  have hfraction := fractionLength_le lit
  unfold DecimalLiteral.mag DecimalLiteral.magAt
  constructor
  · intro hneg
    have hone : (1 : ℚ) ≤ decimal lit.digits := by
      exact_mod_cast Nat.pos_of_ne_zero hne
    have hbig := ten_zpow_ge (e := (lit.expAbs : ℤ) - lit.fractionLength) (by omega)
    have hhalf : (0 : ℚ) < 2 ^ 970 := by positivity
    have hmul := mul_le_mul_of_nonneg_right hone
      (show (0 : ℚ) ≤ 10 ^ ((lit.expAbs : ℤ) - lit.fractionLength) by positivity)
    rw [hneg]
    simp only [Bool.false_eq_true, ↓reduceIte]
    generalize (2 : ℚ) ^ 1024 = limit at hbig ⊢
    generalize (2 : ℚ) ^ 970 = half at hhalf ⊢
    linarith
  · intro hneg
    have hlt : (decimal lit.digits : ℚ) ≤ 10 ^ (lit.digits.length : ℤ) := by
      rw [zpow_natCast]
      exact_mod_cast (decimal_digits_lt lit).le
    rw [hneg]
    simp only [↓reduceIte]
    calc (decimal lit.digits : ℚ) * 10 ^ (-(lit.expAbs : ℤ) - lit.fractionLength)
        ≤ 10 ^ (lit.digits.length : ℤ) * 10 ^ (-(lit.expAbs : ℤ) - lit.fractionLength) := by
          gcongr
      _ = 10 ^ ((lit.digits.length : ℤ) + (-(lit.expAbs : ℤ) - lit.fractionLength)) := by
          rw [zpow_add₀ (by norm_num)]
      _ ≤ _ := ten_zpow_le (by omega)

/-- Every string below 100000 characters whose longest literal prefix is a
decimal literal gets that literal rounded to nearest, ties to even, and an end
pointer just past it, exactly when the exponent cap does no harm. -/
theorem strtodBits_correct_iff {s : List Char} (hs : LongestPrefix s lit)
    (hlen : s.length < 100000) :
    (∃ r, strtodBits s = some (r, s.drop lit.text.length) ∧
      binary64.RoundsTo lit.neg lit.mag r.toNat) ↔ CapHarmless lit := by
  obtain ⟨rest, rfl⟩ := hs.isPrefix
  obtain ⟨r, hrun, hround⟩ := strtodBits_literal hs
  rw [List.drop_left, hrun]
  have hiff : (∃ r', some (r, rest) = some (r', rest) ∧
      binary64.RoundsTo lit.neg lit.mag r'.toNat) ↔
        binary64.RoundsTo lit.neg lit.mag r.toNat := by
    constructor
    · rintro ⟨r', heq, hround'⟩
      obtain rfl : r = r' := (Prod.mk.inj (Option.some.inj heq)).1
      exact hround'
    · exact fun h => ⟨r, rfl, h⟩
  rw [hiff]
  have hle := firstSix_le lit.expAbs
  constructor
  · intro hexact
    by_contra hharm
    simp only [CapHarmless, not_or, not_and, not_lt] at hharm
    obtain ⟨hcap, hne, hpos, hneg⟩ := hharm
    have hshort : lit.text.length < 100000 := by
      rw [List.length_append] at hlen
      omega
    obtain ⟨hover, hunder⟩ := mag_out_of_range hshort hcap hne
    cases hsign : lit.expNeg with
    | false =>
        have hinf := (roundsTo_inf_iff lit.neg lit.mag).mpr (hover hsign)
        rw [hexact.unique hinf, roundsTo_inf_iff] at hround
        exact hpos hsign hround
    | true =>
        have hzero := (roundsTo_zero_iff lit.neg lit.mag).mpr (hunder hsign)
        rw [hexact.unique hzero, roundsTo_zero_iff] at hround
        exact hneg hsign hround
  · rintro (hsmall | hzero | ⟨hsign, hover⟩ | ⟨hsign, hunder⟩)
    · rw [firstSix_of_lt hsmall] at hround
      exact hround
    · rw [magAt_of_zero hzero] at hround
      rw [DecimalLiteral.mag, magAt_of_zero hzero]
      exact hround
    · have hinf := (roundsTo_inf_iff lit.neg _).mpr hover
      rw [hround.unique hinf, roundsTo_inf_iff]
      exact hover.trans (magAt_mono hsign hle)
    · have hzero := (roundsTo_zero_iff lit.neg _).mpr hunder
      rw [hround.unique hzero, roundsTo_zero_iff]
      exact (magAt_anti hsign hle).trans hunder

/-- `-12.5e-3`. -/
def smallLiteral : DecimalLiteral where
  sign := some true
  whole := [1, 2]
  fraction := some [5]
  exponent := some ⟨false, some true, [3], by decide⟩
  some_digit := by decide

theorem strtodBits_small :
    ∃ r, strtodBits "-12.5e-3".toList = some (r, []) ∧
      binary64.RoundsTo true (125 / 10000) r.toNat := by
  have hmag : smallLiteral.mag = 125 / 10000 := by
    have hdigits : decimal smallLiteral.digits = 125 := by decide
    have habs : smallLiteral.expAbs = 3 := by decide
    rw [DecimalLiteral.mag, DecimalLiteral.magAt, hdigits, habs]
    norm_num [smallLiteral, DecimalLiteral.expNeg, DecimalLiteral.fractionLength]
  obtain ⟨r, hrun, hround⟩ :=
    (strtodBits_correct_iff (DecimalLiteral.longestPrefix_text smallLiteral)
      (by decide)).mpr (Or.inl (by decide))
  rw [hmag] at hround
  exact ⟨r, hrun, hround⟩

/-- `0.000...01e1000000` with `n` zeros behind the point. -/
def zerosLiteral (n : ℕ) : DecimalLiteral where
  sign := none
  whole := [0]
  fraction := some (List.replicate n 0 ++ [1])
  exponent := some ⟨false, none, [1, 0, 0, 0, 0, 0, 0], by decide⟩
  some_digit := List.cons_ne_nil _ _

theorem length_zerosLiteral (n : ℕ) : (zerosLiteral n).text.length = n + 11 := by
  simp [zerosLiteral, DecimalLiteral.text, DecimalLiteral.fractionText,
    DecimalLiteral.exponentText, ExponentPart.text, signText]

theorem magAt_zerosLiteral (n e : ℕ) :
    (zerosLiteral n).magAt e = 10 ^ ((e : ℤ) - (n + 1 : ℕ)) := by
  have hdigits : (zerosLiteral n).digits = 0 :: (List.replicate n 0 ++ [1]) := by
    simp [zerosLiteral, DecimalLiteral.digits]
  have hzero : decimal (List.replicate n 0) = 0 := by
    rw [decimal_eq_zero_iff]
    exact fun d hd => List.eq_of_mem_replicate hd
  have hone : decimal (zerosLiteral n).digits = 1 := by
    rw [hdigits, decimal_cons, decimal_append, hzero]
    simp [decimal]
  have hlength : (zerosLiteral n).fractionLength = n + 1 := by
    simp [zerosLiteral, DecimalLiteral.fractionLength]
  have hneg : (zerosLiteral n).expNeg = false := rfl
  rw [DecimalLiteral.magAt, hone, hlength, hneg]
  simp

/-- 99988 zeros make a string of 99999 characters. -/
def manyZeros : DecimalLiteral := zerosLiteral 99988

/-- The exponent is read as 100000, which the zeros use up: the result is the
pattern of `10 ^ 11` where the literal is far beyond the largest finite value. -/
theorem manyZeros_wrong :
    LongestPrefix manyZeros.text manyZeros ∧ manyZeros.text.length < 100000 ∧
      strtodBits manyZeros.text = some (0x42374876e8000000, []) ∧
      ¬ ∃ r, strtodBits manyZeros.text =
          some (r, manyZeros.text.drop manyZeros.text.length) ∧
        binary64.RoundsTo manyZeros.neg manyZeros.mag r.toNat := by
  have hlongest := DecimalLiteral.longestPrefix_text manyZeros
  have hlen : manyZeros.text.length < 100000 := by
    rw [manyZeros, length_zerosLiteral]
    decide
  have hmag := magAt_zerosLiteral 99988
  have habs : manyZeros.expAbs = 1000000 := by decide
  have hwhole : LongestPrefix (manyZeros.text ++ []) manyZeros := by
    rw [List.append_nil]
    exact hlongest
  obtain ⟨r, hrun, hround⟩ := strtodBits_literal hwhole
  rw [List.append_nil] at hrun
  rw [habs, firstSix_million, manyZeros, hmag] at hround
  have hgrid : binary64.grid (1058 * 2 ^ binary64.trail + 6553600000000000) =
      10 ^ (((100000 : ℕ) : ℤ) - (99988 + 1 : ℕ)) := by
    rw [binary64.grid_pack (by norm_num [binary64]) (Or.inr (by norm_num [binary64])),
      binary64_minExp]
    norm_num
  have hexact := roundsTo_grid (b := 1058 * 2 ^ binary64.trail + 6553600000000000)
    (by norm_num [binary64, infIndex]) false
  rw [hgrid] at hexact
  have hr : r = 0x42374876e8000000 := BitVec.eq_of_toNat_eq (hround.unique hexact)
  have hinf : binary64.RoundsTo false manyZeros.mag
      (binary64.withSign false binary64.infIndex) := by
    have hbig := ten_zpow_ge (e := ((1000000 : ℕ) : ℤ) - (99988 + 1 : ℕ)) (by norm_num)
    have hhalf : (0 : ℚ) < 2 ^ 970 := by positivity
    rw [roundsTo_inf_iff, DecimalLiteral.mag, habs, manyZeros, hmag]
    generalize (2 : ℚ) ^ 1024 = limit at hbig ⊢
    generalize (2 : ℚ) ^ 970 = half at hhalf ⊢
    linarith
  refine ⟨hlongest, hlen, hr ▸ hrun, ?_⟩
  rintro ⟨r', hrun', hround'⟩
  rw [hrun, Option.some.injEq, Prod.mk.injEq] at hrun'
  rw [← hrun'.1, hr] at hround'
  have hbits := hround'.unique hinf
  rw [binary64_infIndex] at hbits
  exact absurd hbits (by decide)

end Cap

end Strtod

end Veron
