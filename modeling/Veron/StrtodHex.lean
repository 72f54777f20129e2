/-
`strtod_bits` on hexadecimal literals.  The 64-bit significand saturates and the
digits that no longer fit go into the exponent and the sticky flag, so the
result is the literal rounded to nearest, except that an exponent of seven
digits or more is read as its first six.
-/
import Veron.HexLiteral
import Veron.StrtodCorrect

namespace Veron

namespace Strtod

open BinaryFormat

section Scan

/-- `st` holds the number `v`, whose unit is `2 ^ e`: its leading bits, and in the
sticky flag whether the `g` bits below them are lost.  Bits are lost only when the
significand is full. -/
def HexScanned (v : ℕ) (e : ℤ) (st : HexScan) : Prop :=
  ∃ g : ℕ, st.bexp = g + e ∧ st.m.toNat = v / 2 ^ g ∧
    st.sticky = decide (v % 2 ^ g ≠ 0) ∧ (g = 0 ∨ 2 ^ 60 ≤ st.m.toNat)

theorem HexScanned.start : HexScanned 0 0 ⟨0, 0, false⟩ :=
  ⟨0, rfl, rfl, rfl, Or.inl rfl⟩

theorem shift_digit_toNat {m : ULong} (hm : m.toNat < 2 ^ 60) {d : ℕ} (hd : d < 16) :
    ((m <<< 4) ||| BitVec.ofNat 64 d).toNat = m.toNat * 16 + d := by
  rw [BitVec.toNat_or, toNat_shiftLeft_of_lt (by omega), BitVec.toNat_ofNat,
    Nat.mod_eq_of_lt (by omega), Nat.mul_comm m.toNat,
    ← Nat.two_pow_add_eq_or_of_lt (by omega)]
  ring

/-- One more digit, kept or dropped. -/
theorem HexScanned.digit {v : ℕ} {e : ℤ} {st : HexScan} (h : HexScanned v e st) {d : ℕ}
    (hd : d < 16) (kept : ℤ) :
    HexScanned (v * 16 + d) (e + kept)
      (if st.m < 0x1000000000000000 then
          ⟨(st.m <<< 4) ||| BitVec.ofNat 64 d, st.bexp + kept, st.sticky⟩
        else ⟨st.m, st.bexp + (kept + 4), st.sticky || d != 0⟩) := by
  obtain ⟨g, hexp, hm, hsticky, hfull⟩ := h
  have hroom : st.m < 0x1000000000000000 ↔ st.m.toNat < 2 ^ 60 := Iff.rfl
  by_cases hlt : st.m.toNat < 2 ^ 60
  · obtain rfl : g = 0 := hfull.resolve_right (Nat.not_le.mpr hlt)
    rw [if_pos (hroom.mpr hlt)]
    rw [pow_zero, Nat.div_one] at hm
    refine ⟨0, ?_, ?_, ?_, Or.inl rfl⟩
    · change st.bexp + kept = _
      rw [hexp]
      ring
    · rw [shift_digit_toNat hlt hd, hm, pow_zero, Nat.div_one]
    · rw [hsticky, pow_zero, Nat.mod_one, Nat.mod_one]
  · have hsplit : v * 16 + d = 2 ^ 4 * v + d := by ring
    rw [if_neg (mt hroom.mp hlt)]
    refine ⟨g + 4, ?_, ?_, ?_, Or.inr (Nat.not_lt.mp hlt)⟩
    · change st.bexp + (kept + 4) = _
      rw [hexp]
      push_cast
      ring
    · rw [hm, hsplit, Nat.add_comm g, pow_add, ← Nat.div_div_eq_div_mul]
      congr 1
      omega
    · rw [hsticky, Nat.add_comm g, pow_add, Nat.mod_mul, hsplit, Nat.mul_add_mod,
        Nat.mod_eq_of_lt (show d < 2 ^ 4 by omega),
        show (2 ^ 4 * v + d) / 2 ^ 4 = v by omega, Bool.eq_iff_iff, Bool.or_eq_true,
        decide_eq_true_iff, bne_iff_ne, decide_eq_true_iff]
      omega

theorem hexLoop_spec (kept : ℤ) (more : List HexDigit) {tail : List Char}
    (htail : tail.head?.any ishex = false) {v : ℕ} {e : ℤ} {st : HexScan}
    (h : HexScanned v e st) :
    ∃ st', hexLoop kept (kept + 4) (more.map HexDigit.char ++ tail) st = (st', tail) ∧
      HexScanned (v * 16 ^ more.length + numeral 16 (more.map fun d => d.value.val))
        (e + kept * more.length) st' := by
  induction more generalizing v e st with
  | nil =>
      refine ⟨st, ?_, by simpa [numeral] using h⟩
      cases tail with
      | nil => rfl
      | cons c tail =>
          have hc : ishex c = false := htail
          rw [List.map_nil, List.nil_append, hexLoop, hc, if_neg Bool.false_ne_true]
  | cons d more ih =>
      obtain ⟨st', hrun, hst'⟩ := ih (h.digit d.value.isLt kept)
      have hvalue : (v * 16 + d.value) * 16 ^ more.length +
          numeral 16 (more.map fun d => d.value.val) =
          v * 16 ^ (d :: more).length +
            numeral 16 ((d :: more).map fun d => d.value.val) := by
        rw [List.map_cons, numeral_cons, List.length_cons, List.length_map]
        ring
      have hexp : e + kept + kept * more.length = e + kept * (d :: more).length := by
        rw [List.length_cons]
        push_cast
        ring
      rw [hvalue, hexp] at hst'
      refine ⟨st', ?_, hst'⟩
      rw [List.map_cons, List.cons_append, hexLoop, ishex_char, if_pos rfl, hexval_char, ← hrun]
      split_ifs <;> rfl

/-- The digits before and after the point. -/
theorem hexScan_spec (whole : List HexDigit) (fraction : Option (List HexDigit))
    {tail : List Char} (htail : tail.head?.any ishex = false)
    (hpoint : fraction = none → ∀ p, tail ≠ '.' :: p) :
    ∃ st₁ p st, hexLoop 0 4 (whole.map HexDigit.char ++
        (HexLiteral.fractionText fraction ++ tail)) ⟨0, 0, false⟩ = (st₁, p) ∧
      hexFraction st₁ p = (st, tail) ∧
      HexScanned (numeral 16 ((whole ++ fraction.getD []).map fun d => d.value.val))
        (-4 * (fraction.getD []).length) st := by
  cases fraction with
  | none =>
      obtain ⟨st, hrun, hst⟩ := hexLoop_spec 0 whole htail HexScanned.start
      refine ⟨st, tail, st, hrun, ?_, by simpa using hst⟩
      unfold hexFraction
      split
      · exact absurd rfl (hpoint rfl _)
      · rfl
  | some f =>
      have hdot : ('.' :: (f.map HexDigit.char ++ tail)).head?.any ishex = false := rfl
      obtain ⟨st₁, hrun, hst₁⟩ := hexLoop_spec 0 whole hdot HexScanned.start
      obtain ⟨st, hrun', hst⟩ := hexLoop_spec (-4) f htail hst₁
      refine ⟨st₁, _, st, hrun, hrun', ?_⟩
      rw [Option.getD_some, List.map_append, numeral_append, List.length_map]
      simpa using hst

end Scan

section Value

theorem bitLength_bounds {m : ULong} (hm : m ≠ 0) :
    0 < bitLength m ∧ bitLength m ≤ 64 ∧ 2 ^ (bitLength m - 1) ≤ m.toNat ∧
      m.toNat < 2 ^ bitLength m := by
  have hpos := toNat_ne_zero hm
  have hsize : 0 < m.toNat.size := Nat.size_pos.mpr (Nat.pos_of_ne_zero hpos)
  rw [bitLength_eq_size]
  exact ⟨hsize, Nat.size_le.mpr m.isLt, Nat.lt_size.mp (by omega), Nat.lt_size_self _⟩

/-- The end of the hexadecimal branch, from the scanned digits on. -/
def hexAssemble (neg : Bool) (st : HexScan) (bexp : ℤ) : ULong :=
  if st.m = 0 then withNeg neg 0
  else
    let b := bitLength st.m
    if b > 54 then
      let drop := b - 54
      let lost := st.m &&& (((1 : ULong) <<< drop) - 1)
      assemble neg (st.m >>> drop) (st.sticky || lost != 0) (bexp + drop + 53)
    else assemble neg (st.m <<< (54 - b)) st.sticky (bexp - (54 - b : ℕ) + 53)

/-- Normalising to 54 bits keeps the value, and what falls off is in the sticky flag. -/
theorem hexAssemble_rounds (neg : Bool) {v : ℕ} {e : ℤ} {st : HexScan}
    (h : HexScanned v e st) (en : ℤ) :
    binary64.RoundsTo neg (v * 2 ^ (e + en)) (hexAssemble neg st (st.bexp + en)).toNat := by
  obtain ⟨g, hexp, hm, hsticky, hfull⟩ := h
  have htwo : (2 : ℚ) ≠ 0 := by norm_num
  unfold hexAssemble
  by_cases hzero : st.m = 0
  · have hnone : st.m.toNat = 0 := by rw [hzero]; rfl
    obtain rfl : g = 0 := hfull.resolve_right (by omega)
    have hv : v = 0 := by
      rw [hnone, pow_zero, Nat.div_one] at hm
      exact hm.symm
    have hword : (withNeg neg 0).toNat = binary64.withSign neg 0 := by
      cases neg <;> rfl
    rw [if_pos hzero, hword, hv, Nat.cast_zero, zero_mul, roundsTo_zero_iff]
    positivity
  obtain ⟨hpos, hle, hlow, hhigh⟩ := bitLength_bounds hzero
  rw [if_neg hzero]
  dsimp only
  generalize bitLength st.m = b at hpos hle hlow hhigh
  have hcut : Cut st.m.toNat st.sticky ((v : ℚ) / 2 ^ g) := by
    have hdiv := Cut.of_div (K := ℚ) (Nat.div_add_mod' v (2 ^ g)) (Nat.mod_lt _ (Nat.two_pow_pos g))
    rw [← hm, ← hsticky] at hdiv
    push_cast at hdiv
    exact hdiv
  by_cases hlong : b > 54
  · obtain ⟨d, rfl⟩ := Nat.exists_eq_add_of_lt hlong
    have hdrop : 54 + d + 1 - 54 = d + 1 := by omega
    have hlost : (st.m &&& ((1 : ULong) <<< (d + 1) - 1) != 0) =
        decide (st.m.toNat % 2 ^ (d + 1) ≠ 0) := by
      rw [Bool.eq_iff_iff, bne_iff_ne, decide_eq_true_eq, ne_eq, ← BitVec.toNat_inj,
        low_bits_toNat st.m (by omega)]
      rfl
    have hshift := toNat_shiftRight st.m (d + 1)
    have hpow : 2 ^ (54 + d + 1 - 1) = 2 ^ 53 * 2 ^ (d + 1) := by
      rw [← pow_add]
      congr 1
      omega
    have hpow' : 2 ^ (54 + d + 1) = 2 ^ (d + 1) * 2 ^ 54 := by
      rw [← pow_add]
      congr 1
      omega
    rw [hpow] at hlow
    rw [hpow'] at hhigh
    have hge : 2 ^ 53 ≤ (st.m >>> (d + 1)).toNat := by
      rw [hshift]
      exact (Nat.le_div_iff_mul_le (Nat.two_pow_pos _)).mpr hlow
    have hlt : (st.m >>> (d + 1)).toNat < 2 ^ 54 := by
      rw [hshift]
      exact Nat.div_lt_of_lt_mul hhigh
    have hshifted := hcut.shift (d + 1)
    rw [← hshift, ← hlost] at hshifted
    have hround := assemble_rounds neg (st.bexp + en + ((d + 1 : ℕ) : ℤ) + 53) hge hlt hshifted
    have hvalue : (v : ℚ) / 2 ^ g / 2 ^ (d + 1) *
        2 ^ (st.bexp + en + ((d + 1 : ℕ) : ℤ) + 53 - 53) = v * 2 ^ (e + en) := by
      rw [hexp, show (g : ℤ) + e + en + ((d + 1 : ℕ) : ℤ) + 53 - 53 =
        (g : ℤ) + ((d + 1 : ℕ) : ℤ) + (e + en) by ring, zpow_add₀ htwo (g + ((d + 1 : ℕ) : ℤ)),
        zpow_add₀ htwo, zpow_natCast, zpow_natCast]
      field_simp
    rw [hvalue] at hround
    rw [if_pos hlong, hdrop]
    exact hround
  · -- a short significand is exact
    obtain rfl : g = 0 := by
      apply hfull.resolve_right
      have hmono : 2 ^ b ≤ 2 ^ 54 := Nat.pow_le_pow_right (by decide) (Nat.not_lt.mp hlong)
      omega
    obtain ⟨d, hd⟩ := Nat.exists_eq_add_of_le (Nat.not_lt.mp hlong)
    have hroom : st.m.toNat * 2 ^ d < 2 ^ 54 := by
      rw [hd, pow_add]
      exact Nat.mul_lt_mul_of_pos_right hhigh (Nat.two_pow_pos d)
    have hshift : (st.m <<< d).toNat = st.m.toNat * 2 ^ d :=
      toNat_shiftLeft_of_lt (hroom.trans (by decide))
    have hge : 2 ^ 53 ≤ (st.m <<< d).toNat := by
      rw [hshift, show 53 = b - 1 + d by omega, pow_add]
      exact Nat.mul_le_mul_right _ hlow
    have hexact : st.sticky = false := by
      rw [hsticky, pow_zero, Nat.mod_one]
      rfl
    have hround := assemble_rounds neg (st.bexp + en - (d : ℕ) + 53) hge
      (by rw [hshift]; exact hroom)
      (Cut.natCast (K := ℚ) (st.m <<< d).toNat)
    have hvalue : ((st.m <<< d).toNat : ℚ) * 2 ^ (st.bexp + en - (d : ℕ) + 53 - 53) =
        v * 2 ^ (e + en) := by
      rw [hshift, hm, hexp, pow_zero, Nat.div_one, show ((0 : ℕ) : ℤ) + e + en - (d : ℕ) + 53 - 53 =
        e + en - (d : ℕ) by push_cast; ring, zpow_sub₀ htwo, zpow_natCast]
      push_cast
      field_simp
    rw [hvalue] at hround
    rw [if_neg hlong, show 54 - b = d by omega, hexact]
    exact hround

end Value

section Literal

variable (lit : HexLiteral)

theorem hexStart_text (x : Char) (hx : x = 'x' ∨ x = 'X') :
    hexStart ('0' :: x :: lit.body) = true := by
  have hmark : (x == 'x' || x == 'X') = true := by
    rcases hx with rfl | rfl <;> rfl
  have hsome := lit.some_digit
  rw [HexLiteral.body]
  cases hwhole : lit.whole with
  | cons d more =>
      rw [List.map_cons, List.cons_append, hexStart, hmark, ishex_char]
      rfl
  | nil =>
      cases hfraction : lit.fraction with
      | none =>
          rw [hwhole, hfraction] at hsome
          exact absurd rfl hsome
      | some f =>
          rw [hwhole, hfraction] at hsome
          cases f with
          | nil => exact absurd rfl hsome
          | cons d more =>
              change ((x == 'x' || x == 'X') && (ishex '.' || ('.' == '.' && ishex d.char))) = true
              rw [hmark, ishex_char]
              rfl

/-- The exponent part is read up to its end, its value up to the cap. -/
theorem scanExp_hex :
    scanExp ['p', 'P'] (HexLiteral.exponentText lit.exponent) =
      (if lit.expNeg then -(firstSix lit.expAbs : ℤ) else firstSix lit.expAbs, []) := by
  unfold HexLiteral.expNeg HexLiteral.expAbs
  cases lit.exponent with
  | none =>
      have hzero : firstSix 0 = 0 := firstSix_of_lt (by decide)
      change (0, []) = ((if false then _ else (firstSix 0 : ℤ)), [])
      rw [hzero]
      rfl
  | some x =>
      have hmark : (if x.upper then 'P' else 'p') ∈ ['p', 'P'] := by
        cases x.upper <;> decide
      have hscan := scanExp_digits hmark x.sign x.digits_ne
        (show ([] : List Char).head?.any isDigit = false from rfl)
      rw [List.append_nil] at hscan
      exact hscan

/-- On a literal the result is the literal rounded, with the first six digits of its
exponent in place of the exponent, and the end pointer is behind it. -/
theorem strtodBits_hexLiteral :
    ∃ r, strtodBits lit.text = some (r, []) ∧
      binary64.RoundsTo lit.neg (lit.magAt (firstSix lit.expAbs)) r.toNat := by
  have htail : (HexLiteral.exponentText lit.exponent).head?.any ishex = false := by
    cases lit.exponent with
    | none => rfl
    | some x =>
        change ishex (if x.upper then 'P' else 'p') = false
        cases x.upper <;> decide
  have hpoint : ∀ p, HexLiteral.exponentText lit.exponent ≠ '.' :: p := by
    intro p
    cases lit.exponent with
    | none => exact (List.cons_ne_nil _ _).symm
    | some x =>
        intro h
        have hhead : (if x.upper then 'P' else 'p') = '.' := (List.cons.inj h).1
        revert hhead
        cases x.upper <;> decide
  obtain ⟨st₁, p, st, hwhole, hfraction, hst⟩ :=
    hexScan_spec lit.whole lit.fraction htail fun _ => hpoint
  have hround := hexAssemble_rounds lit.neg hst
    (if lit.expNeg then -(firstSix lit.expAbs : ℤ) else firstSix lit.expAbs)
  have hexp : (-4 * ((lit.fraction.getD []).length : ℤ) +
      if lit.expNeg then -(firstSix lit.expAbs : ℤ) else firstSix lit.expAbs) =
      (if lit.expNeg then -(firstSix lit.expAbs : ℤ) else firstSix lit.expAbs) -
        4 * lit.fractionLength := by
    rw [HexLiteral.fractionLength]
    ring
  rw [hexp] at hround
  refine ⟨_, ?_, hround⟩
  have hx : (if lit.upper then 'X' else 'x') = 'x' ∨ (if lit.upper then 'X' else 'x') = 'X' := by
    cases lit.upper
    · exact Or.inl rfl
    · exact Or.inr rfl
  have hsign : scanSign (lit.text.dropWhile isSpace) =
      (lit.neg, '0' :: (if lit.upper then 'X' else 'x') :: lit.body) := by
    rw [HexLiteral.text, dropWhile_isSpace lit.sign _ (by decide)]
    exact scanSign_text lit.sign fun q =>
      ⟨fun h => absurd (List.cons.inj h).1 (by decide),
        fun h => absurd (List.cons.inj h).1 (by decide)⟩
  have hbits : hexBits lit.neg lit.body = (hexAssemble lit.neg st (st.bexp +
      if lit.expNeg then -(firstSix lit.expAbs : ℤ) else firstSix lit.expAbs), []) := by
    rw [hexBits, HexLiteral.body, hwhole]
    simp only [hfraction, scanExp_hex]
    generalize (if lit.expNeg then -(firstSix lit.expAbs : ℤ) else firstSix lit.expAbs) = en
    unfold hexAssemble
    by_cases hm : st.m = 0
    · simp only [hm, ↓reduceIte]
    · by_cases hb : bitLength st.m > 54
      · simp only [hm, hb, ↓reduceIte]
      · simp only [hm, hb, ↓reduceIte]
  rw [strtodBits, hsign]
  simp only [hexStart_text lit _ hx, ↓reduceIte, List.drop_succ_cons, List.drop_zero, hbits]

end Literal

section Cap

variable {lit : HexLiteral}

/-- The cap on the exponent does no harm: it was not reached, there is nothing
to scale, or the six digits that are read already overflow or underflow. -/
def HexCapHarmless (lit : HexLiteral) : Prop :=
  lit.expAbs < 10 ^ 6 ∨ numeral 16 lit.digits = 0 ∨
    (lit.expNeg = false ∧ 2 ^ 1024 - 2 ^ 970 ≤ lit.magAt (firstSix lit.expAbs)) ∨
    (lit.expNeg = true ∧ lit.magAt (firstSix lit.expAbs) ≤ 2 ^ (-1075 : ℤ))

theorem hexMagAt_mono (hneg : lit.expNeg = false) {e e' : ℕ} (h : e ≤ e') :
    lit.magAt e ≤ lit.magAt e' := by
  unfold HexLiteral.magAt
  rw [hneg]
  simp only [Bool.false_eq_true, ↓reduceIte]
  gcongr
  norm_num

theorem hexMagAt_anti (hneg : lit.expNeg = true) {e e' : ℕ} (h : e ≤ e') :
    lit.magAt e' ≤ lit.magAt e := by
  unfold HexLiteral.magAt
  rw [hneg]
  simp only [↓reduceIte]
  gcongr
  norm_num

/-- An exponent the cap changes takes a nonzero literal of that length far out
of range. -/
theorem hexMag_out_of_range (hlen : lit.text.length < 25000) (hcap : 10 ^ 6 ≤ lit.expAbs)
    (hne : numeral 16 lit.digits ≠ 0) :
    (lit.expNeg = false → 2 ^ 1024 - 2 ^ 970 ≤ lit.mag) ∧
      (lit.expNeg = true → lit.mag ≤ 2 ^ (-1075 : ℤ)) := by
  have hdigits := lit.length_digits_le
  have hfraction := lit.fractionLength_le
  have hlt := numeral_lt lit.digits_lt
  unfold HexLiteral.mag HexLiteral.magAt
  constructor
  · intro hneg
    have hone : (1 : ℚ) ≤ numeral 16 lit.digits := by
      exact_mod_cast Nat.pos_of_ne_zero hne
    have hbig : (2 : ℚ) ^ (1024 : ℤ) ≤ 2 ^ ((lit.expAbs : ℤ) - 4 * lit.fractionLength) :=
      zpow_le_zpow_right₀ (by norm_num) (by omega)
    have hhalf : (0 : ℚ) < 2 ^ 970 := by positivity
    have hmul := mul_le_mul_of_nonneg_right hone
      (show (0 : ℚ) ≤ 2 ^ ((lit.expAbs : ℤ) - 4 * lit.fractionLength) by positivity)
    rw [show ((1024 : ℤ)) = ((1024 : ℕ) : ℤ) from rfl, zpow_natCast] at hbig
    rw [hneg]
    simp only [Bool.false_eq_true, ↓reduceIte]
    generalize (2 : ℚ) ^ 1024 = limit at hbig ⊢
    generalize (2 : ℚ) ^ 970 = half at hhalf ⊢
    linarith
  · intro hneg
    have hle : (numeral 16 lit.digits : ℚ) ≤ 2 ^ ((4 * lit.digits.length : ℕ) : ℤ) := by
      rw [zpow_natCast, pow_mul]
      exact_mod_cast hlt.le
    rw [hneg]
    simp only [↓reduceIte]
    calc (numeral 16 lit.digits : ℚ) * 2 ^ (-(lit.expAbs : ℤ) - 4 * lit.fractionLength)
        ≤ 2 ^ ((4 * lit.digits.length : ℕ) : ℤ) *
            2 ^ (-(lit.expAbs : ℤ) - 4 * lit.fractionLength) := by
          gcongr
      _ = 2 ^ (((4 * lit.digits.length : ℕ) : ℤ) +
            (-(lit.expAbs : ℤ) - 4 * lit.fractionLength)) := by
          rw [zpow_add₀ (by norm_num)]
      _ ≤ _ := zpow_le_zpow_right₀ (by norm_num) (by omega)

/-- Every string below 25000 characters that is a hexadecimal literal gets that literal
rounded to nearest, ties to even, and an end pointer just past it, exactly when the
exponent cap does no harm. -/
theorem strtodBits_hex_correct_iff (hlen : lit.text.length < 25000) :
    (∃ r, strtodBits lit.text = some (r, []) ∧
      binary64.RoundsTo lit.neg lit.mag r.toNat) ↔ HexCapHarmless lit := by
  obtain ⟨r, hrun, hround⟩ := strtodBits_hexLiteral lit
  have hiff : (∃ r', some (r, []) = some (r', ([] : List Char)) ∧
      binary64.RoundsTo lit.neg lit.mag r'.toNat) ↔
        binary64.RoundsTo lit.neg lit.mag r.toNat := by
    constructor
    · rintro ⟨r', heq, hround'⟩
      obtain rfl : r = r' := (Prod.mk.inj (Option.some.inj heq)).1
      exact hround'
    · exact fun h => ⟨r, rfl, h⟩
  rw [hrun, hiff]
  have hle := firstSix_le lit.expAbs
  constructor
  · intro hexact
    by_contra hharm
    simp only [HexCapHarmless, not_or, not_and, not_lt] at hharm
    obtain ⟨hcap, hne, hpos, hneg⟩ := hharm
    obtain ⟨hover, hunder⟩ := hexMag_out_of_range hlen hcap hne
    cases hsign : lit.expNeg with
    | false =>
        have hinf := (roundsTo_inf_iff lit.neg lit.mag).mpr (hover hsign)
        rw [hexact.unique hinf, roundsTo_inf_iff] at hround
        exact hpos hsign hround
    | true =>
        have hzero := (roundsTo_zero_iff lit.neg lit.mag).mpr (hunder hsign)
        rw [hexact.unique hzero, roundsTo_zero_iff] at hround
        exact hneg hsign hround
  · rintro (hsmall | hzero | ⟨hsign, hover⟩ | ⟨hsign, hunder⟩)
    · rw [firstSix_of_lt hsmall] at hround
      exact hround
    · rw [HexLiteral.magAt_of_zero hzero] at hround
      rw [HexLiteral.mag, HexLiteral.magAt_of_zero hzero]
      exact hround
    · have hinf := (roundsTo_inf_iff lit.neg _).mpr hover
      rw [hround.unique hinf, roundsTo_inf_iff]
      exact hover.trans (hexMagAt_mono hsign hle)
    · have hzero := (roundsTo_zero_iff lit.neg _).mpr hunder
      rw [hround.unique hzero, roundsTo_zero_iff]
      exact (hexMagAt_anti hsign hle).trans hunder

/-- `-0x1.8p-1`. -/
def smallHex : HexLiteral where
  sign := some true
  upper := false
  whole := [lastHexDigit 1]
  fraction := some [lastHexDigit 8]
  exponent := some ⟨false, some true, [lastDigit 1], by decide⟩
  some_digit := by decide

theorem strtodBits_smallHex :
    ∃ r, strtodBits "-0x1.8p-1".toList = some (r, []) ∧
      binary64.RoundsTo true (3 / 4) r.toNat := by
  have hmag : smallHex.mag = 3 / 4 := by
    have hdigits : numeral 16 smallHex.digits = 24 := by decide
    have habs : smallHex.expAbs = 1 := by decide
    rw [HexLiteral.mag, HexLiteral.magAt, hdigits, habs]
    norm_num [smallHex, HexLiteral.expNeg, HexLiteral.fractionLength]
  obtain ⟨r, hrun, hround⟩ :=
    (strtodBits_hex_correct_iff (show smallHex.text.length < 25000 by decide)).mpr
      (Or.inl (by decide))
  rw [hmag] at hround
  exact ⟨r, hrun, hround⟩

/-- `0x0.000...01p1000000` with `n` zeros behind the point. -/
def zerosHex (n : ℕ) : HexLiteral where
  sign := none
  upper := false
  whole := [lastHexDigit 0]
  fraction := some (List.replicate n (lastHexDigit 0) ++ [lastHexDigit 1])
  exponent := (zerosLiteral n).exponent
  some_digit := List.cons_ne_nil _ _

theorem length_zerosHex (n : ℕ) : (zerosHex n).text.length = n + 13 := by
  simp [zerosHex, zerosLiteral, HexLiteral.text, HexLiteral.body, HexLiteral.fractionText,
    HexLiteral.exponentText, signText]

theorem numeral_zerosHex (n : ℕ) : numeral 16 (zerosHex n).digits = 1 := by
  have hdigits : (zerosHex n).digits = 0 :: (List.replicate n 0 ++ [1]) := by
    simp [zerosHex, lastHexDigit, HexLiteral.digits]
  have hzero : numeral 16 (List.replicate n 0) = 0 := by
    rw [numeral_eq_zero_iff (by decide)]
    exact fun d hd => List.eq_of_mem_replicate hd
  rw [hdigits, numeral_cons, numeral_append, hzero]
  simp [numeral]

theorem magAt_zerosHex (n e : ℕ) :
    (zerosHex n).magAt e = 2 ^ ((e : ℤ) - 4 * (n + 1 : ℕ)) := by
  have hlength : (zerosHex n).fractionLength = n + 1 := by
    simp [zerosHex, HexLiteral.fractionLength]
  have hneg : (zerosHex n).expNeg = false := rfl
  rw [HexLiteral.magAt, numeral_zerosHex, hlength, hneg]
  simp

/-- 24986 zeros make a string of 24999 characters. -/
def manyHexZeros : HexLiteral := zerosHex 24986

/-- The exponent is read as 100000, which the zeros use up: the result is the
pattern of `2 ^ 52` where the literal is far beyond the largest finite value. -/
theorem manyHexZeros_wrong :
    manyHexZeros.text.length < 25000 ∧
      strtodBits manyHexZeros.text = some (0x4330000000000000, []) ∧
      ¬ ∃ r, strtodBits manyHexZeros.text = some (r, []) ∧
        binary64.RoundsTo manyHexZeros.neg manyHexZeros.mag r.toNat := by
  have hlen : manyHexZeros.text.length < 25000 := by
    rw [manyHexZeros, length_zerosHex]
    decide
  have hmag := magAt_zerosHex 24986
  have habs : manyHexZeros.expAbs = 1000000 := by decide
  obtain ⟨r, hrun, hround⟩ := strtodBits_hexLiteral manyHexZeros
  rw [habs, firstSix_million, manyHexZeros, hmag] at hround
  have hgrid : binary64.grid (1074 * 2 ^ binary64.trail + 2 ^ 52) =
      2 ^ (((100000 : ℕ) : ℤ) - 4 * (24986 + 1 : ℕ)) := by
    rw [binary64.grid_pack (by norm_num [binary64]) (Or.inr (by norm_num [binary64])),
      binary64_minExp]
    norm_num
  have hexact := roundsTo_grid (b := 1074 * 2 ^ binary64.trail + 2 ^ 52)
    (by norm_num [binary64, infIndex]) false
  rw [hgrid] at hexact
  have hr : r = 0x4330000000000000 := BitVec.eq_of_toNat_eq (hround.unique hexact)
  have hinf : binary64.RoundsTo false manyHexZeros.mag
      (binary64.withSign false binary64.infIndex) := by
    rw [roundsTo_inf_iff]
    exact (hexMag_out_of_range hlen (by rw [habs]; decide)
      (by rw [manyHexZeros, numeral_zerosHex]; decide)).1 rfl
  refine ⟨hlen, by rw [hrun, hr], ?_⟩
  rintro ⟨r', hrun', hround'⟩
  rw [hrun, Option.some.injEq, Prod.mk.injEq] at hrun'
  rw [← hrun'.1, hr] at hround'
  have hbits := hround'.unique hinf
  rw [binary64_infIndex] at hbits
  exact absurd hbits (by decide)

end Cap

end Strtod

end Veron
