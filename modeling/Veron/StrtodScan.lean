/-
Scanning.  The digit loops leave the first 800 significant digits in the buffer
with an exponent and a flag for what was dropped, and the exponent loop keeps
the first six digits of what it reads.
-/
import Mathlib.Data.Nat.Log
import Veron.StrtodDecimal

namespace Veron

namespace Strtod

open BinaryFormat Bignum

section Scan

/-- The digits from the first nonzero one on. -/
def significant (ds : List ℕ) : List ℕ := ds.dropWhile (· == 0)

/-- `st` is what scanning the digits `ds` leaves, `f` of them after the point. -/
structure Scanned (ds : List ℕ) (f : ℤ) (st : DecScan) : Prop where
  dig : st.dig = (significant ds).take ndigMax
  dexp : st.dexp = ((significant ds).drop ndigMax).length - f
  seen : st.seen = true ↔ ds ≠ []
  extra : st.extra = true ↔ ∃ d ∈ (significant ds).drop ndigMax, d ≠ 0

theorem significant_append (ds : List ℕ) {d : ℕ} (h : d ≠ 0 ∨ significant ds ≠ []) :
    significant (ds ++ [d]) = significant ds ++ [d] := by
  unfold significant at h ⊢
  rw [List.dropWhile_append]
  by_cases hnil : ds.dropWhile (· == 0) = []
  · have hd : d ≠ 0 := h.resolve_right (not_not.mpr hnil)
    simp [hnil, hd]
  · simp [hnil]

theorem significant_append_zero {ds : List ℕ} (h : significant ds = []) :
    significant (ds ++ [0]) = [] := by
  unfold significant at h ⊢
  rw [List.dropWhile_append, h]
  rfl

theorem Scanned.start : Scanned [] 0 ⟨[], 0, false, false⟩ := by
  refine ⟨rfl, rfl, ?_, ?_⟩ <;> simp [significant]

theorem Scanned.dig_eq_nil_iff {ds : List ℕ} {f : ℤ} {st : DecScan}
    (h : Scanned ds f st) : st.dig = [] ↔ significant ds = [] := by
  rw [h.dig, List.take_eq_nil_iff]
  constructor
  · rintro (h | h)
    · exact absurd h (by decide)
    · exact h
  · exact Or.inr

/-- A zero before the first significant digit only moves the exponent. -/
theorem Scanned.zero {ds : List ℕ} {f : ℤ} {st : DecScan} (h : Scanned ds f st)
    (hdig : st.dig = []) (shift : ℤ) :
    Scanned (ds ++ [0]) (f - shift)
      { st with seen := true, dexp := st.dexp + shift } := by
  have hnil := h.dig_eq_nil_iff.mp hdig
  have hnext := significant_append_zero hnil
  have hdexp := h.dexp
  have hextra := h.extra
  rw [hnil] at hdexp hextra
  refine ⟨?_, ?_, by simp, ?_⟩
  · rw [hnext]
    exact hdig
  · rw [hnext]
    change st.dexp + shift = _
    omega
  · rw [hnext]
    exact hextra

/-- A digit from the first significant one on is kept up to the cap. -/
theorem Scanned.digit {ds : List ℕ} {f : ℤ} {st : DecScan} (h : Scanned ds f st) {d : ℕ}
    (hd : d ≠ 0 ∨ st.dig ≠ []) (kept : ℤ) :
    Scanned (ds ++ [d]) (f - kept)
      (if st.dig.length < ndigMax then ⟨st.dig ++ [d], st.dexp + kept, true, st.extra⟩
        else ⟨st.dig, st.dexp + (kept + 1), true, st.extra || d != 0⟩) := by
  have hnext := significant_append ds (hd.imp_right fun hne => mt h.dig_eq_nil_iff.mpr hne)
  have hdexp := h.dexp
  have hextra := h.extra
  have hdig := h.dig
  by_cases hlen : (significant ds).length < ndigMax
  · have htake : (significant ds).take ndigMax = significant ds :=
      List.take_of_length_le hlen.le
    have hdrop : (significant ds).drop ndigMax = [] := List.drop_eq_nil_of_le hlen.le
    have hdrop' : (significant ds ++ [d]).drop ndigMax = [] :=
      List.drop_eq_nil_of_le (by simpa using Nat.succ_le_of_lt hlen)
    rw [htake] at hdig
    rw [hdrop] at hdexp hextra
    rw [hdig, if_pos hlen]
    refine ⟨?_, ?_, by simp, ?_⟩
    · rw [hnext, List.take_of_length_le (by simpa using Nat.succ_le_of_lt hlen)]
    · rw [hnext, hdrop']
      change st.dexp + kept = _
      simp only [List.length_nil, Nat.cast_zero, zero_sub] at hdexp ⊢
      omega
    · rw [hnext, hdrop']
      exact hextra
  · have hge : ndigMax ≤ (significant ds).length := Nat.le_of_not_lt hlen
    have hfull : ¬ st.dig.length < ndigMax := by
      rw [hdig, List.length_take, Nat.min_eq_left hge]
      exact lt_irrefl _
    rw [if_neg hfull]
    refine ⟨?_, ?_, by simp, ?_⟩
    · rw [hnext, List.take_append_of_le_length hge]
      exact hdig
    · rw [hnext, List.drop_append_of_le_length hge, List.length_append, List.length_singleton]
      change st.dexp + (kept + 1) = _
      push_cast
      omega
    · rw [hnext, List.drop_append_of_le_length hge]
      change (st.extra || d != 0) = true ↔ _
      rw [Bool.or_eq_true, hextra, bne_iff_ne]
      constructor
      · rintro (⟨e, he, hne⟩ | hne)
        · exact ⟨e, List.mem_append_left _ he, hne⟩
        · exact ⟨d, List.mem_append_right _ List.mem_cons_self, hne⟩
      · rintro ⟨e, he, hne⟩
        rcases List.mem_append.mp he with he | he
        · exact Or.inl ⟨e, he, hne⟩
        · rw [List.mem_singleton] at he
          exact Or.inr (he ▸ hne)

/-- One digit character does to the state what its digit does. -/
theorem digitLoop_cons (kept : ℤ) (d : Fin 10) (p : List Char) (st : DecScan) :
    digitLoop kept (kept + 1) (digitChar d :: p) st = digitLoop kept (kept + 1) p
      (if st.dig.length < ndigMax then
          ⟨st.dig ++ [(d : ℕ)], st.dexp + kept, true, st.extra⟩
        else ⟨st.dig, st.dexp + (kept + 1), true, st.extra || (d : ℕ) != 0⟩) := by
  have hzero : (digitChar d != '0') = ((d : ℕ) != 0) := by
    revert d
    decide
  rw [digitLoop, isDigit_digitChar, if_pos rfl, digitVal_digitChar, hzero]
  split_ifs <;> rfl

theorem digitLoop_stop (kept dropped : ℤ) {tail : List Char}
    (htail : tail.head?.any isDigit = false) (st : DecScan) :
    digitLoop kept dropped tail st = (st, tail) := by
  cases tail with
  | nil => rfl
  | cons c tail =>
      have hc : isDigit c = false := htail
      rw [digitLoop, hc, if_neg Bool.false_ne_true]

theorem sub_mul_length (k : ℤ) (d : Fin 10) (more : List (Fin 10)) {f : ℤ} :
    f - k - k * more.length = f - k * (d :: more).length := by
  rw [List.length_cons]
  push_cast
  ring

theorem digitLoop_spec (kept : ℤ) {tail : List Char}
    (htail : tail.head?.any isDigit = false) (more : List (Fin 10)) {ds : List ℕ} {f : ℤ}
    {st : DecScan} (h : Scanned ds f st) (hstart : (∀ d ∈ more.head?, d ≠ 0) ∨ st.dig ≠ []) :
    ∃ st', digitLoop kept (kept + 1) (more.map digitChar ++ tail) st = (st', tail) ∧
      Scanned (ds ++ more.map Fin.val) (f - kept * more.length) st' := by
  induction more generalizing ds f st with
  | nil => exact ⟨st, digitLoop_stop _ _ htail st, by simpa using h⟩
  | cons d more ih =>
      have hd : (d : ℕ) ≠ 0 ∨ st.dig ≠ [] :=
        hstart.imp_left fun hne hzero => hne d rfl (Fin.ext hzero)
      have hnext := h.digit hd kept
      rw [List.map_cons, List.cons_append, digitLoop_cons]
      obtain ⟨st', hrun, hst'⟩ := ih hnext (Or.inr (by
        by_cases hlen : st.dig.length < ndigMax
        · simp [hlen]
        · rw [if_neg hlen]
          intro hnil
          apply hlen
          change st.dig = [] at hnil
          rw [hnil]
          decide))
      rw [List.append_assoc, sub_mul_length kept d more] at hst'
      exact ⟨st', hrun, hst'⟩

/-- The two loops before the point, and the two after it when no significant
digit has been seen. -/
theorem zeroLoop_digitLoop (shift : ℤ) {tail : List Char}
    (htail : tail.head?.any isDigit = false) (more : List (Fin 10)) {ds : List ℕ} {f : ℤ}
    {st : DecScan} (h : Scanned ds f st) (hdig : st.dig = []) :
    ∃ st₁ p st', zeroLoop shift (more.map digitChar ++ tail) st = (st₁, p) ∧
      digitLoop shift (shift + 1) p st₁ = (st', tail) ∧
      Scanned (ds ++ more.map Fin.val) (f - shift * more.length) st' := by
  induction more generalizing ds f st with
  | nil =>
      refine ⟨st, tail, st, ?_, digitLoop_stop _ _ htail st, by simpa using h⟩
      cases tail with
      | nil => rfl
      | cons c tail =>
          have hc : c ≠ '0' := by
            rintro rfl
            exact Bool.noConfusion htail
          exact if_neg hc
  | cons d more ih =>
      by_cases hd : d = 0
      · subst hd
        obtain ⟨st₁, p, st', hzeros, hrun, hst'⟩ := ih (h.zero hdig shift) hdig
        rw [List.append_assoc, sub_mul_length shift 0 more] at hst'
        exact ⟨st₁, p, st', hzeros, hrun, hst'⟩
      · have hc : digitChar d ≠ '0' := mt (digitChar_eq_zero_iff d).mp hd
        obtain ⟨st', hrun, hst'⟩ := digitLoop_spec shift htail (d :: more) h
          (Or.inl fun e he => by
            obtain rfl : d = e := by simpa using he
            exact hd)
        exact ⟨st, _, st', if_neg hc, hrun, hst'⟩

/-- The scanner reads the digits of a literal and stops behind them. -/
theorem scanDigits_spec (whole : List (Fin 10)) (fraction : Option (List (Fin 10)))
    {tail : List Char} (htail : tail.head?.any isDigit = false)
    (hpoint : fraction = none → ∀ p, tail ≠ '.' :: p) :
    ∃ st, scanDigits (whole.map digitChar ++ (DecimalLiteral.fractionText fraction ++ tail)) =
        (st, tail) ∧
      Scanned ((whole ++ fraction.getD []).map Fin.val) (fraction.getD []).length st := by
  unfold scanDigits
  cases fraction with
  | none =>
      obtain ⟨st₁, p, st, hzeros, hrun, hst⟩ :=
        zeroLoop_digitLoop 0 htail whole Scanned.start rfl
      refine ⟨st, ?_, by simpa using hst⟩
      rw [zero_add] at hrun
      simp only [DecimalLiteral.fractionText, List.nil_append, hzeros, hrun]
      unfold scanFraction
      split
      · exact absurd rfl (hpoint rfl _)
      · rfl
  | some f =>
      obtain ⟨st₁, p, st₂, hzeros, hrun, hst₂⟩ :=
        zeroLoop_digitLoop 0
          (show ('.' :: (f.map digitChar ++ tail)).head?.any isDigit = false from rfl)
          whole Scanned.start rfl
      rw [zero_add] at hrun
      simp only [DecimalLiteral.fractionText, List.cons_append, hzeros, hrun]
      rw [scanFraction]
      have hf : ((0 : ℤ) - 0 * whole.length - -1 * f.length) = (f.length : ℤ) := by ring
      by_cases hdig : st₂.dig = []
      · obtain ⟨st₃, p', st, hzeros', hrun', hst⟩ :=
          zeroLoop_digitLoop (-1) htail f hst₂ hdig
        rw [hf] at hst
        simp only [hdig, List.length_nil, ↓reduceIte, hzeros']
        exact ⟨st, hrun', by simpa using hst⟩
      · obtain ⟨st, hrun', hst⟩ := digitLoop_spec (-1) htail f hst₂ (Or.inr hdig)
        rw [hf] at hst
        have hlen : ¬ st₂.dig.length = 0 := fun h => hdig (List.length_eq_zero_iff.mp h)
        simp only [hlen, ↓reduceIte]
        exact ⟨st, hrun', by simpa using hst⟩

end Scan

section Exponent

/-- The number the first six significant digits of `e` write. -/
def firstSix (e : ℕ) : ℕ := e / 10 ^ (Nat.log 10 e - 5)

theorem firstSix_of_lt {e : ℕ} (h : e < 10 ^ 6) : firstSix e = e := by
  have hlog : Nat.log 10 e ≤ 5 := by
    rcases Nat.eq_zero_or_pos e with rfl | hpos
    · simp
    · exact Nat.le_of_lt_succ (Nat.log_lt_of_lt_pow hpos.ne' h)
  rw [firstSix, Nat.sub_eq_zero_of_le hlog, pow_zero, Nat.div_one]

theorem firstSix_le (e : ℕ) : firstSix e ≤ e := Nat.div_le_self _ _

theorem le_firstSix {e : ℕ} (h : 10 ^ 5 ≤ e) : 10 ^ 5 ≤ firstSix e := by
  have hlog : 5 ≤ Nat.log 10 e := Nat.le_log_of_pow_le (by decide) h
  rw [firstSix, Nat.le_div_iff_mul_le (Nat.pow_pos (by decide)), ← pow_add,
    show 5 + (Nat.log 10 e - 5) = Nat.log 10 e by omega]
  exact Nat.pow_log_le_self 10 (by omega)

theorem firstSix_million : firstSix 1000000 = 100000 := by
  have hlog : Nat.log 10 1000000 = 6 := by
    rw [Nat.log_eq_iff (Or.inl (by decide))]
    decide
  rw [firstSix, hlog]
  rfl

/-- A digit after the sixth is not read. -/
theorem firstSix_snoc {e d : ℕ} (he : 10 ^ 5 ≤ e) (hd : d < 10) :
    firstSix (e * 10 + d) = firstSix e := by
  have hdiv : (e * 10 + d) / 10 = e := by omega
  have hlog := Nat.log_div_base 10 (e * 10 + d)
  rw [hdiv] at hlog
  have hlog5 : 5 ≤ Nat.log 10 e := Nat.le_log_of_pow_le (by decide) he
  unfold firstSix
  rw [show Nat.log 10 (e * 10 + d) - 5 = 1 + (Nat.log 10 e - 5) by omega, pow_add,
    pow_one, ← Nat.div_div_eq_div_mul, hdiv]

/-- The capped loop keeps the first six significant digits. -/
theorem expLoop_spec (more : List (Fin 10)) {rest : List Char}
    (hrest : rest.head?.any isDigit = false) (e : ℕ) :
    expLoop (more.map digitChar ++ rest) (firstSix e) =
      (firstSix (e * 10 ^ more.length + decimal (more.map Fin.val)), rest) := by
  induction more generalizing e with
  | nil =>
      have hstop : expLoop rest (firstSix e) = (firstSix e, rest) := by
        cases rest with
        | nil => rfl
        | cons c rest =>
            have hc : isDigit c = false := hrest
            rw [expLoop, hc, if_neg Bool.false_ne_true]
      simpa [decimal] using hstop
  | cons d more ih =>
      have hd : (d : ℕ) < 10 := d.isLt
      have hstep : (if firstSix e < 100000 then firstSix e * 10 + d else firstSix e) =
          firstSix (e * 10 + d) := by
        change (if firstSix e < 10 ^ 5 then _ else _) = _
        rcases Nat.lt_or_ge e (10 ^ 5) with hlow | hhigh
        · rw [firstSix_of_lt (e := e) (by omega), firstSix_of_lt (by omega), if_pos hlow]
        · rw [firstSix_snoc hhigh hd, if_neg (Nat.not_lt.mpr (le_firstSix hhigh))]
      rw [List.map_cons, List.cons_append, expLoop, isDigit_digitChar, if_pos rfl,
        digitVal_digitChar, hstep, ih]
      congr 2
      rw [List.map_cons, decimal_cons, List.length_cons, List.length_map, pow_succ]
      ring

theorem scanSign_text (sign : Option Bool) {p : List Char}
    (hp : ∀ q, p ≠ '-' :: q ∧ p ≠ '+' :: q) :
    scanSign (signText sign ++ p) = (sign.getD false, p) := by
  rcases sign with - | (- | -)
  · unfold scanSign
    split
    · exact absurd (by assumption) (hp _).1
    · exact absurd (by assumption) (hp _).2
    · rfl
  · rfl
  · rfl

theorem digits_no_sign {more : List (Fin 10)} (hmore : more ≠ []) (rest : List Char) :
    ∀ q, more.map digitChar ++ rest ≠ '-' :: q ∧ more.map digitChar ++ rest ≠ '+' :: q := by
  intro q
  cases more with
  | nil => exact absurd rfl hmore
  | cons d more =>
      obtain ⟨hminus, hplus, -⟩ := not_special_digitChar d
      exact ⟨fun h => hminus (List.cons.inj h).1, fun h => hplus (List.cons.inj h).1⟩

/-- What follows a mark is read in full, its value up to the cap. -/
theorem scanExp_digits {marks : List Char} {mark : Char} (hmark : mark ∈ marks)
    (sign : Option Bool) {digits : List (Fin 10)} (hdigits : digits ≠ []) {rest : List Char}
    (hrest : rest.head?.any isDigit = false) :
    scanExp marks (mark :: (signText sign ++ digits.map digitChar) ++ rest) =
      (if sign.getD false then -(firstSix (decimal (digits.map Fin.val)) : ℤ)
        else firstSix (decimal (digits.map Fin.val)), rest) := by
  have hsign := scanSign_text sign (digits_no_sign hdigits rest)
  have hdigit : (digits.map digitChar ++ rest).head?.any isDigit = true := by
    cases digits with
    | nil => exact absurd rfl hdigits
    | cons d more => exact isDigit_digitChar d
  have hloop := expLoop_spec digits hrest 0
  have hzero : firstSix 0 = 0 := firstSix_of_lt (by decide)
  rw [hzero, Nat.zero_mul, Nat.zero_add] at hloop
  rw [List.cons_append, scanExp, if_pos hmark, List.append_assoc, hsign]
  simp only [hdigit, ↓reduceIte, hloop]

/-- An exponent part is read in full, its value up to the cap. -/
theorem scanExp_text (x : ExponentPart) {rest : List Char}
    (hrest : rest.head?.any isDigit = false) :
    scanExp ['e', 'E'] (x.text ++ rest) =
      (if x.sign.getD false then -(firstSix (decimal (x.digits.map Fin.val)) : ℤ)
        else firstSix (decimal (x.digits.map Fin.val)), rest) := by
  have hmark : (if x.upper then 'E' else 'e') ∈ ['e', 'E'] := by
    cases x.upper <;> decide
  exact scanExp_digits hmark x.sign x.digits_ne hrest

/-- Where no exponent part starts, nothing is taken. -/
theorem scanExp_none {rest : List Char} (hno : ∀ x : ExponentPart, ¬ x.text <+: rest) :
    scanExp ['e', 'E'] rest = (0, rest) := by
  cases rest with
  | nil => rfl
  | cons c p =>
      rw [scanExp]
      by_cases hmark : c ∈ ['e', 'E']
      · rw [if_pos hmark]
        obtain ⟨sign, q, hp, hscan⟩ : ∃ sign q, p = signText sign ++ q ∧
            scanSign p = (sign.getD false, q) := by
          unfold scanSign
          split
          · exact ⟨some true, _, rfl, rfl⟩
          · exact ⟨some false, _, rfl, rfl⟩
          · exact ⟨none, _, rfl, rfl⟩
        rw [hscan]
        by_cases hdigit : q.head?.any isDigit = true
        · -- a digit follows: that is an exponent part
          exfalso
          cases q with
          | nil => exact Bool.noConfusion hdigit
          | cons e q =>
              obtain ⟨d, rfl⟩ := exists_digitChar hdigit
              apply hno ⟨decide (c = 'E'), sign, [d], List.cons_ne_nil _ _⟩
              refine ⟨q, ?_⟩
              rw [hp]
              simp only [List.mem_cons, List.not_mem_nil, or_false] at hmark
              rcases hmark with rfl | rfl <;> simp [ExponentPart.text]
        · simp only [hdigit, Bool.false_eq_true, ↓reduceIte]
      · rw [if_neg hmark]

end Exponent

section Value

theorem decimal_eq_zero_iff (ds : List ℕ) : decimal ds = 0 ↔ ∀ d ∈ ds, d = 0 :=
  numeral_eq_zero_iff (by decide) ds

theorem decimal_significant (ds : List ℕ) : decimal (significant ds) = decimal ds := by
  induction ds with
  | nil => rfl
  | cons d ds ih =>
      by_cases hd : d = 0
      · subst hd
        rw [decimal_cons, Nat.zero_mul, Nat.zero_add, ← ih]
        rfl
      · rw [significant, List.dropWhile_cons_of_neg (by simpa using hd)]

theorem significant_subset {ds : List ℕ} {d : ℕ} (h : d ∈ significant ds) : d ∈ ds :=
  (List.dropWhile_suffix _).subset h

/-- The scanned state describes the number the digits write. -/
theorem Scanned.truncated {ds : List ℕ} {f : ℤ} {st : DecScan} (h : Scanned ds f st)
    (hds : ∀ d ∈ ds, d < 10) (e : ℤ) :
    Truncated st.dig (st.dexp + e) st.extra (decimal ds * 10 ^ (e - f)) := by
  have hscale : (0 : ℚ) < 10 ^ (e - f) := by positivity
  set kept := (significant ds).take ndigMax with hkept
  set dropped := (significant ds).drop ndigMax with hdropped
  have hsplit : decimal ds = decimal kept * 10 ^ dropped.length + decimal dropped := by
    rw [← decimal_significant, ← decimal_append, hkept, hdropped, List.take_append_drop]
  have hlt : decimal dropped < 10 ^ dropped.length :=
    decimal_lt fun d hd => hds d (significant_subset (List.mem_of_mem_drop hd))
  have hpow : (10 : ℚ) ^ (st.dexp + e) = 10 ^ dropped.length * 10 ^ (e - f) := by
    rw [← zpow_natCast, ← zpow_add₀ (by norm_num), h.dexp]
    congr 1
    ring
  have hzero : st.extra = true ↔ decimal dropped ≠ 0 := by
    rw [h.extra, ne_eq, decimal_eq_zero_iff]
    push Not
    rfl
  rw [h.dig, hsplit]
  refine ⟨?_, ?_, ?_, ?_⟩
  · intro hextra
    have hnil : decimal dropped = 0 := by
      by_contra hne
      rw [hzero.mpr hne] at hextra
      exact Bool.noConfusion hextra
    rw [hpow, hnil]
    push_cast
    ring
  · intro hextra
    have hlen : dropped ≠ [] := by
      intro hnil
      rw [hzero, hnil] at hextra
      exact hextra rfl
    have hpos := List.length_pos_iff.mpr hlen
    rw [hdropped, List.length_drop] at hpos
    rw [List.length_take]
    omega
  · intro hextra
    have hpos : (0 : ℚ) < decimal dropped := by
      exact_mod_cast Nat.pos_of_ne_zero (hzero.mp hextra)
    rw [hpow, ← mul_assoc]
    apply mul_lt_mul_of_pos_right _ hscale
    push_cast
    linarith
  · intro _
    have hltQ : (decimal dropped : ℚ) < 10 ^ dropped.length := by exact_mod_cast hlt
    rw [hpow, ← mul_assoc]
    apply mul_lt_mul_of_pos_right _ hscale
    push_cast
    linarith

theorem Scanned.head_ne_zero {ds : List ℕ} {f : ℤ} {st : DecScan} (h : Scanned ds f st) :
    ∀ d ∈ st.dig.head?, d ≠ 0 := by
  intro d hd
  have hhead := List.head?_dropWhile_not (· == 0) ds
  rw [h.dig, List.head?_take, if_neg (by decide)] at hd
  rw [significant, Option.mem_def] at hd
  rw [hd] at hhead
  simpa using hhead

/-- The pattern made of a scanned state is the number the digits write, rounded. -/
theorem Scanned.decimalBits {ops : BigOps} (hops : ops.Sound) {ds : List ℕ} {f : ℤ}
    {st : DecScan} (h : Scanned ds f st) (neg : Bool) (hds : ∀ d ∈ ds, d < 10) (e : ℤ) :
    ∃ r, decimalBitsWith ops neg st.dig (st.dexp + e) st.extra = some r ∧
      binary64.RoundsTo neg (decimal ds * 10 ^ (e - f)) r.toNat := by
  have hdig : ∀ d ∈ st.dig, d < 10 := by
    rw [h.dig]
    exact fun d hd => hds d (significant_subset (List.mem_of_mem_take hd))
  have hlen : st.dig.length ≤ ndigMax := by
    rw [h.dig, List.length_take]
    exact Nat.min_le_left _ _
  exact decimalBits_rounds hops neg (h.truncated hds e) hdig h.head_ne_zero hlen

end Value

end Strtod

end Veron
