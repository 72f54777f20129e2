/-
`strtol` and `strtoul` of the runtime.  They are right on the texts that C has them read,
but for a `0x` without a hexadecimal digit behind it and for two of the white spaces.
-/
import Mathlib.Tactic.IntervalCases
import Veron.IntegerText

namespace Veron.Strtol

open IntegerText

/-- `digit_value`. -/
def digitValue (c : Char) : ℤ :=
  if '0' ≤ c ∧ c ≤ '9' then c.toNat - '0'.toNat
  else if 'a' ≤ c ∧ c ≤ 'z' then c.toNat - 'a'.toNat + 10
  else if 'A' ≤ c ∧ c ≤ 'Z' then c.toNat - 'A'.toNat + 10
  else -1

/-- The white space that is skipped. -/
def isBlank (c : Char) : Bool := c = ' ' ∨ c = '\t' ∨ c = '\n' ∨ c = '\r'

/-- `*p == '0'` and behind it an `x` in either case. -/
def zeroX : List Char → Bool
  | '0' :: x :: _ => x = 'x' ∨ x = 'X'
  | _ => false

/-- A sign at `p`, and `p` behind it. -/
def readSign : List Char → Bool × List Char
  | '-' :: p => (true, p)
  | '+' :: p => (false, p)
  | p => (false, p)

/-- The base, `p` behind a prefix, and whether there has been a digit. -/
def choosePrefix (base : ℕ) (p : List Char) : ℕ × List Char × Bool :=
  if base = 0 then
    if p.head? = some '0' then
      if zeroX p then (16, p.drop 2, false) else (8, p.drop 1, true)
    else (10, p, false)
  else if base = 16 ∧ zeroX p then (base, p.drop 2, false)
  else (base, p, false)

/-- The loop over the digits; the text ends with the NUL. -/
def convertDigits (base : ℕ) : List Char → Int64 → Bool → Int64 × Bool × List Char
  | [], value, any => (value, any, [])
  | c :: p, value, any =>
      let d := digitValue c
      if d < 0 then (value, any, c :: p)
      else if d ≥ base then (value, any, c :: p)
      else convertDigits base p (value * Int64.ofNat base + Int64.ofInt d) true

/-- `strto_common`: the value, whether there was a minus, and what `endptr` gets. -/
def strtoCommon (nptr : List Char) (base : ℕ) : Int64 × Bool × List Char :=
  let p := nptr.dropWhile isBlank
  let (negative, p) := readSign p
  let (base, p, any) := choosePrefix base p
  let (value, any, p) := convertDigits base p 0 any
  (value, negative, if any then p else nptr)

def strtol (nptr : List Char) (base : ℕ) : Int64 × List Char :=
  let (v, neg, endptr) := strtoCommon nptr base
  (if neg then -v else v, endptr)

def strtoul (nptr : List Char) (base : ℕ) : UInt64 × List Char :=
  let (v, neg, endptr) := strtoCommon nptr base
  (if neg then -v.toUInt64 else v.toUInt64, endptr)

/-- Both return what is to be read, and leave `endptr` behind it. -/
def Correct (base : ℕ) (s : List Char) : Prop :=
  ∃ neg mag rest, Reads base s neg mag rest ∧
    (strtol s base).1.toInt = (if neg then -(mag : ℤ) else mag) ∧ (strtol s base).2 = rest ∧
    (strtoul s base).1.toNat = (if neg then (2 ^ 64 - mag) % 2 ^ 64 else mag) ∧
    (strtoul s base).2 = rest

/-- The white space that is not skipped. -/
def isOdd (c : Char) : Bool := c = '\x0b' ∨ c = '\x0c'

/-- A digit of the base is the first character. -/
def startsWithDigit (base : ℕ) (t : List Char) : Bool :=
  t.head?.any (isDigit (if base = 0 then 10 else base))

/-- A `0x` that no hexadecimal digit follows, where the base has such a prefix. -/
def bareMark (base : ℕ) (t : List Char) : Bool :=
  (base = 0 ∨ base = 16) ∧ zeroX t ∧ ¬ hexAhead t

variable {base b v : ℕ} {c x : Char} {s t p rest : List Char} {any : Bool}

theorem digitValue_eq (c : Char) :
    digitValue c = match digitOf c with
      | none => -1
      | some d => (d : ℤ) := by
  unfold digitValue digitOf
  split
  · rename_i h
    have hle : '0'.toNat ≤ c.toNat := h.1
    exact (Nat.cast_sub hle).symm
  split
  · rename_i h
    have hle : 'a'.toNat ≤ c.toNat := h.1
    dsimp only
    rw [Nat.cast_add, Nat.cast_sub hle]
    rfl
  split
  · rename_i h
    have hle : 'A'.toNat ≤ c.toNat := h.1
    dsimp only
    rw [Nat.cast_add, Nat.cast_sub hle]
    rfl
  · rfl

/-- The loop goes over the digits of the base. -/
theorem convertDigits_cons (base : ℕ) (c : Char) (p : List Char) (value : Int64) (any : Bool) :
    convertDigits base (c :: p) value any =
      if isDigit base c then
        convertDigits base p
          (value * Int64.ofNat base + Int64.ofNat ((digitOf c).getD 0)) true
      else (value, any, c :: p) := by
  rw [convertDigits, digitValue_eq, isDigit]
  cases digitOf c with
  | none => rfl
  | some d =>
      have hsign : ¬ (d : ℤ) < 0 := by omega
      show (if (d : ℤ) < 0 then _ else if (d : ℤ) ≥ base then _ else _) = _
      rw [if_neg hsign]
      by_cases hd : d < base
      · rw [if_neg (by omega), if_pos (by simpa using hd), Int64.ofInt_eq_ofNat]
        rfl
      · rw [if_pos (by omega), if_neg (by simpa using hd)]

theorem convertDigits_eq (b : ℕ) (p : List Char) (v : ℕ) (any : Bool) :
    convertDigits b p (Int64.ofNat v) any =
      (Int64.ofNat (v * b ^ (p.takeWhile (isDigit b)).length + number b (p.takeWhile (isDigit b))),
        any || !(p.takeWhile (isDigit b)).isEmpty, p.dropWhile (isDigit b)) := by
  induction p generalizing v any with
  | nil => simp [convertDigits, number, numeral]
  | cons c p ih =>
      rw [convertDigits_cons]
      split
      · rename_i hc
        have hvalue : ∀ ds : List Char,
            (v * b + (digitOf c).getD 0) * b ^ ds.length + number b ds =
              v * b ^ (c :: ds).length + number b (c :: ds) := by
          intro ds
          rw [number, number, List.map_cons, numeral_cons, List.length_map, List.length_cons]
          ring
        rw [← Int64.ofNat_mul, ← Int64.ofNat_add, ih, List.takeWhile_cons_of_pos hc,
          List.dropWhile_cons_of_pos hc, hvalue]
        simp
      · rename_i hc
        rw [List.takeWhile_cons_of_neg hc, List.dropWhile_cons_of_neg hc]
        simp [number, numeral]

theorem drop_length_takeWhile (q : Char → Bool) (t : List Char) :
    t.drop (t.takeWhile q).length = t.dropWhile q := by
  have hdrop := congrArg (List.drop (t.takeWhile q).length)
    (List.takeWhile_append_dropWhile (p := q) (l := t))
  rw [List.drop_left] at hdrop
  exact hdrop.symm

/-- The only texts with such a prefix. -/
theorem exists_of_zeroX (h : zeroX t = true) :
    ∃ x after, t = '0' :: x :: after ∧ (x = 'x' ∨ x = 'X') := by
  unfold zeroX at h
  split at h
  · rename_i x after
    exact ⟨x, after, rfl, by simpa using h⟩
  · cases h

/-- A prefix where the base has one. -/
theorem choosePrefix_zeroX (hbase : base = 0 ∨ base = 16) (hzero : zeroX t = true) :
    choosePrefix base t = (16, t.drop 2, false) := by
  obtain ⟨x, after, rfl, -⟩ := exists_of_zeroX hzero
  rcases hbase with rfl | rfl
  · rw [choosePrefix, if_pos rfl, if_pos List.head?_cons, if_pos hzero]
  · rw [choosePrefix, if_neg (by decide), if_pos ⟨rfl, hzero⟩]

/-- No prefix, but perhaps a 0 that makes the base 8. -/
theorem choosePrefix_plain (hmark : marked base t = false) (hbare : bareMark base t = false) :
    choosePrefix base t =
      if base = 0 ∧ t.head? = some '0' then (8, t.drop 1, true) else (radix base t, t, false) := by
  have hplain : ¬ ((base = 0 ∨ base = 16) ∧ zeroX t = true) := by
    rintro ⟨hbase, hzero⟩
    cases hahead : hexAhead t with
    | true => simp [marked, hbase, hahead] at hmark
    | false => simp [bareMark, hbase, hzero, hahead] at hbare
  by_cases hbase : base = 0
  · subst hbase
    have hzero : ¬ zeroX t = true := fun hzero => hplain ⟨.inl rfl, hzero⟩
    have hahead : hexAhead t = false := hexAhead_of_not hmark
    rw [choosePrefix, if_pos rfl]
    by_cases hhead : t.head? = some '0'
    · rw [if_pos hhead, if_neg hzero, if_pos ⟨rfl, hhead⟩]
    · rw [if_neg hhead, if_neg fun h => hhead h.2, radix, if_neg (not_not.mpr rfl),
        if_neg (by simp [hahead]), if_neg hhead]
  · rw [choosePrefix, if_neg hbase, if_neg fun h => hplain ⟨.inr h.1, h.2⟩,
      if_neg fun h => hbase h.1, radix, if_pos hbase]

/-- But for a bare prefix the digits that count are converted. -/
theorem convert_eq (hbare : bareMark base t = false) :
    ∃ b p any, choosePrefix base t = (b, p, any) ∧ convertDigits b p 0 any =
      (Int64.ofNat (number (radix base t) (digits base t)), !(digits base t).isEmpty,
        t.drop (longest base t).length) := by
  cases hmark : marked base t with
  | true =>
      obtain ⟨x, after, rfl, hx, hpair, hradix, hdigits, -⟩ := mark_of_marked hmark
      have hbase := (marked_iff.mp hmark).1
      refine ⟨16, after, false, choosePrefix_zeroX hbase (by simpa [zeroX] using hx), ?_⟩
      have hconvert := convertDigits_eq 16 after 0 false
      rw [Nat.zero_mul, Nat.zero_add, Bool.false_or] at hconvert
      have hrest : ('0' :: x :: after).drop (longest base ('0' :: x :: after)).length =
          after.dropWhile (isDigit 16) := by
        rw [longest, hpair, hdigits, ← drop_length_takeWhile]
        rfl
      rw [hrest, hradix, hdigits]
      exact hconvert
  | false =>
      have hdigits := (mark_of_not hmark).2
      have hrest : t.drop (longest base t).length = t.dropWhile (isDigit (radix base t)) := by
        rw [longest_of_not hmark, hdigits, drop_length_takeWhile]
      rw [hrest, hdigits]
      have hchoose := choosePrefix_plain hmark hbare
      by_cases hzero : base = 0 ∧ t.head? = some '0'
      · rw [if_pos hzero] at hchoose
        obtain ⟨rfl, hhead⟩ := hzero
        obtain ⟨after, rfl⟩ := List.head?_eq_some_iff.mp hhead
        refine ⟨8, after, true, hchoose, ?_⟩
        have hradix : radix 0 ('0' :: after) = 8 :=
          radix_zero (hexAhead_of_not hmark) (List.prefix_refl _)
        have hdigit : isDigit 8 '0' = true := by decide
        have hconvert := convertDigits_eq 8 after 0 true
        rw [Nat.zero_mul, Nat.zero_add, Bool.true_or] at hconvert
        rw [hradix, List.takeWhile_cons_of_pos hdigit, List.dropWhile_cons_of_pos hdigit,
          number_zero_cons]
        exact hconvert
      · rw [if_neg hzero] at hchoose
        refine ⟨radix base t, t, false, hchoose, ?_⟩
        have hconvert := convertDigits_eq (radix base t) t 0 false
        rw [Nat.zero_mul, Nat.zero_add, Bool.false_or] at hconvert
        exact hconvert

/-- Behind a bare prefix no digit is found. -/
theorem convert_bare (hbare : bareMark base t = true) :
    digits base t ≠ [] ∧ ∃ b p q, choosePrefix base t = (b, p, false) ∧
      convertDigits b p 0 false = (0, false, q) := by
  have hall : (base = 0 ∨ base = 16) ∧ zeroX t = true ∧ hexAhead t = false := by
    simpa [bareMark] using hbare
  obtain ⟨hbase, hzero, hahead⟩ := hall
  obtain ⟨x, after, rfl, hx⟩ := exists_of_zeroX hzero
  constructor
  · have hmark : marked base ('0' :: x :: after) = false := by simp [marked, hahead]
    have hpos : 0 < radix base ('0' :: x :: after) := by
      rcases hbase with rfl | rfl
      · rw [radix_zero hahead (List.prefix_refl _)]
        decide
      · rw [radix, if_pos (by decide)]
        decide
    rw [(mark_of_not hmark).2, List.takeWhile_cons_of_pos (isDigit_zero hpos)]
    exact List.cons_ne_nil _ _
  · refine ⟨16, after, after, choosePrefix_zeroX hbase hzero, ?_⟩
    cases after with
    | nil => rfl
    | cons c after =>
        have hc : ¬ isDigit 16 c = true := by
          intro hc
          rw [hexAhead_cons hx hc] at hahead
          cases hahead
        rw [convertDigits_cons, if_neg hc]

theorem digits_ne_nil_iff : digits base t ≠ [] ↔ startsWithDigit base t = true := by
  cases hmark : marked base t with
  | true =>
      obtain ⟨x, after, rfl, -, -, -, -, hne⟩ := mark_of_marked hmark
      refine iff_of_true hne ?_
      rcases (marked_iff.mp hmark).1 with rfl | rfl <;> rfl
  | false =>
      rw [(mark_of_not hmark).2]
      cases t with
      | nil => simp [startsWithDigit]
      | cons c t =>
          have hsame : isDigit (radix base (c :: t)) c =
              isDigit (if base = 0 then 10 else base) c := by
            by_cases hbase : base = 0
            · subst hbase
              rw [radix_zero (hexAhead_of_not hmark) (List.prefix_refl _)]
              split
              · rename_i hc
                rw [hc]
                rfl
              · rfl
            · rw [radix, if_pos hbase, if_neg hbase]
          rw [List.takeWhile_cons, hsame, startsWithDigit]
          cases hc : isDigit (if base = 0 then 10 else base) c <;> simp [hc]

theorem isBlank_isSpace (hc : isBlank c = true) : isSpace c = true := by
  have hall : c = ' ' ∨ c = '\t' ∨ c = '\n' ∨ c = '\r' := by simpa [isBlank] using hc
  rcases hall with rfl | rfl | rfl | rfl <;> rfl

/-- The white space of C, a character at a time. -/
theorem isBlank_of_isSpace (hc : isSpace c = true) : isBlank c = !isOdd c := by
  have hall : c = ' ' ∨ ('\t' ≤ c ∧ c ≤ '\r') := by simpa [isSpace] using hc
  rcases hall with rfl | ⟨htab, hreturn⟩
  · rfl
  · have hlow : 9 ≤ c.toNat := htab
    have hhigh : c.toNat ≤ 13 := hreturn
    rw [← Char.ofNat_toNat c]
    generalize c.toNat = n at hlow hhigh
    interval_cases n <;> rfl

/-- All the white space is skipped when none of it is odd. -/
theorem dropWhile_isBlank (h : ∀ c ∈ s.takeWhile isSpace, isOdd c = false) :
    s.dropWhile isBlank = behindSpace s := by
  induction s with
  | nil => rfl
  | cons c s ih =>
      cases hc : isSpace c with
      | true =>
          rw [List.takeWhile_cons_of_pos hc] at h
          have hblank : isBlank c = true := by
            rw [isBlank_of_isSpace hc, h c List.mem_cons_self]
            rfl
          rw [behindSpace, List.dropWhile_cons_of_pos hblank, List.dropWhile_cons_of_pos hc]
          exact ih fun d hd => h d (List.mem_cons_of_mem c hd)
      | false =>
          have hblank : ¬ isBlank c = true := fun hb => by
            rw [isBlank_isSpace hb] at hc
            cases hc
          rw [behindSpace, List.dropWhile_cons_of_neg hblank,
            List.dropWhile_cons_of_neg (by simp [hc])]

/-- Odd white space stops the skipping. -/
theorem dropWhile_isBlank_odd (h : ∃ c ∈ s.takeWhile isSpace, isOdd c = true) :
    ∃ c after, s.dropWhile isBlank = c :: after ∧ isOdd c = true := by
  induction s with
  | nil => simp at h
  | cons c s ih =>
      obtain ⟨d, hd, hodd⟩ := h
      have hc : isSpace c = true := by
        by_contra hc
        rw [List.takeWhile_cons_of_neg hc] at hd
        cases hd
      rw [List.takeWhile_cons_of_pos hc] at hd
      cases hblank : isBlank c with
      | true =>
          rw [List.dropWhile_cons_of_pos hblank]
          rcases List.mem_cons.mp hd with rfl | hd
          · rw [isBlank_of_isSpace hc, hodd] at hblank
            cases hblank
          · exact ih ⟨d, hd, hodd⟩
      | false =>
          rw [List.dropWhile_cons_of_neg (by simp [hblank])]
          refine ⟨c, s, rfl, ?_⟩
          rw [isBlank_of_isSpace hc] at hblank
          simpa using hblank

theorem readSign_eq (t : List Char) :
    readSign t = (decide (signAt t = ['-']), t.drop (signAt t).length) := by
  unfold readSign signAt
  split <;> simp_all

theorem strtoCommon_eq {q p' : List Char} {value : Int64} {neg any' : Bool}
    (hskip : s.dropWhile isBlank = q) (hsign : readSign q = (neg, t))
    (hchoose : choosePrefix base t = (b, p, any))
    (hconvert : convertDigits b p 0 any = (value, any', p')) :
    strtoCommon s base = (value, neg, if any' then p' else s) := by
  simp only [strtoCommon, hskip, hsign, hchoose, hconvert]

theorem isOdd_isSpace (hc : isOdd c = true) : isSpace c = true := by
  have hall : c = '\x0b' ∨ c = '\x0c' := by simpa [isOdd] using hc
  rcases hall with rfl | rfl <;> rfl

theorem choosePrefix_odd (hc : isOdd c = true) :
    choosePrefix base (c :: t) = (if base = 0 then 10 else base, c :: t, false) := by
  have hzero : zeroX (c :: t) = false := by
    by_contra hzero
    obtain ⟨x, after, heq, -⟩ := exists_of_zeroX (Bool.not_eq_false _ ▸ hzero)
    cases heq
    cases hc
  have hhead : ¬ (c :: t).head? = some '0' := by
    rintro heq
    cases heq
    cases hc
  by_cases hbase : base = 0
  · rw [choosePrefix, if_pos hbase, if_neg hhead, if_pos hbase]
  · rw [choosePrefix, if_neg hbase, if_neg (by simp [hzero]), if_neg hbase]

/-- Behind odd white space nothing is found. -/
theorem strtoCommon_odd (h : ∃ c ∈ s.takeWhile isSpace, isOdd c = true) :
    strtoCommon s base = (0, false, s) := by
  obtain ⟨c, after, hskip, hodd⟩ := dropWhile_isBlank_odd h
  have hsign : readSign (c :: after) = (false, c :: after) := by
    have hall : c = '\x0b' ∨ c = '\x0c' := by simpa [isOdd] using hodd
    rcases hall with rfl | rfl <;> rfl
  have hdigit : ¬ isDigit (if base = 0 then 10 else base) c = true := fun hc =>
    Bool.false_ne_true ((isSpace_of_isDigit hc).1.symm.trans (isOdd_isSpace hodd))
  have hconvert : convertDigits (if base = 0 then 10 else base) (c :: after) 0 false =
      (0, false, c :: after) := by
    rw [convertDigits_cons, if_neg hdigit]
  exact strtoCommon_eq hskip hsign (choosePrefix_odd hodd) hconvert

/-- In front of it the text behind the sign is converted. -/
theorem strtoCommon_body (h : ∀ c ∈ s.takeWhile isSpace, isOdd c = false) {value : Int64}
    {p' : List Char} {any' : Bool} (hchoose : choosePrefix base (body s) = (b, p, any))
    (hconvert : convertDigits b p 0 any = (value, any', p')) :
    strtoCommon s base =
      (value, decide (signAt (behindSpace s) = ['-']), if any' then p' else s) :=
  strtoCommon_eq (dropWhile_isBlank h) (readSign_eq (behindSpace s)) hchoose hconvert

/-- Zero, and all of the text left. -/
theorem correct_of_nothing {neg : Bool} (hdigits : digits base (body s) = [])
    (hcommon : strtoCommon s base = (0, neg, s)) : Correct base s := by
  refine ⟨false, 0, s, reads_iff.mpr ?_, ?_⟩
  · rw [if_pos hdigits]
    exact ⟨rfl, rfl, rfl⟩
  · rw [strtol, strtoul, hcommon]
    cases neg <;> exact ⟨rfl, rfl, rfl, rfl⟩

theorem not_correct_of_nothing {neg : Bool} {value : Int64} (hdigits : digits base (body s) ≠ [])
    (hcommon : strtoCommon s base = (value, neg, s)) : ¬ Correct base s := by
  rintro ⟨neg', mag, rest, hreads, -, hend, -, -⟩
  have hread := reads_iff.mp hreads
  rw [if_neg hdigits] at hread
  rw [strtol, hcommon] at hend
  have hend : s = rest := hend
  have hwhole := whole_append base s
  rw [← hread.2.2, ← hend] at hwhole
  have hnone : whole base s = [] := List.append_left_eq_self.mp hwhole
  rw [whole, List.append_eq_nil_iff, List.append_eq_nil_iff, longest, List.append_eq_nil_iff]
    at hnone
  exact hdigits hnone.2.2.2

theorem correct_of_digits (hdigits : digits base (body s) ≠ [])
    (hfits : number (radix base (body s)) (digits base (body s)) < 2 ^ 63)
    (hcommon : strtoCommon s base =
      (Int64.ofNat (number (radix base (body s)) (digits base (body s))),
        decide (signAt (behindSpace s) = ['-']),
        (body s).drop (longest base (body s)).length)) : Correct base s := by
  have hreads : Reads base s (decide (signAt (behindSpace s) = ['-']))
      (number (radix base (body s)) (digits base (body s)))
      ((body s).drop (longest base (body s)).length) := by
    rw [reads_iff, if_neg hdigits]
    exact ⟨rfl, rfl, rfl⟩
  refine ⟨_, _, _, hreads, ?_⟩
  rw [strtol, strtoul, hcommon]
  generalize number (radix base (body s)) (digits base (body s)) = mag at hfits
  cases decide (signAt (behindSpace s) = ['-']) with
  | false =>
      refine ⟨Int64.toInt_ofNat_of_lt hfits, rfl, ?_, rfl⟩
      show (Int64.ofNat mag).toUInt64.toNat = mag
      rw [Int64.toUInt64_ofNat', UInt64.toNat_ofNat_of_lt']
      exact hfits.trans (by decide)
  | true =>
      refine ⟨?_, rfl, ?_, rfl⟩
      · show (-Int64.ofNat mag).toInt = -(mag : ℤ)
        rw [← Int64.ofInt_eq_ofNat, ← Int64.ofInt_neg]
        exact Int64.toInt_ofInt_of_le (by omega) (by omega)
      · show (-(Int64.ofNat mag).toUInt64).toNat = (2 ^ 64 - mag) % 2 ^ 64
        rw [Int64.toUInt64_ofNat', UInt64.toNat_neg, UInt64.toNat_ofNat_of_lt']
        · rfl
        · exact hfits.trans (by decide)

/-- What both have to read is read but for two kinds of texts: those with a vertical tab or
a form feed in the white space before a number, and those where a `0x` that could be a
prefix is none. -/
theorem strtol_correct_iff (base : ℕ) (s : List Char)
    (hfits : ∀ neg mag rest, Reads base s neg mag rest → mag < 2 ^ 63) :
    Correct base s ↔ startsWithDigit base (body s) = false ∨
      (∀ c ∈ s.takeWhile isSpace, isOdd c = false) ∧ bareMark base (body s) = false := by
  rw [← Bool.not_eq_true, ← digits_ne_nil_iff, not_not]
  by_cases hodd : ∃ c ∈ s.takeWhile isSpace, isOdd c = true
  · have hcommon : strtoCommon s base = (0, false, s) := strtoCommon_odd hodd
    constructor
    · intro hcorrect
      by_contra hnot
      exact not_correct_of_nothing (fun hnil => hnot (.inl hnil)) hcommon hcorrect
    · rintro (hdigits | ⟨hplain, -⟩)
      · exact correct_of_nothing hdigits hcommon
      · obtain ⟨c, hc, hco⟩ := hodd
        exact absurd hco (by simp [hplain c hc])
  · have hplain : ∀ c ∈ s.takeWhile isSpace, isOdd c = false := by
      simpa using hodd
    cases hbare : bareMark base (body s) with
    | true =>
        obtain ⟨hdigits, b, p, q, hchoose, hconvert⟩ := convert_bare hbare
        have hcommon := strtoCommon_body hplain hchoose hconvert
        simpa [hdigits] using not_correct_of_nothing hdigits hcommon
    | false =>
        obtain ⟨b, p, any, hchoose, hconvert⟩ := convert_eq hbare
        have hcommon := strtoCommon_body hplain hchoose hconvert
        refine iff_of_true ?_ (.inr ⟨hplain, rfl⟩)
        by_cases hdigits : digits base (body s) = []
        · rw [hdigits] at hcommon
          exact correct_of_nothing hdigits hcommon
        · have hreads := reads_iff.mpr ((if_neg hdigits).mpr ⟨rfl, rfl, rfl⟩)
          refine correct_of_digits hdigits (hfits _ _ _ hreads) ?_
          rw [hcommon]
          simp [hdigits]

theorem strtol_correct_sample :
    Correct 16 " -0x1fz".toList ↔ startsWithDigit 16 (body " -0x1fz".toList) = false ∨
      (∀ c ∈ " -0x1fz".toList.takeWhile isSpace, isOdd c = false) ∧
        bareMark 16 (body " -0x1fz".toList) = false := by
  refine strtol_correct_iff 16 " -0x1fz".toList fun neg mag rest hreads => ?_
  rw [reads_iff, if_neg (by decide)] at hreads
  rw [hreads.2.1]
  decide

/-- A 0 is to be read, and nothing is. -/
theorem bareMark_wrong :
    Reads 16 "0xg".toList false 0 "xg".toList ∧ strtol "0xg".toList 16 = (0, "0xg".toList) ∧
      ¬ Correct 16 "0xg".toList := by
  refine ⟨?_, by decide, ?_⟩
  · rw [reads_iff, if_neg (by decide)]
    decide
  · exact not_correct_of_nothing (by decide)
      (show strtoCommon "0xg".toList 16 = (0, false, "0xg".toList) by decide)

end Veron.Strtol
