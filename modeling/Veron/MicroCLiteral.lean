/-
Numbers in the text of micro-c: the integer literals that `strtolong` reads, and the
decimals that `long2str` prints.
-/
import Mathlib.Algebra.Group.Nat.Defs
import Mathlib.Data.Int.Notation
import Veron.MicroCStrings

namespace Veron.MicroC

open SelfAssembler (Byte ch text)

/-- A digit of a number in a base. -/
def IsDigit (base : ℕ) (c : Byte) : Prop := ∃ d, char2hex c = some d ∧ d < base

def digitValue (c : Byte) : ℕ := (char2hex c).getD 0

def digitsValue (base : ℕ) (ds : List Byte) : ℕ :=
  ds.foldl (fun v c => v * base + digitValue c) 0

/-- Where reading digits stops: at the end, or at a character that is no digit. -/
def EndsDigits (base : ℕ) (rest : List Byte) : Prop :=
  ∀ c ∈ rest.head?, c ≠ ch '_' ∧ ∀ d, char2hex c = some d → base ≤ d

section Digits

variable {base : ℕ} {c : Byte} {ds rest : List Byte}

theorem IsDigit.ne (h : IsDigit base c) {b : Byte} (hb : char2hex b = none) : c ≠ b := by
  rintro rfl
  obtain ⟨d, hd, -⟩ := h
  rw [hb] at hd
  cases hd

theorem wrap64_step (v : ℤ) (b d : ℕ) : wrap64 (wrap64 v * b + d) = wrap64 (v * b + d) := by
  rw [wrap64, wrap64, wrap64, ← Int.bmod_add_bmod, Int.bmod_mul_bmod, Int.bmod_add_bmod]

theorem readDigits_ends (hrest : EndsDigits base rest) (v : ℤ) : readDigits base v rest = v := by
  cases rest with
  | nil => rfl
  | cons c t =>
      obtain ⟨hc, hdigit⟩ := hrest c rfl
      rw [readDigits, if_neg hc]
      split
      · rfl
      · rename_i d hd
        rw [if_pos (hdigit d hd)]

/-- A run of digits is read as the number it writes, up to `2 ^ 64`. -/
theorem readDigits_run (hds : ∀ c ∈ ds, IsDigit base c) (hrest : EndsDigits base rest) (v : ℕ) :
    readDigits base (wrap64 v) (ds ++ rest) =
      wrap64 (ds.foldl (fun v c => v * base + digitValue c) v : ℕ) := by
  induction ds generalizing v with
  | nil => exact readDigits_ends hrest _
  | cons c ds ih =>
      have hc := hds c List.mem_cons_self
      have hnone : c ≠ ch '_' := hc.ne rfl
      obtain ⟨d, hd, hlt⟩ := hc
      have hvalue : digitValue c = d := by rw [digitValue, hd, Option.getD_some]
      rw [List.cons_append, readDigits, if_neg hnone, hd]
      dsimp only
      rw [if_neg (Nat.not_le.mpr hlt), wrap64_step, List.foldl_cons, hvalue]
      exact_mod_cast ih (fun c hc => hds c (List.mem_cons_of_mem _ hc)) (v * base + d)

theorem readDigits_value (hds : ∀ c ∈ ds, IsDigit base c) (hrest : EndsDigits base rest) :
    readDigits base 0 (ds ++ rest) = wrap64 (digitsValue base ds) := readDigits_run hds hrest 0

end Digits

/-- How an integer literal is spelled. -/
inductive Radix where
  | decimal
  | octal
  | hex (upper : Bool)
  | binary (upper : Bool)

def Radix.base : Radix → ℕ
  | .decimal => 10
  | .octal => 8
  | .hex _ => 16
  | .binary _ => 2

def Radix.mark : Radix → List Byte
  | .decimal => []
  | .octal => text ['0']
  | .hex upper => text ['0', if upper then 'X' else 'x']
  | .binary upper => text ['0', if upper then 'B' else 'b']

/-- The digits that may stand behind the mark. -/
def Radix.Starts : Radix → List Byte → Prop
  | .decimal, ds => ∃ c ∈ ds.head?, c ≠ ch '0'
  | .octal, _ => True
  | _, ds => ds ≠ []

def suffixes : List Byte := text ['u', 'U', 'l', 'L']

/-- An integer literal token. -/
structure IntegerLiteral where
  radix : Radix
  digits : List Byte
  suffix : List Byte
  starts : radix.Starts digits
  isDigit : ∀ c ∈ digits, IsDigit radix.base c
  isSuffix : ∀ c ∈ suffix, c ∈ suffixes

def IntegerLiteral.spelling (l : IntegerLiteral) : Token :=
  l.radix.mark ++ (l.digits ++ l.suffix)

def IntegerLiteral.value (l : IntegerLiteral) : ℕ := digitsValue l.radix.base l.digits

theorem endsDigits_suffix {suffix : List Byte} (h : ∀ c ∈ suffix, c ∈ suffixes) (base : ℕ) :
    EndsDigits base suffix := by
  intro c hc
  have hmem := h c (List.mem_of_mem_head? hc)
  have hall : ∀ c ∈ suffixes, c ≠ ch '_' ∧ char2hex c = none := by decide
  obtain ⟨hne, hnone⟩ := hall c hmem
  refine ⟨hne, fun d hd => ?_⟩
  rw [hnone] at hd
  cases hd

section Reading

variable {c : Byte} {ds t rest : List Byte}

@[simp] theorem at_zero (c : Byte) (t : List Byte) : at' (c :: t) 0 = c := rfl

/-- Without a sign, the base and the digits decide. -/
theorem strtolong_unsigned (hminus : c ≠ ch '-') (hplus : c ≠ ch '+') :
    strtolong (c :: t) = readDigits (numberBase (c :: t)).1 0 (numberBase (c :: t)).2 := by
  simp [strtolong, hminus, hplus]

/-- Digits that do not begin with a zero are decimal. -/
theorem strtolong_decimal (hstart : ∃ c ∈ ds.head?, c ≠ ch '0') (hds : ∀ c ∈ ds, IsDigit 10 c)
    (hrest : EndsDigits 10 rest) : strtolong (ds ++ rest) = wrap64 (digitsValue 10 ds) := by
  obtain ⟨c, hc, hzero⟩ := hstart
  cases ds with
  | nil => cases hc
  | cons c' ds =>
      obtain rfl : c' = c := Option.some.inj hc
      have hdigit := hds c' List.mem_cons_self
      have hbase : numberBase (c' :: ds ++ rest) = (10, c' :: ds ++ rest) := by
        rw [numberBase, List.cons_append, at_zero, if_neg hzero]
      rw [List.cons_append] at hbase ⊢
      rw [strtolong_unsigned (hdigit.ne rfl) (hdigit.ne rfl), hbase]
      exact readDigits_value hds hrest

theorem strtolong_mark {base : ℕ} {mark : Char}
    (hbase : ∀ a, numberBase (ch '0' :: ch mark :: a) = (base, a))
    (hds : ∀ c ∈ ds, IsDigit base c) (hrest : EndsDigits base rest) :
    strtolong (ch '0' :: ch mark :: (ds ++ rest)) = wrap64 (digitsValue base ds) := by
  rw [strtolong_unsigned (by decide) (by decide), hbase]
  exact readDigits_value hds hrest

/-- A zero that no letter follows begins an octal number. -/
theorem numberBase_octal {a : List Byte} (h : ∀ c ∈ a.head?, IsDigit 8 c ∨ c ∈ suffixes) :
    numberBase (ch '0' :: a) = (8, a) := by
  have hletters : ∀ b ∈ text ['x', 'X', 'b', 'B'], at' a 0 ≠ b := by
    intro b hb
    have hall : ∀ b ∈ text ['x', 'X', 'b', 'B'], b ≠ 0 ∧ b ∉ suffixes := by decide
    have hlarge : ∀ b ∈ text ['x', 'X', 'b', 'B'], ∀ d ∈ char2hex b, 8 ≤ d := by decide
    cases a with
    | nil => exact fun heq => (hall b hb).1 heq.symm
    | cons c t =>
        rw [at_zero]
        rintro rfl
        rcases h c rfl with ⟨d, hd, hlt⟩ | hsuffix
        · exact absurd (hlarge c hb d hd) (Nat.not_le.mpr hlt)
        · exact (hall c hb).2 hsuffix
  have hone : at' (ch '0' :: a) 1 = at' a 0 := rfl
  have hx := hletters (ch 'x') (by decide)
  have hX := hletters (ch 'X') (by decide)
  have hb := hletters (ch 'b') (by decide)
  have hB := hletters (ch 'B') (by decide)
  rw [numberBase, at_zero, if_pos rfl, hone, if_neg (not_or.mpr ⟨hx, hX⟩),
    if_neg (not_or.mpr ⟨hb, hB⟩), List.drop_succ_cons, List.drop_zero]

/-- `strtolong` reads the value of a literal, up to `2 ^ 64`. -/
theorem strtolong_spelling (l : IntegerLiteral) : strtolong l.spelling = wrap64 l.value := by
  obtain ⟨radix, ds, suffix, hstart, hds, hsuffix⟩ := l
  have hstops := endsDigits_suffix hsuffix radix.base
  rw [IntegerLiteral.spelling, IntegerLiteral.value]
  dsimp only at hds hstops ⊢
  cases radix with
  | decimal =>
      rw [Radix.mark, List.nil_append]
      exact strtolong_decimal hstart hds hstops
  | octal =>
      have hhead : ∀ c ∈ (ds ++ suffix).head?, IsDigit 8 c ∨ c ∈ suffixes := by
        intro c hc
        rcases List.mem_append.mp (List.mem_of_mem_head? hc) with h | h
        · exact .inl (hds c h)
        · exact .inr (hsuffix c h)
      have hmark : Radix.octal.mark ++ (ds ++ suffix) = ch '0' :: (ds ++ suffix) := rfl
      rw [hmark, strtolong_unsigned (by decide) (by decide), numberBase_octal hhead]
      exact readDigits_value hds hstops
  | hex upper =>
      have hmark : (Radix.hex upper).mark ++ (ds ++ suffix) =
          ch '0' :: ch (if upper then 'X' else 'x') :: (ds ++ suffix) := rfl
      rw [hmark]
      cases upper <;> exact strtolong_mark (fun _ => rfl) hds hstops
  | binary upper =>
      have hmark : (Radix.binary upper).mark ++ (ds ++ suffix) =
          ch '0' :: ch (if upper then 'B' else 'b') :: (ds ++ suffix) := rfl
      rw [hmark]
      cases upper <;> exact strtolong_mark (fun _ => rfl) hds hstops

end Reading

def digitTable : List Byte :=
  text ['0', '1', '2', '3', '4', '5', '6', '7', '8', '9', 'A', 'B', 'C', 'D', 'E', 'F', 'G', 'H',
    'I', 'J', 'K', 'L', 'M', 'N', 'O', 'P', 'Q', 'R', 'S', 'T', 'U', 'V', 'W', 'X', 'Y', 'Z']

/-- The digits that `long2str` puts in front of `s`; those of a negative number come off the
negative side. `room` bytes of the buffer are free. -/
def long2strFrom (base : ℤ) (negative : Bool) : (room : ℕ) → ℤ → List Byte → List Byte
  | 0, _, s => s
  | room + 1, i, s =>
      let digit := if negative then 0 - i.tmod base else i.tmod base
      let s := digitTable.getD digit.toNat 0 :: s
      let i := i.tdiv base
      if i = 0 then s else long2strFrom base negative room i s

def long2str (x base : ℤ) (signed : Bool) : Except Fault Token :=
  if ¬ 1 < base then .error (.exit "long2str doesn't support a base less than 2\n")
  else if ¬ base < 37 then .error (.exit "long2str doesn't support a base more than 36\n")
  else if ¬ (signed ∨ 0 ≤ x) then
    .error (.exit "long2str asked to print a negative number as unsigned\\n")
  else if signed ∧ x < 0 then .ok (ch '-' :: long2strFrom base true 69 x [])
  else .ok (long2strFrom base false 69 x [])

/-- The decimal of a number, without leading zeros. -/
structure Prints (m : ℕ) (ds : List Byte) : Prop where
  isDigit : ∀ c ∈ ds, IsDigit 10 c
  value : digitsValue 10 ds = m
  nonempty : ds ≠ []
  start : ds.head? = some (ch '0') → ds = [ch '0']

/-- A number with its sign. -/
def withSign (negative : Bool) (m : ℕ) : ℤ := if negative then -m else m

theorem digit_withSign (negative : Bool) (m : ℕ) :
    (if negative then 0 - (withSign negative m).tmod 10 else (withSign negative m).tmod 10) =
      (m % 10 : ℕ) := by
  cases negative with
  | false => exact (Int.ofNat_tmod m 10).symm
  | true =>
      have hmod : (m : ℤ).tmod 10 = (m % 10 : ℕ) := (Int.ofNat_tmod m 10).symm
      have hneg : (withSign true m).tmod 10 = -(m % 10 : ℕ) := by
        rw [withSign, if_pos rfl, Int.neg_tmod, hmod]
      rw [if_pos rfl, hneg]
      omega

theorem tdiv_withSign (negative : Bool) (m : ℕ) :
    (withSign negative m).tdiv 10 = withSign negative (m / 10) := by
  have hdiv : (m : ℤ).tdiv 10 = (m / 10 : ℕ) := (Int.ofNat_tdiv m 10).symm
  cases negative with
  | false => exact hdiv
  | true => rw [withSign, if_pos rfl, Int.neg_tdiv, hdiv, withSign, if_pos rfl]

theorem withSign_eq_zero {negative : Bool} {m : ℕ} : withSign negative m = 0 ↔ m = 0 := by
  rw [withSign]
  split <;> omega

theorem digitTable_digit {d : ℕ} (hd : d < 10) :
    IsDigit 10 (digitTable.getD d 0) ∧ digitValue (digitTable.getD d 0) = d := by
  have hall : ∀ d < 10, char2hex (digitTable.getD d 0) = some d := by decide
  have hhex := hall d hd
  refine ⟨⟨d, hhex, hd⟩, ?_⟩
  rw [digitValue, hhex, Option.getD_some]

/-- The last digit printed alone. -/
theorem prints_digit {m : ℕ} (hm : m / 10 = 0) : Prints m [digitTable.getD (m % 10) 0] := by
  obtain ⟨hdigit, hvalue⟩ := digitTable_digit (d := m % 10) (by omega)
  refine ⟨by simpa using hdigit, ?_, by simp, fun h => ?_⟩
  · simp only [digitsValue, List.foldl_cons, List.foldl_nil, hvalue]
    omega
  · rw [Option.some.inj h]

/-- One more digit behind a printed number that is not zero. -/
theorem Prints.append {m : ℕ} {ds : List Byte} (h : Prints (m / 10) ds) (hm : m / 10 ≠ 0) :
    Prints m (ds ++ [digitTable.getD (m % 10) 0]) := by
  obtain ⟨hdigit, hvalue⟩ := digitTable_digit (d := m % 10) (by omega)
  refine ⟨?_, ?_, by simp, ?_⟩
  · intro c hc
    rcases List.mem_append.mp hc with hc | hc
    · exact h.isDigit c hc
    · rw [List.mem_singleton.mp hc]
      exact hdigit
  · have htop := h.value
    rw [digitsValue] at htop
    rw [digitsValue, List.foldl_append, htop]
    simp only [List.foldl_cons, List.foldl_nil, hvalue]
    omega
  · intro hhead
    rw [List.head?_append_of_ne_nil _ h.nonempty] at hhead
    have hvalue := h.value
    rw [h.start hhead] at hvalue
    exact absurd hvalue.symm hm

/-- Where the buffer has room for its digits, the loop prints the number. -/
theorem long2strFrom_prints (negative : Bool) {room m : ℕ} (hroom : m < 10 ^ (room + 1))
    (s : List Byte) :
    ∃ ds, long2strFrom 10 negative (room + 1) (withSign negative m) s = ds ++ s ∧ Prints m ds := by
  induction room generalizing m s with
  | zero =>
      have hlast : m / 10 = 0 := Nat.div_eq_of_lt hroom
      refine ⟨_, ?_, prints_digit hlast⟩
      simp only [long2strFrom, digit_withSign, Int.toNat_natCast, ite_self, List.singleton_append]
  | succ room ih =>
      rw [long2strFrom]
      simp only [digit_withSign, tdiv_withSign, Int.toNat_natCast, withSign_eq_zero]
      by_cases hlast : m / 10 = 0
      · exact ⟨_, if_pos hlast, prints_digit hlast⟩
      · have hsmall : m / 10 < 10 ^ (room + 1) := by
          rw [Nat.div_lt_iff_lt_mul (by decide)]
          rwa [Nat.pow_succ] at hroom
        obtain ⟨ds, hds, hprints⟩ := ih hsmall (digitTable.getD (m % 10) 0 :: s)
        refine ⟨_, ?_, hprints.append hlast⟩
        rw [if_neg hlast, hds, List.append_assoc, List.singleton_append]

/-- What is printed is read back. -/
theorem Prints.strtolong_eq {m : ℕ} {ds : List Byte} (h : Prints m ds) :
    strtolong ds = wrap64 m := by
  have hstops : EndsDigits 10 [] := by simp [EndsDigits]
  obtain ⟨c, t, rfl⟩ := List.exists_cons_of_ne_nil h.nonempty
  by_cases hc : c = ch '0'
  · have hzero := h.start (congrArg some hc)
    have hvalue : 0 = m := (show digitsValue 10 [ch '0'] = 0 from rfl).symm.trans (hzero ▸ h.value)
    have hread : strtolong [ch '0'] = 0 := by decide
    rw [hzero, hread, ← hvalue, wrap64, Int.natCast_zero, Int.zero_bmod]
  · have hread := strtolong_decimal ⟨c, rfl, hc⟩ h.isDigit hstops
    rwa [List.append_nil, h.value] at hread

theorem Prints.strtolong_neg {m : ℕ} {ds : List Byte} (h : Prints m ds) :
    strtolong (ch '-' :: ds) = wrap64 (-m) := by
  have hpos := h.strtolong_eq
  obtain ⟨c, t, rfl⟩ := List.exists_cons_of_ne_nil h.nonempty
  have hdigit := h.isDigit c List.mem_cons_self
  rw [strtolong_unsigned (hdigit.ne rfl) (hdigit.ne rfl)] at hpos
  simp only [strtolong, at_zero, true_or, ↓reduceIte, List.drop_succ_cons, List.drop_zero, hpos]
  rw [wrap64, wrap64, wrap64, Int.sub_bmod_bmod, Int.zero_sub]

def isDecimal (ds : Token) : Bool := ds ≠ [] && ds.all fun c => (char2hex c).any (· < 10)

/-- A decimal, as the assembler reads it. -/
def number? (t : Token) : Option ℤ :=
  if isDecimal t ∨ at' t 0 = ch '-' ∧ isDecimal (t.drop 1) then some (strtolong t) else none

theorem Prints.number {m : ℕ} {ds : List Byte} (h : Prints m ds) :
    number? ds = some (wrap64 m) ∧ number? (ch '-' :: ds) = some (wrap64 (-m)) := by
  have hdecimal : isDecimal ds = true := by
    rw [isDecimal, Bool.and_eq_true, List.all_eq_true]
    refine ⟨decide_eq_true h.nonempty, fun c hc => ?_⟩
    obtain ⟨d, hd, hlt⟩ := h.isDigit c hc
    simpa [hd] using hlt
  constructor
  · rw [number?, if_pos (.inl hdecimal), h.strtolong_eq]
  · rw [number?, if_pos (.inr ⟨rfl, hdecimal⟩), h.strtolong_neg]

theorem wrap64_eq {v : ℤ} (hlow : -2 ^ 63 ≤ v) (hhigh : v < 2 ^ 63) : wrap64 v = v :=
  Int.bmod_eq_of_le (by simpa using hlow) (by simpa using hhigh)

/-- A number that is not negative prints the same with and without a sign. -/
theorem long2str_nat {m : ℕ} (hm : m < 2 ^ 63) (signed : Bool) :
    ∃ ds, long2str m 10 signed = .ok ds ∧ Prints m ds ∧ number? ds = some (m : ℤ) := by
  have hroom : m < 10 ^ 69 := Nat.lt_trans hm (by decide)
  obtain ⟨ds, hds, hprints⟩ := long2strFrom_prints false hroom []
  rw [List.append_nil] at hds
  refine ⟨ds, ?_, hprints, ?_⟩
  · have hsign : ¬ (signed = true ∧ (m : ℤ) < 0) := fun h => by omega
    rw [long2str, if_neg (by decide), if_neg (by decide), if_neg (by simp), if_neg hsign]
    exact congrArg _ hds
  · rw [hprints.number.1, wrap64_eq (by omega) (by exact_mod_cast hm)]

/-- Every number prints, also the least one. -/
theorem long2str_signed {v : ℤ} (hlow : -2 ^ 63 ≤ v) (hhigh : v < 2 ^ 63) :
    ∃ ds, long2str v 10 true = .ok ds ∧ number? ds = some v := by
  rcases Int.lt_or_le v 0 with hneg | hpos
  · obtain ⟨m, rfl⟩ : ∃ m : ℕ, v = -m := ⟨v.natAbs, by omega⟩
    have hroom : m < 10 ^ 69 := Nat.lt_trans (show m < 2 ^ 64 by omega) (by decide)
    obtain ⟨ds, hds, hprints⟩ := long2strFrom_prints true hroom []
    rw [List.append_nil] at hds
    refine ⟨ch '-' :: ds, ?_, ?_⟩
    · rw [long2str, if_neg (by decide), if_neg (by decide), if_neg (by simp), if_pos ⟨rfl, hneg⟩]
      exact congrArg _ (congrArg _ hds)
    · rw [hprints.number.2, wrap64_eq hlow hhigh]
  · obtain ⟨m, rfl⟩ := Int.eq_ofNat_of_zero_le hpos
    obtain ⟨ds, hds, -, hnumber⟩ := long2str_nat (show m < 2 ^ 63 by omega) true
    exact ⟨ds, hds, hnumber⟩

end Veron.MicroC
