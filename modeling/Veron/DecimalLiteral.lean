/-
Decimal literals, `[sign] digits [. digits] [e [sign] digits]` with at least one
digit before the exponent: their text, the number they write, and what it means
for a literal to be the longest one at the head of a string.
-/
import Mathlib.Data.Rat.Defs
import Mathlib.Tactic.IntervalCases
import Veron.Numeral
import Veron.Strtod

namespace Veron

open Strtod

/-- The number a list of decimal digits writes, most significant first. -/
def decimal (dig : List ℕ) : ℕ := Nat.ofDigits 10 dig.reverse

theorem decimal_append (a b : List ℕ) :
    decimal (a ++ b) = decimal a * 10 ^ b.length + decimal b :=
  numeral_append 10 a b

theorem decimal_cons (d : ℕ) (dig : List ℕ) :
    decimal (d :: dig) = d * 10 ^ dig.length + decimal dig :=
  numeral_cons 10 d dig

theorem decimal_lt {dig : List ℕ} (hdig : ∀ d ∈ dig, d < 10) :
    decimal dig < 10 ^ dig.length :=
  numeral_lt hdig

/-- A nonzero leading digit fixes the order of magnitude. -/
theorem le_decimal {d : ℕ} {dig : List ℕ} (hd : d ≠ 0) :
    10 ^ dig.length ≤ decimal (d :: dig) :=
  le_numeral hd

/-- The exponent part of a literal. -/
structure ExponentPart where
  upper : Bool
  sign : Option Bool
  digits : List (Fin 10)
  digits_ne : digits ≠ []

/-- A literal; a sign is `some true` for a minus and `some false` for a plus. -/
structure DecimalLiteral where
  sign : Option Bool
  whole : List (Fin 10)
  fraction : Option (List (Fin 10))
  exponent : Option ExponentPart
  some_digit : whole ++ fraction.getD [] ≠ []

def digitChar (d : Fin 10) : Char := Nat.digitChar d

def lastDigit (n : ℕ) : Fin 10 := ⟨n % 10, Nat.mod_lt n (Nat.succ_pos 9)⟩

def signText : Option Bool → List Char
  | none => []
  | some true => ['-']
  | some false => ['+']

def ExponentPart.text (x : ExponentPart) : List Char :=
  (if x.upper then 'E' else 'e') :: (signText x.sign ++ x.digits.map digitChar)

namespace DecimalLiteral

def fractionText : Option (List (Fin 10)) → List Char
  | none => []
  | some f => '.' :: f.map digitChar

def exponentText : Option ExponentPart → List Char
  | none => []
  | some x => x.text

def text (lit : DecimalLiteral) : List Char :=
  signText lit.sign ++ (lit.whole.map digitChar ++
    (fractionText lit.fraction ++ exponentText lit.exponent))

def neg (lit : DecimalLiteral) : Bool := lit.sign.getD false

/-- All digits before the exponent part. -/
def digits (lit : DecimalLiteral) : List ℕ :=
  (lit.whole ++ lit.fraction.getD []).map Fin.val

def fractionLength (lit : DecimalLiteral) : ℕ := (lit.fraction.getD []).length

def expNeg (lit : DecimalLiteral) : Bool :=
  match lit.exponent with
  | none => false
  | some x => x.sign.getD false

/-- The absolute value of the exponent. -/
def expAbs (lit : DecimalLiteral) : ℕ :=
  match lit.exponent with
  | none => 0
  | some x => decimal (x.digits.map Fin.val)

/-- The magnitude the literal would have with `e` for the absolute value of its
exponent. -/
def magAt (lit : DecimalLiteral) (e : ℕ) : ℚ :=
  decimal lit.digits * 10 ^ ((if lit.expNeg then -(e : ℤ) else e) - lit.fractionLength)

/-- The exact magnitude of the literal. -/
def mag (lit : DecimalLiteral) : ℚ := lit.magAt lit.expAbs

end DecimalLiteral

/-- A sign and `0x` followed by a hexadecimal digit or a point and one. -/
def HexPrefix (s : List Char) : Prop :=
  ∃ sign x p, s = signText sign ++ '0' :: x :: p ∧ (x = 'x' ∨ x = 'X') ∧
    ((∃ c q, p = c :: q ∧ ishex c = true) ∨ ∃ c q, p = '.' :: c :: q ∧ ishex c = true)

/-- `lit` is the longest literal at the head of `s`, which does not start a
hexadecimal one. -/
structure LongestPrefix (s : List Char) (lit : DecimalLiteral) : Prop where
  isPrefix : lit.text <+: s
  longest : ∀ lit' : DecimalLiteral, lit'.text <+: s → lit'.text.length ≤ lit.text.length
  not_hex : ¬ HexPrefix s

theorem isDigit_digitChar (d : Fin 10) : isDigit (digitChar d) = true := by
  revert d
  decide

theorem digitVal_digitChar (d : Fin 10) : digitVal (digitChar d) = d := by
  revert d
  decide

theorem digitChar_eq_zero_iff (d : Fin 10) : digitChar d = '0' ↔ d = 0 := by
  revert d
  decide

theorem not_special_digitChar (d : Fin 10) :
    digitChar d ≠ '-' ∧ digitChar d ≠ '+' ∧ digitChar d ≠ '.' ∧
      digitChar d ≠ 'x' ∧ digitChar d ≠ 'X' ∧ isSpace (digitChar d) = false := by
  revert d
  decide

/-- Every character that passes for a digit is one. -/
theorem exists_digitChar {c : Char} (h : isDigit c = true) : ∃ d, c = digitChar d := by
  rw [isDigit, Bool.and_eq_true, decide_eq_true_eq, decide_eq_true_eq] at h
  have hlow : 48 ≤ c.toNat := h.1
  have hhigh : c.toNat ≤ 57 := h.2
  refine ⟨⟨c.toNat - 48, by omega⟩, ?_⟩
  apply Char.toNat_inj.mp
  change c.toNat = (Nat.digitChar (c.toNat - 48)).toNat
  generalize c.toNat = n at hlow hhigh
  interval_cases n <;> rfl

namespace DecimalLiteral

variable {lit : DecimalLiteral}

theorem not_x_of_mem_text {c : Char} (hc : c ∈ lit.text) : c ≠ 'x' ∧ c ≠ 'X' := by
  have hsign : ∀ sign, c ∈ signText sign → c ≠ 'x' ∧ c ≠ 'X' := by
    rintro (- | (- | -)) h
    · exact absurd h List.not_mem_nil
    · rw [List.mem_singleton.mp h]
      decide
    · rw [List.mem_singleton.mp h]
      decide
  have hdigits : ∀ ds : List (Fin 10), c ∈ ds.map digitChar → c ≠ 'x' ∧ c ≠ 'X' := by
    intro ds h
    obtain ⟨d, -, rfl⟩ := List.mem_map.mp h
    exact ⟨(not_special_digitChar d).2.2.2.1, (not_special_digitChar d).2.2.2.2.1⟩
  simp only [text, List.mem_append] at hc
  rcases hc with h | h | h | h
  · exact hsign _ h
  · exact hdigits _ h
  · cases hf : lit.fraction with
    | none =>
        rw [hf] at h
        exact absurd h List.not_mem_nil
    | some f =>
        rw [hf, fractionText, List.mem_cons] at h
        rcases h with rfl | h
        · decide
        · exact hdigits _ h
  · cases he : lit.exponent with
    | none =>
        rw [he] at h
        exact absurd h List.not_mem_nil
    | some x =>
        rw [he, exponentText, ExponentPart.text, List.mem_cons, List.mem_append] at h
        rcases h with rfl | h | h
        · cases x.upper <;> decide
        · exact hsign _ h
        · exact hdigits _ h

/-- A literal is the longest one of its own text. -/
theorem longestPrefix_text (lit : DecimalLiteral) : LongestPrefix lit.text lit := by
  refine ⟨List.prefix_rfl, fun _ h => h.length_le, ?_⟩
  rintro ⟨sign, x, p, htext, hx, -⟩
  have hmem : x ∈ lit.text := by
    rw [htext]
    simp
  have hne := not_x_of_mem_text hmem
  exact hx.elim hne.1 hne.2

end DecimalLiteral

section Rest

variable {lit : DecimalLiteral} {rest : List Char}

theorem LongestPrefix.not_longer (h : LongestPrefix (lit.text ++ rest) lit)
    (more : List Char) (hmore : more ≠ []) (hpre : more <+: rest) :
    ∀ lit' : DecimalLiteral, lit'.text ≠ lit.text ++ more := by
  intro lit' heq
  have hle := h.longest lit' (by
    rw [heq]
    exact (List.prefix_append_right_inj _).mpr hpre)
  rw [heq, List.length_append] at hle
  have hpos := List.length_pos_iff.mpr hmore
  omega

/-- No digit follows the longest literal. -/
theorem LongestPrefix.head_not_digit (h : LongestPrefix (lit.text ++ rest) lit) :
    rest.head?.any isDigit = false := by
  cases rest with
  | nil => rfl
  | cons c rest =>
      by_contra hdigit
      rw [List.head?_cons, Option.any_some, Bool.not_eq_false] at hdigit
      obtain ⟨d, rfl⟩ := exists_digitChar hdigit
      have hno := h.not_longer [digitChar d] (List.cons_ne_nil _ _)
        (List.prefix_append [digitChar d] rest)
      obtain ⟨sign, whole, fraction, exponent, hsome⟩ := lit
      cases exponent with
      | some x =>
          apply hno ⟨sign, whole, fraction, some ⟨x.upper, x.sign, x.digits ++ [d],
            List.append_ne_nil_of_left_ne_nil x.digits_ne _⟩, hsome⟩
          simp [DecimalLiteral.text, DecimalLiteral.exponentText, ExponentPart.text]
      | none =>
          cases fraction with
          | some f =>
              apply hno ⟨sign, whole, some (f ++ [d]), none, by simp⟩
              simp [DecimalLiteral.text, DecimalLiteral.exponentText,
                DecimalLiteral.fractionText]
          | none =>
              apply hno ⟨sign, whole ++ [d], none, none, by simp⟩
              simp [DecimalLiteral.text, DecimalLiteral.exponentText,
                DecimalLiteral.fractionText]

/-- Without an exponent part of its own no exponent part follows. -/
theorem LongestPrefix.no_exponent (h : LongestPrefix (lit.text ++ rest) lit)
    (hexp : lit.exponent = none) (x : ExponentPart) : ¬ x.text <+: rest := by
  intro hpre
  apply h.not_longer _ (by simp [ExponentPart.text]) hpre
    ⟨lit.sign, lit.whole, lit.fraction, some x, lit.some_digit⟩
  simp [DecimalLiteral.text, DecimalLiteral.exponentText, hexp]

/-- Without a fraction and an exponent part no point follows. -/
theorem LongestPrefix.no_point (h : LongestPrefix (lit.text ++ rest) lit)
    (hexp : lit.exponent = none) (hfraction : lit.fraction = none) :
    ∀ p, rest ≠ '.' :: p := by
  rintro p rfl
  apply h.not_longer ['.'] (List.cons_ne_nil _ _) (List.prefix_append ['.'] p)
    ⟨lit.sign, lit.whole, some [], none, by
      have hsome := lit.some_digit
      rwa [hfraction] at hsome⟩
  simp [DecimalLiteral.text, DecimalLiteral.exponentText, DecimalLiteral.fractionText,
    hexp, hfraction]

end Rest

end Veron
