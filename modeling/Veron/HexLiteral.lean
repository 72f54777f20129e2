/-
Hexadecimal literals, `[sign] 0x digits [. digits] [p [sign] decimal digits]` with
at least one digit before the exponent, and the number they write.
-/
import Veron.DecimalLiteral

namespace Veron

open Strtod

/-- A hexadecimal digit, in either case. -/
structure HexDigit where
  value : Fin 16
  upper : Bool

def HexDigit.char (d : HexDigit) : Char :=
  if d.upper then (Nat.digitChar d.value).toUpper else Nat.digitChar d.value

/-- In lower case. -/
def lastHexDigit (n : ℕ) : HexDigit := ⟨⟨n % 16, Nat.mod_lt n (Nat.succ_pos 15)⟩, false⟩

/-- A literal; a sign is `some true` for a minus and `some false` for a plus. -/
structure HexLiteral where
  sign : Option Bool
  upper : Bool
  whole : List HexDigit
  fraction : Option (List HexDigit)
  exponent : Option ExponentPart
  some_digit : whole ++ fraction.getD [] ≠ []

namespace HexLiteral

def fractionText : Option (List HexDigit) → List Char
  | none => []
  | some f => '.' :: f.map HexDigit.char

/-- The exponent part, which counts powers of two. -/
def exponentText : Option ExponentPart → List Char
  | none => []
  | some x => (if x.upper then 'P' else 'p') :: (signText x.sign ++ x.digits.map digitChar)

/-- The text behind the sign and the `0x`. -/
def body (lit : HexLiteral) : List Char :=
  lit.whole.map HexDigit.char ++ (fractionText lit.fraction ++ exponentText lit.exponent)

def text (lit : HexLiteral) : List Char :=
  signText lit.sign ++ '0' :: (if lit.upper then 'X' else 'x') :: lit.body

def neg (lit : HexLiteral) : Bool := lit.sign.getD false

/-- All digits before the exponent part. -/
def digits (lit : HexLiteral) : List ℕ :=
  (lit.whole ++ lit.fraction.getD []).map fun d => d.value.val

def fractionLength (lit : HexLiteral) : ℕ := (lit.fraction.getD []).length

def expNeg (lit : HexLiteral) : Bool :=
  match lit.exponent with
  | none => false
  | some x => x.sign.getD false

/-- The absolute value of the exponent. -/
def expAbs (lit : HexLiteral) : ℕ :=
  match lit.exponent with
  | none => 0
  | some x => decimal (x.digits.map Fin.val)

/-- The magnitude the literal would have with `e` for the absolute value of its
exponent. -/
def magAt (lit : HexLiteral) (e : ℕ) : ℚ :=
  numeral 16 lit.digits * 2 ^ ((if lit.expNeg then -(e : ℤ) else e) - 4 * lit.fractionLength)

/-- The exact magnitude of the literal. -/
def mag (lit : HexLiteral) : ℚ := lit.magAt lit.expAbs

variable {lit : HexLiteral}

theorem digits_lt (lit : HexLiteral) : ∀ d ∈ lit.digits, d < 16 := by
  intro d hd
  obtain ⟨e, -, rfl⟩ := List.mem_map.mp hd
  exact e.value.isLt

theorem length_digits_le (lit : HexLiteral) : lit.digits.length ≤ lit.text.length := by
  unfold digits text body
  cases lit.fraction with
  | none =>
      simp [fractionText]
      omega
  | some f =>
      simp [fractionText]
      omega

theorem fractionLength_le (lit : HexLiteral) : lit.fractionLength ≤ lit.digits.length := by
  simp [fractionLength, digits]

theorem magAt_of_zero (h : numeral 16 lit.digits = 0) (e : ℕ) : lit.magAt e = 0 := by
  rw [magAt, h, Nat.cast_zero, zero_mul]

end HexLiteral

theorem ishex_char (d : HexDigit) : ishex d.char = true := by
  obtain ⟨v, u⟩ := d
  revert v u
  decide

theorem hexval_char (d : HexDigit) : hexval d.char = d.value := by
  obtain ⟨v, u⟩ := d
  revert v u
  decide

end Veron
