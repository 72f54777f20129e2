/-
Numbers written as lists of digits, most significant first, to any base.
-/
import Mathlib.Data.Nat.Digits.Defs
import Mathlib.Tactic.Ring

namespace Veron

variable {B : ℕ}

/-- The number a list of digits writes to base `B`, most significant first. -/
def numeral (B : ℕ) (dig : List ℕ) : ℕ := Nat.ofDigits B dig.reverse

theorem numeral_append (B : ℕ) (a b : List ℕ) :
    numeral B (a ++ b) = numeral B a * B ^ b.length + numeral B b := by
  rw [numeral, List.reverse_append, Nat.ofDigits_append, List.length_reverse]
  unfold numeral
  ring

theorem numeral_cons (B d : ℕ) (dig : List ℕ) :
    numeral B (d :: dig) = d * B ^ dig.length + numeral B dig := by
  have h := numeral_append B [d] dig
  simpa [numeral] using h

theorem numeral_lt {dig : List ℕ} (hdig : ∀ d ∈ dig, d < B) :
    numeral B dig < B ^ dig.length := by
  induction dig with
  | nil => simp [numeral]
  | cons d dig ih =>
      have hd : d < B := hdig d List.mem_cons_self
      have hrest := ih fun e he => hdig e (List.mem_cons_of_mem d he)
      have hstep : (d + 1) * B ^ dig.length ≤ B * B ^ dig.length :=
        Nat.mul_le_mul_right _ hd
      rw [Nat.add_mul, Nat.one_mul] at hstep
      rw [numeral_cons, List.length_cons, pow_succ, Nat.mul_comm _ B]
      omega

/-- A nonzero leading digit fixes the order of magnitude. -/
theorem le_numeral {d : ℕ} {dig : List ℕ} (hd : d ≠ 0) :
    B ^ dig.length ≤ numeral B (d :: dig) := by
  have h : 1 * B ^ dig.length ≤ d * B ^ dig.length :=
    Nat.mul_le_mul_right _ (Nat.pos_of_ne_zero hd)
  rw [numeral_cons]
  omega

theorem numeral_eq_zero_iff (hB : B ≠ 0) (dig : List ℕ) :
    numeral B dig = 0 ↔ ∀ d ∈ dig, d = 0 := by
  induction dig with
  | nil => simp [numeral]
  | cons d dig ih => simp [numeral_cons, ih, hB]

end Veron
