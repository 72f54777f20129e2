/-
Digits of a fixed number, most significant first, and how the digits of one base
are cut anew into digits of another when both are powers of two.
-/
import Mathlib.Algebra.Order.Ring.Nat
import Mathlib.Data.List.Induction
import Mathlib.Tactic.Ring

namespace Veron.Radix

/-- The number some digits stand for, most significant first. -/
def value (b : ℕ) (ds : List ℕ) : ℕ := ds.foldl (fun n d => n * b + d) 0

/-- The last `k` digits of a number, most significant first. -/
def digitsOf (b : ℕ) : ℕ → ℕ → List ℕ
  | 0, _ => []
  | k + 1, n => digitsOf b k (n / b) ++ [n % b]

variable {b : ℕ}

@[simp] theorem value_nil (b : ℕ) : value b [] = 0 := rfl

@[simp] theorem value_snoc (b : ℕ) (ds : List ℕ) (d : ℕ) :
    value b (ds ++ [d]) = value b ds * b + d := by
  rw [value, List.foldl_append]
  rfl

@[simp] theorem digitsOf_length (b k n : ℕ) : (digitsOf b k n).length = k := by
  induction k generalizing n with
  | zero => rfl
  | succ k ih => rw [digitsOf, List.length_append, ih, List.length_singleton]

theorem lt_of_mem_digitsOf (hb : 0 < b) {k n d : ℕ} (h : d ∈ digitsOf b k n) : d < b := by
  induction k generalizing n with
  | zero => cases h
  | succ k ih =>
      rcases List.mem_append.mp h with h | h
      · exact ih h
      · rw [List.mem_singleton.mp h]
        exact Nat.mod_lt n hb

theorem value_lt {ds : List ℕ} (h : ∀ d ∈ ds, d < b) : value b ds < b ^ ds.length := by
  induction ds using List.reverseRecOn with
  | nil => exact Nat.one_pos
  | append_singleton ds d ih =>
      have hd := h d (by simp)
      have hds := ih fun e he => h e (by simp [he])
      rw [value_snoc, List.length_append, List.length_singleton, Nat.pow_succ]
      calc value b ds * b + d < value b ds * b + b := Nat.add_lt_add_left hd _
        _ = (value b ds + 1) * b := by ring
        _ ≤ b ^ ds.length * b := Nat.mul_le_mul_right b hds

theorem value_digitsOf (b k n : ℕ) : value b (digitsOf b k n) = n % b ^ k := by
  induction k generalizing n with
  | zero => rw [digitsOf, value_nil, Nat.pow_zero, Nat.mod_one]
  | succ k ih =>
      rw [digitsOf, value_snoc, ih, Nat.pow_succ, Nat.mul_comm (b ^ k), Nat.mod_mul, Nat.add_comm,
        Nat.mul_comm]

theorem digitsOf_value {ds : List ℕ} (h : ∀ d ∈ ds, d < b) :
    digitsOf b ds.length (value b ds) = ds := by
  induction ds using List.reverseRecOn with
  | nil => rfl
  | append_singleton ds d ih =>
      have hd := h d (by simp)
      have hdiv : (value b ds * b + d) / b = value b ds := by
        rw [Nat.add_comm, Nat.add_mul_div_right _ _ (by omega), Nat.div_eq_of_lt hd, Nat.zero_add]
      have hmod : (value b ds * b + d) % b = d := by
        rw [Nat.add_comm, Nat.add_mul_mod_self_right, Nat.mod_eq_of_lt hd]
      rw [value_snoc, List.length_append, List.length_singleton, digitsOf, hdiv, hmod,
        ih fun e he => h e (by simp [he])]

/-- Digits of `s` bits each, filled up with `p` zero bits and cut into digits of `t`
bits each, are found again above these `p` bits. -/
theorem digitsOf_regroup {s t n p : ℕ} {ds : List ℕ} (h : ∀ d ∈ ds, d < 2 ^ s)
    (hbits : t * n = s * ds.length + p) :
    digitsOf (2 ^ s) ds.length
      (value (2 ^ t) (digitsOf (2 ^ t) n (value (2 ^ s) ds * 2 ^ p)) / 2 ^ p) = ds := by
  have hlt : value (2 ^ s) ds * 2 ^ p < (2 ^ t) ^ n := by
    rw [← Nat.pow_mul, hbits, Nat.pow_add, Nat.pow_mul]
    exact Nat.mul_lt_mul_of_pos_right (value_lt h) (Nat.two_pow_pos p)
  rw [value_digitsOf, Nat.mod_eq_of_lt hlt, Nat.mul_div_cancel _ (Nat.two_pow_pos p),
    digitsOf_value h]

end Veron.Radix
