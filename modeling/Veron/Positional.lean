/-
Numbers written in a positional system.  The digits are a function of the
index, least significant first, and only the first `n` of them count.
-/
import Mathlib.Algebra.BigOperators.Group.Finset.Basic
import Mathlib.Algebra.Order.Group.Nat
import Mathlib.Tactic.Ring

namespace Veron

/-- The number whose digits to base `B` are `f 0, ..., f (n - 1)`. -/
def positional (B : ℕ) (f : ℕ → ℕ) (n : ℕ) : ℕ :=
  ∑ i ∈ Finset.range n, f i * B ^ i

variable {B : ℕ} {f g : ℕ → ℕ} {n : ℕ}

@[simp] theorem positional_zero (B : ℕ) (f : ℕ → ℕ) : positional B f 0 = 0 := rfl

theorem positional_succ (B : ℕ) (f : ℕ → ℕ) (n : ℕ) :
    positional B f (n + 1) = positional B f n + f n * B ^ n :=
  Finset.sum_range_succ _ n

theorem positional_congr (h : ∀ i < n, f i = g i) :
    positional B f n = positional B g n := by
  apply Finset.sum_congr rfl
  intro i hi
  rw [h i (Finset.mem_range.mp hi)]

theorem positional_lt (hf : ∀ i < n, f i < B) : positional B f n < B ^ n := by
  induction n with
  | zero => simp
  | succ n ih =>
      have hlow := ih fun i hi => hf i (Nat.lt_succ_of_lt hi)
      have htop : (f n + 1) * B ^ n ≤ B * B ^ n :=
        Nat.mul_le_mul_right _ (hf n (Nat.lt_succ_self n))
      rw [Nat.add_mul, Nat.one_mul] at htop
      rw [positional_succ, pow_succ, Nat.mul_comm (B ^ n)]
      omega

/-- Zero digits at the top do not count. -/
theorem positional_extend {m : ℕ} (hnm : n ≤ m)
    (hzero : ∀ i, n ≤ i → i < m → f i = 0) : positional B f m = positional B f n := by
  induction m, hnm using Nat.le_induction with
  | base => rfl
  | succ m hnm ih =>
      rw [positional_succ, hzero m hnm (Nat.lt_succ_self m), Nat.zero_mul, Nat.add_zero]
      exact ih fun i hi him => hzero i hi (Nat.lt_succ_of_lt him)

theorem positional_le_extend {m : ℕ} (hnm : n ≤ m) :
    positional B f n ≤ positional B f m := by
  induction m, hnm using Nat.le_induction with
  | base => exact le_rfl
  | succ m _ ih =>
      rw [positional_succ]
      omega

/-- One nonzero digit already bounds the number from below. -/
theorem pow_le_positional {i : ℕ} (hi : i < n) (hne : f i ≠ 0) :
    B ^ i ≤ positional B f n := by
  have hdigit : 1 * B ^ i ≤ f i * B ^ i :=
    Nat.mul_le_mul_right _ (Nat.pos_of_ne_zero hne)
  have hupto := positional_le_extend (B := B) (f := f) (Nat.succ_le_of_lt hi)
  rw [positional_succ] at hupto
  omega

/-- Digits below `i` only reach the remainder, digits from `i` on only the
quotient. -/
theorem positional_split (i m : ℕ) :
    positional B f (i + m) =
      positional B f i + positional B (fun j => f (i + j)) m * B ^ i := by
  induction m with
  | zero => simp
  | succ m ih =>
      rw [← Nat.add_assoc, positional_succ, positional_succ, ih, pow_add]
      ring

theorem digit_eq (hf : ∀ i < n, f i < B) {i : ℕ} (hi : i < n) :
    f i = positional B f n / B ^ i % B := by
  obtain ⟨m, rfl⟩ := Nat.exists_eq_add_of_lt hi
  have hlow : positional B f i < B ^ i :=
    positional_lt fun j hj => hf j (Nat.lt_trans hj hi)
  have hpos : 0 < B ^ i := Nat.zero_lt_of_lt hlow
  have hsplit := positional_split (B := B) (f := f) i (1 + m)
  have hhigh := positional_split (B := B) (f := fun j => f (i + j)) 1 m
  rw [positional_succ, positional_zero, Nat.zero_add, pow_zero, Nat.mul_one,
    Nat.add_zero, pow_one] at hhigh
  rw [show i + m + 1 = i + (1 + m) by omega, hsplit,
    Nat.add_mul_div_right _ _ hpos, Nat.div_eq_of_lt hlow, Nat.zero_add, hhigh,
    Nat.add_mul_mod_self_right, Nat.mod_eq_of_lt (hf i hi)]

/-- The highest differing digit decides. -/
theorem positional_lt_of_top {i : ℕ} (hf : ∀ j < n, f j < B) (hi : i < n)
    (hlt : f i < g i) (htop : ∀ j, i < j → j < n → f j = g j) :
    positional B f n < positional B g n := by
  induction n with
  | zero => omega
  | succ n ih =>
      rw [positional_succ, positional_succ]
      rcases Nat.lt_or_ge i n with hin | hin
      · have hlow := ih (fun j hj => hf j (Nat.lt_succ_of_lt hj)) hin
          fun j hij hj => htop j hij (Nat.lt_succ_of_lt hj)
        rw [htop n hin (Nat.lt_succ_self n)]
        omega
      · obtain rfl : i = n := by omega
        have hlow : positional B f i < B ^ i :=
          positional_lt fun j hj => hf j (Nat.lt_succ_of_lt hj)
        have hstep : (f i + 1) * B ^ i ≤ g i * B ^ i := Nat.mul_le_mul_right _ hlt
        rw [Nat.add_mul, Nat.one_mul] at hstep
        omega

theorem positional_eq_zero_iff (hB : 0 < B) :
    positional B f n = 0 ↔ ∀ i < n, f i = 0 := by
  constructor
  · intro h i hi
    by_contra hne
    have hpow : 0 < B ^ i := Nat.pow_pos hB
    have hle := pow_le_positional (B := B) hi hne
    omega
  · intro h
    rw [positional_extend (Nat.zero_le n) fun i _ hi => h i hi]
    exact positional_zero B f

end Veron
