/-
Integers that stand for an exact value.  An arithmetic routine that throws low
bits away and keeps one sticky bit no longer holds the exact value, but its
integer still lies on the same side of every multiple of a coarse unit, and
that is all a later rounding asks for.
-/
import Mathlib.Algebra.Order.Field.Basic
import Mathlib.Algebra.Ring.Parity
import Mathlib.Data.Nat.Cast.Order.Field
import Mathlib.Tactic.Linarith
import Mathlib.Tactic.Ring
import Mathlib.Tactic.Positivity

namespace Veron

universe u

variable {K : Type u} [Field K] [LinearOrder K] [IsStrictOrderedRing K]

/-- `n` and the exact value `y` lie on the same side of every multiple of the
unit `g`. -/
def StandsFor (g n : ℕ) (y : K) : Prop :=
  ∀ m : ℕ, (m * g < n ↔ ((m * g : ℕ) : K) < y) ∧
    (n < m * g ↔ y < ((m * g : ℕ) : K))

omit [IsStrictOrderedRing K] in
theorem StandsFor.nonneg {g n : ℕ} {y : K} (h : StandsFor g n y) : 0 ≤ y := by
  have h0 := (h 0).2
  simp only [Nat.zero_mul, Nat.not_lt_zero, Nat.cast_zero, false_iff, not_lt] at h0
  exact h0

omit [IsStrictOrderedRing K] in
/-- Between multiples of the unit `n` and `y` share the lower one. -/
theorem StandsFor.le_iff {g n : ℕ} {y : K} (h : StandsFor g n y) (m : ℕ) :
    m * g ≤ n ↔ ((m * g : ℕ) : K) ≤ y := by
  rw [← not_lt, ← not_lt]
  exact not_congr (h m).2

theorem StandsFor.natCast (g n : ℕ) : StandsFor g n (n : K) :=
  fun _ => ⟨Nat.cast_lt.symm, Nat.cast_lt.symm⟩

omit [IsStrictOrderedRing K] in
/-- A coarser unit asks for less. -/
theorem StandsFor.of_dvd {g g' n : ℕ} {y : K} (h : StandsFor g n y)
    (hdvd : g ∣ g') : StandsFor g' n y := by
  obtain ⟨c, rfl⟩ := hdvd
  intro m
  have hm : m * (g * c) = (m * c) * g := by ring
  rw [hm]
  exact h (m * c)

theorem StandsFor.mul {g n : ℕ} {y : K} (h : StandsFor g n y) {c : ℕ}
    (hc : 0 < c) : StandsFor (c * g) (c * n) (c * y) := by
  intro m
  have hcK : (0 : K) < c := Nat.cast_pos.mpr hc
  have hm : m * (c * g) = c * (m * g) := by ring
  rw [hm, Nat.cast_mul, Nat.mul_lt_mul_left hc, Nat.mul_lt_mul_left hc,
    mul_lt_mul_iff_right₀ hcK, mul_lt_mul_iff_right₀ hcK]
  exact h m

/-- Adding a multiple of the unit moves both sides together. -/
theorem StandsFor.add_left {g n a : ℕ} {y : K} (h : StandsFor g n y)
    (hdvd : g ∣ a) : StandsFor g (a + n) (a + y) := by
  obtain ⟨c, rfl⟩ := hdvd
  intro m
  have hy := h.nonneg
  rcases Nat.le_total c m with hle | hle
  · obtain ⟨k, rfl⟩ := Nat.exists_eq_add_of_le hle
    have hk : (c + k) * g = g * c + k * g := by ring
    rw [hk, Nat.cast_add, add_lt_add_iff_left, add_lt_add_iff_left,
      add_lt_add_iff_left, add_lt_add_iff_left]
    exact h k
  · obtain ⟨k, rfl⟩ := Nat.exists_eq_add_of_le hle
    have hk := h 0
    have hsplit : g * (m + k) = m * g + k * g := by ring
    rw [hsplit, Nat.cast_add]
    rcases Nat.eq_zero_or_pos (k * g) with hzero | hpos
    · rw [hzero]
      simpa using hk
    · have hposK : (0 : K) < ((k * g : ℕ) : K) := Nat.cast_pos.mpr hpos
      constructor
      · exact iff_of_true (by omega) (by linarith)
      · exact iff_of_false (by omega) (by linarith)

/-- Subtracting from a multiple of the unit mirrors both sides together. -/
theorem StandsFor.sub_left {g n a : ℕ} {y : K} (h : StandsFor g n y)
    (hdvd : g ∣ a) (hle : n ≤ a) : StandsFor g (a - n) (a - y) := by
  obtain ⟨c, rfl⟩ := hdvd
  intro m
  have hy := h.nonneg
  rcases Nat.le_total m c with hmc | hcm
  · obtain ⟨k, rfl⟩ := Nat.exists_eq_add_of_le hmc
    have hk := h k
    have hsplit : g * (m + k) = m * g + k * g := by ring
    rw [hsplit] at hle ⊢
    rw [Nat.cast_add]
    constructor
    · rw [show (m * g < m * g + k * g - n ↔ n < k * g) by omega, hk.2]
      constructor <;> intro h <;> linarith
    · rw [show (m * g + k * g - n < m * g ↔ k * g < n) by omega, hk.1]
      constructor <;> intro h <;> linarith
  · obtain ⟨k, rfl⟩ := Nat.exists_eq_add_of_le hcm
    have hsplit : (c + k) * g = g * c + k * g := by ring
    rw [hsplit, Nat.cast_add]
    have hkK : (0 : K) ≤ ((k * g : ℕ) : K) := Nat.cast_nonneg _
    constructor
    · exact iff_of_false (by omega) (by linarith)
    · rcases Nat.eq_zero_or_pos (k * g) with hzero | hpos
      · rw [hzero, Nat.cast_zero]
        have hk0 := (h 0).1
        rw [Nat.zero_mul, Nat.cast_zero] at hk0
        rw [show (g * c - n < g * c + 0 ↔ 0 < n) by omega, hk0]
        constructor <;> intro h <;> linarith
      · have hposK : (0 : K) < ((k * g : ℕ) : K) := Nat.cast_pos.mpr hpos
        exact iff_of_true (by omega) (by linarith)

/-- A value strictly inside the first cell of width two is stood for by 1. -/
theorem StandsFor.one {y : K} (hpos : 0 < y) (hlt : y < 2) : StandsFor 2 1 y := by
  intro m
  rcases Nat.eq_zero_or_pos m with rfl | hm
  · simp [hpos, hpos.le]
  · have hmK : (2 : K) ≤ ((m * 2 : ℕ) : K) := by
      have : 2 ≤ m * 2 := by omega
      exact_mod_cast this
    exact ⟨iff_of_false (by omega) (by linarith), iff_of_true (by omega) (by linarith)⟩

/-- Shift right by `k`, folding what falls off into the low bit. -/
def jam (k n : ℕ) : ℕ :=
  n / 2 ^ k ||| if n % 2 ^ k = 0 then 0 else 1

theorem or_one_eq (q : ℕ) : q ||| 1 = 2 * (q / 2) + 1 := by
  have hdiv : (q ||| 1) / 2 = q / 2 := by
    rw [Nat.or_div_two]
    simp
  have hmod : (q ||| 1) % 2 = 1 := Nat.or_mod_two_eq_one.mpr (Or.inr rfl)
  omega

/-- The sticky bit only moves an even quotient up to the next odd number. -/
theorem jam_eq (k n : ℕ) :
    jam k n = n / 2 ^ k +
      if n % 2 ^ k ≠ 0 ∧ n / 2 ^ k % 2 = 0 then 1 else 0 := by
  unfold jam
  generalize n / 2 ^ k = q
  by_cases hr : n % 2 ^ k = 0
  · simp [hr]
  · simp only [hr, ↓reduceIte, ne_eq, not_false_eq_true, true_and, or_one_eq]
    split_ifs <;> omega

theorem jam_sides (k n m : ℕ) :
    (m * 2 < jam k n ↔ m * 2 ^ (k + 1) < n) ∧
      (jam k n < m * 2 ↔ n < m * 2 ^ (k + 1)) := by
  have hpow : 0 < 2 ^ k := Nat.two_pow_pos k
  have hunit : m * 2 ^ (k + 1) = m * 2 * 2 ^ k := by rw [pow_succ]; ring
  have hle : m * 2 ≤ n / 2 ^ k ↔ m * 2 * 2 ^ k ≤ n := Nat.le_div_iff_mul_le hpow
  have hsplit : 2 ^ k * (n / 2 ^ k) + n % 2 ^ k = n := Nat.div_add_mod n (2 ^ k)
  have heq : m * 2 = n / 2 ^ k → (m * 2 * 2 ^ k = n ↔ n % 2 ^ k = 0) := by
    intro h
    rw [h, Nat.mul_comm (n / 2 ^ k)]
    omega
  have hexact : m * 2 * 2 ^ k = n → m * 2 = n / 2 ^ k := by
    intro h
    rw [← h, Nat.mul_div_cancel _ hpow]
  rw [jam_eq, hunit]
  split_ifs with hjam <;> constructor <;> constructor <;> intro h <;> omega

/-- Folding into the sticky bit keeps the side of every even number. -/
theorem StandsFor.jam {k n : ℕ} {y : K} (h : StandsFor (2 ^ (k + 1)) n y) :
    StandsFor 2 (Veron.jam k n) (y / 2 ^ k) := by
  intro m
  have hpow : (0 : K) < 2 ^ k := by positivity
  have hm := h m
  have hunit : ((m * 2 ^ (k + 1) : ℕ) : K) = ((m * 2 : ℕ) : K) * 2 ^ k := by
    push_cast
    rw [pow_succ]
    ring
  rw [(jam_sides k n m).1, (jam_sides k n m).2, hm.1, hm.2, hunit,
    lt_div_iff₀ hpow, div_lt_iff₀ hpow]
  exact ⟨Iff.rfl, Iff.rfl⟩

/-- A truncated quotient with its remainder folded into the sticky bit. -/
def stick (q r : ℕ) : ℕ :=
  q ||| if r = 0 then 0 else 1

theorem stick_eq (q r : ℕ) :
    stick q r = q + if r ≠ 0 ∧ q % 2 = 0 then 1 else 0 := by
  unfold stick
  by_cases hr : r = 0
  · simp [hr]
  · simp only [hr, ↓reduceIte, ne_eq, not_false_eq_true, true_and, or_one_eq]
    split_ifs <;> omega

/-- The quotient with a sticky remainder lies on the quotient's side of every
even number. -/
theorem StandsFor.stick {q r d n : ℕ} (hdiv : q * d + r = n) (hr : r < d) :
    StandsFor 2 (Veron.stick q r) ((n : K) / d) := by
  have hd : 0 < d := by omega
  have hdK : (0 : K) < d := Nat.cast_pos.mpr hd
  intro m
  have hlt : ((m * 2 : ℕ) : K) < (n : K) / d ↔ m * 2 * d < n := by
    rw [lt_div_iff₀ hdK]
    exact_mod_cast Iff.rfl
  have hgt : (n : K) / d < ((m * 2 : ℕ) : K) ↔ n < m * 2 * d := by
    rw [div_lt_iff₀ hdK]
    exact_mod_cast Iff.rfl
  rw [hlt, hgt, stick_eq, ← hdiv]
  rcases Nat.lt_trichotomy (m * 2) q with h | rfl | h
  · -- a whole divisor below
    have hstep : (m * 2 + 1) * d ≤ q * d := Nat.mul_le_mul_right d h
    rw [Nat.add_mul, Nat.one_mul] at hstep
    constructor
    · exact iff_of_true (by omega) (by omega)
    · exact iff_of_false (by omega) (by omega)
  · constructor <;> split_ifs <;> omega
  · have hstep : (q + 1) * d ≤ m * 2 * d := Nat.mul_le_mul_right d h
    rw [Nat.add_mul, Nat.one_mul] at hstep
    constructor
    · exact iff_of_false (by split_ifs <;> omega) (by omega)
    · exact iff_of_true (by split_ifs <;> omega) (by omega)

/-- `q` is the whole part of `z`, and `sticky` tells whether anything was cut
off. -/
structure Cut (q : ℕ) (sticky : Bool) (z : K) : Prop where
  le : (q : K) ≤ z
  lt : z < q + 1
  exact_iff : sticky = false ↔ z = q

theorem Cut.natCast (n : ℕ) : Cut n false (n : K) :=
  ⟨le_rfl, lt_add_one _, iff_of_true rfl rfl⟩

theorem Cut.of_div {q r d n : ℕ} (hdiv : q * d + r = n) (hr : r < d) :
    Cut q (decide (r ≠ 0)) ((n : K) / d) := by
  have hd : (0 : K) < d := Nat.cast_pos.mpr (by omega)
  have hn : (n : K) = q * d + r := by rw [← hdiv]; push_cast; rfl
  have hrK : (r : K) < d := Nat.cast_lt.mpr hr
  have hr0 : (0 : K) ≤ r := Nat.cast_nonneg r
  refine ⟨?_, ?_, ?_⟩
  · rw [le_div_iff₀ hd, hn]
    linarith
  · rw [div_lt_iff₀ hd, hn]
    linarith
  · rw [div_eq_iff hd.ne', hn, decide_eq_false_iff_not, not_not, ← Nat.cast_eq_zero (R := K)]
    constructor <;> intro h <;> linarith

/-- Dropping low bits of the whole part only adds to what was cut off. -/
theorem Cut.shift {q : ℕ} {sticky : Bool} {z : K} (h : Cut q sticky z) (k : ℕ) :
    Cut (q / 2 ^ k) (sticky || decide (q % 2 ^ k ≠ 0)) (z / 2 ^ k) := by
  have hpow : (0 : K) < 2 ^ k := by positivity
  have hsplit : (q : K) = 2 ^ k * (q / 2 ^ k : ℕ) + (q % 2 ^ k : ℕ) := by
    conv_lhs => rw [← Nat.div_add_mod q (2 ^ k)]
    push_cast
    rfl
  have hmod : ((q % 2 ^ k : ℕ) : K) + 1 ≤ 2 ^ k := by
    exact_mod_cast Nat.mod_lt q (Nat.two_pow_pos k)
  have hmod0 : (0 : K) ≤ (q % 2 ^ k : ℕ) := Nat.cast_nonneg _
  have hle := h.le
  have hlt := h.lt
  refine ⟨?_, ?_, ?_⟩
  · rw [le_div_iff₀ hpow]
    linarith
  · rw [div_lt_iff₀ hpow]
    linarith
  · rw [Bool.or_eq_false_iff, h.exact_iff, decide_eq_false_iff_not, not_not,
      div_eq_iff hpow.ne', ← Nat.cast_eq_zero (R := K)]
    constructor
    · rintro ⟨hz, hr⟩
      linarith
    · intro hz
      have hr : ((q % 2 ^ k : ℕ) : K) = 0 := by linarith
      exact ⟨by linarith, hr⟩

/-- A cut with its sticky bit kept one place below decides every comparison
with a multiple of the unit. -/
theorem Cut.standsFor {q : ℕ} {sticky : Bool} {z : K} (h : Cut q sticky z) :
    StandsFor 4 (4 * q + 2 * sticky.toNat) (4 * z) := by
  have hle := h.le
  have hlt := h.lt
  have hexact := h.exact_iff
  intro m
  have hcast : ((m * 4 : ℕ) : K) = 4 * (m : K) := by push_cast; ring
  rw [hcast]
  rcases Nat.lt_trichotomy m q with hmq | rfl | hmq
  · have hmK : (m : K) + 1 ≤ q := by exact_mod_cast hmq
    constructor
    · exact iff_of_true (by omega) (by linarith)
    · exact iff_of_false (by omega) (by linarith)
  · cases sticky with
    | false =>
        have hz := hexact.mp rfl
        rw [hz]
        simp [Nat.mul_comm]
    | true =>
        have hz : z ≠ m := fun hz => Bool.noConfusion (hexact.mpr hz)
        have hpos : (m : K) < z := lt_of_le_of_ne hle hz.symm
        simp only [Bool.toNat_true]
        constructor
        · exact iff_of_true (by omega) (by linarith)
        · exact iff_of_false (by omega) (by linarith)
  · have hmK : (q : K) + 1 ≤ m := by exact_mod_cast hmq
    have hst : sticky.toNat ≤ 1 := Bool.toNat_le sticky
    constructor
    · exact iff_of_false (by omega) (by linarith)
    · exact iff_of_true (by omega) (by linarith)

end Veron
