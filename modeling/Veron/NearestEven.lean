/-
Rounding to the nearest point of an increasing grid, ties to the point whose
index is even.  Nothing here depends on what the grid points are: a floating
point format is one instance, with the bit pattern as the index.
-/
import Mathlib.Algebra.Order.Field.Basic
import Mathlib.Algebra.Ring.Parity
import Mathlib.Order.Monotone.Basic
import Mathlib.Tactic.Linarith
import Mathlib.Tactic.Ring

namespace Veron

universe u

variable {K : Type u} [Field K] [LinearOrder K] [IsStrictOrderedRing K]

/-- `b` indexes the point of `grid 0, ..., grid last` nearest to `x`, and when
another point is as near, `b` is even. -/
structure NearestEven (grid : ℕ → K) (last : ℕ) (x : K) (b : ℕ) : Prop where
  le_last : b ≤ last
  nearest : ∀ c ≤ last, |x - grid b| ≤ |x - grid c|
  even_of_tie : ∀ c ≤ last, c ≠ b → |x - grid c| = |x - grid b| → Even b

/-- Of two points the upper one is at least as near exactly from the midpoint
on. -/
theorem abs_sub_le_abs_sub_iff {x u w : K} (huw : u < w) :
    |x - w| ≤ |x - u| ↔ u + w ≤ 2 * x := by
  rw [← sq_le_sq]
  have hpos : 0 < w - u := sub_pos.mpr huw
  have hdiff : (x - u) ^ 2 - (x - w) ^ 2 = (w - u) * (2 * x - (u + w)) := by ring
  constructor
  · intro h
    have hnonneg : 0 ≤ (w - u) * (2 * x - (u + w)) := by linarith
    have := nonneg_of_mul_nonneg_right hnonneg hpos
    linarith
  · intro h
    have := mul_nonneg hpos.le (sub_nonneg.mpr h)
    linarith

theorem abs_sub_le_abs_sub_iff' {x u w : K} (huw : u < w) :
    |x - u| ≤ |x - w| ↔ 2 * x ≤ u + w := by
  have hneg := abs_sub_le_abs_sub_iff (x := -x) (neg_lt_neg huw)
  have hu : |-x - -u| = |x - u| := by rw [← abs_neg]; congr 1; ring
  have hw : |-x - -w| = |x - w| := by rw [← abs_neg]; congr 1; ring
  rw [hu, hw] at hneg
  rw [hneg]
  constructor <;> intro h <;> linarith

theorem abs_sub_eq_abs_sub_iff {x u w : K} (huw : u < w) :
    |x - u| = |x - w| ↔ u + w = 2 * x := by
  rw [le_antisymm_iff, abs_sub_le_abs_sub_iff huw, abs_sub_le_abs_sub_iff' huw,
    le_antisymm_iff]
  exact and_comm

section Grid

variable {grid : ℕ → K} {last : ℕ}

/-- The index is decided by the midpoints to the two neighbours alone. -/
theorem NearestEven.of_midpoints (hmono : StrictMono grid) {x : K} {b : ℕ}
    (hb : b ≤ last)
    (hlow : ∀ c, c + 1 = b →
      grid c + grid b < 2 * x ∨ (grid c + grid b = 2 * x ∧ Even b))
    (hhigh : b + 1 ≤ last →
      2 * x < grid b + grid (b + 1) ∨
        (2 * x = grid b + grid (b + 1) ∧ Even b)) :
    NearestEven grid last x b := by
  have hbelow : ∀ c < b, grid c + grid b < 2 * x ∨
      (grid c + grid b = 2 * x ∧ Even b) := by
    intro c hc
    have hpred : b - 1 + 1 = b := by omega
    have hle : grid c ≤ grid (b - 1) := hmono.monotone (by omega)
    rcases hlow (b - 1) hpred with hlt | ⟨heq, heven⟩
    · exact Or.inl (by linarith)
    · rcases hle.lt_or_eq with hlt | hceq
      · exact Or.inl (by linarith)
      · exact Or.inr ⟨by rw [hceq]; exact heq, heven⟩
  have habove : ∀ c ≤ last, b < c → 2 * x < grid b + grid c ∨
      (2 * x = grid b + grid c ∧ Even b) := by
    intro c hc hbc
    have hle : grid (b + 1) ≤ grid c := hmono.monotone hbc
    rcases hhigh (by omega) with hlt | ⟨heq, heven⟩
    · exact Or.inl (by linarith)
    · rcases hle.lt_or_eq with hlt | hceq
      · exact Or.inl (by linarith)
      · exact Or.inr ⟨by rw [← hceq]; exact heq, heven⟩
  refine ⟨hb, ?_, ?_⟩
  · intro c hc
    rcases lt_trichotomy c b with hcb | rfl | hbc
    · rw [abs_sub_le_abs_sub_iff (hmono hcb)]
      rcases hbelow c hcb with h | ⟨h, _⟩
      · exact h.le
      · exact h.le
    · exact le_rfl
    · rw [abs_sub_le_abs_sub_iff' (hmono hbc)]
      rcases habove c hc hbc with h | ⟨h, _⟩
      · exact h.le
      · exact h.le
  · intro c hc hne htie
    rcases Nat.lt_or_gt_of_ne hne with hcb | hbc
    · rw [abs_sub_eq_abs_sub_iff (hmono hcb)] at htie
      rcases hbelow c hcb with h | ⟨_, heven⟩
      · exact absurd htie h.ne
      · exact heven
    · rw [eq_comm, abs_sub_eq_abs_sub_iff (hmono hbc)] at htie
      rcases habove c hc hbc with h | ⟨_, heven⟩
      · exact absurd htie.symm h.ne
      · exact heven

theorem NearestEven.low_midpoint (hmono : StrictMono grid) {x : K} {b c : ℕ}
    (h : NearestEven grid last x b) (hcb : c < b) :
    grid c + grid b < 2 * x ∨ (grid c + grid b = 2 * x ∧ Even b) := by
  have hc : c ≤ last := (Nat.le_of_lt hcb).trans h.le_last
  have hle := (abs_sub_le_abs_sub_iff (hmono hcb)).mp (h.nearest c hc)
  rcases hle.lt_or_eq with hlt | heq
  · exact Or.inl hlt
  · have htie := (abs_sub_eq_abs_sub_iff (hmono hcb)).mpr heq
    exact Or.inr ⟨heq, h.even_of_tie c hc hcb.ne htie⟩

theorem NearestEven.high_midpoint (hmono : StrictMono grid) {x : K} {b c : ℕ}
    (h : NearestEven grid last x b) (hbc : b < c) (hc : c ≤ last) :
    2 * x < grid b + grid c ∨ (2 * x = grid b + grid c ∧ Even b) := by
  have hle := (abs_sub_le_abs_sub_iff' (hmono hbc)).mp (h.nearest c hc)
  rcases hle.lt_or_eq with hlt | heq
  · exact Or.inl hlt
  · have htie := (abs_sub_eq_abs_sub_iff (hmono hbc)).mpr heq.symm
    exact Or.inr ⟨heq, h.even_of_tie c hc hbc.ne' htie.symm⟩

/-- Rounding never reorders: the argument that makes the result unique and
constant between two midpoints. -/
theorem NearestEven.mono (hmono : StrictMono grid) {x y : K} {b c : ℕ}
    (hx : NearestEven grid last x b) (hy : NearestEven grid last y c)
    (hxy : x ≤ y) : b ≤ c := by
  by_contra hcb
  have hcb : c < b := Nat.lt_of_not_le hcb
  have hlow := hx.low_midpoint hmono hcb
  have hhigh := hy.high_midpoint hmono hcb hx.le_last
  rcases hlow with hlow | ⟨hlow, hbeven⟩
  · rcases hhigh with hhigh | ⟨hhigh, _⟩ <;> linarith
  · rcases hhigh with hhigh | ⟨_, hceven⟩
    · linarith
    · -- both ends of a tie are even, so a third point lies strictly between
      have hgap : c + 1 < b := by
        rcases hbeven with ⟨i, hi⟩
        rcases hceven with ⟨j, hj⟩
        omega
      have hbetween := hx.low_midpoint hmono hgap
      have hstep : grid c < grid (c + 1) := hmono (Nat.lt_succ_self c)
      rcases hbetween with h | ⟨h, _⟩ <;> linarith

theorem NearestEven.unique (hmono : StrictMono grid) {x : K} {b c : ℕ}
    (hb : NearestEven grid last x b) (hc : NearestEven grid last x c) : b = c :=
  Nat.le_antisymm (hb.mono hmono hc le_rfl) (hc.mono hmono hb le_rfl)

/-- Two values on the same side of every midpoint round alike. -/
theorem NearestEven.congr (hmono : StrictMono grid) {x y : K} {b : ℕ}
    (hb : NearestEven grid last x b)
    (hside : ∀ c, c + 1 ≤ last →
      (grid c + grid (c + 1) < 2 * x ↔ grid c + grid (c + 1) < 2 * y) ∧
        (2 * x < grid c + grid (c + 1) ↔ 2 * y < grid c + grid (c + 1))) :
    NearestEven grid last y b := by
  apply NearestEven.of_midpoints hmono hb.le_last
  · rintro c rfl
    have hs := hside c hb.le_last
    rcases hb.low_midpoint hmono (Nat.lt_succ_self c) with h | ⟨h, heven⟩
    · exact Or.inl (hs.1.mp h)
    · refine Or.inr ⟨le_antisymm ?_ ?_, heven⟩
      · exact not_lt.mp fun hlt => absurd (hs.2.mpr hlt) (by rw [h]; exact lt_irrefl _)
      · exact not_lt.mp fun hlt => absurd (hs.1.mpr hlt) (by rw [h]; exact lt_irrefl _)
  · intro hle
    have hs := hside b hle
    rcases hb.high_midpoint hmono (Nat.lt_succ_self b) hle with h | ⟨h, heven⟩
    · exact Or.inl (hs.2.mp h)
    · refine Or.inr ⟨le_antisymm ?_ ?_, heven⟩
      · exact not_lt.mp fun hlt => absurd (hs.1.mpr hlt) (by rw [h]; exact lt_irrefl _)
      · exact not_lt.mp fun hlt => absurd (hs.2.mpr hlt) (by rw [h]; exact lt_irrefl _)

/-- A point of the grid is its own rounding. -/
theorem NearestEven.self (hmono : StrictMono grid) {b : ℕ} (hb : b ≤ last) :
    NearestEven grid last (grid b) b := by
  refine ⟨hb, fun c _ => ?_, fun c _ hne htie => ?_⟩
  · rw [sub_self, abs_zero]
    exact abs_nonneg _
  · rw [sub_self, abs_zero, abs_eq_zero, sub_eq_zero] at htie
    exact absurd (hmono.injective htie.symm) hne

/-- At or above the last point everything rounds to it. -/
theorem NearestEven.of_last_le (hmono : StrictMono grid) {x : K}
    (hx : grid last ≤ x) : NearestEven grid last x last := by
  apply NearestEven.of_midpoints hmono le_rfl
  · rintro c rfl
    have hstep : grid c < grid (c + 1) := hmono (Nat.lt_succ_self c)
    exact Or.inl (by linarith)
  · intro h
    omega

/-- Index zero is even, so it keeps the midpoint above it. -/
theorem nearestEven_zero_iff (hmono : StrictMono grid) (hlast : 1 ≤ last) {x : K} :
    NearestEven grid last x 0 ↔ 2 * x ≤ grid 0 + grid 1 := by
  constructor
  · intro h
    rcases h.high_midpoint hmono Nat.one_pos hlast with hlt | ⟨heq, _⟩
    · exact hlt.le
    · exact heq.le
  · intro h
    apply NearestEven.of_midpoints hmono (Nat.zero_le _)
    · intro c hc
      omega
    · intro _
      rcases h.lt_or_eq with hlt | heq
      · exact Or.inl hlt
      · exact Or.inr ⟨heq, ⟨0, rfl⟩⟩

/-- An even last index keeps the midpoint below it. -/
theorem nearestEven_last_iff (hmono : StrictMono grid) {c : ℕ} (heven : Even (c + 1))
    {x : K} : NearestEven grid (c + 1) x (c + 1) ↔ grid c + grid (c + 1) ≤ 2 * x := by
  constructor
  · intro h
    rcases h.low_midpoint hmono (Nat.lt_succ_self c) with hlt | ⟨heq, _⟩
    · exact hlt.le
    · exact heq.le
  · intro h
    apply NearestEven.of_midpoints hmono le_rfl
    · intro b hb
      obtain rfl : b = c := by omega
      rcases h.lt_or_eq with hlt | heq
      · exact Or.inl hlt
      · exact Or.inr ⟨heq, heven⟩
    · intro hle
      omega

/-- The rounding rule between two neighbours: down before the midpoint, up
after it, and on it to the even index. -/
theorem NearestEven.of_between (hmono : StrictMono grid) {x : K} {b : ℕ}
    (hb : b + 1 ≤ last) (hlow : grid b ≤ x) (hhigh : x < grid (b + 1)) :
    NearestEven grid last x
      (if 2 * x < grid b + grid (b + 1) ∨
          (2 * x = grid b + grid (b + 1) ∧ Even b) then b else b + 1) := by
  split_ifs with hdown
  · apply NearestEven.of_midpoints hmono (by omega)
    · rintro c rfl
      have hstep : grid c < grid (c + 1) := hmono (Nat.lt_succ_self c)
      exact Or.inl (by linarith)
    · intro _
      exact hdown
  · rw [not_or, not_and, not_lt] at hdown
    apply NearestEven.of_midpoints hmono hb
    · intro c hc
      obtain rfl : c = b := by omega
      rcases hdown.1.lt_or_eq with hlt | heq
      · exact Or.inl hlt
      · exact Or.inr ⟨heq, Nat.even_add_one.mpr (hdown.2 heq.symm)⟩
    · intro _
      have hstep : grid (b + 1) < grid (b + 1 + 1) := hmono (Nat.lt_succ_self _)
      exact Or.inl (by linarith)

end Grid

end Veron
