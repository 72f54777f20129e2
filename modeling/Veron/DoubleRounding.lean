/-
Rounding twice.  A value rounded to a fine grid and from there to a coarse one
reaches the point it would have reached at once, unless the first rounding moves
it onto the midpoint of two coarse points whose even one is the wrong one.
-/
import Veron.NearestEven

namespace Veron

universe u

variable {K : Type u} [Field K] [LinearOrder K] [IsStrictOrderedRing K]

section Threshold

variable {grid : ℕ → K} {last : ℕ} {x : K} {b i : ℕ}

/-- An even point takes everything up to the midpoint above it. -/
theorem NearestEven.le_iff (hmono : StrictMono grid) (hb : NearestEven grid last x b)
    (hi : i + 1 ≤ last) (heven : Even i) : b ≤ i ↔ 2 * x ≤ grid i + grid (i + 1) := by
  constructor
  · intro hle
    have hgrid := hmono.monotone hle
    rcases hb.high_midpoint hmono (Nat.lt_succ_of_le hle) hi with h | ⟨h, -⟩ <;> linarith
  · intro hx
    by_contra hlt
    have hgrid : grid (i + 1) ≤ grid b := hmono.monotone (Nat.not_le.mp hlt)
    rcases hb.low_midpoint hmono (Nat.not_le.mp hlt) with h | ⟨h, hbeven⟩
    · linarith
    · have hnext : b = i + 1 := hmono.injective (le_antisymm (by linarith) hgrid)
      rw [hnext, Nat.even_add_one] at hbeven
      exact hbeven heven

/-- An even point takes everything from the midpoint below it on. -/
theorem NearestEven.ge_iff (hmono : StrictMono grid) (hb : NearestEven grid last x b)
    (hi : i + 1 ≤ last) (heven : Even (i + 1)) :
    i + 1 ≤ b ↔ grid i + grid (i + 1) ≤ 2 * x := by
  constructor
  · intro hle
    have hgrid := hmono.monotone hle
    rcases hb.low_midpoint hmono (Nat.lt_of_succ_le hle) with h | ⟨h, -⟩ <;> linarith
  · intro hx
    by_contra hlt
    have hbi : b ≤ i := by omega
    have hgrid : grid b ≤ grid i := hmono.monotone hbi
    rcases hb.high_midpoint hmono (Nat.not_le.mp hlt) hi with h | ⟨h, hbeven⟩
    · linarith
    · have hprev : b = i := hmono.injective (le_antisymm hgrid (by linarith))
      rw [Nat.even_add_one] at heven
      exact heven (hprev ▸ hbeven)

end Threshold

section Double

variable {fine coarse : ℕ → K} {lastFine last : ℕ}

/-- The values that rounding twice gets wrong: the first rounding moves them onto the
midpoint above the point `c`, from the other side than the one the tie goes to. -/
def DoublyRounded (fine coarse : ℕ → K) (last : ℕ) (x : K) : Prop :=
  ∃ c i, c < last ∧ 2 * fine i = coarse c + coarse (c + 1) ∧
    if Even c then fine i < x ∧ 2 * x ≤ fine i + fine (i + 1)
    else fine (i - 1) + fine i ≤ 2 * x ∧ x < fine i

/-- A point of the fine grid is rounded only once. -/
theorem not_doublyRounded_self (hfine : StrictMono fine) (b : ℕ) :
    ¬ DoublyRounded fine coarse last (fine b) := by
  rintro ⟨c, i, -, -, hside⟩
  by_cases hceven : Even c
  · rw [if_pos hceven] at hside
    have hib : i < b := hfine.lt_iff_lt.mp hside.1
    have hnext : fine (i + 1) ≤ fine b := hfine.monotone hib
    linarith [hside.1, hside.2]
  · rw [if_neg hceven] at hside
    have hbi : b < i := hfine.lt_iff_lt.mp hside.2
    have hprev : fine b ≤ fine (i - 1) := hfine.monotone (by omega)
    linarith [hside.1, hside.2]

/-- Every midpoint of the coarse grid is an even point of the fine one, neither its
first nor its last. -/
def MidpointsEven (fine coarse : ℕ → K) (lastFine last : ℕ) : Prop :=
  ∀ c < last, ∃ i, 2 * fine (i + 1) = coarse c + coarse (c + 1) ∧ Even (i + 1) ∧
    i + 2 ≤ lastFine

/-- A midpoint goes to the even one of its neighbours. -/
theorem NearestEven.of_midpoint (hcoarse : StrictMono coarse) {m : K} {c r : ℕ} (hc : c < last)
    (hr : NearestEven coarse last m r) (hm : 2 * m = coarse c + coarse (c + 1)) :
    r = if Even c then c else c + 1 := by
  have hstep : coarse c < coarse (c + 1) := hcoarse (Nat.lt_succ_self c)
  have hround := NearestEven.of_between hcoarse hc (x := m) (by linarith) (by linarith)
  rw [hr.unique hcoarse hround]
  apply if_congr _ rfl rfl
  rw [hm]
  simp

variable {x : K} {b r : ℕ}

/-- The fine rounding of a value stays on its side of every fine point. -/
theorem NearestEven.lt_of_lt (hfine : StrictMono fine) (hb : NearestEven fine lastFine x b)
    {i : ℕ} (hi : i ≤ lastFine) :
    (fine i < fine b → fine i < x) ∧ (fine b < fine i → x < fine i) := by
  have hself := NearestEven.self hfine hi
  constructor
  · intro hlt
    by_contra hx
    exact absurd (hb.mono hfine hself (not_lt.mp hx)) (Nat.not_le.mpr (hfine.lt_iff_lt.mp hlt))
  · intro hlt
    by_contra hx
    exact absurd (hself.mono hfine hb (not_lt.mp hx)) (Nat.not_le.mpr (hfine.lt_iff_lt.mp hlt))

/-- A doubly rounded value reaches a point that is not the nearest one. -/
theorem DoublyRounded.not_nearest (hfine : StrictMono fine) (hcoarse : StrictMono coarse)
    (hmid : MidpointsEven fine coarse lastFine last) (hb : NearestEven fine lastFine x b)
    (hr : NearestEven coarse last (fine b) r) (hbad : DoublyRounded fine coarse last x) :
    ¬ NearestEven coarse last x r := by
  intro hx
  obtain ⟨c, i, hc, hi, hside⟩ := hbad
  obtain ⟨j, hj, heven, hlast⟩ := hmid c hc
  obtain rfl : i = j + 1 := hfine.injective (by linarith)
  have hself : NearestEven fine lastFine (fine (j + 1)) (j + 1) :=
    NearestEven.self hfine (by omega)
  by_cases hceven : Even c
  · rw [if_pos hceven] at hside
    have hle := (hb.le_iff hfine hlast heven).mpr hside.2
    have hge := hself.mono hfine hb hside.1.le
    obtain rfl : b = j + 1 := Nat.le_antisymm hle hge
    have hrc := hr.of_midpoint hcoarse hc hj
    rw [if_pos hceven] at hrc
    rw [hrc] at hx
    rcases hx.high_midpoint hcoarse (Nat.lt_succ_self c) hc with h | ⟨h, -⟩ <;> linarith
  · rw [if_neg hceven, Nat.add_sub_cancel] at hside
    have hge := (hb.ge_iff hfine (by omega) heven).mpr hside.1
    have hle := hb.mono hfine hself hside.2.le
    obtain rfl : b = j + 1 := Nat.le_antisymm hle hge
    have hrc := hr.of_midpoint hcoarse hc hj
    rw [if_neg hceven] at hrc
    rw [hrc] at hx
    rcases hx.low_midpoint hcoarse (Nat.lt_succ_self c) with h | ⟨h, -⟩ <;> linarith

/-- Any other value reaches its nearest point. -/
theorem NearestEven.of_double (hfine : StrictMono fine) (hcoarse : StrictMono coarse)
    (hmid : MidpointsEven fine coarse lastFine last) (hb : NearestEven fine lastFine x b)
    (hr : NearestEven coarse last (fine b) r) (hgood : ¬ DoublyRounded fine coarse last x) :
    NearestEven coarse last x r := by
  -- the midpoint of `c` as a fine point, and what lies on either side of it
  have hside : ∀ c < last, (coarse c + coarse (c + 1) < 2 * fine b →
      coarse c + coarse (c + 1) < 2 * x) ∧
      (2 * fine b < coarse c + coarse (c + 1) → 2 * x < coarse c + coarse (c + 1)) := by
    intro c hc
    obtain ⟨j, hj, -, hlast⟩ := hmid c hc
    have hmove := hb.lt_of_lt hfine (i := j + 1) (by omega)
    rw [← hj]
    constructor
    · intro h
      linarith [hmove.1 (by linarith)]
    · intro h
      linarith [hmove.2 (by linarith)]
  by_cases hmoved : ∃ c < last, 2 * fine b = coarse c + coarse (c + 1) ∧ x ≠ fine b
  · -- the first rounding put `x` on a midpoint
    obtain ⟨c, hc, hm, hne⟩ := hmoved
    obtain ⟨j, hj, heven, hlast⟩ := hmid c hc
    obtain rfl : b = j + 1 := hfine.injective (by linarith)
    have hrc := hr.of_midpoint hcoarse hc hm
    by_cases hceven : Even c
    · rw [if_pos hceven] at hrc
      have hupper := (hb.le_iff hfine hlast heven).mp le_rfl
      have hbelow : x < fine (j + 1) := by
        apply lt_of_le_of_ne _ hne
        by_contra habove
        exact hgood ⟨c, j + 1, hc, hm, by
          rw [if_pos hceven]
          exact ⟨not_le.mp habove, hupper⟩⟩
      subst hrc
      apply NearestEven.of_midpoints hcoarse (Nat.le_of_lt hc)
      · rintro d rfl
        refine Or.inl ((hside d (by omega)).1 ?_)
        have hstep := hcoarse (show d < d + 1 + 1 by omega)
        linarith
      · exact fun _ => Or.inl (by linarith)
    · rw [if_neg hceven] at hrc
      have hlower := (hb.ge_iff hfine (by omega) heven).mp le_rfl
      have habove : fine (j + 1) < x := by
        apply lt_of_le_of_ne _ hne.symm
        by_contra hbelow
        exact hgood ⟨c, j + 1, hc, hm, by
          rw [if_neg hceven, Nat.add_sub_cancel]
          exact ⟨hlower, not_le.mp hbelow⟩⟩
      subst hrc
      apply NearestEven.of_midpoints hcoarse hc
      · intro d hd
        obtain rfl : d = c := by omega
        exact Or.inl (by linarith)
      · intro hd
        refine Or.inl ((hside (c + 1) (by omega)).2 ?_)
        have hstep := hcoarse (show c < c + 1 + 1 by omega)
        linarith
  · -- otherwise both roundings see `x` on the same side of every midpoint
    push Not at hmoved
    apply hr.congr hcoarse
    intro c hc
    have hmoved := hmoved c hc
    obtain ⟨hup, hdown⟩ := hside c hc
    rcases lt_trichotomy (coarse c + coarse (c + 1)) (2 * fine b) with h | h | h
    · exact ⟨iff_of_true h (hup h), iff_of_false h.not_gt (hup h).not_gt⟩
    · rw [hmoved h.symm]
      exact ⟨Iff.rfl, Iff.rfl⟩
    · exact ⟨iff_of_false h.not_gt (hdown h).not_gt, iff_of_true h (hdown h)⟩

theorem NearestEven.double_iff (hfine : StrictMono fine) (hcoarse : StrictMono coarse)
    (hmid : MidpointsEven fine coarse lastFine last) (hb : NearestEven fine lastFine x b)
    (hr : NearestEven coarse last (fine b) r) :
    NearestEven coarse last x r ↔ ¬ DoublyRounded fine coarse last x :=
  ⟨fun hx hbad => hbad.not_nearest hfine hcoarse hmid hb hr hx,
    hb.of_double hfine hcoarse hmid hr⟩

end Double

end Veron
