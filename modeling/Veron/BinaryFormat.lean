/-
Binary interchange formats: what a bit pattern denotes, the grid its
magnitudes form, and rounding of an exact rational to that grid.  The infinity
pattern sits on the grid one step above the largest finite magnitude, which is
where the nearest-even rule puts the overflow threshold.
-/
import Mathlib.Data.Rat.Cast.Order
import Mathlib.Algebra.Order.Field.Power
import Mathlib.Algebra.Order.Ring.Unbundled.Rat
import Veron.NearestEven
import Veron.StandsFor

namespace Veron

/-- The two field widths of a binary interchange format. -/
structure BinaryFormat where
  trail : ℕ
  expBits : ℕ
  trail_pos : 0 < trail
  two_le_expBits : 2 ≤ expBits

/-- What a bit pattern denotes. -/
inductive Datum where
  | nan
  | infinite (neg : Bool)
  | finite (neg : Bool) (mag : ℚ)
deriving DecidableEq

def signedRat (neg : Bool) (mag : ℚ) : ℚ :=
  if neg then -mag else mag

namespace BinaryFormat

def binary64 : BinaryFormat := ⟨52, 11, by decide, by decide⟩

def binary32 : BinaryFormat := ⟨23, 8, by decide, by decide⟩

variable (F : BinaryFormat)

/-- Exponent of the least subnormal. -/
def minExp : ℤ :=
  2 - 2 ^ (F.expBits - 1) - F.trail

/-- The magnitude pattern of infinity: exponent field all ones, nothing else. -/
def infIndex : ℕ :=
  (2 ^ F.expBits - 1) * 2 ^ F.trail

def signBit : ℕ :=
  2 ^ (F.expBits + F.trail)

/-- The positive quiet NaN with an empty payload. -/
def quietNan : ℕ :=
  (2 ^ (F.expBits + 1) - 1) * 2 ^ (F.trail - 1)

def withSign (neg : Bool) (b : ℕ) : ℕ :=
  if neg then F.signBit + b else b

/-- The magnitude a pattern below the sign bit stands for. -/
def grid (b : ℕ) : ℚ :=
  if b / 2 ^ F.trail = 0 then
    (b % 2 ^ F.trail : ℕ) * 2 ^ F.minExp
  else
    (2 ^ F.trail + b % 2 ^ F.trail : ℕ) *
      2 ^ (F.minExp + ((b / 2 ^ F.trail : ℕ) - 1 : ℤ))

def decode (b : ℕ) : Datum :=
  let neg : Bool := decide (b / F.signBit % 2 = 1)
  let mag := b % F.signBit
  if F.infIndex < mag then .nan
  else if mag = F.infIndex then .infinite neg
  else .finite neg (F.grid mag)

/-- A significand `s` at scale `k` packs as `k * 2 ^ trail + s`, the hidden bit
carrying into the exponent field by itself. -/
theorem grid_pack {k s : ℕ} (hs : s ≤ 2 ^ (F.trail + 1))
    (hk : k = 0 ∨ 2 ^ F.trail ≤ s) :
    F.grid (k * 2 ^ F.trail + s) = s * 2 ^ (F.minExp + k) := by
  have hpos : 0 < 2 ^ F.trail := Nat.two_pow_pos _
  rw [pow_succ] at hs
  have hdiv : (k * 2 ^ F.trail + s) / 2 ^ F.trail = k + s / 2 ^ F.trail := by
    rw [Nat.add_comm, Nat.add_mul_div_right _ _ hpos, Nat.add_comm]
  have hmod : (k * 2 ^ F.trail + s) % 2 ^ F.trail = s % 2 ^ F.trail := by
    rw [Nat.add_comm, Nat.add_mul_mod_self_right]
  unfold grid
  rw [hdiv, hmod]
  rcases Nat.lt_or_ge s (2 ^ F.trail) with hlt | hge
  · obtain rfl : k = 0 := hk.resolve_right (Nat.not_le.mpr hlt)
    rw [Nat.div_eq_of_lt hlt, Nat.mod_eq_of_lt hlt]
    simp
  rcases hs.lt_or_eq with hlt | rfl
  · have hone : s / 2 ^ F.trail = 1 :=
      Nat.div_eq_of_lt_le (by omega) (by omega)
    have hrest : s % 2 ^ F.trail = s - 2 ^ F.trail := by
      rw [Nat.mod_eq_sub_mod hge, Nat.mod_eq_of_lt (by omega)]
    have hsum : 2 ^ F.trail + (s - 2 ^ F.trail) = s := by omega
    have hexp : F.minExp + (((k + 1 : ℕ) : ℤ) - 1) = F.minExp + k := by
      push_cast
      ring
    rw [hone, hrest, if_neg (by omega), hsum, hexp]
  · have htwo : 2 ^ F.trail * 2 / 2 ^ F.trail = 2 := Nat.mul_div_cancel_left _ hpos
    rw [htwo, Nat.mul_mod_right, if_neg (by omega)]
    have hexp : F.minExp + (((k + 2 : ℕ) : ℤ) - 1) = F.minExp + k + 1 := by
      push_cast
      ring
    rw [hexp, zpow_add_one₀ (by norm_num)]
    push_cast
    ring

/-- Every magnitude pattern is a significand at a scale. -/
theorem exists_pack (b : ℕ) :
    ∃ k s, b = k * 2 ^ F.trail + s ∧ s < 2 ^ (F.trail + 1) ∧
      (k = 0 ∨ 2 ^ F.trail ≤ s) := by
  have hpos : 0 < 2 ^ F.trail := Nat.two_pow_pos _
  have hsplit := Nat.div_add_mod b (2 ^ F.trail)
  have hmod := Nat.mod_lt b hpos
  rcases Nat.eq_zero_or_pos (b / 2 ^ F.trail) with hzero | hdiv
  · refine ⟨0, b, by simp, ?_, Or.inl rfl⟩
    rw [hzero] at hsplit
    rw [pow_succ]
    omega
  · refine ⟨b / 2 ^ F.trail - 1, 2 ^ F.trail + b % 2 ^ F.trail, ?_, ?_, ?_⟩
    · obtain ⟨k, hk⟩ := Nat.exists_eq_add_of_le hdiv
      rw [hk] at hsplit ⊢
      rw [Nat.add_sub_cancel_left]
      rw [Nat.mul_add, Nat.mul_one, Nat.mul_comm] at hsplit
      omega
    · rw [pow_succ]
      omega
    · exact Or.inr (Nat.le_add_right _ _)

theorem grid_strictMono : StrictMono F.grid := by
  apply strictMono_nat_of_lt_succ
  intro b
  obtain ⟨k, s, rfl, hs, hk⟩ := F.exists_pack b
  have hnext : k = 0 ∨ 2 ^ F.trail ≤ s + 1 := hk.imp_right (Nat.le_succ_of_le)
  rw [Nat.add_assoc, F.grid_pack hs.le hk, F.grid_pack hs hnext]
  have hscale : (0 : ℚ) < 2 ^ (F.minExp + k) := by positivity
  push_cast
  nlinarith

theorem grid_zero : F.grid 0 = 0 := by
  simp [grid]

theorem grid_one : F.grid 1 = 2 ^ F.minExp := by
  have h := F.grid_pack (k := 0) (s := 1) Nat.one_le_two_pow (Or.inl rfl)
  simpa using h

theorem grid_nonneg (b : ℕ) : 0 ≤ F.grid b := by
  rw [← F.grid_zero]
  exact F.grid_strictMono.monotone (Nat.zero_le b)

/-- Round a significand held in eighths: the low three bits are the guard. -/
def roundGuard (n : ℕ) : ℕ :=
  n / 8 + if 4 < n % 8 ∨ (n % 8 = 4 ∧ n / 8 % 2 = 1) then 1 else 0

theorem even_pack_iff (k s : ℕ) : Even (k * 2 ^ F.trail + s) ↔ Even s := by
  obtain ⟨t, ht⟩ := Nat.exists_eq_add_of_lt F.trail_pos
  have heven : Even (k * 2 ^ F.trail) := by
    rw [ht, pow_succ]
    exact ⟨k * 2 ^ (0 + t), by ring⟩
  constructor
  · intro h
    exact (Nat.even_add.mp h).mp heven
  · intro h
    exact heven.add h

/-- The rounding step shared by every operation: an integer that stands for
the exact value to within half a unit decides the rounded pattern. -/
theorem nearestEven_roundGuard {k n : ℕ} {y : ℚ} (hy : StandsFor 4 n y)
    (hn : n < 8 * 2 ^ (F.trail + 1)) (hk : k = 0 ∨ 8 * 2 ^ F.trail ≤ n) :
    NearestEven F.grid F.infIndex (y / 8 * 2 ^ (F.minExp + k))
      (min F.infIndex (k * 2 ^ F.trail + roundGuard n)) := by
  have hmono := F.grid_strictMono
  have hscale : (0 : ℚ) < 2 ^ (F.minExp + k) := by positivity
  set s := n / 8 with hs
  have hslt : s < 2 ^ (F.trail + 1) := by omega
  have hsk : k = 0 ∨ 2 ^ F.trail ≤ s := hk.imp_right (by omega)
  have hlow := F.grid_pack hslt.le hsk
  have hhigh := F.grid_pack (s := s + 1) hslt (hsk.imp_right (Nat.le_succ_of_le))
  rw [← Nat.add_assoc] at hhigh
  have hfloor : (s : ℚ) ≤ y / 8 := by
    have h := (hy.le_iff (2 * s)).mp (by omega)
    push_cast at h
    linarith
  have hceil : y / 8 < s + 1 := by
    have h := (hy (2 * s + 2)).2.mp (by omega)
    push_cast at h
    linarith
  have hxlow : F.grid (k * 2 ^ F.trail + s) ≤ y / 8 * 2 ^ (F.minExp + k) := by
    rw [hlow]
    exact mul_le_mul_of_nonneg_right hfloor hscale.le
  have hxhigh : y / 8 * 2 ^ (F.minExp + k) < F.grid (k * 2 ^ F.trail + s + 1) := by
    rw [hhigh]
    push_cast
    exact mul_lt_mul_of_pos_right hceil hscale
  rcases Nat.lt_or_ge (k * 2 ^ F.trail + s) F.infIndex with hfin | hinf
  · -- below infinity: the midpoint test is the guard test
    have hmid := (hy (2 * s + 1))
    have hround := NearestEven.of_between hmono hfin hxlow hxhigh
    have hless : 2 * (y / 8 * 2 ^ (F.minExp + k)) <
        F.grid (k * 2 ^ F.trail + s) + F.grid (k * 2 ^ F.trail + s + 1) ↔
        n % 8 < 4 := by
      rw [hlow, hhigh, show n % 8 < 4 ↔ n < (2 * s + 1) * 4 by omega, hmid.2]
      push_cast
      constructor <;> intro h <;> nlinarith
    have hmore : F.grid (k * 2 ^ F.trail + s) +
        F.grid (k * 2 ^ F.trail + s + 1) <
          2 * (y / 8 * 2 ^ (F.minExp + k)) ↔ 4 < n % 8 := by
      rw [hlow, hhigh, show 4 < n % 8 ↔ (2 * s + 1) * 4 < n by omega, hmid.1]
      push_cast
      constructor <;> intro h <;> nlinarith
    have hparity : Even (k * 2 ^ F.trail + s) ↔ s % 2 = 0 := by
      rw [F.even_pack_iff, Nat.even_iff]
    have hcond : (2 * (y / 8 * 2 ^ (F.minExp + k)) <
        F.grid (k * 2 ^ F.trail + s) + F.grid (k * 2 ^ F.trail + s + 1) ∨
        (2 * (y / 8 * 2 ^ (F.minExp + k)) =
          F.grid (k * 2 ^ F.trail + s) + F.grid (k * 2 ^ F.trail + s + 1) ∧
          Even (k * 2 ^ F.trail + s))) ↔
        ¬ (4 < n % 8 ∨ (n % 8 = 4 ∧ s % 2 = 1)) := by
      rw [hless, hparity, le_antisymm_iff, ← not_lt, ← not_lt, hmore, hless]
      omega
    rw [if_congr hcond rfl rfl] at hround
    have hindex : (if ¬ (4 < n % 8 ∨ (n % 8 = 4 ∧ s % 2 = 1)) then
        k * 2 ^ F.trail + s else k * 2 ^ F.trail + s + 1) =
          min F.infIndex (k * 2 ^ F.trail + roundGuard n) := by
      unfold roundGuard
      rw [← hs]
      split_ifs <;> omega
    rwa [hindex] at hround
  · -- at or beyond infinity everything rounds to it
    have hle : F.infIndex ≤ k * 2 ^ F.trail + roundGuard n := by
      unfold roundGuard
      omega
    rw [Nat.min_eq_left hle]
    exact NearestEven.of_last_le hmono ((hmono.monotone hinf).trans hxlow)

/-- Rounding a cut: `q` carries the round bit at its foot, `sticky` what lies below it. -/
theorem nearestEven_cut {k q : ℕ} {sticky : Bool} {z : ℚ} {e : ℤ} (hcut : Cut q sticky z)
    (hq : q < 2 ^ (F.trail + 2)) (hk : k = 0 ∨ 2 ^ (F.trail + 1) ≤ q)
    (he : e + 1 = F.minExp + k) :
    NearestEven F.grid F.infIndex (z * 2 ^ e)
      (min F.infIndex (k * 2 ^ F.trail + roundGuard (4 * q + 2 * sticky.toNat))) := by
  have hst := Bool.toNat_le sticky
  rw [pow_succ] at hq
  have hnear := F.nearestEven_roundGuard (k := k) hcut.standsFor (by omega)
    (hk.imp_right fun h => by rw [pow_succ] at h; omega)
  have hscale : 4 * z / 8 * 2 ^ (F.minExp + k) = z * 2 ^ e := by
    rw [← he, zpow_add_one₀ (by norm_num)]
    ring
  rwa [hscale] at hnear

theorem infIndex_lt_signBit : F.infIndex < F.signBit := by
  rw [infIndex, BinaryFormat.signBit, pow_add]
  exact Nat.mul_lt_mul_of_pos_right (Nat.sub_lt (Nat.two_pow_pos _) Nat.one_pos)
    (Nat.two_pow_pos _)

theorem withSign_mod (neg : Bool) {b : ℕ} (hb : b < F.signBit) :
    F.withSign neg b % F.signBit = b ∧
      decide (F.withSign neg b / F.signBit % 2 = 1) = neg := by
  cases neg with
  | false =>
      change b % F.signBit = b ∧ decide (b / F.signBit % 2 = 1) = false
      rw [Nat.mod_eq_of_lt hb, Nat.div_eq_of_lt hb]
      exact ⟨rfl, rfl⟩
  | true =>
      have hpos : 0 < F.signBit := Nat.two_pow_pos _
      change (F.signBit + b) % F.signBit = b ∧
        decide ((F.signBit + b) / F.signBit % 2 = 1) = true
      rw [Nat.add_mod_left, Nat.mod_eq_of_lt hb, Nat.add_div_left _ hpos,
        Nat.div_eq_of_lt hb]
      exact ⟨rfl, rfl⟩

/-- A pattern below infinity under a sign denotes what it stands for. -/
theorem decode_withSign (neg : Bool) {b : ℕ} (hb : b < F.infIndex) :
    F.decode (F.withSign neg b) = .finite neg (F.grid b) := by
  obtain ⟨hmag, hneg⟩ := F.withSign_mod neg (hb.trans F.infIndex_lt_signBit)
  simp only [decode, hmag, hneg, if_neg (Nat.not_lt.mpr hb.le), if_neg hb.ne]

theorem decode_withSign_inf (neg : Bool) :
    F.decode (F.withSign neg F.infIndex) = .infinite neg := by
  obtain ⟨hmag, hneg⟩ := F.withSign_mod neg F.infIndex_lt_signBit
  simp only [decode, hmag, hneg, lt_irrefl, ↓reduceIte]

theorem decode_withSign_nan (neg : Bool) {b : ℕ} (hb : F.infIndex < b) (hlt : b < F.signBit) :
    F.decode (F.withSign neg b) = .nan := by
  obtain ⟨hmag, hneg⟩ := F.withSign_mod neg hlt
  simp only [decode, hmag, if_pos hb]

/-- A pattern is its sign on top of its magnitude. -/
theorem eq_withSign {b : ℕ} (hb : b < 2 * F.signBit) :
    b = F.withSign (decide (b / F.signBit % 2 = 1)) (b % F.signBit) := by
  have hsplit := Nat.div_add_mod b F.signBit
  have hlt : b / F.signBit < 2 := Nat.div_lt_of_lt_mul (by omega)
  rw [withSign]
  rcases Nat.lt_or_ge b F.signBit with hpos | hneg
  · simp [Nat.div_eq_of_lt hpos, Nat.mod_eq_of_lt hpos]
  · have hone : b / F.signBit = 1 := by
      have := Nat.div_pos hneg (Nat.two_pow_pos _)
      omega
    rw [hone, Nat.mul_one] at hsplit
    simp [hone, hsplit]

/-- A value of the grid is its own rounding. -/
theorem nearestEven_grid {b : ℕ} (hb : b ≤ F.infIndex) :
    NearestEven F.grid F.infIndex (F.grid b) b :=
  NearestEven.self F.grid_strictMono hb

/-- The exact value `(-1)^neg * mag` rounded to nearest, ties to even. -/
def RoundsTo (neg : Bool) (mag : ℚ) (r : ℕ) : Prop :=
  ∃ b, NearestEven F.grid F.infIndex mag b ∧ r = F.withSign neg b

theorem RoundsTo.unique {F : BinaryFormat} {neg : Bool} {mag : ℚ} {r r' : ℕ}
    (h : F.RoundsTo neg mag r) (h' : F.RoundsTo neg mag r') : r = r' := by
  obtain ⟨b, hb, rfl⟩ := h
  obtain ⟨b', hb', rfl⟩ := h'
  rw [hb.unique F.grid_strictMono hb']

/-- A datum taken over into the format: its value rounded, an infinity as it is, and
a NaN to some NaN. -/
def IsConversion (d : Datum) (r : ℕ) : Prop :=
  match d with
  | .nan => F.decode r = .nan
  | .infinite neg => r = F.withSign neg F.infIndex
  | .finite neg mag => F.RoundsTo neg mag r

/-- A number taken over into its own format stays what it is. -/
theorem IsConversion.eq {F : BinaryFormat} {b r : ℕ} (hb : b < 2 * F.signBit)
    (hnan : F.decode b ≠ .nan) (h : F.IsConversion (F.decode b) r) : r = b := by
  have hsplit := F.eq_withSign hb
  by_cases hover : F.infIndex < b % F.signBit
  · simp [decode, hover] at hnan
  by_cases hinf : b % F.signBit = F.infIndex
  · simp only [decode, hinf, lt_irrefl, ↓reduceIte, IsConversion] at h
    rw [h, ← hinf]
    exact hsplit.symm
  · simp only [decode, if_neg hover, if_neg hinf, IsConversion] at h
    apply h.unique
    exact ⟨_, F.nearestEven_grid (Nat.not_lt.mp hover), hsplit⟩

/-- The sum of two data, as the standard defines addition: the exact sum
rounded once, and an exact zero positive unless both operands are negative. -/
def IsSum (a b r : ℕ) : Prop :=
  match F.decode a, F.decode b with
  | .nan, _ => r = F.quietNan
  | _, .nan => r = F.quietNan
  | .infinite s, .infinite t =>
      r = if s = t then F.withSign s F.infIndex else F.quietNan
  | .infinite s, .finite _ _ => r = F.withSign s F.infIndex
  | .finite _ _, .infinite t => r = F.withSign t F.infIndex
  | .finite s x, .finite t y =>
      let z := signedRat s x + signedRat t y
      if z = 0 then r = F.withSign (s && t) 0
      else F.RoundsTo (decide (z < 0)) |z| r

/-- The difference of two data: subtraction adds the negation, except that a
NaN has no sign to flip. -/
def IsDifference (a b r : ℕ) : Prop :=
  match F.decode a, F.decode b with
  | .nan, _ => r = F.quietNan
  | _, .nan => r = F.quietNan
  | .infinite s, .infinite t =>
      r = if s ≠ t then F.withSign s F.infIndex else F.quietNan
  | .infinite s, .finite _ _ => r = F.withSign s F.infIndex
  | .finite _ _, .infinite t => r = F.withSign (!t) F.infIndex
  | .finite s x, .finite t y =>
      let z := signedRat s x - signedRat t y
      if z = 0 then r = F.withSign (s && !t) 0
      else F.RoundsTo (decide (z < 0)) |z| r

/-- The product of two data; its sign is the exclusive or of the signs. -/
def IsProduct (a b r : ℕ) : Prop :=
  match F.decode a, F.decode b with
  | .nan, _ => r = F.quietNan
  | _, .nan => r = F.quietNan
  | .infinite s, .infinite t => r = F.withSign (s ^^ t) F.infIndex
  | .infinite s, .finite t y =>
      r = if y = 0 then F.quietNan else F.withSign (s ^^ t) F.infIndex
  | .finite s x, .infinite t =>
      r = if x = 0 then F.quietNan else F.withSign (s ^^ t) F.infIndex
  | .finite s x, .finite t y => F.RoundsTo (s ^^ t) (x * y) r

/-- The quotient of two data; a finite value over zero is an infinity. -/
def IsQuotient (a b r : ℕ) : Prop :=
  match F.decode a, F.decode b with
  | .nan, _ => r = F.quietNan
  | _, .nan => r = F.quietNan
  | .infinite _, .infinite _ => r = F.quietNan
  | .infinite s, .finite t _ => r = F.withSign (s ^^ t) F.infIndex
  | .finite s _, .infinite t => r = F.withSign (s ^^ t) 0
  | .finite s x, .finite t y =>
      if y = 0 then
        r = if x = 0 then F.quietNan else F.withSign (s ^^ t) F.infIndex
      else F.RoundsTo (s ^^ t) (x / y) r

end BinaryFormat

end Veron
