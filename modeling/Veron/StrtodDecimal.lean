/-
From the digit buffer to the rounded pattern.  The numerator, the power of ten
and the long division are exact within the 160 limbs, so the 54 bits and the
sticky flag handed to `assemble` are a cut of the decimal value itself.
-/
import Veron.DecimalLiteral
import Veron.StrtodAsserted
import Veron.StrtodRound

namespace Veron

namespace Strtod

open BinaryFormat Bignum

variable {ops : BigOps} (hops : ops.Sound)

section Load

include hops

theorem scaleTen_spec {x : Big} {v k : ℕ} (hx : Holds x v)
    (hfit : v * 10 ^ k < (2 ^ 32) ^ nlimb) :
    ∃ x', scaleTenWith ops k x = some x' ∧ Holds x' (v * 10 ^ k) := by
  induction k generalizing x v with
  | zero => exact ⟨x, rfl, by simpa using hx⟩
  | succ k ih =>
      have hassoc : v * 10 ^ (k + 1) = v * 10 * 10 ^ k := by rw [pow_succ]; ring
      rw [hassoc] at hfit ⊢
      have hten : (10 : ULong).toNat = 10 := rfl
      have hfirst : v * (10 : ULong).toNat < (2 ^ 32) ^ nlimb := by
        rw [hten]
        exact (Nat.le_mul_of_pos_right _ (Nat.pow_pos (by decide))).trans_lt hfit
      obtain ⟨x₁, hmul, hx₁⟩ := hops.mul hx (m := 10) (by decide) (by decide) hfirst
      rw [hten] at hx₁
      obtain ⟨x', hrun, hx'⟩ := ih hx₁ hfit
      refine ⟨x', ?_, hx'⟩
      simpa only [scaleTenWith, hmul, Option.bind_eq_bind, Option.bind_some] using hrun

theorem loadDigits_spec {x : Big} {v : ℕ} {dig : List ℕ} (hdig : ∀ d ∈ dig, d < 10)
    (hx : Holds x v) (hfit : (v + 1) * 10 ^ dig.length ≤ (2 ^ 32) ^ nlimb) :
    ∃ x', loadDigitsWith ops dig x = some x' ∧ Holds x' (v * 10 ^ dig.length + decimal dig) := by
  induction dig generalizing x v with
  | nil => exact ⟨x, rfl, by simpa [decimal] using hx⟩
  | cons d dig ih =>
      have hd : d < 10 := hdig d List.mem_cons_self
      have hten : (10 : ULong).toNat = 10 := rfl
      have hdw : (BitVec.ofNat 64 d : ULong).toNat = d := by
        rw [BitVec.toNat_ofNat, Nat.mod_eq_of_lt (by omega)]
      rw [List.length_cons, pow_succ, Nat.mul_comm (10 ^ dig.length), ← Nat.mul_assoc]
        at hfit
      have hnext : (v * 10 + d + 1) * 10 ^ dig.length ≤ (2 ^ 32) ^ nlimb :=
        (Nat.mul_le_mul_right _ (by omega)).trans hfit
      have hbound : v * 10 + d + 1 ≤ (2 ^ 32) ^ nlimb :=
        (Nat.le_mul_of_pos_right _ (Nat.pow_pos (by decide))).trans hnext
      obtain ⟨x₁, hmul, hx₁⟩ := hops.mul hx (m := 10) (by decide) (by decide)
        (by rw [hten]; omega)
      rw [hten] at hx₁
      obtain ⟨x₂, hadd, hx₂⟩ := hops.add hx₁ (c := BitVec.ofNat 64 d) (by omega)
        (by omega)
      rw [hdw] at hx₂
      obtain ⟨x', hrun, hx'⟩ := ih (fun e he => hdig e (List.mem_cons_of_mem d he))
        hx₂ hnext
      refine ⟨x', ?_, ?_⟩
      · simpa only [loadDigitsWith, hmul, hadd, Option.bind_eq_bind, Option.bind_some] using
          hrun
      · rw [decimal_cons, List.length_cons, pow_succ]
        convert hx' using 1
        ring

end Load

section Division

/-- The long division with the bits from `k - 1` down still to come. -/
structure Dividing (D N k : ℕ) (num : Big) (quo : Limbs) (rest : ℕ) : Prop where
  num_holds : Holds num rest
  total : whole quo * D + rest = N
  rest_lt : rest < D * 2 ^ k
  clear : whole quo % 2 ^ k = 0

include hops in
theorem Dividing.step {den : Big} {D N j : ℕ} (hden : Holds den D) (hD : 0 < D)
    (hfit : D * 2 ^ (j + 1) < (2 ^ 32) ^ nlimb) {num : Big} {quo : Limbs} {rest : ℕ}
    (h : Dividing D N (j + 1) num quo rest) :
    ∃ num' quo' rest', divStepWith ops den j num quo = some (num', quo') ∧
      Dividing D N j num' quo' rest' := by
  have hdouble : D * 2 ^ (j + 1) = D * 2 ^ j * 2 := by rw [pow_succ]; ring
  have hclear : whole quo % 2 ^ j = 0 :=
    Nat.mod_eq_zero_of_dvd
      ((Nat.pow_dvd_pow 2 (Nat.le_succ j)).trans (Nat.dvd_of_mod_eq_zero h.clear))
  obtain ⟨a, hcopy, ha⟩ := hden.copy
  obtain ⟨t, hshift, ht⟩ := hops.shl ha hD (k := j) (by omega)
  obtain ⟨c, hcmp, hc⟩ := hops.cmp h.num_holds.toDenotes ht.toDenotes
  unfold divStepWith
  simp only [hcopy, hshift, hcmp, Option.bind_eq_bind, Option.bind_some]
  have hlt := h.rest_lt
  have htotal := h.total
  by_cases hle : D * 2 ^ j ≤ rest
  · obtain ⟨num', hsub, hnum'⟩ := hops.sub h.num_holds.toDenotes ht.toDenotes hle
    have hj : j < 32 * nlimb := by
      have hone : 2 ^ j < 2 ^ (32 * nlimb) := by
        rw [pow_mul]
        have := Nat.le_mul_of_pos_left (2 ^ j) hD
        omega
      exact (Nat.pow_lt_pow_iff_right (by decide)).mp hone
    obtain ⟨quo', hset, hquo'⟩ := setBit_spec hj h.clear
    rw [if_pos (hc.mpr hle), hsub]
    simp only [Option.bind_some, hset]
    refine ⟨num', quo', rest - D * 2 ^ j, rfl, hnum', ?_, by omega, ?_⟩
    · rw [hquo', Nat.add_mul, Nat.mul_comm (2 ^ j)]
      omega
    · rw [hquo', Nat.add_mod_right]
      exact hclear
  · rw [if_neg (fun h => hle (hc.mp h))]
    exact ⟨num, quo, rest, rfl, h.num_holds, h.total, Nat.lt_of_not_le hle, hclear⟩

include hops in
/-- The loop ends with the quotient and a remainder below the divisor. -/
theorem longDiv_spec {den : Big} {D N k : ℕ} (hden : Holds den D) (hD : 0 < D)
    (hfit : D * 2 ^ k < (2 ^ 32) ^ nlimb) {num : Big} {quo : Limbs} {rest : ℕ}
    (h : Dividing D N k num quo rest) :
    ∃ num' quo' rest', longDivWith ops den k num quo = some (num', quo') ∧
      Dividing D N 0 num' quo' rest' := by
  induction k generalizing num quo rest with
  | zero => exact ⟨num, quo, rest, rfl, h⟩
  | succ j ih =>
      obtain ⟨num₁, quo₁, rest₁, hstep, h₁⟩ := h.step hops hden hD hfit
      have hle : D * 2 ^ j ≤ D * 2 ^ (j + 1) :=
        Nat.mul_le_mul_left D (Nat.pow_le_pow_right (by decide) (Nat.le_succ j))
      obtain ⟨num', quo', rest', hrun, hdone⟩ := ih (hle.trans_lt hfit) h₁
      refine ⟨num', quo', rest', ?_, hdone⟩
      simpa only [longDivWith, hstep, Option.bind_eq_bind, Option.bind_some] using hrun

theorem whole_zeroLimbs : whole zeroLimbs = 0 :=
  (positional_eq_zero_iff (by decide)).mpr fun i _ => digit_zeroLimbs i

theorem denotes_whole (a : Limbs) : Denotes ⟨a, nlimb⟩ (whole a) := by
  refine ⟨(by decide : 0 < nlimb), le_rfl, ?_, rfl⟩
  intro i (hi : nlimb ≤ i)
  change digit a i = 0
  rw [digit, Vector.getElem?_eq_none hi]
  rfl

end Division

section Leading

/-- The arguments of `assemble` describe `y`: 54 bits with the top one set, and
whether anything was cut off. -/
structure Leads (sig54 : ULong) (sticky : Bool) (topexp : ℤ) (y : ℚ) : Prop where
  ge : 2 ^ 53 ≤ sig54.toNat
  lt : sig54.toNat < 2 ^ 54
  cut : Cut sig54.toNat sticky (y * 2 ^ (53 - topexp))

theorem two_pow_pred_size_le {v : ℕ} (hv : 0 < v) : 2 ^ (v.size - 1) ≤ v :=
  Nat.lt_size.mp (Nat.sub_lt (Nat.size_pos.mpr hv) Nat.one_pos)

/-- The top 54 bits of a whole part, shifted up when there are fewer. -/
theorem leading_cut (topexp : ℤ) {v : ℕ} {st : Bool} {z : ℚ} (hv : 0 < v) (hcut : Cut v st z)
    (hbits : 54 ≤ v.size ∨ st = false) {sig : ULong}
    (hsig : sig.toNat = v / 2 ^ (v.size - 54)) {y : ℚ}
    (hz : z * 2 ^ (54 - (v.size : ℤ)) = y * 2 ^ (53 - topexp)) :
    Leads (if v.size < 54 then sig <<< (54 - v.size) else sig)
      (st || decide (v % 2 ^ (v.size - 54) ≠ 0)) topexp y := by
  have htop := two_pow_pred_size_le hv
  have hlt := Nat.lt_size_self v
  by_cases hsmall : v.size < 54
  · have hst : st = false := hbits.resolve_left (by omega)
    have hpos := Nat.size_pos.mpr hv
    have hshift : v.size - 54 = 0 := by omega
    rw [hshift, pow_zero, Nat.div_one] at hsig
    have hge : 2 ^ 53 ≤ v * 2 ^ (54 - v.size) := by
      calc 2 ^ 53 = 2 ^ (v.size - 1) * 2 ^ (54 - v.size) := by
            rw [← pow_add]
            congr 1
            omega
        _ ≤ _ := Nat.mul_le_mul_right _ htop
    have hlt54 : v * 2 ^ (54 - v.size) < 2 ^ 54 := by
      calc v * 2 ^ (54 - v.size) < 2 ^ v.size * 2 ^ (54 - v.size) :=
            Nat.mul_lt_mul_of_pos_right hlt (Nat.two_pow_pos _)
        _ = 2 ^ 54 := by
            rw [← pow_add]
            congr 1
            omega
    have hword : (sig <<< (54 - v.size)).toNat = v * 2 ^ (54 - v.size) := by
      rw [toNat_shiftLeft_of_lt, hsig]
      rw [hsig]
      omega
    have hexact : z = v := hcut.exact_iff.mp hst
    have hvalue : y * 2 ^ (53 - topexp) = ((v * 2 ^ (54 - v.size) : ℕ) : ℚ) := by
      rw [← hz, hexact, show (54 : ℤ) - v.size = (54 - v.size : ℕ) by omega, zpow_natCast]
      push_cast
      rfl
    rw [if_pos hsmall, hst, hshift, pow_zero, Nat.mod_one]
    refine ⟨by rw [hword]; exact hge, by rw [hword]; exact hlt54, ?_⟩
    rw [hvalue, hword]
    exact Cut.natCast _
  · have hpow : 2 ^ 53 * 2 ^ (v.size - 54) = 2 ^ (v.size - 1) := by
      rw [← pow_add]
      congr 1
      omega
    have hpow' : 2 ^ (v.size - 54) * 2 ^ 54 = 2 ^ v.size := by
      rw [← pow_add]
      congr 1
      omega
    have hvalue : y * 2 ^ (53 - topexp) = z / 2 ^ (v.size - 54) := by
      rw [← hz, show (54 : ℤ) - v.size = -((v.size - 54 : ℕ) : ℤ) by omega, zpow_neg,
        zpow_natCast]
      rfl
    rw [if_neg hsmall]
    refine ⟨?_, ?_, ?_⟩
    · rw [hsig, Nat.le_div_iff_mul_le (Nat.two_pow_pos _), hpow]
      exact htop
    · rw [hsig]
      apply Nat.div_lt_of_lt_mul
      rw [hpow']
      exact hlt
    · rw [hvalue, hsig]
      exact hcut.shift _

include hops in
theorem integerBits_spec (neg : Bool) {num : Big} {N dexp : ℕ} (extra : Bool)
    (hN : Holds num N) (hpos : 0 < N) (hfit : N * 10 ^ dexp < (2 ^ 32) ^ nlimb) :
    ∃ sig st topexp,
      integerBitsWith ops neg num dexp extra = some (assemble neg sig (st || extra) topexp) ∧
        Leads sig st topexp (N * 10 ^ (dexp : ℤ)) := by
  obtain ⟨x, hscale, hx⟩ := scaleTen_spec hops hN hfit
  have hbits := bbits_spec hx.toDenotes
  obtain ⟨sig, htop, hsig⟩ := btop_spec hx.toDenotes (show 54 ≤ 64 by decide)
  have hvpos : 0 < N * 10 ^ dexp := Nat.mul_pos hpos (Nat.pow_pos (by decide))
  have hleads := leading_cut (((N * 10 ^ dexp).size : ℤ) - 1)
    (y := N * 10 ^ (dexp : ℤ)) hvpos (Cut.natCast (N * 10 ^ dexp)) (Or.inr rfl) hsig
    (by
      rw [zpow_natCast]
      push_cast
      congr 2
      ring)
  rw [Bool.false_or] at hleads
  refine ⟨_, _, _, ?_, hleads⟩
  simp only [integerBitsWith, hscale, hbits, htop, Option.bind_eq_bind, Option.bind_some]

theorem ten_pow_le (k : ℕ) : 10 ^ k ≤ 2 ^ (4 * k) := by
  rw [pow_mul]
  exact Nat.pow_le_pow_left (by decide) k

theorem two_pow_lt_limbs {k : ℕ} (hk : k < 5120) : 2 ^ k < (2 ^ 32) ^ nlimb := by
  rw [← pow_mul]
  exact Nat.pow_lt_pow_right (by decide) hk

theorem size_mul_two_pow {v k : ℕ} (hv : 0 < v) : (v * 2 ^ k).size = k + v.size := by
  have h := size_split (k := k) hv.ne' (Nat.two_pow_pos k)
  rwa [Nat.zero_add] at h

include hops in
theorem fractionBits_spec (neg : Bool) {num : Big} {N nd : ℕ} (extra : Bool)
    (hN : Holds num N) (hpos : 0 < N) (hsize : N.size ≤ 3201) (hnd : nd ≤ 1150) :
    ∃ sig st topexp,
      fractionBitsWith ops neg num nd extra = some (assemble neg sig (st || extra) topexp) ∧
        Leads sig st topexp (N * 10 ^ (-(nd : ℤ))) := by
  have hD : 0 < 10 ^ nd := Nat.pow_pos (by decide)
  have hDle := ten_pow_le nd
  have hDsize : (10 ^ nd).size ≤ 4 * nd + 1 :=
    Nat.size_le.mpr (hDle.trans_lt (Nat.pow_lt_pow_right (by decide) (Nat.lt_succ_self _)))
  obtain ⟨one, hone, hone'⟩ := bset_spec 1
  have hone1 : (1 : ULong).toNat = 1 := rfl
  obtain ⟨den, hden, hden'⟩ := scaleTen_spec hops hone' (k := nd) (by
    rw [hone1, Nat.one_mul]
    exact hDle.trans_lt (two_pow_lt_limbs (by omega)))
  rw [hone1, Nat.one_mul] at hden'
  have hdbits := bbits_spec hden'.toDenotes
  have hnbits := bbits_spec hN.toDenotes
  -- the shift that leaves at least sixty quotient bits
  obtain ⟨s, hs⟩ : ∃ s : ℕ,
      (if ((10 ^ nd).size : ℤ) - N.size + 60 < 0 then 0
        else ((10 ^ nd).size : ℤ) - N.size + 60) = s :=
    Int.eq_ofNat_of_zero_le (by split_ifs <;> omega)
  have hs' : (10 ^ nd).size + 60 ≤ s + N.size ∧ s + N.size ≤ 4661 := by
    split_ifs at hs <;> omega
  have hsizeN : (N * 2 ^ s).size = s + N.size := size_mul_two_pow hpos
  have hNlt := Nat.lt_size_self (N * 2 ^ s)
  rw [hsizeN] at hNlt
  obtain ⟨num', hshift, hnum'⟩ := hops.shl hN hpos (k := s)
    (hNlt.trans (two_pow_lt_limbs (by omega)))
  have hnbits' := bbits_spec hnum'.toDenotes
  rw [hsizeN] at hnbits'
  obtain ⟨q, hq⟩ : ∃ q : ℕ, s + N.size + 1 = (10 ^ nd).size + q :=
    ⟨s + N.size + 1 - (10 ^ nd).size, by omega⟩
  have hqZ : ((s + N.size : ℕ) : ℤ) - (10 ^ nd).size + 1 = q := by omega
  have hDtop := two_pow_pred_size_le hD
  have hDlt := Nat.lt_size_self (10 ^ nd)
  have hDpos := Nat.size_pos.mpr hD
  have hstart : Dividing (10 ^ nd) (N * 2 ^ s) q num' zeroLimbs (N * 2 ^ s) := by
    refine ⟨hnum', by rw [whole_zeroLimbs]; omega, ?_, by rw [whole_zeroLimbs]; simp⟩
    calc N * 2 ^ s < 2 ^ (s + N.size) := hNlt
      _ = 2 ^ ((10 ^ nd).size - 1) * 2 ^ q := by
          rw [← pow_add]
          congr 1
          omega
      _ ≤ 10 ^ nd * 2 ^ q := Nat.mul_le_mul_right _ hDtop
  have hqfit : 10 ^ nd * 2 ^ q < (2 ^ 32) ^ nlimb := by
    calc 10 ^ nd * 2 ^ q < 2 ^ (10 ^ nd).size * 2 ^ q :=
          Nat.mul_lt_mul_of_pos_right hDlt (Nat.two_pow_pos q)
      _ = 2 ^ ((10 ^ nd).size + q) := by rw [← pow_add]
      _ < _ := two_pow_lt_limbs (by omega)
  obtain ⟨num'', quo, rest, hdiv, hdone⟩ := longDiv_spec hops hden' hD hqfit hstart
  have htotal := hdone.total
  have hrest : rest < 10 ^ nd := by simpa using hdone.rest_lt
  have hzero := bzero_spec hdone.num_holds.toDenotes
  have hqbits := bbits_spec (denotes_whole quo)
  obtain ⟨sig, htop, hsig⟩ := btop_spec (denotes_whole quo) (show 54 ≤ 64 by decide)
  have hquo : 2 ^ 59 ≤ whole quo := by
    by_contra hlt
    have hle : (whole quo + 1) * 10 ^ nd ≤ 2 ^ 59 * 10 ^ nd :=
      Nat.mul_le_mul_right _ (by omega)
    have hlow := two_pow_pred_size_le (v := N * 2 ^ s)
      (Nat.mul_pos hpos (Nat.two_pow_pos s))
    have hpow : 2 ^ 59 * 2 ^ (10 ^ nd).size ≤ 2 ^ ((N * 2 ^ s).size - 1) := by
      rw [← pow_add]
      exact Nat.pow_le_pow_right (by decide) (by omega)
    have hmul : 2 ^ 59 * 10 ^ nd < 2 ^ 59 * 2 ^ (10 ^ nd).size :=
      Nat.mul_lt_mul_of_pos_left hDlt (by decide)
    rw [Nat.add_mul, Nat.one_mul] at hle
    omega
  have hqsize : 54 ≤ (whole quo).size := (Nat.lt_size.mpr hquo).le.trans' (by decide)
  have hcut : Cut (whole quo) (decide (rest ≠ 0)) (((N * 2 ^ s : ℕ) : ℚ) / (10 ^ nd : ℕ)) :=
    Cut.of_div htotal hrest
  have hleads := leading_cut (((whole quo).size : ℤ) - 1 - s)
    (y := N * 10 ^ (-(nd : ℤ))) (by omega) hcut (Or.inl hqsize) hsig (by
      rw [show 53 - (((whole quo).size : ℤ) - 1 - s) = 54 - ((whole quo).size : ℤ) + s by ring,
        zpow_add₀ (by norm_num), zpow_neg, zpow_natCast, zpow_natCast]
      push_cast
      ring)
  refine ⟨_, _, _, ?_, hleads⟩
  have hqclip : (if (q : ℤ) < 1 then 1 else (q : ℤ)) = q := if_neg (by omega)
  simp only [fractionBitsWith, hone, hden, hdbits, hnbits, hs, hshift, hnbits', hqZ, hqclip,
    Int.toNat_natCast, hdiv, hzero, hqbits, htop, Option.bind_eq_bind, Option.bind_some]
  congr 2
  by_cases hr : rest = 0 <;> cases extra <;> simp [hr]

end Leading

section Truncation

/-- The digit buffer and `dexp` give `x` exactly, or `extra` tells that nonzero
digits past the cap were dropped. -/
structure Truncated (dig : List ℕ) (dexp : ℤ) (extra : Bool) (x : ℚ) : Prop where
  exact : extra = false → x = decimal dig * 10 ^ dexp
  full : extra = true → dig.length = ndigMax
  above : extra = true → (decimal dig : ℚ) * 10 ^ dexp < x
  below : extra = true → x < (decimal dig + 1) * 10 ^ dexp

theorem Truncated.lower {dig : List ℕ} {dexp : ℤ} {extra : Bool} {x : ℚ}
    (h : Truncated dig dexp extra x) : (decimal dig : ℚ) * 10 ^ dexp ≤ x := by
  cases extra with
  | false => exact (h.exact rfl).ge
  | true => exact (h.above rfl).le

theorem Truncated.upper {dig : List ℕ} {dexp : ℤ} {extra : Bool} {x : ℚ}
    (h : Truncated dig dexp extra x) : x < (decimal dig + 1) * 10 ^ dexp := by
  cases extra with
  | false =>
      rw [h.exact rfl]
      have hpow : (0 : ℚ) < 10 ^ dexp := by positivity
      exact mul_lt_mul_of_pos_right (lt_add_one _) hpow
  | true => exact h.below rfl

/-- `x` is past `y` but no rounding boundary lies between them. -/
def NoBoundary (y x : ℚ) : Prop :=
  ∀ c, binary64.grid c + binary64.grid (c + 1) ≤ 2 * y ∨
    2 * x < binary64.grid c + binary64.grid (c + 1)

theorem lt_of_few_digits {N M B nd j E T : ℕ} (hM : M ≤ B) (hnd : nd ≤ E) (hj : j ≤ T)
    (hlow : N * 2 ^ T < M * 5 ^ nd * 2 ^ j) : N < B * 5 ^ E := by
  have hfive : 5 ^ nd ≤ 5 ^ E := Nat.pow_le_pow_right (by decide) hnd
  have htwo : 2 ^ j ≤ 2 ^ T := Nat.pow_le_pow_right (by decide) hj
  have hle := Nat.mul_le_mul (Nat.mul_le_mul hM hfive) htwo
  exact Nat.lt_of_mul_lt_mul_right (hlow.trans_le hle)

/-- Between two neighbours with 800 significant digits there is no number of at
most 54 bits times a power of two from `2 ^ -1075` on: it would have to be a
decimal of fewer digits. -/
theorem no_boundary_digits {N nd M k : ℕ} (hN : 10 ^ 799 ≤ N) (hM : M < 2 ^ 54)
    (hlow : N * 2 ^ 1075 < M * 2 ^ k * 10 ^ nd)
    (hhigh : M * 2 ^ k * 10 ^ nd < (N + 1) * 2 ^ 1075) : False := by
  have hten : M * 2 ^ k * 10 ^ nd = M * 5 ^ nd * 2 ^ (k + nd) := by
    rw [pow_add, show (10 : ℕ) = 2 * 5 from rfl, mul_pow]
    ring
  rw [hten] at hlow hhigh
  rcases Nat.lt_or_ge (k + nd) 1075 with hsmall | hlarge
  · -- too few digits to reach the 800th
    have hnd : nd ≤ 1074 := Nat.le_of_lt_succ ((Nat.le_add_left nd k).trans_lt hsmall)
    have hlt := lt_of_few_digits hM.le hnd hsmall.le hlow
    have hsplit5 : (5 : ℕ) ^ 1074 = (5 ^ 179) ^ 6 := by rw [← pow_mul]
    have hsplit10 : (10 : ℕ) ^ 799 = (10 ^ 47) ^ 17 := by rw [← pow_mul]
    have hnum : 2 ^ 54 * (5 ^ 179) ^ 6 < (10 ^ 47) ^ 17 := by norm_num
    rw [hsplit5] at hlt
    rw [hsplit10] at hN
    exact absurd (hN.trans_lt hlt) (Nat.not_lt.mpr hnum.le)
  · -- a multiple of the unit between two neighbouring multiples
    obtain ⟨j, hj⟩ := Nat.exists_eq_add_of_le hlarge
    rw [hj, pow_add, Nat.mul_comm (2 ^ 1075), ← Nat.mul_assoc] at hlow hhigh
    have h₁ := Nat.lt_of_mul_lt_mul_right hlow
    have h₂ := Nat.lt_of_mul_lt_mul_right hhigh
    omega

theorem clear_scales (v : ℚ) {a b p t : ℚ} (hab : a * b = 1) (hpt : 2 * p = t) :
    2 * (v * a) * (p * b) = v * t := by
  rw [← hpt]
  calc 2 * (v * a) * (p * b) = v * (2 * p) * (a * b) := by ring
    _ = v * (2 * p) := by rw [hab, mul_one]

theorem noBoundary_of_digits {N nd : ℕ} {x : ℚ} (hN : 10 ^ 799 ≤ N)
    (hx : x < (N + 1) * 10 ^ (-(nd : ℤ))) : NoBoundary (N * 10 ^ (-(nd : ℤ))) x := by
  intro c
  by_contra hcon
  rw [not_or, not_le, not_lt] at hcon
  obtain ⟨hlow, hhigh⟩ := hcon
  obtain ⟨k, s, rfl, hs, hk⟩ := binary64.exists_pack c
  have hnext : k = 0 ∨ 2 ^ binary64.trail ≤ s + 1 := hk.imp_right Nat.le_succ_of_le
  have htwo : (2 : ℚ) ≠ 0 := by norm_num
  have hscale : (2 : ℚ) ^ (-1074 + (k : ℤ)) * 2 ^ 1074 = 2 ^ k := by
    rw [← zpow_natCast (2 : ℚ) 1074, ← zpow_add₀ htwo, ← zpow_natCast]
    congr 1
    push_cast
    ring
  have hten : (10 : ℚ) ^ (-(nd : ℤ)) * 10 ^ nd = 1 := by
    rw [zpow_neg, zpow_natCast, inv_mul_cancel₀ (by positivity)]
  have hmid : binary64.grid (k * 2 ^ binary64.trail + s) +
      binary64.grid (k * 2 ^ binary64.trail + s + 1) =
        ((2 * s + 1 : ℕ) : ℚ) * 2 ^ (-1074 + (k : ℤ)) := by
    rw [Nat.add_assoc, binary64.grid_pack hs.le hk, binary64.grid_pack hs hnext,
      binary64_minExp]
    push_cast
    ring
  rw [hmid] at hlow hhigh
  have hpos : (0 : ℚ) < 2 ^ 1074 * 10 ^ nd := by positivity
  have hunit : (2 : ℚ) * 2 ^ 1074 = 2 ^ 1075 := (pow_succ' 2 1074).symm
  have hleft := clear_scales (N : ℚ) hten hunit
  have hright := clear_scales ((N : ℚ) + 1) hten hunit
  have hmiddle : ((2 * s + 1 : ℕ) : ℚ) * 2 ^ (-1074 + (k : ℤ)) * (2 ^ 1074 * 10 ^ nd) =
      ((2 * s + 1 : ℕ) : ℚ) * 2 ^ k * 10 ^ nd := by
    rw [← hscale, mul_assoc, mul_assoc, mul_assoc]
  have h₁ := mul_lt_mul_of_pos_right hlow hpos
  have h₂ := mul_lt_mul_of_pos_right
    (hhigh.trans_lt (mul_lt_mul_of_pos_left hx (by norm_num : (0 : ℚ) < 2))) hpos
  rw [hleft, hmiddle] at h₁
  rw [hmiddle, hright] at h₂
  have hM : 2 * s + 1 < 2 ^ 54 := by
    have : s < 2 ^ 53 := hs
    omega
  exact no_boundary_digits hN hM (by exact_mod_cast h₁) (by exact_mod_cast h₂)

/-- A cut that also stands for dropped digits rounds like the full value. -/
theorem Leads.rounds (neg : Bool) {sig54 : ULong} {st extra : Bool} {topexp : ℤ}
    {y x : ℚ} (h : Leads sig54 st topexp y) (hexact : extra = false → x = y)
    (habove : extra = true → y < x) (hgap : extra = true → NoBoundary y x) :
    binary64.RoundsTo neg x (assemble neg sig54 (st || extra) topexp).toNat := by
  have hback : ∀ z : ℚ, z * 2 ^ (53 - topexp) * 2 ^ (topexp - 53) = z := by
    intro z
    rw [mul_assoc, ← zpow_add₀ (by norm_num)]
    norm_num
  cases extra with
  | false =>
      have hround := assemble_rounds neg topexp h.ge h.lt h.cut
      rw [hback] at hround
      rw [Bool.or_false, hexact rfl]
      exact hround
  | true =>
      -- a point above the cut, in its cell and not past the value
      have hscale : (0 : ℚ) < 2 ^ (53 - topexp) := by positivity
      have hcell := h.cut.lt
      have hyx := mul_lt_mul_of_pos_right (habove rfl) hscale
      obtain ⟨w, hyw, hw⟩ := exists_between (lt_min hyx hcell)
      have hwx := hw.trans_le (min_le_left _ _)
      have hwcell := hw.trans_le (min_le_right _ _)
      have hcut : Cut sig54.toNat true w := by
        refine ⟨(h.cut.le.trans hyw.le), hwcell, ?_⟩
        exact iff_of_false (by decide) (h.cut.le.trans_lt hyw).ne'
      obtain ⟨b, hb, hr⟩ := assemble_rounds neg topexp h.ge h.lt hcut
      rw [Bool.or_true]
      refine ⟨b, hb.congr binary64.grid_strictMono fun c _ => ?_, hr⟩
      have hunscale : (0 : ℚ) < 2 ^ (topexp - 53) := by positivity
      have hyw' := mul_lt_mul_of_pos_right hyw hunscale
      have hwx' := mul_lt_mul_of_pos_right hwx hunscale
      rw [hback] at hyw' hwx'
      rcases hgap rfl c with hle | hlt
      · constructor
        · exact iff_of_true (by linarith) (by linarith [habove rfl])
        · exact iff_of_false (by linarith) (by linarith [habove rfl])
      · constructor
        · exact iff_of_false (by linarith) (by linarith)
        · exact iff_of_true (by linarith) (by linarith)

end Truncation

section Decimal

theorem ten_zpow_ge {e : ℤ} (he : 320 ≤ e) : (2 : ℚ) ^ 1024 ≤ 10 ^ e := by
  calc (2 : ℚ) ^ 1024 = (2 ^ 16) ^ 64 := by rw [← pow_mul]
    _ ≤ (10 ^ 5) ^ 64 := pow_le_pow_left₀ (by norm_num) (by norm_num) 64
    _ = (10 : ℚ) ^ (320 : ℤ) := by
        rw [← pow_mul, ← zpow_natCast]
        norm_num
    _ ≤ 10 ^ e := zpow_le_zpow_right₀ (by norm_num) he

theorem ten_zpow_le {e : ℤ} (he : e ≤ -350) : (10 : ℚ) ^ e ≤ 2 ^ (-1075 : ℤ) := by
  have hpow : (2 : ℚ) ^ 1155 ≤ 10 ^ 350 := by
    calc (2 : ℚ) ^ 1155 = (2 ^ 33) ^ 35 := by rw [← pow_mul]
      _ ≤ (10 ^ 10) ^ 35 := pow_le_pow_left₀ (by norm_num) (by norm_num) 35
      _ = 10 ^ 350 := by rw [← pow_mul]
  calc (10 : ℚ) ^ e ≤ 10 ^ (-((350 : ℕ) : ℤ)) := zpow_le_zpow_right₀ (by norm_num) he
    _ = ((10 : ℚ) ^ 350)⁻¹ := by rw [zpow_neg, zpow_natCast]
    _ ≤ ((2 : ℚ) ^ 1155)⁻¹ := inv_anti₀ (by positivity) hpow
    _ = 2 ^ (-((1155 : ℕ) : ℤ)) := by rw [zpow_neg, zpow_natCast]
    _ ≤ 2 ^ (-1075 : ℤ) := zpow_le_zpow_right₀ (by norm_num) (by norm_num)

/-- The digits alone bound the value within a factor of ten. -/
theorem Truncated.magnitude {d : ℕ} {dig : List ℕ} {dexp : ℤ} {extra : Bool} {x : ℚ}
    (h : Truncated (d :: dig) dexp extra x) (hdig : ∀ e ∈ d :: dig, e < 10) (hd : d ≠ 0) :
    10 ^ ((dig.length : ℤ) + dexp) ≤ x ∧ x < 10 ^ ((dig.length : ℤ) + 1 + dexp) := by
  have hten : (10 : ℚ) ≠ 0 := by norm_num
  have hscale : (0 : ℚ) < 10 ^ dexp := by positivity
  have hlow : (10 : ℚ) ^ (dig.length : ℤ) ≤ decimal (d :: dig) := by
    rw [zpow_natCast]
    exact_mod_cast le_decimal hd
  have hhigh : (decimal (d :: dig) : ℚ) + 1 ≤ 10 ^ ((dig.length : ℤ) + 1) := by
    have hlt := decimal_lt hdig
    rw [List.length_cons] at hlt
    rw [show (dig.length : ℤ) + 1 = (dig.length + 1 : ℕ) by push_cast; rfl, zpow_natCast]
    exact_mod_cast hlt
  constructor
  · rw [zpow_add₀ hten]
    exact (mul_le_mul_of_nonneg_right hlow hscale.le).trans h.lower
  · rw [zpow_add₀ hten]
    exact h.upper.trans_le (mul_le_mul_of_nonneg_right hhigh hscale.le)

include hops in
/-- The pattern `decimalBits` returns is the value rounded to nearest. -/
theorem decimalBits_rounds (neg : Bool) {dig : List ℕ} {dexp : ℤ} {extra : Bool} {x : ℚ}
    (h : Truncated dig dexp extra x) (hdig : ∀ e ∈ dig, e < 10)
    (hhead : ∀ d ∈ dig.head?, d ≠ 0) (hlen : dig.length ≤ ndigMax) :
    ∃ r, decimalBitsWith ops neg dig dexp extra = some r ∧ binary64.RoundsTo neg x r.toNat := by
  have hzero : (withNeg neg 0).toNat = binary64.withSign neg 0 := by cases neg <;> rfl
  have hinf : (withNeg neg 0x7ff0000000000000).toNat =
      binary64.withSign neg binary64.infIndex := by
    rw [withNeg_toNat neg _ (by decide), binary64_infIndex]
    rfl
  cases dig with
  | nil =>
      have hextra : extra = false := by
        cases extra with
        | false => rfl
        | true => exact absurd (h.full rfl) (by decide)
      refine ⟨_, rfl, ?_⟩
      rw [hzero, roundsTo_zero_iff, h.exact hextra]
      simp [decimal]
  | cons d dig =>
      have hd : d ≠ 0 := hhead d rfl
      obtain ⟨hlow, hhigh⟩ := h.magnitude hdig hd
      have hlen' : dig.length + 1 ≤ 800 := hlen
      have hcast : ((d :: dig).length : ℤ) = dig.length + 1 := by simp
      unfold decimalBitsWith
      rw [if_neg (by simp), hcast]
      by_cases hover : (dig.length : ℤ) + 1 + dexp > 320
      · rw [if_pos hover]
        refine ⟨_, rfl, ?_⟩
        rw [hinf, roundsTo_inf_iff]
        have hbig := ten_zpow_ge (e := (dig.length : ℤ) + dexp) (by omega)
        have hhalf : (0 : ℚ) < 2 ^ 970 := by positivity
        generalize (2 : ℚ) ^ 1024 = limit at hbig ⊢
        generalize (2 : ℚ) ^ 970 = half at hhalf ⊢
        linarith
      · rw [if_neg hover]
        by_cases hunder : (dig.length : ℤ) + 1 + dexp < -350
        · rw [if_pos hunder]
          refine ⟨_, rfl, ?_⟩
          rw [hzero, roundsTo_zero_iff]
          exact hhigh.le.trans (ten_zpow_le (by omega))
        · rw [if_neg hunder]
          have hNlt := decimal_lt hdig
          have hNle : 10 ^ dig.length ≤ decimal (d :: dig) := le_decimal hd
          have hNpos : 0 < decimal (d :: dig) :=
            (Nat.pow_pos (by decide)).trans_le hNle
          have hNten := ten_pow_le (d :: dig).length
          rw [List.length_cons] at hNlt hNten
          obtain ⟨num₀, hset, hnum₀⟩ := bset_spec 0
          have hzero64 : (0 : ULong).toNat = 0 := rfl
          rw [hzero64] at hnum₀
          obtain ⟨num, hload, hnum⟩ := loadDigits_spec hops hdig hnum₀ (by
            rw [Nat.zero_add, Nat.one_mul, List.length_cons]
            exact hNten.trans (two_pow_lt_limbs (by omega)).le)
          rw [Nat.zero_mul, Nat.zero_add] at hnum
          simp only [hset, hload, Option.bind_eq_bind, Option.bind_some]
          by_cases hint : dexp ≥ 0
          · obtain ⟨k, rfl⟩ := Int.eq_ofNat_of_zero_le hint
            -- 800 digits and a scale would have been out of range
            have hextra : extra = false := by
              cases extra with
              | false => rfl
              | true =>
                  have hfull : dig.length + 1 = 800 := h.full rfl
                  omega
            have hfit : decimal (d :: dig) * 10 ^ k < (2 ^ 32) ^ nlimb := by
              calc decimal (d :: dig) * 10 ^ k < 10 ^ (dig.length + 1) * 10 ^ k :=
                    Nat.mul_lt_mul_of_pos_right hNlt (Nat.pow_pos (by decide))
                _ = 10 ^ (dig.length + 1 + k) := (pow_add _ _ _).symm
                _ ≤ 2 ^ (4 * (dig.length + 1 + k)) := ten_pow_le _
                _ < _ := two_pow_lt_limbs (by omega)
            obtain ⟨sig, st, topexp, hbits, hleads⟩ :=
              integerBits_spec hops neg extra hnum hNpos hfit
            rw [if_pos hint, Int.toNat_natCast, hbits]
            refine ⟨_, rfl, hleads.rounds neg h.exact h.above ?_⟩
            intro htrue
            rw [hextra] at htrue
            exact absurd htrue (by decide)
          · obtain ⟨nd, hnd⟩ := Int.eq_ofNat_of_zero_le (show 0 ≤ -dexp by omega)
            have hdexp : dexp = -(nd : ℤ) := by omega
            have hsize : (decimal (d :: dig)).size ≤ 3201 := by
              have hlt : decimal (d :: dig) < 2 ^ (4 * (dig.length + 1)) :=
                hNlt.trans_le hNten
              exact (Nat.size_le.mpr hlt).trans (by omega)
            obtain ⟨sig, st, topexp, hbits, hleads⟩ :=
              fractionBits_spec hops neg extra hnum hNpos hsize (show nd ≤ 1150 by omega)
            rw [if_neg hint, hnd, Int.toNat_natCast, hbits]
            rw [← hdexp] at hleads
            refine ⟨_, rfl, hleads.rounds neg h.exact h.above ?_⟩
            intro htrue
            have hfull : dig.length + 1 = 800 := h.full htrue
            have hlen799 : dig.length = 799 := by omega
            have hupper := h.below htrue
            rw [hlen799] at hNle
            rw [hdexp] at hupper ⊢
            exact noBoundary_of_digits hNle hupper

end Decimal

end Strtod

end Veron
