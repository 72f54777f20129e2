/-
What the big-number routines compute.  `Denotes x v` says that the limbs below
the length make up `v` and that no other limb is set, `Holds x v` that the
length is no larger than it has to be; every routine that writes a number keeps
both as long as the result fits the 160 limbs.
-/
import Mathlib.Tactic.Linarith
import Veron.Bignum
import Veron.Positional

namespace Veron

namespace Bignum

/-- The limb at `i` as a digit to base `2 ^ 32`. -/
def digit (a : Limbs) (i : ℕ) : ℕ := (a[i]?.getD 0).toNat

structure Denotes (x : Big) (v : ℕ) : Prop where
  n_pos : 0 < x.n
  n_le : x.n ≤ nlimb
  clear : ∀ i, x.n ≤ i → digit x.limbs i = 0
  value : positional (2 ^ 32) (digit x.limbs) x.n = v

/-- `x` denotes `v` at the least possible length. -/
structure Holds (x : Big) (v : ℕ) : Prop extends Denotes x v where
  tight : x.n = 1 ∨ (2 ^ 32) ^ (x.n - 1) ≤ v

theorem digit_lt (a : Limbs) (i : ℕ) : digit a i < 2 ^ 32 :=
  (a[i]?.getD 0).isLt

theorem readLimb_eq (a : Limbs) {i : ℕ} (h : i < nlimb) :
    ∃ x, readLimb a i = some x ∧ x.toNat = digit a i := by
  refine ⟨a[i], Vector.getElem?_eq_getElem h, ?_⟩
  rw [digit, Vector.getElem?_eq_getElem h]
  rfl

theorem digit_set (a : Limbs) {i : ℕ} (h : i < nlimb) (x : UInt) :
    digit (a.set i x h) = Function.update (digit a) i x.toNat := by
  funext j
  unfold digit
  by_cases hji : j = i
  · subst hji
    rw [Function.update_self, Vector.getElem?_set_self]
    rfl
  · rw [Function.update_of_ne hji, Vector.getElem?_set_ne]
    exact fun h => hji h.symm

theorem writeLimb_eq (a : Limbs) {i : ℕ} (h : i < nlimb) (x : UInt) :
    ∃ a', writeLimb a i x = some a' ∧
      digit a' = Function.update (digit a) i x.toNat :=
  ⟨_, dif_pos h, digit_set a h x⟩

theorem digit_zeroLimbs (i : ℕ) : digit zeroLimbs i = 0 := by
  unfold digit zeroLimbs
  by_cases h : i < nlimb
  · rw [Vector.getElem?_eq_getElem h, Vector.getElem_replicate]
    rfl
  · rw [Vector.getElem?_eq_none (Nat.le_of_not_lt h)]
    rfl

theorem loWord_toNat (c : ULong) : (loWord c).toNat = c.toNat % 2 ^ 32 := by
  rw [loWord, BitVec.toNat_setWidth, low_half_toNat, Nat.mod_mod]

theorem positional_update_above {f : ℕ → ℕ} {n i d : ℕ} (h : n ≤ i) :
    positional (2 ^ 32) (Function.update f i d) n = positional (2 ^ 32) f n := by
  apply positional_congr
  intro j hj
  rw [Function.update_of_ne (by omega)]

/-- Writing the next digit extends the number. -/
theorem positional_update_next (f : ℕ → ℕ) (i d : ℕ) :
    positional (2 ^ 32) (Function.update f i d) (i + 1) =
      positional (2 ^ 32) f i + d * (2 ^ 32) ^ i := by
  rw [positional_succ, positional_update_above le_rfl, Function.update_self]

theorem Denotes.lt {x : Big} {v : ℕ} (h : Denotes x v) : v < (2 ^ 32) ^ x.n := by
  rw [← h.value]
  exact positional_lt fun i _ => digit_lt x.limbs i

theorem Denotes.full {x : Big} {v : ℕ} (h : Denotes x v) :
    positional (2 ^ 32) (digit x.limbs) nlimb = v := by
  rw [← h.value]
  exact positional_extend h.n_le fun i hi _ => h.clear i hi

/-- A nonzero number reaches its top limb. -/
theorem Holds.top_le {x : Big} {v : ℕ} (h : Holds x v) (hv : 0 < v) :
    (2 ^ 32) ^ (x.n - 1) ≤ v := by
  rcases h.tight with hone | hle
  · rw [hone]
    exact hv
  · exact hle

theorem length_lt_of_lt {m n w : ℕ} (hle : (2 ^ 32) ^ m ≤ w)
    (hlt : w < (2 ^ 32) ^ n) : m < n :=
  (Nat.pow_lt_pow_iff_right (by decide)).mp (hle.trans_lt hlt)

section Carry

/-- The carry loop at limb `i`: what is written so far and the carry make up
`m` times the limbs already read. -/
structure Scaled (a₀ a : Limbs) (m i : ℕ) (carry : ULong) : Prop where
  carry_lt : carry.toNat < m
  above : ∀ j, i ≤ j → digit a j = digit a₀ j
  value : positional (2 ^ 32) (digit a) i + carry.toNat * (2 ^ 32) ^ i =
    positional (2 ^ 32) (digit a₀) i * m

variable {cur : UInt → ULong → ULong} {m : ℕ}

theorem Scaled.step {a₀ a : Limbs} {i : ℕ} {carry : ULong}
    (hcur : ∀ x carry, carry.toNat < m →
      (cur x carry).toNat = x.toNat * m + carry.toNat)
    (h : Scaled a₀ a m i carry) {x : UInt} (hx : x.toNat = digit a i) {a' : Limbs}
    (ha' : digit a' =
      Function.update (digit a) i (loWord (cur x carry)).toNat) :
    Scaled a₀ a' m (i + 1) (cur x carry >>> 32) := by
  have hc := hcur x carry h.carry_lt
  have hxlt : x.toNat < 2 ^ 32 := x.isLt
  have hcarry := h.carry_lt
  refine ⟨?_, ?_, ?_⟩
  · rw [toNat_shiftRight, hc]
    apply Nat.div_lt_of_lt_mul
    have hprod : (x.toNat + 1) * m ≤ 2 ^ 32 * m := Nat.mul_le_mul_right m hxlt
    rw [Nat.add_mul, Nat.one_mul] at hprod
    omega
  · intro j hj
    rw [ha', Function.update_of_ne (by omega)]
    exact h.above j (by omega)
  · have hsplit := Nat.div_add_mod (cur x carry).toNat (2 ^ 32)
    have hread := h.above i le_rfl
    rw [ha', positional_update_next, positional_succ, loWord_toNat, toNat_shiftRight,
      Nat.add_mul, ← h.value, ← hread, ← hx]
    calc positional (2 ^ 32) (digit a) i + (cur x carry).toNat % 2 ^ 32 * (2 ^ 32) ^ i +
          (cur x carry).toNat / 2 ^ 32 * (2 ^ 32) ^ (i + 1)
        = positional (2 ^ 32) (digit a) i +
          (2 ^ 32 * ((cur x carry).toNat / 2 ^ 32) + (cur x carry).toNat % 2 ^ 32) *
            (2 ^ 32) ^ i := by rw [pow_succ]; ring
      _ = _ := by rw [hsplit, hc]; ring

theorem carryLoop_spec (hcur : ∀ x carry, carry.toNat < m →
      (cur x carry).toNat = x.toNat * m + carry.toNat)
    (k : ℕ) {i : ℕ} {carry : ULong} {a₀ a : Limbs} (hik : i + k ≤ nlimb)
    (h : Scaled a₀ a m i carry) :
    ∃ carry' a', carryLoop cur k i carry a = some (carry', a') ∧
      Scaled a₀ a' m (i + k) carry' := by
  induction k generalizing i carry a with
  | zero => exact ⟨carry, a, rfl, h⟩
  | succ k ih =>
      obtain ⟨x, hread, hx⟩ := readLimb_eq a (i := i) (by omega)
      obtain ⟨a', hwrite, ha'⟩ := writeLimb_eq a (i := i) (by omega) (loWord (cur x carry))
      have hnext := h.step hcur hx ha'
      rw [show i + (k + 1) = i + 1 + k by omega] at hik ⊢
      obtain ⟨carry', a'', hrun, hdone⟩ := ih hik hnext
      refine ⟨carry', a'', ?_, hdone⟩
      rw [carryLoop, hread]
      simp only [Option.bind_eq_bind, Option.bind_some, hwrite]
      exact hrun

theorem Scaled.start (a : Limbs) (hm : 0 < m) : Scaled a a m 0 0 :=
  ⟨hm, fun _ _ => rfl, by simp⟩

/-- A finished carry loop and its carry, stored as one more limb when it is not
zero. -/
theorem Scaled.finish {x : Big} {v : ℕ} (hx : Holds x v) (hm : 0 < m) {a : Limbs}
    {carry : ULong} (h : Scaled x.limbs a m x.n carry) (hzero : carry = 0) :
    Holds ⟨a, x.n⟩ (v * m) := by
  have hvalue := h.value
  rw [hzero, hx.value] at hvalue
  refine ⟨⟨hx.n_pos, hx.n_le, ?_, by simpa using hvalue⟩, ?_⟩
  · intro i hi
    rw [h.above i hi, hx.clear i hi]
  · exact hx.tight.imp_right fun hle => hle.trans (Nat.le_mul_of_pos_right v hm)

theorem Scaled.finish_carry {x : Big} {v : ℕ} (hx : Holds x v) (hm : m ≤ 2 ^ 32)
    (hfit : v * m < (2 ^ 32) ^ nlimb) {a : Limbs} {carry : ULong}
    (h : Scaled x.limbs a m x.n carry) (hne : carry ≠ 0) :
    ∃ a', writeLimb a x.n (loWord carry) = some a' ∧ Holds ⟨a', x.n + 1⟩ (v * m) := by
  have hvalue := h.value
  rw [hx.value] at hvalue
  have hpos := toNat_ne_zero hne
  have hword : (loWord carry).toNat = carry.toNat := by
    rw [loWord_toNat, Nat.mod_eq_of_lt (h.carry_lt.trans_le hm)]
  have htop : 1 * (2 ^ 32) ^ x.n ≤ carry.toNat * (2 ^ 32) ^ x.n :=
    Nat.mul_le_mul_right _ (Nat.pos_of_ne_zero hpos)
  have hlen : x.n < nlimb :=
    length_lt_of_lt (w := v * m) (by omega) hfit
  obtain ⟨a', hwrite, ha'⟩ := writeLimb_eq a hlen (loWord carry)
  refine ⟨a', hwrite, ⟨Nat.succ_pos _, hlen, ?_, ?_⟩, Or.inr ?_⟩
  · intro i (hi : x.n + 1 ≤ i)
    change digit a' i = 0
    rw [ha', Function.update_of_ne (by omega), h.above i (by omega)]
    exact hx.clear i (by omega)
  · change positional _ (digit a') (x.n + 1) = _
    rw [ha', positional_update_next, hword, hvalue]
  · change (2 ^ 32) ^ (x.n + 1 - 1) ≤ _
    rw [Nat.add_sub_cancel]
    omega

end Carry

/-- A carry of one limb is flushed in one step. -/
theorem flushCarry_one {x : Big} {carry : ULong} (hlt : carry.toNat < 2 ^ 32)
    (hne : carry ≠ 0) {i : ℕ} {a : Limbs}
    (hwrite : writeLimb x.limbs i (loWord carry) = some a) :
    flushCarry i carry x = some ⟨a, i + 1⟩ := by
  have hzero : carry >>> 32 = 0 := by
    apply BitVec.eq_of_toNat_eq
    rw [toNat_shiftRight, Nat.div_eq_of_lt hlt]
    rfl
  rw [flushCarry, if_neg hne]
  simp only [Option.bind_eq_bind, Option.bind_some, hwrite, hzero]
  rw [flushCarry, if_pos rfl]

theorem bmul_spec {x : Big} {v : ℕ} (hx : Holds x v) {m : ULong} (hpos : 0 < m.toNat)
    (hm : m.toNat < 2 ^ 32) (hfit : v * m.toNat < (2 ^ 32) ^ nlimb) :
    ∃ x', bmul x m = some x' ∧ Holds x' (v * m.toNat) := by
  have hcur : ∀ (w : UInt) (carry : ULong), carry.toNat < m.toNat →
      (w.setWidth 64 * m + carry).toNat = w.toNat * m.toNat + carry.toNat := by
    intro w carry hcarry
    have hw : w.toNat < 2 ^ 32 := w.isLt
    have hprod : w.toNat * m.toNat ≤ (2 ^ 32 - 1) * (2 ^ 32 - 1) :=
      Nat.mul_le_mul (by omega) (by omega)
    rw [BitVec.toNat_add, BitVec.toNat_mul, BitVec.toNat_setWidth_of_le (by decide),
      Nat.mod_eq_of_lt (a := _ * _) (by omega), Nat.mod_eq_of_lt (by omega)]
  have hstart : 0 + x.n ≤ nlimb := by rw [Nat.zero_add]; exact hx.n_le
  obtain ⟨carry, a, hloop, hdone⟩ :=
    carryLoop_spec hcur x.n hstart (Scaled.start x.limbs hpos)
  rw [Nat.zero_add] at hdone
  unfold bmul
  simp only [hloop, Option.bind_eq_bind, Option.bind_some]
  by_cases hzero : carry = 0
  · rw [flushCarry, if_pos hzero]
    exact ⟨_, rfl, hdone.finish hx hpos hzero⟩
  · obtain ⟨a', hwrite, hholds⟩ := hdone.finish_carry hx hm.le hfit hzero
    exact ⟨_, flushCarry_one (hdone.carry_lt.trans hm) hzero hwrite, hholds⟩

theorem positional_tail {f g : ℕ → ℕ} {i n : ℕ} (hin : i ≤ n)
    (h : ∀ j, i ≤ j → f j = g j) :
    positional (2 ^ 32) f n + positional (2 ^ 32) g i =
      positional (2 ^ 32) g n + positional (2 ^ 32) f i := by
  induction n, hin using Nat.le_induction with
  | base => exact Nat.add_comm _ _
  | succ n hin ih =>
      rw [positional_succ, positional_succ, h n hin]
      omega

/-- `badd` at limb `i`, started from `x₀`. -/
structure Adding (x₀ : Big) (v c : ℕ) (i : ℕ) (carry : ULong) (x : Big) : Prop where
  carry_lt : carry.toNat < 2 ^ 32
  n_eq : x.n = max x₀.n i
  above : ∀ j, i ≤ j → digit x.limbs j = digit x₀.limbs j
  value : positional (2 ^ 32) (digit x.limbs) i + carry.toNat * (2 ^ 32) ^ i =
    positional (2 ^ 32) (digit x₀.limbs) i + c
  tight : x.n = 1 ∨ (2 ^ 32) ^ (x.n - 1) ≤ v + c

theorem Adding.finish {x₀ x : Big} {v c i : ℕ} {carry : ULong} (hx : Holds x₀ v)
    (h : Adding x₀ v c i carry x) (hi : i ≤ nlimb) (hzero : carry = 0) :
    Holds x (v + c) := by
  have hvalue := h.value
  rw [hzero] at hvalue
  have hsum : positional (2 ^ 32) (digit x₀.limbs) x.n = v := by
    rw [← hx.value, h.n_eq]
    exact positional_extend (Nat.le_max_left _ _) fun j hj _ => hx.clear j hj
  have hn := h.n_eq
  have hpos := hx.n_pos
  have hle := hx.n_le
  refine ⟨⟨by omega, by omega, ?_, ?_⟩, h.tight⟩
  · intro j hj
    rw [h.above j (by omega)]
    exact hx.clear j (by omega)
  · have htail := positional_tail (n := x.n) (by omega) h.above
    rw [hsum] at htail
    simp only [BitVec.ofNat_eq_ofNat, BitVec.toNat_ofNat, Nat.zero_mod, Nat.zero_mul,
      Nat.add_zero] at hvalue
    omega

theorem Adding.step {x₀ x : Big} {v c i : ℕ} {carry : ULong} (hx : Holds x₀ v)
    (h : Adding x₀ v c i carry x) (hi : i < nlimb) (hne : carry ≠ 0) {w : UInt}
    (hw : w = if x.n ≤ i then 0 else x.limbs[i]) :
    Adding x₀ v c (i + 1) ((w.setWidth 64 + carry) >>> 32)
      ⟨x.limbs.set i (loWord (w.setWidth 64 + carry)) hi,
        if x.n ≤ i then i + 1 else x.n⟩ := by
  have hcarry := h.carry_lt
  have hn := h.n_eq
  have hpos := toNat_ne_zero hne
  have hwlt : w.toNat < 2 ^ 32 := w.isLt
  have hwdigit : w.toNat = digit x₀.limbs i := by
    rw [hw, ← h.above i le_rfl]
    by_cases hni : x.n ≤ i
    · rw [if_pos hni, h.above i le_rfl, hx.clear i (by omega)]
      rfl
    · rw [if_neg hni, digit, Vector.getElem?_eq_getElem hi]
      rfl
  have hcur : (w.setWidth 64 + carry).toNat = w.toNat + carry.toNat := by
    rw [BitVec.toNat_add, BitVec.toNat_setWidth_of_le (by decide),
      Nat.mod_eq_of_lt (by omega)]
  refine ⟨?_, ?_, ?_, ?_, ?_⟩
  · rw [toNat_shiftRight, hcur]
    omega
  · change (if x.n ≤ i then i + 1 else x.n) = _
    split_ifs <;> omega
  · intro j hj
    change digit (x.limbs.set i _ hi) j = _
    rw [digit_set, Function.update_of_ne (by omega)]
    exact h.above j (by omega)
  · change positional _ (digit (x.limbs.set i _ hi)) (i + 1) + _ = _
    have hsplit := Nat.div_add_mod (w.toNat + carry.toNat) (2 ^ 32)
    rw [digit_set, positional_update_next, positional_succ, loWord_toNat,
      toNat_shiftRight, hcur, ← hwdigit]
    calc positional (2 ^ 32) (digit x.limbs) i +
          (w.toNat + carry.toNat) % 2 ^ 32 * (2 ^ 32) ^ i +
          (w.toNat + carry.toNat) / 2 ^ 32 * (2 ^ 32) ^ (i + 1)
        = positional (2 ^ 32) (digit x.limbs) i +
          (2 ^ 32 * ((w.toNat + carry.toNat) / 2 ^ 32) +
            (w.toNat + carry.toNat) % 2 ^ 32) * (2 ^ 32) ^ i := by rw [pow_succ]; ring
      _ = positional (2 ^ 32) (digit x.limbs) i + carry.toNat * (2 ^ 32) ^ i +
          w.toNat * (2 ^ 32) ^ i := by rw [hsplit]; ring
      _ = _ := by rw [h.value]; ring
  · change (if x.n ≤ i then i + 1 else x.n) = 1 ∨ _
    by_cases hni : x.n ≤ i
    · -- the carry opens a limb, so the sum reaches it
      right
      have hvalue := h.value
      have hext := positional_extend (B := 2 ^ 32) (f := digit x₀.limbs)
        (show x₀.n ≤ i by omega) fun j hj _ => hx.clear j hj
      rw [hx.value] at hext
      have htop : 1 * (2 ^ 32) ^ i ≤ carry.toNat * (2 ^ 32) ^ i :=
        Nat.mul_le_mul_right _ (Nat.pos_of_ne_zero hpos)
      simp only [if_pos hni, Nat.add_sub_cancel]
      omega
    · simpa only [if_neg hni] using h.tight

theorem addLoop_spec {x₀ : Big} {v c : ℕ} (hx : Holds x₀ v)
    (hfit : v + c < (2 ^ 32) ^ nlimb) {i : ℕ} {carry : ULong} {x : Big}
    (hi : i ≤ nlimb) (h : Adding x₀ v c i carry x) :
    ∃ x', addLoop i carry x = some x' ∧ Holds x' (v + c) := by
  induction i, carry, x using addLoop.induct with
  | case1 i x =>
      rw [addLoop, if_pos rfl]
      exact ⟨x, rfl, h.finish hx hi rfl⟩
  | case2 i carry x hne hlt w n cur ih =>
      have hstep := h.step hx hlt hne (w := w) rfl
      rw [addLoop, if_neg hne, dif_pos hlt]
      exact ih hlt hstep
  | case3 i carry x hne hge =>
      -- every limb is used up, but the sum fits
      obtain rfl : i = nlimb := by omega
      have hvalue := h.value
      have hpos := toNat_ne_zero hne
      have htop : 1 * (2 ^ 32) ^ nlimb ≤ carry.toNat * (2 ^ 32) ^ nlimb :=
        Nat.mul_le_mul_right _ (Nat.pos_of_ne_zero hpos)
      rw [hx.full] at hvalue
      omega

theorem badd_spec {x : Big} {v : ℕ} (hx : Holds x v) {c : ULong}
    (hc : c.toNat < 2 ^ 32) (hfit : v + c.toNat < (2 ^ 32) ^ nlimb) :
    ∃ x', badd x c = some x' ∧ Holds x' (v + c.toNat) := by
  apply addLoop_spec hx hfit (Nat.zero_le _)
  refine ⟨hc, ?_, fun _ _ => rfl, by simp, ?_⟩
  · rw [Nat.max_eq_left (Nat.zero_le _)]
  · exact hx.tight.imp_right fun hle => hle.trans (Nat.le_add_right _ _)

theorem positional_update (f : ℕ → ℕ) {i n : ℕ} (d : ℕ) (hin : i < n) :
    positional (2 ^ 32) (Function.update f i d) n + f i * (2 ^ 32) ^ i =
      positional (2 ^ 32) f n + d * (2 ^ 32) ^ i := by
  have htail := positional_tail (f := Function.update f i d) (g := f)
    (Nat.succ_le_of_lt hin) fun j hj => Function.update_of_ne (by omega) d f
  rw [Nat.succ_eq_add_one, positional_update_next, positional_succ] at htail
  omega

section Trim

theorem trim_spec (a : Limbs) {n : ℕ} (hn : n ≤ nlimb) :
    ∃ n', trim a n = some n' ∧ n' ≤ n ∧ (0 < n → 0 < n') ∧
      (∀ i, n' ≤ i → i < n → digit a i = 0) ∧
      (n' ≤ 1 ∨ digit a (n' - 1) ≠ 0) := by
  induction n using trim.induct with
  | case1 n ih =>
      obtain ⟨x, hread, hx⟩ := readLimb_eq a (i := n + 1) (by omega)
      simp only [trim, hread, Option.bind_eq_bind, Option.bind_some]
      by_cases hzero : x = 0
      · obtain ⟨n', htrim, hle, hpos, hclear, htop⟩ := ih (by omega)
        refine ⟨n', by simpa [hzero] using htrim, by omega, by omega, ?_, htop⟩
        intro i hi hlt
        rcases Nat.lt_or_ge i (n + 1) with h | h
        · exact hclear i hi h
        · obtain rfl : i = n + 1 := by omega
          rw [← hx, hzero]
          rfl
      · refine ⟨n + 2, if_neg hzero, le_rfl, fun h => h, by omega, Or.inr ?_⟩
        change digit a (n + 1) ≠ 0
        rw [← hx]
        exact toNat_ne_zero hzero
  | case2 n hshape =>
      have hsmall : n ≤ 1 := by
        by_contra hcon
        exact hshape (n - 2) (by omega)
      refine ⟨n, ?_, le_rfl, fun h => h, by omega, Or.inl hsmall⟩
      rcases Nat.le_one_iff_eq_zero_or_eq_one.mp hsmall with rfl | rfl <;> rfl

/-- Trimming makes the length the least possible one. -/
theorem Denotes.trim {a : Limbs} {n v : ℕ} (h : Denotes ⟨a, n⟩ v) :
    ∃ n', Bignum.trim a n = some n' ∧ Holds ⟨a, n'⟩ v := by
  have hn : n ≤ nlimb := h.n_le
  have hvalue : positional (2 ^ 32) (digit a) n = v := h.value
  obtain ⟨n', htrim, hle, hpos, hclear, htop⟩ := trim_spec a hn
  refine ⟨n', htrim, ⟨hpos h.n_pos, hle.trans hn, ?_, ?_⟩, ?_⟩
  · intro i hi
    rcases Nat.lt_or_ge i n with hlt | hge
    · exact hclear i hi hlt
    · exact h.clear i hge
  · rw [← hvalue]
    exact (positional_extend hle hclear).symm
  · have hpos' := hpos h.n_pos
    rcases htop with hone | hne
    · exact Or.inl (Nat.le_antisymm hone hpos')
    · right
      rw [← hvalue]
      exact pow_le_positional (Nat.lt_of_lt_of_le (Nat.sub_lt hpos' Nat.one_pos) hle) hne

theorem bset_spec (v : ULong) : ∃ x, bset v = some x ∧ Holds x v.toNat := by
  have hv : v.toNat < 2 ^ 64 := v.isLt
  obtain ⟨a, hwrite, ha⟩ := writeLimb_eq zeroLimbs (i := 0) (by decide) (loWord v)
  obtain ⟨a', hwrite', ha'⟩ := writeLimb_eq a (i := 1) (by decide) (loWord (v >>> 32))
  have hdenotes : Denotes ⟨a', 2⟩ v.toNat := by
    refine ⟨Nat.two_pos, (by decide : 2 ≤ nlimb), ?_, ?_⟩
    · intro i (hi : 2 ≤ i)
      change digit a' i = 0
      rw [ha', Function.update_of_ne (by omega), ha, Function.update_of_ne (by omega)]
      exact digit_zeroLimbs i
    · change positional (2 ^ 32) (digit a') (1 + 1) = v.toNat
      rw [ha', positional_update_next, ha, positional_update_next, positional_zero,
        loWord_toNat, loWord_toNat, toNat_shiftRight]
      omega
  obtain ⟨n, htrim, hholds⟩ := hdenotes.trim
  refine ⟨_, ?_, hholds⟩
  unfold bset
  simp only [hwrite, hwrite', htrim, Option.bind_eq_bind, Option.bind_some]

end Trim

section Shift

theorem moveUp_spec (words n : ℕ) (a : Limbs) (hfit : n + words ≤ nlimb) :
    ∃ a', moveUp words n a = some a' ∧ ∀ j, digit a' j =
      if words ≤ j ∧ j < n + words then digit a (j - words) else digit a j := by
  induction n generalizing a with
  | zero =>
      refine ⟨a, rfl, fun j => ?_⟩
      rw [if_neg (by omega)]
  | succ n ih =>
      obtain ⟨x, hread, hx⟩ := readLimb_eq a (i := n) (by omega)
      obtain ⟨a₁, hwrite, ha₁⟩ := writeLimb_eq a (i := n + words) (by omega) x
      obtain ⟨a', hrun, ha'⟩ := ih a₁ (by omega)
      refine ⟨a', ?_, fun j => ?_⟩
      · simpa only [moveUp, hread, hwrite, Option.bind_eq_bind, Option.bind_some] using hrun
      · rw [ha' j, ha₁]
        by_cases hj : j = n + words
        · subst hj
          rw [if_neg (by omega), Function.update_self, if_pos (by omega),
            Nat.add_sub_cancel, hx]
        · rw [Function.update_of_ne hj]
          by_cases hin : words ≤ j ∧ j < n + words
          · rw [if_pos hin, if_pos (by omega), Function.update_of_ne (by omega)]
          · rw [if_neg hin, if_neg (by omega)]

theorem clearLimbs_spec (k i : ℕ) (a : Limbs) (hfit : i + k ≤ nlimb) :
    ∃ a', clearLimbs k i a = some a' ∧
      ∀ j, digit a' j = if i ≤ j ∧ j < i + k then 0 else digit a j := by
  induction k generalizing i a with
  | zero =>
      refine ⟨a, rfl, fun j => ?_⟩
      rw [if_neg (by omega)]
  | succ k ih =>
      obtain ⟨a₁, hwrite, ha₁⟩ := writeLimb_eq a (i := i) (by omega) 0
      obtain ⟨a', hrun, ha'⟩ := ih (i + 1) a₁ (by omega)
      refine ⟨a', ?_, fun j => ?_⟩
      · simpa only [clearLimbs, hwrite, Option.bind_eq_bind, Option.bind_some] using hrun
      · rw [ha' j, ha₁]
        by_cases hj : j = i
        · subst hj
          rw [if_neg (by omega), Function.update_self, if_pos (by omega)]
          rfl
        · rw [Function.update_of_ne hj]
          by_cases hin : i ≤ j ∧ j < i + (k + 1)
          · rw [if_pos (by omega), if_pos hin]
          · rw [if_neg (by omega), if_neg hin]

theorem shiftWords_spec {x : Big} {v words : ℕ} (hx : Holds x v) (hv : 0 < v)
    (hfit : v * (2 ^ 32) ^ words < (2 ^ 32) ^ nlimb) :
    ∃ x', shiftWords words x = some x' ∧ Holds x' (v * (2 ^ 32) ^ words) := by
  unfold shiftWords
  by_cases hwords : 0 < words
  · have hpos := hx.n_pos
    have htop : (2 ^ 32) ^ (x.n + words - 1) ≤ v * (2 ^ 32) ^ words := by
      rw [show x.n + words - 1 = x.n - 1 + words by omega, pow_add]
      exact Nat.mul_le_mul_right _ (hx.top_le hv)
    have hlen : x.n + words ≤ nlimb := by
      have := length_lt_of_lt htop hfit
      omega
    obtain ⟨a, hmove, ha⟩ := moveUp_spec words x.n x.limbs hlen
    obtain ⟨a', hclear, ha'⟩ := clearLimbs_spec words 0 a (by omega)
    rw [if_pos hwords]
    refine ⟨⟨a', x.n + words⟩, ?_, ⟨Nat.add_pos_left hpos _, hlen, ?_, ?_⟩, Or.inr htop⟩
    · simp only [hmove, hclear, Option.bind_eq_bind, Option.bind_some]
    · intro i (hi : x.n + words ≤ i)
      change digit a' i = 0
      rw [ha', if_neg (by omega), ha, if_neg (by omega)]
      exact hx.clear i (by omega)
    · change positional (2 ^ 32) (digit a') (x.n + words) = _
      have hzero : positional (2 ^ 32) (digit a') words = 0 := by
        apply positional_extend (Nat.zero_le words)
        intro i _ hi
        rw [ha', if_pos (by omega)]
      have hmoved : positional (2 ^ 32) (fun j => digit a' (words + j)) x.n = v := by
        rw [← hx.value]
        apply positional_congr
        intro i hi
        rw [ha', if_neg (by omega), ha, if_pos (by omega), Nat.add_sub_cancel_left]
      rw [Nat.add_comm, positional_split, hzero, hmoved, Nat.zero_add]
  · obtain rfl : words = 0 := by omega
    exact ⟨x, rfl, by simpa using hx⟩

theorem shiftBits_spec {x : Big} {v bits : ℕ} (hx : Holds x v) (hbits : bits < 32)
    (hfit : v * 2 ^ bits < (2 ^ 32) ^ nlimb) :
    ∃ x', shiftBits bits x = some x' ∧ Holds x' (v * 2 ^ bits) := by
  unfold shiftBits
  by_cases hpos : 0 < bits
  · have hpow : 2 ^ bits < 2 ^ 32 := Nat.pow_lt_pow_right (by decide) hbits
    have hcur : ∀ (w : UInt) (carry : ULong), carry.toNat < 2 ^ bits →
        ((w.setWidth 64 <<< bits) ||| carry).toNat = w.toNat * 2 ^ bits + carry.toNat := by
      intro w carry hcarry
      have hw : w.toNat < 2 ^ 32 := w.isLt
      have hprod : w.toNat * 2 ^ bits ≤ 2 ^ 32 * 2 ^ 32 :=
        Nat.mul_le_mul hw.le hpow.le
      have hwidth : (w.setWidth 64 : ULong).toNat = w.toNat :=
        BitVec.toNat_setWidth_of_le (by decide)
      have hshift : (w.setWidth 64 <<< bits : ULong).toNat = w.toNat * 2 ^ bits := by
        rw [toNat_shiftLeft_of_lt, hwidth]
        rw [hwidth]
        calc w.toNat * 2 ^ bits < 2 ^ 32 * 2 ^ bits :=
              Nat.mul_lt_mul_of_pos_right hw (Nat.two_pow_pos bits)
          _ ≤ 2 ^ 32 * 2 ^ 32 := Nat.mul_le_mul_left _ hpow.le
          _ = 2 ^ 64 := by norm_num
      rw [BitVec.toNat_or, hshift, Nat.mul_comm w.toNat,
        ← Nat.two_pow_add_eq_or_of_lt hcarry]
    have hstart : 0 + x.n ≤ nlimb := by rw [Nat.zero_add]; exact hx.n_le
    obtain ⟨carry, a, hloop, hdone⟩ :=
      carryLoop_spec hcur x.n hstart (Scaled.start x.limbs (Nat.two_pow_pos bits))
    rw [Nat.zero_add] at hdone
    rw [if_pos hpos]
    simp only [hloop, Option.bind_eq_bind, Option.bind_some]
    by_cases hzero : carry = 0
    · rw [if_neg (not_not.mpr hzero)]
      exact ⟨_, rfl, hdone.finish hx (Nat.two_pow_pos bits) hzero⟩
    · obtain ⟨a', hwrite, hholds⟩ := hdone.finish_carry hx hpow.le hfit hzero
      rw [if_pos hzero, hwrite]
      exact ⟨_, rfl, hholds⟩
  · obtain rfl : bits = 0 := by omega
    exact ⟨x, rfl, by simpa using hx⟩

theorem bshl_spec {x : Big} {v : ℕ} (hx : Holds x v) (hv : 0 < v) {k : ℕ}
    (hfit : v * 2 ^ k < (2 ^ 32) ^ nlimb) :
    ∃ x', bshl x k = some x' ∧ Holds x' (v * 2 ^ k) := by
  have hsplit : v * 2 ^ k = v * (2 ^ 32) ^ (k / 32) * 2 ^ (k % 32) := by
    rw [Nat.mul_assoc, ← pow_mul, ← pow_add, Nat.div_add_mod]
  rw [hsplit] at hfit ⊢
  have hwords : v * (2 ^ 32) ^ (k / 32) < (2 ^ 32) ^ nlimb :=
    (Nat.le_mul_of_pos_right _ (Nat.two_pow_pos (k % 32))).trans_lt hfit
  obtain ⟨x₁, hrun₁, hx₁⟩ := shiftWords_spec hx hv hwords
  obtain ⟨x₂, hrun₂, hx₂⟩ := shiftBits_spec hx₁ (Nat.mod_lt k (by decide)) hfit
  refine ⟨x₂, ?_, hx₂⟩
  simp only [bshl, hrun₁, hrun₂, Option.bind_eq_bind, Option.bind_some]

theorem copyLimbs_spec (b : Limbs) (k z : ℕ) (a : Limbs) (hfit : z + k ≤ nlimb) :
    ∃ a', copyLimbs b k z a = some a' ∧
      ∀ j, digit a' j = if z ≤ j ∧ j < z + k then digit b j else digit a j := by
  induction k generalizing z a with
  | zero =>
      refine ⟨a, rfl, fun j => ?_⟩
      rw [if_neg (by omega)]
  | succ k ih =>
      obtain ⟨x, hread, hx⟩ := readLimb_eq b (i := z) (by omega)
      obtain ⟨a₁, hwrite, ha₁⟩ := writeLimb_eq a (i := z) (by omega) x
      obtain ⟨a', hrun, ha'⟩ := ih (z + 1) a₁ (by omega)
      refine ⟨a', ?_, fun j => ?_⟩
      · simpa only [copyLimbs, hread, hwrite, Option.bind_eq_bind, Option.bind_some] using
          hrun
      · rw [ha' j, ha₁]
        by_cases hj : j = z
        · subst hj
          rw [if_neg (by omega), Function.update_self, if_pos (by omega), hx]
        · rw [Function.update_of_ne hj]
          by_cases hin : z ≤ j ∧ j < z + (k + 1)
          · rw [if_pos (by omega), if_pos hin]
          · rw [if_neg (by omega), if_neg hin]

/-- A cleared array that receives the limbs of a number holds that number. -/
theorem Holds.copy {x : Big} {v : ℕ} (h : Holds x v) :
    ∃ a, copyLimbs x.limbs x.n 0 zeroLimbs = some a ∧ Holds ⟨a, x.n⟩ v := by
  obtain ⟨a, hrun, ha⟩ := copyLimbs_spec x.limbs x.n 0 zeroLimbs
    (by rw [Nat.zero_add]; exact h.n_le)
  refine ⟨a, hrun, ⟨h.n_pos, h.n_le, ?_, ?_⟩, h.tight⟩
  · intro i (hi : x.n ≤ i)
    change digit a i = 0
    rw [ha, if_neg (by omega)]
    exact digit_zeroLimbs i
  · rw [← h.value]
    apply positional_congr
    intro i (hi : i < x.n)
    rw [ha, if_pos (by omega)]

end Shift

section Measure

theorem topLimb_spec (a : Limbs) {i : ℕ} (hi : i < nlimb) :
    ∃ t, topLimb a i = some t ∧ t ≤ i ∧ (∀ j, t < j → j ≤ i → digit a j = 0) ∧
      (t = 0 ∨ digit a t ≠ 0) := by
  induction i with
  | zero => exact ⟨0, rfl, le_rfl, by omega, Or.inl rfl⟩
  | succ i ih =>
      obtain ⟨x, hread, hx⟩ := readLimb_eq a hi
      simp only [topLimb, hread, Option.bind_eq_bind, Option.bind_some]
      by_cases hzero : x = 0
      · obtain ⟨t, hrun, hle, hclear, htop⟩ := ih (by omega)
        rw [if_pos hzero]
        refine ⟨t, hrun, by omega, fun j htj hji => ?_, htop⟩
        rcases Nat.lt_or_ge i j with hij | hij
        · obtain rfl : j = i + 1 := by omega
          rw [← hx, hzero]
          rfl
        · exact hclear j htj hij
      · rw [if_neg hzero]
        refine ⟨i + 1, rfl, le_rfl, by omega, Or.inr ?_⟩
        rw [← hx]
        exact toNat_ne_zero hzero

/-- Bit lengths add across a split at a power of two. -/
theorem size_split {t low k : ℕ} (ht : t ≠ 0) (hlow : low < 2 ^ k) :
    (low + t * 2 ^ k).size = k + t.size := by
  have hpow : 0 < 2 ^ k := Nat.two_pow_pos k
  apply Nat.le_antisymm
  · rw [Nat.size_le, pow_add]
    have htop : (t + 1) * 2 ^ k ≤ 2 ^ t.size * 2 ^ k :=
      Nat.mul_le_mul_right _ (Nat.lt_size_self t)
    rw [Nat.add_mul, Nat.one_mul, Nat.mul_comm (2 ^ t.size)] at htop
    omega
  · have hsize : 0 < t.size := Nat.size_pos.mpr (Nat.pos_of_ne_zero ht)
    have hge : 2 ^ (t.size - 1) ≤ t := Nat.lt_size.mp (Nat.sub_lt hsize Nat.one_pos)
    have hlt : k + (t.size - 1) < (low + t * 2 ^ k).size := by
      rw [Nat.lt_size, pow_add, Nat.mul_comm]
      have := Nat.mul_le_mul_right (2 ^ k) hge
      omega
    omega

theorem bbits_spec {x : Big} {v : ℕ} (hx : Denotes x v) : bbits x = some v.size := by
  have hpos := hx.n_pos
  have hle := hx.n_le
  obtain ⟨t, htop, hti, hclear, hlead⟩ := topLimb_spec x.limbs (i := x.n - 1) (by omega)
  obtain ⟨d, hread, hd⟩ := readLimb_eq x.limbs (i := t) (by omega)
  have hvalue : v = positional (2 ^ 32) (digit x.limbs) t + d.toNat * 2 ^ (t * 32) := by
    rw [← hx.value, positional_extend (n := t + 1) (by omega)
      fun i hi hlt => hclear i (by omega) (by omega), positional_succ, hd, ← pow_mul,
      Nat.mul_comm 32]
  unfold bbits
  simp only [htop, hread, Option.bind_eq_bind, Option.bind_some]
  by_cases hzero : d = 0
  · -- only the zero number has a zero leading limb
    rw [if_pos hzero]
    obtain rfl : t = 0 := by
      rcases hlead with h | h
      · exact h
      · rw [← hd, hzero] at h
        exact absurd rfl h
    rw [hvalue, hzero]
    rfl
  · have hlow : positional (2 ^ 32) (digit x.limbs) t < 2 ^ (t * 32) := by
      rw [Nat.mul_comm, pow_mul]
      exact positional_lt fun i _ => digit_lt x.limbs i
    rw [if_neg hzero, bitLength_eq_size, hvalue, size_split (toNat_ne_zero hzero) hlow]

theorem limbBelow_eq {x : Big} {v : ℕ} (hx : Denotes x v) {i : ℕ} (hi : i < nlimb) :
    ∃ d, limbBelow x i = some d ∧ d.toNat = digit x.limbs i := by
  unfold limbBelow
  by_cases hlt : i < x.n
  · rw [if_pos hlt]
    exact readLimb_eq x.limbs hi
  · rw [if_neg hlt]
    refine ⟨0, rfl, ?_⟩
    rw [hx.clear i (by omega)]
    rfl

theorem cmpLoop_spec {a b : Big} {v w : ℕ} (ha : Denotes a v) (hb : Denotes b w)
    {k : ℕ} (hk : k ≤ nlimb) :
    ∃ c, cmpLoop a b k = some c ∧ (0 ≤ c ↔
      positional (2 ^ 32) (digit b.limbs) k ≤ positional (2 ^ 32) (digit a.limbs) k) := by
  induction k with
  | zero => exact ⟨0, rfl, by simp⟩
  | succ k ih =>
      obtain ⟨x, hreadx, hx⟩ := limbBelow_eq ha (i := k) (by omega)
      obtain ⟨y, hready, hy⟩ := limbBelow_eq hb (i := k) (by omega)
      simp only [cmpLoop, hreadx, hready, Option.bind_eq_bind, Option.bind_some]
      by_cases heq : x = y
      · obtain ⟨c, hrun, hc⟩ := ih (by omega)
        refine ⟨c, by rw [if_neg (not_not.mpr heq)]; exact hrun, ?_⟩
        rw [hc, positional_succ, positional_succ, ← hx, ← hy, heq,
          Nat.add_le_add_iff_right]
      · have htop : ∀ {f g : ℕ → ℕ} (j : ℕ), k < j → j < k + 1 → f j = g j := by
          intro f g j hkj hjk
          omega
        rw [if_pos heq]
        by_cases hlt : y < x
        · rw [if_pos hlt]
          rw [BitVec.lt_def, hx, hy] at hlt
          have hless := positional_lt_of_top (B := 2 ^ 32) (fun j _ => digit_lt b.limbs j)
            (Nat.lt_succ_self k) hlt htop
          exact ⟨1, rfl, by simpa using hless.le⟩
        · rw [if_neg hlt]
          have hne : x.toNat ≠ y.toNat := fun h => heq (BitVec.eq_of_toNat_eq h)
          rw [BitVec.lt_def, hx, hy] at hlt
          have hlt' : digit a.limbs k < digit b.limbs k := by omega
          have hless := positional_lt_of_top (B := 2 ^ 32) (fun j _ => digit_lt a.limbs j)
            (Nat.lt_succ_self k) hlt' htop
          exact ⟨-1, rfl, iff_of_false (by decide) (Nat.not_le.mpr hless)⟩

theorem bcmp_spec {a b : Big} {v w : ℕ} (ha : Denotes a v) (hb : Denotes b w) :
    ∃ c, bcmp a b = some c ∧ (0 ≤ c ↔ w ≤ v) := by
  obtain ⟨c, hrun, hc⟩ := cmpLoop_spec ha hb (k := nlimb) le_rfl
  rw [ha.full, hb.full] at hc
  exact ⟨c, hrun, hc⟩

theorem zeroLoop_spec (a : Limbs) {k i : ℕ} (hik : i + k ≤ nlimb) :
    ∃ z, zeroLoop a k i = some z ∧
      (z = true ↔ ∀ j, i ≤ j → j < i + k → digit a j = 0) := by
  induction k generalizing i with
  | zero => exact ⟨true, rfl, by simp; omega⟩
  | succ k ih =>
      obtain ⟨x, hread, hx⟩ := readLimb_eq a (i := i) (by omega)
      simp only [zeroLoop, hread, Option.bind_eq_bind, Option.bind_some]
      by_cases hzero : x = 0
      · obtain ⟨z, hrun, hz⟩ := ih (i := i + 1) (by omega)
        refine ⟨z, by rw [if_neg (not_not.mpr hzero)]; exact hrun, hz.trans ?_⟩
        constructor
        · intro h j hij hjk
          rcases hij.eq_or_lt with rfl | hlt
          · rw [← hx, hzero]
            rfl
          · exact h j hlt (by omega)
        · exact fun h j hij hjk => h j (by omega) (by omega)
      · refine ⟨false, if_pos hzero, iff_of_false (by decide) fun h => ?_⟩
        exact toNat_ne_zero hzero (hx.trans (h i le_rfl (by omega)))

theorem bzero_spec {x : Big} {v : ℕ} (hx : Denotes x v) :
    bzero x = some (decide (v = 0)) := by
  obtain ⟨z, hrun, hz⟩ := zeroLoop_spec x.limbs (k := x.n) (i := 0)
    (by rw [Nat.zero_add]; exact hx.n_le)
  have hiff : z = true ↔ v = 0 := by
    rw [hz, ← hx.value, positional_eq_zero_iff (by decide)]
    simp
  rw [bzero, hrun]
  congr 1
  rw [Bool.eq_iff_iff, hiff, decide_eq_true_eq]

end Measure

section Subtract

/-- `bsub` at limb `i`. -/
structure Subtracting (a₀ a : Limbs) (b : Big) (i : ℕ) (borrow : ULong) : Prop where
  borrow_le : borrow.toNat ≤ 1
  above : ∀ j, i ≤ j → digit a j = digit a₀ j
  value : positional (2 ^ 32) (digit a) i + positional (2 ^ 32) (digit b.limbs) i =
    positional (2 ^ 32) (digit a₀) i + borrow.toNat * (2 ^ 32) ^ i

theorem Subtracting.step {a₀ a a' : Limbs} {b : Big} {i d e : ℕ}
    {borrow : ULong} (h : Subtracting a₀ a b i borrow) (borrow' : ULong)
    (hle : borrow'.toNat ≤ 1)
    (hd : d + (digit b.limbs i + borrow.toNat) = digit a i + e * 2 ^ 32)
    (he : borrow'.toNat = e) (ha' : digit a' = Function.update (digit a) i d) :
    Subtracting a₀ a' b (i + 1) borrow' := by
  refine ⟨hle, ?_, ?_⟩
  · intro j hj
    rw [ha', Function.update_of_ne (by omega)]
    exact h.above j (by omega)
  · have hvalue := h.value
    rw [ha', positional_update_next, positional_succ, positional_succ, he,
      ← h.above i le_rfl]
    have hscaled : (d + (digit b.limbs i + borrow.toNat)) * (2 ^ 32) ^ i =
        (digit a i + e * 2 ^ 32) * (2 ^ 32) ^ i := by rw [hd]
    have hpow : e * (2 ^ 32) ^ (i + 1) = e * 2 ^ 32 * (2 ^ 32) ^ i := by
      rw [pow_succ]
      ring
    rw [hpow]
    linarith

theorem subLoop_spec {b : Big} {w : ℕ} (hb : Denotes b w) {a₀ a : Limbs} {k i : ℕ}
    {borrow : ULong} (hik : i + k ≤ nlimb) (h : Subtracting a₀ a b i borrow) :
    ∃ a' borrow', subLoop b k i borrow a = some a' ∧
      Subtracting a₀ a' b (i + k) borrow' := by
  induction k generalizing i a borrow with
  | zero => exact ⟨a, borrow, rfl, h⟩
  | succ k ih =>
      obtain ⟨x, hreadx, hx⟩ := readLimb_eq a (i := i) (by omega)
      obtain ⟨y, hready, hy⟩ := limbBelow_eq hb (i := i) (by omega)
      have hxlt : x.toNat < 2 ^ 32 := x.isLt
      have hylt : y.toNat < 2 ^ 32 := y.isLt
      have hborrow := h.borrow_le
      have hxw : (x.setWidth 64 : ULong).toNat = x.toNat :=
        BitVec.toNat_setWidth_of_le (by decide)
      have hyw : (y.setWidth 64 + borrow : ULong).toNat = y.toNat + borrow.toNat := by
        rw [BitVec.toNat_add, BitVec.toNat_setWidth_of_le (by decide),
          Nat.mod_eq_of_lt (by omega)]
      have hcmp : y.setWidth 64 + borrow ≤ x.setWidth 64 ↔
          y.toNat + borrow.toNat ≤ x.toNat := by rw [BitVec.le_def, hxw, hyw]
      rw [show i + (k + 1) = i + 1 + k by omega] at hik ⊢
      simp only [subLoop, hreadx, hready, Option.bind_eq_bind, Option.bind_some]
      by_cases hle : y.toNat + borrow.toNat ≤ x.toNat
      · have hdiff : ((x.setWidth 64 - (y.setWidth 64 + borrow) : ULong).setWidth 32 :
            UInt).toNat = x.toNat - (y.toNat + borrow.toNat) := by
          rw [BitVec.toNat_setWidth, BitVec.toNat_sub_of_le (hcmp.mpr hle), hxw, hyw]
          omega
        obtain ⟨a', hwrite, ha'⟩ := writeLimb_eq a (i := i) (by omega)
          ((x.setWidth 64 - (y.setWidth 64 + borrow) : ULong).setWidth 32)
        rw [hdiff] at ha'
        have hstep := h.step 0 (e := 0) (by decide) (by omega) rfl ha'
        obtain ⟨a'', borrow'', hrun, hdone⟩ := ih hik hstep
        refine ⟨a'', borrow'', ?_, hdone⟩
        rw [if_pos (hcmp.mpr hle), hwrite]
        exact hrun
      · have hdiff : ((x.setWidth 64 + 0x100000000 - (y.setWidth 64 + borrow) :
            ULong).setWidth 32 : UInt).toNat =
              x.toNat + 2 ^ 32 - (y.toNat + borrow.toNat) := by
          have hsum : (x.setWidth 64 + 0x100000000 : ULong).toNat = x.toNat + 2 ^ 32 := by
            have hbase : (0x100000000 : ULong).toNat = 2 ^ 32 := by decide
            rw [BitVec.toNat_add, hxw, hbase, Nat.mod_eq_of_lt (by omega)]
          have hless : y.setWidth 64 + borrow ≤ (x.setWidth 64 + 0x100000000 : ULong) := by
            rw [BitVec.le_def, hsum, hyw]
            omega
          rw [BitVec.toNat_setWidth, BitVec.toNat_sub_of_le hless, hsum, hyw]
          omega
        obtain ⟨a', hwrite, ha'⟩ := writeLimb_eq a (i := i) (by omega)
          ((x.setWidth 64 + 0x100000000 - (y.setWidth 64 + borrow) : ULong).setWidth 32)
        rw [hdiff] at ha'
        have hstep := h.step 1 (e := 1) (by decide) (by omega) rfl ha'
        obtain ⟨a'', borrow'', hrun, hdone⟩ := ih hik hstep
        refine ⟨a'', borrow'', ?_, hdone⟩
        rw [if_neg (fun h => hle (hcmp.mp h)), hwrite]
        exact hrun

theorem bsub_spec {a b : Big} {v w : ℕ} (ha : Denotes a v) (hb : Denotes b w)
    (hle : w ≤ v) : ∃ x, bsub a b = some x ∧ Holds x (v - w) := by
  have hstart : Subtracting a.limbs a.limbs b 0 0 :=
    ⟨by decide, fun _ _ => rfl, by simp⟩
  obtain ⟨limbs, borrow, hrun, hdone⟩ := subLoop_spec hb (k := nlimb) (by simp) hstart
  rw [Nat.zero_add] at hdone
  have hvalue := hdone.value
  rw [ha.full, hb.full] at hvalue
  have hlt : positional (2 ^ 32) (digit limbs) nlimb < (2 ^ 32) ^ nlimb :=
    positional_lt fun i _ => digit_lt limbs i
  -- a borrow out of the top limb would make the difference too large
  have hborrow : borrow.toNat = 0 := by
    have hcases := hdone.borrow_le
    by_contra hne
    have hone : borrow.toNat = 1 := by omega
    rw [hone, Nat.one_mul] at hvalue
    omega
  rw [hborrow, Nat.zero_mul, Nat.add_zero] at hvalue
  have hclear : ∀ i, a.n ≤ i → digit limbs i = 0 := by
    intro i hi
    by_contra hne
    rcases Nat.lt_or_ge i nlimb with hin | hin
    · have hpow := pow_le_positional (B := 2 ^ 32) hin hne
      have hmono : (2 ^ 32) ^ a.n ≤ (2 ^ 32) ^ i := Nat.pow_le_pow_right (by decide) hi
      have := ha.lt
      omega
    · apply hne
      rw [hdone.above i hin]
      exact ha.clear i hi
  have hdenotes : Denotes ⟨limbs, a.n⟩ (v - w) := by
    refine ⟨ha.n_pos, ha.n_le, hclear, ?_⟩
    have hext := positional_extend (B := 2 ^ 32) ha.n_le fun i hi _ => hclear i hi
    change positional (2 ^ 32) (digit limbs) a.n = v - w
    omega
  obtain ⟨n, htrim, hholds⟩ := hdenotes.trim
  refine ⟨_, ?_, hholds⟩
  simp only [bsub, hrun, htrim, Option.bind_eq_bind, Option.bind_some]

end Subtract

section Bits

/-- All limbs of an array, whatever length is kept with it. -/
def whole (a : Limbs) : ℕ := positional (2 ^ 32) (digit a) nlimb

theorem bitAt_eq (a : Limbs) {i : ℕ} (hi : i < 32 * nlimb) :
    ∃ bit, bitAt a i = some bit ∧ bit.toNat = whole a / 2 ^ i % 2 := by
  have hword : i / 32 < nlimb := Nat.div_lt_of_lt_mul hi
  obtain ⟨x, hread, hx⟩ := readLimb_eq a hword
  refine ⟨(x >>> (i % 32)) &&& 1, by rw [bitAt, hread]; rfl, ?_⟩
  have hdigit := digit_eq (B := 2 ^ 32) (fun j _ => digit_lt a j) hword
  have hr : i % 32 < 32 := Nat.mod_lt i (by decide)
  have hbase : (2 : ℕ) ^ 32 = 2 ^ (i % 32) * 2 ^ (31 - i % 32) * 2 := by
    rw [← pow_add, ← pow_succ]
    congr 1
    omega
  have hbit : ((x >>> (i % 32)) &&& 1).toNat = x.toNat / 2 ^ (i % 32) % 2 := by
    rw [BitVec.toNat_and, toNat_shiftRight]
    exact Nat.and_two_pow_sub_one_eq_mod _ 1
  calc ((x >>> (i % 32)) &&& 1).toNat
      = whole a / (2 ^ 32) ^ (i / 32) % 2 ^ 32 / 2 ^ (i % 32) % 2 := by
        rw [hbit, hx, hdigit, whole]
    _ = whole a / (2 ^ 32) ^ (i / 32) / 2 ^ (i % 32) % 2 := by
        generalize whole a / (2 ^ 32) ^ (i / 32) = rest
        rw [hbase, Nat.mul_assoc, Nat.mod_mul_right_div_self,
          Nat.mod_mod_of_dvd _ (Nat.dvd_mul_left 2 _)]
    _ = whole a / 2 ^ i % 2 := by
        rw [Nat.div_div_eq_div_mul, ← pow_mul, ← pow_add, Nat.div_add_mod]

theorem takeBits_spec (a : Limbs) (drop : ℕ) {k : ℕ} {v : ULong}
    (hfit : drop + k ≤ 32 * nlimb) (hv : v.toNat * 2 ^ k + 2 ^ k ≤ 2 ^ 64) :
    ∃ v', takeBits a drop k v = some v' ∧
      v'.toNat = v.toNat * 2 ^ k + whole a / 2 ^ drop % 2 ^ k := by
  induction k generalizing v with
  | zero => exact ⟨v, rfl, by simp [Nat.mod_one]⟩
  | succ k ih =>
      obtain ⟨bit, hread, hbit⟩ := bitAt_eq a (i := drop + k) (by omega)
      have hpow : 0 < 2 ^ k := Nat.two_pow_pos k
      have hbit1 : bit.toNat < 2 := by
        rw [hbit]
        exact Nat.mod_lt _ (by decide)
      rw [pow_succ] at hv
      have hdouble : v.toNat * 2 + 2 ≤ 2 ^ 64 := by
        calc v.toNat * 2 + 2 = (v.toNat * 2 + 2) * 1 := (Nat.mul_one _).symm
          _ ≤ (v.toNat * 2 + 2) * 2 ^ k := Nat.mul_le_mul_left _ hpow
          _ = v.toNat * (2 ^ k * 2) + 2 ^ k * 2 := by ring
          _ ≤ 2 ^ 64 := hv
      have hshift : (v <<< 1).toNat = v.toNat * 2 :=
        toNat_shiftLeft_of_lt (by omega)
      have hnext : ((v <<< 1) ||| bit.setWidth 64 : ULong).toNat =
          v.toNat * 2 + bit.toNat := by
        rw [BitVec.toNat_or, hshift, BitVec.toNat_setWidth_of_le (by decide), Nat.mul_comm]
        exact (Nat.two_pow_add_eq_or_of_lt (i := 1) hbit1 v.toNat).symm
      have hfit' : ((v <<< 1) ||| bit.setWidth 64 : ULong).toNat * 2 ^ k + 2 ^ k ≤
          2 ^ 64 := by
        rw [hnext]
        calc (v.toNat * 2 + bit.toNat) * 2 ^ k + 2 ^ k
            = v.toNat * (2 ^ k * 2) + (bit.toNat + 1) * 2 ^ k := by ring
          _ ≤ v.toNat * (2 ^ k * 2) + 2 * 2 ^ k :=
              Nat.add_le_add_left (Nat.mul_le_mul_right _ hbit1) _
          _ ≤ 2 ^ 64 := by omega
      obtain ⟨v', hrun, hv'⟩ := ih (by omega) hfit'
      refine ⟨v', ?_, ?_⟩
      · simpa only [takeBits, hread, Option.bind_eq_bind, Option.bind_some] using hrun
      · rw [hv', hnext, hbit, Nat.mod_pow_succ, Nat.div_div_eq_div_mul, ← pow_add]
        ring

theorem anyBit_spec (a : Limbs) {i : ℕ} (hi : i ≤ 32 * nlimb) :
    anyBit a i = some (decide (whole a % 2 ^ i ≠ 0)) := by
  induction i with
  | zero => simp [anyBit, Nat.mod_one]
  | succ i ih =>
      obtain ⟨bit, hread, hbit⟩ := bitAt_eq a (i := i) (by omega)
      simp only [anyBit, hread, Option.bind_eq_bind, Option.bind_some]
      rw [Nat.mod_pow_succ, ← hbit]
      by_cases hzero : bit = 0
      · rw [if_neg (not_not.mpr hzero), ih (by omega), hzero]
        simp
      · have hpos := toNat_ne_zero hzero
        have hprod : 0 < 2 ^ i * bit.toNat :=
          Nat.mul_pos (Nat.two_pow_pos i) (Nat.pos_of_ne_zero hpos)
        rw [if_pos hzero]
        congr 1
        rw [eq_comm, decide_eq_true_eq]
        omega

/-- The leading bits of a number and whether anything was dropped. -/
theorem btop_spec {x : Big} {v : ℕ} (hx : Denotes x v) {want : ℕ} (hwant : want ≤ 64) :
    ∃ sig, btop x want =
        some (sig, decide (v % 2 ^ (v.size - want) ≠ 0), (v.size : ℤ) - want) ∧
      sig.toNat = v / 2 ^ (v.size - want) := by
  have hwhole : whole x.limbs = v := hx.full
  have hsize : v.size ≤ 32 * nlimb := by
    rw [Nat.size_le, pow_mul]
    exact hx.lt.trans_le (Nat.pow_le_pow_right (by decide) hx.n_le)
  have hpow64 : 2 ^ want ≤ 2 ^ 64 := Nat.pow_le_pow_right (by decide) hwant
  unfold btop
  simp only [bbits_spec hx, Option.bind_eq_bind, Option.bind_some]
  by_cases hdrop : (v.size : ℤ) - want ≤ 0
  · have hle : 2 ^ v.size ≤ 2 ^ want := Nat.pow_le_pow_right (by decide) (by omega)
    obtain ⟨sig, hrun, hsig⟩ := takeBits_spec x.limbs 0 (k := v.size) (v := 0)
      (by omega) (by simp only [BitVec.ofNat_eq_ofNat, BitVec.toNat_ofNat]; omega)
    refine ⟨sig, ?_, ?_⟩
    · simp only [if_pos hdrop, hrun, Option.bind_some, show v.size - want = 0 by omega]
      simp [Nat.mod_one]
    · rw [hsig, hwhole, show v.size - want = 0 by omega, pow_zero, Nat.div_one,
        Nat.mod_eq_of_lt (Nat.lt_size_self v)]
      simp
  · obtain ⟨sig, hrun, hsig⟩ := takeBits_spec x.limbs (v.size - want) (k := want) (v := 0)
      (by omega) (by simp only [BitVec.ofNat_eq_ofNat, BitVec.toNat_ofNat]; omega)
    have hany := anyBit_spec x.limbs (i := v.size - want) (by omega)
    rw [hwhole] at hsig hany
    refine ⟨sig, ?_, ?_⟩
    · simp only [if_neg hdrop, hrun, hany, Option.bind_some]
    · have hlt : v / 2 ^ (v.size - want) < 2 ^ want := by
        apply Nat.div_lt_of_lt_mul
        rw [← pow_add, show v.size - want + want = v.size by omega]
        exact Nat.lt_size_self v
      rw [hsig, Nat.mod_eq_of_lt hlt]
      simp

theorem setBit_spec {a : Limbs} {j : ℕ} (hj : j < 32 * nlimb)
    (hclear : whole a % 2 ^ (j + 1) = 0) :
    ∃ a', setBit a j = some a' ∧ whole a' = whole a + 2 ^ j := by
  have hword : j / 32 < nlimb := Nat.div_lt_of_lt_mul hj
  have hr : j % 32 < 32 := Nat.mod_lt j (by decide)
  obtain ⟨x, hread, hx⟩ := readLimb_eq a hword
  obtain ⟨a', hwrite, ha'⟩ := writeLimb_eq a hword (x ||| ((1 : UInt) <<< (j % 32)))
  refine ⟨a', by rw [setBit, hread]; exact hwrite, ?_⟩
  have hsplit : j + 1 = 32 * (j / 32) + (j % 32 + 1) := by omega
  -- the limb is a multiple of twice the bit
  have hlimb : x.toNat % 2 ^ (j % 32 + 1) = 0 := by
    have hdigit := digit_eq (B := 2 ^ 32) (fun i _ => digit_lt a i) hword
    have hdvd : 2 ^ (j % 32 + 1) ∣ 2 ^ 32 := Nat.pow_dvd_pow 2 (by omega)
    rw [hx, hdigit, Nat.mod_mod_of_dvd _ hdvd, ← pow_mul, ← Nat.mod_mul_right_div_self,
      ← pow_add, ← hsplit]
    change whole a % 2 ^ (j + 1) / _ = 0
    rw [hclear, Nat.zero_div]
  have hone : ((1 : UInt) <<< (j % 32)).toNat = 2 ^ (j % 32) := one_shift_toNat hr
  have hor : (x ||| ((1 : UInt) <<< (j % 32))).toNat = x.toNat + 2 ^ (j % 32) := by
    have hdiv := Nat.div_add_mod x.toNat (2 ^ (j % 32 + 1))
    rw [hlimb, Nat.add_zero] at hdiv
    rw [BitVec.toNat_or, hone, ← hdiv]
    exact (Nat.two_pow_add_eq_or_of_lt
      (Nat.pow_lt_pow_right (by decide) (Nat.lt_succ_self _)) _).symm
  have hupdate := positional_update (digit a) (x ||| ((1 : UInt) <<< (j % 32))).toNat hword
  rw [← ha', hor, ← hx, Nat.add_mul, ← pow_mul, ← pow_add,
    Nat.add_comm (j % 32), Nat.div_add_mod] at hupdate
  unfold whole
  omega

end Bits

end Bignum

end Veron
