/-
A position of the output as nine decimal digits: written by `emitpos` of
`pico-c-assembler-arm64.s`, read by `parse_dec` of `self-assembler-arm64.s`.
-/
import Veron.A64Program

namespace Veron.A64.EmitPos

open Command

def emitpos : Program :=
  [label ['4'],
    instr (.movWide .movz .x 2 9),
    instr (.addSubImm .add .x 4 23 9),
   label ['5'],
    instr (.movWide .movz .x 5 0),
   label ['6'],
    instr (.cmpImm .x 0 10),
    branch (some .lt) ['7'],
    instr (.addSubImm .sub .x 0 0 10),
    instr (.addSubImm .add .x 5 5 1),
    branch none ['6'],
   label ['7'],
    instr (.addSubImm .add .x 0 0 48),
    instr (.addSubImm .sub .x 4 4 1),
    instr (.byteReg .str 0 22 4),
    instr (.movReg .x 0 5),
    instr (.addSubImm .sub .x 2 2 1),
    instr (.cmpImm .x 2 0),
    branch (some .ne) ['5'],
    instr (.addSubImm .add .x 23 23 9),
    ret]

def parseDec : Program :=
  [label ['p', 'a', 'r', 's', 'e', '_', 'd', 'e', 'c'],
    instr (.movWide .movz .w 0 0),
   label ['p', 'd', '_', 'l'],
    instr (.cmpReg .x 20 21),
    branch (some .ge) ['p', 'd', '_', 'r'],
    instr (.byteReg .ldr 10 19 20),
    instr (.cmpImm .w 10 0x30),
    branch (some .lt) ['p', 'd', '_', 'r'],
    instr (.cmpImm .w 10 0x39),
    branch (some .gt) ['p', 'd', '_', 'r'],
    instr (.addSubImm .sub .w 10 10 0x30),
    instr (.movWide .movz .w 11 0xa),
    instr (.mul .w 0 0 11),
    instr (.addSubReg .add .w 0 0 10),
    instr (.addSubImm .add .x 20 20 1),
    branch none ['p', 'd', '_', 'l'],
   label ['p', 'd', '_', 'r'],
    ret]

/-- The digit of `n` for the power `k` of ten. -/
def digit (n k : ℕ) : UInt8 := UInt8.ofNat (n / 10 ^ k % 10 + 48)

variable {s : Machine} {n : ℕ}

theorem less_ten (hn : n < 2 ^ 63) (hs : s.reg 0 = BitVec.ofNat 64 n) :
    Cond.lt.holds (compare (s.reg 0) (BitVec.ofNat 64 10)) = decide (n < 10) := by
  rw [compare_eq_compareBits, hs]
  exact lt_holds hn (by decide)

/-- The inner loop divides by ten. -/
theorem divide (q r : ℕ) (hr : r < 10) (hlt : 10 * q + r < 2 ^ 63) (s : Machine)
    (hs : s.reg 0 = BitVec.ofNat 64 (10 * q + r)) : ∃ t : Machine,
      emitpos.Reaches (5, s) (11, t) ∧ t.mem = s.mem ∧ t.reg 0 = BitVec.ofNat 64 r ∧
        t.reg 5 = s.reg 5 + BitVec.ofNat 64 q ∧ ∀ k, k ≠ 0 → k ≠ 5 → t.reg k = s.reg k := by
  induction q generalizing s with
  | zero =>
      let t : Machine := { s with flags := compare (s.reg 0) (BitVec.ofNat 64 10) }
      have htaken : Cond.lt.holds t.flags = true := by
        rw [less_ten hlt hs]
        exact decide_eq_true (by omega)
      refine ⟨t, ?_, rfl, ?_, ?_, fun _ _ _ => rfl⟩
      · exact .next rfl <| .next rfl <| .next (Program.step_taken rfl htaken rfl) (.refl _)
      · rw [hs, Nat.mul_zero, Nat.zero_add]
      · exact (BitVec.add_zero _).symm
  | succ q ih =>
      let t : Machine := { s with flags := compare (s.reg 0) (BitVec.ofNat 64 10) }
      have hpassed : Cond.lt.holds t.flags = false := by
        rw [less_ten hlt hs]
        exact decide_eq_false (by omega)
      let less := t.set 0 (s.reg 0 - BitVec.ofNat 64 10)
      let next := less.set 5 (less.reg 5 + BitVec.ofNat 64 1)
      have hnext : next.reg 0 = BitVec.ofNat 64 (10 * q + r) := by
        have hsum : 10 * (q + 1) + r = 10 * q + r + 10 := by omega
        have hless : next.reg 0 = s.reg 0 - BitVec.ofNat 64 10 :=
          (less.set_reg_of_ne _ (by decide)).trans (t.set_reg_self 0 _)
        rw [hless, hs, hsum, BitVec.ofNat_add, BitVec.add_sub_cancel]
      have hfive : next.reg 5 = s.reg 5 + BitVec.ofNat 64 1 :=
        (less.set_reg_self 5 _).trans
          (congrArg (· + BitVec.ofNat 64 1) (t.set_reg_of_ne _ (by decide)))
      obtain ⟨u, hreach, hmem, hu0, hu5, hframe⟩ := ih (by omega) next hnext
      refine ⟨u, ?_, hmem, hu0, ?_, fun k hk0 hk5 => ?_⟩
      · exact .next rfl <| .next rfl <| .next (Program.step_passed rfl hpassed) <|
          .next rfl <| .next rfl <| .next (Program.step_taken rfl rfl rfl) hreach
      · rw [hu5, hfive, BitVec.add_assoc, ← BitVec.ofNat_add, Nat.add_comm 1 q]
      · rw [hframe k hk0 hk5]
        exact (less.set_reg_of_ne _ hk5).trans (t.set_reg_of_ne _ hk0)

/-- Memory with the last `k` digits of `n` at an address. -/
def withDigits (mem : Reg → UInt8) (a : Reg) (k n : ℕ) : Reg → UInt8 := fun x =>
  if (x - a).toNat < k then digit n (k - 1 - (x - a).toNat) else mem x

theorem digit_div (n k : ℕ) : digit (n / 10) k = digit n (k + 1) := by
  rw [digit, digit, Nat.div_div_eq_div_mul, Nat.pow_succ']

/-- The last digit, and before it those of the quotient. -/
theorem withDigits_update (mem : Reg → UInt8) (a : Reg) {k : ℕ} (hk : k < 2 ^ 64) (n : ℕ) :
    withDigits (Function.update mem (a + BitVec.ofNat 64 k) (digit n 0)) a k (n / 10) =
      withDigits mem a (k + 1) n := by
  funext x
  have hlast : x = a + BitVec.ofNat 64 k ↔ (x - a).toNat = k := by
    rw [BitVec.add_comm, ← BitVec.sub_eq_iff_eq_add, ← BitVec.toNat_inj, BitVec.toNat_ofNat,
      Nat.mod_eq_of_lt hk]
  rw [withDigits, withDigits]
  by_cases hlt : (x - a).toNat < k
  · rw [if_pos hlt, if_pos (Nat.lt_succ_of_lt hlt), digit_div]
    congr 1
    omega
  · rw [if_neg hlt]
    by_cases hx : x = a + BitVec.ofNat 64 k
    · rw [if_pos (Nat.lt_succ_of_le (Nat.le_of_eq (hlast.mp hx))), hx, Function.update_self]
      congr 1
      have hk := (hx ▸ hlast).mp rfl
      omega
    · have hne : (x - a).toNat ≠ k := fun h => hx (hlast.mpr h)
      rw [if_neg (by omega), Function.update_of_ne hx]

theorem withDigits_zero (mem : Reg → UInt8) (a : Reg) (n : ℕ) : withDigits mem a 0 n = mem :=
  funext fun _ => if_neg (Nat.not_lt_zero _)

theorem digit_eq {r : ℕ} (hr : r = n % 10) :
    UInt8.ofNat (BitVec.ofNat 64 r + BitVec.ofNat 64 48).toNat = digit n 0 := by
  have hlt : r < 10 := by
    rw [hr]
    exact Nat.mod_lt n (by decide)
  rw [← BitVec.ofNat_add, BitVec.toNat_ofNat, Nat.mod_eq_of_lt (by omega), digit, Nat.pow_zero,
    Nat.div_one, hr]

/-- One pass of the outer loop, up to its branch. -/
theorem pass {k : ℕ} {c : Reg} (hn : n < 2 ^ 63) (h0 : s.reg 0 = BitVec.ofNat 64 n)
    (h2 : s.reg 2 = BitVec.ofNat 64 (k + 1)) (h4 : s.reg 4 = c + BitVec.ofNat 64 (k + 1)) :
    ∃ t : Machine, emitpos.Reaches (3, s) (18, t) ∧
      t.mem = Function.update s.mem (s.reg 22 + c + BitVec.ofNat 64 k) (digit n 0) ∧
      t.flags = compare (BitVec.ofNat 64 k) (BitVec.ofNat 64 0) ∧
      t.reg 0 = BitVec.ofNat 64 (n / 10) ∧ t.reg 2 = BitVec.ofNat 64 k ∧
      t.reg 4 = c + BitVec.ofNat 64 k ∧
      ∀ j, j ∉ [0, 2, 4, 5] → t.reg j = s.reg j := by
  let start := s.set 5 (BitVec.ofNat 64 0)
  have hsplit : 10 * (n / 10) + n % 10 = n := Nat.div_add_mod n 10
  have hstart : start.reg 0 = BitVec.ofNat 64 (10 * (n / 10) + n % 10) := by
    rw [hsplit]
    exact (s.set_reg_of_ne _ (by decide)).trans h0
  obtain ⟨t, hreach, hmem, ht0, ht5, hframe⟩ :=
    divide (n / 10) (n % 10) (Nat.mod_lt n (by decide)) (by omega) start hstart
  have hpred : BitVec.ofNat 64 (k + 1) - BitVec.ofNat 64 1 = BitVec.ofNat 64 k := by
    rw [BitVec.ofNat_add, BitVec.add_sub_cancel]
  have hold {j : ℕ} (hj : j ≠ 0) (hj' : j ≠ 5) : t.reg j = s.reg j :=
    (hframe j hj hj').trans (s.set_reg_of_ne _ hj')
  let t₁ := t.set 0 (t.reg 0 + BitVec.ofNat 64 48)
  let t₂ := t₁.set 4 (t₁.reg 4 - BitVec.ofNat 64 1)
  let low := UInt8.ofNat (t₂.reg 0).toNat
  let t₃ : Machine := { t₂ with mem := Function.update t₂.mem (t₂.reg 22 + t₂.reg 4) low }
  let t₄ := t₃.set 0 (t₃.reg 5)
  let t₅ := t₄.set 2 (t₄.reg 2 - BitVec.ofNat 64 1)
  let t₆ : Machine := { t₅ with flags := compare (t₅.reg 2) (BitVec.ofNat 64 0) }
  have hfour : t₂.reg 4 = c + BitVec.ofNat 64 k := by
    have hsub : t₂.reg 4 = t.reg 4 - BitVec.ofNat 64 1 := rfl
    rw [hsub, hold (by decide) (by decide), h4, BitVec.ofNat_add, ← BitVec.add_assoc,
      BitVec.add_sub_cancel]
  have htwo : t₅.reg 2 = BitVec.ofNat 64 k := by
    have hsub : t₅.reg 2 = t.reg 2 - BitVec.ofNat 64 1 := rfl
    rw [hsub, hold (by decide) (by decide), h2, hpred]
  have hlow : low = digit n 0 := by
    have hsum : t₂.reg 0 = t.reg 0 + BitVec.ofNat 64 48 := rfl
    change UInt8.ofNat (t₂.reg 0).toNat = _
    rw [hsum, ht0]
    exact digit_eq rfl
  refine ⟨t₆, ?_, ?_, congrArg (compare · _) htwo, ?_, htwo, hfour, fun j hj => ?_⟩
  · refine .next rfl <| .next rfl <| hreach.trans ?_
    exact .next rfl <| .next rfl <| .next rfl <| .next rfl <| .next rfl <| .next rfl <|
      .next rfl (.refl _)
  · have hbase : t₂.reg 22 = s.reg 22 := hold (by decide) (by decide)
    change Function.update t.mem (t₂.reg 22 + t₂.reg 4) low = _
    rw [hmem, hbase, hfour, hlow, BitVec.add_assoc]
    rfl
  · have hquotient : t₆.reg 0 = t.reg 5 := rfl
    rw [hquotient, ht5]
    exact BitVec.zero_add _
  · simp only [List.mem_cons, List.not_mem_nil, or_false, not_or] at hj
    obtain ⟨hj0, hj2, hj4, hj5⟩ := hj
    calc t₆.reg j = t₄.reg j := t₄.set_reg_of_ne _ hj2
      _ = t₃.reg j := t₃.set_reg_of_ne _ hj0
      _ = t₁.reg j := t₁.set_reg_of_ne _ hj4
      _ = t.reg j := t.set_reg_of_ne _ hj0
      _ = s.reg j := hold hj0 hj5

/-- The outer loop writes a digit in each pass, from the last one on. -/
theorem write (k : ℕ) (hk : k < 2 ^ 63) {c : Reg} (n : ℕ) (hn : n < 2 ^ 63) (s : Machine)
    (h0 : s.reg 0 = BitVec.ofNat 64 n) (h2 : s.reg 2 = BitVec.ofNat 64 (k + 1))
    (h4 : s.reg 4 = c + BitVec.ofNat 64 (k + 1)) : ∃ t : Machine,
      emitpos.Reaches (3, s) (19, t) ∧ t.mem = withDigits s.mem (s.reg 22 + c) (k + 1) n ∧
        ∀ j, j ∉ [0, 2, 4, 5] → t.reg j = s.reg j := by
  induction k generalizing n s with
  | zero =>
      obtain ⟨t, hreach, hmem, hflags, -, -, -, hframe⟩ := pass hn h0 h2 h4
      have hpassed : Cond.ne.holds t.flags = false := by
        rw [hflags, compare_eq_compareBits, ne_holds hk hk]
        rfl
      refine ⟨t, hreach.trans (.next (Program.step_passed rfl hpassed) (.refl _)), ?_, hframe⟩
      rw [hmem, ← withDigits_update _ _ (by decide), withDigits_zero]
  | succ k ih =>
      obtain ⟨t, hreach, hmem, hflags, ht0, ht2, ht4, hframe⟩ := pass hn h0 h2 h4
      have htaken : Cond.ne.holds t.flags = true := by
        rw [hflags, compare_eq_compareBits, ne_holds hk (by decide)]
        exact decide_eq_true (Nat.succ_ne_zero k)
      obtain ⟨u, hreach', hmem', hframe'⟩ :=
        ih (Nat.lt_of_succ_lt hk) (n / 10) (by omega) t ht0 ht2 ht4
      refine ⟨u, hreach.trans (.next (Program.step_taken rfl htaken rfl) hreach'), ?_,
        fun j hj => (hframe' j hj).trans (hframe j hj)⟩
      rw [hmem', hmem, hframe 22 (by decide), withDigits_update _ _ (by omega)]

/-- `emitpos` writes the last nine digits and leaves the cursor behind them. -/
theorem emitpos_returns (hn : n < 2 ^ 63) (hs : s.reg 0 = BitVec.ofNat 64 n) : ∃ t : Machine,
    emitpos.Returns s t ∧ t.mem = withDigits s.mem (s.reg 22 + s.reg 23) 9 n ∧
      t.reg 23 = s.reg 23 + 9 ∧ ∀ j, j ∉ [0, 2, 4, 5, 23] → t.reg j = s.reg j := by
  let s₁ := s.set 2 (BitVec.ofNat 64 9)
  let s₂ := s₁.set 4 (s₁.reg 23 + BitVec.ofNat 64 9)
  have h0 : s₂.reg 0 = BitVec.ofNat 64 n := hs
  obtain ⟨t, hreach, hmem, hframe⟩ := write 8 (by decide) n hn s₂ h0 rfl rfl
  have hcursor : t.reg 23 = s.reg 23 := hframe 23 (by decide)
  refine ⟨t.set 23 (t.reg 23 + BitVec.ofNat 64 9), ⟨20, rfl, ?_⟩, hmem, ?_, fun j hj => ?_⟩
  · exact .next rfl <| .next rfl <| .next rfl <| hreach.trans (.next rfl (.refl _))
  · rw [Machine.set_reg_self, hcursor]
    rfl
  · simp only [List.mem_cons, List.not_mem_nil, or_false, not_or] at hj
    obtain ⟨hj0, hj2, hj4, hj5, hj23⟩ := hj
    have hin : j ∉ [0, 2, 4, 5] := by simp [hj0, hj2, hj4, hj5]
    calc (t.set 23 _).reg j = t.reg j := t.set_reg_of_ne _ hj23
      _ = s₂.reg j := hframe j hin
      _ = s₁.reg j := s₁.set_reg_of_ne _ hj4
      _ = s.reg j := s.set_reg_of_ne _ hj2

theorem low_ofNat (m : ℕ) : (BitVec.ofNat 64 m).setWidth 32 = BitVec.ofNat 32 m := by
  rw [← BitVec.toNat_inj, BitVec.toNat_setWidth, BitVec.toNat_ofNat, BitVec.toNat_ofNat,
    Nat.mod_mod_of_dvd _ (by decide)]

theorem low_reg {m : ℕ} (hm : m < 2 ^ 32) :
    ((BitVec.ofNat 64 m).setWidth 32).setWidth 64 = BitVec.ofNat 64 m := by
  rw [low_ofNat, ← BitVec.toNat_inj, BitVec.toNat_setWidth, BitVec.toNat_ofNat,
    BitVec.toNat_ofNat, Nat.mod_eq_of_lt hm]

theorem digit_toNat (n k : ℕ) : (digit n k).toNat = n / 10 ^ k % 10 + 48 := by
  have hlt : n / 10 ^ k % 10 < 10 := Nat.mod_lt _ (by decide)
  rw [digit, UInt8.toNat_ofNat', Nat.mod_eq_of_lt (by omega)]

/-- A byte at which `parse_dec` stops. -/
def Ends (b : UInt8) : Prop := b.toNat < 0x30 ∨ 0x39 < b.toNat

/-- The machine at the first comparison of a byte, and what the comparisons say of it. -/
theorem fetch {p e : ℕ} (hlt : p < e) (he : e < 2 ^ 63) (h20 : s.reg 20 = BitVec.ofNat 64 p)
    (h21 : s.reg 21 = BitVec.ofNat 64 e) : ∃ t : Machine, parseDec.Reaches (2, s) (6, t) ∧
      t.mem = s.mem ∧ t.reg 10 = BitVec.ofNat 64 (s.mem (s.reg 19 + s.reg 20)).toNat ∧
        ∀ j, j ≠ 10 → t.reg j = s.reg j := by
  let t₁ : Machine := { s with flags := compare (s.reg 20) (s.reg 21) }
  have hpassed : Cond.ge.holds t₁.flags = false := by
    change Cond.ge.holds (compare (s.reg 20) (s.reg 21)) = false
    rw [compare_eq_compareBits, h20, h21, ge_holds (Nat.lt_trans hlt he) he]
    exact decide_eq_false (Nat.not_le.mpr hlt)
  refine ⟨t₁.set 10 _, ?_, rfl, rfl, fun j hj => t₁.set_reg_of_ne _ hj⟩
  exact .next rfl <| .next rfl <| .next (Program.step_passed rfl hpassed) <| .next rfl (.refl _)

theorem compare_byte (b : UInt8) {m : ℕ} (hm : m < 2 ^ 31)
    (h : s.reg 10 = BitVec.ofNat 64 b.toNat) :
    Cond.lt.holds (compareBits ((s.reg 10).setWidth 32) (BitVec.ofNat 32 m)) =
        decide (b.toNat < m) ∧
      Cond.gt.holds (compareBits ((s.reg 10).setWidth 32) (BitVec.ofNat 32 m)) =
        decide (m < b.toNat) := by
  have hb : b.toNat < 2 ^ 31 := Nat.lt_trans b.toNat_lt (by decide)
  rw [h, low_ofNat]
  exact ⟨lt_holds hb hm, gt_holds hb hm⟩

theorem stop {p e : ℕ} (hle : p ≤ e) (he : e < 2 ^ 63) (h20 : s.reg 20 = BitVec.ofNat 64 p)
    (h21 : s.reg 21 = BitVec.ofNat 64 e) (hend : p = e ∨ Ends (s.mem (s.reg 19 + s.reg 20))) :
    ∃ t : Machine, parseDec.Reaches (2, s) (17, t) ∧ t.reg 0 = s.reg 0 ∧ t.reg 20 = s.reg 20 := by
  by_cases hpe : p = e
  · let t : Machine := { s with flags := compare (s.reg 20) (s.reg 21) }
    have htaken : Cond.ge.holds t.flags = true := by
      change Cond.ge.holds (compare (s.reg 20) (s.reg 21)) = true
      rw [compare_eq_compareBits, h20, h21, hpe, ge_holds he he]
      exact decide_eq_true (Nat.le_refl e)
    exact ⟨t, .next rfl <| .next rfl <| .next (Program.step_taken rfl htaken rfl) <|
      .next rfl (.refl _), rfl, rfl⟩
  · obtain ⟨t, hreach, -, h10, hframe⟩ := fetch (Nat.lt_of_le_of_ne hle hpe) he h20 h21
    have hbyte := hend.resolve_left hpe
    let t₁ : Machine :=
      { t with flags := compareBits ((t.reg 10).setWidth 32) (BitVec.ofNat 32 0x30) }
    by_cases hlow : (s.mem (s.reg 19 + s.reg 20)).toNat < 0x30
    · have htaken : Cond.lt.holds t₁.flags = true :=
        (compare_byte _ (by decide) h10).1.trans (decide_eq_true hlow)
      exact ⟨t₁, hreach.trans <| .next rfl <| .next (Program.step_taken rfl htaken rfl) <|
        .next rfl (.refl _), hframe 0 (by decide), hframe 20 (by decide)⟩
    · have hpassed : Cond.lt.holds t₁.flags = false :=
        (compare_byte _ (by decide) h10).1.trans (decide_eq_false hlow)
      let t₂ : Machine :=
        { t₁ with flags := compareBits ((t.reg 10).setWidth 32) (BitVec.ofNat 32 0x39) }
      have htaken : Cond.gt.holds t₂.flags = true :=
        (compare_byte _ (by decide) h10).2.trans (decide_eq_true (hbyte.resolve_left hlow))
      exact ⟨t₂, hreach.trans <| .next rfl <| .next (Program.step_passed rfl hpassed) <|
        .next rfl <| .next (Program.step_taken rfl htaken rfl) <| .next rfl (.refl _),
        hframe 0 (by decide), hframe 20 (by decide)⟩

/-- A digit goes into the number. -/
theorem take {p e acc d : ℕ} (hlt : p < e) (he : e < 2 ^ 63)
    (h20 : s.reg 20 = BitVec.ofNat 64 p) (h21 : s.reg 21 = BitVec.ofNat 64 e)
    (h0 : s.reg 0 = BitVec.ofNat 64 acc) (hd : d < 10) (hacc : acc * 10 + d < 2 ^ 32)
    (hbyte : (s.mem (s.reg 19 + s.reg 20)).toNat = d + 48) : ∃ t : Machine,
      parseDec.Reaches (2, s) (2, t) ∧ t.mem = s.mem ∧ t.reg 0 = BitVec.ofNat 64 (acc * 10 + d) ∧
        t.reg 20 = BitVec.ofNat 64 (p + 1) ∧ t.reg 19 = s.reg 19 ∧ t.reg 21 = s.reg 21 := by
  obtain ⟨t, hreach, hmem, h10, hframe⟩ := fetch hlt he h20 h21
  let t₁ : Machine :=
    { t with flags := compareBits ((t.reg 10).setWidth 32) (BitVec.ofNat 32 0x30) }
  let t₂ : Machine :=
    { t₁ with flags := compareBits ((t.reg 10).setWidth 32) (BitVec.ofNat 32 0x39) }
  have hlow : Cond.lt.holds t₁.flags = false :=
    (compare_byte _ (by decide) h10).1.trans (decide_eq_false (by omega))
  have hhigh : Cond.gt.holds t₂.flags = false :=
    (compare_byte _ (by decide) h10).2.trans (decide_eq_false (by omega))
  let t₃ := t₂.setLow 10 ((t₂.reg 10 - BitVec.ofNat 64 0x30).setWidth 32)
  let t₄ := t₃.setLow 11 (BitVec.ofNat 32 0xa)
  let t₅ := t₄.setLow 0 ((t₄.reg 0 * t₄.reg 11).setWidth 32)
  let t₆ := t₅.setLow 0 ((t₅.reg 0 + t₅.reg 10).setWidth 32)
  let t₇ := t₆.set 20 (t₆.reg 20 + BitVec.ofNat 64 1)
  have hten : t₅.reg 10 = BitVec.ofNat 64 d := by
    have hsub : t₅.reg 10 = ((t.reg 10 - BitVec.ofNat 64 0x30).setWidth 32).setWidth 64 := rfl
    rw [hsub, h10, hbyte, BitVec.ofNat_add, BitVec.add_sub_cancel, low_reg (by omega)]
  have hmul : t₅.reg 0 = BitVec.ofNat 64 (acc * 10) := by
    have hprod : t₅.reg 0 = ((t.reg 0 * BitVec.ofNat 64 10).setWidth 32).setWidth 64 := rfl
    rw [hprod, hframe 0 (by decide), h0, ← BitVec.ofNat_mul, low_reg (by omega)]
  have hsum : t₇.reg 0 = BitVec.ofNat 64 (acc * 10 + d) := by
    have hadd : t₇.reg 0 = ((t₅.reg 0 + t₅.reg 10).setWidth 32).setWidth 64 := rfl
    rw [hadd, hmul, hten, ← BitVec.ofNat_add, low_reg hacc]
  have hnext : t₇.reg 20 = BitVec.ofNat 64 (p + 1) := by
    have hadd : t₇.reg 20 = t.reg 20 + BitVec.ofNat 64 1 := rfl
    rw [hadd, hframe 20 (by decide), h20, BitVec.ofNat_add]
  refine ⟨t₇, hreach.trans ?_, hmem, hsum, hnext, hframe 19 (by decide), hframe 21 (by decide)⟩
  exact .next rfl <| .next (Program.step_passed rfl hlow) <| .next rfl <|
    .next (Program.step_passed rfl hhigh) <| .next rfl <| .next rfl <| .next rfl <| .next rfl <|
      .next rfl <| .next (Program.step_taken rfl rfl rfl) (.refl _)

/-- The number that digits are read as, after those before them. -/
theorem read (k : ℕ) {n p e acc : ℕ} {s : Machine} (hle : p + k ≤ e) (he : e < 2 ^ 63)
    (h20 : s.reg 20 = BitVec.ofNat 64 p) (h21 : s.reg 21 = BitVec.ofNat 64 e)
    (h0 : s.reg 0 = BitVec.ofNat 64 acc) (hacc : acc * 10 ^ k + n % 10 ^ k < 2 ^ 32)
    (hbytes : ∀ i < k, s.mem (s.reg 19 + BitVec.ofNat 64 (p + i)) = digit n (k - 1 - i))
    (hend : p + k = e ∨ Ends (s.mem (s.reg 19 + BitVec.ofNat 64 (p + k)))) : ∃ t : Machine,
      parseDec.Reaches (2, s) (17, t) ∧ t.reg 0 = BitVec.ofNat 64 (acc * 10 ^ k + n % 10 ^ k) ∧
        t.reg 20 = BitVec.ofNat 64 (p + k) := by
  induction k generalizing p acc s with
  | zero =>
      rw [Nat.add_zero, ← h20] at hend
      obtain ⟨t, hreach, ht0, ht20⟩ := stop hle he h20 h21 hend
      refine ⟨t, hreach, ?_, ht20.trans h20⟩
      rw [ht0, h0, Nat.pow_zero, Nat.mod_one, Nat.mul_one, Nat.add_zero]
  | succ k ih =>
      let d := n / 10 ^ k % 10
      have hd : d < 10 := Nat.mod_lt _ (by decide)
      have hvalue : acc * 10 ^ (k + 1) + n % 10 ^ (k + 1) =
          (acc * 10 + d) * 10 ^ k + n % 10 ^ k := by
        rw [Nat.mod_pow_succ, Nat.pow_succ']
        ring
      rw [hvalue] at hacc ⊢
      have hbyte : (s.mem (s.reg 19 + s.reg 20)).toNat = d + 48 := by
        have hfirst := hbytes 0 (Nat.succ_pos k)
        rw [Nat.add_zero, ← h20] at hfirst
        rw [hfirst]
        exact digit_toNat n k
      have hsmall : acc * 10 + d < 2 ^ 32 :=
        Nat.lt_of_le_of_lt (Nat.le_mul_of_pos_right _ (Nat.pow_pos (by decide)))
          (Nat.lt_of_le_of_lt (Nat.le_add_right _ _) hacc)
      obtain ⟨t, hreach, hmem, ht0, ht20, ht19, ht21⟩ :=
        take (by omega) he h20 h21 h0 hd hsmall hbyte
      have hplace (i : ℕ) : p + 1 + i = p + (i + 1) := by omega
      have hrest : ∀ i < k, t.mem (t.reg 19 + BitVec.ofNat 64 (p + 1 + i)) =
          digit n (k - 1 - i) := by
        intro i hi
        rw [hmem, ht19, hplace, hbytes (i + 1) (by omega)]
        congr 1
        omega
      have hlast : p + 1 + k = e ∨ Ends (t.mem (t.reg 19 + BitVec.ofNat 64 (p + 1 + k))) := by
        rw [hmem, ht19, hplace]
        exact hend
      obtain ⟨u, hreach', hu0, hu20⟩ :=
        ih (by omega) ht20 (ht21.trans h21) ht0 hacc hrest hlast
      exact ⟨u, hreach.trans hreach', hu0, hu20.trans (congrArg (BitVec.ofNat 64) (hplace k))⟩

/-- A reader before the nine bytes at `a` of a memory, that something else follows or nothing. -/
structure Before (mem : Reg → UInt8) (a : Reg) (u : Machine) : Prop where
  bytes : ∀ i < 9, u.mem (u.reg 19 + u.reg 20 + BitVec.ofNat 64 i) = mem (a + BitVec.ofNat 64 i)
  room : (u.reg 20).toNat + 9 ≤ (u.reg 21).toNat
  size : (u.reg 21).toNat < 2 ^ 63
  stops : (u.reg 20).toNat + 9 = (u.reg 21).toNat ∨ Ends (u.mem (u.reg 19 + u.reg 20 + 9))

/-- What `emitpos` writes `parse_dec` reads back, and both come to their ends. -/
theorem emitpos_parseDec (n : ℕ) (hn : n < 10 ^ 9) (s : Machine)
    (hs : s.reg 0 = BitVec.ofNat 64 n) : ∃ t : Machine,
      emitpos.Returns s t ∧ t.reg 23 = s.reg 23 + 9 ∧
        (∀ i < 9, 0x30 ≤ t.mem (s.reg 22 + s.reg 23 + BitVec.ofNat 64 i) ∧
          t.mem (s.reg 22 + s.reg 23 + BitVec.ofNat 64 i) ≤ 0x39) ∧
        (∀ x, 9 ≤ (x - (s.reg 22 + s.reg 23)).toNat → t.mem x = s.mem x) ∧
        ∀ u, Before t.mem (s.reg 22 + s.reg 23) u → ∃ v : Machine, parseDec.Returns u v ∧
          v.reg 0 = BitVec.ofNat 64 n ∧ v.reg 20 = u.reg 20 + 9 := by
  obtain ⟨t, hreturns, hmem, h23, -⟩ := emitpos_returns (Nat.lt_trans hn (by decide)) hs
  have hdigit : ∀ i < 9, t.mem (s.reg 22 + s.reg 23 + BitVec.ofNat 64 i) = digit n (8 - i) := by
    intro i hi
    have hplace : (s.reg 22 + s.reg 23 + BitVec.ofNat 64 i - (s.reg 22 + s.reg 23)).toNat = i := by
      rw [BitVec.add_comm, BitVec.add_sub_cancel, BitVec.toNat_ofNat, Nat.mod_eq_of_lt (by omega)]
    rw [hmem, withDigits, hplace, if_pos hi]
  refine ⟨t, hreturns, h23, fun i hi => ?_, fun x hx => ?_, fun u hu => ?_⟩
  · have hlt : n / 10 ^ (8 - i) % 10 < 10 := Nat.mod_lt _ (by decide)
    have hvalue := digit_toNat n (8 - i)
    rw [hdigit i hi, UInt8.le_iff_toNat_le, UInt8.le_iff_toNat_le, hvalue]
    exact ⟨Nat.le_add_left 48 _, by change _ ≤ 57; omega⟩
  · rw [hmem]
    exact if_neg (Nat.not_lt.mpr hx)
  · let u₁ := u.setLow 0 (BitVec.ofNat 32 0)
    have hplace (i : ℕ) : u₁.reg 19 + BitVec.ofNat 64 ((u.reg 20).toNat + i) =
        u.reg 19 + u.reg 20 + BitVec.ofNat 64 i := by
      rw [BitVec.ofNat_add, BitVec.ofNat_toNat, BitVec.setWidth_eq, ← BitVec.add_assoc]
      rfl
    have h20 : u₁.reg 20 = BitVec.ofNat 64 (u.reg 20).toNat :=
      ((BitVec.ofNat_toNat 64 (u.reg 20)).trans (BitVec.setWidth_eq _)).symm
    have h21 : u₁.reg 21 = BitVec.ofNat 64 (u.reg 21).toNat :=
      ((BitVec.ofNat_toNat 64 (u.reg 21)).trans (BitVec.setWidth_eq _)).symm
    have hvalue : 0 * 10 ^ 9 + n % 10 ^ 9 = n := by
      rw [Nat.zero_mul, Nat.zero_add, Nat.mod_eq_of_lt hn]
    have hacc : 0 * 10 ^ 9 + n % 10 ^ 9 < 2 ^ 32 := by
      rw [hvalue]
      exact Nat.lt_trans hn (by decide)
    have hbytes : ∀ i < 9, u₁.mem (u₁.reg 19 + BitVec.ofNat 64 ((u.reg 20).toNat + i)) =
        digit n (9 - 1 - i) := by
      intro i hi
      rw [hplace]
      exact (hu.bytes i hi).trans (hdigit i hi)
    have hend : (u.reg 20).toNat + 9 = (u.reg 21).toNat ∨
        Ends (u₁.mem (u₁.reg 19 + BitVec.ofNat 64 ((u.reg 20).toNat + 9))) := by
      rw [hplace]
      exact hu.stops
    obtain ⟨v, hreach, hv0, hv20⟩ := read 9 hu.room hu.size h20 h21 rfl hacc hbytes hend
    refine ⟨v, ⟨17, rfl, .next rfl <| .next rfl hreach⟩, ?_, ?_⟩
    · rw [hv0, hvalue]
    · rw [hv20, BitVec.ofNat_add, BitVec.ofNat_toNat, BitVec.setWidth_eq]
      rfl

/-- The number 123456789, the cursor at 64. -/
def start : Machine where
  reg k := if k = 0 then 123456789 else if k = 23 then 64 else 0
  mem _ := 0
  flags := ⟨false, false, false, false⟩

/-- The same memory, read from 64 up to 73. -/
def reader (t : Machine) : Machine where
  reg k := if k = 20 then 64 else if k = 21 then 73 else 0
  mem := t.mem
  flags := t.flags

theorem emitpos_parseDec_start : ∃ t v : Machine, emitpos.Returns start t ∧ t.reg 23 = 73 ∧
    parseDec.Returns (reader t) v ∧ v.reg 0 = 123456789 ∧ v.reg 20 = 73 := by
  obtain ⟨t, ht, hcursor, -, -, hread⟩ := emitpos_parseDec 123456789 (by decide) start rfl
  have hroom : (64 : Reg).toNat + 9 ≤ (73 : Reg).toNat := by decide
  have hsize : (73 : Reg).toNat < 2 ^ 63 := by decide
  obtain ⟨v, hv, hvalue, hplace⟩ := hread (reader t) ⟨fun _ _ => rfl, hroom, hsize, .inl rfl⟩
  exact ⟨t, v, ht, hcursor, hv, hvalue, hplace⟩

end Veron.A64.EmitPos
