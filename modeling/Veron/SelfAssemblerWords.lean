/-
The words that the self-assembler puts together are the A64 words, as numbers.
-/
import Veron.A64Encode
import Veron.SelfAssembler

namespace Veron.SelfAssembler

open A64

section Fields

variable {x y : Word} {v k m : ℕ}

theorem or_field (hx : x.toNat = v) (hy : y.toNat < 2 ^ m) (hk : k + m ≤ 32)
    (hclear : v / 2 ^ k % 2 ^ m = 0) : (x ||| y <<< k).toNat = v + y.toNat * 2 ^ k := by
  rw [← hx] at hclear ⊢
  exact toNat_or_shiftLeft hclear hy hk

theorem or_low (hx : x.toNat = v) (hy : y.toNat < 2 ^ m) (hclear : v % 2 ^ m = 0) :
    (x ||| y).toNat = v + y.toNat := by
  rw [← hx] at hclear ⊢
  exact toNat_or_low (by rw [field, pow_zero, Nat.div_one, hclear]) hy

end Fields

/-- What `emit_dp` leaves of a word for a register width. -/
def sized (wd : Width) (w : Word) : Word :=
  match wd with
  | .w => w &&& 0x7fffffff
  | .x => w

theorem sized_toNat {w : Word} {v : ℕ} (h : w.toNat = 2 ^ 31 + v) (wd : Width) :
    (sized wd w).toNat = wd.sf * 2 ^ 31 + v := by
  have hlt := w.isLt
  cases wd with
  | w =>
      rw [sized, toNat_and_mask (m := 31) _ rfl, Width.sf]
      omega
  | x =>
      rw [sized, Width.sf]
      omega

section Words

variable {pos : ℤ} {wd : Width} {b d n m t imm : Word}

theorem fold_halfword (v : Word) :
    (if v &&& 0xffff = 0 && v ≠ 0 then v >>> 16 else v).toNat = (halfword v.toNat).1 ∧
      (if v &&& 0xffff = 0 && v ≠ 0 then 1 else 0 : Word).toNat = (halfword v.toNat).2 := by
  have hlow : v &&& 0xffff = 0 ↔ v.toNat % 2 ^ 16 = 0 := by
    rw [← BitVec.toNat_inj, toNat_and_mask (m := 16) _ rfl]
    rfl
  have hzero : v ≠ 0 ↔ v.toNat ≠ 0 := by
    rw [Ne, ← BitVec.toNat_inj]
    rfl
  unfold halfword
  by_cases h : v.toNat % 2 ^ 16 = 0 ∧ v.toNat ≠ 0
  · have hcond : (decide (v &&& 0xffff = 0) && decide (v ≠ 0)) = true := by
      rw [Bool.and_eq_true, decide_eq_true_eq, decide_eq_true_eq, hlow, hzero]
      exact h
    rw [if_pos h, if_pos hcond, if_pos hcond, toNat_shiftRight]
    exact ⟨rfl, rfl⟩
  · have hcond : ¬ (decide (v &&& 0xffff = 0) && decide (v ≠ 0)) = true := by
      rw [Bool.and_eq_true, decide_eq_true_eq, decide_eq_true_eq, hlow, hzero]
      exact h
    rw [if_neg h, if_neg hcond, if_neg hcond]
    exact ⟨rfl, rfl⟩

theorem movWide_toNat {op : MovWide} {v hw : Word} {u : ℕ}
    (hbase : b.toNat = 2 ^ 31 + (op.opc * 2 ^ 29 + 0x25 * 2 ^ 23))
    (hd : d.toNat < 32) (hfit : (Instr.movWide op wd d.toNat u).Fits pos)
    (hv : v.toNat = (halfword u).1) (hhw : hw.toNat = (halfword u).2) :
    (sized wd (v <<< 5 ||| hw <<< 21 ||| b ||| d)).toNat =
      (Instr.movWide op wd d.toNat u).number pos := by
  have hhalf := halfword_lt hfit.2
  have hshift := halfword_shift_lt u
  have hop := op.opc_le
  have horder : v <<< 5 ||| hw <<< 21 ||| b = b ||| hw <<< 21 ||| v <<< 5 := by
    rw [BitVec.or_comm _ b, BitVec.or_comm (v <<< 5), ← BitVec.or_assoc]
  have h₁ := or_field (m := 2) (k := 21) hbase (by omega : hw.toNat < 2 ^ 2) (by decide)
    (by omega)
  have h₂ := or_field (m := 16) (k := 5) h₁ (by omega : v.toNat < 2 ^ 16) (by decide) (by omega)
  have h₃ := or_low (m := 5) h₂ hd (by omega)
  rw [horder, sized_toNat (v := op.opc * 2 ^ 29 + 0x25 * 2 ^ 23 + hw.toNat * 2 ^ 21 +
    v.toNat * 2 ^ 5 + d.toNat) (by omega), Instr.number, hv, hhw]
  omega

theorem movk_toNat {shift : Word} (hd : d.toNat < 32) (himm : imm.toNat < 2 ^ 16)
    (hshift : shift.toNat < 64) :
    (sized wd (0xf2800000#32 ||| (shift >>> 4) <<< 21 ||| imm <<< 5 ||| d)).toNat =
      (Instr.movk wd d.toNat imm.toNat shift.toNat).number pos := by
  have hhw : (shift >>> 4).toNat = shift.toNat / 16 := toNat_shiftRight shift 4
  have h₁ := or_field (x := 0xf2800000#32) (y := shift >>> 4) (v := 0xf2800000) (m := 2) (k := 21)
    rfl (by omega)
    (by decide) (by decide)
  have h₂ := or_field (m := 16) (k := 5) h₁ himm (by decide) (by omega)
  have h₃ := or_low (m := 5) h₂ hd (by omega)
  rw [sized_toNat (v := 0xf2800000 - 2 ^ 31 + shift.toNat / 16 * 2 ^ 21 +
    imm.toNat * 2 ^ 5 + d.toNat) (by omega), Instr.number]
  omega

theorem movReg_toNat (hd : d.toNat < 32) (hm : m.toNat < 32) :
    (sized wd (0xaa0003e0#32 ||| m <<< 16 ||| d)).toNat =
      (Instr.movReg wd d.toNat m.toNat).number pos := by
  have h₁ := or_field (x := 0xaa0003e0#32) (v := 0xaa0003e0) (m := 5) (k := 16) rfl hm (by decide)
    (by decide)
  have h₂ := or_low (m := 5) h₁ hd (by omega)
  rw [sized_toNat (v := 0xaa0003e0 - 2 ^ 31 + m.toNat * 2 ^ 16 + d.toNat) (by omega),
    Instr.number]
  omega

theorem addSubImm_toNat {op : AddSub}
    (hbase : b.toNat = 2 ^ 31 + (op.op * 2 ^ 30 + 0x44 * 2 ^ 22))
    (hd : d.toNat < 32) (hn : n.toNat < 32) (himm : imm.toNat < 2 ^ 12) :
    (sized wd (imm <<< 10 ||| b ||| n <<< 5 ||| d)).toNat =
      (Instr.addSubImm op wd d.toNat n.toNat imm.toNat).number pos := by
  have hop := op.op_lt
  have h₁ := or_field (m := 12) (k := 10) hbase himm (by decide) (by omega)
  have h₂ := or_field (m := 5) (k := 5) h₁ hn (by decide) (by omega)
  have h₃ := or_low (m := 5) h₂ hd (by omega)
  rw [BitVec.or_comm (imm <<< 10) b, sized_toNat (v := op.op * 2 ^ 30 + 0x44 * 2 ^ 22 +
    imm.toNat * 2 ^ 10 + n.toNat * 2 ^ 5 + d.toNat) (by omega), Instr.number]
  omega

/-- The words with three registers: a field at bit 16 and two below. -/
theorem three_toNat {v : ℕ} (hbase : b.toNat = v) (hd : d.toNat < 32)
    (hn : n.toNat < 32) (hm : m.toNat < 32) (hmid : v / 2 ^ 16 % 2 ^ 5 = 0)
    (hlow : v % 2 ^ 10 = 0) :
    (b ||| m <<< 16 ||| n <<< 5 ||| d).toNat =
      v + m.toNat * 2 ^ 16 + n.toNat * 2 ^ 5 + d.toNat := by
  have h₁ := or_field (m := 5) (k := 16) hbase hm (by decide) hmid
  have h₂ := or_field (m := 5) (k := 5) h₁ hn (by decide) (by omega)
  exact or_low (m := 5) h₂ hd (by omega)

theorem addSubReg_toNat {op : AddSub}
    (hbase : b.toNat = 2 ^ 31 + (op.op * 2 ^ 30 + 0x58 * 2 ^ 21))
    (hd : d.toNat < 32) (hn : n.toNat < 32) (hm : m.toNat < 32) :
    (sized wd (b ||| m <<< 16 ||| n <<< 5 ||| d)).toNat =
      (Instr.addSubReg op wd d.toNat n.toNat m.toNat).number pos := by
  have hop := op.op_lt
  have h := three_toNat hbase hd hn hm (by omega) (by omega)
  rw [sized_toNat (v := op.op * 2 ^ 30 + 0x58 * 2 ^ 21 + m.toNat * 2 ^ 16 +
    n.toNat * 2 ^ 5 + d.toNat) (by omega), Instr.number]
  omega

theorem cmpImm_toNat (hn : n.toNat < 32) (himm : imm.toNat < 2 ^ 12) :
    (sized wd (imm <<< 10 ||| 0xf1000000#32 ||| n <<< 5 ||| 0x1f#32)).toNat =
      (Instr.cmpImm wd n.toNat imm.toNat).number pos := by
  have h₁ := or_field (x := 0xf1000000#32) (v := 0xf1000000) (m := 12) (k := 10) rfl himm
    (by decide)
    (by decide)
  have h₂ := or_field (m := 5) (k := 5) h₁ hn (by decide) (by omega)
  have h₃ := or_low (y := 0x1f#32) (m := 5) h₂ (by decide) (by omega)
  have hlow : (0x1f#32).toNat = 31 := rfl
  rw [BitVec.or_comm (imm <<< 10), sized_toNat (v := 0xf1000000 - 2 ^ 31 +
    imm.toNat * 2 ^ 10 + n.toNat * 2 ^ 5 + 31) (by omega), Instr.number]
  omega

theorem cmpReg_toNat (hn : n.toNat < 32) (hm : m.toNat < 32) :
    (sized wd (0xeb000000#32 ||| m <<< 16 ||| n <<< 5 ||| 0x1f#32)).toNat =
      (Instr.cmpReg wd n.toNat m.toNat).number pos := by
  have h := three_toNat (v := 0xeb000000) (b := 0xeb000000#32) (d := 0x1f#32) rfl (by decide) hn hm
    (by decide)
    (by decide)
  have hlow : (0x1f#32).toNat = 31 := rfl
  rw [sized_toNat (v := 0xeb000000 - 2 ^ 31 + m.toNat * 2 ^ 16 + n.toNat * 2 ^ 5 + 31)
    (by omega), Instr.number]
  omega

theorem logical_toNat {op : Logical} {amount : Word}
    (hbase : b.toNat = 2 ^ 31 + (op.opc * 2 ^ 29 + 0x50 * 2 ^ 21))
    (hd : d.toNat < 32) (hn : n.toNat < 32) (hm : m.toNat < 32) (hlt : amount.toNat < 64) :
    (sized wd (b ||| m <<< 16 ||| n <<< 5 ||| d ||| amount <<< 10)).toNat =
      (Instr.logical op wd d.toNat n.toNat m.toNat amount.toNat).number pos := by
  have hop := op.opc_lt
  have h₁ := three_toNat hbase hd hn hm (by omega) (by omega)
  have h₂ := or_field (m := 6) (k := 10) h₁ hlt (by decide) (by omega)
  rw [sized_toNat (v := op.opc * 2 ^ 29 + 0x50 * 2 ^ 21 + m.toNat * 2 ^ 16 +
    n.toNat * 2 ^ 5 + d.toNat + amount.toNat * 2 ^ 10) (by omega), Instr.number]
  omega

theorem mul_toNat (hd : d.toNat < 32) (hn : n.toNat < 32) (hm : m.toNat < 32) :
    (sized wd (0x9b007c00#32 ||| m <<< 16 ||| n <<< 5 ||| d)).toNat =
      (Instr.mul wd d.toNat n.toNat m.toNat).number pos := by
  have h := three_toNat (v := 0x9b007c00) (b := 0x9b007c00#32) rfl hd hn hm (by decide) (by decide)
  rw [sized_toNat (v := 0x9b007c00 - 2 ^ 31 + m.toNat * 2 ^ 16 + n.toNat * 2 ^ 5 + d.toNat)
    (by omega), Instr.number]
  omega

theorem twoSource_toNat {op : TwoSource} {select : Word}
    (hselect : select.toNat = op.opcode * 2 ^ 10)
    (hd : d.toNat < 32) (hn : n.toNat < 32) (hm : m.toNat < 32) :
    (sized wd (0x9ac00000#32 ||| select ||| m <<< 16 ||| n <<< 5 ||| d)).toNat =
      (Instr.twoSource op wd d.toNat n.toNat m.toNat).number pos := by
  have hop := op.opcode_lt
  have hbase := or_low (x := 0x9ac00000#32) (v := 0x9ac00000) (m := 16) rfl
    (by omega : select.toNat < 2 ^ 16)
    (by decide)
  have h := three_toNat hbase hd hn hm (by omega) (by omega)
  rw [sized_toNat (v := 0x9ac00000 - 2 ^ 31 + select.toNat + m.toNat * 2 ^ 16 +
    n.toNat * 2 ^ 5 + d.toNat) (by omega), Instr.number]
  omega

theorem shiftImm_toNat {op : Shift} {amount : ℕ} {immr imms : Word}
    (hbase : b.toNat = op.opc * 2 ^ 29 + 0x4c * 2 ^ 22) (hamount : amount < 32)
    (himmr : immr.toNat = op.immr amount) (himms : imms.toNat = op.imms amount)
    (hd : d.toNat < 32) (hn : n.toNat < 32) :
    (b ||| immr <<< 16 ||| imms <<< 10 ||| n <<< 5 ||| d).toNat =
      (Instr.shiftImm op d.toNat n.toNat amount).number pos := by
  have hop := op.opc_lt
  have hlt := op.fields_lt hamount
  have h₁ := or_field (m := 5) (k := 16) hbase (by omega : immr.toNat < 2 ^ 5) (by decide)
    (by omega)
  have h₂ := or_field (m := 5) (k := 10) h₁ (by omega : imms.toNat < 2 ^ 5) (by decide)
    (by omega)
  have h₃ := or_field (m := 5) (k := 5) h₂ hn (by decide) (by omega)
  rw [or_low (m := 5) h₃ hd (by omega), Instr.number, himmr, himms]

theorem byteReg_toNat {op : LoadStore}
    (hbase : b.toNat = 0x38 * 2 ^ 24 + op.opc * 2 ^ 22 + 2 ^ 21 + 0x1a * 2 ^ 10)
    (ht : t.toNat < 32) (hn : n.toNat < 32) (hm : m.toNat < 32) :
    (b ||| m <<< 16 ||| n <<< 5 ||| t).toNat =
      (Instr.byteReg op t.toNat n.toNat m.toNat).number pos := by
  have hop := op.opc_lt
  rw [three_toNat hbase ht hn hm (by omega) (by omega), Instr.number]
  omega

/-- The words with two registers only. -/
theorem two_toNat {v : ℕ} (hbase : b.toNat = v) (ht : t.toNat < 32) (hn : n.toNat < 32)
    (hlow : v % 2 ^ 10 = 0) :
    (b ||| n <<< 5 ||| t).toNat = v + n.toNat * 2 ^ 5 + t.toNat := by
  have h₁ := or_field (m := 5) (k := 5) hbase hn (by decide) (by omega)
  exact or_low (m := 5) h₁ ht (by omega)

theorem loadStore_toNat {op : LoadStore} {scaled : Word} {offset : ℕ}
    (hbase : b.toNat = 2 ^ 31 + wd.sf * 2 ^ 30 + 0x39 * 2 ^ 24 + op.opc * 2 ^ 22)
    (ht : t.toNat < 32) (hn : n.toNat < 32) (hscaled : scaled.toNat = offset / wd.bytes)
    (hlt : scaled.toNat < 2 ^ 12) :
    (b ||| n <<< 5 ||| t ||| scaled <<< 10).toNat =
      (Instr.loadStore op wd t.toNat n.toNat offset).number pos := by
  have hsf := wd.sf_lt
  have hop := op.opc_lt
  have h₁ := two_toNat hbase ht hn (by omega)
  rw [or_field (m := 12) (k := 10) h₁ hlt (by decide) (by omega), Instr.number, ← hscaled]
  omega

theorem narrow_toNat {op : Narrow}
    (hbase : b.toNat = op.size * 2 ^ 30 + 0x39 * 2 ^ 24 + op.opc * 2 ^ 22)
    (ht : t.toNat < 32) (hn : n.toNat < 32) :
    (b ||| n <<< 5 ||| t).toNat = (Instr.narrow op t.toNat n.toNat).number pos :=
  two_toNat hbase ht hn (by omega)

theorem branchReg_toNat {link : Bool}
    (hbase : b.toNat = 0x1ac * 2 ^ 23 + link.toNat * 2 ^ 21 + 0x7c0 * 2 ^ 10)
    (hn : n.toNat < 32) :
    (b ||| n <<< 5).toNat = (Instr.branchReg link n.toNat).number pos :=
  or_field (m := 5) (k := 5) hbase hn (by decide) (by omega)

end Words

/-- The form under which the assembler keeps a reference. -/
def formOf : Ref → RefForm
  | .adr d => .adr (BitVec.ofNat 32 d)
  | .b false => .b
  | .b true => .bl
  | .bcond c => .bcond (BitVec.ofNat 32 c.code)

/-- The bits of a distance in 32-bit arithmetic. -/
theorem distance_low (distance : ℤ) :
    (BitVec.ofInt 32 distance &&& 3).toNat = (distance % 2 ^ 21).toNat % 4 := by
  rw [toNat_and_mask (m := 2) _ rfl, BitVec.toNat_ofInt]
  omega

theorem distance_words (distance : ℤ) {mask : Word} {k : ℕ} (hk : k ≤ 30)
    (hmask : mask.toNat = 2 ^ k - 1) :
    ((BitVec.ofInt 32 distance).sshiftRight 2 &&& mask).toNat =
      (distance / 4 % 2 ^ k).toNat := by
  have hint : ((BitVec.ofInt 32 distance).sshiftRight 2).toInt =
      Int.bmod distance (2 ^ 32) / 4 := by
    rw [BitVec.toInt_sshiftRight, BitVec.toInt_ofInt, Int.shiftRight_eq_div_pow]
    rfl
  have hnat : (((BitVec.ofInt 32 distance).sshiftRight 2).toNat : ℤ) % 2 ^ 30 =
      distance / 4 % 2 ^ 30 := by
    have hto := BitVec.toInt_eq_toNat_bmod ((BitVec.ofInt 32 distance).sshiftRight 2)
    have hcast := Int.bmod_emod (x := ((BitVec.ofInt 32 distance).sshiftRight 2).toNat)
      (m := 2 ^ 32)
    have hdist := Int.bmod_emod (x := distance) (m := 2 ^ 32)
    rw [← hto, hint] at hcast
    omega
  have hdvd : (2 : ℤ) ^ k ∣ 2 ^ 30 := pow_dvd_pow 2 hk
  have hlow := congrArg (· % (2 : ℤ) ^ k) hnat
  simp only [Int.emod_emod_of_dvd _ hdvd] at hlow
  have hcast (a : ℕ) : ((a : ℤ) % 2 ^ k).toNat = a % 2 ^ k := by
    rw [← Int.toNat_natCast (a % 2 ^ k), Int.natCast_emod, Nat.cast_pow, Nat.cast_ofNat]
  rw [toNat_and_mask _ hmask, ← hlow, hcast]

/-- The assembler subtracts positions in 32 bits. -/
theorem ofInt_distance (p : ℤ) (pos : ℕ) :
    BitVec.ofInt 32 (p - pos) = BitVec.ofInt 32 p - BitVec.ofNat 32 pos := by
  rw [Int.sub_eq_add_neg, BitVec.ofInt_add, BitVec.ofInt_neg, BitVec.ofInt_natCast,
    BitVec.sub_eq_add_neg]

/-- The word of a reference to a position at a distance. -/
theorem refer_toNat {form : Ref} (hreg : ∀ d, form = .adr d → d < 32) (distance : ℤ) :
    ((formOf form).word (BitVec.ofInt 32 distance)).toNat = form.number distance := by
  cases form with
  | adr d =>
      have hd := hreg d rfl
      obtain ⟨v, hv⟩ : ∃ v, v = (distance % 2 ^ 21).toNat := ⟨_, rfl⟩
      have hlo : (BitVec.ofInt 32 distance &&& 3).toNat = v % 4 := by
        rw [distance_low, hv]
      have hhi : ((BitVec.ofInt 32 distance).sshiftRight 2 &&& 0x7ffff).toNat = v / 4 := by
        rw [distance_words (k := 19) distance (by decide) rfl, hv]
        omega
      have hreg : (BitVec.ofNat 32 d).toNat = d := Nat.mod_eq_of_lt (by omega)
      have hlt : v < 2 ^ 21 := by omega
      have h₁ := or_field (x := 0x10000000#32) (v := 0x10000000) (m := 2) (k := 29) rfl
        (by omega : (BitVec.ofInt 32 distance &&& 3).toNat < 2 ^ 2) (by decide) (by decide)
      have h₂ := or_field (m := 19) (k := 5) h₁
        (by omega : ((BitVec.ofInt 32 distance).sshiftRight 2 &&& 0x7ffff).toNat < 2 ^ 19)
        (by decide) (by omega)
      rw [formOf, RefForm.word, or_low (m := 5) h₂ (by omega) (by omega), hreg, hlo, hhi,
        Ref.number, ← hv]
      omega
  | b link =>
      have hoff : ((BitVec.ofInt 32 distance).sshiftRight 2 &&& 0x3ffffff).toNat =
          (distance / 4 % 2 ^ 26).toNat := distance_words distance (by decide) rfl
      have hlt : (distance / 4 % 2 ^ 26).toNat < 2 ^ 26 := by omega
      rw [← hoff] at hlt
      cases link with
      | false =>
          rw [formOf, RefForm.word, or_low (v := 0x14000000) rfl hlt (by decide), hoff,
            Ref.number]
          rfl
      | true =>
          rw [formOf, RefForm.word, or_low (v := 0x94000000) rfl hlt (by decide), hoff,
            Ref.number]
          rfl
  | bcond c =>
      have hoff : ((BitVec.ofInt 32 distance).sshiftRight 2 &&& 0x7ffff).toNat =
          (distance / 4 % 2 ^ 19).toNat := distance_words distance (by decide) rfl
      have hlt : (distance / 4 % 2 ^ 19).toNat < 2 ^ 19 := by omega
      have hc := c.code_lt
      have hcode : (BitVec.ofNat 32 c.code).toNat = c.code :=
        Nat.mod_eq_of_lt (by omega)
      have h₁ := or_field (x := 0x54000000#32) (v := 0x54000000) (k := 5) rfl
        (hoff ▸ hlt : ((BitVec.ofInt 32 distance).sshiftRight 2 &&& 0x7ffff).toNat < 2 ^ 19)
        (by decide) (by decide)
      rw [formOf, RefForm.word, or_low (m := 4) h₁ (by omega) (by omega), hoff, hcode,
        Ref.number]
      rfl

end Veron.SelfAssembler
