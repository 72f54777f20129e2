/-
The word of an A64 instruction, as a number put together from its fields, and
that decoding it in the class of the instruction gives the instruction back.
-/
import Veron.A64

namespace Veron.A64

attribute [local simp] decode

/-- The halfword and the shift of a wide move. -/
def halfword (imm : ℕ) : ℕ × ℕ :=
  if imm % 2 ^ 16 = 0 ∧ imm ≠ 0 then (imm / 2 ^ 16, 1) else (imm, 0)

/-- The word of an instruction that refers to a place so far away. -/
def Ref.number (distance : ℤ) : Ref → ℕ
  | .adr d =>
      let v := (distance % 2 ^ 21).toNat
      v % 4 * 2 ^ 29 + 0x10 * 2 ^ 24 + v / 4 * 2 ^ 5 + d
  | .b link => link.toNat * 2 ^ 31 + 5 * 2 ^ 26 + (distance / 4 % 2 ^ 26).toNat
  | .bcond c => 0x54 * 2 ^ 24 + (distance / 4 % 2 ^ 19).toNat * 2 ^ 5 + c.code

/-- The two fields that the shifts of 32-bit registers are encoded in. -/
def Shift.immr (amount : ℕ) : Shift → ℕ
  | .lsl => (32 - amount) % 32
  | .lsr => amount
  | .asr => amount

def Shift.imms (amount : ℕ) : Shift → ℕ
  | .lsl => 31 - amount
  | .lsr => 31
  | .asr => 31

/-- The word of an instruction at a position of the output. -/
def Instr.number (pos : ℤ) : Instr → ℕ
  | .movWide op wd d imm =>
      wd.sf * 2 ^ 31 + op.opc * 2 ^ 29 + 0x25 * 2 ^ 23 + (halfword imm).2 * 2 ^ 21 +
        (halfword imm).1 * 2 ^ 5 + d
  | .movk wd d imm shift =>
      wd.sf * 2 ^ 31 + 3 * 2 ^ 29 + 0x25 * 2 ^ 23 + shift / 16 * 2 ^ 21 + imm * 2 ^ 5 + d
  | .movReg wd d m => wd.sf * 2 ^ 31 + 0x150 * 2 ^ 21 + m * 2 ^ 16 + 31 * 2 ^ 5 + d
  | .addSubImm op wd d n imm =>
      wd.sf * 2 ^ 31 + op.op * 2 ^ 30 + 0x44 * 2 ^ 22 + imm * 2 ^ 10 + n * 2 ^ 5 + d
  | .addSubReg op wd d n m =>
      wd.sf * 2 ^ 31 + op.op * 2 ^ 30 + 0x58 * 2 ^ 21 + m * 2 ^ 16 + n * 2 ^ 5 + d
  | .cmpImm wd n imm => wd.sf * 2 ^ 31 + 0x1c4 * 2 ^ 22 + imm * 2 ^ 10 + n * 2 ^ 5 + 31
  | .cmpReg wd n m => wd.sf * 2 ^ 31 + 0x358 * 2 ^ 21 + m * 2 ^ 16 + n * 2 ^ 5 + 31
  | .logical op wd d n m amount =>
      wd.sf * 2 ^ 31 + op.opc * 2 ^ 29 + 0x50 * 2 ^ 21 + m * 2 ^ 16 + amount * 2 ^ 10 +
        n * 2 ^ 5 + d
  | .mul wd d n m =>
      wd.sf * 2 ^ 31 + 0xd8 * 2 ^ 21 + m * 2 ^ 16 + 0x1f * 2 ^ 10 + n * 2 ^ 5 + d
  | .twoSource op wd d n m =>
      wd.sf * 2 ^ 31 + 0xd6 * 2 ^ 21 + m * 2 ^ 16 + op.opcode * 2 ^ 10 + n * 2 ^ 5 + d
  | .shiftImm op d n amount =>
      op.opc * 2 ^ 29 + 0x4c * 2 ^ 22 + op.immr amount * 2 ^ 16 + op.imms amount * 2 ^ 10 +
        n * 2 ^ 5 + d
  | .byteReg op t n m =>
      0x38 * 2 ^ 24 + op.opc * 2 ^ 22 + 2 ^ 21 + m * 2 ^ 16 + 0x1a * 2 ^ 10 + n * 2 ^ 5 + t
  | .loadStore op wd t n offset =>
      2 ^ 31 + wd.sf * 2 ^ 30 + 0x39 * 2 ^ 24 + op.opc * 2 ^ 22 + offset / wd.bytes * 2 ^ 10 +
        n * 2 ^ 5 + t
  | .narrow op t n =>
      op.size * 2 ^ 30 + 0x39 * 2 ^ 24 + op.opc * 2 ^ 22 + n * 2 ^ 5 + t
  | .refer form target => form.number (target - pos)
  | .branchReg link n => 0x1ac * 2 ^ 23 + link.toNat * 2 ^ 21 + 0x7c0 * 2 ^ 10 + n * 2 ^ 5
  | .ret => 0x3597c0 * 2 ^ 10 + 30 * 2 ^ 5
  | .svc => 0x6a0 * 2 ^ 21 + 1

attribute [local simp] Instr.number

theorem Width.sf_lt (wd : Width) : wd.sf < 2 := by cases wd <;> decide

theorem MovWide.opc_le (op : MovWide) : op.opc ≤ 2 := by cases op <;> decide

theorem AddSub.op_lt (op : AddSub) : op.op < 2 := by cases op <;> decide

theorem Logical.opc_lt (op : Logical) : op.opc < 4 := by cases op <;> decide

theorem TwoSource.opcode_lt (op : TwoSource) : op.opcode < 64 := by cases op <;> decide

theorem Shift.opc_lt (op : Shift) : op.opc < 4 := by cases op <;> decide

theorem LoadStore.opc_lt (op : LoadStore) : op.opc < 4 := by cases op <;> decide

theorem Narrow.size_lt (op : Narrow) : op.size < 4 := by cases op <;> decide

theorem Narrow.opc_lt (op : Narrow) : op.opc < 4 := by cases op <;> decide

theorem Cond.code_lt (c : Cond) : c.code < 16 := by cases c <;> decide

theorem toNat_bool_lt (b : Bool) : b.toNat < 2 := by cases b <;> decide

theorem Width.ofSf_eq {wd : Width} {sf : ℕ} (h : sf = wd.sf) : ofSf sf = wd := by
  rw [h]
  cases wd <;> rfl

/-- An immediate of one halfword fits its field. -/
theorem halfword_lt {imm : ℕ} (h : imm < 2 ^ 16 ∨ ∃ v < 2 ^ 16, imm = v * 2 ^ 16) :
    (halfword imm).1 < 2 ^ 16 := by
  unfold halfword
  split
  · dsimp only
    rcases h with h | ⟨v, hv, rfl⟩ <;> omega
  · dsimp only
    rcases h with h | ⟨v, hv, rfl⟩ <;> omega

theorem halfword_shift_lt (imm : ℕ) : (halfword imm).2 < 2 := by
  unfold halfword
  split <;> simp

/-- The shifted halfword is the immediate. -/
theorem halfword_value (imm : ℕ) :
    (halfword imm).1 * 2 ^ (16 * (halfword imm).2) = imm := by
  unfold halfword
  split
  · dsimp only
    omega
  · dsimp only
    omega

theorem Width.two_halfwords (wd : Width) {hw : ℕ} (h : hw < 2) : 16 * hw < wd.bits := by
  cases wd <;> simp only [bits] <;> omega

/-- The amount of a shift is read back from its two fields. -/
theorem Shift.ofFields_eq {amount : ℕ} (h : amount < 32) (op : Shift) :
    op.ofFields (op.immr amount) (op.imms amount) = some amount := by
  cases op with
  | lsl =>
      have hback : 31 - (31 - amount) = amount := by omega
      simp only [ofFields, immr, imms, hback, if_true]
  | lsr => rfl
  | asr => rfl

theorem Shift.fields_lt {amount : ℕ} (h : amount < 32) (op : Shift) :
    op.immr amount < 32 ∧ op.imms amount < 32 := by
  cases op <;> simp only [immr, imms] <;> omega

section Decoding

variable {pos : ℤ} {w : BitVec 32}

theorem decode_movWide {op : MovWide} {wd : Width} {d imm : ℕ}
    (hfit : (Instr.movWide op wd d imm).Fits pos)
    (h : w.toNat = (Instr.movWide op wd d imm).number pos) :
    decode pos w (.movWide op) = some (.movWide op wd d imm) := by
  obtain ⟨hd, himm⟩ := hfit
  have hhalf := halfword_lt himm
  have hshift := halfword_shift_lt imm
  have hsf := wd.sf_lt
  have hop := op.opc_le
  rw [Instr.number] at h
  have hwd : width w = wd := Width.ofSf_eq (by unfold field; omega)
  have hrd : field w 0 5 = d := by unfold field; omega
  have hv : field w 5 16 = (halfword imm).1 := by unfold field; omega
  have hhw : field w 21 2 = (halfword imm).2 := by unfold field; omega
  have hopc : field w 29 2 = op.opc := by unfold field; omega
  have hcls : field w 23 6 = 0x25 := by unfold field; omega
  rw [decode, hwd, hrd, hv, hhw, halfword_value,
    if_pos ⟨hopc, hcls, wd.two_halfwords hshift⟩]

theorem decode_movk {wd : Width} {d imm shift : ℕ}
    (hfit : (Instr.movk wd d imm shift).Fits pos)
    (h : w.toNat = (Instr.movk wd d imm shift).number pos) :
    decode pos w .movk = some (.movk wd d imm shift) := by
  obtain ⟨hd, himm, ⟨hw, rfl⟩, hbits⟩ := hfit
  have hlt : hw < 4 := by cases wd <;> simp only [Width.bits] at hbits <;> omega
  have hsf := wd.sf_lt
  rw [Instr.number] at h
  have hwd : width w = wd := Width.ofSf_eq (by unfold field; omega)
  have hrd : field w 0 5 = d := by unfold field; omega
  have hv : field w 5 16 = imm := by unfold field; omega
  have hhw : field w 21 2 = hw := by unfold field; omega
  rw [decode, hwd, hrd, hv, hhw, if_pos ⟨by unfold field; omega, by unfold field; omega, hbits⟩]

theorem decode_movReg {wd : Width} {d m : ℕ} (hfit : (Instr.movReg wd d m).Fits pos)
    (h : w.toNat = (Instr.movReg wd d m).number pos) :
    decode pos w .movReg = some (.movReg wd d m) := by
  obtain ⟨hd, hm⟩ := hfit
  have hsf := wd.sf_lt
  rw [Instr.number] at h
  have hwd : width w = wd := Width.ofSf_eq (by unfold field; omega)
  have hrd : field w 0 5 = d := by unfold field; omega
  have hrm : field w 16 5 = m := by unfold field; omega
  rw [decode, hwd, hrd, hrm, if_pos (by unfold field; omega)]

theorem decode_addSubImm {op : AddSub} {wd : Width} {d n imm : ℕ}
    (hfit : (Instr.addSubImm op wd d n imm).Fits pos)
    (h : w.toNat = (Instr.addSubImm op wd d n imm).number pos) :
    decode pos w (.addSubImm op) = some (.addSubImm op wd d n imm) := by
  obtain ⟨hd, hn, himm⟩ := hfit
  have hsf := wd.sf_lt
  have hop := op.op_lt
  rw [Instr.number] at h
  have hwd : width w = wd := Width.ofSf_eq (by unfold field; omega)
  have hrd : field w 0 5 = d := by unfold field; omega
  have hrn : field w 5 5 = n := by unfold field; omega
  have hv : field w 10 12 = imm := by unfold field; omega
  rw [decode, hwd, hrd, hrn, hv, if_pos (by unfold field; omega)]

theorem decode_addSubReg {op : AddSub} {wd : Width} {d n m : ℕ}
    (hfit : (Instr.addSubReg op wd d n m).Fits pos)
    (h : w.toNat = (Instr.addSubReg op wd d n m).number pos) :
    decode pos w (.addSubReg op) = some (.addSubReg op wd d n m) := by
  obtain ⟨hd, hn, hm⟩ := hfit
  have hsf := wd.sf_lt
  have hop := op.op_lt
  rw [Instr.number] at h
  have hwd : width w = wd := Width.ofSf_eq (by unfold field; omega)
  have hrd : field w 0 5 = d := by unfold field; omega
  have hrn : field w 5 5 = n := by unfold field; omega
  have hrm : field w 16 5 = m := by unfold field; omega
  rw [decode, hwd, hrd, hrn, hrm, if_pos (by unfold field; omega)]

theorem decode_cmpImm {wd : Width} {n imm : ℕ} (hfit : (Instr.cmpImm wd n imm).Fits pos)
    (h : w.toNat = (Instr.cmpImm wd n imm).number pos) :
    decode pos w .cmpImm = some (.cmpImm wd n imm) := by
  obtain ⟨hn, himm⟩ := hfit
  have hsf := wd.sf_lt
  rw [Instr.number] at h
  have hwd : width w = wd := Width.ofSf_eq (by unfold field; omega)
  have hrn : field w 5 5 = n := by unfold field; omega
  have hv : field w 10 12 = imm := by unfold field; omega
  rw [decode, hwd, hrn, hv, if_pos (by unfold field; omega)]

theorem decode_cmpReg {wd : Width} {n m : ℕ} (hfit : (Instr.cmpReg wd n m).Fits pos)
    (h : w.toNat = (Instr.cmpReg wd n m).number pos) :
    decode pos w .cmpReg = some (.cmpReg wd n m) := by
  obtain ⟨hn, hm⟩ := hfit
  have hsf := wd.sf_lt
  rw [Instr.number] at h
  have hwd : width w = wd := Width.ofSf_eq (by unfold field; omega)
  have hrn : field w 5 5 = n := by unfold field; omega
  have hrm : field w 16 5 = m := by unfold field; omega
  rw [decode, hwd, hrn, hrm, if_pos (by unfold field; omega)]

theorem decode_logical {op : Logical} {wd : Width} {d n m amount : ℕ}
    (hfit : (Instr.logical op wd d n m amount).Fits pos)
    (h : w.toNat = (Instr.logical op wd d n m amount).number pos) :
    decode pos w (.logical op) = some (.logical op wd d n m amount) := by
  obtain ⟨hd, hn, hm, hbits⟩ := hfit
  have hlt : amount < 64 := by cases wd <;> simp only [Width.bits] at hbits <;> omega
  have hsf := wd.sf_lt
  have hop := op.opc_lt
  rw [Instr.number] at h
  have hwd : width w = wd := Width.ofSf_eq (by unfold field; omega)
  have hrd : field w 0 5 = d := by unfold field; omega
  have hrn : field w 5 5 = n := by unfold field; omega
  have hrm : field w 16 5 = m := by unfold field; omega
  have hamount : field w 10 6 = amount := by unfold field; omega
  rw [decode, hwd, hrd, hrn, hrm, hamount,
    if_pos ⟨by unfold field; omega, by unfold field; omega, hbits⟩]

theorem decode_mul {wd : Width} {d n m : ℕ} (hfit : (Instr.mul wd d n m).Fits pos)
    (h : w.toNat = (Instr.mul wd d n m).number pos) :
    decode pos w .mul = some (.mul wd d n m) := by
  obtain ⟨hd, hn, hm⟩ := hfit
  have hsf := wd.sf_lt
  rw [Instr.number] at h
  have hwd : width w = wd := Width.ofSf_eq (by unfold field; omega)
  have hrd : field w 0 5 = d := by unfold field; omega
  have hrn : field w 5 5 = n := by unfold field; omega
  have hrm : field w 16 5 = m := by unfold field; omega
  rw [decode, hwd, hrd, hrn, hrm, if_pos (by unfold field; omega)]

theorem decode_twoSource {op : TwoSource} {wd : Width} {d n m : ℕ}
    (hfit : (Instr.twoSource op wd d n m).Fits pos)
    (h : w.toNat = (Instr.twoSource op wd d n m).number pos) :
    decode pos w (.twoSource op) = some (.twoSource op wd d n m) := by
  obtain ⟨hd, hn, hm⟩ := hfit
  have hsf := wd.sf_lt
  have hop := op.opcode_lt
  rw [Instr.number] at h
  have hwd : width w = wd := Width.ofSf_eq (by unfold field; omega)
  have hrd : field w 0 5 = d := by unfold field; omega
  have hrn : field w 5 5 = n := by unfold field; omega
  have hrm : field w 16 5 = m := by unfold field; omega
  rw [decode, hwd, hrd, hrn, hrm, if_pos (by unfold field; omega)]

theorem decode_shiftImm {op : Shift} {d n amount : ℕ}
    (hfit : (Instr.shiftImm op d n amount).Fits pos)
    (h : w.toNat = (Instr.shiftImm op d n amount).number pos) :
    decode pos w (.shiftImm op) = some (.shiftImm op d n amount) := by
  obtain ⟨hd, hn, hamount⟩ := hfit
  have hop := op.opc_lt
  have hlt := op.fields_lt hamount
  rw [Instr.number] at h
  have hrd : field w 0 5 = d := by unfold field; omega
  have hrn : field w 5 5 = n := by unfold field; omega
  have himmr : field w 16 6 = op.immr amount := by unfold field; omega
  have himms : field w 10 6 = op.imms amount := by unfold field; omega
  rw [decode, hrd, hrn, himmr, himms, op.ofFields_eq hamount,
    if_pos (by unfold field; omega)]
  rfl

theorem decode_byteReg {op : LoadStore} {t n m : ℕ}
    (hfit : (Instr.byteReg op t n m).Fits pos)
    (h : w.toNat = (Instr.byteReg op t n m).number pos) :
    decode pos w (.byteReg op) = some (.byteReg op t n m) := by
  obtain ⟨ht, hn, hm⟩ := hfit
  have hop := op.opc_lt
  rw [Instr.number] at h
  have hrt : field w 0 5 = t := by unfold field; omega
  have hrn : field w 5 5 = n := by unfold field; omega
  have hrm : field w 16 5 = m := by unfold field; omega
  rw [decode, hrt, hrn, hrm, if_pos (by unfold field; omega)]

theorem decode_loadStore {op : LoadStore} {wd : Width} {t n offset : ℕ}
    (hfit : (Instr.loadStore op wd t n offset).Fits pos)
    (h : w.toNat = (Instr.loadStore op wd t n offset).number pos) :
    decode pos w (.loadStore op) = some (.loadStore op wd t n offset) := by
  obtain ⟨ht, hn, ⟨k, rfl⟩, hlt⟩ := hfit
  have hbytes : 0 < wd.bytes := by cases wd <;> decide
  rw [Nat.mul_comm wd.bytes] at hlt h ⊢
  have hk : k < 2 ^ 12 := Nat.lt_of_mul_lt_mul_right hlt
  have hsf := wd.sf_lt
  have hop := op.opc_lt
  rw [Instr.number, Nat.mul_div_cancel k hbytes] at h
  have hwd : Width.ofSf (field w 30 1) = wd := Width.ofSf_eq (by unfold field; omega)
  have hrt : field w 0 5 = t := by unfold field; omega
  have hrn : field w 5 5 = n := by unfold field; omega
  have hoff : field w 10 12 = k := by unfold field; omega
  rw [decode, hwd, hrt, hrn, hoff, if_pos (by unfold field; omega)]

theorem decode_narrow {op : Narrow} {t n : ℕ} (hfit : (Instr.narrow op t n).Fits pos)
    (h : w.toNat = (Instr.narrow op t n).number pos) :
    decode pos w (.narrow op) = some (.narrow op t n) := by
  obtain ⟨ht, hn⟩ := hfit
  have hsize := op.size_lt
  have hop := op.opc_lt
  rw [Instr.number] at h
  have hrt : field w 0 5 = t := by unfold field; omega
  have hrn : field w 5 5 = n := by unfold field; omega
  rw [decode, hrt, hrn, if_pos (by unfold field; omega)]

theorem decode_branchReg {link : Bool} {n : ℕ} (hn : n < 32)
    (h : w.toNat = (Instr.branchReg link n).number pos) :
    decode pos w (.branchReg link) = some (.branchReg link n) := by
  have hlink := toNat_bool_lt link
  rw [Instr.number] at h
  have hrn : field w 5 5 = n := by unfold field; omega
  rw [decode, hrn, if_pos (by unfold field; omega)]

theorem decode_ret (h : w.toNat = Instr.ret.number pos) : decode pos w .ret = some .ret := by
  rw [Instr.number] at h
  rw [decode, if_pos (by unfold field; omega)]

theorem decode_svc (h : w.toNat = Instr.svc.number pos) : decode pos w .svc = some .svc := by
  rw [Instr.number] at h
  rw [decode, if_pos (by unfold field; omega)]

theorem bmod_of_emod {a : ℕ} {v : ℤ} {m : ℕ} (h : (a : ℤ) = v % m) :
    Int.bmod a m = Int.bmod v m := by
  rw [h, Int.emod_bmod]

theorem adr_fields (distance : ℤ) :
    ∃ hi lo : ℕ, hi < 2 ^ 19 ∧ lo < 4 ∧
      ((4 * hi + lo : ℕ) : ℤ) = distance % (2 ^ 21 : ℕ) := by
  refine ⟨(distance % 2 ^ 21).toNat / 4, (distance % 2 ^ 21).toNat % 4, ?_, ?_, ?_⟩
  · omega
  · omega
  · omega

/-- Any distance at all is decoded as far as its field reaches. -/
theorem decode_refer {form : Ref} {distance : ℤ} (hreg : ∀ d, form = .adr d → d < 32)
    (h : w.toNat = form.number distance) :
    decode pos w form.cls = some (.refer form (pos + form.reach distance)) := by
  cases form with
  | adr d =>
      have hd := hreg d rfl
      rw [Ref.number] at h
      -- The two fields are the low two bits of the distance and the rest of it.
      obtain ⟨hi, lo, hhi, hlo, hv⟩ := adr_fields distance
      have hnat : (distance % 2 ^ 21).toNat = 4 * hi + lo := by omega
      simp only [hnat] at h
      have hdiv : (4 * hi + lo) / 4 = hi := by omega
      have hmod : (4 * hi + lo) % 4 = lo := by omega
      have hbmod := bmod_of_emod hv
      rw [Nat.cast_add, Nat.cast_mul, Nat.cast_ofNat] at hbmod
      rw [hdiv, hmod] at h
      clear hnat hv hdiv hmod
      have hrd : field w 0 5 = d := by unfold field; omega
      have hrhi : field w 5 19 = hi := by unfold field; omega
      have hrlo : field w 29 2 = lo := by unfold field; omega
      have hcls : field w 31 1 = 0 ∧ field w 24 5 = 0x10 := by unfold field; omega
      rw [Ref.cls, decode, hrd, hrhi, hrlo, if_pos hcls, hbmod, Ref.reach]
  | b link =>
      have hlink := toNat_bool_lt link
      rw [Ref.number] at h
      have hv : (field w 0 26 : ℤ) = distance / 4 % (2 ^ 26 : ℕ) := by
        unfold field
        omega
      rw [Ref.cls, decode, signedField, bmod_of_emod hv, if_pos (by unfold field; omega),
        Ref.reach]
  | bcond c =>
      have hc := c.code_lt
      rw [Ref.number] at h
      have hcode : field w 0 4 = c.code := by unfold field; omega
      have hv : (field w 5 19 : ℤ) = distance / 4 % (2 ^ 19 : ℕ) := by
        unfold field
        omega
      rw [Ref.cls, decode, signedField, bmod_of_emod hv, hcode, Cond.ofCode_code,
        if_pos (by unfold field; omega), Ref.reach]
      rfl

/-- Decoding undoes encoding. -/
theorem decode_number {i : Instr} (hfit : i.Fits pos) (h : w.toNat = i.number pos) :
    decode pos w i.cls = some i := by
  cases i with
  | movWide op wd d imm => exact decode_movWide hfit h
  | movk wd d imm shift => exact decode_movk hfit h
  | movReg wd d m => exact decode_movReg hfit h
  | addSubImm op wd d n imm => exact decode_addSubImm hfit h
  | addSubReg op wd d n m => exact decode_addSubReg hfit h
  | cmpImm wd n imm => exact decode_cmpImm hfit h
  | cmpReg wd n m => exact decode_cmpReg hfit h
  | logical op wd d n m amount => exact decode_logical hfit h
  | mul wd d n m => exact decode_mul hfit h
  | twoSource op wd d n m => exact decode_twoSource hfit h
  | shiftImm op d n amount => exact decode_shiftImm hfit h
  | byteReg op t n m => exact decode_byteReg hfit h
  | loadStore op wd t n offset => exact decode_loadStore hfit h
  | narrow op t n => exact decode_narrow hfit h
  | refer form target =>
      have hdecode : decode pos w form.cls = _ := decode_refer hfit.1 h
      rw [Ref.reach_of_inReach hfit.2, add_sub_cancel] at hdecode
      exact hdecode
  | branchReg link n => exact decode_branchReg hfit h
  | ret => exact decode_ret h
  | svc => exact decode_svc h

end Decoding

end Veron.A64
