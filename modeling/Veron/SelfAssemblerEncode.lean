/-
Every instruction in a form of the language, with operands that fit, is
assembled to its A64 word, and the word decodes to the instruction.
-/
import Veron.SelfAssemblerForms
import Veron.SelfAssemblerPasses

namespace Veron.SelfAssembler

open A64 Line

/-- The mnemonics that take operands and name no target, with their handlers. -/
inductive Dispatch : List Char → Line Code → Prop where
  | mov : Dispatch ['m', 'o', 'v'] hMovPlain
  | movn : Dispatch ['m', 'o', 'v', 'n'] hMovn
  | movk : Dispatch ['m', 'o', 'v', 'k'] hMovk
  | mul : Dispatch ['m', 'u', 'l'] hMul
  | add : Dispatch ['a', 'd', 'd'] hAdd
  | and : Dispatch ['a', 'n', 'd'] hAnd
  | asr : Dispatch ['a', 's', 'r'] hAsr
  | cmp : Dispatch ['c', 'm', 'p'] hCmp
  | lsl : Dispatch ['l', 's', 'l'] hLsl
  | lsr : Dispatch ['l', 's', 'r'] hLsr
  | ldr : Dispatch ['l', 'd', 'r'] hLdr
  | ldrb : Dispatch ['l', 'd', 'r', 'b'] hLdrb
  | ldrh : Dispatch ['l', 'd', 'r', 'h'] hLdrh
  | ldrsb : Dispatch ['l', 'd', 'r', 's', 'b'] hLdrs
  | ldrsh : Dispatch ['l', 'd', 'r', 's', 'h'] hLdrs
  | sub : Dispatch ['s', 'u', 'b'] hSub
  | sdiv : Dispatch ['s', 'd', 'i', 'v'] hSdiv
  | str : Dispatch ['s', 't', 'r'] hStr
  | strb : Dispatch ['s', 't', 'r', 'b'] hStrb
  | strh : Dispatch ['s', 't', 'r', 'h'] hStrh
  | orr : Dispatch ['o', 'r', 'r'] hOrr
  | udiv : Dispatch ['u', 'd', 'i', 'v'] hUdiv
  | eor : Dispatch ['e', 'o', 'r'] hEor
  | br : Dispatch ['b', 'r'] hBr
  | blr : Dispatch ['b', 'l', 'r'] hBlr

theorem parseCode_m : parseCode (ch 'm') = hMov := rfl

theorem parseCode_a : parseCode (ch 'a') = hA := rfl

theorem parseCode_l : parseCode (ch 'l') = hL := rfl

theorem parseCode_s : parseCode (ch 's') = hS := rfl

theorem parseCode_b : parseCode (ch 'b') = hBranch := rfl

variable {mnem : List Char} {handler : Line Code} {tab : Slot → Word} {op : Operand}
  {ops : List Operand} {t tail rest : List Byte} {code : Code} {c : Cursor}

/-- A line is read by the handler of its mnemonic. -/
theorem Dispatch.parse (h : Dispatch mnem handler) (ht : Spells tab (op :: ops) t tail)
    (hrun : handler.run ⟨text mnem ++ t, false⟩ = .ok (code, c)) :
    parseItem.run ⟨text mnem ++ t, false⟩ = .ok (.code code, c) := by
  obtain ⟨b, t', rfl, hb⟩ := ht.head
  rcases hb with rfl | rfl
  all_goals
    cases h
    -- The first character decides.
    case cmp | orr | udiv | eor => exact parseItem_code (by decide) hrun
    all_goals
      refine parseItem_code (by decide) (Eq.trans ?_ hrun)
      simp only [parseCode_m, parseCode_a, parseCode_l, parseCode_s, parseCode_b, hMov, hA, hL,
        hS, hSt, hBranch, hBlOrBlr, run_peek_bind, run_ite]
      rfl

/-- A line is assembled to the word of an instruction. -/
def Assembles (pos : ℤ) (line tail : List Byte) (i : Instr) : Prop :=
  ∃ w nw, parseItem.run ⟨line, false⟩ = .ok (.code (.word w), ⟨tail, nw⟩) ∧
    w.toNat = i.number pos

theorem Dispatch.assembles {pos : ℤ} {i : Instr} {w : Word} {nw : Bool}
    (h : Dispatch mnem handler) (ht : Spells tab (op :: ops) t tail)
    (hrun : handler.run ⟨text mnem ++ t, false⟩ = .ok (.word w, ⟨tail, nw⟩))
    (hw : w.toNat = i.number pos) : Assembles pos (text mnem ++ t) tail i :=
  ⟨w, nw, h.parse ht hrun, hw⟩

section Operands

variable {n v : ℕ}

theorem reg_toNat (h : n < 32) : (BitVec.ofNat 32 n).toNat = n := Nat.mod_eq_of_lt (by omega)

theorem num_toNat (h : v < 2 ^ 32) : (BitVec.ofNat 32 v).toNat = v := Nat.mod_eq_of_lt h

end Operands

variable {pos : ℤ} {wd : Width} {d n m imm amount offset shift : ℕ}

theorem assembles_movWide {op : MovWide} {b : Word} (hdispatch : Dispatch mnem handler)
    (hfit : (Instr.movWide op wd d imm).Fits pos)
    (h : Spells tab [.reg wd d, .num imm] t tail)
    (hbase : b.toNat = 2 ^ 31 + (op.opc * 2 ^ 29 + 0x25 * 2 ^ 23))
    (hrun : handler.run ⟨text mnem ++ t, false⟩ =
      (hmFold b (BitVec.ofNat 32 d) (BitVec.ofNat 32 imm)).run ⟨tail, isNarrow wd⟩) :
    Assembles pos (text mnem ++ t) tail (.movWide op wd d imm) := by
  have hd := reg_toNat hfit.1
  have himm : (BitVec.ofNat 32 imm).toNat = imm := num_toNat (by
    rcases hfit.2 with h | ⟨v, hv, rfl⟩ <;> omega)
  obtain ⟨hv, hhw⟩ := fold_halfword (BitVec.ofNat 32 imm)
  rw [himm] at hv hhw
  have hlt : (BitVec.ofNat 32 d).toNat < 32 := hd.symm ▸ hfit.1
  have hword := movWide_toNat hbase hlt (hd.symm ▸ hfit) hv hhw
  rw [hd] at hword
  exact hdispatch.assembles h (hrun.trans (hmFold_run _ _ _ wd tail)) hword

theorem assembles_movk (hfit : (Instr.movk wd d imm shift).Fits pos)
    (h : Spells tab [.reg wd d, .num imm, .num shift] t tail) :
    Assembles pos (text ['m', 'o', 'v', 'k'] ++ t) tail (.movk wd d imm shift) := by
  obtain ⟨hd, himm, -, hshift⟩ := hfit
  have hbits : wd.bits ≤ 64 := by cases wd <;> decide
  have hword := @movk_toNat pos wd (BitVec.ofNat 32 d) (BitVec.ofNat 32 imm)
    (BitVec.ofNat 32 shift)
  rw [reg_toNat hd, num_toNat (by omega : imm < _), num_toNat (by omega : shift < _)] at hword
  exact Dispatch.movk.assembles h (hMovk_run h) (hword hd himm (by omega))

theorem assembles_movReg (hfit : (Instr.movReg wd d m).Fits pos)
    (h : Spells tab [.reg wd d, .reg wd m] t tail) :
    Assembles pos (text ['m', 'o', 'v'] ++ t) tail (.movReg wd d m) := by
  obtain ⟨hd, hm⟩ := hfit
  have hword := @movReg_toNat pos wd (BitVec.ofNat 32 d) (BitVec.ofNat 32 m)
  rw [reg_toNat hd, reg_toNat hm] at hword
  exact Dispatch.mov.assembles h (hMovPlain_run_reg h) (hword hd hm)

theorem assembles_addSubImm (op : AddSub) (bi br : Word)
    (hdispatch : Dispatch (addSubName op) (addSub bi br))
    (hbase : bi.toNat = 2 ^ 31 + (op.op * 2 ^ 30 + 0x44 * 2 ^ 22))
    (hfit : (Instr.addSubImm op wd d n imm).Fits pos)
    (h : Spells tab [.reg wd d, .reg wd n, .num imm] t tail) :
    Assembles pos (text (addSubName op) ++ t) tail (.addSubImm op wd d n imm) := by
  obtain ⟨hd, hn, himm⟩ := hfit
  have hword := @addSubImm_toNat pos wd bi (BitVec.ofNat 32 d) (BitVec.ofNat 32 n)
    (BitVec.ofNat 32 imm) op hbase
  rw [reg_toNat hd, reg_toNat hn, num_toNat (by omega : imm < _)] at hword
  have hrun : (addSub bi br).run ⟨text (addSubName op) ++ t, false⟩ =
      .ok (.word (sized wd (BitVec.ofNat 32 imm <<< 10 ||| bi ||| BitVec.ofNat 32 n <<< 5 |||
        BitVec.ofNat 32 d)), ⟨tail, isNarrow wd⟩) := by
    cases op <;> exact addSub_run_imm h bi br
  exact hdispatch.assembles h hrun (hword hd hn himm)

theorem assembles_addSubReg (op : AddSub) (bi br : Word)
    (hdispatch : Dispatch (addSubName op) (addSub bi br))
    (hbase : br.toNat = 2 ^ 31 + (op.op * 2 ^ 30 + 0x58 * 2 ^ 21))
    (hfit : (Instr.addSubReg op wd d n m).Fits pos)
    (h : Spells tab [.reg wd d, .reg wd n, .reg wd m] t tail) :
    Assembles pos (text (addSubName op) ++ t) tail (.addSubReg op wd d n m) := by
  obtain ⟨hd, hn, hm⟩ := hfit
  have hword := @addSubReg_toNat pos wd br (BitVec.ofNat 32 d) (BitVec.ofNat 32 n)
    (BitVec.ofNat 32 m) op hbase
  rw [reg_toNat hd, reg_toNat hn, reg_toNat hm] at hword
  have hrun : (addSub bi br).run ⟨text (addSubName op) ++ t, false⟩ =
      .ok (.word (sized wd (br ||| BitVec.ofNat 32 m <<< 16 ||| BitVec.ofNat 32 n <<< 5 |||
        BitVec.ofNat 32 d)), ⟨tail, isNarrow wd⟩) := by
    cases op <;> exact addSub_run_reg h bi br
  exact hdispatch.assembles h hrun (hword hd hn hm)

theorem assembles_cmpImm (hfit : (Instr.cmpImm wd n imm).Fits pos)
    (h : Spells tab [.reg wd n, .num imm] t tail) :
    Assembles pos (text ['c', 'm', 'p'] ++ t) tail (.cmpImm wd n imm) := by
  obtain ⟨hn, himm⟩ := hfit
  have hword := @cmpImm_toNat pos wd (BitVec.ofNat 32 n) (BitVec.ofNat 32 imm)
  rw [reg_toNat hn, num_toNat (by omega : imm < _)] at hword
  exact Dispatch.cmp.assembles h (hCmp_run_imm h) (hword hn himm)

theorem assembles_cmpReg (hfit : (Instr.cmpReg wd n m).Fits pos)
    (h : Spells tab [.reg wd n, .reg wd m] t tail) :
    Assembles pos (text ['c', 'm', 'p'] ++ t) tail (.cmpReg wd n m) := by
  obtain ⟨hn, hm⟩ := hfit
  have hword := @cmpReg_toNat pos wd (BitVec.ofNat 32 n) (BitVec.ofNat 32 m)
  rw [reg_toNat hn, reg_toNat hm] at hword
  exact Dispatch.cmp.assembles h (hCmp_run_reg h) (hword hn hm)

/-- `and` and `eor`, whose words leave the shift field alone. -/
theorem assembles_andEor (op : Logical) (b : Word)
    (hdispatch : Dispatch (logicalName op) (andEor b))
    (hbase : b.toNat = 2 ^ 31 + (op.opc * 2 ^ 29 + 0x50 * 2 ^ 21))
    (hfit : (Instr.logical op wd d n m 0).Fits pos)
    (h : Spells tab [.reg wd d, .reg wd n, .reg wd m] t tail) :
    Assembles pos (text (logicalName op) ++ t) tail (.logical op wd d n m 0) := by
  obtain ⟨hd, hn, hm, -⟩ := hfit
  have hword := @logical_toNat pos wd b (BitVec.ofNat 32 d) (BitVec.ofNat 32 n)
    (BitVec.ofNat 32 m) op 0 hbase
  rw [reg_toNat hd, reg_toNat hn, reg_toNat hm, BitVec.ofNat_eq_ofNat, BitVec.zero_shiftLeft,
    BitVec.or_zero] at hword
  have hrun : (andEor b).run ⟨text (logicalName op) ++ t, false⟩ =
      .ok (.word (sized wd (b ||| BitVec.ofNat 32 m <<< 16 ||| BitVec.ofNat 32 n <<< 5 |||
        BitVec.ofNat 32 d)), ⟨tail, isNarrow wd⟩) := by
    cases op <;> exact andEor_run h b
  exact hdispatch.assembles h hrun (hword hd hn hm (by decide))

theorem orr_toNat (hfit : (Instr.logical .orr wd d n m amount).Fits pos) :
    (sized wd (0xaa000000#32 ||| BitVec.ofNat 32 m <<< 16 ||| BitVec.ofNat 32 n <<< 5 |||
      BitVec.ofNat 32 d ||| BitVec.ofNat 32 amount <<< 10)).toNat =
        (Instr.logical .orr wd d n m amount).number pos := by
  obtain ⟨hd, hn, hm, hlt⟩ := hfit
  have hbits : wd.bits ≤ 64 := by cases wd <;> decide
  have hword := @logical_toNat pos wd 0xaa000000 (BitVec.ofNat 32 d) (BitVec.ofNat 32 n)
    (BitVec.ofNat 32 m) .orr (BitVec.ofNat 32 amount) rfl
  rw [reg_toNat hd, reg_toNat hn, reg_toNat hm, num_toNat (by omega : amount < _)] at hword
  exact hword hd hn hm (by omega)

theorem assembles_orr (hfit : (Instr.logical .orr wd d n m 0).Fits pos)
    (h : Spells tab [.reg wd d, .reg wd n, .reg wd m] t tail) :
    Assembles pos (text ['o', 'r', 'r'] ++ t) tail (.logical .orr wd d n m 0) :=
  Dispatch.orr.assembles h (hOrr_run_none h) (orr_toNat hfit)

theorem assembles_orrShift (hfit : (Instr.logical .orr wd d n m amount).Fits pos)
    (h : Spells tab [.reg wd d, .reg wd n, .reg wd m, .num amount] t tail) :
    Assembles pos (text ['o', 'r', 'r'] ++ t) tail (.logical .orr wd d n m amount) :=
  Dispatch.orr.assembles h (hOrr_run_shift h) (orr_toNat hfit)

theorem assembles_mul (hfit : (Instr.mul wd d n m).Fits pos)
    (h : Spells tab [.reg wd d, .reg wd n, .reg wd m] t tail) :
    Assembles pos (text ['m', 'u', 'l'] ++ t) tail (.mul wd d n m) := by
  obtain ⟨hd, hn, hm⟩ := hfit
  have hword := @mul_toNat pos wd (BitVec.ofNat 32 d) (BitVec.ofNat 32 n) (BitVec.ofNat 32 m)
  rw [reg_toNat hd, reg_toNat hn, reg_toNat hm] at hword
  exact Dispatch.mul.assembles h (hMul_run h) (hword hd hn hm)

/-- `lsl`, `lsr`, `asr`, `sdiv` and `udiv` of registers share `shift_common`. -/
theorem assembles_shiftCommon {op : TwoSource} {kind : Kind} {select : Word}
    (hdispatch : Dispatch mnem handler) (hselect : select.toNat = op.opcode * 2 ^ 10)
    (hrun : handler.run ⟨text mnem ++ t, false⟩ = (shiftCommon kind select).run ⟨t, false⟩)
    (hfit : (Instr.twoSource op wd d n m).Fits pos)
    (h : Spells tab [.reg wd d, .reg wd n, .reg wd m] t tail) :
    Assembles pos (text mnem ++ t) tail (.twoSource op wd d n m) := by
  obtain ⟨hd, hn, hm⟩ := hfit
  have hword := @twoSource_toNat pos wd (BitVec.ofNat 32 d) (BitVec.ofNat 32 n)
    (BitVec.ofNat 32 m) op select hselect
  rw [reg_toNat hd, reg_toNat hn, reg_toNat hm] at hword
  exact hdispatch.assembles h (hrun.trans (shiftCommon_run_reg h kind select))
    (hword hd hn hm)

theorem assembles_twoSource {op : TwoSource}
    (hfit : (Instr.twoSource op wd d n m).Fits pos)
    (h : Spells tab [.reg wd d, .reg wd n, .reg wd m] t tail) :
    Assembles pos (text (twoSourceName op) ++ t) tail (.twoSource op wd d n m) := by
  cases op with
  | udiv => exact assembles_shiftCommon .udiv rfl (run_bind_ok advance_four) hfit h
  | sdiv => exact assembles_shiftCommon .sdiv rfl (run_bind_ok advance_four) hfit h
  | lslv => exact assembles_shiftCommon .lsl rfl (run_bind_ok advance_three) hfit h
  | lsrv => exact assembles_shiftCommon .lsr rfl (run_bind_ok advance_three) hfit h
  | asrv => exact assembles_shiftCommon .asr rfl (run_bind_ok advance_three) hfit h

/-- The fields of a left shift, computed in 32 bits. -/
theorem lsl_fields (h : amount < 32) :
    (((0x20 - BitVec.ofNat 32 amount) &&& 0x1f : Word)).toNat = Shift.immr amount .lsl ∧
      (0x1f - BitVec.ofNat 32 amount : Word).toNat = Shift.imms amount .lsl := by
  have hnum : (BitVec.ofNat 32 amount).toNat = amount := reg_toNat h
  constructor
  · rw [toNat_and_mask (m := 5) _ rfl, BitVec.toNat_sub, hnum, Shift.immr]
    change (2 ^ 32 - amount + 32) % 2 ^ 32 % 2 ^ 5 = _
    omega
  · rw [BitVec.toNat_sub, hnum, Shift.imms]
    change (2 ^ 32 - amount + 31) % 2 ^ 32 = _
    omega

theorem sized_of_lt {w : Word} (h : w.toNat < 2 ^ 31) : (sized .w w).toNat = w.toNat := by
  rw [sized, toNat_and_mask (m := 31) _ rfl, Nat.mod_eq_of_lt h]

theorem shiftImm_number_lt {op : Shift} (hfit : (Instr.shiftImm op d n amount).Fits pos) :
    (Instr.shiftImm op d n amount).number pos < 2 ^ 31 := by
  obtain ⟨hd, hn, hamount⟩ := hfit
  have hop := op.opc_lt
  have hlt := op.fields_lt hamount
  rw [Instr.number]
  omega

theorem shiftWord_toNat {op : Shift} (hfit : (Instr.shiftImm op d n amount).Fits pos) :
    (sized .w (shiftWord (BitVec.ofNat 32 amount) (BitVec.ofNat 32 d) (BitVec.ofNat 32 n)
      op)).toNat = (Instr.shiftImm op d n amount).number pos := by
  have hlt := shiftImm_number_lt hfit
  obtain ⟨hd, hn, hamount⟩ := hfit
  have hnum : (BitVec.ofNat 32 amount).toNat = amount := reg_toNat hamount
  have hreg := reg_toNat hd
  have hregn := reg_toNat hn
  have hword : (shiftWord (BitVec.ofNat 32 amount) (BitVec.ofNat 32 d) (BitVec.ofNat 32 n)
      op).toNat = (Instr.shiftImm op d n amount).number pos := by
    rw [← hreg] at hd
    rw [← hregn] at hn
    have hones (op : Shift) (h : op ≠ .lsl) : (0x1f#32).toNat = op.imms amount := by
      cases op <;> first | rfl | exact absurd rfl h
    nth_rewrite 2 [← hreg, ← hregn]
    cases op with
    | lsl =>
        obtain ⟨himmr, himms⟩ := lsl_fields hamount
        exact shiftImm_toNat rfl hamount himmr himms hd hn
    | lsr => exact shiftImm_toNat rfl hamount hnum (hones .lsr (by decide)) hd hn
    | asr => exact shiftImm_toNat rfl hamount hnum (hones .asr (by decide)) hd hn
  rw [sized_of_lt (hword.symm ▸ hlt), hword]

theorem assembles_shiftImm {op : Shift} (hfit : (Instr.shiftImm op d n amount).Fits pos)
    (h : Spells tab [.reg .w d, .reg .w n, .num amount] t tail) :
    Assembles pos (text (shiftName op) ++ t) tail (.shiftImm op d n amount) := by
  have hword := shiftWord_toNat hfit
  cases op with
  | lsl =>
      exact Dispatch.lsl.assembles h
        (Eq.trans (run_bind_ok advance_three) (shiftCommon_run_imm h .lsl 0x2000)) hword
  | lsr =>
      exact Dispatch.lsr.assembles h
        (Eq.trans (run_bind_ok advance_three) (shiftCommon_run_imm h .lsr 0x2400)) hword
  | asr =>
      exact Dispatch.asr.assembles h
        (Eq.trans (run_bind_ok advance_three) (shiftCommon_run_imm h .asr 0x2800)) hword

theorem byteReg_ofNat_toNat {op : LoadStore} {b : Word}
    (hbase : b.toNat = 0x38 * 2 ^ 24 + op.opc * 2 ^ 22 + 2 ^ 21 + 0x1a * 2 ^ 10)
    (hfit : (Instr.byteReg op d n m).Fits pos) :
    (b ||| BitVec.ofNat 32 m <<< 16 ||| BitVec.ofNat 32 n <<< 5 ||| BitVec.ofNat 32 d).toNat =
      (Instr.byteReg op d n m).number pos := by
  obtain ⟨hd, hn, hm⟩ := hfit
  have hword := @byteReg_toNat pos b (BitVec.ofNat 32 n) (BitVec.ofNat 32 m)
    (BitVec.ofNat 32 d) op hbase
  rw [reg_toNat hd, reg_toNat hn, reg_toNat hm] at hword
  exact hword hd hn hm

theorem assembles_ldrb (hfit : (Instr.byteReg .ldr d n m).Fits pos)
    (h : Spells tab [.reg .w d, .reg .x n, .reg .x m] t tail) :
    Assembles pos (text ['l', 'd', 'r', 'b'] ++ t) tail (.byteReg .ldr d n m) :=
  Dispatch.ldrb.assembles h (hLdrb_run h) (byteReg_ofNat_toNat rfl hfit)

theorem assembles_strb (hfit : (Instr.byteReg .str d n m).Fits pos)
    (h : Spells tab [.reg .w d, .reg .x n, .reg .x m] t tail) :
    Assembles pos (text ['s', 't', 'r', 'b'] ++ t) tail (.byteReg .str d n m) :=
  Dispatch.strb.assembles h (hStrb_run_reg h) (byteReg_ofNat_toNat rfl hfit)

theorem scaledOffset_toNat (h : offset < 2 ^ 32) :
    (scaledOffset (BitVec.ofNat 32 offset) wd).toNat = offset / wd.bytes := by
  cases wd with
  | w => rw [scaledOffset, toNat_shiftRight, num_toNat h]; rfl
  | x => rw [scaledOffset, toNat_shiftRight, num_toNat h]; rfl

/-- The base words of `ldr` and `str`. -/
theorem assembles_ldrStr {op : LoadStore} {bw bx : Word} {ops : List Operand}
    (hdispatch : Dispatch (loadStoreName op) (ldrStr bw bx))
    (hbase : ∀ wd, (sizeBase bw bx wd).toNat =
      2 ^ 31 + Width.sf wd * 2 ^ 30 + 0x39 * 2 ^ 24 + op.opc * 2 ^ 22)
    (hfit : (Instr.loadStore op wd d n offset).Fits pos)
    (h : Spells tab (.reg wd d :: .reg .x n :: ops) t tail)
    (hoffset : ∀ rest, Spells tab ops rest tail → ∀ nw,
      optDec.run ⟨rest, nw⟩ = .ok (BitVec.ofNat 32 offset, ⟨tail, nw⟩)) :
    Assembles pos (text (loadStoreName op) ++ t) tail (.loadStore op wd d n offset) := by
  obtain ⟨hd, hn, hdvd, hlt⟩ := hfit
  have hbytes : wd.bytes ≤ 8 ∧ 0 < wd.bytes := by cases wd <;> decide
  have hnum : offset < 2 ^ 32 := lt_of_lt_of_le hlt (by omega)
  have hscaled := @scaledOffset_toNat wd offset hnum
  have hfield : (scaledOffset (BitVec.ofNat 32 offset) wd).toNat < 2 ^ 12 := by
    rw [hscaled]
    exact Nat.div_lt_of_lt_mul (by rwa [Nat.mul_comm])
  have hword := @loadStore_toNat pos wd _ (BitVec.ofNat 32 n) (BitVec.ofNat 32 d) op
    (scaledOffset (BitVec.ofNat 32 offset) wd) offset (hbase wd)
  rw [reg_toNat hd, reg_toNat hn] at hword
  have hrun := fun x y z => ldrStr_run (x := x) (y := y) (z := z) bw bx h hoffset
  cases op <;> exact hdispatch.assembles h (hrun _ _ _) (hword hd hn hscaled hfield)

theorem assembles_loadStoreOffset {op : LoadStore}
    (hfit : (Instr.loadStore op wd d n offset).Fits pos)
    (h : Spells tab [.reg wd d, .reg .x n, .num offset] t tail) :
    Assembles pos (text (loadStoreName op) ++ t) tail (.loadStore op wd d n offset) := by
  have hoffset : ∀ rest, Spells tab [.num offset] rest tail → ∀ nw,
      optDec.run ⟨rest, nw⟩ = .ok (BitVec.ofNat 32 offset, ⟨tail, nw⟩) := by
    rintro rest hrest nw
    obtain ⟨r, ⟨-⟩, hrun⟩ := hrest.optDec_run
    exact hrun nw
  cases op with
  | ldr => exact assembles_ldrStr .ldr (fun wd => by cases wd <;> rfl) hfit h hoffset
  | str => exact assembles_ldrStr .str (fun wd => by cases wd <;> rfl) hfit h hoffset

theorem assembles_loadStore {op : LoadStore} (hfit : (Instr.loadStore op wd d n 0).Fits pos)
    (h : Spells tab [.reg wd d, .reg .x n] t tail) :
    Assembles pos (text (loadStoreName op) ++ t) tail (.loadStore op wd d n 0) := by
  have hoffset : ∀ rest, Spells tab [] rest tail → ∀ nw,
      optDec.run ⟨rest, nw⟩ = .ok (BitVec.ofNat 32 0, ⟨tail, nw⟩) := by
    rintro rest ⟨hend⟩ nw
    exact hend.optDec_run nw
  cases op with
  | ldr => exact assembles_ldrStr .ldr (fun wd => by cases wd <;> rfl) hfit h hoffset
  | str => exact assembles_ldrStr .str (fun wd => by cases wd <;> rfl) hfit h hoffset

theorem narrow_ofNat_toNat {op : Narrow} {b : Word}
    (hbase : b.toNat = op.size * 2 ^ 30 + 0x39 * 2 ^ 24 + op.opc * 2 ^ 22)
    (hfit : (Instr.narrow op d n).Fits pos) :
    (b ||| BitVec.ofNat 32 n <<< 5 ||| BitVec.ofNat 32 d).toNat =
      (Instr.narrow op d n).number pos := by
  obtain ⟨hd, hn⟩ := hfit
  have hword := @narrow_toNat pos b (BitVec.ofNat 32 n) (BitVec.ofNat 32 d) op hbase
  rw [reg_toNat hd, reg_toNat hn] at hword
  exact hword hd hn

theorem assembles_narrow {op : Narrow} (hfit : (Instr.narrow op d n).Fits pos)
    (h : Spells tab [.reg (narrowWidth op) d, .reg .x n] t tail) :
    Assembles pos (text (narrowName op) ++ t) tail (.narrow op d n) := by
  cases op with
  | strb => exact Dispatch.strb.assembles h (hStrb_run_none h) (narrow_ofNat_toNat rfl hfit)
  | ldrh =>
      exact Dispatch.ldrh.assembles h (Eq.trans (run_bind_ok advance_four) (hLsPlain_run h _))
        (narrow_ofNat_toNat rfl hfit)
  | strh =>
      exact Dispatch.strh.assembles h (Eq.trans (run_bind_ok advance_four) (hLsPlain_run h _))
        (narrow_ofNat_toNat rfl hfit)
  | ldrsb =>
      exact Dispatch.ldrsb.assembles h (hLsPlain_run h 0x39800000)
        (narrow_ofNat_toNat rfl hfit)
  | ldrsh =>
      exact Dispatch.ldrsh.assembles h (hLsPlain_run h 0x79800000)
        (narrow_ofNat_toNat rfl hfit)

theorem branchReg_ofNat_toNat {link : Bool} {b : Word}
    (hbase : b.toNat = 0x1ac * 2 ^ 23 + link.toNat * 2 ^ 21 + 0x7c0 * 2 ^ 10) (hn : n < 32) :
    (b ||| BitVec.ofNat 32 n <<< 5).toNat = (Instr.branchReg link n).number pos := by
  have hword := @branchReg_toNat pos b (BitVec.ofNat 32 n) link hbase
  rw [reg_toNat hn] at hword
  exact hword hn

theorem assembles_br (hn : n < 32) (h : Spells tab [.reg .x n] t tail) :
    Assembles pos (text ['b', 'r'] ++ t) tail (.branchReg false n) := by
  obtain ⟨rest, ⟨-⟩, hreg⟩ := h.nextReg_run
  have hrun : hBr.run ⟨text ['b', 'r'] ++ t, false⟩ =
      .ok (.word (0xd61f0000#32 ||| BitVec.ofNat 32 n <<< 5), ⟨tail, false⟩) :=
    Eq.trans (run_bind_ok advance_two) (run_bind_ok (hreg false))
  exact Dispatch.br.assembles h hrun (branchReg_ofNat_toNat rfl hn)

theorem assembles_blr (hn : n < 32) (h : Spells tab [.reg .x n] t tail) :
    Assembles pos (text ['b', 'l', 'r'] ++ t) tail (.branchReg true n) := by
  obtain ⟨rest, ⟨-⟩, hreg⟩ := h.nextReg_run
  have hrun : hBlr.run ⟨text ['b', 'l', 'r'] ++ t, false⟩ =
      .ok (.word (0xd63f0000#32 ||| BitVec.ofNat 32 n <<< 5), ⟨tail, false⟩) :=
    Eq.trans (run_bind_ok advance_three) (run_bind_ok (hreg false))
  exact Dispatch.blr.assembles h hrun (branchReg_ofNat_toNat rfl hn)

theorem assembles_ret : Assembles pos (text ['r', 'e', 't'] ++ tail) tail .ret :=
  ⟨0xd65f03c0, false, parseItem_code (by decide) rfl, rfl⟩

theorem assembles_svc : Assembles pos (text ['s', 'v', 'c'] ++ tail) tail .svc :=
  ⟨0xd4000001, false, parseItem_code (by decide) rfl, rfl⟩

section References

variable {s : State} {form : Ref} {line : List Byte} {p : ℤ} {second : Bool} {i : Instr}

/-- What reading a line gives when it is an instruction of the language: its
word, or a reference whose word is known once the position is. -/
def Reads (s : State) (line tail : List Byte) (i : Instr) : Prop :=
  ∃ code nw, parseItem.run ⟨line, false⟩ = .ok (.code code, ⟨tail, nw⟩) ∧
    ∃ w : Word, s.emitted code = wordBytes w ∧ w.toNat = i.number s.pos

theorem Assembles.reads (h : Assembles s.pos line tail i) : Reads s line tail i := by
  obtain ⟨w, nw, hparse, hw⟩ := h
  exact ⟨.word w, nw, hparse, w, rfl, hw⟩

/-- A reference reaches the position that its target stands for. -/
theorem reads_refer {t : Target} (hhead : RefHead line form rest)
    (htarget : ∀ nw, target.run ⟨rest, nw⟩ = .ok (t, ⟨tail, nw⟩))
    (hvalue : s.value t = BitVec.ofInt 32 p) (hreg : ∀ d, form = .adr d → d < 32) :
    Reads s line tail (.refer form p) := by
  obtain ⟨nw, hparse⟩ := hhead.parse htarget
  have hdistance : s.value t - BitVec.ofNat 32 s.pos = BitVec.ofInt 32 (p - s.pos) := by
    rw [hvalue, ofInt_distance]
  refine ⟨_, nw, hparse, (formOf form).word (BitVec.ofInt 32 (p - s.pos)), ?_, ?_⟩
  · rw [State.emitted, hdistance]
  · exact refer_toNat hreg (p - s.pos)

theorem reads_adr (hd : d < 32) (h : Spells s.tab [.reg .x d, .target p] t tail) :
    Reads s (text ['a', 'd', 'r'] ++ t) tail (.refer (.adr d) p) := by
  obtain ⟨bl, ds, rest, rfl, hbl, hds, hrest⟩ := h.reg
  obtain ⟨tg, r, ⟨-⟩, htarget, hvalue⟩ := hrest.target_run
  have hhead : RefHead (text ['a', 'd', 'r'] ++ (bl ++ letter .x :: (ds ++ rest)))
      (.adr (valueOf ds)) rest :=
    .adr hbl.isWs (letter_not_isWs .x) hds.2.1 (by rwa [hds.2.2]) hrest.avoids_digit
  rw [hds.2.2] at hhead
  exact reads_refer hhead htarget (hvalue s rfl) (fun _ h => by cases h; exact hd)

/-- A branch, whose target is its only operand. -/
theorem reads_branch (h : Spells s.tab [.target p] t tail)
    (hhead : RefHead line form t) (hreg : ∀ d, form ≠ .adr d) :
    Reads s line tail (.refer form p) := by
  obtain ⟨tg, r, ⟨-⟩, htarget, hvalue⟩ := h.target_run
  exact reads_refer hhead htarget (hvalue s rfl) (fun d h => absurd h (hreg d))

/-- What follows a mnemonic is a blank. -/
theorem Spells.avoids {q : Byte → Bool} (h : Spells tab (op :: ops) t tail)
    (hspace : q 0x20 = false) (htab : q 0x09 = false) : Avoids q t := by
  obtain ⟨b, t', rfl, hb⟩ := h.head
  rintro a ⟨rfl⟩
  rcases hb with rfl | rfl
  · exact hspace
  · exact htab

/-- Every form that names no target is read as the word of its instruction. -/
theorem Form.assembles {pos : ℤ} (hform : Form i mnem ops) (hno : ∀ form p, i ≠ .refer form p)
    (hfit : i.Fits pos) (h : Spells tab ops t tail) :
    Assembles pos (text mnem ++ t) tail i := by
  cases hform with
  | movImm => exact assembles_movWide .mov hfit h rfl (hMovPlain_run_imm h)
  | movn => exact assembles_movWide .movn hfit h rfl (hMovn_run h)
  | movk => exact assembles_movk hfit h
  | movReg => exact assembles_movReg hfit h
  | addSubImm =>
      rename_i op wd d n imm
      cases op with
      | add => exact assembles_addSubImm .add 0x91000000 0x8b000000 .add rfl hfit h
      | sub => exact assembles_addSubImm .sub 0xd1000000 0xcb000000 .sub rfl hfit h
  | addSubReg =>
      rename_i op wd d n m
      cases op with
      | add => exact assembles_addSubReg .add 0x91000000 0x8b000000 .add rfl hfit h
      | sub => exact assembles_addSubReg .sub 0xd1000000 0xcb000000 .sub rfl hfit h
  | cmpImm => exact assembles_cmpImm hfit h
  | cmpReg => exact assembles_cmpReg hfit h
  | logical =>
      rename_i op wd d n m
      cases op with
      | and => exact assembles_andEor .and 0x8a000000 .and rfl hfit h
      | orr => exact assembles_orr hfit h
      | eor => exact assembles_andEor .eor 0xca000000 .eor rfl hfit h
  | orrShift => exact assembles_orrShift hfit h
  | mul => exact assembles_mul hfit h
  | twoSource => exact assembles_twoSource hfit h
  | shiftImm => exact assembles_shiftImm hfit h
  | ldrb => exact assembles_ldrb hfit h
  | strb => exact assembles_strb hfit h
  | loadStore => exact assembles_loadStore hfit h
  | loadStoreOffset => exact assembles_loadStoreOffset hfit h
  | narrow => exact assembles_narrow hfit h
  | adr | b | bl | bcond => exact absurd rfl (hno _ _)
  | br => exact assembles_br hfit h
  | blr => exact assembles_blr hfit h
  | ret =>
      cases h with
      | nil => exact assembles_ret
  | svc =>
      cases h with
      | nil => exact assembles_svc

/-- Every form of the language is read as its instruction. -/
theorem Form.reads (hform : Form i mnem ops) (hfit : i.Fits s.pos)
    (h : Spells s.tab ops t tail) : Reads s (text mnem ++ t) tail i := by
  by_cases hrefer : ∃ form p, i = .refer form p
  · obtain ⟨form, p, rfl⟩ := hrefer
    cases hform with
    | adr => exact reads_adr (hfit.1 _ rfl) h
    | b => exact reads_branch h (.b (h.avoids rfl rfl)) (fun _ => nofun)
    | bl => exact reads_branch h (.bl (h.avoids rfl rfl)) (fun _ => nofun)
    | bcond => exact reads_branch h (.bcond _) (fun _ => nofun)
  · exact (hform.assembles (fun form p h => hrefer ⟨form, p, h⟩) hfit h).reads

/-- A line in a form of the language whose operands fit emits the word of its
instruction, which decodes to it, and is read up to its end. -/
theorem line_emits (hform : Form i mnem ops) (hfit : i.Fits s.pos)
    (h : Spells s.tab ops t tail) (hrest : s.rest = text mnem ++ t) (second : Bool) :
    ∃ w : Word, s.line second = .ok ({ s with rest := tail }.write second (wordBytes w)) ∧
      w.toNat = i.number s.pos ∧ decode s.pos w i.cls = some i := by
  obtain ⟨code, nw, hparse, w, hcode, hw⟩ := hform.reads hfit h
  refine ⟨w, ?_, hw, decode_number hfit hw⟩
  rw [State.line, hrest, hparse]
  change Except.ok (({ s with rest := tail } : State).emit second code) = _
  rw [emit_eq, ← hcode]
  cases code <;> rfl

/-- `add x1 x2 40 # next`. -/
def addLine : List Byte := text [' ', 'x', '1', ' ', 'x', '2', ' ', '4', '0', ' ', '#']

theorem addLine_spells (tab : Slot → Word) :
    Spells tab [.reg .x 1, .reg .x 2, .num 40] addLine (text [' ', '#']) := by
  have hblank : Blanks [0x20] := ⟨by decide, by decide⟩
  have hone : Digits (text ['1']) 1 := ⟨by decide, by decide, rfl⟩
  have htwo : Digits (text ['2']) 2 := ⟨by decide, by decide, rfl⟩
  have hnum : Digits (text ['4', '0']) 40 := ⟨by decide, by decide, rfl⟩
  have hend : LineEnd (text [' ', '#']) := by
    rintro b ⟨rfl⟩
    rfl
  exact .cons hblank (.reg hone) (.cons hblank (.reg htwo) (.cons hblank (.num hnum) (.nil hend)))

theorem line_emits_add :
    ∃ w : Word, (start (text ['a', 'd', 'd'] ++ addLine) blank).line true =
        .ok ((start (text [' ', '#']) blank).write true (wordBytes w)) ∧
      w.toNat = 0x9100a041 ∧
      decode 0 w (.addSubImm .add) = some (.addSubImm .add .x 1 2 40) := by
  have hform : Form (.addSubImm .add .x 1 2 40) ['a', 'd', 'd'] [.reg .x 1, .reg .x 2, .num 40] :=
    Form.addSubImm
  exact line_emits (s := start (text ['a', 'd', 'd'] ++ addLine) blank) hform
    ⟨by decide, by decide, by decide⟩ (addLine_spells blank) rfl true

end References

end Veron.SelfAssembler
