/-
Every instruction in a form of the language, with operands that fit, is
assembled to its A64 word.
-/
import Veron.SelfAssemblerSyntax

namespace Veron.SelfAssembler

open A64 Line

def addSubName : AddSub → List Char
  | .add => ['a', 'd', 'd']
  | .sub => ['s', 'u', 'b']

def shiftName : Shift → List Char
  | .lsl => ['l', 's', 'l']
  | .lsr => ['l', 's', 'r']
  | .asr => ['a', 's', 'r']

def twoSourceName : TwoSource → List Char
  | .udiv => ['u', 'd', 'i', 'v']
  | .sdiv => ['s', 'd', 'i', 'v']
  | .lslv => ['l', 's', 'l']
  | .lsrv => ['l', 's', 'r']
  | .asrv => ['a', 's', 'r']

def logicalName : Logical → List Char
  | .and => ['a', 'n', 'd']
  | .orr => ['o', 'r', 'r']
  | .eor => ['e', 'o', 'r']

def loadStoreName : LoadStore → List Char
  | .ldr => ['l', 'd', 'r']
  | .str => ['s', 't', 'r']

def narrowName : Narrow → List Char
  | .strb => ['s', 't', 'r', 'b']
  | .ldrh => ['l', 'd', 'r', 'h']
  | .strh => ['s', 't', 'r', 'h']
  | .ldrsb => ['l', 'd', 'r', 's', 'b']
  | .ldrsh => ['l', 'd', 'r', 's', 'h']

/-- The width of the register that a narrow load or store names. -/
def narrowWidth : Narrow → Width
  | .strb => .w
  | .ldrh => .w
  | .strh => .w
  | .ldrsb => .x
  | .ldrsh => .x

/-- The forms of the language: an instruction, its mnemonic and its operands.
A shift of `orr` and an offset of `ldr` and `str` may be left out when zero. -/
inductive Form : Instr → List Char → List Operand → Prop where
  | movImm {wd : Width} {d imm : ℕ} :
      Form (.movWide .movz wd d imm) ['m', 'o', 'v'] [.reg wd d, .num imm]
  | movn {wd : Width} {d imm : ℕ} :
      Form (.movWide .movn wd d imm) ['m', 'o', 'v', 'n'] [.reg wd d, .num imm]
  | movk {wd : Width} {d imm shift : ℕ} :
      Form (.movk wd d imm shift) ['m', 'o', 'v', 'k'] [.reg wd d, .num imm, .num shift]
  | movReg {wd : Width} {d m : ℕ} :
      Form (.movReg wd d m) ['m', 'o', 'v'] [.reg wd d, .reg wd m]
  | addSubImm {op : AddSub} {wd : Width} {d n imm : ℕ} :
      Form (.addSubImm op wd d n imm) (addSubName op) [.reg wd d, .reg wd n, .num imm]
  | addSubReg {op : AddSub} {wd : Width} {d n m : ℕ} :
      Form (.addSubReg op wd d n m) (addSubName op) [.reg wd d, .reg wd n, .reg wd m]
  | cmpImm {wd : Width} {n imm : ℕ} :
      Form (.cmpImm wd n imm) ['c', 'm', 'p'] [.reg wd n, .num imm]
  | cmpReg {wd : Width} {n m : ℕ} :
      Form (.cmpReg wd n m) ['c', 'm', 'p'] [.reg wd n, .reg wd m]
  | logical {op : Logical} {wd : Width} {d n m : ℕ} :
      Form (.logical op wd d n m 0) (logicalName op) [.reg wd d, .reg wd n, .reg wd m]
  | orrShift {wd : Width} {d n m amount : ℕ} :
      Form (.logical .orr wd d n m amount) ['o', 'r', 'r']
        [.reg wd d, .reg wd n, .reg wd m, .num amount]
  | mul {wd : Width} {d n m : ℕ} :
      Form (.mul wd d n m) ['m', 'u', 'l'] [.reg wd d, .reg wd n, .reg wd m]
  | twoSource {op : TwoSource} {wd : Width} {d n m : ℕ} :
      Form (.twoSource op wd d n m) (twoSourceName op) [.reg wd d, .reg wd n, .reg wd m]
  | shiftImm {op : Shift} {d n amount : ℕ} :
      Form (.shiftImm op d n amount) (shiftName op) [.reg .w d, .reg .w n, .num amount]
  | ldrb {t n m : ℕ} :
      Form (.byteReg .ldr t n m) ['l', 'd', 'r', 'b'] [.reg .w t, .reg .x n, .reg .x m]
  | strb {t n m : ℕ} :
      Form (.byteReg .str t n m) ['s', 't', 'r', 'b'] [.reg .w t, .reg .x n, .reg .x m]
  | loadStore {op : LoadStore} {wd : Width} {t n : ℕ} :
      Form (.loadStore op wd t n 0) (loadStoreName op) [.reg wd t, .reg .x n]
  | loadStoreOffset {op : LoadStore} {wd : Width} {t n offset : ℕ} :
      Form (.loadStore op wd t n offset) (loadStoreName op)
        [.reg wd t, .reg .x n, .num offset]
  | narrow {op : Narrow} {t n : ℕ} :
      Form (.narrow op t n) (narrowName op) [.reg (narrowWidth op) t, .reg .x n]
  | adr {d : ℕ} {p : ℤ} : Form (.refer (.adr d) p) ['a', 'd', 'r'] [.reg .x d, .target p]
  | b {p : ℤ} : Form (.refer (.b false) p) ['b'] [.target p]
  | bl {p : ℤ} : Form (.refer (.b true) p) ['b', 'l'] [.target p]
  | bcond {c : Cond} {p : ℤ} :
      Form (.refer (.bcond c) p) ['b', '.', (condChars c).1, (condChars c).2] [.target p]
  | br {n : ℕ} : Form (.branchReg false n) ['b', 'r'] [.reg .x n]
  | blr {n : ℕ} : Form (.branchReg true n) ['b', 'l', 'r'] [.reg .x n]
  | ret : Form .ret ['r', 'e', 't'] []
  | svc : Form .svc ['s', 'v', 'c'] []

section Handlers

variable {tab : Slot → Word} {t tail : List Byte} {wd : Width} {x y z u : Byte}
  {d n m v : ℕ}

theorem emitDp_run (w : Word) (wd : Width) (rest : List Byte) :
    (emitDp w).run ⟨rest, isNarrow wd⟩ = .ok (.word (sized wd w), ⟨rest, isNarrow wd⟩) := by
  cases wd <;> rfl

theorem emit_run (w : Word) (c : Cursor) : (emit w).run c = .ok (.word w, c) := rfl

theorem advance_two : (advance 2).run ⟨x :: y :: t, false⟩ = .ok ((), ⟨t, false⟩) := rfl

theorem advance_three : (advance 3).run ⟨x :: y :: z :: t, false⟩ = .ok ((), ⟨t, false⟩) := rfl

theorem advance_four : (advance 4).run ⟨x :: y :: z :: u :: t, false⟩ = .ok ((), ⟨t, false⟩) :=
  rfl

/-- Three registers of one width, and a handler that emits with them. -/
theorem threeRegs_run (h : Spells tab [.reg wd d, .reg wd n, .reg wd m] t tail)
    (f : Word → Word → Word → Line Code) :
    (do let d ← nextReg; let n ← nextReg; let m ← nextReg; f d n m : Line Code).run ⟨t, false⟩ =
      (f (BitVec.ofNat 32 d) (BitVec.ofNat 32 n) (BitVec.ofNat 32 m)).run
        ⟨tail, isNarrow wd⟩ := by
  obtain ⟨r₁, h₁, hd⟩ := h.nextReg_run
  obtain ⟨r₂, h₂, hn⟩ := h₁.nextReg_run
  obtain ⟨r₃, ⟨-⟩, hm⟩ := h₂.nextReg_run
  rw [run_bind_ok (hd _), run_bind_ok (hn _), run_bind_ok (hm _), Bool.false_or,
    Bool.or_self, Bool.or_self]

theorem addSub_run_reg (h : Spells tab [.reg wd d, .reg wd n, .reg wd m] t tail)
    (bi br : Word) :
    (addSub bi br).run ⟨x :: y :: z :: t, false⟩ =
      .ok (.word (sized wd (br ||| BitVec.ofNat 32 m <<< 16 ||| BitVec.ofNat 32 n <<< 5 |||
        BitVec.ofNat 32 d)), ⟨tail, isNarrow wd⟩) := by
  obtain ⟨r₁, h₁, hd⟩ := h.nextReg_run
  obtain ⟨r₂, h₂, hn⟩ := h₁.nextReg_run
  obtain ⟨t', r₃, ⟨-⟩, hskip, -, hm⟩ := h₂.skipWs_run_reg
  rw [addSub, run_bind_ok advance_three, run_bind_ok (hd _), run_bind_ok (hn _),
    run_bind_ok (hskip _), run_peek_bind, List.getD_cons_zero, isRegLetter_letter,
    if_pos rfl, run_bind_ok (hm _), Bool.false_or, Bool.or_self, Bool.or_self, emitDp_run]

theorem addSub_run_imm (h : Spells tab [.reg wd d, .reg wd n, .num v] t tail)
    (bi br : Word) :
    (addSub bi br).run ⟨x :: y :: z :: t, false⟩ =
      .ok (.word (sized wd (BitVec.ofNat 32 v <<< 10 ||| bi ||| BitVec.ofNat 32 n <<< 5 |||
        BitVec.ofNat 32 d)), ⟨tail, isNarrow wd⟩) := by
  obtain ⟨r₁, h₁, hd⟩ := h.nextReg_run
  obtain ⟨r₂, h₂, hn⟩ := h₁.nextReg_run
  obtain ⟨b, t', r₃, ⟨-⟩, hb, hskip, hv⟩ := h₂.skipWs_run_num
  rw [addSub, run_bind_ok advance_three, run_bind_ok (hd _), run_bind_ok (hn _),
    run_bind_ok (hskip _), run_peek_bind, List.getD_cons_zero, digit_not_isRegLetter hb,
    if_neg Bool.false_ne_true, run_bind_ok (hv _), Bool.false_or, Bool.or_self, emitDp_run]

theorem hCmp_run_reg (h : Spells tab [.reg wd n, .reg wd m] t tail) :
    hCmp.run ⟨x :: y :: z :: t, false⟩ =
      .ok (.word (sized wd (0xeb000000#32 ||| BitVec.ofNat 32 m <<< 16 |||
        BitVec.ofNat 32 n <<< 5 ||| 0x1f#32)), ⟨tail, isNarrow wd⟩) := by
  obtain ⟨r₁, h₁, hn⟩ := h.nextReg_run
  obtain ⟨t', r₂, ⟨-⟩, hskip, hm, -⟩ := h₁.skipWs_run_reg
  rw [hCmp, run_bind_ok advance_three, run_bind_ok (hn _), run_bind_ok (hskip _),
    run_peek_bind, List.getD_cons_zero, isRegLetter_letter, if_pos rfl,
    run_bind_ok (run_advance 1 _), List.drop_succ_cons, List.drop_zero, run_bind_ok (hm _),
    Bool.false_or, emitDp_run]

theorem hCmp_run_imm (h : Spells tab [.reg wd n, .num v] t tail) :
    hCmp.run ⟨x :: y :: z :: t, false⟩ =
      .ok (.word (sized wd (BitVec.ofNat 32 v <<< 10 ||| 0xf1000000#32 |||
        BitVec.ofNat 32 n <<< 5 ||| 0x1f#32)), ⟨tail, isNarrow wd⟩) := by
  obtain ⟨r₁, h₁, hn⟩ := h.nextReg_run
  obtain ⟨b, t', r₂, ⟨-⟩, hb, hskip, hv⟩ := h₁.skipWs_run_num
  rw [hCmp, run_bind_ok advance_three, run_bind_ok (hn _), run_bind_ok (hskip _),
    run_peek_bind, List.getD_cons_zero, digit_not_isRegLetter hb, if_neg Bool.false_ne_true,
    run_bind_ok (hv _), Bool.false_or, emitDp_run]

theorem hmFold_run (b d v : Word) (wd : Width) (rest : List Byte) :
    (hmFold b d v).run ⟨rest, isNarrow wd⟩ =
      .ok (.word (sized wd
        ((if v &&& 0xffff = 0 && v ≠ 0 then v >>> 16 else v) <<< 5 |||
          (if v &&& 0xffff = 0 && v ≠ 0 then 1 else 0 : Word) <<< 21 ||| b ||| d)),
        ⟨rest, isNarrow wd⟩) := by
  rw [hmFold, emitDp_run]
  by_cases h : (v &&& 0xffff = 0 && v ≠ 0) = true
  · simp only [if_pos h, if_true]
  · simp only [if_neg h]
    rfl

theorem hMovPlain_run_imm (h : Spells tab [.reg wd d, .num v] t tail) :
    hMovPlain.run ⟨x :: y :: z :: t, false⟩ =
      (hmFold 0xd2800000 (BitVec.ofNat 32 d) (BitVec.ofNat 32 v)).run
        ⟨tail, isNarrow wd⟩ := by
  obtain ⟨r₁, h₁, hd⟩ := h.nextReg_run
  obtain ⟨b, t', r₂, ⟨-⟩, hb, hskip, hv⟩ := h₁.skipWs_run_num
  rw [hMovPlain, run_bind_ok advance_three, run_bind_ok (hd _), run_bind_ok (hskip _),
    run_peek_bind, List.getD_cons_zero, digit_not_isRegLetter hb, if_neg Bool.false_ne_true,
    run_bind_ok (hv _), Bool.false_or]

theorem hMovPlain_run_reg (h : Spells tab [.reg wd d, .reg wd m] t tail) :
    hMovPlain.run ⟨x :: y :: z :: t, false⟩ =
      .ok (.word (sized wd (0xaa0003e0#32 ||| BitVec.ofNat 32 m <<< 16 ||| BitVec.ofNat 32 d)),
        ⟨tail, isNarrow wd⟩) := by
  obtain ⟨r₁, h₁, hd⟩ := h.nextReg_run
  obtain ⟨t', r₂, ⟨-⟩, hskip, hm, -⟩ := h₁.skipWs_run_reg
  rw [hMovPlain, run_bind_ok advance_three, run_bind_ok (hd _), run_bind_ok (hskip _),
    run_peek_bind, List.getD_cons_zero, isRegLetter_letter, if_pos rfl,
    run_bind_ok (run_advance 1 _), List.drop_succ_cons, List.drop_zero, run_bind_ok (hm _),
    Bool.false_or, emitDp_run]

theorem hMovn_run (h : Spells tab [.reg wd d, .num v] t tail) :
    hMovn.run ⟨x :: y :: z :: u :: t, false⟩ =
      (hmFold 0x92800000 (BitVec.ofNat 32 d) (BitVec.ofNat 32 v)).run
        ⟨tail, isNarrow wd⟩ := by
  obtain ⟨r₁, h₁, hd⟩ := h.nextReg_run
  obtain ⟨b, t', r₂, ⟨-⟩, hb, hskip, hv⟩ := h₁.skipWs_run_num
  rw [hMovn, run_bind_ok advance_four, run_bind_ok (hd _), run_bind_ok (hskip _),
    run_bind_ok (hv _), Bool.false_or]

theorem hMovk_run {shift : ℕ} (h : Spells tab [.reg wd d, .num v, .num shift] t tail) :
    hMovk.run ⟨x :: y :: z :: u :: t, false⟩ =
      .ok (.word (sized wd (0xf2800000#32 ||| (BitVec.ofNat 32 shift >>> 4) <<< 21 |||
        BitVec.ofNat 32 v <<< 5 ||| BitVec.ofNat 32 d)), ⟨tail, isNarrow wd⟩) := by
  obtain ⟨r₁, h₁, hd⟩ := h.nextReg_run
  obtain ⟨b₁, t₁, r₂, h₂, -, hskip₁, hv⟩ := h₁.skipWs_run_num
  obtain ⟨b₂, t₂, r₃, ⟨-⟩, -, hskip₂, hs⟩ := h₂.skipWs_run_num
  rw [hMovk, run_bind_ok advance_four, run_bind_ok (hd _), run_bind_ok (hskip₁ _),
    run_bind_ok (hv _), run_bind_ok (hskip₂ _), run_bind_ok (hs _), Bool.false_or, emitDp_run]

theorem hMul_run (h : Spells tab [.reg wd d, .reg wd n, .reg wd m] t tail) :
    hMul.run ⟨x :: y :: z :: t, false⟩ =
      .ok (.word (sized wd (0x9b007c00#32 ||| BitVec.ofNat 32 m <<< 16 |||
        BitVec.ofNat 32 n <<< 5 ||| BitVec.ofNat 32 d)), ⟨tail, isNarrow wd⟩) := by
  rw [hMul, run_bind_ok advance_three, threeRegs_run h, emitDp_run]

theorem andEor_run (h : Spells tab [.reg wd d, .reg wd n, .reg wd m] t tail) (b : Word) :
    (andEor b).run ⟨x :: y :: z :: t, false⟩ =
      .ok (.word (sized wd (b ||| BitVec.ofNat 32 m <<< 16 ||| BitVec.ofNat 32 n <<< 5 |||
        BitVec.ofNat 32 d)), ⟨tail, isNarrow wd⟩) := by
  rw [andEor, run_bind_ok advance_three, threeRegs_run h, emitDp_run]

theorem hOrr_run_none (h : Spells tab [.reg wd d, .reg wd n, .reg wd m] t tail) :
    hOrr.run ⟨x :: y :: z :: t, false⟩ =
      .ok (.word (sized wd (0xaa000000#32 ||| BitVec.ofNat 32 m <<< 16 |||
        BitVec.ofNat 32 n <<< 5 ||| BitVec.ofNat 32 d ||| (0 : Word) <<< 10)),
        ⟨tail, isNarrow wd⟩) := by
  obtain ⟨r₁, h₁, hd⟩ := h.nextReg_run
  obtain ⟨r₂, h₂, hn⟩ := h₁.nextReg_run
  obtain ⟨r₃, ⟨hend⟩, hm⟩ := h₂.nextReg_run
  rw [hOrr, run_bind_ok advance_three, run_bind_ok (hd _), run_bind_ok (hn _),
    run_bind_ok (hm _), run_bind_ok (hend.optDec_run _), Bool.false_or, Bool.or_self,
    Bool.or_self, emitDp_run]

theorem hOrr_run_shift (h : Spells tab [.reg wd d, .reg wd n, .reg wd m, .num v] t tail) :
    hOrr.run ⟨x :: y :: z :: t, false⟩ =
      .ok (.word (sized wd (0xaa000000#32 ||| BitVec.ofNat 32 m <<< 16 |||
        BitVec.ofNat 32 n <<< 5 ||| BitVec.ofNat 32 d ||| BitVec.ofNat 32 v <<< 10)),
        ⟨tail, isNarrow wd⟩) := by
  obtain ⟨r₁, h₁, hd⟩ := h.nextReg_run
  obtain ⟨r₂, h₂, hn⟩ := h₁.nextReg_run
  obtain ⟨r₃, h₃, hm⟩ := h₂.nextReg_run
  obtain ⟨r₄, ⟨-⟩, hv⟩ := h₃.optDec_run
  rw [hOrr, run_bind_ok advance_three, run_bind_ok (hd _), run_bind_ok (hn _),
    run_bind_ok (hm _), run_bind_ok (hv _), Bool.false_or, Bool.or_self, Bool.or_self,
    emitDp_run]

theorem shiftCommon_run_reg (h : Spells tab [.reg wd d, .reg wd n, .reg wd m] t tail)
    (kind : Kind) (select : Word) :
    (shiftCommon kind select).run ⟨t, false⟩ =
      .ok (.word (sized wd (0x9ac00000#32 ||| select ||| BitVec.ofNat 32 m <<< 16 |||
        BitVec.ofNat 32 n <<< 5 ||| BitVec.ofNat 32 d)), ⟨tail, isNarrow wd⟩) := by
  obtain ⟨r₁, h₁, hd⟩ := h.nextReg_run
  obtain ⟨r₂, h₂, hn⟩ := h₁.nextReg_run
  obtain ⟨r₃, ⟨-⟩, hm⟩ := h₂.optReg_run
  rw [shiftCommon, run_bind_ok (hd _), run_bind_ok (hn _), run_bind_ok (hm _), Bool.false_or,
    Bool.or_self, Bool.or_self, emitDp_run]

/-- The word of a shift by an immediate. -/
def shiftWord (s d n : Word) : Shift → Word
  | .lsl => 0x53000000#32 ||| ((0x20 - s) &&& 0x1f) <<< 16 ||| (0x1f - s) <<< 10 |||
      n <<< 5 ||| d
  | .lsr => 0x53000000#32 ||| s <<< 16 ||| 0x1f#32 <<< 10 ||| n <<< 5 ||| d
  | .asr => 0x13000000#32 ||| s <<< 16 ||| 0x1f#32 <<< 10 ||| n <<< 5 ||| d

def shiftKind : Shift → Kind
  | .lsl => .lsl
  | .lsr => .lsr
  | .asr => .asr

theorem shiftCommon_run_imm (h : Spells tab [.reg .w d, .reg .w n, .num v] t tail)
    (op : Shift) (select : Word) :
    (shiftCommon (shiftKind op) select).run ⟨t, false⟩ =
      .ok (.word (sized .w (shiftWord (BitVec.ofNat 32 v) (BitVec.ofNat 32 d)
        (BitVec.ofNat 32 n) op)), ⟨tail, true⟩) := by
  obtain ⟨r₁, h₁, hd⟩ := h.nextReg_run
  obtain ⟨r₂, h₂, hn⟩ := h₁.nextReg_run
  obtain ⟨r₃, ⟨-⟩, hv⟩ := h₂.optDec_run
  rw [shiftCommon, run_bind_ok (hd _), run_bind_ok (hn _), run_bind_ok (h₂.optReg_run_num _)]
  dsimp only
  rw [shiftImm, run_bind_ok (run_getCursor _), Bool.false_or, Bool.or_self,
    if_pos (show isNarrow .w = true from rfl), run_bind_ok (hv _)]
  cases op <;> exact emitDp_run _ .w _

theorem hLdrb_run (h : Spells tab [.reg .w d, .reg .x n, .reg .x m] t tail) :
    hLdrb.run ⟨x :: y :: z :: u :: t, false⟩ =
      .ok (.word (0x38606800#32 ||| BitVec.ofNat 32 m <<< 16 ||| BitVec.ofNat 32 n <<< 5 |||
        BitVec.ofNat 32 d), ⟨tail, true⟩) := by
  obtain ⟨r₁, h₁, hd⟩ := h.nextReg_run
  obtain ⟨r₂, h₂, hn⟩ := h₁.nextReg_run
  obtain ⟨r₃, ⟨-⟩, hm⟩ := h₂.nextReg_run
  rw [hLdrb, run_bind_ok advance_four, run_bind_ok (hd _), run_bind_ok (hn _),
    run_bind_ok (hm _), emit_run]
  rfl

theorem hStrb_run_reg (h : Spells tab [.reg .w d, .reg .x n, .reg .x m] t tail) :
    hStrb.run ⟨x :: y :: z :: u :: t, false⟩ =
      .ok (.word (0x38206800#32 ||| BitVec.ofNat 32 m <<< 16 ||| BitVec.ofNat 32 n <<< 5 |||
        BitVec.ofNat 32 d), ⟨tail, true⟩) := by
  obtain ⟨r₁, h₁, hd⟩ := h.nextReg_run
  obtain ⟨r₂, h₂, hn⟩ := h₁.nextReg_run
  obtain ⟨r₃, ⟨-⟩, hm⟩ := h₂.optReg_run
  rw [hStrb, run_bind_ok advance_four, run_bind_ok (hd _), run_bind_ok (hn _),
    run_bind_ok (hm _)]
  rfl

theorem hStrb_run_none (h : Spells tab [.reg .w d, .reg .x n] t tail) :
    hStrb.run ⟨x :: y :: z :: u :: t, false⟩ =
      .ok (.word (0x39000000#32 ||| BitVec.ofNat 32 n <<< 5 ||| BitVec.ofNat 32 d),
        ⟨tail, true⟩) := by
  obtain ⟨r₁, h₁, hd⟩ := h.nextReg_run
  obtain ⟨r₂, ⟨hend⟩, hn⟩ := h₁.nextReg_run
  rw [hStrb, run_bind_ok advance_four, run_bind_ok (hd _), run_bind_ok (hn _),
    run_bind_ok (hend.optReg_run _)]
  rfl

theorem hLsPlain_run {w₁ w₂ : Width} (h : Spells tab [.reg w₁ d, .reg w₂ n] t tail)
    (b : Word) :
    (hLsPlain b).run ⟨t, false⟩ =
      .ok (.word (b ||| BitVec.ofNat 32 n <<< 5 ||| BitVec.ofNat 32 d),
        ⟨tail, isNarrow w₁ || isNarrow w₂⟩) := by
  obtain ⟨r₁, h₁, hd⟩ := h.nextReg_run
  obtain ⟨r₂, ⟨-⟩, hn⟩ := h₁.nextReg_run
  rw [hLsPlain, run_bind_ok (hd _), run_bind_ok (hn _), emit_run, Bool.false_or]

/-- What `h_ls_off` puts in the offset field. -/
def scaledOffset (offset : Word) : Width → Word
  | .w => offset >>> 2
  | .x => offset >>> 3

/-- The base word that `h_ldr` and `h_str` choose. -/
def sizeBase (bw bx : Word) : Width → Word
  | .w => bw
  | .x => bx

theorem ldrStr_run {offset : Word} {ops : List Operand} (bw bx : Word)
    (h : Spells tab (.reg wd d :: .reg .x n :: ops) t tail)
    (hoffset : ∀ rest, Spells tab ops rest tail → ∀ nw,
      optDec.run ⟨rest, nw⟩ = .ok (offset, ⟨tail, nw⟩)) :
    (ldrStr bw bx).run ⟨x :: y :: z :: t, false⟩ =
      .ok (.word (sizeBase bw bx wd ||| BitVec.ofNat 32 n <<< 5 ||| BitVec.ofNat 32 d |||
        scaledOffset offset wd <<< 10), ⟨tail, isNarrow wd⟩) := by
  obtain ⟨t', r₁, h₁, hskip, -, hd⟩ := h.skipWs_run_reg
  obtain ⟨r₂, h₂, hn⟩ := h₁.nextReg_run
  rw [ldrStr, run_bind_ok advance_three, run_bind_ok (hskip _), run_peek_bind,
    List.getD_cons_zero, run_bind_ok (hd _), run_bind_ok (hn _), run_bind_ok (hoffset r₂ h₂ _),
    run_bind_ok (run_getCursor _), emit_run]
  cases wd <;> rfl

end Handlers

end Veron.SelfAssembler
