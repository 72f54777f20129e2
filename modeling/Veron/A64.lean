/-
The A64 instructions that the self-assembler's language has, and how each class
of them is decoded from a 32-bit word.
-/
import Veron.Fields

namespace Veron.A64

inductive Width where
  | w
  | x
  deriving DecidableEq

/-- The `sf` bit. -/
def Width.sf : Width → ℕ
  | .w => 0
  | .x => 1

def Width.bits : Width → ℕ
  | .w => 32
  | .x => 64

def Width.ofSf (sf : ℕ) : Width := if sf = 0 then .w else .x

inductive Cond where
  | eq | ne | hs | lo | hi | ls | ge | lt | gt | le
  deriving DecidableEq

def Cond.code : Cond → ℕ
  | .eq => 0
  | .ne => 1
  | .hs => 2
  | .lo => 3
  | .hi => 8
  | .ls => 9
  | .ge => 10
  | .lt => 11
  | .gt => 12
  | .le => 13

def Cond.ofCode : ℕ → Option Cond
  | 0 => some .eq
  | 1 => some .ne
  | 2 => some .hs
  | 3 => some .lo
  | 8 => some .hi
  | 9 => some .ls
  | 10 => some .ge
  | 11 => some .lt
  | 12 => some .gt
  | 13 => some .le
  | _ => none

@[simp] theorem Cond.ofCode_code (c : Cond) : ofCode c.code = some c := by
  cases c <;> rfl

/-- MOVZ and MOVN. -/
inductive MovWide where
  | movz
  | movn
  deriving DecidableEq

inductive AddSub where
  | add
  | sub
  deriving DecidableEq

inductive Logical where
  | and
  | orr
  | eor
  deriving DecidableEq

/-- The data-processing instructions with two source registers. -/
inductive TwoSource where
  | udiv
  | sdiv
  | lslv
  | lsrv
  | asrv
  deriving DecidableEq

/-- Shifts by an immediate. -/
inductive Shift where
  | lsl
  | lsr
  | asr
  deriving DecidableEq

inductive LoadStore where
  | ldr
  | str
  deriving DecidableEq

/-- Loads and stores of part of a register, at offset 0. -/
inductive Narrow where
  | strb
  | ldrh
  | strh
  | ldrsb
  | ldrsh
  deriving DecidableEq

/-- The instructions that name a position of the output. -/
inductive Ref where
  | adr (d : ℕ)
  | b (link : Bool)
  | bcond (c : Cond)
  deriving DecidableEq

/-- Instructions.  A shift, offset or target is a number of bits or bytes, and
the immediate of a wide move is the number its halfword stands for. -/
inductive Instr where
  | movWide (op : MovWide) (wd : Width) (d imm : ℕ)
  | movk (wd : Width) (d imm shift : ℕ)
  | movReg (wd : Width) (d m : ℕ)
  | addSubImm (op : AddSub) (wd : Width) (d n imm : ℕ)
  | addSubReg (op : AddSub) (wd : Width) (d n m : ℕ)
  | cmpImm (wd : Width) (n imm : ℕ)
  | cmpReg (wd : Width) (n m : ℕ)
  | logical (op : Logical) (wd : Width) (d n m amount : ℕ)
  | mul (wd : Width) (d n m : ℕ)
  | twoSource (op : TwoSource) (wd : Width) (d n m : ℕ)
  | shiftImm (op : Shift) (d n amount : ℕ)
  | byteReg (op : LoadStore) (t n m : ℕ)
  | loadStore (op : LoadStore) (wd : Width) (t n offset : ℕ)
  | narrow (op : Narrow) (t n : ℕ)
  | refer (form : Ref) (target : ℤ)
  | branchReg (link : Bool) (n : ℕ)
  | ret
  | svc
  deriving DecidableEq

/-- Instruction classes: an instruction without its operands. -/
inductive Class where
  | movWide (op : MovWide)
  | movk
  | movReg
  | addSubImm (op : AddSub)
  | addSubReg (op : AddSub)
  | cmpImm
  | cmpReg
  | logical (op : Logical)
  | mul
  | twoSource (op : TwoSource)
  | shiftImm (op : Shift)
  | byteReg (op : LoadStore)
  | loadStore (op : LoadStore)
  | narrow (op : Narrow)
  | adr
  | b (link : Bool)
  | bcond
  | branchReg (link : Bool)
  | ret
  | svc

def Ref.cls : Ref → Class
  | .adr _ => .adr
  | .b link => .b link
  | .bcond _ => .bcond

def Instr.cls : Instr → Class
  | .movWide op .. => .movWide op
  | .movk .. => .movk
  | .movReg .. => .movReg
  | .addSubImm op .. => .addSubImm op
  | .addSubReg op .. => .addSubReg op
  | .cmpImm .. => .cmpImm
  | .cmpReg .. => .cmpReg
  | .logical op .. => .logical op
  | .mul .. => .mul
  | .twoSource op .. => .twoSource op
  | .shiftImm op .. => .shiftImm op
  | .byteReg op .. => .byteReg op
  | .loadStore op .. => .loadStore op
  | .narrow op .. => .narrow op
  | .refer form _ => form.cls
  | .branchReg link _ => .branchReg link
  | .ret => .ret
  | .svc => .svc

def MovWide.opc : MovWide → ℕ
  | .movn => 0
  | .movz => 2

def AddSub.op : AddSub → ℕ
  | .add => 0
  | .sub => 1

def Logical.opc : Logical → ℕ
  | .and => 0
  | .orr => 1
  | .eor => 2

def TwoSource.opcode : TwoSource → ℕ
  | .udiv => 2
  | .sdiv => 3
  | .lslv => 8
  | .lsrv => 9
  | .asrv => 10

/-- UBFM or SBFM. -/
def Shift.opc : Shift → ℕ
  | .asr => 0
  | .lsl => 2
  | .lsr => 2

def LoadStore.opc : LoadStore → ℕ
  | .str => 0
  | .ldr => 1

def Narrow.size : Narrow → ℕ
  | .strb => 0
  | .ldrsb => 0
  | .ldrh => 1
  | .strh => 1
  | .ldrsh => 1

def Narrow.opc : Narrow → ℕ
  | .strb => 0
  | .strh => 0
  | .ldrh => 1
  | .ldrsb => 2
  | .ldrsh => 2

/-- The bytes that `ldr` and `str` move. -/
def Width.bytes : Width → ℕ
  | .w => 4
  | .x => 8

/-- The shift that UBFM or SBFM fields stand for, when they stand for one. -/
def Shift.ofFields (immr imms : ℕ) : Shift → Option ℕ
  | .lsl => if immr = (32 - (31 - imms)) % 32 then some (31 - imms) else none
  | .lsr => if imms = 31 then some immr else none
  | .asr => if imms = 31 then some immr else none

variable (pos : ℤ) (w : BitVec 32)

def width : Width := .ofSf (field w 31 1)

/-- A word read as an instruction of a class, at a position of the output. -/
def decode : Class → Option Instr
  | .movWide op =>
      if field w 29 2 = op.opc ∧ field w 23 6 = 0x25 ∧ 16 * field w 21 2 < (width w).bits then
        some (.movWide op (width w) (field w 0 5) (field w 5 16 * 2 ^ (16 * field w 21 2)))
      else none
  | .movk =>
      if field w 29 2 = 3 ∧ field w 23 6 = 0x25 ∧ 16 * field w 21 2 < (width w).bits then
        some (.movk (width w) (field w 0 5) (field w 5 16) (16 * field w 21 2))
      else none
  | .movReg =>
      if field w 21 10 = 0x150 ∧ field w 10 6 = 0 ∧ field w 5 5 = 31 then
        some (.movReg (width w) (field w 0 5) (field w 16 5))
      else none
  | .addSubImm op =>
      if field w 30 1 = op.op ∧ field w 29 1 = 0 ∧ field w 22 7 = 0x44 then
        some (.addSubImm op (width w) (field w 0 5) (field w 5 5) (field w 10 12))
      else none
  | .addSubReg op =>
      if field w 30 1 = op.op ∧ field w 21 9 = 0x58 ∧ field w 10 6 = 0 then
        some (.addSubReg op (width w) (field w 0 5) (field w 5 5) (field w 16 5))
      else none
  | .cmpImm =>
      if field w 22 9 = 0x1c4 ∧ field w 0 5 = 31 then
        some (.cmpImm (width w) (field w 5 5) (field w 10 12))
      else none
  | .cmpReg =>
      if field w 21 10 = 0x358 ∧ field w 10 6 = 0 ∧ field w 0 5 = 31 then
        some (.cmpReg (width w) (field w 5 5) (field w 16 5))
      else none
  | .logical op =>
      if field w 29 2 = op.opc ∧ field w 21 8 = 0x50 ∧ field w 10 6 < (width w).bits then
        some (.logical op (width w) (field w 0 5) (field w 5 5) (field w 16 5) (field w 10 6))
      else none
  | .mul =>
      if field w 21 10 = 0xd8 ∧ field w 10 6 = 0x1f then
        some (.mul (width w) (field w 0 5) (field w 5 5) (field w 16 5))
      else none
  | .twoSource op =>
      if field w 21 10 = 0xd6 ∧ field w 10 6 = op.opcode then
        some (.twoSource op (width w) (field w 0 5) (field w 5 5) (field w 16 5))
      else none
  | .shiftImm op =>
      if field w 31 1 = 0 ∧ field w 29 2 = op.opc ∧ field w 22 7 = 0x4c ∧
          field w 16 6 < 32 ∧ field w 10 6 < 32 then
        (op.ofFields (field w 16 6) (field w 10 6)).map
          (.shiftImm op (field w 0 5) (field w 5 5))
      else none
  | .byteReg op =>
      if field w 24 8 = 0x38 ∧ field w 22 2 = op.opc ∧ field w 21 1 = 1 ∧
          field w 10 6 = 0x1a then
        some (.byteReg op (field w 0 5) (field w 5 5) (field w 16 5))
      else none
  | .loadStore op =>
      if field w 31 1 = 1 ∧ field w 24 6 = 0x39 ∧ field w 22 2 = op.opc then
        let wd := Width.ofSf (field w 30 1)
        some (.loadStore op wd (field w 0 5) (field w 5 5) (field w 10 12 * wd.bytes))
      else none
  | .narrow op =>
      if field w 30 2 = op.size ∧ field w 24 6 = 0x39 ∧ field w 22 2 = op.opc ∧
          field w 10 12 = 0 then
        some (.narrow op (field w 0 5) (field w 5 5))
      else none
  | .adr =>
      if field w 31 1 = 0 ∧ field w 24 5 = 0x10 then
        some (.refer (.adr (field w 0 5))
          (pos + Int.bmod (4 * field w 5 19 + field w 29 2) (2 ^ 21)))
      else none
  | .b link =>
      if field w 31 1 = link.toNat ∧ field w 26 5 = 5 then
        some (.refer (.b link) (pos + 4 * signedField w 0 26))
      else none
  | .bcond =>
      if field w 24 8 = 0x54 ∧ field w 4 1 = 0 then
        (Cond.ofCode (field w 0 4)).map fun c =>
          .refer (.bcond c) (pos + 4 * signedField w 5 19)
      else none
  | .branchReg link =>
      if field w 23 9 = 0x1ac ∧ field w 21 2 = link.toNat ∧ field w 10 11 = 0x7c0 ∧
          field w 0 5 = 0 then
        some (.branchReg link (field w 5 5))
      else none
  | .ret =>
      if field w 10 22 = 0x3597c0 ∧ field w 5 5 = 30 ∧ field w 0 5 = 0 then some .ret else none
  | .svc =>
      if field w 21 11 = 0x6a0 ∧ field w 5 16 = 0 ∧ field w 0 5 = 1 then some .svc else none

/-- How far a reference reaches when it is given a distance: a branch counts in
words, and each field wraps. -/
def Ref.reach (distance : ℤ) : Ref → ℤ
  | .adr _ => Int.bmod distance (2 ^ 21)
  | .b _ => 4 * Int.bmod (distance / 4) (2 ^ 26)
  | .bcond _ => 4 * Int.bmod (distance / 4) (2 ^ 19)

/-- The distances that a reference has room for. -/
def Ref.InReach (distance : ℤ) : Ref → Prop
  | .adr _ => -2 ^ 20 ≤ distance ∧ distance < 2 ^ 20
  | .b _ => 4 ∣ distance ∧ -2 ^ 27 ≤ distance ∧ distance < 2 ^ 27
  | .bcond _ => 4 ∣ distance ∧ -2 ^ 20 ≤ distance ∧ distance < 2 ^ 20

theorem Ref.reach_of_inReach {form : Ref} {distance : ℤ} (h : form.InReach distance) :
    form.reach distance = distance := by
  cases form with
  | adr d =>
      obtain ⟨hlo, hhi⟩ := h
      exact Int.bmod_eq_of_le (by omega) (by omega)
  | b link =>
      obtain ⟨hdvd, hlo, hhi⟩ := h
      rw [reach, Int.bmod_eq_of_le (by omega) (by omega), Int.mul_ediv_cancel' hdvd]
  | bcond c =>
      obtain ⟨hdvd, hlo, hhi⟩ := h
      rw [reach, Int.bmod_eq_of_le (by omega) (by omega), Int.mul_ediv_cancel' hdvd]

/-- The operands an instruction has room for, at a position of the output. -/
def Instr.Fits : Instr → Prop
  | .movWide _ _ d imm => d < 32 ∧ (imm < 2 ^ 16 ∨ ∃ v < 2 ^ 16, imm = v * 2 ^ 16)
  | .movk wd d imm shift => d < 32 ∧ imm < 2 ^ 16 ∧ 16 ∣ shift ∧ shift < wd.bits
  | .movReg _ d m => d < 32 ∧ m < 32
  | .addSubImm _ _ d n imm => d < 32 ∧ n < 32 ∧ imm < 2 ^ 12
  | .addSubReg _ _ d n m => d < 32 ∧ n < 32 ∧ m < 32
  | .cmpImm _ n imm => n < 32 ∧ imm < 2 ^ 12
  | .cmpReg _ n m => n < 32 ∧ m < 32
  | .logical _ wd d n m amount => d < 32 ∧ n < 32 ∧ m < 32 ∧ amount < wd.bits
  | .mul _ d n m => d < 32 ∧ n < 32 ∧ m < 32
  | .twoSource _ _ d n m => d < 32 ∧ n < 32 ∧ m < 32
  | .shiftImm _ d n amount => d < 32 ∧ n < 32 ∧ amount < 32
  | .byteReg _ t n m => t < 32 ∧ n < 32 ∧ m < 32
  | .loadStore _ wd t n offset =>
      t < 32 ∧ n < 32 ∧ wd.bytes ∣ offset ∧ offset < 2 ^ 12 * wd.bytes
  | .narrow _ t n => t < 32 ∧ n < 32
  | .refer form target =>
      (∀ d, form = .adr d → d < 32) ∧ form.InReach (target - pos)
  | .branchReg _ n => n < 32
  | .ret => True
  | .svc => True

end Veron.A64
