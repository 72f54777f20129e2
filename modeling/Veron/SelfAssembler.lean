/-
The stage 1 self-assembler, `self-assembler-arm64.s`: assembly text in, code
bytes out, in two passes.  Definitions carry the labels of that source.

A handler of the source reads operands and ends in one `emit` or `emit_dp`;
here it returns the item to emit, and the loop emits it.  The input lies in
zeroed memory that nothing follows, so what is read past its end is zero.
-/
import Mathlib.Data.List.DropRight
import Mathlib.Tactic.Common
import Veron.Loop

namespace Veron.SelfAssembler

abbrev Byte := BitVec 8

/-- A `w` register of the assembler. -/
abbrev Word := BitVec 32

def ch (c : Char) : Byte := BitVec.ofNat 8 c.toNat

/-- The entries of `symtab`, one for each pair of printable characters. -/
abbrev Slot := Fin 8836

/-- Where a line is being read: the input from x20 on, and the width flag x17. -/
structure Cursor where
  rest : List Byte
  narrow : Bool

/-- Why reading a line stops: a jump to `die`, or a table access out of bounds. -/
inductive Fault where
  | die
  | wild
  deriving DecidableEq, Repr

/-- A routine that reads from the cursor, which it only ever moves forward. -/
def Line (α : Type) : Type :=
  (c : Cursor) → Except Fault { p : α × Cursor // p.2.rest <:+ c.rest }

namespace Line

variable {α β : Type}

def run (m : Line α) (c : Cursor) : Except Fault (α × Cursor) :=
  (m c).map Subtype.val

instance : Monad Line where
  pure a := fun c => .ok ⟨(a, c), List.suffix_rfl⟩
  bind m f := fun c =>
    match m c with
    | .error e => .error e
    | .ok ⟨(a, c'), h⟩ =>
        match f a c' with
        | .error e => .error e
        | .ok ⟨p, h'⟩ => .ok ⟨p, h'.trans h⟩

def fail (e : Fault) : Line α := fun _ => .error e

end Line

def getCursor : Line Cursor := fun c => .ok ⟨(c, c), List.suffix_rfl⟩

/-- `ldrb w, [x19, x20 + n]`. -/
def peek (n : ℕ) : Line Byte := fun c => .ok ⟨(c.rest.getD n 0, c), List.suffix_rfl⟩

/-- `add x20, x20, n`. -/
def advance (n : ℕ) : Line Unit := fun c =>
  .ok ⟨((), { c with rest := c.rest.drop n }), List.drop_suffix n c.rest⟩

def skipWhile (p : Byte → Bool) : Line Unit := fun c =>
  .ok ⟨((), { c with rest := c.rest.dropWhile p }), List.dropWhile_suffix p⟩

/-- A `w` register letter sets the width flag. -/
def noteWidth (b : Byte) : Line Unit := fun c =>
  .ok ⟨((), { c with narrow := c.narrow || b = ch 'w' }), List.suffix_rfl⟩

def die {α : Type} : Line α := .fail .die

/-- Run a routine and put the cursor back when it finds nothing. -/
def restoring {α : Type} (m : Line (Option α)) : Line (Option α) := fun c =>
  match m c with
  | .ok ⟨(none, _), _⟩ => .ok ⟨(none, c), List.suffix_rfl⟩
  | r => r

def isWs (b : Byte) : Bool := b = 0x20 || b = 0x09 || b = 0x0a || b = 0x0d

/-- Space and tab, which do not leave the line. -/
def isBlank (b : Byte) : Bool := b = 0x20 || b = 0x09

def isDigit (b : Byte) : Bool := 0x30 ≤ b && b ≤ 0x39

def skipWs : Line Unit := skipWhile isWs

/-- The digit loop `pd_l`, `nr_dl`; the accumulator wraps at 32 bits. -/
def digits : Word → List Byte → Word
  | w, [] => w
  | w, b :: bs =>
      if isDigit b then digits (w * 10 + (b - 0x30).setWidth 32) bs else w

def parseDec : Line Word := do
  let c ← getCursor
  skipWhile isDigit
  return digits 0 c.rest

def nextReg : Line Word := do
  skipWs
  noteWidth (← peek 0)
  advance 1
  parseDec

/-- A number on this line, after blanks. -/
def decAhead : Line (Option Word) := do
  skipWhile isBlank
  if isDigit (← peek 0) then return some (← parseDec) else return none

def optDec : Line Word := do
  return (← restoring decAhead).getD 0

/-- A register on this line, after blanks. -/
def regAhead : Line (Option Word) := do
  skipWhile isBlank
  let b ← peek 0
  if b = ch 'w' || b = ch 'x' then return some (← nextReg) else return none

def optReg : Line (Option Word) := restoring regAhead

/-- The byte offset of a label in `symtab`, in 32 bits. -/
def symOffset (c₁ c₂ : Byte) : Word :=
  (((c₁.setWidth 32 - 0x21) * 0x5e) + (c₂.setWidth 32 - 0x21)) <<< 2

def slotOf (offset : Word) : Option Slot :=
  if h : offset.toNat < 35344 then some ⟨offset.toNat / 4, by omega⟩ else none

/-- The symbol table entry of the two characters at the cursor. -/
def symIdx : Line Slot := do
  let c₁ ← peek 0
  let c₂ ← peek 1
  advance 2
  match slotOf (symOffset c₁ c₂) with
  | some k => return k
  | none => .fail .wild

/-- What a branch or an `adr` names: `@` and digits for a position, else a label. -/
inductive Target where
  | pos (p : Word)
  | label (k : Slot)

def target : Line Target := do
  skipWs
  if (← peek 0) = ch '@' && isDigit (← peek 1) then
    advance 1
    return .pos (← parseDec)
  else
    return .label (← symIdx)

/-- The instructions that name a target, each with its remaining field. -/
inductive RefForm where
  | adr (d : Word)
  | b
  | bl
  | bcond (cond : Word)

/-- The word of a reference over a distance (`ha_enc`, `hb_enc`, `hbl_enc`, `bc_enc`). -/
def RefForm.word (distance : Word) : RefForm → Word
  | .adr d =>
      0x10000000#32 ||| (distance &&& 3) <<< 29 |||
        (distance.sshiftRight 2 &&& 0x7ffff) <<< 5 ||| d
  | .b => 0x14000000#32 ||| (distance.sshiftRight 2 &&& 0x3ffffff)
  | .bl => 0x94000000#32 ||| (distance.sshiftRight 2 &&& 0x3ffffff)
  | .bcond cond => 0x54000000#32 ||| (distance.sshiftRight 2 &&& 0x7ffff) <<< 5 ||| cond

/-- What a handler emits: bytes, one by one, or a word; the word of a reference
is known when its line is left. -/
inductive Code where
  | bytes (bs : List Byte)
  | word (w : Word)
  | refer (form : RefForm) (t : Target)

/-- What one round of `parse_loop` reads. -/
inductive Item where
  | comment
  | label (k : Slot)
  | code (code : Code)

def emit (w : Word) : Line Code := return .word w

/-- Emit a data-processing word: bit 31 is its width. -/
def emitDp (w : Word) : Line Code := do
  return .word (if (← getCursor).narrow then w &&& 0x7fffffff else w)

def skipLine : Line Item := do
  skipWhile (· ≠ 0x0a)
  advance 1
  return .comment

def doLabel : Line Item := do
  advance 1
  return .label (← symIdx)

def doByte : Line Code := do
  advance 5
  skipWs
  return .bytes [(← parseDec).setWidth 8]

/-- The bytes of a string up to its closing quote. -/
def ascBytes : List Byte → List Byte
  | [] => []
  | b :: bs =>
      if b = ch '"' then []
      else if b = ch '\\' then
        match bs with
        | [] => [0]
        | e :: bs => (if e = ch 'n' then 0x0a else e) :: ascBytes bs
      else b :: ascBytes bs

/-- How far `asc_loop` reads: past the closing quote. -/
def ascLength : List Byte → ℕ
  | [] => 0
  | b :: bs =>
      if b = ch '"' then 1
      else if b = ch '\\' then
        match bs with
        | [] => 2
        | _ :: bs => ascLength bs + 2
      else ascLength bs + 1

def ascLoop : Line Code := do
  let c ← getCursor
  advance (ascLength c.rest)
  return .bytes (ascBytes c.rest)

def doAscii : Line Code := do
  advance 6
  skipWs
  if (← peek 0) = ch '"' then
    advance 1
    ascLoop
  else die

def doDot : Line Code := do
  let b ← peek 1
  if b = ch 'b' then doByte
  else if b = ch 'a' then doAscii
  else die

/-- The halfword fold shared by `mov` and `movn`. -/
def hmFold (base d v : Word) : Line Code :=
  let hw : Word := if v &&& 0xffff = 0 && v ≠ 0 then 1 else 0
  let v := if hw = 1 then v >>> 16 else v
  emitDp (v <<< 5 ||| hw <<< 21 ||| base ||| d)

def hMovn : Line Code := do
  advance 4
  let d ← nextReg
  skipWs
  hmFold 0x92800000 d (← parseDec)

def hMovk : Line Code := do
  advance 4
  let d ← nextReg
  skipWs
  let v ← parseDec
  skipWs
  let shift ← parseDec
  emitDp (0xf2800000#32 ||| (shift >>> 4) <<< 21 ||| v <<< 5 ||| d)

def hMul : Line Code := do
  advance 3
  let d ← nextReg
  let n ← nextReg
  let m ← nextReg
  emitDp (0x9b007c00#32 ||| m <<< 16 ||| n <<< 5 ||| d)

/-- The letter of a register operand. -/
def isRegLetter (b : Byte) : Bool := b = ch 'x' || b = ch 'w'

/-- `mov` itself, once `mul`, `movk` and `movn` are told apart. -/
def hMovPlain : Line Code := do
  advance 3
  let d ← nextReg
  skipWs
  if isRegLetter (← peek 0) then
    advance 1
    let n ← parseDec
    emitDp (0xaa0003e0#32 ||| n <<< 16 ||| d)
  else
    hmFold 0xd2800000 d (← parseDec)

def hMov : Line Code := do
  if (← peek 1) = ch 'u' then hMul
  else if (← peek 3) = ch 'k' then hMovk
  else if (← peek 3) = ch 'n' then hMovn
  else hMovPlain

/-- `h_add` and `h_sub`, which differ in their two base words. -/
def addSub (baseImm baseReg : Word) : Line Code := do
  advance 3
  let d ← nextReg
  let n ← nextReg
  skipWs
  if isRegLetter (← peek 0) then
    let m ← nextReg
    emitDp (baseReg ||| m <<< 16 ||| n <<< 5 ||| d)
  else
    let imm ← parseDec
    emitDp (imm <<< 10 ||| baseImm ||| n <<< 5 ||| d)

def hAdd : Line Code := addSub 0x91000000 0x8b000000

def hSub : Line Code := addSub 0xd1000000 0xcb000000

def hCmp : Line Code := do
  advance 3
  let n ← nextReg
  skipWs
  if isRegLetter (← peek 0) then
    advance 1
    let m ← parseDec
    emitDp (0xeb000000#32 ||| m <<< 16 ||| n <<< 5 ||| 0x1f#32)
  else
    let imm ← parseDec
    emitDp (imm <<< 10 ||| 0xf1000000#32 ||| n <<< 5 ||| 0x1f#32)

def hAdr : Line Code := do
  advance 3
  let d ← nextReg
  return .refer (.adr d) (← target)

/-- `h_and` and `h_eor`: three registers and no shift. -/
def andEor (base : Word) : Line Code := do
  advance 3
  let d ← nextReg
  let n ← nextReg
  let m ← nextReg
  emitDp (base ||| m <<< 16 ||| n <<< 5 ||| d)

def hAnd : Line Code := andEor 0x8a000000

def hEor : Line Code := andEor 0xca000000

def hOrr : Line Code := do
  advance 3
  let d ← nextReg
  let n ← nextReg
  let m ← nextReg
  let amount ← optDec
  emitDp (0xaa000000#32 ||| m <<< 16 ||| n <<< 5 ||| d ||| amount <<< 10)

/-- The `kind` codes of `shift_common`; the divisions share code 0. -/
inductive Kind where
  | div
  | lsl
  | lsr
  | asr
  deriving DecidableEq

/-- `lsl`, `lsr` and `asr` by an immediate, in the 32-bit form only. -/
def shiftImm (kind : Kind) (d n : Word) : Line Code := do
  if (← getCursor).narrow then
    let s ← optDec
    match kind with
    | .div => die
    | .lsl => emitDp (0x53000000#32 ||| ((0x20 - s) &&& 0x1f) <<< 16 |||
        (0x1f - s) <<< 10 ||| n <<< 5 ||| d)
    | .lsr => emitDp (0x53000000#32 ||| s <<< 16 ||| 0x1f#32 <<< 10 ||| n <<< 5 ||| d)
    | .asr => emitDp (0x13000000#32 ||| s <<< 16 ||| 0x1f#32 <<< 10 ||| n <<< 5 ||| d)
  else die

def shiftCommon (kind : Kind) (select : Word) : Line Code := do
  let d ← nextReg
  let n ← nextReg
  match ← optReg with
  | some m => emitDp (0x9ac00000#32 ||| select ||| m <<< 16 ||| n <<< 5 ||| d)
  | none => shiftImm kind d n

def hLsl : Line Code := do
  advance 3
  shiftCommon .lsl 0x2000

def hLsr : Line Code := do
  advance 3
  shiftCommon .lsr 0x2400

def hAsr : Line Code := do
  advance 3
  shiftCommon .asr 0x2800

def hSdiv : Line Code := do
  advance 4
  shiftCommon .div 0xc00

def hUdiv : Line Code := do
  advance 4
  shiftCommon .div 0x800

def hLdrb : Line Code := do
  advance 4
  let t ← nextReg
  let n ← nextReg
  let m ← nextReg
  emit (0x38606800#32 ||| m <<< 16 ||| n <<< 5 ||| t)

def hStrb : Line Code := do
  advance 4
  let t ← nextReg
  let n ← nextReg
  match ← optReg with
  | some m => emit (0x38206800#32 ||| m <<< 16 ||| n <<< 5 ||| t)
  | none => emit (0x39000000#32 ||| n <<< 5 ||| t)

/-- `h_ldr` and `h_str` with their tail `h_ls_off`: the first letter chooses the
size, and the offset is scaled by it. -/
def ldrStr (baseW baseX : Word) : Line Code := do
  advance 3
  skipWs
  let base := if (← peek 0) = ch 'x' then baseX else baseW
  let t ← nextReg
  let n ← nextReg
  let offset ← optDec
  let scaled := if (← getCursor).narrow then offset >>> 2 else offset >>> 3
  emit (base ||| n <<< 5 ||| t ||| scaled <<< 10)

def hLdr : Line Code := ldrStr 0xb9400000 0xf9400000

def hStr : Line Code := ldrStr 0xb9000000 0xf9000000

def hLsPlain (base : Word) : Line Code := do
  let t ← nextReg
  let n ← nextReg
  emit (base ||| n <<< 5 ||| t)

def hLdrh : Line Code := do
  advance 4
  hLsPlain 0x79400000

def hStrh : Line Code := do
  advance 4
  hLsPlain 0x79000000

def hLdrs : Line Code := do
  let b ← peek 4
  advance 5
  if b = ch 'b' then hLsPlain 0x39800000
  else if b = ch 'h' then hLsPlain 0x79800000
  else die

def hA : Line Code := do
  if (← peek 1) = ch 'n' then hAnd
  else if (← peek 1) = ch 's' then hAsr
  else if (← peek 2) = ch 'd' then hAdd
  else if (← peek 2) = ch 'r' then hAdr
  else die

def hL : Line Code := do
  if (← peek 1) = ch 's' then
    if (← peek 2) = ch 'r' then hLsr else hLsl
  else if (← peek 3) = ch 'b' then hLdrb
  else if (← peek 3) = ch 'h' then hLdrh
  else if (← peek 3) = ch 's' then hLdrs
  else hLdr

def hSvc : Line Code := do
  advance 3
  emit 0xd4000001

def hSt : Line Code := do
  if (← peek 3) = ch 'b' then hStrb
  else if (← peek 3) = ch 'h' then hStrh
  else hStr

def hS : Line Code := do
  let b ← peek 1
  if b = ch 'v' then hSvc
  else if b = ch 'u' then hSub
  else if b = ch 't' then hSt
  else if b = ch 'd' then hSdiv
  else die

/-- Condition codes; both characters count and there is no default. -/
def condCode (c₁ c₂ : Byte) : Option Word :=
  if c₁ = ch 'e' then
    if c₂ = ch 'q' then some 0x0 else none
  else if c₁ = ch 'n' then
    if c₂ = ch 'e' then some 0x1 else none
  else if c₁ = ch 'l' then
    if c₂ = ch 't' then some 0xb
    else if c₂ = ch 'e' then some 0xd
    else if c₂ = ch 's' then some 0x9
    else if c₂ = ch 'o' then some 0x3
    else none
  else if c₁ = ch 'g' then
    if c₂ = ch 'e' then some 0xa
    else if c₂ = ch 't' then some 0xc
    else none
  else if c₁ = ch 'h' then
    if c₂ = ch 'i' then some 0x8
    else if c₂ = ch 's' then some 0x2
    else none
  else none

def hBcond : Line Code := do
  advance 2
  let c₁ ← peek 0
  let c₂ ← peek 1
  advance 2
  match condCode c₁ c₂ with
  | some cond => return .refer (.bcond cond) (← target)
  | none => die

def hBr : Line Code := do
  advance 2
  let n ← nextReg
  emit (0xd61f0000#32 ||| n <<< 5)

def hBlr : Line Code := do
  advance 3
  let n ← nextReg
  emit (0xd63f0000#32 ||| n <<< 5)

def hBlOrBlr : Line Code := do
  if (← peek 2) = ch 'r' then hBlr
  else
    advance 2
    return .refer .bl (← target)

def hBranch : Line Code := do
  let b ← peek 1
  if b = ch '.' then hBcond
  else if b = ch 'l' then hBlOrBlr
  else if b = ch 'r' then hBr
  else
    advance 1
    return .refer .b (← target)

def hRet : Line Code := do
  advance 3
  emit 0xd65f03c0

/-- The dispatch of `parse_loop` on the first character of a line that emits. -/
def parseCode (b : Byte) : Line Code :=
  if b = ch '.' then doDot
  else if b = ch 'm' then hMov
  else if b = ch 'a' then hA
  else if b = ch 'c' then hCmp
  else if b = ch 'b' then hBranch
  else if b = ch 'l' then hL
  else if b = ch 's' then hS
  else if b = ch 'r' then hRet
  else if b = ch 'o' then hOrr
  else if b = ch 'u' then hUdiv
  else if b = ch 'e' then hEor
  else die

def parseItem : Line Item := do
  let b ← peek 0
  if b = ch '#' then skipLine
  else if b = ch ':' then doLabel
  else return .code (← parseCode b)

/-- The assembler between two lines: the unread input, the output position x22,
the symbol table and what has been written. -/
structure State where
  rest : List Byte
  pos : ℕ
  tab : Slot → Word
  out : List Byte

/-- How a run stops short: the input does not fit, a line is rejected (and
echoed), memory outside the tables is touched, or the fuel runs out. -/
inductive Exit where
  | tooLong
  | rejected (line : List Byte)
  | wild
  | running
  deriving DecidableEq, Repr

/-- `str w9, [x10]`: the four bytes of a word, least significant first. -/
def wordBytes (w : Word) : List Byte :=
  [w.setWidth 8, (w >>> 8).setWidth 8, (w >>> 16).setWidth 8, (w >>> 24).setWidth 8]

/-- `emit` and `emit_byte`: both passes advance the position, only the second
writes. -/
def State.write (second : Bool) (bs : List Byte) (s : State) : State :=
  { s with pos := s.pos + bs.length, out := if second then s.out ++ bs else s.out }

def State.value (s : State) : Target → Word
  | .pos p => p
  | .label k => s.tab k

def State.emit (second : Bool) (s : State) : Code → State
  | .bytes bs => bs.foldl (fun s b => s.write second [b]) s
  | .word w => s.write second (wordBytes w)
  | .refer form t =>
      s.write second (wordBytes (form.word (s.value t - BitVec.ofNat 32 s.pos)))

def State.perform (second : Bool) (s : State) : Item → State
  | .comment => s
  | .label k => { s with tab := Function.update s.tab k (BitVec.ofNat 32 s.pos) }
  | .code code => s.emit second code

/-- The state at the start of the next line. -/
def State.atLine (s : State) : State := { s with rest := s.rest.dropWhile isWs }

/-- `die` echoes the line up to its end. -/
def rejection (rest : List Byte) : Fault → Exit
  | .die => .rejected (rest.takeWhile (· ≠ 0x0a))
  | .wild => .wild

/-- One line, from its first character. -/
def State.line (second : Bool) (s : State) : Except Exit State :=
  match parseItem.run ⟨s.rest, false⟩ with
  | .error e => .error (rejection s.rest e)
  | .ok (item, c) => .ok ({ s with rest := c.rest }.perform second item)

/-- One round of `parse_loop`. -/
def turn (second : Bool) (s : State) : Except Exit (Option State) :=
  if s.atLine.rest = [] then .ok none else (s.atLine.line second).map some

/-- `pass_start`. -/
def start (input : List Byte) (tab : Slot → Word) : State := ⟨input, 0, tab, []⟩

/-- `symtab` before the first pass. -/
def blank : Slot → Word := fun _ => 0

/-- Every round reads at least one character. -/
def rounds (input : List Byte) : ℕ := input.length + 1

def pass (second : Bool) (input : List Byte) (tab : Slot → Word) : Except Exit State :=
  Loop.run .running (turn second) (rounds input) (start input tab)

/-- The whole program: the bytes written when it exits 0. -/
def assemble (input : List Byte) : Except Exit (List Byte) :=
  if input.length < 0x4000000 then do
    let first ← pass false input blank
    let last ← pass true input first.tab
    return last.out
  else .error .tooLong

end Veron.SelfAssembler
