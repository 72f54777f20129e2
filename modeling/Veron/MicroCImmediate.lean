/-
How micro-c puts a 64-bit number into the text it emits for aarch64 and amd64: into a
register, as the value of a case, and as the bytes of a global.
-/
import Mathlib.Logic.Function.Basic
import Veron.Bytes
import Veron.MicroCLiteral

namespace Veron.MicroC

open SelfAssembler (Byte ch text)

inductive Architecture where
  | amd64
  | aarch64
deriving DecidableEq

inductive Register where
  | zero
  | one
  | temp
  | base
  | return
  | stack
  | locals
  | emitTemp
  | temp2
deriving DecidableEq

def registerFromString : Architecture → Register → Except Fault Token
  | .amd64, .zero => .ok (text ['r', 'a', 'x'])
  | .amd64, .one => .ok (text ['r', 'b', 'x'])
  | .amd64, .temp => .ok (text ['r', 'd', 'i'])
  | .amd64, .base => .ok (text ['r', 'b', 'p'])
  | .amd64, .stack => .ok (text ['r', 's', 'p'])
  | .amd64, .locals => .ok (text ['r', '1', '3'])
  | .amd64, .emitTemp => .ok (text ['r', '1', '4'])
  | .amd64, .temp2 => .ok (text ['r', '1', '5'])
  | .amd64, .return =>
      .error (.exit
        ("PROGRAMMING ERROR: Invalid register passed to register_from_string: '4'" ++
          " for architecture '8'\n."))
  | .aarch64, .zero => .ok (text ['x', '0'])
  | .aarch64, .one => .ok (text ['x', '1'])
  | .aarch64, .locals => .ok (text ['x', '1', '3'])
  | .aarch64, .emitTemp => .ok (text ['x', '1', '4'])
  | .aarch64, .temp2 => .ok (text ['x', '1', '5'])
  | .aarch64, .temp => .ok (text ['x', '1', '6'])
  | .aarch64, .base => .ok (text ['x', '1', '7'])
  | .aarch64, .return => .ok (text ['l', 'r'])
  | .aarch64, .stack => .ok (text ['x', '1', '8'])

def immediateLowWord (value : ℤ) : ℤ := value % 2 ^ 32

def immediateHighWord (value : ℤ) : ℤ := (value >>> (32 : ℕ)) % 2 ^ 32

/-- Does the constant not fit the 32-bit forms of both targets? -/
def immediateIsWide (value : ℤ) : Bool := value >>> (31 : ℕ) ≠ 0

/-- The aarch64 registers that have some constants in a `mov` of their own. -/
def hasShortVersion (reg : Register) (value : ℤ) : Bool :=
  (reg = .zero ∧ -1 ≤ value ∧ value ≤ 128) ∨
    (reg = .emitTemp ∧ value ≤ 128 ∧ 0 ≤ value ∧ value.tmod 8 = 0)

/-- The words of `write_load_immediate` on the two targets, its note left out. -/
def writeLoadImmediate (arch : Architecture) (reg : Register) (value : ℤ) :
    Except Fault (List Token) := do
  let regName ← registerFromString arch reg
  let valueString ← long2str value 10 true
  if immediateIsWide value then do
    let low ← long2str (immediateLowWord value) 10 false
    let high ← long2str (immediateHighWord value) 10 false
    match arch with
    | .aarch64 =>
        .ok [text ['l', 'd', 'r', '_'] ++ regName ++ text [',', '8'], text ['b', '_', '1', '2'],
          ch '%' :: low, ch '%' :: high]
    | .amd64 =>
        .ok [text ['m', 'o', 'v', 'a', 'b', 's', '_'] ++ regName ++ text [','], ch '%' :: low,
          ch '%' :: high]
  else match arch with
    | .amd64 =>
        if value = 0 then
          .ok [text ['x', 'o', 'r', '_', 'e'] ++ regName.drop 1 ++ text [',', 'e'] ++
            regName.drop 1]
        else .ok [text ['m', 'o', 'v', '_'] ++ regName ++ text [','], ch '%' :: valueString]
    | .aarch64 =>
        if (value = 0 ∧ reg = .one) ∨ hasShortVersion reg value then
          .ok [text ['m', 'o', 'v', '_'] ++ regName ++ ch ',' :: valueString]
        else
          .ok [text ['l', 'd', 'r', '_', 'w'] ++ regName.drop 1 ++ text [',', '8'],
            text ['b', '_', '8'], ch '%' :: valueString]

/-- Neither target truncates, so that there is no warning. -/
def emitLoadImmediate (arch : Architecture) (reg : Register) (value : ℤ) :
    Except Fault (List Token) := writeLoadImmediate arch reg value

/-- A negative value is the complement of its magnitude minus one. -/
def emitCaseValue (arch : Architecture) (value : ℤ) : Except Fault (List Token) :=
  if 0 ≤ value then emitLoadImmediate arch .zero value
  else do
    let code ← emitLoadImmediate arch .zero (-(value + 1))
    match arch with
    | .amd64 => .ok (code ++ [text ['n', 'o', 't', '_', 'r', 'a', 'x']])
    | .aarch64 => .ok (code ++ [text ['m', 'v', 'n', '_', 'x', '0', ',', 'x', '0']])

/-- The words of `global_value_output` for four bytes and more. -/
def globalValueOutput (value : ℤ) (size : ℕ) : Except Fault (List Token) := do
  let low ← long2str (immediateLowWord value) 10 false
  if size = 8 then do
    let high ← long2str (immediateHighWord value) 10 false
    .ok [ch '%' :: low, ch '%' :: high]
  else .ok [ch '%' :: low]

/-- The four bytes of data a word stands for. -/
def word? (t : Token) : Option (BitVec 32) :=
  if at' t 0 = ch '%' then (number? (t.drop 1)).map (BitVec.ofInt 32) else none

/-- The registers by name. -/
abbrev Registers := Token → BitVec 64

def amd64Legacy : List Token :=
  [text ['r', 'a', 'x'], text ['r', 'b', 'x'], text ['r', 'c', 'x'], text ['r', 'd', 'x'],
    text ['r', 's', 'i'], text ['r', 'd', 'i'], text ['r', 'b', 'p'], text ['r', 's', 'p']]

def amd64Registers : List Token :=
  amd64Legacy ++ [text ['r', '8'], text ['r', '9'], text ['r', '1', '0'], text ['r', '1', '1'],
    text ['r', '1', '2'], text ['r', '1', '3'], text ['r', '1', '4'], text ['r', '1', '5']]

inductive Amd64Op where
  /-- `xor` of a 32-bit register with itself. -/
  | clear (r : Token)
  /-- `mov` of an immediate of 32 bits, which sign-extends. -/
  | mov (r : Token)
  | movabs (r : Token)
  | not (r : Token)
deriving DecidableEq

/-- The instruction of a mnemonic, without its immediate. Only the registers that
have a name of two letters behind `e` have one of 32 bits so named. -/
def amd64Op? (t : Token) : Option Amd64Op :=
  (((amd64Legacy.find? fun r =>
        t = text ['x', 'o', 'r', '_', 'e'] ++ r.drop 1 ++ text [',', 'e'] ++ r.drop 1).map
      .clear).or
    ((amd64Registers.find? fun r => t = text ['m', 'o', 'v', '_'] ++ r ++ text [',']).map
      .mov)).or
  (((amd64Registers.find? fun r =>
        t = text ['m', 'o', 'v', 'a', 'b', 's', '_'] ++ r ++ text [',']).map .movabs).or
    ((amd64Registers.find? fun r => t = text ['n', 'o', 't', '_'] ++ r).map .not))

def runAmd64 : List Token → Registers → Option Registers
  | [], s => some s
  | t :: ts, s =>
      match amd64Op? t, ts with
      | some (.clear r), ts => runAmd64 ts (Function.update s r 0)
      | some (.not r), ts => runAmd64 ts (Function.update s r (~~~ s r))
      | some (.mov r), d :: ts => do
          let v ← word? d
          runAmd64 ts (Function.update s r (v.signExtend 64))
      | some (.movabs r), low :: high :: ts => do
          let l ← word? low
          let h ← word? high
          runAmd64 ts (Function.update s r (h ++ l))
      | _, _ => none

def aarch64Registers : List Token :=
  [text ['x', '0'], text ['x', '1'], text ['x', '2'], text ['x', '3'], text ['x', '4'],
    text ['x', '5'], text ['x', '6'], text ['x', '7'], text ['x', '8'], text ['x', '9'],
    text ['x', '1', '0'], text ['x', '1', '1'], text ['x', '1', '2'], text ['x', '1', '3'],
    text ['x', '1', '4'], text ['x', '1', '5'], text ['x', '1', '6'], text ['x', '1', '7'],
    text ['x', '1', '8'], text ['l', 'r']]

inductive Aarch64Op where
  /-- A load of the doubleword that many words further on. -/
  | literal (r : Token) (words : ℕ)
  /-- A load of the word that many words further on, which zero-extends. -/
  | literalWord (r : Token) (words : ℕ)
  | branch (words : ℕ)
  | mov (r : Token) (v : ℤ)
  | not (d m : Token)
deriving DecidableEq

/-- A distance further on, in words. -/
def words? (t : Token) : Option ℕ :=
  (number? t).bind fun v => if 0 < v ∧ v % 4 = 0 then some (v / 4).toNat else none

/-- A constant that one `mov` takes. -/
def constant? (t : Token) : Option ℤ :=
  (number? t).bind fun v => if -65536 ≤ v ∧ v < 65536 then some v else none

/-- The instruction of a mnemonic and its last operand. -/
def aarch64Mnemonic? (head operand : Token) : Option Aarch64Op :=
  if head.take 2 = text ['b', '_'] then (words? (head.drop 2)).map .branch
  else match aarch64Registers.find? fun r => head = text ['l', 'd', 'r', '_'] ++ r with
    | some r => (words? operand).map (.literal r)
    | none =>
        match aarch64Registers.find? fun r =>
          at' r 0 = ch 'x' ∧ head = text ['l', 'd', 'r', '_', 'w'] ++ r.drop 1 with
        | some r => (words? operand).map (.literalWord r)
        | none =>
            match aarch64Registers.find? fun r => head = text ['m', 'o', 'v', '_'] ++ r with
            | some r => (constant? operand).map (.mov r)
            | none =>
                (aarch64Registers.find? fun r => head = text ['m', 'v', 'n', '_'] ++ r).bind
                  fun d => if aarch64Registers.contains operand then some (.not d operand) else none

def aarch64Op? (t : Token) : Option Aarch64Op :=
  let head := t.takeWhile (· ≠ ch ',')
  aarch64Mnemonic? head (t.drop (head.length + 1))

/-- Every instruction and every datum is a word; what is loaded lies further on. -/
def runAarch64 : (fuel : ℕ) → List Token → Registers → Option Registers
  | _, [], s => some s
  | 0, _ :: _, _ => none
  | fuel + 1, t :: ts, s =>
      match aarch64Op? t with
      | none => none
      | some (.branch words) => runAarch64 fuel (ts.drop (words - 1)) s
      | some (.mov r v) => runAarch64 fuel ts (Function.update s r (BitVec.ofInt 64 v))
      | some (.not d m) => runAarch64 fuel ts (Function.update s d (~~~ s m))
      | some (.literalWord r words) => do
          let v ← word? (← ts[words - 1]?)
          runAarch64 fuel ts (Function.update s r (v.setWidth 64))
      | some (.literal r words) => do
          let l ← word? (← ts[words - 1]?)
          let h ← word? (← ts[words]?)
          runAarch64 fuel ts (Function.update s r (h ++ l))

/-- Runs emitted code from its beginning to its end. -/
def run : Architecture → List Token → Registers → Option Registers
  | .amd64, code, s => runAmd64 code s
  | .aarch64, code, s => runAarch64 code.length code s

/-- The bytes that words of data stand for. -/
def dataBytes (ts : List Token) : Option (List UInt8) :=
  (ts.mapM word?).map fun ws => ws.flatMap fun w => leBytes 4 w.toNat

end Veron.MicroC
