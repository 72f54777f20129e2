/-
The operators of pico-c on 64-bit integers: what C makes of them, and the code that is emitted
for them, run with their operands on the value stack.
-/
import Mathlib.Data.Int.Notation
import Veron.A64Text
import Veron.PicoCApply

namespace Veron.PicoC

open A64

/-- The binary operators that evaluate both operands. -/
inductive Binary where
  | lt | gt | mul | sub | le | ge | eq | ne | div | mod | and | or | xor | shl | shr | add

/-- Those whose right operand may be left alone: `&&` and `||`. -/
inductive Short where
  | and | or

inductive Unary where
  | not | neg | compl

def Binary.code : Binary → ℕ
  | .lt => 60
  | .gt => 62
  | .mul => 42
  | .sub => 45
  | .le => 1
  | .ge => 2
  | .eq => 3
  | .ne => 4
  | .div => 47
  | .mod => 37
  | .and => 38
  | .or => 124
  | .xor => 94
  | .shl => 5
  | .shr => 6
  | .add => 43

def Short.code : Short → ℕ
  | .and => 11
  | .or => 12

def Unary.code : Unary → ℕ
  | .not => 7
  | .neg => 8
  | .compl => 9

/-- The values of a signed 64-bit integer. -/
def InRange (r : ℤ) : Prop := -2 ^ 63 ≤ r ∧ r < 2 ^ 63

instance (r : ℤ) : Decidable (InRange r) := inferInstanceAs (Decidable (_ ∧ _))

def inRange? (r : ℤ) : Option ℤ := if InRange r then some r else none

def truth (p : Prop) [Decidable p] : ℤ := if p then 1 else 0

/-- The signed 64-bit result; none where there is no representable one, and for a division by
zero, a shift by a negative amount or by the width, and a shift of a negative value. -/
def Binary.eval (a b : ℤ) : Binary → Option ℤ
  | .lt => some (truth (a < b))
  | .gt => some (truth (a > b))
  | .le => some (truth (a ≤ b))
  | .ge => some (truth (a ≥ b))
  | .eq => some (truth (a = b))
  | .ne => some (truth (a ≠ b))
  | .add => inRange? (a + b)
  | .sub => inRange? (a - b)
  | .mul => inRange? (a * b)
  | .div => if b = 0 then none else inRange? (a.tdiv b)
  | .mod => if b = 0 ∨ ¬ InRange (a.tdiv b) then none else some (a.tmod b)
  | .and => some (BitVec.ofInt 64 a &&& BitVec.ofInt 64 b).toInt
  | .or => some (BitVec.ofInt 64 a ||| BitVec.ofInt 64 b).toInt
  | .xor => some (BitVec.ofInt 64 a ^^^ BitVec.ofInt 64 b).toInt
  | .shl => if a < 0 ∨ b < 0 ∨ 64 ≤ b then none else inRange? (a * 2 ^ b.toNat)
  | .shr => if a < 0 ∨ b < 0 ∨ 64 ≤ b then none else some (a / 2 ^ b.toNat)

def Short.eval (a b : ℤ) : Short → ℤ
  | .and => truth (a ≠ 0 ∧ b ≠ 0)
  | .or => truth (a ≠ 0 ∨ b ≠ 0)

def Unary.eval (a : ℤ) : Unary → Option ℤ
  | .not => some (truth (a = 0))
  | .neg => inRange? (-a)
  | .compl => some (-a - 1)

/-- 1 for a word that is not zero. -/
def nonzero (d : Reg) : Reg := (d ||| (0 - d)) >>> 63

/-- The sign bit. -/
def sign (d : Reg) : Reg := d >>> 63

def Binary.word (a b : Reg) : Binary → Reg
  | .lt => sign (a - b)
  | .gt => sign (b - a)
  | .le => 1 - sign (b - a)
  | .ge => 1 - sign (a - b)
  | .eq => 1 - nonzero (a - b)
  | .ne => nonzero (a - b)
  | .add => a + b
  | .sub => a - b
  | .mul => a * b
  | .div => a / b
  | .mod => a - a / b * b
  | .and => a &&& b
  | .or => a ||| b
  | .xor => a ^^^ b
  | .shl => a <<< (b.toNat % 64)
  | .shr => a >>> (b.toNat % 64)

def Unary.word (a : Reg) : Unary → Reg
  | .not => 1 - nonzero a
  | .neg => 0 - a
  | .compl => 0 - a - 1

/-- A word was put into a slot, which is now the last one of the value stack. -/
structure Pushed (s s' : Machine) (slot r : Reg) : Prop where
  sp : s'.reg 9 = slot + 8
  top : load s'.mem slot = r
  frame : ∀ x, 8 ≤ (x - slot).toNat → s'.mem x = s.mem x
  regs : ∀ n, 3 < n → n ≠ 9 → s'.reg n = s.reg n

/-- The lines that `emitapply` emits on operands of these types, and the types it leaves. -/
def Emits (op label : ℕ) (types : List ℕ) (ls : List Line) (types' : List ℕ) : Prop :=
  ∃ text, emitapply op label types = some (text, types') ∧ lines? text = some ls

/-- The code emitted for an operator on integers replaces two words by a word. -/
def Binary.Replaces (op : Binary) (a b r : Reg) : Prop :=
  ∀ label types, ∃ ls, Emits op.code label (0 :: 0 :: types) ls (0 :: types) ∧
    ∀ s, load s.mem (s.reg 9 - 16) = a → load s.mem (s.reg 9 - 8) = b →
      ∃ s', exec ls s = some s' ∧ Pushed s s' (s.reg 9 - 16) r

def Unary.Replaces (op : Unary) (a r : Reg) : Prop :=
  ∀ label types, ∃ ls, Emits op.code label (0 :: types) ls (0 :: types) ∧
    ∀ s, load s.mem (s.reg 9 - 8) = a →
      ∃ s', exec ls s = some s' ∧ Pushed s s' (s.reg 9 - 8) r

/-- Code for the right operand of `&&` or `||`: whatever else it does, it pushes a word. -/
structure Operand (b : Reg) where
  code : List Line
  eval : Machine → Machine
  exec_append : ∀ rest s, exec (code ++ rest) s = exec rest (eval s)
  sp : ∀ s, (eval s).reg 9 = s.reg 9 + 8
  top : ∀ s, load (eval s).mem (s.reg 9) = b

/-- A word is in the slot that ends at `sp`, and what the operand leaves is unchanged. -/
structure Shorted {b : Reg} (right : Operand b) (s s' : Machine) (r : Reg) : Prop where
  sp : s'.reg 9 = s.reg 9
  top : load s'.mem (s.reg 9 - 8) = r
  frame : ∀ x, 8 ≤ (x - (s.reg 9 - 8)).toNat → (∀ t, (right.eval t).mem x = t.mem x) →
    s'.mem x = s.mem x
  regs : ∀ n, 3 < n → n ≠ 9 → (∀ t, (right.eval t).reg n = t.reg n) → s'.reg n = s.reg n

/-- The test emitted behind the left operand, the right operand and the code emitted for the
operator, with a label that is not one of the operand's. -/
def Short.Replaces (op : Short) (a b r : Reg) : Prop :=
  ∀ label < 1000000000, ∀ types, ∃ test text ls,
    cepushop op.code label = some text ∧ lines? text = some test ∧
    Emits op.code label (0 :: 0 :: types) ls (0 :: types) ∧
    ∀ right : Operand b, (∀ name, .label name ∈ ls → .label name ∉ right.code) →
      ∀ s, load s.mem (s.reg 9 - 8) = a →
        ∃ s', exec (test ++ right.code ++ ls) s = some s' ∧ Shorted right s s' r

end Veron.PicoC
