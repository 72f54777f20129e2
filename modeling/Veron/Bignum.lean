/-
The big numbers `strtod` works in: arrays of 160 unsigned ints, least
significant first, each with its own length variable.  An access outside the
array has no result.
-/
import Veron.Word

namespace Veron

namespace Bignum

def nlimb : ℕ := 160

/-- `unsigned int a[NLIMB]`. -/
abbrev Limbs := Vector UInt nlimb

/-- `NUM` with `NUMN`, `DEN` with `DENN` and so on. -/
structure Big where
  limbs : Limbs
  n : ℕ

def readLimb (a : Limbs) (i : ℕ) : Option UInt := a[i]?

def writeLimb (a : Limbs) (i : ℕ) (x : UInt) : Option Limbs :=
  if h : i < nlimb then some (a.set i x h) else none

def zeroLimbs : Limbs := Vector.replicate nlimb 0

/-- `(unsigned int)(c & 0xffffffff)`. -/
def loWord (c : ULong) : UInt := (c &&& lowMask).setWidth 32

/-- `while (*n > 1 && a[*n - 1] == 0) *n = *n - 1;`. -/
def trim (a : Limbs) : ℕ → Option ℕ
  | n + 2 => do
      let x ← readLimb a (n + 1)
      if x = 0 then trim a (n + 1) else some (n + 2)
  | n => some n

def bset (v : ULong) : Option Big := do
  let a ← writeLimb zeroLimbs 0 (loWord v)
  let a ← writeLimb a 1 (loWord (v >>> 32))
  let n ← trim a 2
  some ⟨a, n⟩

/-- The loop of `bmul` and `bshl` over `k` limbs from `i` on: each limb becomes
the low word of `cur`, the high word is the carry. -/
def carryLoop (cur : UInt → ULong → ULong) : ℕ → ℕ → ULong → Limbs → Option (ULong × Limbs)
  | 0, _, carry, a => some (carry, a)
  | k + 1, i, carry, a => do
      let x ← readLimb a i
      let c := cur x carry
      let a ← writeLimb a i (loWord c)
      carryLoop cur k (i + 1) (c >>> 32) a

/-- `while (carry != 0) { a[i] = carry; carry >>= 32; i++; *n = i; }`. -/
def flushCarry (i : ℕ) (carry : ULong) (x : Big) : Option Big :=
  if carry = 0 then some x
  else do
    let a ← writeLimb x.limbs i (loWord carry)
    flushCarry (i + 1) (carry >>> 32) ⟨a, i + 1⟩
termination_by carry.toNat
decreasing_by
  rename_i h
  have hpos := toNat_ne_zero h
  rw [toNat_shiftRight]
  omega

/-- `a *= m`. -/
def bmul (x : Big) (m : ULong) : Option Big := do
  let (carry, a) ← carryLoop (fun w carry => w.setWidth 64 * m + carry) x.n 0 0 x.limbs
  flushCarry x.n carry ⟨a, x.n⟩

/-- `while (carry != 0)` of `badd`; a limb at or past the length is opened with
a zero. -/
def addLoop (i : ℕ) (carry : ULong) (x : Big) : Option Big :=
  if carry = 0 then some x
  else if h : i < nlimb then
    let w : UInt := if x.n ≤ i then 0 else x.limbs[i]
    let n := if x.n ≤ i then i + 1 else x.n
    let cur := w.setWidth 64 + carry
    addLoop (i + 1) (cur >>> 32) ⟨x.limbs.set i (loWord cur) h, n⟩
  else none
termination_by nlimb - i

/-- `a += v`. -/
def badd (x : Big) (v : ULong) : Option Big := addLoop 0 v x

/-- `while (i >= 0) { a[i + words] = a[i]; i--; }`. -/
def moveUp (words : ℕ) : ℕ → Limbs → Option Limbs
  | 0, a => some a
  | i + 1, a => do
      let x ← readLimb a i
      let a ← writeLimb a (i + words) x
      moveUp words i a

/-- `a[i] = 0` for `k` limbs from `i` on. -/
def clearLimbs : ℕ → ℕ → Limbs → Option Limbs
  | 0, _, a => some a
  | k + 1, i, a => do
      let a ← writeLimb a i 0
      clearLimbs k (i + 1) a

def shiftWords (words : ℕ) (x : Big) : Option Big :=
  if 0 < words then do
    let a ← moveUp words x.n x.limbs
    let a ← clearLimbs words 0 a
    some ⟨a, x.n + words⟩
  else some x

def shiftBits (bits : ℕ) (x : Big) : Option Big :=
  if 0 < bits then do
    let (carry, a) ← carryLoop (fun w carry => (w.setWidth 64 <<< bits) ||| carry) x.n 0 0
      x.limbs
    if carry ≠ 0 then do
      let a ← writeLimb a x.n (loWord carry)
      some ⟨a, x.n + 1⟩
    else some ⟨a, x.n⟩
  else some x

/-- `a <<= k`. -/
def bshl (x : Big) (k : ℕ) : Option Big := do
  let x ← shiftWords (k / 32) x
  shiftBits (k % 32) x

/-- `while (i > 0 && a[i] == 0) i = i - 1;`. -/
def topLimb (a : Limbs) : ℕ → Option ℕ
  | 0 => some 0
  | i + 1 => do
      let x ← readLimb a (i + 1)
      if x = 0 then topLimb a i else some (i + 1)

def bbits (x : Big) : Option ℕ := do
  let i ← topLimb x.limbs (x.n - 1)
  let t ← readLimb x.limbs i
  if t = 0 then some 0 else some (i * 32 + bitLength t)

/-- Limb `i` as `bcmp` and `bsub` read it, zero at and past the length. -/
def limbBelow (x : Big) (i : ℕ) : Option UInt :=
  if i < x.n then readLimb x.limbs i else some 0

/-- The loop of `bcmp` over the limbs below `i`, from the top. -/
def cmpLoop (a b : Big) : ℕ → Option ℤ
  | 0 => some 0
  | i + 1 => do
      let x ← limbBelow a i
      let y ← limbBelow b i
      if x ≠ y then (if y < x then some 1 else some (-1))
      else cmpLoop a b i

def bcmp (a b : Big) : Option ℤ := cmpLoop a b nlimb

/-- The loop of `bsub` over `k` limbs from `i` on. -/
def subLoop (b : Big) : ℕ → ℕ → ULong → Limbs → Option Limbs
  | 0, _, _, a => some a
  | k + 1, i, borrow, a => do
      let x ← readLimb a i
      let w ← limbBelow b i
      let x : ULong := x.setWidth 64
      let y : ULong := w.setWidth 64 + borrow
      if y ≤ x then do
        let a ← writeLimb a i ((x - y).setWidth 32)
        subLoop b k (i + 1) 0 a
      else do
        let a ← writeLimb a i ((x + 0x100000000 - y).setWidth 32)
        subLoop b k (i + 1) 1 a

/-- `a -= b`, for `a >= b`. -/
def bsub (a b : Big) : Option Big := do
  let limbs ← subLoop b nlimb 0 0 a.limbs
  let n ← trim limbs a.n
  some ⟨limbs, n⟩

/-- `while (i < n) { if (a[i] != 0) return 0; i++; } return 1;`. -/
def zeroLoop (a : Limbs) : ℕ → ℕ → Option Bool
  | 0, _ => some true
  | k + 1, i => do
      let x ← readLimb a i
      if x ≠ 0 then some false else zeroLoop a k (i + 1)

def bzero (x : Big) : Option Bool := zeroLoop x.limbs x.n 0

/-- `(a[i / 32] >> (i % 32)) & 1`. -/
def bitAt (a : Limbs) (i : ℕ) : Option UInt := do
  let x ← readLimb a (i / 32)
  some ((x >>> (i % 32)) &&& 1)

/-- Append the `k` bits from `drop` on to `v`, from the top. -/
def takeBits (a : Limbs) (drop : ℕ) : ℕ → ULong → Option ULong
  | 0, v => some v
  | k + 1, v => do
      let bit ← bitAt a (drop + k)
      takeBits a drop k ((v <<< 1) ||| bit.setWidth 64)

/-- Whether one of the bits below `i` is set. -/
def anyBit (a : Limbs) : ℕ → Option Bool
  | 0 => some false
  | i + 1 => do
      let bit ← bitAt a i
      if bit ≠ 0 then some true else anyBit a i

/-- The top `want` bits, the sticky flag and the shift. -/
def btop (x : Big) (want : ℕ) : Option (ULong × Bool × ℤ) := do
  let b ← bbits x
  let drop : ℤ := (b : ℤ) - want
  if drop ≤ 0 then do
    let v ← takeBits x.limbs 0 b 0
    some (v, false, drop)
  else do
    let v ← takeBits x.limbs (b - want) want 0
    let sticky ← anyBit x.limbs (b - want)
    some (v, sticky, drop)

/-- `while (z < DENN) { T[z] = DEN[z]; z++; }`, over `k` limbs from `z` on. -/
def copyLimbs (b : Limbs) : ℕ → ℕ → Limbs → Option Limbs
  | 0, _, a => some a
  | k + 1, z, a => do
      let x ← readLimb b z
      let a ← writeLimb a z x
      copyLimbs b k (z + 1) a

/-- `a[j / 32] |= 1U << (j % 32)`. -/
def setBit (a : Limbs) (j : ℕ) : Option Limbs := do
  let x ← readLimb a (j / 32)
  writeLimb a (j / 32) (x ||| ((1 : UInt) <<< (j % 32)))

end Bignum

end Veron
