/-
The binary64 arithmetic of the bootstrap libc, which works on bit patterns in
64-bit unsigned integers and touches no floating point.  Unsigned longs are
64-bit words that wrap; the C ints hold exponents of a few thousand at most and
are integers here.
-/
import Veron.StandsFor
import Veron.Word

namespace Veron

namespace SoftFloat

def expMask : ULong := 0x7ff
def mantBits : ℕ := 52
def hidden : ULong := 0x0010000000000000
def mantMask : ULong := 0x000fffffffffffff
def signBit : ULong := 0x8000000000000000
def quietNan : ULong := 0x7ff8000000000000
def infinity : ULong := 0x7ff0000000000000

def sfSign (a : ULong) : Bool := a >>> 63 != 0
def sfExp (a : ULong) : ℤ := ((a >>> mantBits) &&& expMask).toNat
def sfMant (a : ULong) : ULong := a &&& mantMask
def sfIsNan (a : ULong) : Bool := sfExp a == 2047 && sfMant a != 0
def sfIsInf (a : ULong) : Bool := sfExp a == 2047 && sfMant a == 0
def sfIsZero (a : ULong) : Bool := a &&& 0x7fffffffffffffff == 0

/-- `while (sig < 2^55) { sig = sig << 1; e = e - 1; }`.  Both callers enter it
with a nonzero significand; the test makes the recursion total. -/
def normalizeUp (sig : ULong) (e : ℤ) : ULong × ℤ :=
  if sig ≠ 0 ∧ sig < (1 : ULong) <<< 55 then normalizeUp (sig <<< 1) (e - 1)
  else (sig, e)
termination_by 2 ^ 55 - sig.toNat
decreasing_by
  rename_i h
  obtain ⟨hne, hlt⟩ := h
  have hpos : sig.toNat ≠ 0 := fun h => hne (BitVec.eq_of_toNat_eq h)
  have hlt : sig.toNat < 2 ^ 55 := by simpa [BitVec.lt_def] using hlt
  rw [BitVec.toNat_shiftLeft, Nat.shiftLeft_eq]
  omega

/-- One right shift with the lost bit folded into the low bit. -/
def shiftSticky (sig : ULong) : ULong :=
  (sig >>> 1) ||| (sig &&& 1)

theorem shiftSticky_toNat (sig : ULong) :
    (shiftSticky sig).toNat = jam 1 sig.toNat := by
  rw [shiftSticky, jam, BitVec.toNat_or, BitVec.toNat_and,
    BitVec.toNat_ushiftRight, Nat.shiftRight_eq_div_pow]
  change _ ||| sig.toNat &&& 1 = _
  rw [Nat.and_one_is_mod, Nat.pow_one]
  rcases Nat.mod_two_eq_zero_or_one sig.toNat with h | h <;> simp [h]

/-- `while (sig >= 2^56)`: shift down until bit 55 leads. -/
def normalizeDown (sig : ULong) (e : ℤ) : ULong × ℤ :=
  if (1 : ULong) <<< 56 ≤ sig then normalizeDown (shiftSticky sig) (e + 1)
  else (sig, e)
termination_by sig.toNat
decreasing_by
  rename_i h
  have hge : 2 ^ 56 ≤ sig.toNat := by simpa [BitVec.le_def] using h
  rw [shiftSticky_toNat, jam_eq]
  split_ifs <;> omega

/-- `while (shift > 0)`: the subnormal shift. -/
def shiftStickyN : ℕ → ULong → ULong
  | 0, sig => sig
  | shift + 1, sig => shiftStickyN shift (shiftSticky sig)

/-- `guard > 4 || (guard == 4 && (low & 1))`. -/
def roundsUp (sig : ULong) : Bool :=
  (sig &&& 7) > 4 || (sig &&& 7 == 4 && (sig >>> 3) &&& 1 != 0)

/-- `if (sign) return SIGNBIT | r; return r;`. -/
def putSign (sign : Bool) (r : ULong) : ULong :=
  if sign then signBit ||| r else r

/-- Emit with a zero exponent field, unless rounding reached the least
normal. -/
def packSubnormal (sign : Bool) (sig : ULong) : ULong :=
  let low := if roundsUp sig then (sig >>> 3) + 1 else sig >>> 3
  if hidden ≤ low then putSign sign (((1 : ULong) <<< mantBits) ||| (low - hidden))
  else putSign sign low

/-- Round, let the carry move the exponent, emit. -/
def packNormal (sign : Bool) (e : ℤ) (sig : ULong) : ULong :=
  let low := sig >>> 3
  let (low, e) :=
    if roundsUp sig then
      if hidden <<< 1 ≤ low + 1 then ((low + 1) >>> 1, e + 1) else (low + 1, e)
    else (low, e)
  if e > 1023 then putSign sign ((2047 : ULong) <<< mantBits)
  else putSign sign ((BitVec.ofInt 64 (e + 1023) <<< mantBits) ||| (low &&& mantMask))

def sfPack (sign : Bool) (e : ℤ) (sig : ULong) : ULong :=
  if sig = 0 then (if sign then signBit else 0)
  else
    let (sig, e) := normalizeUp sig e
    let (sig, e) := normalizeDown sig e
    if e < -1022 then
      let shift := -1022 - e
      if shift > 63 then (if sign then signBit else 0)
      else packSubnormal sign (shiftStickyN shift.toNat sig)
    else packNormal sign e sig

/-- The exponent and the significand with bit 55 leading, so that the value is
`sig * 2^(e - 55)`. -/
def sfUnpack (a : ULong) : ℤ × ULong :=
  let ex := sfExp a
  let m := sfMant a
  if ex = 0 then
    if m = 0 then (0, 0)
    else
      let (m, ex) := normalizeUp (m <<< 3) (-1022)
      (ex, m)
  else (ex - 1023, (m ||| hidden) <<< 3)

def sfNeg (a : ULong) : ULong := a ^^^ signBit

/-- The smaller operand brought to the larger exponent. -/
def alignDown (shift : ℤ) (mb : ULong) : ULong :=
  if shift > 60 then (if mb ≠ 0 then 1 else 0)
  else
    let lost := if shift > 0 then mb &&& (((1 : ULong) <<< shift.toNat) - 1) else 0
    let mb := if shift > 0 then mb >>> shift.toNat else mb
    if lost ≠ 0 then mb ||| 1 else mb

/-- The tail of `sfAdd`, entered with the larger exponent first. -/
def addAligned (sa : Bool) (ea : ℤ) (ma : ULong) (sb : Bool) (eb : ℤ) (mb : ULong) :
    ULong :=
  let mb := alignDown (ea - eb) mb
  let e := ea
  if sa = sb then sfPack sa e (ma + mb)
  else if ma = mb then 0
  else if mb < ma then sfPack sa e (ma - mb)
  else sfPack sb e (mb - ma)

def sfAdd (a b : ULong) : ULong :=
  if sfIsNan a || sfIsNan b then quietNan
  else if sfIsInf a then
    if sfIsInf b && sfSign a != sfSign b then quietNan else a
  else if sfIsInf b then b
  else if sfIsZero a then
    if sfIsZero b then (if sfSign a && sfSign b then signBit else 0) else b
  else if sfIsZero b then a
  else
    let (ea, ma) := sfUnpack a
    let (eb, mb) := sfUnpack b
    if ea < eb then addAligned (sfSign b) eb mb (sfSign a) ea ma
    else addAligned (sfSign a) ea ma (sfSign b) eb mb

def sfSub (a b : ULong) : ULong := sfAdd a (sfNeg b)

/-- `(s ? SIGNBIT : 0) | 0x7ff0000000000000`. -/
def signedInf (s : Bool) : ULong := (if s then signBit else 0) ||| infinity

/-- The two-word product `hi:lo` of two words from their 32-bit halves. -/
def mulWords (ma mb : ULong) : ULong × ULong :=
  let ah := ma >>> 32
  let al := ma &&& lowMask
  let bh := mb >>> 32
  let bl := mb &&& lowMask
  let lo := al * bl
  let mid1 := al * bh
  let mid2 := ah * bl
  let hi := ah * bh
  let carry := (lo >>> 32) + (mid1 &&& lowMask) + (mid2 &&& lowMask)
  let lo := (lo &&& lowMask) ||| (carry <<< 32)
  let hi := hi + (mid1 >>> 32) + (mid2 >>> 32) + (carry >>> 32)
  (hi, lo)

/-- The top 56 bits of a two-word product, the rest in the sticky bit, and how
far it was shifted. -/
def takeProduct (hi lo : ULong) : ULong × ℤ :=
  let len : ℕ := if hi ≠ 0 then 64 + bitLength hi else bitLength lo
  let k : ℤ := (len : ℤ) - 56
  let st : Bool := k > 0 && lo &&& (((1 : ULong) <<< k.toNat) - 1) != 0
  let sig := if k > 0 then (hi <<< (64 - k).toNat) ||| (lo >>> k.toNat) else lo
  (if st then sig ||| 1 else sig, k)

def sfMul (a b : ULong) : ULong :=
  let s := sfSign a ^^ sfSign b
  if sfIsNan a || sfIsNan b then quietNan
  else if sfIsInf a then (if sfIsZero b then quietNan else signedInf s)
  else if sfIsInf b then (if sfIsZero a then quietNan else signedInf s)
  else if sfIsZero a || sfIsZero b then (if s then signBit else 0)
  else
    let (ea, ma) := sfUnpack a
    let (eb, mb) := sfUnpack b
    let (hi, lo) := mulWords (ma >>> 3) (mb >>> 3)
    let (sig, k) := takeProduct hi lo
    sfPack s (ea + eb + k - 49) sig

/-- One step of the restoring division. -/
def divStep (mb : ULong) : ULong × ULong → ULong × ULong
  | (q, rem) =>
    let q := q <<< 1
    let rem := rem <<< 1
    if mb ≤ rem then (q ||| 1, rem - mb) else (q, rem)

/-- `while (i < n)`: quotient and remainder after `n` steps. -/
def divLoop (mb : ULong) : ℕ → ULong × ULong → ULong × ULong
  | 0, st => st
  | n + 1, st => divLoop mb n (divStep mb st)

/-- The significands the division loop works on, the dividend doubled when it
is the smaller, and what the doubling does to the exponent. -/
def divOperands (ma mb : ULong) : ULong × ULong × ℤ :=
  let ma := ma >>> 3
  let mb := mb >>> 3
  if ma < mb then (ma <<< 1, mb, -1) else (ma, mb, 0)

def sfDiv (a b : ULong) : ULong :=
  let s := sfSign a ^^ sfSign b
  if sfIsNan a || sfIsNan b then quietNan
  else if sfIsInf a then (if sfIsInf b then quietNan else signedInf s)
  else if sfIsInf b then (if s then signBit else 0)
  else if sfIsZero b then (if sfIsZero a then quietNan else signedInf s)
  else if sfIsZero a then (if s then signBit else 0)
  else
    let (ea, ma) := sfUnpack a
    let (eb, mb) := sfUnpack b
    let (ma, mb, adj) := divOperands ma mb
    let (q, rem) := divLoop mb 55 (1, ma - mb)
    let q := if rem ≠ 0 then q ||| 1 else q
    sfPack s (ea - eb + adj) q

end SoftFloat

end Veron
