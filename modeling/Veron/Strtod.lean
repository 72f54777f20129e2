/-
`strtod_bits` of the bootstrap libc: the text of a number to its binary64
pattern without any floating point.  A string is the list of its characters
before the NUL, and the end pointer is what is left of it.
-/
import Veron.Bignum

namespace Veron

namespace Strtod

open Bignum

/-- `NDIG`. -/
def ndigMax : ℕ := 800

/-- `if (neg) out = out | SIGNBIT;`. -/
def withNeg (neg : Bool) (out : ULong) : ULong :=
  if neg then out ||| 0x8000000000000000 else out

/-- `assemble` from the rounding on; `sub` is its flag for a significand that
was shifted down. -/
def assembleRounded (neg sub : Bool) (sig54 : ULong) (sticky : Bool) (topexp : ℤ) :
    ULong :=
  let mant := sig54 >>> 1
  let rbit := sig54 &&& 1
  let (mant, e) :=
    if rbit ≠ 0 ∧ (sticky = true ∨ mant &&& 1 ≠ 0) then
      if mant + 1 = 0x20000000000000 then ((mant + 1) >>> 1, topexp + 1)
      else (mant + 1, topexp)
    else (mant, topexp)
  let e := if sub then 0 else e + 1023
  if e ≥ 2047 then withNeg neg 0x7ff0000000000000
  else if e ≤ 0 then withNeg neg mant
  else withNeg neg ((BitVec.ofInt 64 e <<< 52) ||| (mant &&& 0xfffffffffffff))

/-- A 54-bit significand whose low bit is the round bit, a sticky flag, and the
exponent of the significand's top bit. -/
def assemble (neg : Bool) (sig54 : ULong) (sticky : Bool) (topexp : ℤ) : ULong :=
  if sig54 = 0 then withNeg neg 0
  else if topexp < -1022 then
    let drop := -1022 - topexp
    if drop ≥ 54 then withNeg neg 0
    else
      let lost := sig54 &&& (((1 : ULong) <<< drop.toNat) - 1)
      let sticky := sticky || lost != 0
      let sig54 := sig54 >>> drop.toNat
      if sig54 = 0 then (if sticky then withNeg neg 1 else withNeg neg 0)
      else assembleRounded neg true sig54 sticky (topexp + drop)
  else assembleRounded neg false sig54 sticky topexp

def isDigit (c : Char) : Bool := '0' ≤ c && c ≤ '9'

/-- `*p - '0'`. -/
def digitVal (c : Char) : ℕ := c.toNat - '0'.toNat

def ishex (c : Char) : Bool :=
  ('0' ≤ c && c ≤ '9') || ('a' ≤ c && c ≤ 'f') || ('A' ≤ c && c ≤ 'F')

def hexval (c : Char) : ℕ :=
  if '0' ≤ c ∧ c ≤ '9' then c.toNat - '0'.toNat
  else if 'a' ≤ c ∧ c ≤ 'f' then c.toNat - 'a'.toNat + 10
  else c.toNat - 'A'.toNat + 10

def isSpace (c : Char) : Bool := c == ' ' || c == '\t' || c == '\n' || c == '\r'

/-- `if (*p == '-') { neg = 1; p++; } else if (*p == '+') p++;`. -/
def scanSign : List Char → Bool × List Char
  | '-' :: p => (true, p)
  | '+' :: p => (false, p)
  | p => (false, p)

/-- The exponent digits: `if (ex < 100000) ex = ex * 10 + (*p - '0');`. -/
def expLoop : List Char → ℕ → ℕ × List Char
  | c :: p, ex =>
      if isDigit c then expLoop p (if ex < 100000 then ex * 10 + digitVal c else ex)
      else (ex, c :: p)
  | [], ex => (ex, [])

/-- An exponent part after one of `marks`, or nothing taken when no digit
follows. -/
def scanExp (marks : List Char) : List Char → ℤ × List Char
  | c :: p =>
      if c ∈ marks then
        let (expneg, q) := scanSign p
        if q.head?.any isDigit then
          let (ex, rest) := expLoop q 0
          (if expneg then -(ex : ℤ) else ex, rest)
        else (0, c :: p)
      else (0, c :: p)
  | [] => (0, [])

section Hex

/-- `0x` with at least one hexadecimal digit, possibly after a point. -/
def hexStart : List Char → Bool
  | '0' :: x :: c :: p =>
      (x == 'x' || x == 'X') && (ishex c || (c == '.' && p.head?.any ishex))
  | _ => false

structure HexScan where
  m : ULong
  bexp : ℤ
  sticky : Bool

/-- The digits before or after the point: a digit that is kept moves the
exponent by `kept`, one that no longer fits by `dropped`. -/
def hexLoop (kept dropped : ℤ) : List Char → HexScan → HexScan × List Char
  | c :: p, st =>
      if ishex c then
        if st.m < 0x1000000000000000 then
          hexLoop kept dropped p
            ⟨(st.m <<< 4) ||| BitVec.ofNat 64 (hexval c), st.bexp + kept, st.sticky⟩
        else
          hexLoop kept dropped p
            ⟨st.m, st.bexp + dropped, st.sticky || hexval c != 0⟩
      else (st, c :: p)
  | [], st => (st, [])

def hexFraction (st : HexScan) : List Char → HexScan × List Char
  | '.' :: p => hexLoop (-4) 0 p st
  | p => (st, p)

/-- The hexadecimal branch, entered after `0x`. -/
def hexBits (neg : Bool) (p : List Char) : ULong × List Char :=
  let (st, p) := hexLoop 0 4 p ⟨0, 0, false⟩
  let (st, p) := hexFraction st p
  let (en, p) := scanExp ['p', 'P'] p
  let bexp := st.bexp + en
  if st.m = 0 then (withNeg neg 0, p)
  else
    let b := bitLength st.m
    if b > 54 then
      let drop := b - 54
      let lost := st.m &&& (((1 : ULong) <<< drop) - 1)
      (assemble neg (st.m >>> drop) (st.sticky || lost != 0) (bexp + drop + 53), p)
    else (assemble neg (st.m <<< (54 - b)) st.sticky (bexp - (54 - b : ℕ) + 53), p)

end Hex

section Decimal

/-- `DIG` up to `ndig`, `dexp`, `seen` and `extra`. -/
structure DecScan where
  dig : List ℕ
  dexp : ℤ
  seen : Bool
  extra : Bool

/-- `while (*p == '0') { seen = 1; ...; p++; }`, with `shift` for what else it
does to the exponent. -/
def zeroLoop (shift : ℤ) : List Char → DecScan → DecScan × List Char
  | c :: p, st =>
      if c = '0' then zeroLoop shift p { st with seen := true, dexp := st.dexp + shift }
      else (st, c :: p)
  | [], st => (st, [])

/-- The digits before or after the point: a digit that is kept moves the
exponent by `kept`, one past the cap by `dropped`. -/
def digitLoop (kept dropped : ℤ) : List Char → DecScan → DecScan × List Char
  | c :: p, st =>
      if isDigit c then
        if st.dig.length < ndigMax then
          digitLoop kept dropped p
            ⟨st.dig ++ [digitVal c], st.dexp + kept, true, st.extra⟩
        else
          digitLoop kept dropped p ⟨st.dig, st.dexp + dropped, true, st.extra || c != '0'⟩
      else (st, c :: p)
  | [], st => (st, [])

def scanFraction (st : DecScan) : List Char → DecScan × List Char
  | '.' :: p =>
      let (st, p) := if st.dig.length = 0 then zeroLoop (-1) p st else (st, p)
      digitLoop (-1) 0 p st
  | p => (st, p)

/-- The digits of the number, up to the exponent part. -/
def scanDigits (p : List Char) : DecScan × List Char :=
  let (st, p) := zeroLoop 0 p ⟨[], 0, false, false⟩
  let (st, p) := digitLoop 0 1 p st
  scanFraction st p

/-- `while (i < k) { bmul(a, n, 10); i++; }`. -/
def scaleTen : ℕ → Big → Option Big
  | 0, x => some x
  | k + 1, x => do
      let x ← bmul x 10
      scaleTen k x

/-- `bmul(NUM, &NUMN, 10); badd(NUM, &NUMN, DIG[i]);` for each digit. -/
def loadDigits : List ℕ → Big → Option Big
  | [], x => some x
  | d :: dig, x => do
      let x ← bmul x 10
      let x ← badd x (BitVec.ofNat 64 d)
      loadDigits dig x

/-- The integer branch, `dexp >= 0`. -/
def integerBits (neg : Bool) (num : Big) (dexp : ℕ) (extra : Bool) : Option ULong := do
  let num ← scaleTen dexp num
  let b ← bbits num
  let (sig, sticky, _) ← btop num 54
  let sticky := sticky || extra
  let sig := if b < 54 then sig <<< (54 - b) else sig
  some (assemble neg sig sticky ((b : ℤ) - 1))

/-- One step of the long division: subtract `den << j` if it fits, and set bit
`j` of the quotient. -/
def divStep (den : Big) (j : ℕ) (num : Big) (quo : Limbs) : Option (Big × Limbs) := do
  let t ← copyLimbs den.limbs den.n 0 zeroLimbs
  let t ← bshl ⟨t, den.n⟩ j
  let c ← bcmp num t
  if 0 ≤ c then do
    let num ← bsub num t
    let quo ← setBit quo j
    some (num, quo)
  else some (num, quo)

/-- `while (j >= 0)`, from bit `k - 1` down. -/
def longDiv (den : Big) : ℕ → Big → Limbs → Option (Big × Limbs)
  | 0, num, quo => some (num, quo)
  | j + 1, num, quo => do
      let (num, quo) ← divStep den j num quo
      longDiv den j num quo

/-- The fraction branch, `dexp < 0`, for `nd = -dexp`. -/
def fractionBits (neg : Bool) (num : Big) (nd : ℕ) (extra : Bool) : Option ULong := do
  let den ← bset 1
  let den ← scaleTen nd den
  let dbits ← bbits den
  let nbits ← bbits num
  let shiftby : ℤ := (dbits : ℤ) - nbits + 60
  let shiftby := if shiftby < 0 then 0 else shiftby
  let num ← bshl num shiftby.toNat
  let nbits ← bbits num
  let qbits : ℤ := (nbits : ℤ) - dbits + 1
  let qbits := if qbits < 1 then 1 else qbits
  let (num, quo) ← longDiv den qbits.toNat num zeroLimbs
  let rest ← bzero num
  let b ← bbits ⟨quo, nlimb⟩
  let (sig, qsticky, _) ← btop ⟨quo, nlimb⟩ 54
  let sticky := !rest || extra || qsticky
  let sig := if b < 54 then sig <<< (54 - b) else sig
  some (assemble neg sig sticky ((b : ℤ) - 1 - shiftby))

/-- From the scanned digits to the pattern. -/
def decimalBits (neg : Bool) (dig : List ℕ) (dexp : ℤ) (extra : Bool) : Option ULong :=
  if dig.length = 0 then some (withNeg neg 0)
  else if (dig.length : ℤ) + dexp > 320 then some (withNeg neg 0x7ff0000000000000)
  else if (dig.length : ℤ) + dexp < -350 then some (withNeg neg 0)
  else do
    let num ← bset 0
    let num ← loadDigits dig num
    if dexp ≥ 0 then integerBits neg num dexp.toNat extra
    else fractionBits neg num (-dexp).toNat extra

end Decimal

/-- The pattern and the rest of the string; no result means an access outside
an array. -/
def strtodBits (s : List Char) : Option (ULong × List Char) :=
  let (neg, p) := scanSign (s.dropWhile isSpace)
  if hexStart p then some (hexBits neg (p.drop 2))
  else
    let (st, p) := scanDigits p
    if st.seen then do
      let (ex, p) := scanExp ['e', 'E'] p
      let r ← decimalBits neg st.dig (st.dexp + ex) st.extra
      some (r, p)
    else some (0, s)

end Strtod

end Veron
