/-
The decimal branch of `strtod_bits` over its five routines on numbers as a
parameter.  With the routines of the source it is the code; with an assertion in
front of each it stops where an operand is not clean or a result would not fit.
-/
import Veron.BignumSpec
import Veron.Strtod

namespace Veron

namespace Bignum

/-- `bmul`, `badd`, `bshl`, `bcmp` and `bsub`. -/
structure BigOps where
  mul : Big → ULong → Option Big
  add : Big → ULong → Option Big
  shl : Big → ℕ → Option Big
  cmp : Big → Big → Option ℤ
  sub : Big → Big → Option Big

def plainOps : BigOps := ⟨bmul, badd, bshl, bcmp, bsub⟩

/-- Every limb at or above the length is zero. -/
def Clean (x : Big) : Prop := ∀ i < nlimb, x.n ≤ i → digit x.limbs i = 0

instance (x : Big) : Decidable (Clean x) := by unfold Clean; infer_instance

/-- The routines with what they rely on asserted: a product, a sum and a shifted number
stay below 5120 bits, and a comparison and a subtraction find clean operands, the latter
the larger one first. -/
def assertedOps : BigOps where
  mul x m := if whole x.limbs * m.toNat < (2 ^ 32) ^ nlimb then bmul x m else none
  add x v := if whole x.limbs + v.toNat < (2 ^ 32) ^ nlimb then badd x v else none
  shl x k := if whole x.limbs * 2 ^ k < (2 ^ 32) ^ nlimb then bshl x k else none
  cmp a b := if Clean a ∧ Clean b then bcmp a b else none
  sub a b :=
    if Clean a ∧ Clean b ∧ whole b.limbs ≤ whole a.limbs then bsub a b else none

/-- Routines that compute what they should on numbers that fit. -/
structure BigOps.Sound (ops : BigOps) : Prop where
  mul : ∀ {x : Big} {v : ℕ} (_ : Holds x v) {m : ULong} (_ : 0 < m.toNat)
    (_ : m.toNat < 2 ^ 32) (_ : v * m.toNat < (2 ^ 32) ^ nlimb),
    ∃ x', ops.mul x m = some x' ∧ Holds x' (v * m.toNat)
  add : ∀ {x : Big} {v : ℕ} (_ : Holds x v) {c : ULong} (_ : c.toNat < 2 ^ 32)
    (_ : v + c.toNat < (2 ^ 32) ^ nlimb),
    ∃ x', ops.add x c = some x' ∧ Holds x' (v + c.toNat)
  shl : ∀ {x : Big} {v : ℕ} (_ : Holds x v) (_ : 0 < v) {k : ℕ}
    (_ : v * 2 ^ k < (2 ^ 32) ^ nlimb),
    ∃ x', ops.shl x k = some x' ∧ Holds x' (v * 2 ^ k)
  cmp : ∀ {a b : Big} {v w : ℕ} (_ : Denotes a v) (_ : Denotes b w),
    ∃ c, ops.cmp a b = some c ∧ (0 ≤ c ↔ w ≤ v)
  sub : ∀ {a b : Big} {v w : ℕ} (_ : Denotes a v) (_ : Denotes b w) (_ : w ≤ v),
    ∃ x, ops.sub a b = some x ∧ Holds x (v - w)

theorem plainOps_sound : plainOps.Sound :=
  ⟨bmul_spec, badd_spec, bshl_spec, bcmp_spec, bsub_spec⟩

theorem Denotes.clean {x : Big} {v : ℕ} (h : Denotes x v) : Clean x :=
  fun i _ hi => h.clear i hi

/-- What a number denotes is the number all its limbs write. -/
theorem Denotes.whole_eq {x : Big} {v : ℕ} (h : Denotes x v) : whole x.limbs = v := h.full

/-- On numbers the assertions hold. -/
theorem assertedOps_sound : assertedOps.Sound := by
  refine ⟨?_, ?_, ?_, ?_, ?_⟩
  · intro x v hx m hpos hm hfit
    simp only [assertedOps, hx.toDenotes.whole_eq, if_pos hfit]
    exact bmul_spec hx hpos hm hfit
  · intro x v hx c hc hfit
    simp only [assertedOps, hx.toDenotes.whole_eq, if_pos hfit]
    exact badd_spec hx hc hfit
  · intro x v hx hv k hfit
    simp only [assertedOps, hx.toDenotes.whole_eq, if_pos hfit]
    exact bshl_spec hx hv hfit
  · intro a b v w ha hb
    simp only [assertedOps, if_pos (And.intro ha.clean hb.clean)]
    exact bcmp_spec ha hb
  · intro a b v w ha hb hle
    simp only [assertedOps, ha.whole_eq, hb.whole_eq,
      if_pos (And.intro ha.clean (And.intro hb.clean hle))]
    exact bsub_spec ha hb hle

end Bignum

namespace Strtod

open Bignum

section Parametric

variable (ops : BigOps)

def scaleTenWith : ℕ → Big → Option Big
  | 0, x => some x
  | k + 1, x => do
      let x ← ops.mul x 10
      scaleTenWith k x

def loadDigitsWith : List ℕ → Big → Option Big
  | [], x => some x
  | d :: dig, x => do
      let x ← ops.mul x 10
      let x ← ops.add x (BitVec.ofNat 64 d)
      loadDigitsWith dig x

def integerBitsWith (neg : Bool) (num : Big) (dexp : ℕ) (extra : Bool) : Option ULong := do
  let num ← scaleTenWith ops dexp num
  let b ← bbits num
  let (sig, sticky, _) ← btop num 54
  let sticky := sticky || extra
  let sig := if b < 54 then sig <<< (54 - b) else sig
  some (assemble neg sig sticky ((b : ℤ) - 1))

def divStepWith (den : Big) (j : ℕ) (num : Big) (quo : Limbs) : Option (Big × Limbs) := do
  let t ← copyLimbs den.limbs den.n 0 zeroLimbs
  let t ← ops.shl ⟨t, den.n⟩ j
  let c ← ops.cmp num t
  if 0 ≤ c then do
    let num ← ops.sub num t
    let quo ← setBit quo j
    some (num, quo)
  else some (num, quo)

def longDivWith (den : Big) : ℕ → Big → Limbs → Option (Big × Limbs)
  | 0, num, quo => some (num, quo)
  | j + 1, num, quo => do
      let (num, quo) ← divStepWith ops den j num quo
      longDivWith den j num quo

def fractionBitsWith (neg : Bool) (num : Big) (nd : ℕ) (extra : Bool) : Option ULong := do
  let den ← bset 1
  let den ← scaleTenWith ops nd den
  let dbits ← bbits den
  let nbits ← bbits num
  let shiftby : ℤ := (dbits : ℤ) - nbits + 60
  let shiftby := if shiftby < 0 then 0 else shiftby
  let num ← ops.shl num shiftby.toNat
  let nbits ← bbits num
  let qbits : ℤ := (nbits : ℤ) - dbits + 1
  let qbits := if qbits < 1 then 1 else qbits
  let (num, quo) ← longDivWith ops den qbits.toNat num zeroLimbs
  let rest ← bzero num
  let b ← bbits ⟨quo, nlimb⟩
  let (sig, qsticky, _) ← btop ⟨quo, nlimb⟩ 54
  let sticky := !rest || extra || qsticky
  let sig := if b < 54 then sig <<< (54 - b) else sig
  some (assemble neg sig sticky ((b : ℤ) - 1 - shiftby))

def decimalBitsWith (neg : Bool) (dig : List ℕ) (dexp : ℤ) (extra : Bool) : Option ULong :=
  if dig.length = 0 then some (withNeg neg 0)
  else if (dig.length : ℤ) + dexp > 320 then some (withNeg neg 0x7ff0000000000000)
  else if (dig.length : ℤ) + dexp < -350 then some (withNeg neg 0)
  else do
    let num ← bset 0
    let num ← loadDigitsWith ops dig num
    if dexp ≥ 0 then integerBitsWith ops neg num dexp.toNat extra
    else fractionBitsWith ops neg num (-dexp).toNat extra

def strtodBitsWith (s : List Char) : Option (ULong × List Char) :=
  let (neg, p) := scanSign (s.dropWhile isSpace)
  if hexStart p then some (hexBits neg (p.drop 2))
  else
    let (st, p) := scanDigits p
    if st.seen then do
      let (ex, p) := scanExp ['e', 'E'] p
      let r ← decimalBitsWith ops neg st.dig (st.dexp + ex) st.extra
      some (r, p)
    else some (0, s)

end Parametric

theorem scaleTenWith_plain (k : ℕ) (x : Big) : scaleTenWith plainOps k x = scaleTen k x := by
  induction k generalizing x with
  | zero => rfl
  | succ k ih =>
      rw [scaleTenWith, scaleTen]
      exact bind_congr fun x => ih x

theorem loadDigitsWith_plain (dig : List ℕ) (x : Big) :
    loadDigitsWith plainOps dig x = loadDigits dig x := by
  induction dig generalizing x with
  | nil => rfl
  | cons d dig ih =>
      rw [loadDigitsWith, loadDigits]
      exact bind_congr fun x => bind_congr fun x => ih x

theorem longDivWith_plain (den : Big) (k : ℕ) (num : Big) (quo : Limbs) :
    longDivWith plainOps den k num quo = longDiv den k num quo := by
  induction k generalizing num quo with
  | zero => rfl
  | succ j ih =>
      rw [longDivWith, longDiv]
      exact bind_congr fun out => ih out.1 out.2

/-- With the routines of the source it is the code. -/
theorem decimalBitsWith_plain (neg : Bool) (dig : List ℕ) (dexp : ℤ) (extra : Bool) :
    decimalBitsWith plainOps neg dig dexp extra = decimalBits neg dig dexp extra := by
  simp only [decimalBitsWith, decimalBits, integerBitsWith, integerBits, fractionBitsWith,
    fractionBits, scaleTenWith_plain, loadDigitsWith_plain, longDivWith_plain]
  rfl

theorem strtodBitsWith_plain (s : List Char) : strtodBitsWith plainOps s = strtodBits s := by
  simp only [strtodBitsWith, strtodBits, decimalBitsWith_plain]

end Strtod

end Veron
