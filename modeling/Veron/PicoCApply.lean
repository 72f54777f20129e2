/-
What pico-c, `pico-c-arm64.s`, emits for the operators of an expression.  Definitions carry
the labels of that source; the values of the operands are on a stack that x9 points to the end of.
-/
import Mathlib.Algebra.Group.Nat.Defs
import Mathlib.Data.Nat.Notation

namespace Veron.PicoC

def spoppop : List Char := "sub x9 x9 8\nldr x0 x9\nsub x9 x9 8\nldr x1 x9\n".toList
def spush : List Char := "\nstr x0 x9\nadd x9 x9 8\n".toList
def saddr : List Char := "add x0 x1 x0".toList
def sandr : List Char := "and x0 x1 x0".toList
def sorrr : List Char := "orr x0 x1 x0".toList
def seorr : List Char := "eor x0 x1 x0".toList
def slslr : List Char := "lsl x0 x1 x0".toList
def slsrr : List Char := "lsr x0 x1 x0".toList
def ssubr : List Char := "sub x0 x1 x0".toList
def smulr : List Char := "mul x0 x1 x0".toList
def sdivr : List Char := "udiv x0 x1 x0".toList
def smodr : List Char := "udiv x2 x1 x0\nmul x2 x2 x0\nsub x0 x1 x2".toList
def scmplt : List Char := "sub x0 x1 x0\nmov x2 63\nlsr x0 x0 x2".toList
def scmpgt : List Char := "sub x0 x0 x1\nmov x2 63\nlsr x0 x0 x2".toList

def scmpne : List Char :=
  "sub x0 x1 x0\nmov x2 0\nsub x2 x2 x0\norr x0 x0 x2\nmov x2 63\nlsr x0 x0 x2".toList

def sflip : List Char := "\nmov x2 1\nsub x0 x2 x0".toList

/-- An index scaled for a pointer to words, on the right and on the left. -/
def ssclrf : List Char := "mov x3 3\nlsl x0 x0 x3\n".toList
def sscllf : List Char := "mov x3 3\nlsl x1 x1 x3\n".toList
def sdiv8f : List Char := "\nmov x3 3\nlsr x0 x0 x3".toList

def spop1 : List Char := "sub x9 x9 8\nldr x0 x9\n".toList
def suneg : List Char := "mov x2 0\nsub x0 x2 x0\nstr x0 x9\nadd x9 x9 8\n".toList

def subnot : List Char :=
  "mov x2 0\nsub x0 x2 x0\nmov x2 1\nsub x0 x0 x2\nstr x0 x9\nadd x9 x9 8\n".toList

def sunot : List Char :=
  "mov x2 0\nsub x2 x2 x0\norr x0 x0 x2\nmov x2 63\nlsr x0 x0 x2\nmov x2 1\nsub x0 x2 x0\n".toList
    ++ "str x0 x9\nadd x9 x9 8\n".toList

/-- The tests of `&&` and `||`, up to the number of the label they branch to. -/
def sscand : List Char :=
  "sub x9 x9 8\nldr x0 x9\nmov x1 0\nstr x1 x9\nadd x9 x9 8\ncmp x0 0\nb.eq __L".toList

def sscor : List Char :=
  "sub x9 x9 8\nldr x0 x9\nmov x1 1\nstr x1 x9\nadd x9 x9 8\ncmp x0 0\nb.ne __L".toList

def snlonly : List Char := ['\n']
def sdiscard : List Char := "sub x9 x9 8\n".toList

def sscnorm : List Char :=
  "sub x9 x9 8\nldr x0 x9\nmov x2 0\nsub x2 x2 x0\norr x0 x0 x2\nmov x2 63\nlsr x0 x0 x2\n".toList
    ++ "str x0 x9\nadd x9 x9 8\n".toList

def sdeflab : List Char := ":__L".toList

/-- The digit loop `p6l`, from the last digit on. -/
def p6l : ℕ → ℕ → List Char → List Char
  | 0, _, ds => ds
  | k + 1, n, ds => p6l k (n / 10) (Char.ofNat (n % 10 + 48) :: ds)

/-- Nine digits; a number with more ends the run with `sposover`. -/
def pos6 (n : ℕ) : Option (List Char) := if 1000000000 ≤ n then none else some (p6l 9 n [])

def emitlid (n : ℕ) : Option (List Char) := pos6 n

def emitdef (n : ℕ) : Option (List Char) := (emitlid n).map fun id => sdeflab ++ id ++ ['\n']

/-- What is emitted when an operator is pushed, its right operand still to come: for `&&` and
`||` the test of the left one, with a new label. -/
def cepushop (op label : ℕ) : Option (List Char) :=
  if op = 11 then (emitlid label).map fun id => sscand ++ id ++ snlonly ++ sdiscard
  else if op = 12 then (emitlid label).map fun id => sscor ++ id ++ snlonly ++ sdiscard
  else some []

/-- `eaop`: an operation whose result is an integer. -/
def eaop (s : List Char) : List Char × ℕ := (s ++ spush, 0)

/-- The type of a value is 0, or for a pointer the size of what it points to. -/
def ea_add (left right : ℕ) : List Char × ℕ :=
  if left = 0 then
    if right = 0 then (saddr ++ spush, 0)
    else ((if right = 8 then sscllf else []) ++ saddr ++ spush, right)
  else if right = 0 then ((if left = 8 then ssclrf else []) ++ saddr ++ spush, left)
  else (saddr ++ spush, 0)

def ea_sub (left right : ℕ) : List Char × ℕ :=
  if left = 0 then (ssubr ++ spush, 0)
  else if right = 0 then ((if left = 8 then ssclrf else []) ++ ssubr ++ spush, left)
  else (ssubr ++ (if left = 8 then sdiv8f else []) ++ spush, 0)

/-- The operation of an operator on x1 and x0, pushed, and the type of its result. -/
def eaBinary (op left right : ℕ) : List Char × ℕ :=
  match op with
  | 60 => eaop scmplt
  | 62 => eaop scmpgt
  | 42 => eaop smulr
  | 45 => ea_sub left right
  | 1 => eaop (scmpgt ++ sflip)
  | 2 => eaop (scmplt ++ sflip)
  | 3 => eaop (scmpne ++ sflip)
  | 4 => eaop scmpne
  | 47 => eaop sdivr
  | 37 => eaop smodr
  | 38 => eaop sandr
  | 124 => eaop sorrr
  | 94 => eaop seorr
  | 5 => eaop slslr
  | 6 => eaop slsrr
  | _ => ea_add left right

/-- The operations of `!`, unary minus and `~`. -/
def eaUnary : ℕ → Option (List Char)
  | 7 => some (spop1 ++ sunot)
  | 8 => some (spop1 ++ suneg)
  | 9 => some (spop1 ++ subnot)
  | _ => none

/-- What is emitted for an operator whose operands are on the value stack, and the types of
the values there, the last one first.  `label` is the one that `cepushop` took. -/
def emitapply (op label : ℕ) (types : List ℕ) : Option (List Char × List ℕ) :=
  match eaUnary op, types with
  | some s, _ :: types => some (s, 0 :: types)
  | none, right :: left :: types =>
      if op = 11 ∨ op = 12 then
        (emitdef label).map fun s => (sscnorm ++ s, 0 :: types)
      else
        let (s, type) := eaBinary op left right
        some (spoppop ++ s, type :: types)
  | _, _ => none

end Veron.PicoC
