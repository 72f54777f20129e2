/-
The expressions of `#if`: their grammar and their values in C, and the grouping of operators that
micro-c reads.  The `int` of the compiler has 32 bits.
-/
import Veron.MicroCLookups

namespace Veron.MicroC

open SelfAssembler (Byte ch text)

/-- `__set_reader` of `bootstrappable.c` past a sign, for the digits of a base. -/
def setReader (base : ℕ) : ℤ → Token → ℤ
  | n, [] => n
  | n, c :: t =>
      if c = ch '_' then setReader base n t
      else match char2hex c with
        | none => 0
        | some digit => if digit < base then setReader base (wrap32 (n * base + digit)) t else 0

/-- The prefixes of `strtoint`. -/
def intBase (a : Token) : ℕ × Token :=
  if at' a 0 = ch '0' ∧ at' a 1 = ch 'b' then (2, a.drop 2)
  else if at' a 0 = ch '0' ∧ at' a 1 = ch 'x' then (16, a.drop 2)
  else if at' a 0 = ch '0' then (8, a.drop 1)
  else (10, a)

def strtoint (a : Token) : ℤ :=
  let (base, input) := intBase a
  if at' input 0 = ch '-' then wrap32 (0 - setReader base 0 (input.drop 1))
  else setReader base 0 input

/-- Results wrap around, and of the count of a shift the low five bits are used. -/
def int32 : IntType where
  apply op l r :=
    if op = text ['+'] then wrap32 (l + r)
    else if op = text ['-'] then wrap32 (l - r)
    else if op = text ['*'] then wrap32 (l * r)
    else if op = text ['/'] then wrap32 (l.tdiv r)
    else if op = text ['%'] then wrap32 (l.tmod r)
    else if op = text ['<', '<'] then wrap32 (l * 2 ^ (r % 32).toNat)
    else if op = text ['>', '>'] then l >>> (r % 32).toNat
    else if op = text ['&'] then (BitVec.ofInt 32 l &&& BitVec.ofInt 32 r).toInt
    else if op = text ['^'] then (BitVec.ofInt 32 l ^^^ BitVec.ofInt 32 r).toInt
    else (BitVec.ofInt 32 l ||| BitVec.ofInt 32 r).toInt
  strtoint := strtoint

inductive BinOp where
  | mul | div | rem | add | sub | shl | shr | lt | le | gt | ge | eq | ne | and | xor | or
  | land | lor
deriving DecidableEq, Repr

namespace BinOp

def spelling : BinOp → Token
  | mul => text ['*']
  | div => text ['/']
  | rem => text ['%']
  | add => text ['+']
  | sub => text ['-']
  | shl => text ['<', '<']
  | shr => text ['>', '>']
  | lt => text ['<']
  | le => text ['<', '=']
  | gt => text ['>']
  | ge => text ['>', '=']
  | eq => text ['=', '=']
  | ne => text ['!', '=']
  | and => text ['&']
  | xor => text ['^']
  | or => text ['|']
  | land => text ['&', '&']
  | lor => text ['|', '|']

/-- The precedence of C, the tightest operators highest. -/
def level : BinOp → ℕ
  | mul | div | rem => 10
  | add | sub => 9
  | shl | shr => 8
  | lt | le | gt | ge => 7
  | eq | ne => 6
  | and => 5
  | xor => 4
  | or => 3
  | land => 2
  | lor => 1

/-- The three levels of micro-c: its bitwise, relational and additive expressions. -/
def rank : BinOp → ℕ
  | mul | div | rem | add | sub | shl | shr => 2
  | lt | le | gt | ge | eq | ne => 1
  | and | xor | or | land | lor => 0

/-- A value that an `int` of 32 bits has. -/
def fits (v : ℤ) : Option ℤ := if -2 ^ 31 ≤ v ∧ v < 2 ^ 31 then some v else none

/-- The value of C, where no `int` of 32 bits overflows. -/
def eval (l r : ℤ) : BinOp → Option ℤ
  | mul => fits (l * r)
  | div => if r = 0 then none else fits (l.tdiv r)
  | rem => if r = 0 then none else (fits (l.tdiv r)).bind fun _ => fits (l.tmod r)
  | add => fits (l + r)
  | sub => fits (l - r)
  | shl => if 0 ≤ r ∧ r < 32 then fits (l * 2 ^ r.toNat) else none
  | shr => if 0 ≤ r ∧ r < 32 then some (l >>> r.toNat) else none
  | lt => some (if l < r then 1 else 0)
  | le => some (if l ≤ r then 1 else 0)
  | gt => some (if l > r then 1 else 0)
  | ge => some (if l ≥ r then 1 else 0)
  | eq => some (if l = r then 1 else 0)
  | ne => some (if l ≠ r then 1 else 0)
  | and => some (BitVec.ofInt 32 l &&& BitVec.ofInt 32 r).toInt
  | xor => some (BitVec.ofInt 32 l ^^^ BitVec.ofInt 32 r).toInt
  | or => some (BitVec.ofInt 32 l ||| BitVec.ofInt 32 r).toInt
  | land => some (if l ≠ 0 ∧ r ≠ 0 then 1 else 0)
  | lor => some (if l ≠ 0 ∨ r ≠ 0 then 1 else 0)

/-- The value that micro-c computes; it stops at a division by zero. -/
def run (l r : ℤ) (o : BinOp) : Option ℤ :=
  if o = div ∨ o = rem then if r = 0 then none else some (int32.apply o.spelling l r)
  else if o.rank = 1 then some (if relation? o.spelling l r = some true then 1 else 0)
  else if o = land then some (if l ≠ 0 ∧ r ≠ 0 then 1 else 0)
  else if o = lor then some (if l ≠ 0 ∨ r ≠ 0 then 1 else 0)
  else some (int32.apply o.spelling l r)

/-- `x o (y p z)` is `(x o y) p z`, whatever the operands are. -/
def associates (o p : BinOp) : Bool :=
  (o, p) ∈ [(add, add), (add, sub), (mul, mul), (mul, shl), (and, and), (xor, xor), (or, or),
    (land, land), (lor, lor)]

end BinOp

inductive Expr where
  | number (t : Lexeme)
  | identifier (t : Lexeme)
  | isDefined (keyword name : Lexeme)
  | isDefinedParen (keyword opening name closing : Lexeme)
  | paren (opening : Lexeme) (e : Expr) (closing : Lexeme)
  | neg (t : Lexeme) (e : Expr)
  | not (t : Lexeme) (e : Expr)
  | binary (o : BinOp) (t : Lexeme) (l r : Expr)

/-- The text of a decimal literal. -/
def IsDecimal (s : Token) : Prop :=
  s = text ['0'] ∨ (∀ c ∈ s, inSet c decimals = true) ∧ s ≠ [] ∧ at' s 0 ≠ ch '0'

/-- The number that digits are. -/
def decimal (s : Token) : ℕ := s.foldl (fun n c => n * 10 + (c.toNat - 48)) 0

def definedName : Token := text ['d', 'e', 'f', 'i', 'n', 'e', 'd']

structure IsIdentifier (s : Token) : Prop where
  letter : inSet (at' s 0) letters = true
  keyword : s ≠ definedName

namespace Expr

def tokens : Expr → List Lexeme
  | number t => [t]
  | identifier t => [t]
  | isDefined keyword name => [keyword, name]
  | isDefinedParen keyword opening name closing => [keyword, opening, name, closing]
  | paren opening e closing => opening :: (e.tokens ++ [closing])
  | neg t e => t :: e.tokens
  | not t e => t :: e.tokens
  | binary _ t l r => l.tokens ++ t :: r.tokens

def level : Expr → ℕ
  | binary o _ _ _ => o.level
  | _ => 11

def rank : Expr → ℕ
  | binary o _ _ _ => o.rank
  | _ => 3

/-- The grammar of C: operators of one level group to the left. -/
def Grammatical : Expr → Prop
  | number t => IsDecimal t.s
  | identifier t => IsIdentifier t.s
  | isDefined keyword name => keyword.s = definedName ∧ IsIdentifier name.s
  | isDefinedParen keyword opening name closing =>
      keyword.s = definedName ∧ opening.s = text ['('] ∧ IsIdentifier name.s ∧
        closing.s = text [')']
  | paren opening e closing =>
      opening.s = text ['('] ∧ e.Grammatical ∧ closing.s = text [')']
  | neg t e => t.s = text ['-'] ∧ e.Grammatical ∧ e.level = 11
  | not t e => t.s = text ['!'] ∧ e.Grammatical ∧ e.level = 11
  | binary o t l r =>
      t.s = o.spelling ∧ l.Grammatical ∧ r.Grammatical ∧ o.level ≤ l.level ∧ o.level < r.level

end Expr

/-- An identifier stands for a value after `n` macros: one that is no macro for zero, a macro for
the literal or for the macro that is its expansion. -/
inductive Expands (env : List Macro) : ℕ → Lexeme → ℤ → Prop where
  | undefined {t : Lexeme} : (lookupMacro env t).2 = none → Expands env 0 t 0
  | literal {t u : Lexeme} {hold : Macro} : (lookupMacro env t).2 = some hold →
      hold.arguments = none → hold.expansion = [u] → (lookupMacro env u).2 = none →
      IsDecimal u.s → decimal u.s < 2 ^ 31 → Expands env 1 t (decimal u.s)
  | chain {n : ℕ} {t u : Lexeme} {hold next : Macro} {v : ℤ} :
      (lookupMacro env t).2 = some hold → hold.arguments = none → hold.expansion = [u] →
      (lookupMacro env u).2 = some next → next.symbol ≠ hold.symbol → Expands env n u v →
      Expands env (n + 1) t v

/-- The value of an expression in C. -/
inductive Expr.Value (env : List Macro) : Expr → ℤ → Prop where
  | number {t : Lexeme} : decimal t.s < 2 ^ 31 → Value env (.number t) (decimal t.s)
  | identifier {n : ℕ} {t : Lexeme} {v : ℤ} : Expands env n t v → Value env (.identifier t) v
  | isDefined {keyword name : Lexeme} :
      Value env (.isDefined keyword name) (if (lookupMacro env name).2.isSome then 1 else 0)
  | isDefinedParen {keyword opening name closing : Lexeme} :
      Value env (.isDefinedParen keyword opening name closing)
        (if (lookupMacro env name).2.isSome then 1 else 0)
  | paren {opening closing : Lexeme} {e : Expr} {v : ℤ} :
      Value env e v → Value env (.paren opening e closing) v
  | neg {t : Lexeme} {e : Expr} {v w : ℤ} :
      Value env e v → BinOp.fits (-v) = some w → Value env (.neg t e) w
  | not {t : Lexeme} {e : Expr} {v : ℤ} :
      Value env e v → Value env (.not t e) (if v = 0 then 1 else 0)
  | binary {o : BinOp} {t : Lexeme} {l r : Expr} {a b v : ℤ} :
      Value env l a → Value env r b → o.eval a b = some v → Value env (.binary o t l r) v

namespace Expr

/-- What an identifier is for `macro_variable`. -/
def variableValue (env : List Macro) (t : Lexeme) : Option ℤ :=
  match macroVariable int32 env t [] with
  | .ok (v, _, _) => some v
  | .error _ => none

/-- The value that the compiler computes of an expression grouped like this. -/
def run (env : List Macro) : Expr → Option ℤ
  | number t => some (strtoint t.s)
  | identifier t => variableValue env t
  | isDefined _ name => some (if (lookupMacro env name).2.isSome then 1 else 0)
  | isDefinedParen _ _ name _ => some (if (lookupMacro env name).2.isSome then 1 else 0)
  | paren _ e _ => e.run env
  | neg _ e => do
      let v ← e.run env
      some (int32.apply (text ['-']) 0 v)
  | not _ e => do
      let v ← e.run env
      some (if v = 0 then 1 else 0)
  | binary o _ l r => do
      let a ← l.run env
      let b ← r.run env
      o.run a b

/-- An expression with an operator and an operand behind it, the operators of one rank grouped to
the right. -/
def attach : Expr → BinOp → Lexeme → Expr → Expr
  | binary p u l r, o, t, x =>
      if p.rank = o.rank then binary p u l (r.attach o t x) else binary o t (binary p u l r) x
  | e, o, t, x => binary o t e x

/-- The same tokens, with the operators of each rank grouped to the right. -/
def grouped : Expr → Expr
  | paren opening e closing => paren opening e.grouped closing
  | neg t e => neg t e.grouped
  | not t e => not t e.grouped
  | binary o t l r => l.grouped.attach o t r.grouped
  | e => e

/-- The operators at the end of an expression, of the rank of `o`, associate with `o`. -/
def Ends (o : BinOp) : Expr → Prop
  | binary p _ _ r => p.rank = o.rank → p.associates o = true ∧ r.Ends o
  | _ => True

/-- Every operator associates with those of its rank that its left operand ends in. -/
def Associates : Expr → Prop
  | paren _ e _ => e.Associates
  | neg _ e => e.Associates
  | not _ e => e.Associates
  | binary o _ l r => l.Ends o ∧ l.Associates ∧ r.Associates
  | _ => True

/-- No identifier goes through more macros than `macro_variable` follows. -/
def ShortChains (env : List Macro) : Expr → Prop
  | identifier t => ∃ n v, n ≤ 65 ∧ Expands env n t v
  | paren _ e _ => e.ShortChains env
  | neg _ e => e.ShortChains env
  | not _ e => e.ShortChains env
  | binary _ _ l r => l.ShortChains env ∧ r.ShortChains env
  | _ => True

end Expr

end Veron.MicroC
