/-
Constant expressions of micro-c, `constant_expression` in `cc_core.c`: the values
of initialisers and of array lengths.
-/
import Veron.MicroCStrings

namespace Veron.MicroC

open SelfAssembler (Byte ch text)

/-- The compiler's tables, and its readings of what begins with a type. -/
structure Env where
  /-- `global_constant_list`: the text of each constant, if it is complete. -/
  constants : List (Token × Option Token)
  /-- The names in `global_function_list`. -/
  functions : List Token
  /-- The names in `global_symbol_list`. -/
  globals : List Token
  maxString : ℕ
  /-- `unary_expr_sizeof`, from the keyword on. -/
  sizeofAt : List Token → Except Fault (ℤ × List Token)
  /-- The branch of `constant_unary_expression` for `&`, past it. -/
  offsetofAt : List Token → Except Fault (ℤ × List Token)
  /-- `fallible_type_name`: what follows a type name, if there is one. -/
  typeNameAt : List Token → Except Fault (Option (List Token))

def letters : List Byte :=
  text ['a', 'b', 'c', 'd', 'e', 'f', 'g', 'h', 'i', 'j', 'k', 'l', 'm', 'n', 'o', 'p', 'q', 'r',
    's', 't', 'u', 'v', 'w', 'x', 'y', 'z', 'A', 'B', 'C', 'D', 'E', 'F', 'G', 'H', 'I', 'J', 'K',
    'L', 'M', 'N', 'O', 'P', 'Q', 'R', 'S', 'T', 'U', 'V', 'W', 'X', 'Y', 'Z', '_']

def decimals : List Byte := text ['0', '1', '2', '3', '4', '5', '6', '7', '8', '9']

/-- The text of `global_token`, which must not be NULL. -/
def current : List Token → Except Fault Token
  | [] => .error .null
  | t :: _ => .ok t

/-- `require_extra_token`. -/
def requireExtraToken : List Token → Except Fault (List Token)
  | [] => .error .null
  | [_] => .error (.exit "EOF reached inside of line_error\n")
  | _ :: t :: ts => .ok (t :: ts)

def requireMatch (message : String) (required : Token) : List Token → Except Fault (List Token)
  | [] => .error (.exit message)
  | t :: ts => if t = required then .ok ts else .error (.exit message)

inductive Operator where
  | add | sub | mul | div | rem | or | and | xor | shl | shr
deriving DecidableEq, Repr

/-- The five operators of arithmetic are told by their first character. -/
def operatorOf (t : Token) : Option Operator :=
  if at' t 0 = ch '+' then some .add
  else if at' t 0 = ch '-' then some .sub
  else if at' t 0 = ch '*' then some .mul
  else if at' t 0 = ch '/' then some .div
  else if at' t 0 = ch '%' then some .rem
  else if t = text ['|'] then some .or
  else if t = text ['&'] then some .and
  else if t = text ['^'] then some .xor
  else if t = text ['<', '<'] then some .shl
  else if t = text ['>', '>'] then some .shr
  else none

/-- An operator of C on `long long`, which leaves wide shifts and division by zero
undefined. -/
def Operator.apply (lhs rhs : ℤ) : Operator → Except Fault ℤ
  | .add => .ok (wrap64 (lhs + rhs))
  | .sub => .ok (wrap64 (lhs - rhs))
  | .mul => .ok (wrap64 (lhs * rhs))
  | .div => if rhs = 0 then .error .undefined else .ok (wrap64 (lhs.tdiv rhs))
  | .rem => if rhs = 0 then .error .undefined else .ok (wrap64 (lhs.tmod rhs))
  | .or => .ok (BitVec.ofInt 64 lhs ||| BitVec.ofInt 64 rhs).toInt
  | .and => .ok (BitVec.ofInt 64 lhs &&& BitVec.ofInt 64 rhs).toInt
  | .xor => .ok (BitVec.ofInt 64 lhs ^^^ BitVec.ofInt 64 rhs).toInt
  | .shl =>
      if 0 ≤ rhs ∧ rhs < 64 then .ok (BitVec.ofInt 64 lhs <<< rhs.toNat).toInt
      else .error .undefined
  | .shr =>
      if 0 ≤ rhs ∧ rhs < 64 then .ok ((BitVec.ofInt 64 lhs).sshiftRight rhs.toNat).toInt
      else .error .undefined

/-- The first characters of the tokens that end a constant expression. -/
def terminators : List Byte := text [',', ']', ';', '}', ':', ')']

mutual

def constantUnaryExpression (env : Env) : ℕ → List Token → Except Fault (ℤ × List Token)
  | 0, _ => .error .running
  | fuel + 1, ts => do
      let t ← current ts
      if at' t 0 = ch '-' then
        let ts ← requireExtraToken ts
        let (v, ts) ← constantUnaryExpression env fuel ts
        .ok (wrap64 (-v), ts)
      else if at' t 0 = ch '+' then
        let ts ← requireExtraToken ts
        constantUnaryExpression env fuel ts
      else if t = text ['s', 'i', 'z', 'e', 'o', 'f'] then env.sizeofAt ts
      else if at' t 0 = 0x27 then
        let v ← escapeLookup (t.drop 1)
        .ok (v, ts.drop 1)
      else if inSet (at' t 0) letters then
        match env.constants.lookup t with
        | some (some value) =>
            let ts ← requireExtraToken ts
            .ok (strtolong value, ts)
        | some none => .error (.exit "Unable to use incomplete enum constant '")
        | none => .error (.exit "Unable to find symbol '")
      else if inSet (at' t 0) decimals then
        let ts ← requireExtraToken ts
        .ok (strtolong t, ts)
      else if at' t 0 = ch '&' then
        let ts ← requireExtraToken ts
        env.offsetofAt ts
      else if at' t 0 = ch '(' then
        let ts ← requireExtraToken ts
        match ← env.typeNameAt ts with
        | some ts =>
            let ts ←
              requireMatch "Missing ) after a cast in a constant expression\n" (text [')']) ts
            constantUnaryExpression env fuel ts
        | none =>
            let (v, ts) ← constantExpression env fuel ts
            let ts ← requireMatch "Missing ) in constant expression\n" (text [')']) ts
            .ok (v, ts)
      else .error (.exit "Invalid token '")

/-- There are no levels of precedence: what follows an operator is its operand. -/
def constantExpression (env : Env) : ℕ → List Token → Except Fault (ℤ × List Token)
  | 0, _ => .error .running
  | fuel + 1, ts => do
      let (lhs, ts) ← constantUnaryExpression env fuel ts
      let t ← current ts
      match operatorOf t with
      | some operator =>
          let ts ← requireExtraToken ts
          let (rhs, ts) ← constantExpression env fuel ts
          let v ← operator.apply lhs rhs
          .ok (v, ts)
      | none =>
          if inSet (at' t 0) terminators then .ok (lhs, ts)
          else .error (.exit "Invalid token '")

end

end Veron.MicroC
