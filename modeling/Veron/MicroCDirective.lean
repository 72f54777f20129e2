/-
The preprocessor of micro-c, `preprocess` of `cc_macro.c`: directives, the conditions of `#if`,
and the turns of its loop.
-/
import Veron.MicroCConstant
import Veron.MicroCMacro

namespace Veron.MicroC

open SelfAssembler (Byte ch text)

/-- The `int` of the compiler that the preprocessor is built with. -/
structure IntType where
  /-- A binary operator of arithmetic. -/
  apply : Token → ℤ → ℤ → ℤ
  strtoint : Token → ℤ

def isNewline (t : Lexeme) : Bool := at' t.s 0 = 0x0a

/-- `eat_current_token`. -/
def eatCurrentToken : List Lexeme → Except Fault (List Lexeme)
  | [] => .error .null
  | _ :: ts => .ok ts

/-- The walk of `macro_variable` from macro to macro, and the text where it ends. -/
def followMacro : ℕ → List Macro → Macro → Except Fault (List Macro × Token)
  | n, env, hold =>
      match hold.expansion with
      | [] => .error (.exit "hold->expansion is a null\n")
      | t :: _ =>
          match lookupMacro env t with
          | (env, none) => .ok (env, t.s)
          | (env, some next) =>
              if next.symbol = hold.symbol then .ok (env, t.s)
              else match n with
                | 0 => .ok (env, t.s)
                | n + 1 => followMacro n env next

/-- A value, `macro_env` and the tokens left. -/
abbrev Value := ℤ × List Macro × List Lexeme

def macroVariable (int : IntType) (env : List Macro) (t : Lexeme) (ts : List Lexeme) :
    Except Fault Value :=
  match lookupMacro env t with
  | (env, none) => .ok (0, env, ts)
  | (env, some hold) => do
      let (env, s) ← followMacro 64 env hold
      .ok (int.strtoint s, env, ts)

/-- What follows `defined`. -/
def macroDefined (env : List Macro) : List Lexeme → Except Fault Value
  | [] => .error (.exit "got an EOF terminated macro defined expression\n")
  | t :: ts =>
      let paren := at' t.s 0 = ch '('
      match if paren then ts else t :: ts with
      | [] => .error (.exit "null token received in lookup_macro\n")
      | name :: ts =>
          let (env, hold) := lookupMacro env name
          let value := if hold.isSome then 1 else 0
          if paren then
            match ts with
            | [] => .error (.exit "unterminated define ( statement\n")
            | close :: ts =>
                if at' close.s 0 = ch ')' then .ok (value, env, ts)
                else .error (.exit "missing close parenthesis for defined()\n")
          else .ok (value, env, ts)

/-- The comparisons. -/
def relation? (op : Token) (lhs rhs : ℤ) : Option Bool :=
  if op = text ['<'] then some (lhs < rhs)
  else if op = text ['<', '='] then some (lhs ≤ rhs)
  else if op = text ['>', '='] then some (rhs ≤ lhs)
  else if op = text ['>'] then some (rhs < lhs)
  else if op = text ['=', '='] then some (lhs = rhs)
  else if op = text ['!', '='] then some (lhs ≠ rhs)
  else none

mutual

def macroPrimaryExpr (int : IntType) : ℕ → List Macro → List Lexeme → Except Fault Value
  | 0, _, _ => .error .running
  | _ + 1, _, [] => .error (.exit "got an EOF terminated macro primary expression\n")
  | fuel + 1, env, t :: ts =>
      if at' t.s 0 = ch '-' then do
        let (v, env, ts) ← macroPrimaryExpr int fuel env ts
        .ok (int.apply (text ['-']) 0 v, env, ts)
      else if at' t.s 0 = ch '!' then do
        let (v, env, ts) ← macroPrimaryExpr int fuel env ts
        .ok (if v = 0 then 1 else 0, env, ts)
      else if at' t.s 0 = ch '(' then do
        let (v, env, ts) ← macroBitwiseExpr int fuel env ts
        match ts with
        | [] => .error .null
        | close :: ts =>
            if at' close.s 0 = ch ')' then .ok (v, env, ts)
            else .error (.exit "missing ) in macro expression\n")
      else if t.s = text ['d', 'e', 'f', 'i', 'n', 'e', 'd'] then macroDefined env ts
      else if inSet (at' t.s 0) letters then macroVariable int env t ts
      else if inSet (at' t.s 0) decimals then .ok (int.strtoint t.s, env, ts)
      else .ok (0, env, t :: ts)

/-- There are no levels of precedence among the operators of arithmetic. -/
def macroAdditiveExpr (int : IntType) : ℕ → List Macro → List Lexeme → Except Fault Value
  | 0, _, _ => .error .running
  | fuel + 1, env, ts => do
      let (lhs, env, ts) ← macroPrimaryExpr int fuel env ts
      match ts with
      | [] => .error (.exit "got an EOF terminated macro additive expression\n")
      | op :: rest =>
          if op.s ∈ [text ['+'], text ['-'], text ['*'], text ['>', '>'], text ['<', '<']] then do
            let (rhs, env, ts) ← macroAdditiveExpr int fuel env rest
            .ok (int.apply op.s lhs rhs, env, ts)
          else if op.s = text ['/'] then do
            let (rhs, env, ts) ← macroAdditiveExpr int fuel env rest
            if rhs = 0 then .error (.exit "divide by zero not valid even in C macros\n")
            else .ok (int.apply op.s lhs rhs, env, ts)
          else if op.s = text ['%'] then do
            let (rhs, env, ts) ← macroAdditiveExpr int fuel env rest
            if rhs = 0 then .error (.exit "modulus by zero not valid even in C macros\n")
            else .ok (int.apply op.s lhs rhs, env, ts)
          else .ok (lhs, env, op :: rest)

def macroRelationalExpr (int : IntType) : ℕ → List Macro → List Lexeme → Except Fault Value
  | 0, _, _ => .error .running
  | fuel + 1, env, ts => do
      let (lhs, env, ts) ← macroAdditiveExpr int fuel env ts
      match ts with
      | [] => .error .null
      | op :: rest =>
          if (relation? op.s 0 0).isSome then do
            let (rhs, env, ts) ← macroRelationalExpr int fuel env rest
            .ok (if relation? op.s lhs rhs = some true then 1 else 0, env, ts)
          else .ok (lhs, env, op :: rest)

def macroBitwiseExpr (int : IntType) : ℕ → List Macro → List Lexeme → Except Fault Value
  | 0, _, _ => .error .running
  | fuel + 1, env, ts => do
      let (lhs, env, ts) ← macroRelationalExpr int fuel env ts
      match ts with
      | [] => .error .null
      | op :: rest =>
          if op.s ∈ [text ['&'], text ['|'], text ['^']] then do
            let (rhs, env, ts) ← macroBitwiseExpr int fuel env rest
            .ok (int.apply op.s lhs rhs, env, ts)
          else if op.s = text ['&', '&'] then do
            let (rhs, env, ts) ← macroBitwiseExpr int fuel env rest
            .ok (if lhs ≠ 0 ∧ rhs ≠ 0 then 1 else 0, env, ts)
          else if op.s = text ['|', '|'] then do
            let (rhs, env, ts) ← macroBitwiseExpr int fuel env rest
            .ok (if lhs ≠ 0 ∨ rhs ≠ 0 then 1 else 0, env, ts)
          else .ok (lhs, env, op :: rest)

end

def macroExpression (int : IntType) (env : List Macro) (ts : List Lexeme) : Except Fault Value :=
  macroBitwiseExpr int (4 * ts.length + 4) env ts

/-- The message for a parameter that begins with a period, which stands before the tokens. -/
def variadicMessage : List Lexeme → String
  | [] => "EOF in variadic parameter"
  | t :: ts =>
      if at' t.s 0 ≠ ch '.' then "Invalid token '.' in macro parameter list"
      else match ts with
        | [] => "EOF in second variadic parameter"
        | u :: _ =>
            if at' u.s 0 ≠ ch '.' then "Invalid tokens '..' in macro parameter list"
            else "Variadic function-like macros not supported."

/-- `handle_function_like_macro`, past the parenthesis: the parameters, of which `name` is the
one that is being read, and what follows them.  Only a comma begins another one. -/
def handleFunctionLikeMacro (names : List (Option Token)) (name : Option Token) :
    List Lexeme → Except Fault (List (Option Token) × List Lexeme)
  | [] => .error .null
  | t :: ts =>
      if at' t.s 0 = ch ')' then .ok (names ++ [name], ts)
      else if at' t.s 0 = ch '.' then .error (.exit (variadicMessage ts))
      else match ts with
        | [] => .error .null
        | comma :: rest =>
            if at' comma.s 0 = ch ',' then
              handleFunctionLikeMacro (names ++ [some t.s]) none rest
            else handleFunctionLikeMacro names (some t.s) (comma :: rest)

/-- The expansion of a definition, and its newline. -/
def defineExpansion : List Lexeme → Except Fault (List Lexeme × List Lexeme)
  | [] => .error .null
  | t :: ts =>
      if isNewline t then .ok ([], t :: ts)
      else do
        let (expansion, rest) ← defineExpansion ts
        .ok (t :: expansion, rest)

/-- What stands between the name of a macro and its expansion: a space, or parameters. -/
def defineArguments :
    List Lexeme → Except Fault (Option (List (Option Token)) × List Lexeme)
  | [] => .error .null
  | t :: ts =>
      if at' t.s 0 = 0x20 then .ok (none, ts)
      else if at' t.s 0 = ch '(' then do
        let (names, rest) ← handleFunctionLikeMacro [] none ts
        .ok (some names, rest)
      else .ok (none, t :: ts)

def handleDefine (env : List Macro) : List Lexeme → Except Fault (List Macro × List Lexeme)
  | [] => .error (.exit "got an EOF terminated #define\n")
  | name :: ts =>
      if isNewline name then .error (.exit "unexpected newline after #define\n")
      else do
        let (arguments, ts) ← defineArguments ts
        let (expansion, ts) ← defineExpansion ts
        .ok (⟨name.s, expansion, arguments⟩ :: env, ts)

def handleUndef (env : List Macro) : List Lexeme → Except Fault (List Macro × List Lexeme)
  | [] => .error (.exit "received a null in remove_macro\n")
  | name :: ts => .ok (env.filter fun hold => hold.symbol ≠ name.s, ts)

/-- The state of `preprocess`.  `unlinked` says that the token at the cursor is the newline
that `eat_block` puts before the first token of the list without linking the two. -/
structure Preprocessor extends Cursor where
  unlinked : Bool
  /-- `conditional_inclusion_top`: what `previous_condition_matched` is, innermost first. -/
  conditionals : List Bool
  startOfLine : Bool

def newlineText : Token := [0x0a]

def ifNames : List Token :=
  [text ['#', 'i', 'f'], text ['#', 'i', 'f', 'd', 'e', 'f'],
    text ['#', 'i', 'f', 'n', 'd', 'e', 'f']]

def endifName : Token := text ['#', 'e', 'n', 'd', 'i', 'f']

def elifName : Token := text ['#', 'e', 'l', 'i', 'f']

def elseName : Token := text ['#', 'e', 'l', 's', 'e']

/-- The loop of `eat_block` and, in it, those of `nested` calls of `eat_until_endif`.  The first
token that a loop meets is not compared with what ends it. -/
def eatUntilEndif (nested : ℕ) (compared : Bool) : List Lexeme → Except Fault (List Lexeme)
  | [] => .error (.exit "Unterminated #if block\n")
  | t :: ts =>
      if compared ∧ nested = 0 ∧ t.s ∈ [elifName, elseName, endifName] then .ok (t :: ts)
      else if compared ∧ nested ≠ 0 ∧ t.s = endifName then eatUntilEndif (nested - 1) true ts
      else if t.s ∈ ifNames then eatUntilEndif (nested + 1) false ts
      else eatUntilEndif nested true ts

/-- `eat_block`, from the first token on that it may eat. -/
def eatBlock (c : Preprocessor) : Except Fault Preprocessor :=
  match c.ahead with
  | [] => .error .null
  | t :: ts => do
      let rest ← eatUntilEndif 0 false (t :: ts)
      match c.before, rest with
      | [], [] => .error .null
      | [], u :: us =>
          .ok { c with
            ahead := ⟨newlineText, u.filename, u.linenumber, false⟩ :: u :: us
            unlinked := true }
      | p :: before, us =>
          if p.s = newlineText then .ok { c with before := before, ahead := p :: us }
          else .ok { c with ahead := us }

def push (condition : Bool) (c : Preprocessor) : Preprocessor :=
  { c with conditionals := condition :: c.conditionals }

/-- `#if`. -/
def macroIf (int : IntType) (c : Preprocessor) (ts : List Lexeme) : Except Fault Preprocessor := do
  let (result, env, ts) ← macroExpression int c.env ts
  let c := push (result ≠ 0) { c with ahead := ts, env := env }
  if result = 0 then eatBlock c else .ok c

/-- `#ifdef`, or `#ifndef` where a macro is not wanted. -/
def macroIfdef (wanted : Bool) (c : Preprocessor) :
    List Lexeme → Except Fault Preprocessor
  | [] => .error (.exit "got an EOF terminated macro defined expression\n")
  | name :: ts =>
      let (env, hold) := lookupMacro c.env name
      if hold.isSome = wanted then .ok (push true { c with ahead := ts, env := env })
      else eatBlock (push false { c with ahead := name :: ts, env := env })

/-- `#elif`. -/
def macroElif (int : IntType) (c : Preprocessor) (ts : List Lexeme) :
    Except Fault Preprocessor := do
  if ts = [] then .error (.exit "#elif without leading #if\n")
  let (result, env, ts) ← macroExpression int c.env ts
  match c.conditionals with
  | [] => .error (.exit "#elif without leading #if\n")
  | matched :: outer =>
      let c := { c with ahead := ts, env := env }
      if result = 0 ∨ matched = true then eatBlock c
      else .ok { c with conditionals := true :: outer }

/-- `#else`. -/
def macroElse (c : Preprocessor) (ts : List Lexeme) : Except Fault Preprocessor :=
  if ts = [] then .error (.exit "#else without leading #if\n")
  else match c.conditionals with
    | [] => .error (.exit "#else without leading #if\n")
    | matched :: _ =>
        if matched then eatBlock { c with ahead := ts } else .ok { c with ahead := ts }

/-- `#endif`. -/
def macroEndif (c : Preprocessor) (ts : List Lexeme) : Except Fault Preprocessor :=
  match c.conditionals with
  | [] => .error (.exit "unexpected #endif\n")
  | _ :: outer => .ok { c with ahead := ts, conditionals := outer }

/-- `#warning`: the tokens of the message stay in the list. -/
def macroWarning (c : Preprocessor) (ts : List Lexeme) : Except Fault Preprocessor :=
  if ts.any isNewline then
    .ok { c with
      before := (ts.takeWhile fun t => !isNewline t).reverse ++ c.before
      ahead := ts.dropWhile fun t => !isNewline t }
  else .error (.exit "\nFailed to properly terminate error message with \\n\n")

/-- `#error`. -/
def macroError (ts : List Lexeme) : Except Fault Preprocessor :=
  if ts.any isNewline then .error (.exit " error: #error ")
  else .error (.exit "\nFailed to properly terminate error message with \\n\n")

def withEnv (c : Preprocessor) (r : List Macro × List Lexeme) : Preprocessor :=
  { c with env := r.1, ahead := r.2 }

def includeName : Token := text ['#', 'i', 'n', 'c', 'l', 'u', 'd', 'e']

/-- `handleInclude` gives what is at the cursor after `#include`. -/
def macroDirective (int : IntType) (handleInclude : List Lexeme → Except Fault (List Lexeme))
    (c : Preprocessor) : Except Fault Preprocessor :=
  match c.ahead with
  | [] => .error .null
  | t :: ts =>
      if t.s = text ['#', 'i', 'f'] then macroIf int c ts
      else if t.s = text ['#', 'i', 'f', 'd', 'e', 'f'] then macroIfdef true c ts
      else if t.s = text ['#', 'i', 'f', 'n', 'd', 'e', 'f'] then macroIfdef false c ts
      else if t.s = elifName then macroElif int c ts
      else if t.s = elseName then macroElse c ts
      else if t.s = endifName then macroEndif c ts
      else if t.s = text ['#', 'd', 'e', 'f', 'i', 'n', 'e'] then
        withEnv c <$> handleDefine c.env ts
      else if t.s = text ['#', 'u', 'n', 'd', 'e', 'f'] then withEnv c <$> handleUndef c.env ts
      else if t.s = text ['#', 'e', 'r', 'r', 'o', 'r'] then macroError ts
      else if t.s = text ['#', 'w', 'a', 'r', 'n', 'i', 'n', 'g'] then macroWarning c ts
      else do
        let rest ← if t.s = includeName then handleInclude (t :: ts) else .ok (t :: ts)
        .ok { c with ahead := rest.dropWhile fun u => !isNewline u }

/-- The body of the loop of `preprocess`. -/
def turn (int : IntType) (handleInclude : List Lexeme → Except Fault (List Lexeme))
    (maxString : ℕ) (c : Preprocessor) : Except Fault (Option Preprocessor) :=
  match c.ahead with
  | [] => .ok none
  | t :: ts =>
      if c.startOfLine ∧ at' t.s 0 = ch '#' then do
        let c ← macroDirective int handleInclude c
        match c.ahead with
        | [] => .ok (some c)
        | u :: _ =>
            if isNewline u then .ok (some c)
            else .error (.exit "newline expected at end of macro directive\n")
      else if isNewline t then
        .ok (some { c with
          before := if c.unlinked then c.before else t :: c.before
          ahead := ts
          depth := 0
          unlinked := false
          startOfLine := true })
      else do
        let cursor ← maybeExpand maxString c.toCursor
        .ok (some { c with toCursor := cursor, startOfLine := false })

/-- The state in which `preprocess` begins. -/
def Preprocessor.start (env : List Macro) (tokens : List Lexeme) : Preprocessor where
  before := []
  ahead := tokens
  env := env
  depth := 0
  unlinked := false
  conditionals := []
  startOfLine := true

end Veron.MicroC
