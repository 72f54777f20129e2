/-
Macro expansion in micro-c, `maybe_expand` of `cc_macro.c`.  The token list is the tokens before
the cursor, last one first, and those from it on.
-/
import Veron.MicroCStrings

namespace Veron.MicroC

open SelfAssembler (Byte ch text)

/-- What the preprocessor uses of a `token_list`. -/
structure Lexeme where
  s : Token
  filename : Token
  linenumber : ℕ
  /-- The paint: no macro invocation. -/
  noExpand : Bool
deriving DecidableEq

/-- An entry of `macro_env`; the argument of a function-like macro without any has no name. -/
structure Macro where
  symbol : Token
  expansion : List Lexeme
  arguments : Option (List (Option Token))

/-- `int2str`, in decimal, of a line number. -/
def int2str (n : ℕ) : Token := text (Nat.toDigits 10 n)

/-- The head of `macro_env` that `lookup_macro` puts there for `__LINE__` and `__FILE__`. -/
def createReplacementToken (symbol value : Token) (token : Lexeme) : Macro :=
  ⟨symbol, [⟨value, [], token.linenumber, false⟩], none⟩

def lineName : Token := text ['_', '_', 'L', 'I', 'N', 'E', '_', '_']

def fileName : Token := text ['_', '_', 'F', 'I', 'L', 'E', '_', '_']

/-- `macro_env` afterwards, and the macro that is found. -/
def lookupMacro (env : List Macro) (token : Lexeme) : List Macro × Option Macro :=
  if token.s = lineName then
    let hold := createReplacementToken lineName (int2str token.linenumber) token
    (hold :: env, some hold)
  else if token.s = fileName then
    let hold := createReplacementToken fileName (ch '"' :: token.filename) token
    (hold :: env, some hold)
  else (env, env.find? fun hold => hold.symbol = token.s)

/-- The list of the newest macro of a name, changed in place. -/
def setExpansion (symbol : Token) (expansion : List Lexeme) : List Macro → List Macro
  | [] => []
  | hold :: env =>
      if hold.symbol = symbol then { hold with expansion := expansion } :: env
      else hold :: setExpansion symbol expansion env

/-- Another token of an argument behind a quote and those before it. -/
def joinWord (maxString : ℕ) (acc : Token) (w : Lexeme) : Except Fault Token :=
  let acc := (if 1 < acc.length then acc ++ [0x20] else acc) ++ w.s
  if w.s ≠ [] ∧ maxString < acc.length then .error (.exit "stringified argument too long\n")
  else .ok acc

/-- `#x`: the tokens of an argument joined by spaces. -/
def stringify (maxString : ℕ) (argument : List Lexeme) : Except Fault Token :=
  argument.foldlM (joinWord maxString) [ch '"']

/-- One token of the expansion, with an argument put in for its parameter. -/
def substituteToken (maxString : ℕ) (name : Option Token) (argument : List Lexeme)
    (t : Lexeme) : Except Fault (List Lexeme) :=
  if at' t.s 0 = ch '#' ∧ name = some (t.s.drop 1) then do
    let s ← stringify maxString argument
    .ok [{ t with s := s }]
  else if name = some t.s then .ok argument
  else .ok [t]

def substitute (maxString : ℕ) (name : Option Token) (argument : List Lexeme) :
    List Lexeme → Except Fault (List Lexeme)
  | [] => .ok []
  | t :: ts => do
      let l ← substituteToken maxString name argument t
      .ok (l ++ (← substitute maxString name argument ts))

/-- Inside how many parentheses the text behind a token is. -/
def nesting (parens : ℕ) (t : Lexeme) : ℕ :=
  if at' t.s 0 = ch '(' then parens + 1
  else if at' t.s 0 = ch ')' then parens - 1
  else parens

/-- Whether a token ends an argument. -/
def endsArgument (parens : ℕ) (t : Lexeme) : Bool :=
  (at' t.s 0 = ch ',' && parens = 1) || (at' t.s 0 = ch ')' && parens = 1)

/-- The arguments of an invocation put into the expansion one after another, and what follows
the closing parenthesis.  `segment` is the argument so far, last token first.  `hasPrev` is false
when no token stands before the first argument. -/
def collectArguments (maxString : ℕ) (hasPrev : Bool) (names : List (Option Token))
    (parens : ℕ) (segment expansion : List Lexeme) :
    List Lexeme → Except Fault (List Lexeme × List Lexeme)
  | [] => .error .null
  | token :: rest =>
      match names with
      | [] => .error (.exit "Invalid amount of parameters for function-like macro\n")
      | name :: names' =>
          if endsArgument parens token then do
            if !hasPrev then .error .null
            -- The list is cut before `token`; an argument with no token is not cut off from it.
            let argument := if segment = [] then token :: rest else segment.reverse
            let expansion ← substitute maxString name argument expansion
            if rest = [] then
              .error (.exit "NULL token found in function-like macro arguments\n")
            if nesting parens token = 0 then .ok (expansion, rest)
            else collectArguments maxString true names' (nesting parens token) [] expansion rest
          else if rest = [] then
            .error (.exit "NULL token found in function-like macro arguments\n")
          else
            collectArguments maxString true names (nesting parens token) (token :: segment)
              expansion rest

/-- `X ## Y` folded into one token, from left to right. -/
def paste (maxString : ℕ) : List Lexeme → Except Fault (List Lexeme)
  | x :: op :: y :: rest =>
      if op.s = text ['#', '#'] then
        -- `concat_strings2` leaves no room for the end of a longer string.
        if maxString ≤ (x.s ++ y.s).length then .error .undefined
        else paste maxString ({ x with s := x.s ++ y.s } :: rest)
      else do .ok (x :: (← paste maxString (op :: y :: rest)))
  | l => .ok l
termination_by l => l.length

/-- The name of a macro is painted in its expansion. -/
def paint (symbol : Token) (expansion : List Lexeme) : List Lexeme :=
  expansion.map fun t => if t.s = symbol then { t with noExpand := true } else t

/-- The copies that `insert_tokens` puts in stand where the macro was invoked. -/
def insertTokens (expansion : List Lexeme) (atFile : Token) (atLine : ℕ) : List Lexeme :=
  expansion.map fun t => { t with filename := atFile, linenumber := atLine }

/-- The cursor, `macro_env` and `expand_depth`. -/
structure Cursor where
  before : List Lexeme
  ahead : List Lexeme
  env : List Macro
  depth : ℕ

/-- The rest of `maybe_expand` from a token that invokes a macro, past the macro's name:
`arguments` are there and `ahead` follows them. -/
def splice (maxString : ℕ) (c : Cursor) (token : Lexeme) (hold : Macro)
    (expansion ahead : List Lexeme) : Except Fault Cursor := do
  if hold.expansion = [] then .ok { c with ahead := ahead }
  else
    let pasted ← paste maxString expansion
    let painted := paint hold.symbol pasted
    if 10000 ≤ c.depth then
      .error (.exit "macro expansion did not terminate (mutually recursive?) at '")
    else
      .ok { c with
        ahead := insertTokens painted token.filename token.linenumber ++ ahead
        env := if hold.arguments = none then setExpansion hold.symbol painted c.env else c.env
        depth := c.depth + 1 }

def maybeExpand (maxString : ℕ) (c : Cursor) : Except Fault Cursor :=
  match c.ahead with
  | [] => .error (.exit "maybe_expand passed a null token\n")
  | token :: rest =>
      let past := { c with before := token :: c.before, ahead := rest }
      if token.noExpand then .ok past
      else
        let (env, found) := lookupMacro c.env token
        match rest, found with
        | [], _ => .error (.exit "we can't expand a null token: ")
        | _ :: _, none => .ok { past with env := env }
        | next :: rest', some hold =>
            match hold.arguments with
            | none => splice maxString { c with env := env } token hold hold.expansion rest
            | some names =>
                if at' next.s 0 ≠ ch '(' then .ok { past with env := env }
                else do
                  let (expansion, ahead) ← collectArguments maxString (c.before ≠ []) names 1 []
                    hold.expansion rest'
                  -- `token_before_macro` is written through.
                  if c.before = [] then .error .null
                  splice maxString { c with env := env } token hold expansion ahead

end Veron.MicroC
