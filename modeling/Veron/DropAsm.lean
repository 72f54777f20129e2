/-
`drop_asm.py`: a C file without the functions that hold `asm(`.  Braces and ends of declarations
are looked for in a copy with comments and strings blanked, `asm(` in the text itself.
-/
import Mathlib.Data.List.DropRight
import Mathlib.Data.List.Infix
import Mathlib.Tactic.Common
import Veron.TextMode

namespace Veron.DropAsm

open TextMode

abbrev Text := List Char

/-- Lines keep their numbers. -/
def blank (c : Char) : Char := if c = '\n' then '\n' else ' '

/-- Where the masker is. -/
inductive Mode where
  | code
  | block
  | line
  | quoted (q : Char)

def maskFrom : Mode → Text → Text
  | _, [] => []
  | .code, '/' :: '*' :: t => ' ' :: ' ' :: maskFrom .block t
  | .code, '/' :: '/' :: t => ' ' :: ' ' :: maskFrom .line t
  | .code, c :: t =>
      if c = '"' ∨ c = '\'' then ' ' :: maskFrom (.quoted c) t else c :: maskFrom .code t
  | .block, '*' :: '/' :: t => ' ' :: ' ' :: maskFrom .code t
  | .block, c :: t => blank c :: maskFrom .block t
  | .line, c :: t => if c = '\n' then '\n' :: maskFrom .code t else ' ' :: maskFrom .line t
  | .quoted q, '\\' :: c :: t => ' ' :: blank c :: maskFrom (.quoted q) t
  | .quoted q, c :: t =>
      if c = q then ' ' :: maskFrom .code t else blank c :: maskFrom (.quoted q) t

def mask (text : Text) : Text := maskFrom .code text

/-- How far a group reaches: to the brace that closes the first one, or to the end. -/
def groupLength : ℕ → Text → ℕ
  | _, [] => 0
  | depth, c :: rest =>
      if c = '{' then groupLength (depth + 1) rest + 1
      else if c = '}' then if depth ≤ 1 then 1 else groupLength (depth - 1) rest + 1
      else groupLength depth rest + 1

def isTerminator (c : Char) : Bool := c = ';' || c = '}'

/-- The last place at which something holds of what follows. -/
def rfind (p : Text → Bool) : Text → Option ℕ
  | [] => none
  | c :: rest =>
      match rfind p rest with
      | some k => some (k + 1)
      | none => if p (c :: rest) then some 0 else none

def atTerminator (t : Text) : Bool := t.head?.any isTerminator

def atBlank (t : Text) : Bool := ['\n', '\n'].isPrefixOf t

/-- How much of what stands in front of a group is no part of it: up to the last terminator, the
first character not looked at, or into the last blank line. -/
def startIn (pre : Text) : ℕ :=
  max (match rfind atTerminator pre.tail with | some k => k + 2 | none => 0)
    (match rfind atBlank pre with | some k => k + 1 | none => 0)

/-- The loop of `functions`: `pre` stands between the last group, which ends at `prevEnd`, and
what is left; of a group just found so many characters are still to be skipped.  The names that
are reported are left out. -/
def functionsFrom : ℕ → Text → ℕ → Text → List (ℕ × ℕ)
  | _, _, _, [] => []
  | prevEnd, pre, skip + 1, _ :: rest => functionsFrom prevEnd pre skip rest
  | prevEnd, pre, 0, c :: rest =>
      if c = '{' then
        let stop := prevEnd + pre.length + groupLength 0 (c :: rest)
        (prevEnd + startIn pre, stop) ::
          functionsFrom stop [] (groupLength 0 (c :: rest) - 1) rest
      else functionsFrom prevEnd (pre ++ [c]) 0 rest

/-- Where each group starts, with what belongs to it, and where it ends. -/
def functions (text : Text) : List (ℕ × ℕ) := functionsFrom 0 [] 0 (mask text)

def asmCall : Text := ['a', 's', 'm', '(']

/-- `text[start:end]`. -/
def slice (text : Text) (start stop : ℕ) : Text := (text.take stop).drop start

def HoldsAsm (s : Text) : Prop := asmCall <:+: mask s ∨ asmCall <:+: s

instance (s : Text) : Decidable (HoldsAsm s) :=
  inferInstanceAs (Decidable (asmCall <:+: mask s ∨ asmCall <:+: s))

def cuts (text : Text) : List (ℕ × ℕ) :=
  (functions text).filter fun f => HoldsAsm (slice text f.1 f.2)

/-- The loop that writes; `rest` begins at `pos`. -/
def emit : ℕ → Text → List (ℕ × ℕ) → Text
  | _, rest, [] => rest
  | pos, rest, (start, stop) :: cuts =>
      slice rest 0 (start - pos) ++
        (List.replicate ((slice rest (start - pos) (stop - pos)).count '\n') '\n' ++
          emit stop (rest.drop (stop - pos)) cuts)

def patched (text : Text) : Text := emit 0 text (cuts text)

/-- What `main` writes for a file; one that is not decoded ends it before. -/
def dropAsm (file : List Coded) : Option (List Coded) :=
  (readStrict file).map fun text => write (patched text)

example : patched "int a;\n\nint f() \x7b\n  asm(\"x\");\n\x7d\nint b;\n".toList =
    "int a;\n\n\n\n\nint b;\n".toList := by decide

end Veron.DropAsm
