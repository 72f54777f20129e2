/-
The tool that rewrites octal literals as decimal ones: comments, strings and characters are
blanked, and what a regular expression finds in the rest is replaced in the text itself.
-/
import Mathlib.Data.Nat.Notation
import Veron.Regex
import Veron.TextMode

namespace Veron.OctalToDecimal

open Regex TextMode

abbrev Text := List Char

/-- What a character is blanked by; lines keep their numbers. -/
def blank (c : Char) : Char := if c = '\n' then '\n' else ' '

/-- Where the masker is. -/
inductive Mode where
  | code
  | block
  | line
  | quoted (q : Char)

def maskFrom : Mode → Text → Text
  | _, [] => []
  | .code, '/' :: '*' :: t => ' ' :: ' ' :: maskFrom .block t
  | .code, '/' :: '/' :: t => ' ' :: ' ' :: maskFrom .line t
  | .code, c :: t =>
      c :: maskFrom (if c = '"' ∨ c = '\'' then .quoted c else .code) t
  | .block, '*' :: '/' :: t => ' ' :: ' ' :: maskFrom .code t
  | .block, c :: t => blank c :: maskFrom .block t
  | .line, c :: t => blank c :: maskFrom (if c = '\n' then .code else .line) t
  | .quoted q, '\\' :: _ :: t => ' ' :: ' ' :: maskFrom (.quoted q) t
  | .quoted q, c :: t =>
      if c = q then q :: maskFrom .code t else blank c :: maskFrom (.quoted q) t

/-- The text with the bodies of strings and characters and the comments blanked. -/
def mask (text : Text) : Text := maskFrom .code text

def isDigit (c : Char) : Bool := '0' ≤ c && c ≤ '9'

def isSuffix (c : Char) : Bool := c = 'u' || c = 'U' || c = 'l' || c = 'L'

/-- What may not stand in front. -/
def inToken (c : Char) : Bool :=
  isDigit c || ('A' ≤ c && c ≤ 'Z') || ('a' ≤ c && c ≤ 'z') || c = '_' || c = '.'

/-- `OCTAL`. -/
def octal : Regex Char :=
  .group 0 (seqs [.edge fun before _ => !before.any inToken, .one (· = '0'),
    plus (.one isDigit), .star (.one isSuffix)])

/-- `int(digits, 8)`. -/
def octalValue (digits : Text) : ℕ := digits.foldl (fun v c => v * 8 + (c.toNat - '0'.toNat)) 0

/-- A replacement of what lies between two positions. -/
structure Edit where
  start : ℕ
  stop : ℕ
  text : Text

def digitsOf (literal : Text) : Text := (literal.reverse.dropWhile isSuffix).reverse

def isValid (literal : Text) : Bool := !(digitsOf literal).tail.any fun d => d = '8' || d = '9'

def Edit.ofMatch (m : Place Char) : Edit where
  start := m.before.length - (m.group 0).length
  stop := m.before.length
  text := Nat.toDigits 10 (octalValue (digitsOf (m.group 0)))

/-- One replacement; positions behind it move. -/
def Edit.apply (e : Edit) (out : Text) : Text := out.take e.start ++ e.text ++ out.drop e.stop

/-- What becomes of a file, and the literals that are none, each with its line. -/
structure Converted where
  out : Text
  errors : List (ℕ × Text)

/-- `str` makes no number with more digits than the interpreter allows, where it has a limit. -/
def Edit.fits (limit : Option ℕ) (e : Edit) : Bool := limit.all fun n => e.text.length ≤ n

/-- The text of a file with its literals replaced, unless a number has too many digits. -/
def convert (limit : Option ℕ) (text : Text) : Option Converted :=
  let masked := mask text
  let ms := octal.findAll masked
  let edits := (ms.filter fun m => isValid (m.group 0)).map Edit.ofMatch
  if edits.all (Edit.fits limit) then
    some
      { out := edits.reverse.foldl (fun out e => e.apply out) text
        errors := (ms.filter fun m => !isValid (m.group 0)).map fun m =>
          ((masked.take (Edit.ofMatch m).start).count '\n' + 1, m.group 0) }
  else none

/-- The loop over the files; a file that cannot be opened, and a number that cannot be written,
end it.  What is written so far stays. -/
def convertFiles (limit : Option ℕ) :
    Bool → List (Option (List Coded)) → ℕ × List (List Coded)
  | refused, [] => (if refused then 1 else 0, [])
  | _, none :: _ => (1, [])
  | refused, some file :: files =>
      match convert limit (readReplacing file) with
      | none => (1, [])
      | some r =>
          let rest := convertFiles limit (refused || !r.errors.isEmpty) files
          (rest.1, write r.out :: rest.2)

/-- The exit status and the files written. -/
def main (limit : Option ℕ) (files : List (Option (List Coded))) : ℕ × List (List Coded) :=
  if files.isEmpty then (2, []) else convertFiles limit false files

end Veron.OctalToDecimal
