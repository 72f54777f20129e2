/-
Characters, numbers and strings in the tokens of micro-c, `cc_strings.c`.  A token
is the bytes of a C string up to its zero; the reader keeps the opening quote of a
string or character and drops the closing one.
-/
import Veron.SelfAssemblerText

namespace Veron.MicroC

open SelfAssembler (Byte ch text)

abbrev Token := List Byte

/-- How compiling stops: an error message and exit 1, a token read after the last
one, arithmetic that C leaves undefined, or no fuel. -/
inductive Fault where
  | exit (message : String)
  | null
  | undefined
  | running
deriving DecidableEq, Repr

/-- `s[n]`, which is zero at the end of the string. -/
def at' (s : List Byte) (n : ℕ) : Byte := s.getD n 0

/-- The value of an expression of type `long long`. -/
def wrap64 (v : ℤ) : ℤ := v.bmod (2 ^ 64)

/-- The value of an expression of type `int`. -/
def wrap32 (v : ℤ) : ℤ := v.bmod (2 ^ 32)

def inSet (c : Byte) (s : List Byte) : Bool := s.contains c

/-- The value of a digit, where C has -1 for no digit. -/
def char2hex (c : Byte) : Option ℕ :=
  if 0x30 ≤ c ∧ c ≤ 0x39 then some (c.toNat - 48)
  else if 0x61 ≤ c ∧ c ≤ 0x66 then some (c.toNat - 87)
  else if 0x41 ≤ c ∧ c ≤ 0x46 then some (c.toNat - 55)
  else none

def hexify (c : Byte) (high : Bool) : Except Fault ℤ :=
  match char2hex c with
  | none => .error (.exit "Tried to print non-hex number\n")
  | some i => .ok (if high then i * 16 else i)

def digitIsOctal (digit : Byte) : Bool := 0x30 ≤ digit && digit ≤ 0x37

/-- At most three octal digits. -/
def octalDigits (digits : List Byte) : List Byte := (digits.take 3).takeWhile digitIsOctal

/-- Octals above 127 wrap around. -/
def parseOctalEscapeCode (digits : List Byte) : ℤ :=
  (((octalDigits digits).foldl (fun v b => v * 8 + (b.toNat - 0x30)) 0 : ℕ) : ℤ).bmod 256

def amountOfEscapedCharsToSkip (string : List Byte) : ℕ :=
  if at' string 1 = ch 'x' then 3
  else if digitIsOctal (at' string 1) then (octalDigits (string.drop 1)).length
  else 1

/-- The escapes of one character. -/
def simpleEscape (c : Byte) : Option ℤ :=
  if c = ch 'a' then some 7
  else if c = ch 'b' then some 8
  else if c = ch 't' then some 9
  else if c = ch 'n' then some 10
  else if c = ch 'v' then some 11
  else if c = ch 'f' then some 12
  else if c = ch 'r' then some 13
  else if c = ch 'e' then some 27
  else if c = ch '"' then some 34
  else if c = 0x27 then some 39
  else if c = ch '\\' then some 92
  else if c = ch '?' then some 63
  else none

/-- The value of the character at the start of a string. -/
def escapeLookup (c : List Byte) : Except Fault ℤ :=
  if at' c 0 ≠ ch '\\' then .ok (at' c 0).toInt
  else if at' c 1 = ch 'x' then do
    let t1 ← hexify (at' c 2) true
    let t2 ← hexify (at' c 3) false
    .ok (t1 + t2)
  else match simpleEscape (at' c 1) with
    | some v => .ok v
    | none =>
        if digitIsOctal (at' c 1) then .ok (parseOctalEscapeCode (c.drop 1))
        else .error (.exit "Unknown escape received")

/-- How many characters an escape at the start of a string has after the first. -/
def escapeTail (string : List Byte) : ℕ :=
  if at' string 0 = ch '\\' then amountOfEscapedCharsToSkip string else 0

/-- The bytes that the text of a string stands for, past `skip` characters: the walk
of `collect_regular_string`, `collect_weird_string` and `global_member_string_output`. -/
def decodeFrom : (skip : ℕ) → List Byte → Except Fault (List Byte)
  | _, [] => .ok []
  | skip + 1, _ :: t => decodeFrom skip t
  | 0, b :: t => do
      let c ← escapeLookup (b :: t)
      let rest ← decodeFrom (escapeTail (b :: t)) t
      .ok (BitVec.ofInt 8 c :: rest)

def decode (string : List Byte) : Except Fault (List Byte) := decodeFrom 0 string

/-- The characters that M1 takes between quotes. -/
def isRegular (c : Byte) : Bool :=
  c = 0x09 || c = 0x0a || (0x20 ≤ c && c ≤ 0x7e && c ≠ ch '"')

def weirdFrom : (skip : ℕ) → List Byte → Except Fault Bool
  | _, [] => .ok false
  | skip + 1, _ :: t => weirdFrom skip t
  | 0, b :: t => do
      let c ← escapeLookup (b :: t)
      let c := BitVec.ofInt 8 c
      let skip := escapeTail (b :: t)
      if !isRegular c then .ok true
      else if inSet c [0x20, 0x09, 0x0a, 0x0d] && at' (b :: t) (skip + 1) = ch ':' then .ok true
      else weirdFrom skip t

/-- Whether a string has to be written in hex, given its text past the quote. -/
def weird (string : List Byte) : Except Fault Bool := weirdFrom 0 string

/-- A string as M1 reads it: between quotes, or byte by byte with its terminator. -/
inductive Literal where
  | regular (bytes : List Byte)
  | weird (bytes : List Byte)
deriving DecidableEq, Repr

def collectRegularString (maxString : ℕ) (string : List Byte) : Except Fault Literal := do
  let bytes ← decode string
  -- The quote stands in `hold_string` too.
  if bytes.length < maxString - 3 then .ok (.regular bytes)
  else .error (.exit "Attempt at parsing regular string exceeds max length\n")

def collectWeirdString (maxString : ℕ) (string : List Byte) : Except Fault Literal := do
  let bytes ← decode string
  if 3 * (bytes.length - 1) + 1 < maxString - 6 then .ok (.weird (bytes ++ [0]))
  else .error (.exit "Attempt at parsing weird string exceeds max length\n")

def parseString (maxString : ℕ) (string : List Byte) : Except Fault Literal := do
  if ← weird string then collectWeirdString maxString string
  else collectRegularString maxString string

/-- The digits of a number, up to the first character that is none. -/
def readDigits (base : ℕ) : ℤ → List Byte → ℤ
  | result, [] => result
  | result, c :: t =>
      if c = ch '_' then readDigits base result t
      else match char2hex c with
        | none => result
        | some digit =>
            if base ≤ digit then result
            else readDigits base (wrap64 (result * base + digit)) t

/-- The base of an unsigned number and its digits. -/
def numberBase (a : List Byte) : ℕ × List Byte :=
  if at' a 0 = ch '0' then
    if at' a 1 = ch 'x' ∨ at' a 1 = ch 'X' then (16, a.drop 2)
    else if at' a 1 = ch 'b' ∨ at' a 1 = ch 'B' then (2, a.drop 2)
    else (8, a.drop 1)
  else (10, a)

def strtolong (a : List Byte) : ℤ :=
  let negative := at' a 0 = ch '-'
  let a := if negative ∨ at' a 0 = ch '+' then a.drop 1 else a
  let (base, digits) := numberBase a
  let result := readDigits base 0 digits
  if negative then wrap64 (0 - result) else result

end Veron.MicroC
