/-
`s0_roundtrip.py`: the instructions of a source listing and those of a disassembly, each reduced
to a text, and compared in pairs.
-/
import Veron.CutText
import Veron.IntegerText
import Veron.Regex

namespace Veron.Roundtrip

open CutText Regex

/-- What Python has of Unicode: `str.isspace`, the `\w` of `re`, the digits that `\d` matches with
their values; and what `re` puts for a replacement template and the text that it replaces, if the
template is one. -/
structure Python where
  isSpace : Char → Bool
  isWord : Char → Bool
  decimal : Char → Option ℕ
  template : List Char → List Char → Option (List Char)
  space : isSpace ' '
  digit : ∀ c : Char, c.isDigit → (decimal c).isSome

variable (py : Python)

/-- `[0-9a-f]`. -/
def hexDigit (c : Char) : Bool := c.isDigit || ('a' ≤ c && c ≤ 'f')

/-- `[0-9a-fA-F]`. -/
def anyHexDigit (c : Char) : Bool := hexDigit c || ('A' ≤ c && c ≤ 'F')

/-- `[A-Za-z_]`. -/
def nameStart (c : Char) : Bool := c.isAlpha || c = '_'

/-- `[\t ]`. -/
def blank (c : Char) : Bool := c = '\t' || c = ' '

def space : Regex Char := .one py.isSpace

def hexes : Regex Char := plus (.one hexDigit)

/-- `\b`. -/
def wordEdge : Regex Char := .edge fun a b => a.any py.isWord != b.any py.isWord

/-- `$`, in a text of one line. -/
def atEnd : Regex Char := .edge fun _ b => b.isNone

def text (s : String) : Regex Char := literal s.toList

/-- `.`. -/
def anyChar : Regex Char := .one (· ≠ '\n')

/-- `DIS`. -/
def disLine : Regex Char :=
  seqs [.star (space py), .group 1 hexes, text ":", plus (space py),
    optional (seqs [.one hexDigit, .one hexDigit,
      optional (.star (.one fun c => hexDigit c || c = ' ')), plus (.one blank)]),
    .group 2 (.seq (.one fun c => c.isLower) (.star (.one fun c =>
      c.isLower || c.isDigit || c = '.' || c = '_'))),
    .star (.one blank), .group 3 (.star anyChar), atEnd]

/-- `SYM`. -/
def symLine : Regex Char :=
  seqs [.star (space py), .group 1 hexes, plus (space py), text "<",
    .group 2 (plus (.one (· ≠ '>'))), text ">:"]

/-- `SRC`. -/
def srcLine : Regex Char :=
  seqs [plus (space py),
    .group 1 (.seq (.one fun c => c.isLower) (.star (.one fun c =>
      c.isLower || c.isDigit || c = '.'))),
    .star (space py), .group 2 (.star anyChar), atEnd]

/-- `\b0x([0-9a-f]+)\s+<`. -/
def hexTarget : Regex Char :=
  seqs [wordEdge py, text "0x", .group 1 hexes, plus (space py), text "<"]

/-- `\b[0-9a-f]+\s+<([A-Za-z_][\w.]*)(?:\+0x[0-9a-f]+)?>`; the offset is a group here. -/
def symbolTarget : Regex Char :=
  seqs [wordEdge py, hexes, plus (space py), text "<",
    .group 1 (.seq (.one nameStart) (.star (.one fun c => py.isWord c || c = '.'))),
    optional (.seq (text "+0x") (.group 2 hexes)), text ">"]

/-- `<[^>]*>`. -/
def annotation : Regex Char := seqs [text "<", .star (.one (· ≠ '>')), text ">"]

/-- `#'(\\?.)'`. -/
def charLiteral : Regex Char :=
  seqs [text "#'", .group 1 (.seq (optional (text "\\")) anyChar), text "'"]

/-- `-?0x[0-9a-fA-F]+`. -/
def hexNumber : Regex Char := seqs [optional (text "-"), text "0x", plus (.one anyHexDigit)]

/-- `-?\d+`. -/
def decNumber : Regex Char :=
  .seq (optional (text "-")) (plus (.one fun c => (py.decimal c).isSome))

/-- `'.'`. -/
def quoted : Regex Char := seqs [text "'", anyChar, text "'"]

/-- `\s*\.equ\s+([A-Za-z_]\w*)\s*,\s*(\S+)`. -/
def equLine : Regex Char :=
  seqs [.star (space py), text ".equ", plus (space py),
    .group 1 (.seq (.one nameStart) (.star (.one py.isWord))), .star (space py), text ",",
    .star (space py), .group 2 (plus (.one fun c => !py.isSpace c))]

/-- `^[A-Za-z_]\w*:\s*$`. -/
def labelLine : Regex Char :=
  seqs [.one nameStart, .star (.one py.isWord), text ":", .star (space py), atEnd]

/-- `#%s\b`; a name stands for itself in an expression. -/
def constant (name : List Char) : Regex Char := seqs [text "#", literal name, wordEdge py]

/-- `split(sep)[0]`. -/
def upTo (sep : List Char) : List Char → List Char
  | [] => []
  | c :: rest => if sep <+: c :: rest then [] else c :: upTo sep rest

def rstrip (t : List Char) : List Char := t.rdropWhile py.isSpace

def strip (t : List Char) : List Char := rstrip py (t.dropWhile py.isSpace)

/-- `split()`. -/
def split (t : List Char) : List (List Char) := (t.splitOnP py.isSpace).filter (· ≠ [])

/-- `str` of a number. -/
def digits (n : ℕ) : List Char := Nat.toDigits 10 n

/-- `ord` of the character that a literal writes, unless it writes two. -/
def charCode : List Char → Option ℕ
  | ['\\', 'n'] => some 10
  | ['\\', 't'] => some 9
  | ['\\', 'r'] => some 13
  | ['\\', '0'] => some 0
  | ['\\', '\\'] => some 92
  | [c] => some c.toNat
  | _ => none

structure Insn where
  mn : List Char
  ops : List Char
deriving DecidableEq

/-- The operands without a comment, and with addresses as objdump writes them. -/
def bare (ops : List Char) : List Char :=
  sub (hexTarget py) (fun m => m.group 1 ++ " <".toList)
    (strip py (upTo [';'] (upTo "//".toList ops)))

/-- What `for t in o.split()` goes through in `norm`. -/
def tokens (ops : List Char) : Option (List (List Char)) := do
  let o := sub (symbolTarget py) (fun m => m.group 1) (bare py ops)
  let o := sub annotation (fun _ => []) o
  let o ← subM charLiteral (fun m => (charCode (m.group 1)).map digits) o
  let o := (o.map fun c => if c = ',' then ' ' else c).filter (· ≠ '#')
  return split py (strip py (sub (plus (space py)) (fun _ => [' ']) o))

def magnitude (base : ℕ) (digit : Char → Option ℕ) (t : List Char) : ℕ :=
  t.foldl (fun n c => base * n + (digit c).getD 0) 0

def signed (magnitude : List Char → ℕ) : List Char → ℤ
  | '-' :: t => -(magnitude t : ℤ)
  | t => magnitude t

/-- The number that a token writes, `int(t, 16)`, `int(t)` or `ord(t[1])`. -/
def value (t : List Char) : Option ℤ :=
  if (hexNumber.fullmatch t).isSome then
    some (signed (fun t => magnitude 16 IntegerText.digitOf (t.drop 2)) t)
  else if ((decNumber py).fullmatch t).isSome then some (signed (magnitude 10 py.decimal) t)
  else if (quoted.fullmatch t).isSome then some (t.getD 1 ' ').toNat
  else none

/-- `v & 0xFFFFFFFF if v < 0 else v`. -/
def fold (v : ℤ) : ℕ := if v < 0 then (v % 2 ^ 32).toNat else v.toNat

def canon (t : List Char) : List Char :=
  match value py t with
  | some v => digits (fold v)
  | none => t

/-- `none` where `ord` is given two characters. -/
def norm (i : Insn) : Option Insn :=
  (tokens py i.ops).map fun ts => ⟨i.mn, [' '].intercalate (ts.map (canon py))⟩

/-- A key keeps its place in a dictionary. -/
def setEqu (equ : List (List Char × List Char)) (k v : List Char) : List (List Char × List Char) :=
  if equ.any (·.1 = k) then equ.map fun e => if e.1 = k then (k, v) else e else equ ++ [(k, v)]

/-- `for k, v in equ.items()`. -/
def substitute : List (List Char × List Char) → List Char → Option (List Char)
  | [], ops => some ops
  | (k, v) :: equ, ops => do
      let repl ← py.template ('#' :: v) ('#' :: k)
      substitute equ (sub (constant py k) (fun _ => repl) ops)

/-- A line of `read_source`: the constants after it, and its instruction.  Data is left out. -/
def sourceLine (equ : List (List Char × List Char)) (ln : List Char) :
    Option (List (List Char × List Char) × Option Insn) :=
  let raw := rstrip py (upTo "//".toList ln)
  if strip py raw = [] then some (equ, none)
  else
    match (equLine py).matchStart raw with
    | some m => some (setEqu equ (m.group 1) (m.group 2), none)
    | none =>
        if ((labelLine py).matchStart (strip py raw)).isSome then some (equ, none)
        else if (strip py raw).head? = some '.' then some (equ, none)
        else
          match (srcLine py).matchStart raw with
          | none => some (equ, none)
          | some m => (substitute py equ (m.group 2)).map fun ops => (equ, some ⟨m.group 1, ops⟩)

def sourceInsns : List (List Char × List Char) → List (List Char) → Option (List Insn)
  | _, [] => some []
  | equ, ln :: rest => do
      let (equ, i) ← sourceLine py equ ln
      return i.toList ++ (← sourceInsns equ rest)

/-- `read_objdump`: every instruction with the symbol that it is under. -/
def objdumpInsns : Option (List Char) → List (List Char) → List (Option (List Char) × Insn)
  | _, [] => []
  | cur, ln :: rest =>
      match (symLine py).matchStart ln with
      | some m => objdumpInsns (some (m.group 2)) rest
      | none =>
          match (disLine py).matchStart ln with
          | some m => (cur, ⟨m.group 2, m.group 3⟩) :: objdumpInsns cur rest
          | none => objdumpInsns cur rest

/-- `DATA_SYMS`. -/
def dataSyms : List (List Char) := ["inover".toList, "rejmsg".toList, "rejnl".toList]

def isCode (sym : Option (List Char)) : Bool := !sym.any fun s => dataSyms.any (· = s)

/-- The source's instructions. -/
def readSource (source : List Char) : Option (List Insn) := sourceInsns py [] (lines source)

/-- The disassembly's instructions that are not under a data symbol. -/
def readObjdump (dump : List Char) : List Insn :=
  ((objdumpInsns py none (lines dump)).filter fun e => isCode e.1).map Prod.snd

/-- The exit code of `main`; `none` where an exception ends it. -/
def main (budget : Option ℤ) (source dump : List Char) : Option ℕ := do
  let src ← (← readSource py source).mapM (norm py)
  let all ← (objdumpInsns py none (lines dump)).mapM fun e => (norm py e.2).map fun i => (e.1, i)
  let dis := (all.filter fun e => isCode e.1).map Prod.snd
  let diff := (src.zip dis).filter fun e => e.1 ≠ e.2
  let real := diff.filter fun e => e.1.ops ≠ e.2.ops
  match budget with
  | none => return 0
  | some budget => return if budget < real.length then 1 else 0

end Veron.Roundtrip
