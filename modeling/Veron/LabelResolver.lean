/-
The label resolver, `pico-c-assembler-arm64.s`: assembly text with names in, the
same text with every reference a position out, in two passes.  Definitions carry
the names of that source's comments.

The input lies in an arena that the output buffer, the table of names and the
table of positions follow; what is read past the end of the input is the zeroed
rest of its region, then the output.
-/
import Mathlib.Algebra.Group.Nat.Defs
import Veron.SelfAssembler

namespace Veron.LabelResolver

open SelfAssembler (Byte ch isBlank isDigit)

/-- How a run stops short: the input does not fit (exit 2), names are unresolved
(exit 3), the output runs over its region, or the fuel runs out. -/
inductive Exit where
  | tooLong
  | unresolved (names : List (List Byte))
  | wild
  | running
deriving DecidableEq, Repr

/-- The bytes that end a name or a token. -/
def isSep (b : Byte) : Bool := b = 0x20 || b = 0x09 || b = 0x0a

def sksp (l : List Byte) : List Byte := l.dropWhile isBlank

/-- Past the next newline. -/
def skipnl (l : List Byte) : List Byte := (l.dropWhile (· ≠ 0x0a)).drop 1

def token (l : List Byte) : List Byte := l.takeWhile fun b => !isSep b

def afterToken (l : List Byte) : List Byte := l.dropWhile fun b => !isSep b

/-- The decoded length of a string up to its closing quote. -/
def quotedLength : List Byte → ℕ
  | [] => 0
  | b :: bs =>
      if b = ch '"' then 0
      else if b = ch '\\' then
        match bs with
        | [] => 1
        | _ :: bs => quotedLength bs + 1
      else quotedLength bs + 1

/-- Where no quote follows, w0 still holds the `.` of the directive. -/
def asciilen (l : List Byte) : ℕ :=
  match l.dropWhile (· ≠ ch '"') with
  | [] => 46
  | _ :: t => quotedLength t

/-- nametbl, each name ended by a zero, and postbl. -/
structure Labels where
  names : List Byte
  positions : List ℕ

def addlabel (t : Labels) (name : List Byte) (pos : ℕ) : Labels :=
  ⟨t.names ++ (name ++ [0]), t.positions ++ [pos % 2 ^ 32]⟩

/-- The search through `n` entries of nametbl, of which the first has index `i`. -/
def findFrom (name : List Byte) : ℕ → ℕ → List Byte → Option ℕ
  | 0, _, _ => none
  | n + 1, i, names =>
      if names.takeWhile (· ≠ 0) = name then some i
      else findFrom name n (i + 1) ((names.dropWhile (· ≠ 0)).drop 1)

def findlabel (t : Labels) (name : List Byte) : Option ℕ :=
  (findFrom name t.positions.length 0 t.names).map fun i => t.positions.getD i 0

/-- Pass 1 between two lines. -/
structure Scan where
  rest : List Byte
  pos : ℕ
  labels : Labels

/-- One round of pass 1. -/
def scan (s : Scan) : Except Exit (Option Scan) :=
  match sksp s.rest with
  | [] => .ok none
  | b :: t =>
      let line := b :: t
      if b = 0x0a then .ok (some { s with rest := t })
      else if b = ch '#' then .ok (some { s with rest := skipnl line })
      else if b = ch ':' then
        .ok (some ⟨skipnl t, s.pos, addlabel s.labels (token t) s.pos⟩)
      else if b = ch '.' then
        let size := if t.getD 0 0 = ch 'b' then 1 else asciilen line
        .ok (some { s with rest := skipnl line, pos := s.pos + size })
      else .ok (some { s with rest := skipnl line, pos := s.pos + 4 })

/-- Pass 2 between two lines, with the names that it could not resolve. -/
structure Emit where
  rest : List Byte
  out : List Byte
  missing : List (List Byte)

section

variable (slack : List Byte) (labels : Labels)

/-- `ldrb w, [x19, x20 + n]`. -/
def Emit.ahead (s : Emit) (n : ℕ) : Byte := (s.rest ++ (slack ++ s.out)).getD n 0

def Emit.put (s : Emit) (bs : List Byte) : Emit := { s with out := s.out ++ bs }

def Emit.sksp (s : Emit) : Emit := { s with rest := LabelResolver.sksp s.rest }

def Emit.cptok (s : Emit) : Emit :=
  { s with rest := afterToken s.rest, out := s.out ++ token s.rest }

def Emit.cpline (s : Emit) : Emit :=
  { s with
    rest := skipnl s.rest
    out := s.out ++ s.rest.take ((s.rest.takeWhile (· ≠ 0x0a)).length + 1) }

def Emit.emitnl (s : Emit) : Emit :=
  { s with rest := skipnl s.rest, out := s.out ++ [0x0a] }

/-- The last `n` decimal digits of a number. -/
def emitpos : ℕ → ℕ → List Byte
  | 0, _ => []
  | n + 1, v => emitpos n (v / 10) ++ [BitVec.ofNat 8 (v % 10 + 0x30)]

/-- The target of a reference: a position is copied, a name is looked up. -/
def Emit.target (s : Emit) : Emit :=
  let b := s.ahead slack 0
  if b = ch '@' ∨ isDigit b then s.cptok.emitnl
  else
    let name := token s.rest
    let s := { s with rest := afterToken s.rest }
    match findlabel labels name with
    | some pos => (s.put (ch '@' :: emitpos 9 pos)).emitnl
    | none =>
        (({ s with missing := s.missing ++ [name] } : Emit).put (ch '@' :: emitpos 9 0)).emitnl

/-- A token and the space in place of the blanks after it. -/
def Emit.field (s : Emit) : Emit := (s.cptok.put [0x20]).sksp

/-- Whether a line that begins with `b` names a target. -/
def Emit.isBranch (s : Emit) : Bool :=
  let c := s.ahead slack 1
  c = ch ' ' || c = ch '.' || (c = ch 'l' && s.ahead slack 2 ≠ ch 'r')

def Emit.isAdr (s : Emit) : Bool := s.ahead slack 1 = ch 'd' && s.ahead slack 2 = ch 'r'

/-- A line of pass 2, past its first blanks. -/
def emitLine (s : Emit) : Except Exit (Option Emit) :=
  match s.rest with
  | [] => .ok none
  | b :: t =>
      if b = 0x0a then .ok (some { s with rest := t })
      else if b = ch ':' then .ok (some { s with rest := skipnl s.rest })
      else if b = ch '#' then .ok (some s.cpline)
      else if b = ch 'a' ∧ s.isAdr slack then .ok (some (s.field.field.target slack labels))
      else if b = ch 'b' ∧ s.isBranch slack then .ok (some (s.field.target slack labels))
      else .ok (some s.cpline)

/-- One round of pass 2. -/
def emit (s : Emit) : Except Exit (Option Emit) := emitLine slack labels s.sksp

end

/-- Every round reads at least one character. -/
def rounds (input : List Byte) : ℕ := input.length + 1

def pass1 (input : List Byte) : Except Exit Scan :=
  Loop.run .running scan (rounds input) ⟨input, 0, [], []⟩

/-- The length of the input's region. -/
def region (n : ℕ) : ℕ := max ((n + 4095) / 4096 * 4096) 0x10000

def slackOf (input : List Byte) : List Byte :=
  List.replicate (region input.length - input.length) 0

def pass2 (labels : Labels) (input : List Byte) : Except Exit Emit :=
  Loop.run .running (emit (slackOf input) labels) (rounds input) ⟨input, [], []⟩

/-- The whole program: what it writes when it exits 0. -/
def resolve (input : List Byte) : Except Exit (List Byte) :=
  if input.length < 0x2000000 then do
    let first ← pass1 input
    let last ← pass2 first.labels input
    if 4 * region input.length < last.out.length then .error .wild
    else if last.missing = [] then .ok last.out
    else .error (.unresolved last.missing)
  else .error .tooLong

end Veron.LabelResolver
