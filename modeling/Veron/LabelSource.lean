/-
Programs for the label resolver, line by line: their text, and the bytes that
they stand for with every name bound to a position.
-/
import Veron.LabelResolver
import Veron.SelfAssemblerSyntax

namespace Veron.LabelResolver

open SelfAssembler (Byte Word ch isBlank isDigit isRegLetter text valueOf LineEnd Line.run
  parseItem wordBytes RefForm condName Code Item)

/-- A name, which is no position. -/
structure Label where
  text : List Byte
  ne_nil : text ≠ []
  no_sep : ∀ b ∈ text, isSep b = false
  start : ∀ b ∈ text.head?, b ≠ ch '@' ∧ isDigit b = false
deriving DecidableEq

structure Digits where
  text : List Byte
  ne_nil : text ≠ []
  digit : ∀ b ∈ text, isDigit b = true

/-- Blanks between two fields. -/
structure Gap where
  text : List Byte
  ne_nil : text ≠ []
  blank : ∀ b ∈ text, isBlank b = true

/-- Blanks at the beginning of a line. -/
structure Indent where
  text : List Byte
  blank : ∀ b ∈ text, isBlank b = true

/-- What may follow an item on its line: blanks, and a comment after them. -/
structure Tail where
  text : List Byte
  blank : ∀ b ∈ text.head?, isBlank b = true
  comment : ∀ b ∈ (text.dropWhile isBlank).head?, b = ch '#'
  line : 0x0a ∉ text

/-- A character of a string, as it is written. -/
inductive StrChar where
  | plain (b : Byte) (h : b ≠ ch '"' ∧ b ≠ ch '\\' ∧ b ≠ 0x0a)
  | escaped (b : Byte) (h : b ≠ 0x0a)

def StrChar.text : StrChar → List Byte
  | .plain b _ => [b]
  | .escaped b _ => [ch '\\', b]

def StrChar.value : StrChar → Byte
  | .plain b _ => b
  | .escaped b _ => if b = ch 'n' then 0x0a else b

/-- An instruction of one line that names no target: the self-assembler reads this
text, and nothing of the next line, as an instruction with the word `w`. -/
def ReadsWord (t : List Byte) (w : Word) : Prop :=
  0x0a ∉ t ∧ ∀ rest, LineEnd rest →
    ∃ nw, parseItem.run ⟨t ++ rest, false⟩ = .ok (.code (.word w), ⟨rest, nw⟩)

/-- What an instruction that names a target begins with. -/
inductive Head where
  | adr (gap : Gap) (letter : Byte) (hletter : isRegLetter letter = true) (reg : Digits)
      (hreg : valueOf reg.text < 32) (gap' : Gap)
  | b
  | bl
  | bcond (c : A64.Cond)

def Head.text : Head → List Byte
  | .adr gap letter _ reg _ gap' =>
      SelfAssembler.text ['a', 'd', 'r'] ++ (gap.text ++ letter :: (reg.text ++ gap'.text))
  | .b => SelfAssembler.text ['b', ' ']
  | .bl => SelfAssembler.text ['b', 'l', ' ']
  | .bcond c => SelfAssembler.text ['b', '.'] ++ [(condName c).1, (condName c).2, ch ' ']

def Head.form : Head → RefForm
  | .adr _ _ _ reg _ _ => .adr (BitVec.ofNat 32 (valueOf reg.text))
  | .b => .b
  | .bl => .bl
  | .bcond c => .bcond (BitVec.ofNat 32 c.code)

inductive Target where
  | name (l : Label)
  | pos (digits : Digits)

def Target.text : Target → List Byte
  | .name l => l.text
  | .pos digits => ch '@' :: digits.text

inductive Body where
  | define (l : Label)
  | byte (gap : Gap) (digits : Digits)
  | ascii (gap : Gap) (s : List StrChar)
  | word (t : List Byte) (w : Word) (h : ReadsWord t w)
  | refer (head : Head) (target : Target)

def Body.text : Body → List Byte
  | .define l => ch ':' :: l.text
  | .byte gap digits => SelfAssembler.text ['.', 'b', 'y', 't', 'e'] ++ (gap.text ++ digits.text)
  | .ascii gap s =>
      SelfAssembler.text ['.', 'a', 's', 'c', 'i', 'i'] ++
        (gap.text ++ ch '"' :: (s.flatMap StrChar.text ++ [ch '"']))
  | .word t _ _ => t
  | .refer head target => head.text ++ target.text

/-- A line of a program. -/
inductive SrcLine where
  | blank (indent : Indent)
  | comment (indent : Indent) (t : List Byte) (h : 0x0a ∉ t)
  | item (indent : Indent) (body : Body) (tail : Tail)

def SrcLine.text : SrcLine → List Byte
  | .blank indent => indent.text
  | .comment indent t _ => indent.text ++ ch '#' :: t
  | .item indent body tail => indent.text ++ (body.text ++ tail.text)

/-- A newline and a line, for each line. -/
def more (ls : List SrcLine) : List Byte := ls.flatMap fun l => 0x0a :: l.text

/-- The text of a program, its lines with newlines between them. -/
def source : List SrcLine → List Byte
  | [] => []
  | l :: ls => l.text ++ more ls

def Body.size : Body → ℕ
  | .define _ => 0
  | .byte _ _ => 1
  | .ascii _ s => s.length
  | .word _ _ _ => 4
  | .refer _ _ => 4

def SrcLine.size : SrcLine → ℕ
  | .item _ body _ => body.size
  | _ => 0

def SrcLine.defines : SrcLine → Option Label
  | .item _ (.define l) _ => some l
  | _ => none

/-- The number of bytes that lines emit. -/
def sizes (ls : List SrcLine) : ℕ := (ls.map SrcLine.size).sum

def SrcLine.places (l : SrcLine) (pos : ℕ) : List (Label × ℕ) :=
  (l.defines.map fun n => (n, pos)).toList

/-- Every definition, with the number of bytes emitted before it. -/
def places : List SrcLine → ℕ → List (Label × ℕ)
  | [], _ => []
  | l :: ls, pos => l.places pos ++ places ls (pos + l.size)

def place (ls : List SrcLine) (n : Label) : Option ℕ :=
  ((places ls 0).find? fun e => e.1 = n).map Prod.snd

/-- The position that a target stands for. -/
def Target.value (bind : Label → Option ℕ) : Target → Option Word
  | .name l => (bind l).map (BitVec.ofNat 32)
  | .pos digits => some (BitVec.ofNat 32 (valueOf digits.text))

/-- The bytes that an item at a position stands for. -/
def Body.bytes (bind : Label → Option ℕ) (pos : ℕ) : Body → Option (List Byte)
  | .define _ => some []
  | .byte _ digits => some [BitVec.ofNat 8 (valueOf digits.text)]
  | .ascii _ s => some (s.map StrChar.value)
  | .word _ w _ => some (wordBytes w)
  | .refer head target =>
      (target.value bind).map fun p => wordBytes (head.form.word (p - BitVec.ofNat 32 pos))

def SrcLine.bytes (bind : Label → Option ℕ) (pos : ℕ) : SrcLine → Option (List Byte)
  | .item _ body _ => body.bytes bind pos
  | _ => some []

def bytesFrom (bind : Label → Option ℕ) : List SrcLine → ℕ → Option (List Byte)
  | [], _ => some []
  | l :: ls, pos => do
      let first ← l.bytes bind pos
      let rest ← bytesFrom bind ls (pos + l.size)
      pure (first ++ rest)

/-- A program assembled as it stands. -/
def direct (ls : List SrcLine) : Option (List Byte) := bytesFrom (place ls) ls 0

/-- The names that are defined, in order. -/
def defined (ls : List SrcLine) : List Label := ls.filterMap SrcLine.defines

end Veron.LabelResolver
