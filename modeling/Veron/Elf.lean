/-
What the driver reads from an ELF file: its interpreter, its soname and the names
of the libraries it needs.
-/
import Mathlib.Data.List.DropRight
import Veron.Bytes
import Veron.Regions

namespace Veron.Elf

/-- Where the decoder is: at the start of a character, or `left` bytes from the end
of one, the next of them from `lo` to `hi`. -/
inductive Decoder where
  | start
  | inside (left : ℕ) (lo hi : UInt8) (value : ℕ)

def replacement : Char := Char.ofNat 0xfffd

/-- A byte at the start of a character: what it decodes to, and what is to follow. -/
def decodeStart (b : UInt8) : List Char × Decoder :=
  if b < 0x80 then ([Char.ofNat b.toNat], .start)
  else if 0xc2 ≤ b && b ≤ 0xdf then ([], .inside 1 0x80 0xbf (b.toNat - 0xc0))
  else if b = 0xe0 then ([], .inside 2 0xa0 0xbf 0)
  else if b = 0xed then ([], .inside 2 0x80 0x9f 0xd)
  else if 0xe1 ≤ b && b ≤ 0xef then ([], .inside 2 0x80 0xbf (b.toNat - 0xe0))
  else if b = 0xf0 then ([], .inside 3 0x90 0xbf 0)
  else if 0xf1 ≤ b && b ≤ 0xf3 then ([], .inside 3 0x80 0xbf (b.toNat - 0xf0))
  else if b = 0xf4 then ([], .inside 3 0x80 0x8f 4)
  else ([replacement], .start)

def decodeByte : Decoder → UInt8 → List Char × Decoder
  | .start, b => decodeStart b
  | .inside left lo hi value, b =>
      if lo ≤ b && b ≤ hi then
        let value := value * 64 + (b.toNat - 0x80)
        if left ≤ 1 then ([Char.ofNat value], .start)
        else ([], .inside (left - 1) 0x80 0xbf value)
      else
        -- What has begun is replaced as a whole, and this byte starts anew.
        let (cs, d) := decodeStart b
        (replacement :: cs, d)

def decodeFrom : Decoder → List UInt8 → List Char
  | .start, [] => []
  | .inside _ _ _ _, [] => [replacement]
  | d, b :: bs => (decodeByte d b).1 ++ decodeFrom (decodeByte d b).2 bs

/-- `bs.decode("utf-8", "replace")`. -/
def decode (bs : List UInt8) : List Char := decodeFrom .start bs

example : decode [0x61, 0xc3, 0xa9, 0xff, 0xe2, 0x82, 0x62] =
    ['a', 'é', replacement, replacement, 'b'] := by decide

/-- `int.from_bytes`. -/
def fromBytes (little : Bool) (bs : List UInt8) : ℕ := if little then leValue bs else beValue bs

/-- Where the fields of a class are: those of the file header, then those of a
program header; and the bytes of a word. -/
structure Offsets where
  phoff : ℕ
  phentsize : ℕ
  phnum : ℕ
  ptOff : ℕ
  ptVaddr : ℕ
  ptFilesz : ℕ
  word : ℕ

def offsets (wide : Bool) : Offsets :=
  if wide then ⟨0x20, 0x36, 0x38, 0x08, 0x10, 0x20, 8⟩
  else ⟨0x1c, 0x2a, 0x2c, 0x04, 0x08, 0x10, 4⟩

/-- The bytes of a file, and how its header says to read them. -/
structure Reader where
  b : List UInt8
  wide : Bool
  little : Bool

namespace Reader

variable (r : Reader)

def u (off size : ℕ) : ℕ := fromBytes r.little (slice r.b off size)

def o : Offsets := offsets r.wide

def W : ℕ := r.o.word

def phoff : ℕ := r.u r.o.phoff r.W

def phentsize : ℕ := r.u r.o.phentsize 2

def phnum : ℕ := r.u r.o.phnum 2

end Reader

/-- The checks before anything is read. -/
def reader (b : List UInt8) : Option Reader :=
  if b.length < 64 ∨ slice b 0 4 ≠ [0x7f, 0x45, 0x4c, 0x46] then none
  else some ⟨b, b.getD 4 0 = 2, b.getD 5 0 = 1⟩

/-- The loop over the program headers from `i` on, of which `n` are left. -/
def interpLoop (r : Reader) : ℕ → ℕ → Option (List UInt8)
  | 0, _ => none
  | n + 1, i =>
      let p := r.phoff + i * r.phentsize
      if r.b.length < p + r.phentsize then none
      else if r.u p 4 = 3 then
        let off := r.u (p + r.o.ptOff) r.W
        let sz := r.u (p + r.o.ptFilesz) r.W
        some ((slice r.b off sz).rdropWhile (· = 0))
      else interpLoop r n (i + 1)

/-- What is read of the file. -/
def window : ℕ := 65536

/-- `elf_interp`, of a file that may not open. -/
def elfInterp (file : Option (List UInt8)) : Option (List Char) := do
  let contents ← file
  let r ← reader (contents.take window)
  let text ← interpLoop r r.phnum 0
  some (decode text)

structure Load where
  vaddr : ℕ
  off : ℕ
  filesz : ℕ

/-- `loads` and `dyn`, after the program headers from `i` on. -/
def headersLoop (r : Reader) : ℕ → ℕ → List Load → Option (ℕ × ℕ) →
    Option (List Load × Option (ℕ × ℕ))
  | 0, _, loads, dyn => some (loads, dyn)
  | n + 1, i, loads, dyn =>
      let p := r.phoff + i * r.phentsize
      if r.b.length < p + r.phentsize then none
      else
        let ptype := r.u p 4
        let off := r.u (p + r.o.ptOff) r.W
        let vaddr := r.u (p + r.o.ptVaddr) r.W
        let filesz := r.u (p + r.o.ptFilesz) r.W
        if ptype = 1 then headersLoop r n (i + 1) (loads ++ [⟨vaddr, off, filesz⟩]) dyn
        else if ptype = 2 then headersLoop r n (i + 1) loads (some (off, filesz))
        else headersLoop r n (i + 1) loads dyn

/-- Virtual address to file offset. -/
def v2o (loads : List Load) (vaddr : ℕ) : Option ℕ :=
  (loads.find? fun l => l.vaddr ≤ vaddr && vaddr < l.vaddr + l.filesz).map fun l =>
    l.off + (vaddr - l.vaddr)

/-- The entries from `p` on, of which there are `n` at most, up to `DT_NULL`. -/
def entriesLoop (r : Reader) : ℕ → ℕ → List (ℕ × ℕ)
  | 0, _ => []
  | n + 1, p =>
      let tag := r.u p r.W
      let val := r.u (p + r.W) r.W
      if tag = 0 then [] else (tag, val) :: entriesLoop r n (p + r.W * 2)

/-- How many numbers `range(start, stop, step)` has. -/
def rangeCount (start stop step : ℕ) : ℕ := (stop - start + (step - 1)) / step

def dynEntries (r : Reader) (off size : ℕ) : List (ℕ × ℕ) :=
  let step := r.W * 2
  let stop := min (off + size) (r.b.length - step + 1)
  entriesLoop r (rangeCount off stop step) off

/-- The value the loop leaves for a tag. -/
def lastValue (entries : List (ℕ × ℕ)) (tag : ℕ) : Option ℕ :=
  (entries.reverse.find? fun e => e.1 = tag).map Prod.snd

/-- `b.find(b"\x00", i, stop)`. -/
def findZero (b : List UInt8) (i stop : ℕ) : Option ℕ :=
  let k := (slice b i (stop - i)).findIdx (· = 0)
  if k < (slice b i (stop - i)).length then some (i + k) else none

/-- `s`, the string at an index of the table. -/
def str (b : List UInt8) (base : ℕ) (strsz : Option ℕ) (idx : ℕ) : List UInt8 :=
  let i := base + idx
  if b.length ≤ i then []
  else
    let stop := if strsz.getD 0 = 0 then b.length else base + strsz.getD 0
    match findZero b i stop with
    | some j => if 0 < j then slice b i (j - i) else []
    | none => []

/-- The soname and the needed names, as bytes. -/
def dynNames (r : Reader) (loads : List Load) (off size : ℕ) :
    Option (List UInt8) × List (List UInt8) :=
  let entries := dynEntries r off size
  match (lastValue entries 5).bind (v2o loads) with
  | none => (none, [])
  | some base =>
      let s := str r.b base (lastValue entries 10)
      ((lastValue entries 14).map s, (entries.filter fun e => e.1 = 1).map fun e => s e.2)

/-- `elf_dynamic`, of a file that may not open. -/
def elfDynamic (file : Option (List UInt8)) : Option (List Char) × List (List Char) :=
  match file.bind reader with
  | none => (none, [])
  | some r =>
      match headersLoop r r.phnum 0 [] none with
      | some (loads, some (off, size)) =>
          let names := dynNames r loads off size
          (names.1.map decode, names.2.map decode)
      | _ => (none, [])

end Veron.Elf
