/-
veron-mkgpt: a GUID partition table written into a disk image, its primary part at
the start and its backup at the end.
-/
import Veron.Gpt
import Veron.MkFat
import Veron.MkGptGuid

namespace Veron.MkGpt

open Gpt (crc32)
open MkFat (utf16)

inductive Error where
  /-- `SystemExit` with its message -/
  | exit (message : String)
  /-- `bytes.fromhex` of something else -/
  | value
  /-- `struct.error`: a number that does not fit its field -/
  | struct
  /-- a seek to before the start of the file -/
  | os
deriving DecidableEq

def SECTOR : ℕ := 512

def ENTRIES : ℕ := 128

def ENTRY_SIZE : ℕ := 128

/-- A partition of the layout. -/
structure Part where
  name : List Char
  typeGuid : List Char
  guid : List Char
  first : ℤ
  last : ℤ
  attrs : ℤ
deriving DecidableEq

structure Layout where
  diskGuid : List Char
  parts : List Part
deriving DecidableEq

/-- A number in a field of `struct.pack`. -/
def pack (n : ℕ) (v : ℤ) : Except Error (List UInt8) :=
  if 0 ≤ v ∧ v < 256 ^ n then .ok (leBytes n v.toNat) else .error .struct

/-- A field `16s` of `struct.pack`: cut off, or filled up with zeros. -/
def pack16s (bs : List UInt8) : List UInt8 :=
  bs.take 16 ++ List.replicate (16 - bs.length) 0

/-- `guid_bytes` with the two ways in which it fails. -/
def guidField (text : List Char) : Except Error (List UInt8) :=
  if (digits text).length ≠ 32 then .error (.exit ("bad GUID: " ++ String.ofList text))
  else
    match guidBytes text with
    | some g => .ok (pack16s g)
    | none => .error .value

/-- `struct.pack("<16s16sQQQ", …)`. -/
def packPart (p : Part) : Except Error (List UInt8) := do
  let typeGuid ← guidField p.typeGuid
  let guid ← guidField p.guid
  let first ← pack 8 p.first
  let last ← pack 8 p.last
  let attrs ← pack 8 p.attrs
  return typeGuid ++ (guid ++ (first ++ (last ++ attrs)))

/-- `name.encode("utf-16-le")`. -/
def nameBytes (name : List Char) : List UInt8 := (name.flatMap utf16).flatMap (leBytes 2)

/-- The loop that fills the array, from the `i`-th partition on. -/
def placeParts : ℕ → List Part → List UInt8 → Except Error (List UInt8)
  | _, [], blob => .ok blob
  | i, p :: parts, blob => do
      let e ← packPart p
      let name := nameBytes p.name
      if 72 < name.length then
        throw (.exit ("partition name too long: " ++ String.ofList p.name))
      let blob := overwrite blob (i * ENTRY_SIZE) e
      placeParts (i + 1) parts (overwrite blob (i * ENTRY_SIZE + 56) name)

/-- `header`; both calls of `struct.pack_into` write over the CRC. -/
def header (diskGuid : List Char) (firstUsable lastUsable : ℤ) (entriesCrc : UInt32)
    (myLba altLba entriesStart : ℤ) : Except Error (List UInt8) := do
  let h := overwrite (List.replicate 92 0) 0 (Gpt.signature ++ [0, 0, 1, 0] ++ leBytes 4 92 ++
    leBytes 4 0)
  let guid ← guidField diskGuid
  let my ← pack 8 myLba
  let alt ← pack 8 altLba
  let firstU ← pack 8 firstUsable
  let lastU ← pack 8 lastUsable
  let entries ← pack 8 entriesStart
  let h := overwrite h 16 (leBytes 4 0 ++ leBytes 4 0 ++ my ++ alt ++ firstU ++ lastU ++ guid ++
    entries ++ leBytes 4 ENTRIES ++ leBytes 4 ENTRY_SIZE ++ leBytes 4 entriesCrc.toNat)
  return overwrite h 16 (leBytes 4 (crc32 h).toNat) ++ List.replicate (SECTOR - 92) 0

/-- The protective MBR: one partition of type 0xEE over so many sectors. -/
def protectiveMbr (spanned : List UInt8) : List UInt8 :=
  overwrite (overwrite (List.replicate SECTOR 0) 446
    ([0x00, 0x00, 0x02, 0x00, 0xee, 0xff, 0xff, 0xff] ++ leBytes 4 1 ++ spanned)) 510 [0x55, 0xaa]

structure Table where
  mbr : List UInt8
  primary : List UInt8
  entries : List UInt8
  backup : List UInt8

def build (diskSize : ℕ) (diskGuid : List Char) (parts : List Part) : Except Error Table := do
  let totalLba := diskSize / SECTOR
  let entriesLba := 32 * SECTOR / SECTOR
  let firstUsable := 2 + entriesLba
  let lastUsable : ℤ := totalLba - 1 - entriesLba - 1
  let entryBlob ← placeParts 0 parts (List.replicate (ENTRIES * ENTRY_SIZE) 0)
  let entriesCrc := crc32 entryBlob
  let spanned ← pack 4 (min (totalLba - 1) 0xffffffff)
  let primary ← header diskGuid firstUsable lastUsable entriesCrc 1 (totalLba - 1) 2
  let backup ← header diskGuid firstUsable lastUsable entriesCrc (totalLba - 1) 1
    (totalLba - 1 - entriesLba)
  return ⟨protectiveMbr spanned, primary, entryBlob, backup⟩

/-- What `main` makes of the image, and how it ends. -/
def main (image : List UInt8) (layout : Layout) : List UInt8 × Except Error Unit :=
  if image.length % SECTOR ≠ 0 then (image, .error (.exit "image size is not sector-aligned"))
  else
    match build image.length layout.diskGuid layout.parts with
    | .error e => (image, .error e)
    | .ok table =>
        let written := overwrite image 0 table.mbr
        let written := overwrite written SECTOR table.primary
        let written := overwrite written (2 * SECTOR) table.entries
        let back := (1 + table.entries.length / SECTOR) * SECTOR
        if image.length < back then (written, .error .os)
        else
          let written := overwrite written (image.length - back) table.entries
          (overwrite written (image.length - back + table.entries.length) table.backup, .ok ())

end Veron.MkGpt
