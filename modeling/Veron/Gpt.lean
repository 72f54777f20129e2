/-
Reading a GUID partition table: a header at a given LBA, the array of entries it
points at, and the partitions in that array.
-/
import Veron.Fat32
import Veron.LoadOption

namespace Veron.Gpt

open Fat32 (decodeUnits readUnits)

/-- One bit of the reflected polynomial. -/
def crcBit (crc : UInt32) : UInt32 :=
  if crc &&& 1 = 1 then (crc >>> 1) ^^^ 0xedb88320 else crc >>> 1

def crcByte (crc : UInt32) (b : UInt8) : UInt32 :=
  crcBit (crcBit (crcBit (crcBit (crcBit (crcBit (crcBit (crcBit (crc ^^^ b.toUInt32))))))))

/-- CRC-32 as `zlib.crc32` computes it. -/
def crc32 (bs : List UInt8) : UInt32 := bs.foldl crcByte 0xffffffff ^^^ 0xffffffff

example : crc32 [0x31, 0x32, 0x33, 0x34, 0x35, 0x36, 0x37, 0x38, 0x39] = 0xcbf43926 := by
  decide +kernel

def SECTOR : ℕ := 512

/-- `"EFI PART"`. -/
def signature : List UInt8 := [0x45, 0x46, 0x49, 0x20, 0x50, 0x41, 0x52, 0x54]

structure Header where
  revision : ℕ
  headerSize : ℕ
  myLba : ℕ
  alternateLba : ℕ
  firstUsable : ℕ
  lastUsable : ℕ
  diskGuid : Guid
  entriesLba : ℕ
  entryCount : ℕ
  entrySize : ℕ
  entriesCrc : ℕ
deriving DecidableEq

/-- The header at an LBA.  Its CRC is that of its bytes with the field of the CRC
zero. -/
def readHeader (img : List UInt8) (lba : ℕ) : Option Header := do
  let sector := slice img (lba * SECTOR) SECTOR
  let (sig, bs) ← readBytes 8 sector
  let (revision, bs) ← readLe 4 bs
  let (headerSize, bs) ← readLe 4 bs
  let (headerCrc, bs) ← readLe 4 bs
  let (_, bs) ← readLe 4 bs
  let (myLba, bs) ← readLe 8 bs
  let (alternateLba, bs) ← readLe 8 bs
  let (firstUsable, bs) ← readLe 8 bs
  let (lastUsable, bs) ← readLe 8 bs
  let (diskGuid, bs) ← readBytes 16 bs
  let (entriesLba, bs) ← readLe 8 bs
  let (entryCount, bs) ← readLe 4 bs
  let (entrySize, bs) ← readLe 4 bs
  let (entriesCrc, _) ← readLe 4 bs
  guard (sig = signature)
  guard (92 ≤ headerSize ∧ headerSize ≤ SECTOR)
  guard ((crc32 (overwrite (sector.take headerSize) 16 [0, 0, 0, 0])).toNat = headerCrc)
  guard (myLba = lba)
  return { revision, headerSize, myLba, alternateLba, firstUsable, lastUsable
           diskGuid := Guid.ofSignature diskGuid
           entriesLba, entryCount, entrySize, entriesCrc }

/-- How many sectors the array of entries takes. -/
def Header.entrySectors (h : Header) : ℕ := (h.entryCount * h.entrySize + SECTOR - 1) / SECTOR

/-- The entries a header points at, if the array has the CRC the header gives. -/
def readEntries (img : List UInt8) (h : Header) : Option (List (List UInt8)) :=
  let array := slice img (h.entriesLba * SECTOR) (h.entryCount * h.entrySize)
  if array.length = h.entryCount * h.entrySize ∧ (crc32 array).toNat = h.entriesCrc then
    some ((List.range h.entryCount).map fun i => slice array (h.entrySize * i) h.entrySize)
  else none

structure Partition where
  typeGuid : Guid
  guid : Guid
  first : ℕ
  last : ℕ
  attributes : ℕ
  name : List Char
deriving DecidableEq

/-- An entry whose type is all zero is not used; a name ends at the first zero. -/
def readPart (entry : List UInt8) : Option Partition := do
  let (typeGuid, bs) ← readBytes 16 entry
  guard (typeGuid ≠ List.replicate 16 0)
  let (guid, bs) ← readBytes 16 bs
  let (first, bs) ← readLe 8 bs
  let (last, bs) ← readLe 8 bs
  let (attributes, bs) ← readLe 8 bs
  return { typeGuid := Guid.ofSignature typeGuid
           guid := Guid.ofSignature guid
           first, last, attributes
           name := decodeUnits ((readUnits (bs.take 72)).takeWhile (· ≠ 0)) }

def partitions (entries : List (List UInt8)) : List Partition := entries.filterMap readPart

/-- Where the structures of a table stand: the LBA and the sectors of the protective
MBR, the two headers and the two arrays. -/
def structures (primary backup : Header) : List (ℕ × ℕ) :=
  [(0, 1), (primary.myLba, 1), (primary.entriesLba, primary.entrySectors),
    (backup.entriesLba, backup.entrySectors), (backup.myLba, 1)]

/-- Two ranges of sectors, neither of which reaches into the other. -/
def Apart (p q : ℕ × ℕ) : Prop := p.1 + p.2 ≤ q.1 ∨ q.1 + q.2 ≤ p.1

end Veron.Gpt
