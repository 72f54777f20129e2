/-
Reading a FAT32 volume: the geometry from its boot sector, chains of clusters
through the first FAT, directory slots with their long names, and from the root
directory the whole tree.
-/
import Veron.Bytes
import Veron.FileTree
import Veron.Regions

namespace Veron.Fat32

/-- The number in `n` bytes at `off`. -/
def field (bs : List UInt8) (off n : ℕ) : ℕ := leValue (slice bs off n)

/-- What the boot sector says about the volume; sizes are in sectors. -/
structure Geometry where
  bytesPerSector : ℕ
  sectorsPerCluster : ℕ
  reserved : ℕ
  numFats : ℕ
  totalSectors : ℕ
  fatSectors : ℕ
  rootCluster : ℕ

def geometry (img : List UInt8) : Geometry where
  bytesPerSector := field img 11 2
  sectorsPerCluster := field img 13 1
  reserved := field img 14 2
  numFats := field img 16 1
  totalSectors := field img 32 4
  fatSectors := field img 36 4
  rootCluster := field img 44 4

namespace Geometry

variable (g : Geometry)

def clusterSize : ℕ := g.sectorsPerCluster * g.bytesPerSector

def dataStart : ℕ := g.reserved + g.numFats * g.fatSectors

def clusterCount : ℕ := (g.totalSectors - g.dataStart) / g.sectorsPerCluster

end Geometry

/-- From here on an entry of the FAT ends a chain. -/
def endOfChain : ℕ := 0x0FFFFFF8

/-- The entry that marks a bad cluster; no cluster has this number. -/
def badCluster : ℕ := 0x0FFFFFF7

section Volume

variable (img : List UInt8) (g : Geometry)

/-- One of the copies of the FAT. -/
def fatCopy (i : ℕ) : List UInt8 :=
  slice img ((g.reserved + i * g.fatSectors) * g.bytesPerSector)
    (g.fatSectors * g.bytesPerSector)

/-- An entry of the first FAT; its four high bits are reserved. -/
def entry (c : ℕ) : ℕ := field img (g.reserved * g.bytesPerSector + 4 * c) 4 % 2 ^ 28

def clusterBytes (c : ℕ) : List UInt8 :=
  slice img (g.dataStart * g.bytesPerSector + (c - 2) * g.clusterSize) g.clusterSize

def IsCluster (c : ℕ) : Prop := 2 ≤ c ∧ c < g.clusterCount + 2 ∧ c < badCluster

instance (c : ℕ) : Decidable (IsCluster g c) := inferInstanceAs (Decidable (_ ∧ _))

/-- The clusters from `c` to the end of its chain, of which there are at most
`rounds`. -/
def chain : ℕ → ℕ → Option (List ℕ)
  | 0, _ => none
  | rounds + 1, c =>
      if IsCluster g c then
        if endOfChain ≤ entry img g c then some [c]
        else (chain rounds (entry img g c)).map (c :: ·)
      else none

def chainBytes (clusters : List ℕ) : List UInt8 := clusters.flatMap (clusterBytes img g)

end Volume

/-- The 32-byte slots of a directory. -/
def slots (bs : List UInt8) : List (List UInt8) :=
  (List.range (bs.length / 32)).map fun i => slice bs (32 * i) 32

/-- A slot with a part of a long name. -/
structure LongSlot where
  order : ℕ
  checksum : UInt8
  units : List ℕ
deriving DecidableEq

/-- 16-bit units. -/
def readUnits : List UInt8 → List ℕ
  | lo :: hi :: rest => leValue [lo, hi] :: readUnits rest
  | _ => []

def longSlot (slot : List UInt8) : LongSlot where
  order := field slot 0 1
  checksum := slot.getD 13 0
  units := readUnits (slice slot 1 10 ++ slice slot 14 12 ++ slice slot 28 4)

/-- The checksum of a short name: rotate right, add the next byte. -/
def shortChecksum (short : List UInt8) : UInt8 :=
  short.foldl (fun s c => (if s &&& 1 = 0 then (0 : UInt8) else 0x80) + (s >>> 1) + c) 0

/-- The orders of a run of `n` slots, nearest to the short entry first: the last
has bit 6 set. -/
def runOrders (n : ℕ) : List ℕ := List.range' 1 (n - 1) ++ [n ||| 0x40]

/-- A run of slots that belongs to the short entry after it. -/
def RunMatches (short : List UInt8) (run : List LongSlot) : Prop :=
  run ≠ [] ∧ run.map LongSlot.order = runOrders run.length ∧
    ∀ slot ∈ run, slot.checksum = shortChecksum short

instance (short : List UInt8) (run : List LongSlot) : Decidable (RunMatches short run) :=
  inferInstanceAs (Decidable (_ ∧ _))

/-- UTF-16; two surrogates are one character. -/
def decodeUnits : List ℕ → List Char
  | [] => []
  | u :: rest =>
      if 0xd800 ≤ u ∧ u < 0xdc00 then
        match rest with
        | [] => [Char.ofNat 0xfffd]
        | lo :: rest =>
            Char.ofNat (0x10000 + (u - 0xd800) * 1024 + (lo - 0xdc00)) :: decodeUnits rest
      else Char.ofNat u :: decodeUnits rest

/-- A long name ends at the first zero. -/
def longName (run : List LongSlot) : String :=
  String.ofList (decodeUnits ((run.flatMap LongSlot.units).takeWhile (· ≠ 0)))

/-- Text without the spaces that fill up its field. -/
def trimField (bs : List UInt8) : List Char :=
  ((bs.reverse.dropWhile (· = 0x20)).reverse).map fun b => Char.ofNat b.toNat

/-- A short name: eight bytes, and three of extension. -/
def shortName (short : List UInt8) : String :=
  String.ofList (trimField (short.take 8) ++
    (if trimField (short.drop 8) = [] then [] else '.' :: trimField (short.drop 8)))

/-- `.` -/
def dotName : List UInt8 := 0x2e :: List.replicate 10 0x20

/-- `..` -/
def dotdotName : List UInt8 := 0x2e :: 0x2e :: List.replicate 9 0x20

structure Item where
  name : String
  isDir : Bool
  cluster : ℕ
  size : ℕ
deriving DecidableEq

/-- A short entry after a run of slots. -/
def shortItem (slot : List UInt8) (run : List LongSlot) : Item where
  name := if RunMatches (slot.take 11) run then longName run else shortName (slot.take 11)
  isDir := slot.getD 11 0 &&& 0x10 ≠ 0
  cluster := field slot 20 2 * 2 ^ 16 + field slot 26 2
  size := field slot 28 4

/-- The entries of a directory; `run` holds the slots just passed, nearest first.
A zero ends it, 0xE5 marks a deleted slot, and bit 3 the volume label. -/
def items : List (List UInt8) → List LongSlot → List Item
  | [], _ => []
  | slot :: rest, run =>
      if slot.getD 0 0 = 0 then []
      else if slot.getD 0 0 = 0xe5 then items rest []
      else if slot.getD 11 0 = 0x0f then items rest (longSlot slot :: run)
      else if slot.getD 11 0 &&& 0x08 ≠ 0 then items rest []
      else if slot.take 11 = dotName ∨ slot.take 11 = dotdotName then items rest []
      else shortItem slot run :: items rest []

section Tree

variable (img : List UInt8) (g : Geometry)

/-- A file, cut off at its size, and the clusters it has. -/
def readFile (cluster size : ℕ) : Option (List UInt8 × List ℕ) :=
  if cluster = 0 then if size = 0 then some ([], []) else none
  else do
    let clusters ← chain img g g.clusterCount cluster
    if size ≤ (chainBytes img g clusters).length then
      some ((chainBytes img g clusters).take size, clusters)
    else none

def readItem (readDir : ℕ → Option (FileTree × List ℕ)) (item : Item) :
    Option (FileNode × List ℕ) :=
  if item.isDir then (readDir item.cluster).map fun (t, used) => (.dir t, used)
  else (readFile img g item.cluster item.size).map fun (data, used) => (.file data, used)

def readItems (readDir : ℕ → Option (FileTree × List ℕ)) :
    List Item → Option (FileTree × List ℕ)
  | [] => some ([], [])
  | item :: rest => do
      let (node, used) ← readItem img g readDir item
      let (nodes, more) ← readItems readDir rest
      some ((item.name, node) :: nodes, used ++ more)

/-- The directory at a cluster with what is in it, nested at most so deep, and
the clusters of all its chains. -/
def readDir : ℕ → ℕ → Option (FileTree × List ℕ)
  | 0, _ => none
  | depth + 1, cluster => do
      let clusters ← chain img g g.clusterCount cluster
      let (t, used) ← readItems img g (readDir depth) (items (slots (chainBytes img g clusters)) [])
      some (t, clusters ++ used)

end Tree

/-- The tree of a volume and the clusters of its chains.  Directories without a
loop do not nest deeper than there are clusters. -/
def read (img : List UInt8) : Option (FileTree × List ℕ) :=
  readDir img (geometry img) (geometry img).clusterCount (geometry img).rootCluster

end Veron.Fat32
