/-
veron-mkfat: a FAT32 image with a tree of files in it.  Directories are placed
after what is in them, the root in cluster 2 before everything.
-/
import Veron.Bytes
import Veron.FileTree
import Veron.Regions

namespace Veron.MkFat

open FileTree

inductive Error where
  /-- `SystemExit` with its message -/
  | exit (message : String)
  /-- `struct.error`: a number too large for its field -/
  | struct
  | value
  | unicodeEncode
  | zeroDivision
deriving DecidableEq

theorem bind_eq_ok {α β : Type} {x : Except Error α} {f : α → Except Error β} {b : β} :
    x >>= f = .ok b ↔ ∃ a, x = .ok a ∧ f a = .ok b := by
  cases x with
  | error e =>
      constructor
      · intro h
        cases h
      · rintro ⟨a, ha, -⟩
        cases ha
  | ok a =>
      constructor
      · exact fun h => ⟨a, rfl, h⟩
      · rintro ⟨_, ha, hf⟩
        cases ha
        exact hf

def SECTOR : ℕ := 512

def RESERVED : ℕ := 32

def NFATS : ℕ := 2

def VOLID : ℕ := 0x5EB0A501

/-- 2020-01-01. -/
def DOSDATE : ℕ := ((2020 - 1980) <<< 9) ||| (1 <<< 5) ||| 1

def DOSTIME : ℕ := 0

/-- A number in a field of `struct.pack`. -/
def pack (n v : ℕ) : Except Error (List UInt8) :=
  if v < 256 ^ n then .ok (leBytes n v) else .error .struct

/-- The characters of a string in ASCII. -/
def ascii (cs : List Char) : List UInt8 := cs.map fun c => UInt8.ofNat c.toNat

def ljust (n : ℕ) (cs : List Char) : List Char := cs ++ List.replicate (n - cs.length) ' '

def encodeAscii (cs : List Char) : Except Error (List UInt8) :=
  if cs.all (·.toNat < 128) then .ok (ascii cs) else .error .unicodeEncode

/-- `str.upper` of one character, as far as it gives ASCII: any other character
without ASCII in its capitals stands for itself. -/
def upper : Char → List Char
  | 'ß' => ['S', 'S']
  | 'ŉ' => ['ʼ', 'N']
  | 'ı' => ['I']
  | 'ſ' => ['S']
  | '\u01f0' => ['J', '\u030c']
  | '\u1e96' => ['H', '\u0331']
  | '\u1e97' => ['T', '\u0308']
  | '\u1e98' => ['W', '\u030a']
  | '\u1e99' => ['Y', '\u030a']
  | '\u1e9a' => ['A', 'ʾ']
  | 'ﬀ' => ['F', 'F']
  | 'ﬁ' => ['F', 'I']
  | 'ﬂ' => ['F', 'L']
  | 'ﬃ' => ['F', 'F', 'I']
  | 'ﬄ' => ['F', 'F', 'L']
  | 'ﬅ' => ['S', 'T']
  | 'ﬆ' => ['S', 'T']
  | c => [c.toUpper]

/-- The name in its 8.3 form, and whether a long name has to say what it is. -/
def dos83 (name : String) : Except Error (List UInt8 × Bool) := do
  let up := name.toList.flatMap upper
  let base := up.takeWhile (· ≠ '.')
  let ext := (up.dropWhile (· ≠ '.')).tail
  let ok := name.toList = up ∧ base.length ≤ 8 ∧ ext.length ≤ 3 ∧
    (base ++ ext).all fun c => c.isAlphanum || c = '_' || c = '-'
  let b ← encodeAscii (ljust 8 (base.take 8) ++ ljust 3 (ext.take 3))
  .ok (b, !decide ok)

/-- The 16-bit units of a character. -/
def utf16 (c : Char) : List ℕ :=
  if c.toNat < 0x10000 then [c.toNat]
  else [0xd800 + (c.toNat - 0x10000) / 1024, 0xdc00 + (c.toNat - 0x10000) % 1024]

/-- The name in UTF-16 with its zero, filled up to whole chunks. -/
def lfnUnits (name : String) : List UInt8 :=
  let u := (name.toList.flatMap utf16).flatMap (leBytes 2) ++ [0, 0]
  u ++ List.replicate ((26 - u.length % 26) % 26) 0xff

def chunks (u : List UInt8) : List (List UInt8) :=
  (List.range ((u.length + 25) / 26)).map fun i => slice u (26 * i) 26

def checksum (short : List UInt8) : ℕ :=
  short.foldl (fun s c => (((s >>> 1) ||| ((s &&& 1) <<< 7)) + c.toNat) &&& 0xff) 0

/-- The `i`-th of `n` entries for a long name. -/
def lfnEntry (n s : ℕ) (ch : List UInt8) (i : ℕ) : Except Error (List UInt8) :=
  let seq := i ||| (if i = n then 0x40 else 0)
  if seq < 256 ∧ s < 256 then
    .ok ([UInt8.ofNat seq] ++ slice ch 0 10 ++ [0x0f, 0x00] ++ [UInt8.ofNat s] ++
      slice ch 10 12 ++ [0x00, 0x00] ++ slice ch 22 4)
  else .error .value

/-- The entries of a long name, last to first. -/
def lfnEntries (name : String) (short11 : List UInt8) : Except Error (List UInt8) := do
  let cs := chunks (lfnUnits name)
  let out ← (cs.zipIdx 1).reverse.mapM fun (ch, i) => lfnEntry cs.length (checksum short11) ch i
  .ok out.flatten

/-- `struct.pack("<11sBBBHHHHHHHI", …)`. -/
def packEntry (short : List UInt8) (attr : UInt8) (cluster size : ℕ) :
    Except Error (List UInt8) := do
  let hi ← pack 2 (cluster >>> 16)
  let sz ← pack 4 size
  .ok (short ++ [attr, 0, 0] ++ leBytes 2 DOSTIME ++ leBytes 2 DOSDATE ++ leBytes 2 DOSDATE ++
    hi ++ leBytes 2 DOSTIME ++ leBytes 2 DOSDATE ++ leBytes 2 (cluster &&& 0xffff) ++ sz)

def direntry (name : String) (cluster size : ℕ) (isDir : Bool) : Except Error (List UInt8) := do
  let (short, needsLfn) ← dos83 name
  let e ← packEntry short (if isDir then 0x10 else 0x20) cluster size
  let long ← (if needsLfn then lfnEntries name short else .ok [])
  .ok (long ++ e)

structure Fat where
  totalSectors : ℕ
  fatSectors : ℕ
  dataStart : ℕ
  nclusters : ℕ
  fat : List ℕ
  clusters : List (ℕ × List UInt8)
  nextFree : ℕ

/-- The file system without files; `cs` is CLUSTER_SECTORS. -/
def Fat.new (cs : ℕ) (size : ℤ) : Except Error Fat :=
  if cs = 0 then .error .zeroDivision
  else if size % (cs * SECTOR) ≠ 0 then
    .error (.exit "size must be a multiple of the cluster size")
  else
    let totalSectors := size / SECTOR
    let dataSectorsGuess := totalSectors - RESERVED
    let clustersGuess := dataSectorsGuess / cs
    let fatSectors := (clustersGuess * 4 + 2 * 4 + SECTOR - 1) / SECTOR
    let dataStart := RESERVED + NFATS * fatSectors
    let nclusters := (totalSectors - dataStart) / cs
    if nclusters < 65525 then
      .error (.exit s!"FAT32 requires >= 65525 clusters; this image has {nclusters}. Grow the ESP.")
    else
      .ok {
        totalSectors := totalSectors.toNat
        fatSectors := fatSectors.toNat
        dataStart := dataStart.toNat
        nclusters := nclusters.toNat
        fat := 0x0FFFFFF8 :: 0x0FFFFFFF :: List.replicate nclusters.toNat 0
        clusters := []
        nextFree := 2 }

/-- The number of clusters for so many bytes; at least one. -/
def clustersFor (cs len : ℕ) : ℕ := max 1 ((len + cs * SECTOR - 1) / (cs * SECTOR))

/-- One round of the loop of `alloc_chain`. -/
def allocCluster (cs : ℕ) (data : List UInt8) (cl i : ℕ) (fs : Fat) : Except Error Fat :=
  let c := fs.nextFree
  if fs.fat.length ≤ c then .error (.exit "ESP full")
  else
    .ok { fs with
      nextFree := c + 1
      fat := fs.fat.set c (if i < cl - 1 then c + 1 else 0x0FFFFFFF)
      clusters := setItem c (slice data (i * (cs * SECTOR)) (cs * SECTOR)) fs.clusters }

/-- `rounds` rounds from the `i`-th on. -/
def allocClusters (cs : ℕ) (data : List UInt8) (cl : ℕ) : ℕ → ℕ → Fat → Except Error Fat
  | 0, _, fs => .ok fs
  | rounds + 1, i, fs => do
      let fs ← allocCluster cs data cl i fs
      allocClusters cs data cl rounds (i + 1) fs

def allocChain (cs : ℕ) (data : List UInt8) (fs : Fat) : Except Error (ℕ × Fat) := do
  let cl := clustersFor cs data.length
  let first := fs.nextFree
  let fs ← allocClusters cs data cl cl 0 fs
  .ok (first, fs)

/-- Where an entry was placed. -/
inductive Placed where
  | dir (cluster : ℕ)
  | file (cluster size : ℕ)

def placedEntry (name : String) : Placed → Except Error (List UInt8)
  | .dir cluster => direntry name cluster 0 true
  | .file cluster size => direntry name cluster size false

def placedEntries : List (String × Placed) → Except Error (List UInt8)
  | [] => .ok []
  | (name, t) :: rest => do
      let e ← placedEntry name t
      let entries ← placedEntries rest
      .ok (e ++ entries)

/-- `.`, which gets its cluster when the directory has one, and `..`. -/
def dotEntries : Except Error (List UInt8) := do
  let dot ← packEntry (ascii ".          ".toList) 0x10 0 0
  let dotdot ← packEntry (ascii "..         ".toList) 0x10 0 0
  .ok (dot ++ dotdot)

/-- A directory whose entries have been placed. -/
def closeDir (cs : ℕ) (placed : List (String × Placed)) (fs : Fat) : Except Error (ℕ × Fat) := do
  let dots ← dotEntries
  let entries ← placedEntries placed
  let (first, fs) ← allocChain cs (dots ++ entries) fs
  let hi ← pack 2 (first >>> 16)
  let blob := (fs.clusters.lookup first).getD []
  let blob := overwrite (overwrite blob 20 hi) 26 (leBytes 2 (first &&& 0xffff))
  .ok (first, { fs with clusters := setItem first blob fs.clusters })

mutual

def placeNode (cs : ℕ) : FileNode → Fat → Except Error (Placed × Fat)
  | .file data, fs => do
      if data = [] then .ok (.file 0 data.length, fs)
      else
        let (first, fs) ← allocChain cs data fs
        .ok (.file first data.length, fs)
  | .dir entries, fs => do
      let (placed, fs) ← placeEntries cs entries fs
      let (first, fs) ← closeDir cs placed fs
      .ok (.dir first, fs)

/-- The entries of a directory, in its order. -/
def placeEntries (cs : ℕ) : FileTree → Fat → Except Error (List (String × Placed) × Fat)
  | [], fs => .ok ([], fs)
  | (name, node) :: rest, fs => do
      let (t, fs) ← placeNode cs node fs
      let (placed, fs) ← placeEntries cs rest fs
      .ok ((name, t) :: placed, fs)

end

/-- The boot sector. -/
def bootSector (cs : ℕ) (fs : Fat) : Except Error (List UInt8) := do
  let spc ← pack 1 cs
  let total ← pack 4 fs.totalSectors
  let fatSectors ← pack 4 fs.fatSectors
  let bs := List.replicate SECTOR 0
  let bs := overwrite bs 0 ([0xeb, 0x58, 0x90] ++ ascii "VERONESP".toList ++ leBytes 2 SECTOR ++
    spc ++ leBytes 2 RESERVED ++ leBytes 1 NFATS ++ leBytes 2 0 ++ leBytes 2 0 ++
    leBytes 1 0xF8 ++ leBytes 2 0 ++ leBytes 2 63 ++ leBytes 2 255 ++ leBytes 4 0 ++ total)
  let bs := overwrite bs 36 (fatSectors ++ leBytes 2 0 ++ leBytes 2 0 ++ leBytes 4 2 ++
    leBytes 2 1 ++ leBytes 2 6)
  let bs := overwrite bs 64 ([0x80, 0, 0x29] ++ leBytes 4 VOLID ++ ascii "VERON-ESP  ".toList ++
    ascii "FAT32   ".toList)
  .ok (overwrite bs 510 [0x55, 0xaa])

def fsInfo (fs : Fat) : Except Error (List UInt8) := do
  let free ← pack 4 (fs.fat.length - fs.nextFree)
  let next ← pack 4 fs.nextFree
  let info := overwrite (List.replicate SECTOR 0) 0 (leBytes 4 0x41615252)
  let info := overwrite info 484 (leBytes 4 0x61417272)
  let info := overwrite info 488 (free ++ next)
  .ok (overwrite info 510 [0x55, 0xaa])

def packFat : List ℕ → Except Error (List UInt8)
  | [] => .ok []
  | v :: fat => do
      let e ← pack 4 v
      let blob ← packFat fat
      .ok (e ++ blob)

/-- Where a cluster stands in the image. -/
def clusterOffset (cs : ℕ) (fs : Fat) (c : ℕ) : ℕ := (fs.dataStart + (c - 2) * cs) * SECTOR

/-- The parts of the file system at their places. -/
def writeImage (cs size : ℕ) (fs : Fat) : Except Error (List UInt8) := do
  let bs ← bootSector cs fs
  let info ← fsInfo fs
  let img := List.replicate size 0
  let img := overwrite img 0 bs
  let img := overwrite img SECTOR info
  let img := overwrite img (6 * SECTOR) bs
  let img := overwrite img (7 * SECTOR) info
  let fatblob ← packFat fs.fat
  let fatblob := fatblob ++ List.replicate (fs.fatSectors * SECTOR - fatblob.length) 0
  let img := overwrite img ((RESERVED + 0 * fs.fatSectors) * SECTOR) fatblob
  let img := overwrite img ((RESERVED + 1 * fs.fatSectors) * SECTOR) fatblob
  .ok (writeBlocks (clusterOffset cs fs) img fs.clusters)

def buildSorted (cs : ℕ) (size : ℤ) (tree : FileTree) : Except Error (List UInt8) := do
  let fs ← Fat.new cs size
  let (_, fs) ← allocChain cs (List.replicate (cs * SECTOR) 0) fs
  let (top, fs) ← placeEntries cs tree fs
  let entries ← placedEntries top
  if cs * SECTOR < entries.length then
    .error (.exit "root directory exceeds one cluster; widen this writer")
  else
    let root := entries ++ List.replicate (cs * SECTOR - entries.length) 0
    writeImage cs size.toNat { fs with clusters := setItem 2 root fs.clusters }

/-- Every directory is gone through in the order of its names. -/
def build (cs : ℕ) (size : ℤ) (tree : FileTree) : Except Error (List UInt8) :=
  buildSorted cs size (sorted tree)

end Veron.MkFat
