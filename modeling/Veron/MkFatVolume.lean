/-
Images read as FAT32: the tree that was built is read back exactly when its
clusters have numbers FAT32 can name.
-/
import Veron.MkFatImage

namespace Veron.MkFat

open FileTree Fat32

/-- A name without its case. -/
def foldName (name : String) : List Char := name.toList.map Char.toLower

/-- The names of a directory: each one FAT can hold, no two alike but for case. -/
structure DirNames (t : FileTree) : Prop where
  names : NamesOk t
  distinct : (t.map fun e => foldName e.1).Nodup

instance (t : FileTree) : Decidable (DirNames t) :=
  decidable_of_iff ((∀ e ∈ t, NameOk e.1) ∧ (t.map fun e => foldName e.1).Nodup)
    ⟨fun h => ⟨h.1, h.2⟩, fun h => ⟨h.names, h.distinct⟩⟩

def Representable (t : FileTree) : Prop := AllDirs DirNames t

instance (t : FileTree) : Decidable (Representable t) :=
  inferInstanceAs (Decidable (AllDirs DirNames t))

/-- What a FAT32 reader has to find: the tree, both FATs alike, and no cluster
in two chains. -/
structure Faithful (img : List UInt8) (tree : FileTree) : Prop where
  tree : ∃ t used, Fat32.read img = some (t, used) ∧ Same t tree ∧ used.Nodup
  copies : ∀ i < (geometry img).numFats, fatCopy img (geometry img) i = fatCopy img (geometry img) 0

section Trees

variable {t : FileTree}

theorem DirNames.sorted (h : DirNames t) : DirNames (FileTree.sorted t) where
  names e he := by
    obtain ⟨d, hd, rfl⟩ := mem_sorted e he
    exact h.names d hd
  distinct := by
    have hfold := (names_sorted t).map foldName
    rw [List.map_map, List.map_map] at hfold
    exact hfold.nodup_iff.mpr h.distinct

theorem DirNames.nodup (h : DirNames t) : (t.map Prod.fst).Nodup := by
  apply List.Nodup.of_map foldName
  rw [List.map_map]
  exact h.distinct

theorem Representable.sorted (h : Representable t) : Representable (FileTree.sorted t) :=
  AllDirs.sorted (fun _ hd => hd.sorted) h

theorem Representable.inner (h : Representable t) : InnerDirs NamesOk t :=
  h.2.imp fun _ hd => hd.names

theorem Representable.same (h : Representable t) : Same (FileTree.sorted t) t :=
  same_sorted ⟨h.1.nodup, h.2.imp fun _ hd => hd.nodup⟩

end Trees

/-- The bytes of the root directory. -/
def rootBytes (cs : ℕ) (entries : List UInt8) : List UInt8 :=
  entries ++ List.replicate (cs * SECTOR - entries.length) 0

theorem rootBytes_length {cs : ℕ} {entries : List UInt8} (h : entries.length ≤ cs * SECTOR) :
    (rootBytes cs entries).length = cs * SECTOR := by
  rw [rootBytes, List.length_append, List.length_replicate]
  omega

theorem Sized.patched {cs size : ℕ} {fs : Fat} (h : Sized cs size fs) (first : ℕ)
    (blob : List UInt8) : Sized cs size (patched first blob fs) :=
  ⟨h.size_eq, h.dataStart, h.le_total, h.nclusters, h.many, h.length, h.fatRoom⟩

theorem clustersFor_one {cs : ℕ} (hcs : 0 < cs) : clustersFor cs (cs * SECTOR) = 1 := by
  have hpos : 0 < cs * SECTOR := Nat.mul_pos hcs (by decide)
  rw [clustersFor, Nat.div_eq_of_lt_le (k := 1)] <;> omega

/-- What a build that succeeds went through. -/
structure Built (cs size : ℕ) (t : FileTree) (img : List UInt8) (fs : Fat)
    (placed : List (String × Placed)) (entries : List UInt8) : Prop where
  pos : 0 < cs
  sized : Sized cs size fs
  good : Good cs fs
  laid : LaidTree cs fs t placed 3 fs.nextFree
  placed : placedEntries placed = .ok entries
  small : entries.length ≤ cs * SECTOR
  root : Holds cs fs 2 (rootBytes cs entries)
  written : writeImage cs size fs = .ok img

/-- The states a build that succeeds went through. -/
theorem buildSorted_states {cs : ℕ} {size : ℤ} {t : FileTree} {img : List UInt8}
    (h : buildSorted cs size t = .ok img) : ∃ fs₁ fs₂ placed entries,
      Fat.new cs size >>= allocChain cs (List.replicate (cs * SECTOR) 0) = .ok (2, fs₁) ∧
      Good cs fs₁ ∧ fs₁.nextFree = 3 ∧ placeEntries cs t fs₁ = .ok (placed, fs₂) ∧
      Built cs size.toNat t img (patched 2 (rootBytes cs entries) fs₂) placed entries := by
  obtain ⟨fs₀, hnew, h⟩ := bind_eq_ok.mp h
  obtain ⟨hcs, total, rfl, -, hstart, hmany, rfl⟩ := new_eq_ok.mp hnew
  obtain ⟨⟨first, fs₁⟩, halloc, h⟩ := bind_eq_ok.mp h
  obtain ⟨rfl, hgood₁, hext₁, hnext₁, hholds⟩ := allocChain_spec halloc (newFat_good total)
  obtain ⟨⟨placed, fs₂⟩, hplace, h⟩ := bind_eq_ok.mp h
  obtain ⟨hgood₂, hext₂, hlaid⟩ := placeEntries_spec hcs hplace hgood₁
  obtain ⟨entries, hentries, h⟩ := bind_eq_ok.mp h
  have hwrite : (if cs * SECTOR < entries.length then
      .error (.exit "root directory exceeds one cluster; widen this writer")
    else writeImage cs ((total : ℤ) * SECTOR).toNat
      (patched 2 (rootBytes cs entries) fs₂)) = Except.ok img := h
  by_cases hsmall : cs * SECTOR < entries.length
  · rw [if_pos hsmall] at hwrite
    cases hwrite
  rw [if_neg hsmall] at hwrite
  have hsize : ((total : ℤ) * SECTOR).toNat = total * SECTOR := by omega
  rw [List.length_replicate, clustersFor_one hcs] at hnext₁
  have hfree : fs₁.nextFree = 3 := hnext₁
  have hle := hext₂.nextFree
  have hlen : (rootBytes cs entries).length = cs * SECTOR := rootBytes_length (by omega)
  refine ⟨fs₁, fs₂, placed, entries, bind_eq_ok.mpr ⟨_, hnew, halloc⟩, hgood₁, hfree, hplace, hcs,
    ?_, ?_, ?_, hentries, by omega, ?_, hwrite⟩
  · rw [hsize]
    exact (((newFat_sized hstart hmany).extend hext₁).extend hext₂).patched 2 _
  · exact patched_good hgood₂ (Nat.le_refl 2) (by omega) (by rw [hlen])
  · rw [hfree] at hlaid
    refine hlaid.congr fun c hc _ => ⟨rfl, ?_⟩
    rw [patched, lookup_setItem, if_neg (by omega)]
  · intro i hi
    rw [hlen, clustersFor_one hcs] at hi ⊢
    obtain rfl : i = 0 := by omega
    obtain ⟨hlink, -⟩ := hholds 0 (clustersFor_pos _ _)
    rw [List.length_replicate, clustersFor_one hcs] at hlink
    refine ⟨(hext₂.fat _ (by omega)).trans hlink, ?_⟩
    rw [patched, lookup_setItem, if_pos rfl, Nat.zero_mul, ← hlen, slice_zero_length]

theorem buildSorted_spec {cs : ℕ} {size : ℤ} {t : FileTree} {img : List UInt8}
    (h : buildSorted cs size t = .ok img) :
    ∃ fs placed entries, Built cs size.toNat t img fs placed entries := by
  obtain ⟨fs₁, fs₂, placed, entries, -, -, -, -, hbuilt⟩ := buildSorted_states h
  exact ⟨_, placed, entries, hbuilt⟩

section Built

variable {cs size : ℕ} {t : FileTree} {img : List UInt8} {fs : Fat}
  {placed : List (String × Placed)} {entries : List UInt8}

theorem Built.seen (h : Built cs size t img fs placed entries) :
    geometry img = madeGeometry cs fs ∧ Shows cs img (madeGeometry cs fs) fs ∧
      ∀ i < 2, fatCopy img (madeGeometry cs fs) i = fatBlob fs := by
  obtain ⟨⟨hcs, htotal, hfat⟩, hlinks, base, hbase, rfl⟩ := writeImage_spec h.written h.sized
  exact ⟨geometry_written h.sized h.good hbase hcs htotal hfat,
    shows_written h.sized h.good hbase hlinks, fun i hi => fatCopy_written h.sized h.good hbase hi⟩

/-- The root directory is read as its entries. -/
theorem Built.root_items (h : Built cs size t img fs placed entries) (hnames : NamesOk t) :
    chain img (madeGeometry cs fs) (madeGeometry cs fs).clusterCount 2 = some [2] ∧
      items (slots (chainBytes img (madeGeometry cs fs) [2])) [] =
        placed.map fun e => e.2.item e.1 := by
  obtain ⟨-, hshows, -⟩ := h.seen
  have hsmall := h.small
  have hlen := rootBytes_length hsmall
  have hroom := h.good.room
  have hle := h.laid.le
  have hone := clustersFor_one h.pos
  have hchain := chain_holds hshows h.root (Nat.le_refl 2) (by rw [hlen, hone]; decide)
    (by rw [hlen, hone]; omega)
  have hdata := chainBytes_holds h.pos hshows h.root
  rw [hlen, hone] at hchain hdata
  refine ⟨hchain, ?_⟩
  have hplaced : ∀ e ∈ placed, NameOk e.1 := h.laid.forall_names hnames
  obtain ⟨hbytes, hfits⟩ := placedEntries_spec hplaced h.placed
  have hslots : entries.length = 32 * (placedSlots placed).length := by
    rw [hbytes, flatten_length (placedSlots_size hplaced)]
  have hpad : cs * SECTOR - entries.length = 32 * (cs * 16 - (placedSlots placed).length) := by
    rw [SECTOR]
    omega
  change chainBytes img (madeGeometry cs fs) [2] = _ at hdata
  rw [hdata, Nat.one_mul, Nat.sub_self, List.replicate_zero, List.append_nil, rootBytes, hpad,
    hbytes]
  exact items_entries hplaced hfits _

/-- With numbers FAT32 can name, the tree is read. -/
theorem Built.read_eq (h : Built cs size t img fs placed entries) (hnames : NamesOk t)
    (hinner : InnerDirs NamesOk t) (hbad : fs.nextFree ≤ badCluster) :
    ∃ used, Fat32.read img = some (t, used) ∧ used.Nodup := by
  obtain ⟨hgeometry, hshows, -⟩ := h.seen
  obtain ⟨hchain, hitems⟩ := h.root_items hnames
  have hcount := hshows.count
  have hroom := h.good.room
  have hnext := h.laid.clusters hinner
  have hdepth := depth_le cs t
  obtain ⟨d, hd⟩ : ∃ d, (madeGeometry cs fs).clusterCount = d + 1 :=
    Nat.exists_eq_add_of_le' (by omega)
  obtain ⟨used, hread, hbounds, hnodup⟩ := readItems_laid h.pos hshows h.laid hinner (by decide)
    hbad hroom (show depth t ≤ d + 1 by omega)
  refine ⟨2 :: used, ?_, List.nodup_cons.mpr ⟨fun hmem => ?_, hnodup⟩⟩
  · rw [Fat32.read, hgeometry]
    change readDir img (madeGeometry cs fs) (madeGeometry cs fs).clusterCount 2 = _
    rw [hd] at hchain ⊢
    rw [readDir, hd, hchain]
    change (readItems img (madeGeometry cs fs) (readDir img (madeGeometry cs fs) d)
      (items (slots (chainBytes img (madeGeometry cs fs) [2])) []) >>= _) = _
    rw [hitems, hread]
    rfl
  · have hmem := hbounds 2 hmem
    omega

/-- With a number beyond, nothing is read. -/
theorem Built.read_none (h : Built cs size t img fs placed entries) (hnames : NamesOk t)
    (hbad : badCluster < fs.nextFree) : Fat32.read img = none := by
  obtain ⟨hgeometry, hshows, -⟩ := h.seen
  obtain ⟨hchain, hitems⟩ := h.root_items hnames
  have hcount := hshows.count
  have hroom := h.good.room
  obtain ⟨d, hd⟩ : ∃ d, (madeGeometry cs fs).clusterCount = d + 1 := by
    rw [badCluster] at hbad
    exact Nat.exists_eq_add_of_le' (by omega)
  have hread := readItems_bad hshows h.laid (by decide) hbad (by decide) d
  rw [Fat32.read, hgeometry]
  change readDir img (madeGeometry cs fs) (madeGeometry cs fs).clusterCount 2 = _
  rw [hd] at hchain ⊢
  rw [readDir, hd, hchain]
  change (readItems img (madeGeometry cs fs) (readDir img (madeGeometry cs fs) d)
    (items (slots (chainBytes img (madeGeometry cs fs) [2])) []) >>= _) = _
  rw [hitems, hread]
  rfl

theorem Built.copies (h : Built cs size t img fs placed entries) :
    ∀ i < (geometry img).numFats,
      fatCopy img (geometry img) i = fatCopy img (geometry img) 0 := by
  obtain ⟨hgeometry, -, hfats⟩ := h.seen
  rw [hgeometry]
  intro i hi
  rw [hfats i hi, hfats 0 (by decide)]

end Built

/-- Where the clusters of the tree have numbers beyond those of FAT32, the image
is not read. -/
theorem build_read_none {cs : ℕ} {size : ℤ} {tree : FileTree} {img : List UInt8}
    (htree : Representable tree) (h : build cs size tree = .ok img)
    (hbad : badCluster < 3 + treeClusters cs tree) : Fat32.read img = none := by
  obtain ⟨fs, placed, entries, hbuilt⟩ := buildSorted_spec h
  have hnext := hbuilt.laid.clusters htree.sorted.inner
  rw [treeClusters_sorted] at hnext
  exact hbuilt.read_none htree.sorted.1.names (by omega)

theorem fileLength_sortedNode (node : FileNode) :
    fileLength (sortedNode node) = fileLength node := by
  cases node with
  | file data => rw [sortedNode]
  | dir entries =>
      rw [sortedNode]
      rfl

theorem FilesOk.sorted {t : FileTree} (h : FilesOk t) : FilesOk (FileTree.sorted t) := by
  intro e he
  obtain ⟨d, hd, rfl⟩ := mem_sorted e he
  rw [fileLength_sortedNode]
  exact h d hd

theorem writeImage_ok {cs size : ℕ} {fs : Fat} (hcs : cs < 2 ^ 8) (hsized : Sized cs size fs)
    (hgood : Good cs fs) (htotal : fs.totalSectors < 2 ^ 32) (hlen : fs.fat.length ≤ 2 ^ 32)
    (hnext : fs.nextFree < 2 ^ 32) : ∃ img, writeImage cs size fs = .ok img := by
  have hle := hsized.le_total
  have hstart := hsized.dataStart
  rw [NFATS] at hstart
  have hnumbers : cs < 256 ^ 1 ∧ fs.totalSectors < 256 ^ 4 ∧ fs.fatSectors < 256 ^ 4 := by omega
  have hlinks : ∀ v ∈ fs.fat, v < 256 ^ 4 := by
    intro v hv
    rcases hgood.links v hv with hv | hv
    · omega
    · omega
  obtain ⟨info, hinfo⟩ := fsInfo_ok hlen hnext hgood.two_le
  rw [writeImage, bootSector_eq, if_pos hnumbers, hinfo, packFat_ok hlinks]
  exact ⟨_, rfl⟩

/-- A tree that fits is built. -/
theorem build_ok {cs total : ℕ} {tree : FileTree} (hcs : 0 < cs) (hbyte : cs < 2 ^ 8)
    (hdvd : cs ∣ total) (hstart : dataStartFor cs total ≤ total)
    (hmany : 65525 ≤ nclustersFor cs total) (htotal : total < 2 ^ 32)
    (htree : Representable tree) (hfiles : AllDirs FilesOk tree)
    (hroom : 3 + treeClusters cs tree ≤ nclustersFor cs total + 2)
    (hroot : entriesLength tree ≤ cs * SECTOR) :
    ∃ img, build cs (total * SECTOR : ℤ) tree = .ok img := by
  have hnew : Fat.new cs (total * SECTOR : ℤ) = .ok (newFat cs total) :=
    new_eq_ok.mpr ⟨hcs, total, rfl, hdvd, hstart, hmany, rfl⟩
  have hlen : (newFat cs total).fat.length = nclustersFor cs total + 2 :=
    (newFat_sized hstart hmany).length
  have hshort : nclustersFor cs total + 2 < 2 ^ 32 := by
    have hdiv : nclustersFor cs total ≤ total - dataStartFor cs total := Nat.div_le_self _ _
    have hreserved : 32 ≤ dataStartFor cs total := Nat.le_add_right _ _
    omega
  have hfirst : (newFat cs total).nextFree = 2 := rfl
  have hblock : ∃ fs₁, allocChain cs (List.replicate (cs * SECTOR) 0) (newFat cs total) =
      .ok ((newFat cs total).nextFree, fs₁) :=
    allocChain_ok (by rw [List.length_replicate, clustersFor_one hcs]; omega)
  obtain ⟨fs₁, halloc⟩ := hblock
  obtain ⟨-, hgood₁, hext₁, hnext₁, -⟩ := allocChain_spec halloc (newFat_good total)
  rw [List.length_replicate, clustersFor_one hcs] at hnext₁
  have hlen₁ := hext₁.length
  have hsorted := htree.sorted
  have hfiles' := AllDirs.sorted (fun _ hd => FilesOk.sorted hd) hfiles
  rw [← treeClusters_sorted] at hroom
  rw [← entriesLength_sorted] at hroot
  obtain ⟨placed, fs₂, hplace⟩ := placeEntries_ok hcs hgood₁ hsorted.inner hfiles'.2 (by omega)
    (by omega)
  obtain ⟨hgood₂, hext₂, hlaid⟩ := placeEntries_spec hcs hplace hgood₁
  have hnext₂ := hlaid.clusters hsorted.inner
  have hlen₂ := hext₂.length
  have hplaced : ∀ e ∈ placed, NameOk e.1 := hlaid.forall_names hsorted.1.names
  have hentries := placedEntries_ok hplaced (hlaid.fits hfiles'.1 (by omega))
  have hsize := entries_length hlaid hsorted.1.names hentries
  have hblob : (rootBytes cs (placedSlots placed).flatten).length = cs * SECTOR :=
    rootBytes_length (by omega)
  have hsized := (((newFat_sized hstart hmany).extend hext₁).extend hext₂).patched 2
    (rootBytes cs (placedSlots placed).flatten)
  have hgood := patched_good hgood₂ (Nat.le_refl 2) (by omega)
    (show (rootBytes cs (placedSlots placed).flatten).length ≤ cs * SECTOR by omega)
  have hfinal : (patched 2 (rootBytes cs (placedSlots placed).flatten) fs₂).totalSectors = total :=
    hext₂.totalSectors.trans hext₁.totalSectors
  have hfree : (patched 2 (rootBytes cs (placedSlots placed).flatten) fs₂).nextFree =
    fs₂.nextFree := rfl
  have hfat : (patched 2 (rootBytes cs (placedSlots placed).flatten) fs₂).fat.length =
    fs₂.fat.length := rfl
  obtain ⟨img, himg⟩ := writeImage_ok hbyte hsized hgood (by omega) (by omega) (by omega)
  refine ⟨img, ?_⟩
  have hbytes : ((total : ℤ) * SECTOR).toNat = total * SECTOR := by omega
  rw [build, buildSorted, hnew]
  change (allocChain cs (List.replicate (cs * SECTOR) 0) (newFat cs total) >>= _) = _
  rw [halloc]
  change (placeEntries cs (FileTree.sorted tree) fs₁ >>= _) = _
  rw [hplace]
  change (placedEntries placed >>= _) = _
  rw [hentries]
  change (if cs * SECTOR < (placedSlots placed).flatten.length then _
    else writeImage cs ((total : ℤ) * SECTOR).toNat
      (patched 2 (rootBytes cs (placedSlots placed).flatten) fs₂)) = _
  rw [if_neg (by omega), hbytes, himg]

/-- An image is read as the tree it was built from exactly when no file and no
directory has a cluster whose number FAT32 keeps for something else. -/
theorem build_faithful_iff {cs : ℕ} {size : ℤ} {tree : FileTree} {img : List UInt8}
    (htree : Representable tree) (h : build cs size tree = .ok img) :
    Faithful img tree ↔ 3 + treeClusters cs tree ≤ badCluster := by
  constructor
  · rintro ⟨⟨t, used, hread, -⟩, -⟩
    by_contra hmany
    rw [build_read_none htree h (by omega)] at hread
    cases hread
  · intro hfew
    obtain ⟨fs, placed, entries, hbuilt⟩ := buildSorted_spec h
    have hsorted := htree.sorted
    have hnext := hbuilt.laid.clusters hsorted.inner
    rw [treeClusters_sorted] at hnext
    obtain ⟨used, hread, hnodup⟩ :=
      hbuilt.read_eq hsorted.1.names hsorted.inner (by omega)
    exact ⟨⟨_, used, hread, htree.same, hnodup⟩, hbuilt.copies⟩

/-- An ESP of 128 MiB. -/
def sampleTree : FileTree :=
  [("EFI", .dir [("veron", .dir [("linux.efi", .file [0x4d, 0x5a]), ("empty", .file [])]),
    ("BOOT", .dir [("BOOTX64.EFI", .file [0x4d, 0x5a, 0x90])])])]

theorem build_faithful_sample :
    ∃ img, build 2 ((262144 : ℕ) * SECTOR : ℤ) sampleTree = .ok img ∧ Faithful img sampleTree := by
  have htree : Representable sampleTree := by decide +kernel
  obtain ⟨img, h⟩ : ∃ img, build 2 ((262144 : ℕ) * SECTOR : ℤ) sampleTree = .ok img :=
    build_ok (by decide) (by decide) (by decide) (by decide) (by decide) (by decide) htree
      (by decide +kernel) (by decide +kernel) (by decide +kernel)
  exact ⟨img, h, (build_faithful_iff htree h).mpr (by decide +kernel)⟩

/-- The names of 64 files. -/
def fileName (i : ℕ) : String :=
  String.ofList [Char.ofNat (65 + i / 8), Char.ofNat (65 + i % 8)]

/-- As large as a file can be. -/
def hugeFiles : FileTree :=
  (List.range 64).map fun i => (fileName i, .file (List.replicate (2 ^ 32 - 1) 0))

def hugeTree : FileTree := [("DATA", .dir hugeFiles)]

theorem map_hugeFiles {α : Type} (f : String × FileNode → α) : hugeFiles.map f =
    (List.range 64).map fun i => f (fileName i, .file (List.replicate (2 ^ 32 - 1) 0)) :=
  List.map_map

theorem hugeFiles_clusters : treeClusters 2 hugeFiles = 64 * 4194304 := by
  have hfile : nodeClusters 2 (.file (List.replicate (2 ^ 32 - 1) 0)) = 4194304 := by
    have hne : List.replicate (2 ^ 32 - 1) (0 : UInt8) ≠ [] := by
      rw [ne_eq, List.replicate_eq_nil_iff]
      decide
    rw [nodeClusters, if_neg hne, List.length_replicate]
    decide
  rw [treeClusters_eq_sum, map_hugeFiles]
  simp only [hfile, List.map_const', List.length_range, List.sum_replicate_nat]

theorem hugeFiles_length : entriesLength hugeFiles = 2048 := by
  rw [entriesLength, map_hugeFiles]
  decide

theorem hugeTree_clusters : treeClusters 2 hugeTree = 64 * 4194304 + 3 := by
  rw [hugeTree, treeClusters, treeClusters, nodeClusters, hugeFiles_clusters, hugeFiles_length]
  decide

theorem hugeFiles_inner (P : FileTree → Prop) : InnerDirs P hugeFiles := by
  rw [innerDirs_iff]
  intro e he
  obtain ⟨i, -, rfl⟩ := List.mem_map.mp he
  rw [NodeDirs]
  trivial

theorem hugeTree_representable : Representable hugeTree := by
  have hfiles : DirNames hugeFiles := by
    constructor
    · intro e he
      obtain ⟨i, hi, rfl⟩ := List.mem_map.mp he
      have hall : ∀ i ∈ List.range 64, NameOk (fileName i) := by decide
      exact hall i hi
    · rw [map_hugeFiles]
      decide
  have hroot : DirNames hugeTree := ⟨by
    intro e he
    rw [hugeTree, List.mem_singleton] at he
    rw [he]
    decide, by
    rw [hugeTree, List.map_singleton]
    exact List.nodup_singleton _⟩
  refine ⟨hroot, ?_⟩
  rw [hugeTree, InnerDirs, NodeDirs, InnerDirs]
  exact ⟨⟨hfiles, hugeFiles_inner _⟩, trivial⟩

theorem hugeTree_filesOk : AllDirs FilesOk hugeTree := by
  have hfiles : FilesOk hugeFiles := by
    intro e he
    obtain ⟨i, -, rfl⟩ := List.mem_map.mp he
    rw [fileLength, List.length_replicate]
    decide
  have hroot : FilesOk hugeTree := by
    intro e he
    rw [hugeTree, List.mem_singleton] at he
    rw [he, fileLength]
    decide
  refine ⟨hroot, ?_⟩
  rw [hugeTree, InnerDirs, NodeDirs, InnerDirs]
  exact ⟨⟨hfiles, hugeFiles_inner _⟩, trivial⟩

/-- An image of 512 GiB with 256 GiB in it: it is made, and not read. -/
theorem build_huge_not_faithful : Representable hugeTree ∧
    ∃ img, build 2 ((1073741824 : ℕ) * SECTOR : ℤ) hugeTree = .ok img ∧
      ¬Faithful img hugeTree := by
  have hclusters := hugeTree_clusters
  have hroom : 3 + treeClusters 2 hugeTree ≤ nclustersFor 2 1073741824 + 2 := by
    rw [hclusters]
    decide
  have hroot : entriesLength hugeTree ≤ 2 * SECTOR := by
    rw [hugeTree, entriesLength, List.map_singleton]
    decide +kernel
  obtain ⟨img, h⟩ : ∃ img, build 2 ((1073741824 : ℕ) * SECTOR : ℤ) hugeTree = .ok img :=
    build_ok (by decide) (by decide) (by decide) (by decide) (by decide) (by decide)
      hugeTree_representable hugeTree_filesOk hroom hroot
  have hnone := build_read_none hugeTree_representable h (by rw [hclusters]; decide)
  refine ⟨hugeTree_representable, img, h, ?_⟩
  rintro ⟨⟨t, used, hread, -⟩, -⟩
  rw [hnone] at hread
  cases hread

end Veron.MkFat
