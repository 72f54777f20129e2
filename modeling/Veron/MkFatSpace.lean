/-
The room in an image: what `Fat.__init__` accepts holds its FAT and every cluster
that is handed out, and FSInfo says which clusters are free.
-/
import Veron.MkFatVolume

namespace Veron.MkFat

open Fat32

/-- The states of the file system of an image. -/
inductive Reached (cs : ℕ) (size : ℤ) : Fat → Prop
  | new {fs : Fat} : Fat.new cs size = .ok fs → Reached cs size fs
  | alloc {fs fs' : Fat} {data : List UInt8} {first : ℕ} : Reached cs size fs →
      allocChain cs data fs = .ok (first, fs') → Reached cs size fs'
  | fill {fs : Fat} {c : ℕ} {blob : List UInt8} : Reached cs size fs →
      c ∈ fs.clusters.map Prod.fst → blob.length ≤ cs * SECTOR → Reached cs size (patched c blob fs)

/-- No chain has taken the cluster. -/
def Fat.Free (fs : Fat) (c : ℕ) : Prop := 2 ≤ c ∧ fs.fat[c]? = some 0

instance (fs : Fat) (c : ℕ) : Decidable (fs.Free c) := inferInstanceAs (Decidable (_ ∧ _))

def Fat.freeCount (fs : Fat) : ℕ :=
  ((List.range (fs.nclusters + 2)).filter fun c => fs.Free c).length

/-- The cluster lies in the image, behind what is reserved and both FATs. -/
structure Inside (cs size : ℕ) (fs : Fat) (c : ℕ) : Prop where
  reserved : RESERVED * SECTOR ≤ clusterOffset cs fs c
  fats : ∀ n < NFATS, (RESERVED + n * fs.fatSectors) * SECTOR + fs.fatSectors * SECTOR ≤
    clusterOffset cs fs c
  image : clusterOffset cs fs c + cs * SECTOR ≤ size

/-- What holds of every state. -/
structure Spaced (cs size : ℕ) (fs : Fat) : Prop where
  sized : Sized cs size fs
  good : Good cs fs
  free : ∀ c, fs.Free c ↔ fs.nextFree ≤ c ∧ c < fs.nclusters + 2

theorem newFat_free {cs total c : ℕ} :
    (newFat cs total).Free c ↔ 2 ≤ c ∧ c < nclustersFor cs total + 2 := by
  rw [Fat.Free, newFat]
  constructor
  · rintro ⟨hc, hzero⟩
    obtain ⟨hlt, -⟩ := List.getElem?_eq_some_iff.mp hzero
    simp only [List.length_cons, List.length_replicate] at hlt
    exact ⟨hc, hlt⟩
  · rintro ⟨hc, hlt⟩
    obtain ⟨c, rfl⟩ := Nat.exists_eq_add_of_le' hc
    refine ⟨hc, ?_⟩
    simp only [List.getElem?_cons_succ, List.getElem?_replicate]
    rw [if_pos (by omega)]

theorem taken_free {cs cl i : ℕ} {data : List UInt8} {fs : Fat}
    (hroom : fs.nextFree < fs.fat.length) (c : ℕ) :
    (taken cs data cl i fs).Free c ↔ fs.Free c ∧ c ≠ fs.nextFree := by
  rw [Fat.Free, Fat.Free]
  by_cases hc : c = fs.nextFree
  · rw [hc, taken_fat hroom]
    simp
    intro _
    split <;> omega
  · have hsame : (taken cs data cl i fs).fat[c]? = fs.fat[c]? :=
      List.getElem?_set_ne (Ne.symm hc)
    rw [hsame]
    simp [hc]

theorem Spaced.taken {cs size cl i : ℕ} {data : List UInt8} {fs : Fat} (h : Spaced cs size fs)
    (hroom : fs.nextFree < fs.fat.length) : Spaced cs size (taken cs data cl i fs) where
  sized := h.sized.extend taken_extends
  good := taken_good h.good hroom
  free c := by
    have hnext : (MkFat.taken cs data cl i fs).nextFree = fs.nextFree + 1 := rfl
    rw [taken_free hroom, h.free, taken_extends.nclusters, hnext]
    omega

theorem Spaced.allocClusters {cs size cl rounds i : ℕ} {data : List UInt8} {fs fs' : Fat}
    (h : Spaced cs size fs) (halloc : allocClusters cs data cl rounds i fs = .ok fs') :
    Spaced cs size fs' := by
  induction rounds generalizing i fs with
  | zero =>
      rw [MkFat.allocClusters, Except.ok.injEq] at halloc
      exact halloc ▸ h
  | succ rounds ih =>
      rw [MkFat.allocClusters, allocCluster_eq] at halloc
      by_cases hroom : fs.nextFree < fs.fat.length
      · rw [if_pos hroom] at halloc
        exact ih (h.taken hroom) halloc
      · rw [if_neg hroom] at halloc
        cases halloc

theorem Spaced.allocChain {cs size first : ℕ} {data : List UInt8} {fs fs' : Fat}
    (h : Spaced cs size fs) (halloc : allocChain cs data fs = .ok (first, fs')) :
    Spaced cs size fs' := by
  obtain ⟨fs'', hrounds, hrest⟩ := bind_eq_ok.mp halloc
  cases hrest
  exact h.allocClusters hrounds

theorem Reached.spaced {cs : ℕ} {size : ℤ} {fs : Fat} (h : Reached cs size fs) :
    Spaced cs size.toNat fs := by
  induction h with
  | new hnew =>
      obtain ⟨-, total, rfl, -, hstart, hmany, rfl⟩ := new_eq_ok.mp hnew
      have hsize : ((total : ℤ) * SECTOR).toNat = total * SECTOR := by omega
      rw [hsize]
      exact ⟨newFat_sized hstart hmany, newFat_good total, fun c => newFat_free⟩
  | alloc _ halloc ih => exact ih.allocChain halloc
  | fill _ hc hblob ih =>
      obtain ⟨hlow, hhigh⟩ := ih.good.keys _ hc
      exact ⟨ih.sized.patched _ _, patched_good ih.good hlow hhigh hblob, ih.free⟩

theorem Spaced.freeCount {cs size : ℕ} {fs : Fat} (h : Spaced cs size fs) :
    fs.freeCount = fs.fat.length - fs.nextFree := by
  have hlen := h.sized.length
  have hroom := h.good.room
  have hsplit : List.range (fs.nclusters + 2) =
      List.range' 0 fs.nextFree ++ List.range' fs.nextFree (fs.fat.length - fs.nextFree) := by
    have happend := @List.range'_append_1 0 fs.nextFree (fs.fat.length - fs.nextFree)
    rw [Nat.zero_add, Nat.add_sub_cancel' hroom] at happend
    rw [List.range_eq_range', ← hlen, happend]
  have hlow : (List.range' 0 fs.nextFree).filter (fun c => fs.Free c) = [] := by
    rw [List.filter_eq_nil_iff]
    intro c hc
    rw [decide_eq_true_eq, h.free]
    rw [List.mem_range'_1] at hc
    omega
  have hhigh : (List.range' fs.nextFree (fs.fat.length - fs.nextFree)).filter (fun c => fs.Free c) =
      List.range' fs.nextFree (fs.fat.length - fs.nextFree) := by
    rw [List.filter_eq_self]
    intro c hc
    rw [decide_eq_true_eq, h.free]
    rw [List.mem_range'_1] at hc
    omega
  rw [Fat.freeCount, hsplit, List.filter_append, hlow, hhigh, List.nil_append, List.length_range']

theorem Spaced.inside {cs size c : ℕ} {fs : Fat} (h : Spaced cs size fs) (htwo : 2 ≤ c)
    (hc : c < fs.fat.length) : Inside cs size fs c where
  reserved := by
    apply Nat.mul_le_mul_right
    rw [h.sized.dataStart]
    omega
  fats n hn := by
    rw [NFATS] at hn
    have hcopy : n * fs.fatSectors + fs.fatSectors ≤ 2 * fs.fatSectors := by
      rw [← Nat.succ_mul]
      exact Nat.mul_le_mul_right _ hn
    rw [← Nat.add_mul, clusterOffset, h.sized.dataStart, NFATS]
    apply Nat.mul_le_mul_right
    omega
  image := h.sized.cluster_le hc htwo

theorem fsInfo_fields {fs : Fat} {info : List UInt8} (h : fsInfo fs = .ok info) :
    field info 488 4 = fs.fat.length - fs.nextFree ∧ field info 492 4 = fs.nextFree := by
  rw [fsInfo, pack, pack] at h
  by_cases hfree : fs.fat.length - fs.nextFree < 256 ^ 4
  · by_cases hnext : fs.nextFree < 256 ^ 4
    · rw [if_pos hfree, if_pos hnext] at h
      obtain rfl := Except.ok.inj h
      generalize h₁ : overwrite (List.replicate SECTOR (0 : UInt8)) 0 (leBytes 4 0x41615252) = b₁
      have hl₁ : b₁.length = 512 := h₁ ▸ overwrite_length_eq zeros_length (by simp)
      generalize h₂ : overwrite b₁ 484 (leBytes 4 0x61417272) = b₂
      have hl₂ : b₂.length = 512 := h₂ ▸ overwrite_length_eq hl₁ (by simp)
      have hpair :
          (leBytes 4 (fs.fat.length - fs.nextFree) ++ leBytes 4 fs.nextFree).length = 8 := by
        simp
      generalize h₃ : overwrite b₂ 488
        (leBytes 4 (fs.fat.length - fs.nextFree) ++ leBytes 4 fs.nextFree) = b₃
      have hl₃ : b₃.length = 512 := h₃ ▸ overwrite_length_eq hl₂ (by omega)
      have hend : ([0x55, 0xaa] : List UInt8).length = 2 := rfl
      constructor
      · rw [field, slice_overwrite_apart (by omega) (.inl (by omega)), ← h₃,
          slice_overwrite_within (by omega) (Nat.le_refl _) (by omega), Nat.sub_self]
        exact (field_here 4 _ _).trans (Nat.mod_eq_of_lt hfree)
      · rw [field, slice_overwrite_apart (by omega) (.inl (by omega)), ← h₃,
          slice_overwrite_within (by omega) (by omega) (by omega),
          slice_append_right (by simp), leBytes_length]
        have hhere := field_here 4 fs.nextFree []
        rw [List.append_nil] at hhere
        exact hhere.trans (Nat.mod_eq_of_lt hnext)
    · rw [if_pos hfree, if_neg hnext] at h
      cases h
  · rw [if_neg hfree] at h
    cases h

/-- Both copies of FSInfo are in place before the clusters are written. -/
theorem base_info {cs size : ℕ} {fs : Fat} {bs info : List UInt8} (h : Sized cs size fs)
    (hbs : bs.length = 512) (hinfo : info.length = 512) {at' : ℕ} (hat : at' = 1 ∨ at' = 7) :
    slice (overwrite (overwrite (overwrite (overwrite (overwrite (overwrite
      (List.replicate size 0) 0 bs) SECTOR info) (6 * SECTOR) bs) (7 * SECTOR) info)
      ((RESERVED + 0 * fs.fatSectors) * SECTOR) (fatBlob fs))
      ((RESERVED + 1 * fs.fatSectors) * SECTOR) (fatBlob fs)) (at' * SECTOR) 512 = info := by
  have hflen : (fatBlob fs).length = fs.fatSectors * 512 := fatBlob_length h
  have hzero : (List.replicate size (0 : UInt8)).length = size := List.length_replicate
  have hroom : 16384 + 2 * (fs.fatSectors * 512) ≤ size := by
    have hle := Nat.mul_le_mul_right SECTOR h.le_total
    rw [← h.size_eq, h.dataStart, Nat.add_mul, NFATS, Nat.mul_assoc] at hle
    exact hle
  have hzeroth : (32 + 0 * fs.fatSectors) * 512 = 16384 := by rw [Nat.zero_mul]
  have hfirst : (32 + 1 * fs.fatSectors) * 512 = 16384 + fs.fatSectors * 512 := by
    rw [Nat.one_mul, Nat.add_mul]
  simp only [SECTOR, RESERVED, Nat.reduceMul]
  rw [hzeroth, hfirst]
  generalize h₁ : overwrite (List.replicate size (0 : UInt8)) 0 bs = b₁
  have hl₁ : b₁.length = size := h₁ ▸ overwrite_length_eq hzero (by omega)
  generalize h₂ : overwrite b₁ 512 info = b₂
  have hl₂ : b₂.length = size := h₂ ▸ overwrite_length_eq hl₁ (by omega)
  generalize h₃ : overwrite b₂ 3072 bs = b₃
  have hl₃ : b₃.length = size := h₃ ▸ overwrite_length_eq hl₂ (by omega)
  generalize h₄ : overwrite b₃ 3584 info = b₄
  have hl₄ : b₄.length = size := h₄ ▸ overwrite_length_eq hl₃ (by omega)
  generalize h₅ : overwrite b₄ 16384 (fatBlob fs) = b₅
  have hl₅ : b₅.length = size := h₅ ▸ overwrite_length_eq hl₄ (by omega)
  rcases hat with rfl | rfl
  · rw [slice_overwrite_apart (by omega) (.inl (by omega)), ← h₅,
      slice_overwrite_apart (by omega) (.inl (by omega)), ← h₄,
      slice_overwrite_apart (by omega) (.inl (by omega)), ← h₃,
      slice_overwrite_apart (by omega) (.inl (by omega)), ← h₂]
    have hself : slice (overwrite b₁ 512 info) 512 info.length = info :=
      slice_overwrite_self (by omega)
    rw [hinfo] at hself
    exact hself
  · rw [slice_overwrite_apart (by omega) (.inl (by omega)), ← h₅,
      slice_overwrite_apart (by omega) (.inl (by omega)), ← h₄]
    have hself : slice (overwrite b₃ 3584 info) 3584 info.length = info :=
      slice_overwrite_self (by omega)
    rw [hinfo] at hself
    exact hself

/-- The image before the clusters are written, with FSInfo in it. -/
theorem writeImage_info {cs size : ℕ} {fs : Fat} {img : List UInt8} (h : Sized cs size fs)
    (himg : writeImage cs size fs = .ok img) : ∃ base info, Base cs size fs base ∧
      fsInfo fs = .ok info ∧ (∀ n, n = 1 ∨ n = 7 → slice base (n * SECTOR) 512 = info) ∧
      img = writeBlocks (clusterOffset cs fs) base fs.clusters := by
  obtain ⟨bs, hbs, himg⟩ := bind_eq_ok.mp himg
  obtain ⟨info, hinfo, himg⟩ := bind_eq_ok.mp himg
  obtain ⟨blob, hfat, himg⟩ := bind_eq_ok.mp himg
  obtain ⟨rfl, -⟩ := packFat_spec hfat
  have hbytes : bs = bootBytes cs fs.totalSectors fs.fatSectors := by
    rw [bootSector_eq] at hbs
    split at hbs
    · exact (Except.ok.inj hbs).symm
    · cases hbs
  have hlen := fsInfo_length hinfo
  exact ⟨_, info, base_spec h hbytes hlen, hinfo,
    fun n hn => base_info h (hbytes ▸ bootBytes_length) hlen hn, (Except.ok.inj himg).symm⟩

/-- FSInfo as a reader of the image finds it in sector `n`. -/
theorem fsInfo_written {cs size : ℕ} {fs : Fat} {img : List UInt8} (h : Spaced cs size fs)
    (himg : writeImage cs size fs = .ok img) {n : ℕ} (hn : n = 1 ∨ n = 7) :
    field img (n * SECTOR + 488) 4 = fs.fat.length - fs.nextFree ∧
      field img (n * SECTOR + 492) 4 = fs.nextFree := by
  obtain ⟨base, info, hbase, hinfo, hplace, rfl⟩ := writeImage_info h.sized himg
  have hlarge : 16384 ≤ fs.dataStart * SECTOR := by
    rw [h.sized.dataStart, RESERVED, Nat.add_mul]
    exact Nat.le_add_right _ _
  have hlow : n * SECTOR ≤ 3584 := by
    rcases hn with rfl | rfl <;> decide
  have hread : ∀ off, off + 4 ≤ 512 →
      field (writeBlocks (clusterOffset cs fs) base fs.clusters) (n * SECTOR + off) 4 =
        field info off 4 := by
    intro off hoff
    rw [field, slice_written h.sized h.good hbase (by omega), ← slice_slice hoff, hplace n hn]
    rfl
  rw [hread 488 (by decide), hread 492 (by decide)]
  exact fsInfo_fields hinfo

/-- An image that is accepted holds its FAT and every cluster that is handed out,
and FSInfo gives the number of the free clusters and where they begin. -/
theorem space_sound {cs : ℕ} {size : ℤ} {fs : Fat} (h : Reached cs size fs) :
    fs.fat.length = fs.nclusters + 2 ∧ 4 * (fs.nclusters + 2) ≤ fs.fatSectors * SECTOR ∧
    (∀ data first fs', allocChain cs data fs = .ok (first, fs') →
      ∀ i < clustersFor cs data.length, fs.Free (first + i) ∧ ¬ fs'.Free (first + i) ∧
        Inside cs size.toNat fs' (first + i)) ∧
    ∀ img, writeImage cs size.toNat fs = .ok img → ∀ n, n = 1 ∨ n = 7 →
      field img (n * SECTOR + 488) 4 = fs.freeCount ∧
      ∀ c, fs.Free c ↔ field img (n * SECTOR + 492) 4 ≤ c ∧ c < fs.nclusters + 2 := by
  have hspaced := h.spaced
  have hlen := hspaced.sized.length
  refine ⟨hlen, hlen ▸ hspaced.sized.fatRoom, ?_, ?_⟩
  · intro data first fs' halloc i hi
    obtain ⟨rfl, -, hext, hnext, -⟩ := allocChain_spec halloc hspaced.good
    have hspaced' := hspaced.allocChain halloc
    have hroom := hspaced'.good.room
    have hlen' := hext.length
    have htwo := hspaced.good.two_le
    refine ⟨(hspaced.free _).mpr (by omega), ?_, hspaced'.inside (by omega) (by omega)⟩
    rw [hspaced'.free]
    omega
  · intro img himg n hn
    obtain ⟨hcount, hhint⟩ := fsInfo_written hspaced himg hn
    rw [hcount, hhint, hspaced.freeCount]
    exact ⟨rfl, hspaced.free⟩

theorem mem_keys_of_holds {cs first : ℕ} {data : List UInt8} {fs : Fat}
    (h : Holds cs fs first data) : first ∈ fs.clusters.map Prod.fst := by
  obtain ⟨-, hdata⟩ := h 0 (clustersFor_pos _ _)
  exact List.mem_map_of_mem (mem_of_lookup hdata)

theorem Reached.closeDir {cs first : ℕ} {size : ℤ} {placed : List (String × Placed)}
    {fs fs' : Fat} (hcs : 0 < cs) (h : Reached cs size fs)
    (hclose : closeDir cs placed fs = .ok (first, fs')) : Reached cs size fs' := by
  obtain ⟨entries, hentries, -, hgood, -⟩ := closeDir_spec hcs hclose h.spaced.good
  rw [closeDir_eq hentries] at hclose
  obtain ⟨⟨first', fs''⟩, halloc, hclose⟩ := bind_eq_ok.mp hclose
  obtain ⟨-, -, -, -, hholds⟩ := allocChain_spec halloc h.spaced.good
  simp only at hclose
  split at hclose
  · cases hclose
    refine .fill (h.alloc halloc) (mem_keys_of_holds hholds) ?_
    refine hgood.sizes first _ ?_
    rw [patched, lookup_setItem, if_pos rfl]
  · cases hclose

mutual

theorem Reached.placeNode {cs : ℕ} {size : ℤ} (hcs : 0 < cs) : ∀ {node : FileNode} {t : Placed}
    {fs fs' : Fat}, Reached cs size fs → placeNode cs node fs = .ok (t, fs') →
      Reached cs size fs'
  | .file data, t, fs, fs', h, hplace => by
      rw [MkFat.placeNode] at hplace
      by_cases hdata : data = []
      · subst hdata
        cases hplace
        exact h
      · rw [if_neg hdata] at hplace
        obtain ⟨⟨first, fs₁⟩, halloc, hplace⟩ := bind_eq_ok.mp hplace
        cases hplace
        exact h.alloc halloc
  | .dir tree, t, fs, fs', h, hplace => by
      rw [MkFat.placeNode] at hplace
      obtain ⟨⟨placed, fs₁⟩, hentries, hplace⟩ := bind_eq_ok.mp hplace
      obtain ⟨⟨first, fs₂⟩, hclose, hplace⟩ := bind_eq_ok.mp hplace
      cases hplace
      exact (h.placeEntries hcs hentries).closeDir hcs hclose

theorem Reached.placeEntries {cs : ℕ} {size : ℤ} (hcs : 0 < cs) : ∀ {t : FileTree}
    {placed : List (String × Placed)} {fs fs' : Fat}, Reached cs size fs →
      placeEntries cs t fs = .ok (placed, fs') → Reached cs size fs'
  | [], placed, fs, fs', h, hplace => by
      rw [MkFat.placeEntries] at hplace
      cases hplace
      exact h
  | (name, node) :: rest, placed, fs, fs', h, hplace => by
      rw [MkFat.placeEntries] at hplace
      obtain ⟨⟨t, fs₁⟩, hnode, hplace⟩ := bind_eq_ok.mp hplace
      obtain ⟨⟨placed, fs₂⟩, hrest, hplace⟩ := bind_eq_ok.mp hplace
      cases hplace
      exact (h.placeNode hcs hnode).placeEntries hcs hrest

end

/-- Every image is written from a state that these steps reach. -/
theorem build_reached {cs : ℕ} {size : ℤ} {tree : FileTree} {img : List UInt8}
    (h : build cs size tree = .ok img) :
    ∃ fs, Reached cs size fs ∧ writeImage cs size.toNat fs = .ok img := by
  obtain ⟨fs₀, hnew, h⟩ := bind_eq_ok.mp h
  have hcs := (new_eq_ok.mp hnew).1
  obtain ⟨⟨first, fs₁⟩, halloc, h⟩ := bind_eq_ok.mp h
  obtain ⟨rfl, -, -, -, hholds⟩ := allocChain_spec halloc (Reached.new hnew).spaced.good
  obtain ⟨⟨placed, fs₂⟩, hplace, h⟩ := bind_eq_ok.mp h
  obtain ⟨entries, hentries, h⟩ := bind_eq_ok.mp h
  have hreached : Reached cs size fs₂ := ((Reached.new hnew).alloc halloc).placeEntries hcs hplace
  have hext := (placeEntries_spec hcs hplace ((Reached.new hnew).alloc halloc).spaced.good).2.1
  have htwo : fs₀.nextFree = 2 := by
    obtain ⟨-, total, -, -, -, -, rfl⟩ := new_eq_ok.mp hnew
    rfl
  have hroot : 2 ∈ fs₂.clusters.map Prod.fst := by
    obtain ⟨-, hdata⟩ := hholds 0 (clustersFor_pos _ _)
    obtain ⟨-, -, -, hnext, -⟩ := allocChain_spec halloc (Reached.new hnew).spaced.good
    have hpos := clustersFor_pos cs (List.replicate (cs * SECTOR) (0 : UInt8)).length
    rw [Nat.add_zero, htwo, ← hext.clusters 2 (by omega)] at hdata
    exact List.mem_map_of_mem (mem_of_lookup hdata)
  have hwrite : (if cs * SECTOR < entries.length then
      .error (.exit "root directory exceeds one cluster; widen this writer")
    else writeImage cs size.toNat (patched 2 (rootBytes cs entries) fs₂)) = Except.ok img := h
  by_cases hsmall : cs * SECTOR < entries.length
  · rw [if_pos hsmall] at hwrite
    cases hwrite
  · rw [if_neg hsmall] at hwrite
    exact ⟨_, hreached.fill hroot (rootBytes_length (by omega)).le, hwrite⟩

/-- An image of 128 MiB with one file of three bytes. -/
theorem space_sound_sample : ∃ fs fs', Reached 2 134217728 fs ∧
    allocChain 2 [0x4d, 0x5a, 0x90] fs = .ok (2, fs') ∧ Inside 2 134217728 fs' 2 := by
  have hnew : Fat.new 2 134217728 = .ok (newFat 2 262144) :=
    new_eq_ok.mpr ⟨by decide, 262144, by decide, by decide, by decide, by decide, rfl⟩
  have hreached : Reached 2 134217728 (newFat 2 262144) := .new hnew
  have hroom : (newFat 2 262144).nextFree + clustersFor 2 ([0x4d, 0x5a, 0x90] : List UInt8).length ≤
      (newFat 2 262144).fat.length := by
    rw [hreached.spaced.sized.length]
    decide
  obtain ⟨fs', h'⟩ := allocChain_ok hroom
  obtain ⟨-, -, hinside⟩ := (space_sound hreached).2.2.1 _ _ _ h' 0 (by decide)
  exact ⟨_, fs', hreached, h', hinside⟩

end Veron.MkFat
