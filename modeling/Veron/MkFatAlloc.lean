/-
What allocating does to the FAT and the clusters: chains are laid one after the
other, and nothing that was laid is touched again.
-/
import Veron.MkFatEntries

namespace Veron.MkFat

open Fat32

/-- What holds between two allocations; `cs` sectors make a cluster. -/
structure Good (cs : ℕ) (fs : Fat) : Prop where
  two_le : 2 ≤ fs.nextFree
  room : fs.nextFree ≤ fs.fat.length
  keys : ∀ c ∈ fs.clusters.map Prod.fst, 2 ≤ c ∧ c < fs.nextFree
  nodup : (fs.clusters.map Prod.fst).Nodup
  sizes : ∀ c data, fs.clusters.lookup c = some data → data.length ≤ cs * SECTOR
  links : ∀ v ∈ fs.fat, v ≤ fs.nextFree ∨ v ≤ 0x0FFFFFFF

/-- `fs'` comes after `fs`. -/
structure Extends (fs fs' : Fat) : Prop where
  totalSectors : fs'.totalSectors = fs.totalSectors
  fatSectors : fs'.fatSectors = fs.fatSectors
  dataStart : fs'.dataStart = fs.dataStart
  nclusters : fs'.nclusters = fs.nclusters
  length : fs'.fat.length = fs.fat.length
  nextFree : fs.nextFree ≤ fs'.nextFree
  fat : ∀ c < fs.nextFree, fs'.fat[c]? = fs.fat[c]?
  clusters : ∀ c < fs.nextFree, fs'.clusters.lookup c = fs.clusters.lookup c

theorem Extends.refl (fs : Fat) : Extends fs fs :=
  ⟨rfl, rfl, rfl, rfl, rfl, Nat.le_refl _, fun _ _ => rfl, fun _ _ => rfl⟩

theorem Extends.trans {fs fs' fs'' : Fat} (h : Extends fs fs') (h' : Extends fs' fs'') :
    Extends fs fs'' where
  totalSectors := h'.totalSectors.trans h.totalSectors
  fatSectors := h'.fatSectors.trans h.fatSectors
  dataStart := h'.dataStart.trans h.dataStart
  nclusters := h'.nclusters.trans h.nclusters
  length := h'.length.trans h.length
  nextFree := h.nextFree.trans h'.nextFree
  fat c hc := (h'.fat c (Nat.lt_of_lt_of_le hc h.nextFree)).trans (h.fat c hc)
  clusters c hc := (h'.clusters c (Nat.lt_of_lt_of_le hc h.nextFree)).trans (h.clusters c hc)

/-- What the FAT says of the `i`-th cluster of a chain of `k` from `first` on. -/
def link (first k i : ℕ) : ℕ := if i + 1 < k then first + i + 1 else 0x0FFFFFFF

/-- `data` stands in a chain from `first` on. -/
def Holds (cs : ℕ) (fs : Fat) (first : ℕ) (data : List UInt8) : Prop :=
  ∀ i < clustersFor cs data.length,
    fs.fat[first + i]? = some (link first (clustersFor cs data.length) i) ∧
      fs.clusters.lookup (first + i) = some (slice data (i * (cs * SECTOR)) (cs * SECTOR))

theorem clustersFor_pos (cs len : ℕ) : 1 ≤ clustersFor cs len := Nat.le_max_left 1 _

/-- The clusters of a chain hold all its data. -/
theorem le_clustersFor_mul {cs : ℕ} (hcs : 0 < cs) (len : ℕ) :
    len ≤ clustersFor cs len * (cs * SECTOR) := by
  have hsize : 0 < cs * SECTOR := Nat.mul_pos hcs (by decide)
  have hceil : len ≤ (len + cs * SECTOR - 1) / (cs * SECTOR) * (cs * SECTOR) := by
    have hdiv := Nat.div_add_mod (len + cs * SECTOR - 1) (cs * SECTOR)
    have hmod := Nat.mod_lt (len + cs * SECTOR - 1) hsize
    rw [Nat.mul_comm] at hdiv
    omega
  exact hceil.trans (Nat.mul_le_mul_right _ (Nat.le_max_right 1 _))

/-- The state after a cluster was taken. -/
def taken (cs : ℕ) (data : List UInt8) (cl i : ℕ) (fs : Fat) : Fat :=
  { fs with
    nextFree := fs.nextFree + 1
    fat := fs.fat.set fs.nextFree (if i < cl - 1 then fs.nextFree + 1 else 0x0FFFFFFF)
    clusters := setItem fs.nextFree (slice data (i * (cs * SECTOR)) (cs * SECTOR)) fs.clusters }

theorem allocCluster_eq (cs : ℕ) (data : List UInt8) (cl i : ℕ) (fs : Fat) :
    allocCluster cs data cl i fs =
      if fs.nextFree < fs.fat.length then .ok (taken cs data cl i fs)
      else .error (.exit "ESP full") := by
  rw [allocCluster]
  by_cases h : fs.nextFree < fs.fat.length
  · rw [if_pos h, if_neg (by omega), taken]
  · rw [if_neg h, if_pos (by omega)]

section Taken

variable {cs : ℕ} {data : List UInt8} {cl i : ℕ} {fs : Fat}

theorem taken_extends : Extends fs (taken cs data cl i fs) where
  totalSectors := rfl
  fatSectors := rfl
  dataStart := rfl
  nclusters := rfl
  length := List.length_set
  nextFree := Nat.le_succ _
  fat c hc := List.getElem?_set_ne (by omega)
  clusters c hc := by
    change (setItem fs.nextFree _ fs.clusters).lookup c = _
    rw [lookup_setItem, if_neg (by omega)]

theorem taken_good (h : Good cs fs) (hroom : fs.nextFree < fs.fat.length) :
    Good cs (taken cs data cl i fs) where
  two_le := Nat.le_succ_of_le h.two_le
  room := by
    rw [taken_extends.length]
    exact hroom
  keys c hc := by
    rcases mem_keys_setItem.mp hc with rfl | hc
    · exact ⟨h.two_le, Nat.lt_succ_self _⟩
    · have hkey := h.keys c hc
      exact ⟨hkey.1, Nat.lt_succ_of_lt hkey.2⟩
  nodup := nodup_setItem h.nodup
  sizes c d hc := by
    change (setItem fs.nextFree _ fs.clusters).lookup c = _ at hc
    rw [lookup_setItem] at hc
    split at hc
    · rw [Option.some.injEq] at hc
      rw [← hc, slice_length]
      exact Nat.min_le_left _ _
    · exact h.sizes c d hc
  links v hv := by
    rcases List.mem_or_eq_of_mem_set hv with hv | rfl
    · rcases h.links v hv with hv | hv
      · exact .inl (Nat.le_succ_of_le hv)
      · exact .inr hv
    · split
      · exact .inl (Nat.le_refl _)
      · exact .inr (Nat.le_refl _)

theorem taken_fat (hroom : fs.nextFree < fs.fat.length) :
    (taken cs data cl i fs).fat[fs.nextFree]? =
      some (if i < cl - 1 then fs.nextFree + 1 else 0x0FFFFFFF) :=
  List.getElem?_set_self hroom

theorem taken_clusters : (taken cs data cl i fs).clusters.lookup fs.nextFree =
    some (slice data (i * (cs * SECTOR)) (cs * SECTOR)) := by
  change (setItem fs.nextFree _ fs.clusters).lookup fs.nextFree = _
  rw [lookup_setItem, if_pos rfl]

end Taken

theorem allocClusters_spec {cs : ℕ} {data : List UInt8} {cl rounds i : ℕ} {fs fs' : Fat}
    (h : allocClusters cs data cl rounds i fs = .ok fs') (hgood : Good cs fs)
    (hrounds : i + rounds = cl) : Good cs fs' ∧ Extends fs fs' ∧
      fs'.nextFree = fs.nextFree + rounds ∧ ∀ j < rounds,
        fs'.fat[fs.nextFree + j]? =
            some (if i + j < cl - 1 then fs.nextFree + j + 1 else 0x0FFFFFFF) ∧
          fs'.clusters.lookup (fs.nextFree + j) =
            some (slice data ((i + j) * (cs * SECTOR)) (cs * SECTOR)) := by
  induction rounds generalizing i fs with
  | zero =>
      rw [allocClusters, Except.ok.injEq] at h
      subst h
      exact ⟨hgood, Extends.refl fs, rfl, fun j hj => absurd hj (Nat.not_lt_zero j)⟩
  | succ rounds ih =>
      rw [allocClusters, allocCluster_eq] at h
      by_cases hroom : fs.nextFree < fs.fat.length
      · rw [if_pos hroom] at h
        obtain ⟨hgood', hext, hnext, hchain⟩ := ih h (taken_good hgood hroom) (by omega)
        have hfree : (taken cs data cl i fs).nextFree = fs.nextFree + 1 := rfl
        rw [hfree] at hnext hchain
        refine ⟨hgood', taken_extends.trans hext, by omega, fun j hj => ?_⟩
        cases j with
        | zero =>
            rw [Nat.add_zero, Nat.add_zero, hext.fat _ (by omega), hext.clusters _ (by omega),
              taken_fat hroom, taken_clusters]
            exact ⟨rfl, rfl⟩
        | succ j =>
            have hj := hchain j (by omega)
            rw [show fs.nextFree + 1 + j = fs.nextFree + (j + 1) by omega,
              show i + 1 + j = i + (j + 1) by omega] at hj
            exact hj
      · rw [if_neg hroom] at h
        cases h

theorem allocClusters_ok {cs : ℕ} {data : List UInt8} {cl rounds i : ℕ} {fs : Fat}
    (h : fs.nextFree + rounds ≤ fs.fat.length) :
    ∃ fs', allocClusters cs data cl rounds i fs = .ok fs' := by
  induction rounds generalizing i fs with
  | zero => exact ⟨fs, rfl⟩
  | succ rounds ih =>
      have hroom : fs.nextFree < fs.fat.length := by omega
      have hlen : (taken cs data cl i fs).fat.length = fs.fat.length := List.length_set
      have hnext : (taken cs data cl i fs).nextFree = fs.nextFree + 1 := rfl
      have hrest : ∃ fs', allocClusters cs data cl rounds (i + 1) (taken cs data cl i fs) =
          .ok fs' := ih (by omega)
      obtain ⟨fs', h'⟩ := hrest
      refine ⟨fs', ?_⟩
      rw [allocClusters, allocCluster_eq, if_pos hroom]
      exact h'

theorem allocChain_spec {cs first : ℕ} {data : List UInt8} {fs fs' : Fat}
    (h : allocChain cs data fs = .ok (first, fs')) (hgood : Good cs fs) :
    first = fs.nextFree ∧ Good cs fs' ∧ Extends fs fs' ∧
      fs'.nextFree = first + clustersFor cs data.length ∧ Holds cs fs' first data := by
  obtain ⟨fs'', halloc, h⟩ := bind_eq_ok.mp h
  cases h
  obtain ⟨hgood', hext, hnext, hchain⟩ := allocClusters_spec halloc hgood (Nat.zero_add _)
  refine ⟨rfl, hgood', hext, hnext, fun i hi => ?_⟩
  obtain ⟨hfat, hdata⟩ := hchain i hi
  rw [Nat.zero_add] at hfat hdata
  refine ⟨hfat.trans ?_, hdata⟩
  rw [link]
  congr 1
  exact if_congr (by omega) rfl rfl

theorem allocChain_ok {cs : ℕ} {data : List UInt8} {fs : Fat}
    (h : fs.nextFree + clustersFor cs data.length ≤ fs.fat.length) :
    ∃ fs', allocChain cs data fs = .ok (fs.nextFree, fs') := by
  have hloop : ∃ fs', allocClusters cs data (clustersFor cs data.length)
      (clustersFor cs data.length) 0 fs = .ok fs' := allocClusters_ok h
  obtain ⟨fs', h'⟩ := hloop
  exact ⟨fs', by rw [allocChain, h']; rfl⟩

/-- The bytes of a directory at `first`: `.` names it, `..` the root. -/
def dirBytes (first : ℕ) (entries : List UInt8) : List UInt8 :=
  shortSlot dotName 0x10 first 0 ++ (shortSlot dotdotName 0x10 0 0 ++ entries)

theorem dotEntries_eq :
    dotEntries = .ok (shortSlot dotName 0x10 0 0 ++ shortSlot dotdotName 0x10 0 0) := by
  have hdot : ascii ".          ".toList = dotName := by decide
  have hdotdot : ascii "..         ".toList = dotdotName := by decide
  have hzero : 0 < 2 ^ 32 ∧ 0 < 2 ^ 32 := by decide
  rw [dotEntries, hdot, hdotdot, packEntry_eq, packEntry_eq, if_pos hzero]
  rfl

theorem overwrite_middle {as bs ds cs : List UInt8} {off : ℕ} (hoff : as.length = off)
    (hlen : ds.length = bs.length) :
    overwrite (as ++ (bs ++ cs)) off ds = as ++ (ds ++ cs) := by
  have hdrop : (as ++ (bs ++ cs)).drop (off + ds.length) = cs := by
    rw [← List.drop_drop, List.drop_left' hoff, List.drop_left' hlen.symm]
  rw [overwrite, hdrop, List.take_left' hoff]

/-- The first cluster of a directory with its own number in it. -/
def ownBlob (first : ℕ) (blob : List UInt8) : List UInt8 :=
  overwrite (overwrite blob 20 (leBytes 2 (first >>> 16))) 26 (leBytes 2 (first &&& 0xffff))

/-- The cluster of `.` is filled in afterwards. -/
theorem ownBlob_eq (first : ℕ) (rest : List UInt8) :
    ownBlob first (shortSlot dotName 0x10 0 0 ++ rest) =
      shortSlot dotName 0x10 first 0 ++ rest := by
  have hslot : ∀ c : ℕ, shortSlot dotName 0x10 c 0 ++ rest =
      (dotName ++ ([0x10, 0, 0] : List UInt8) ++ leBytes 2 DOSTIME ++ leBytes 2 DOSDATE ++
          leBytes 2 DOSDATE) ++
        (leBytes 2 (c >>> 16) ++ (leBytes 2 DOSTIME ++ (leBytes 2 DOSDATE ++
          (leBytes 2 (c &&& 0xffff) ++ (leBytes 4 0 ++ rest))))) := by
    intro c
    simp only [shortSlot, List.append_assoc]
  have hregroup : ∀ (hi lo : List UInt8),
      (dotName ++ ([0x10, 0, 0] : List UInt8) ++ leBytes 2 DOSTIME ++ leBytes 2 DOSDATE ++
          leBytes 2 DOSDATE) ++
        (hi ++ (leBytes 2 DOSTIME ++ (leBytes 2 DOSDATE ++ (lo ++ (leBytes 4 0 ++ rest))))) =
      (dotName ++ ([0x10, 0, 0] : List UInt8) ++ leBytes 2 DOSTIME ++ leBytes 2 DOSDATE ++
        leBytes 2 DOSDATE ++ hi ++ leBytes 2 DOSTIME ++ leBytes 2 DOSDATE) ++
          (lo ++ (leBytes 4 0 ++ rest)) := by
    intro hi lo
    simp only [List.append_assoc]
  have hdot : dotName.length = 11 := by decide
  rw [ownBlob, hslot 0, overwrite_middle (by simp [hdot]) (by simp), hregroup,
    overwrite_middle (by simp [hdot]) (by simp), ← hregroup, ← hslot first]

theorem dotName_length : dotName.length = 11 := by decide

theorem dotdotName_length : dotdotName.length = 11 := by decide

theorem dirBytes_length (first : ℕ) (entries : List UInt8) :
    (dirBytes first entries).length = 64 + entries.length := by
  rw [dirBytes, List.length_append, List.length_append, shortSlot_length dotName_length,
    shortSlot_length dotdotName_length]
  omega

/-- What stands in one cluster, with the cluster of `.` filled in or not. -/
theorem slice_dirBytes (first i : ℕ) (entries : List UInt8) {size : ℕ} (hsize : 32 ≤ size) :
    slice (dirBytes first entries) (i * size) size =
      if i = 0 then ownBlob first (slice (dirBytes 0 entries) 0 size)
      else slice (dirBytes 0 entries) (i * size) size := by
  have hlen : ∀ c : ℕ, (shortSlot dotName 0x10 c 0).length = 32 :=
    fun c => shortSlot_length dotName_length
  by_cases hi : i = 0
  · have hfront : ∀ c : ℕ, slice (dirBytes c entries) 0 size = shortSlot dotName 0x10 c 0 ++
        (shortSlot dotdotName 0x10 0 0 ++ entries).take (size - 32) := by
      intro c
      rw [slice, List.drop_zero, dirBytes, List.take_append, hlen,
        List.take_of_length_le (by rw [hlen]; exact hsize)]
    rw [if_pos hi, hi, Nat.zero_mul, hfront, hfront, ownBlob_eq]
  · have hle : size ≤ i * size := Nat.le_mul_of_pos_left size (Nat.pos_of_ne_zero hi)
    have hskip : ∀ c : ℕ, slice (dirBytes c entries) (i * size) size =
        slice (shortSlot dotdotName 0x10 0 0 ++ entries) (i * size - 32) size := by
      intro c
      rw [dirBytes, slice_append_right (by rw [hlen]; omega), hlen]
    rw [if_neg hi, hskip, hskip]

/-- The state after the first cluster of a directory was filled in. -/
def patched (first : ℕ) (blob : List UInt8) (fs : Fat) : Fat :=
  { fs with clusters := setItem first blob fs.clusters }

theorem patched_good {cs first : ℕ} {blob : List UInt8} {fs : Fat} (h : Good cs fs)
    (hfirst : 2 ≤ first) (hlt : first < fs.nextFree) (hblob : blob.length ≤ cs * SECTOR) :
    Good cs (patched first blob fs) where
  two_le := h.two_le
  room := h.room
  keys c hc := by
    rcases mem_keys_setItem.mp hc with rfl | hc
    · exact ⟨hfirst, hlt⟩
    · exact h.keys c hc
  nodup := nodup_setItem h.nodup
  sizes c d hc := by
    change (setItem first blob fs.clusters).lookup c = _ at hc
    rw [lookup_setItem] at hc
    split at hc
    · rw [Option.some.injEq] at hc
      rw [← hc]
      exact hblob
    · exact h.sizes c d hc
  links := h.links

/-- Closing a directory whose entries come to `entries`. -/
theorem closeDir_eq {cs : ℕ} {placed : List (String × Placed)} {fs : Fat} {entries : List UInt8}
    (h : placedEntries placed = .ok entries) :
    closeDir cs placed fs = allocChain cs (dirBytes 0 entries) fs >>= fun r =>
      if r.1 < 2 ^ 32 then
        .ok (r.1, patched r.1 (ownBlob r.1 ((r.2.clusters.lookup r.1).getD [])) r.2)
      else .error .struct := by
  have hbytes : (shortSlot dotName 0x10 0 0 ++ shortSlot dotdotName 0x10 0 0) ++ entries =
      dirBytes 0 entries := by rw [dirBytes, List.append_assoc]
  rw [closeDir, dotEntries_eq, h]
  change (allocChain cs ((shortSlot dotName 0x10 0 0 ++ shortSlot dotdotName 0x10 0 0) ++
    entries) fs >>= _) = _
  rw [hbytes]
  congr 1
  funext r
  obtain ⟨first, fs'⟩ := r
  change (pack 2 (first >>> 16) >>= fun hi => Except.ok (first, patched first
    (overwrite (overwrite ((fs'.clusters.lookup first).getD []) 20 hi) 26
      (leBytes 2 (first &&& 0xffff))) fs')) = _
  rw [pack, Nat.shiftRight_eq_div_pow]
  by_cases hnumber : first < 2 ^ 32
  · have hhigh : first / 2 ^ 16 < 256 ^ 2 := by omega
    rw [if_pos hhigh, if_pos hnumber, ownBlob, Nat.shiftRight_eq_div_pow]
    rfl
  · have hhigh : ¬first / 2 ^ 16 < 256 ^ 2 := by omega
    rw [if_neg hhigh, if_neg hnumber]
    rfl

theorem closeDir_spec {cs first : ℕ} {placed : List (String × Placed)} {fs fs' : Fat}
    (hcs : 0 < cs) (h : closeDir cs placed fs = .ok (first, fs')) (hgood : Good cs fs) :
    ∃ entries, placedEntries placed = .ok entries ∧ first = fs.nextFree ∧ Good cs fs' ∧
      Extends fs fs' ∧ fs'.nextFree = first + clustersFor cs (64 + entries.length) ∧
      Holds cs fs' first (dirBytes first entries) := by
  have hsize : 32 ≤ cs * SECTOR := by
    rw [SECTOR]
    omega
  obtain ⟨entries, hentries⟩ : ∃ entries, placedEntries placed = .ok entries := by
    rw [closeDir, dotEntries_eq] at h
    obtain ⟨dots, -, h⟩ := bind_eq_ok.mp h
    obtain ⟨entries, hentries, -⟩ := bind_eq_ok.mp h
    exact ⟨entries, hentries⟩
  rw [closeDir_eq hentries] at h
  obtain ⟨⟨first', fs''⟩, halloc, h⟩ := bind_eq_ok.mp h
  obtain ⟨rfl, hgood', hext, hnext, hholds⟩ := allocChain_spec halloc hgood
  rw [dirBytes_length] at hnext
  have hpos := clustersFor_pos cs (64 + entries.length)
  obtain ⟨-, hdata⟩ := hholds 0 (by rw [dirBytes_length]; omega)
  rw [Nat.add_zero, Nat.zero_mul] at hdata
  have hblob := slice_dirBytes fs.nextFree 0 entries hsize
  rw [if_pos rfl, Nat.zero_mul] at hblob
  simp only [hdata, Option.getD_some, ← hblob] at h
  split at h
  · cases h
    refine ⟨entries, hentries, rfl, ?_, ?_, hnext, ?_⟩
    · apply patched_good hgood' hgood.two_le (by omega)
      rw [slice_length]
      exact Nat.min_le_left _ _
    · refine ⟨hext.totalSectors, hext.fatSectors, hext.dataStart, hext.nclusters,
        hext.length, hext.nextFree, hext.fat, fun c hc => ?_⟩
      rw [← hext.clusters c hc, patched, lookup_setItem, if_neg (by omega)]
    · intro i hi
      rw [dirBytes_length] at hi ⊢
      obtain ⟨hfat, hcluster⟩ := hholds i (by rw [dirBytes_length]; exact hi)
      rw [dirBytes_length] at hfat
      refine ⟨hfat, ?_⟩
      rw [patched, lookup_setItem]
      by_cases hi0 : i = 0
      · rw [if_pos (by omega), hi0, Nat.zero_mul]
      · rw [if_neg (by omega), hcluster, slice_dirBytes fs.nextFree i entries hsize, if_neg hi0]
  · cases h

theorem closeDir_ok {cs : ℕ} {placed : List (String × Placed)} {fs : Fat} {entries : List UInt8}
    (hentries : placedEntries placed = .ok entries)
    (hroom : fs.nextFree + clustersFor cs (64 + entries.length) ≤ fs.fat.length)
    (hnumber : fs.nextFree < 2 ^ 32) :
    ∃ fs', closeDir cs placed fs = .ok (fs.nextFree, fs') := by
  rw [← dirBytes_length 0 entries] at hroom
  obtain ⟨fs', h'⟩ := allocChain_ok hroom
  rw [closeDir_eq hentries, h']
  change ∃ fs'', (if fs.nextFree < 2 ^ 32 then _ else _) = _
  rw [if_pos hnumber]
  exact ⟨_, rfl⟩

end Veron.MkFat
