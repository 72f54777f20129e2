/-
The image as a FAT32 reader sees it: the geometry its boot sector gives, the two
copies of the FAT, and the clusters.
-/
import Mathlib.Tactic.Linarith
import Mathlib.Tactic.Ring
import Veron.MkFatRead

namespace Veron.MkFat

open FileTree Fat32

attribute [local simp] packFat

/-- The parts of an image of `size` bytes. -/
structure Sized (cs size : ℕ) (fs : Fat) : Prop where
  size_eq : size = fs.totalSectors * SECTOR
  dataStart : fs.dataStart = RESERVED + NFATS * fs.fatSectors
  le_total : fs.dataStart ≤ fs.totalSectors
  nclusters : fs.nclusters = (fs.totalSectors - fs.dataStart) / cs
  many : 65525 ≤ fs.nclusters
  length : fs.fat.length = fs.nclusters + 2
  fatRoom : 4 * fs.fat.length ≤ fs.fatSectors * SECTOR

theorem Sized.extend {cs size : ℕ} {fs fs' : Fat} (h : Sized cs size fs) (hext : Extends fs fs') :
    Sized cs size fs' where
  size_eq := hext.totalSectors ▸ h.size_eq
  dataStart := hext.dataStart.trans (hext.fatSectors ▸ h.dataStart)
  le_total := by
    rw [hext.dataStart, hext.totalSectors]
    exact h.le_total
  nclusters := by
    rw [hext.nclusters, hext.dataStart, hext.totalSectors]
    exact h.nclusters
  many := hext.nclusters ▸ h.many
  length := by
    rw [hext.length, hext.nclusters]
    exact h.length
  fatRoom := by
    rw [hext.length, hext.fatSectors]
    exact h.fatRoom

/-- The clusters end inside the image. -/
theorem Sized.cluster_le {cs size c : ℕ} {fs : Fat} (h : Sized cs size fs)
    (hlt : c < fs.fat.length) (htwo : 2 ≤ c) :
    clusterOffset cs fs c + cs * SECTOR ≤ size := by
  have hdiv : fs.nclusters * cs ≤ fs.totalSectors - fs.dataStart := by
    rw [h.nclusters]
    exact Nat.div_mul_le_self _ _
  have hmul : (c - 2 + 1) * cs ≤ fs.nclusters * cs := by
    apply Nat.mul_le_mul_right
    have hlen := h.length
    omega
  have hle := h.le_total
  have hsize := h.size_eq
  rw [Nat.succ_mul] at hmul
  rw [clusterOffset, hsize, ← Nat.add_mul]
  apply Nat.mul_le_mul_right
  omega

section New

variable {cs : ℕ}

/-- The sectors of a FAT for so many sectors in all. -/
def fatSectorsFor (cs total : ℕ) : ℕ := ((total - RESERVED) / cs * 4 + 2 * 4 + SECTOR - 1) / SECTOR

def dataStartFor (cs total : ℕ) : ℕ := RESERVED + NFATS * fatSectorsFor cs total

def nclustersFor (cs total : ℕ) : ℕ := (total - dataStartFor cs total) / cs

/-- The file system without files in `total` sectors. -/
def newFat (cs total : ℕ) : Fat where
  totalSectors := total
  fatSectors := fatSectorsFor cs total
  dataStart := dataStartFor cs total
  nclusters := nclustersFor cs total
  fat := 0x0FFFFFF8 :: 0x0FFFFFFF :: List.replicate (nclustersFor cs total) 0
  clusters := []
  nextFree := 2

/-- The number of clusters as it is computed, without a sign missing. -/
def nclustersInt (cs : ℕ) (total : ℤ) : ℤ :=
  (total - (RESERVED + NFATS * (((total - RESERVED) / cs * 4 + 2 * 4 + SECTOR - 1) / SECTOR))) / cs

/-- For an image smaller than what is reserved there are no clusters. -/
theorem nclustersInt_small {total : ℤ} (hcs : 0 < cs) (h : total < 32) :
    nclustersInt cs total < 65525 := by
  have hpos : (0 : ℤ) < cs := by exact_mod_cast hcs
  have hguess : total - 32 ≤ (total - 32) / cs := by
    rw [Int.le_ediv_iff_mul_le hpos]
    nlinarith
  apply Int.ediv_lt_of_lt_mul hpos
  simp only [SECTOR, RESERVED, NFATS, Nat.cast_ofNat]
  generalize (total - 32) / cs = guess at hguess ⊢
  have hone : (1 : ℤ) ≤ cs := hpos
  omega

theorem fatSectors_eq {total : ℕ} (h : 32 ≤ total) :
    (((total : ℤ) - RESERVED) / cs * 4 + 2 * 4 + SECTOR - 1) / SECTOR = fatSectorsFor cs total := by
  have hreserved : (total : ℤ) - RESERVED = ((total - RESERVED : ℕ) : ℤ) := by
    rw [RESERVED]
    omega
  rw [hreserved, ← Int.natCast_div, fatSectorsFor, SECTOR]
  omega

theorem dataStart_eq {total : ℕ} (h : 32 ≤ total) :
    (RESERVED : ℤ) + NFATS * ((((total : ℤ) - RESERVED) / cs * 4 + 2 * 4 + SECTOR - 1) / SECTOR) =
      dataStartFor cs total := by
  rw [fatSectors_eq h, dataStartFor]
  push_cast
  rfl

theorem nclustersInt_eq {total : ℕ} (h : 32 ≤ total) (hstart : dataStartFor cs total ≤ total) :
    nclustersInt cs total = nclustersFor cs total := by
  rw [nclustersInt, dataStart_eq h, nclustersFor, Int.natCast_div, Int.natCast_sub hstart]

theorem dataStartFor_le {total : ℕ} (hcs : 0 < cs) (h : 65525 ≤ nclustersInt cs total) :
    32 ≤ total ∧ dataStartFor cs total ≤ total := by
  have hlarge : 32 ≤ total := by
    by_contra hsmall
    have hfew : nclustersInt cs (total : ℤ) < 65525 := nclustersInt_small hcs (by omega)
    omega
  have hpos : (0 : ℤ) < cs := by exact_mod_cast hcs
  rw [nclustersInt, dataStart_eq hlarge, Int.le_ediv_iff_mul_le hpos] at h
  exact ⟨hlarge, by omega⟩

theorem new_eq (cs : ℕ) (size : ℤ) : Fat.new cs size =
    if cs = 0 then .error .zeroDivision
    else if size % (cs * SECTOR) ≠ 0 then
      .error (.exit "size must be a multiple of the cluster size")
    else if nclustersInt cs (size / SECTOR) < 65525 then
      .error (.exit ("FAT32 requires >= 65525 clusters; this image has " ++
        toString (nclustersInt cs (size / SECTOR)) ++ ". Grow the ESP."))
    else
      let fatSectors := ((size / SECTOR - RESERVED) / cs * 4 + 2 * 4 + SECTOR - 1) / SECTOR
      .ok {
        totalSectors := (size / SECTOR).toNat
        fatSectors := fatSectors.toNat
        dataStart := (RESERVED + NFATS * fatSectors).toNat
        nclusters := (nclustersInt cs (size / SECTOR)).toNat
        fat := 0x0FFFFFF8 :: 0x0FFFFFFF ::
          List.replicate (nclustersInt cs (size / SECTOR)).toNat 0
        clusters := []
        nextFree := 2 } := rfl

/-- When a file system can be made, and which. -/
theorem new_eq_ok {size : ℤ} {fs : Fat} : Fat.new cs size = .ok fs ↔
    0 < cs ∧ ∃ total : ℕ, size = total * SECTOR ∧ cs ∣ total ∧ dataStartFor cs total ≤ total ∧
      65525 ≤ nclustersFor cs total ∧ fs = newFat cs total := by
  have hsector : (SECTOR : ℤ) = 512 := rfl
  rw [new_eq]
  constructor
  · intro h
    by_cases hzero : cs = 0
    · rw [if_pos hzero] at h
      cases h
    have hcs : 0 < cs := Nat.pos_of_ne_zero hzero
    rw [if_neg hzero] at h
    by_cases haligned : size % (cs * SECTOR) ≠ 0
    · rw [if_pos haligned] at h
      cases h
    rw [if_neg haligned] at h
    by_cases hfew : nclustersInt cs (size / SECTOR) < 65525
    · rw [if_pos hfew] at h
      cases h
    rw [if_neg hfew, Except.ok.injEq] at h
    have hlarge : 32 ≤ size / SECTOR := by
      by_contra hsmall
      exact hfew (nclustersInt_small hcs (by omega))
    obtain ⟨total, htotal⟩ := Int.eq_ofNat_of_zero_le (show 0 ≤ size / SECTOR by omega)
    rw [htotal] at h hfew hlarge
    obtain ⟨-, hstart⟩ := dataStartFor_le hcs (show 65525 ≤ nclustersInt cs (total : ℤ) by omega)
    have hcount : nclustersInt cs (total : ℤ) = nclustersFor cs total :=
      nclustersInt_eq (by omega) hstart
    obtain ⟨k, hk⟩ := Int.dvd_of_emod_eq_zero (not_not.mp haligned)
    have hsize : size = cs * k * SECTOR := by rw [hk]; ring
    have hquot : (total : ℤ) = cs * k := by
      rw [← htotal, hsize, Int.mul_ediv_cancel _ (by decide)]
    refine ⟨hcs, total, by rw [hsize, hquot], ?_, hstart, by omega, ?_⟩
    · exact Int.natCast_dvd_natCast.mp ⟨k, hquot⟩
    · rw [← h, newFat, hcount, fatSectors_eq (by omega), dataStartFor]
      congr 1
  · rintro ⟨hcs, total, rfl, ⟨k, htotal⟩, hstart, hmany, rfl⟩
    have hlarge : 32 ≤ total := by
      have hreserved : 32 ≤ dataStartFor cs total := Nat.le_add_right _ _
      omega
    have haligned : ¬((total : ℤ) * SECTOR) % (cs * SECTOR) ≠ 0 := by
      rw [not_not, htotal]
      exact Int.emod_eq_zero_of_dvd ⟨k, by push_cast; ring⟩
    have hquot : (total : ℤ) * SECTOR / SECTOR = total := Int.mul_ediv_cancel _ (by decide)
    have hcount := nclustersInt_eq hlarge hstart
    have hfew : ¬nclustersInt cs total < 65525 := by omega
    rw [if_neg (by omega), if_neg haligned, hquot, if_neg hfew, newFat, hcount,
      fatSectors_eq hlarge, dataStartFor]
    rfl

theorem newFat_sized {total : ℕ} (hstart : dataStartFor cs total ≤ total)
    (hmany : 65525 ≤ nclustersFor cs total) : Sized cs (total * SECTOR) (newFat cs total) where
  size_eq := rfl
  dataStart := rfl
  le_total := hstart
  nclusters := rfl
  many := hmany
  length := by simp [newFat]
  fatRoom := by
    have hguess : nclustersFor cs total ≤ (total - RESERVED) / cs := by
      apply Nat.div_le_div_right
      have hreserved : RESERVED ≤ dataStartFor cs total := Nat.le_add_right _ _
      omega
    have hlen : (newFat cs total).fat.length = nclustersFor cs total + 2 := by simp [newFat]
    have hsectors : (newFat cs total).fatSectors = fatSectorsFor cs total := rfl
    rw [hlen, hsectors, fatSectorsFor, SECTOR]
    omega

theorem newFat_good (total : ℕ) : Good cs (newFat cs total) where
  two_le := Nat.le_refl 2
  room := by
    have hlen : (newFat cs total).fat.length = nclustersFor cs total + 2 := by simp [newFat]
    have hnext : (newFat cs total).nextFree = 2 := rfl
    omega
  keys c hc := absurd hc List.not_mem_nil
  nodup := List.nodup_nil
  sizes c data h := by cases h
  links v hv := by
    simp only [newFat, List.mem_cons, List.mem_replicate] at hv
    omega

end New

/-- The fields up to the number of sectors. -/
def bootHead (cs total : ℕ) : List UInt8 :=
  [0xeb, 0x58, 0x90] ++ ascii "VERONESP".toList ++ leBytes 2 SECTOR ++ leBytes 1 cs ++
    leBytes 2 RESERVED ++ leBytes 1 NFATS ++ leBytes 2 0 ++ leBytes 2 0 ++ leBytes 1 0xF8 ++
    leBytes 2 0 ++ leBytes 2 63 ++ leBytes 2 255 ++ leBytes 4 0 ++ leBytes 4 total

/-- The fields FAT32 has of its own. -/
def bootFat32 (fatSectors : ℕ) : List UInt8 :=
  leBytes 4 fatSectors ++ leBytes 2 0 ++ leBytes 2 0 ++ leBytes 4 2 ++ leBytes 2 1 ++ leBytes 2 6

def bootLabel : List UInt8 :=
  [0x80, 0, 0x29] ++ leBytes 4 VOLID ++ ascii "VERON-ESP  ".toList ++ ascii "FAT32   ".toList

def bootBytes (cs total fatSectors : ℕ) : List UInt8 :=
  overwrite (overwrite (overwrite (overwrite (List.replicate SECTOR 0) 0 (bootHead cs total)) 36
    (bootFat32 fatSectors)) 64 bootLabel) 510 [0x55, 0xaa]

theorem bootHead_length (cs total : ℕ) : (bootHead cs total).length = 36 := by
  simp [bootHead, ascii]

theorem bootFat32_length (fatSectors : ℕ) : (bootFat32 fatSectors).length = 16 := by
  simp [bootFat32]

theorem bootLabel_length : bootLabel.length = 26 := by
  simp [bootLabel, ascii]

theorem bootSector_eq (cs : ℕ) (fs : Fat) : bootSector cs fs =
    if cs < 256 ^ 1 ∧ fs.totalSectors < 256 ^ 4 ∧ fs.fatSectors < 256 ^ 4 then
      .ok (bootBytes cs fs.totalSectors fs.fatSectors) else .error .struct := by
  rw [bootSector, pack, pack, pack]
  by_cases hall : cs < 256 ^ 1 ∧ fs.totalSectors < 256 ^ 4 ∧ fs.fatSectors < 256 ^ 4
  · rw [if_pos hall, if_pos hall.1, if_pos hall.2.1, if_pos hall.2.2]
    rfl
  · rw [if_neg hall]
    by_cases hcs : cs < 256 ^ 1
    · rw [if_pos hcs]
      by_cases htotal : fs.totalSectors < 256 ^ 4
      · rw [if_pos htotal, if_neg fun hfat => hall ⟨hcs, htotal, hfat⟩]
        rfl
      · rw [if_neg htotal]
        rfl
    · rw [if_neg hcs]
      rfl

theorem field_skip {as bs : List UInt8} {k : ℕ} (h : as.length = k) (off n : ℕ) :
    field (as ++ bs) (k + off) n = field bs off n := by
  rw [field, slice_append_right (by omega), h, Nat.add_sub_cancel_left, field]

theorem field_here (n v : ℕ) (bs : List UInt8) : field (leBytes n v ++ bs) 0 n = v % 256 ^ n :=
  field_middle [] n v bs rfl

/-- The fields a reader takes from the front of the boot sector. -/
theorem field_bootHead (cs total : ℕ) :
    field (bootHead cs total) 11 2 = SECTOR % 256 ^ 2 ∧
      field (bootHead cs total) 13 1 = cs % 256 ^ 1 ∧
      field (bootHead cs total) 14 2 = RESERVED % 256 ^ 2 ∧
      field (bootHead cs total) 16 1 = NFATS % 256 ^ 1 ∧
      field (bootHead cs total) 32 4 = total % 256 ^ 4 := by
  have hhead : bootHead cs total = ([0xeb, 0x58, 0x90] ++ ascii "VERONESP".toList) ++
      (leBytes 2 SECTOR ++ (leBytes 1 cs ++ (leBytes 2 RESERVED ++ (leBytes 1 NFATS ++
        ((leBytes 2 0 ++ leBytes 2 0 ++ leBytes 1 0xF8 ++ leBytes 2 0 ++ leBytes 2 63 ++
          leBytes 2 255 ++ leBytes 4 0) ++ (leBytes 4 total ++ [])))))) := by
    simp only [bootHead, List.append_assoc, List.append_nil]
  have hfront : ([0xeb, 0x58, 0x90] ++ ascii "VERONESP".toList).length = 11 := rfl
  have hmiddle : (leBytes 2 0 ++ leBytes 2 0 ++ leBytes 1 0xF8 ++ leBytes 2 0 ++ leBytes 2 63 ++
      leBytes 2 255 ++ leBytes 4 0).length = 15 := rfl
  rw [hhead]
  refine ⟨?_, ?_, ?_, ?_, ?_⟩
  · exact (field_skip hfront 0 2).trans (field_here _ _ _)
  · exact (field_skip hfront 2 1).trans
      ((field_skip (leBytes_length 2 _) 0 1).trans (field_here _ _ _))
  · exact (field_skip hfront 3 2).trans ((field_skip (leBytes_length 2 _) 1 2).trans
      ((field_skip (leBytes_length 1 _) 0 2).trans (field_here _ _ _)))
  · exact (field_skip hfront 5 1).trans ((field_skip (leBytes_length 2 _) 3 1).trans
      ((field_skip (leBytes_length 1 _) 2 1).trans ((field_skip (leBytes_length 2 _) 0 1).trans
        (field_here _ _ _))))
  · exact (field_skip hfront 21 4).trans ((field_skip (leBytes_length 2 _) 19 4).trans
      ((field_skip (leBytes_length 1 _) 18 4).trans ((field_skip (leBytes_length 2 _) 16 4).trans
        ((field_skip (leBytes_length 1 _) 15 4).trans ((field_skip hmiddle 0 4).trans
          (field_here _ _ _))))))

theorem field_bootFat32 (fatSectors : ℕ) :
    field (bootFat32 fatSectors) 0 4 = fatSectors % 256 ^ 4 ∧
      field (bootFat32 fatSectors) 8 4 = 2 := by
  have hbytes : bootFat32 fatSectors = leBytes 4 fatSectors ++ ((leBytes 2 0 ++ leBytes 2 0) ++
      (leBytes 4 2 ++ (leBytes 2 1 ++ leBytes 2 6))) := by
    simp only [bootFat32, List.append_assoc]
  have hflags : (leBytes 2 0 ++ leBytes 2 0).length = 4 := rfl
  rw [hbytes]
  exact ⟨field_here _ _ _, (field_skip (leBytes_length 4 _) 4 4).trans
    ((field_skip hflags 0 4).trans (field_here _ _ _))⟩

section BootBytes

variable {cs total fatSectors off n : ℕ}

theorem zeros_length : (List.replicate SECTOR (0 : UInt8)).length = 512 := List.length_replicate

theorem bootBytes_steps (cs total fatSectors : ℕ) : ∃ b₁ b₂ b₃ : List UInt8,
    (b₁ = overwrite (List.replicate SECTOR 0) 0 (bootHead cs total) ∧ b₁.length = 512) ∧
    (b₂ = overwrite b₁ 36 (bootFat32 fatSectors) ∧ b₂.length = 512) ∧
    (b₃ = overwrite b₂ 64 bootLabel ∧ b₃.length = 512) ∧
    bootBytes cs total fatSectors = overwrite b₃ 510 [0x55, 0xaa] := by
  have hzeros := zeros_length
  have hhead := bootHead_length cs total
  have hfat := bootFat32_length fatSectors
  have hlabel := bootLabel_length
  have h₁ : (overwrite (List.replicate SECTOR 0) 0 (bootHead cs total)).length = 512 :=
    overwrite_length_eq zeros_length (by omega)
  have h₂ : (overwrite (overwrite (List.replicate SECTOR 0) 0 (bootHead cs total)) 36
      (bootFat32 fatSectors)).length = 512 := overwrite_length_eq h₁ (by omega)
  have h₃ : (overwrite (overwrite (overwrite (List.replicate SECTOR 0) 0 (bootHead cs total)) 36
      (bootFat32 fatSectors)) 64 bootLabel).length = 512 := overwrite_length_eq h₂ (by omega)
  exact ⟨_, _, _, ⟨rfl, h₁⟩, ⟨rfl, h₂⟩, ⟨rfl, h₃⟩, rfl⟩

theorem bootBytes_length : (bootBytes cs total fatSectors).length = 512 := by
  obtain ⟨b₁, b₂, b₃, -, -, ⟨-, h₃⟩, heq⟩ :=
    bootBytes_steps cs total fatSectors
  rw [heq, overwrite_length (by rw [h₃]; decide), h₃]

theorem slice_bootHead (h : off + n ≤ 36) :
    slice (bootBytes cs total fatSectors) off n = slice (bootHead cs total) off n := by
  obtain ⟨b₁, b₂, b₃, ⟨hb₁, h₁⟩, ⟨hb₂, h₂⟩, ⟨hb₃, h₃⟩, heq⟩ :=
    bootBytes_steps cs total fatSectors
  have hzeros := zeros_length
  have hhead := bootHead_length cs total
  have hfat := bootFat32_length fatSectors
  have hlabel := bootLabel_length
  have hmark : ([0x55, 0xaa] : List UInt8).length = 2 := rfl
  rw [heq, slice_overwrite_apart (by omega) (.inl (by omega)), hb₃,
    slice_overwrite_apart (by omega) (.inl (by omega)), hb₂,
    slice_overwrite_apart (by omega) (.inl h), hb₁,
    slice_overwrite_within (by omega) (Nat.zero_le _) (by omega), Nat.sub_zero]

theorem slice_bootFat32 (hlow : 36 ≤ off) (h : off + n ≤ 52) :
    slice (bootBytes cs total fatSectors) off n = slice (bootFat32 fatSectors) (off - 36) n := by
  obtain ⟨b₁, b₂, b₃, ⟨hb₁, h₁⟩, ⟨hb₂, h₂⟩, ⟨hb₃, h₃⟩, heq⟩ :=
    bootBytes_steps cs total fatSectors
  have hfat := bootFat32_length fatSectors
  have hlabel := bootLabel_length
  have hmark : ([0x55, 0xaa] : List UInt8).length = 2 := rfl
  rw [heq, slice_overwrite_apart (by omega) (.inl (by omega)), hb₃,
    slice_overwrite_apart (by omega) (.inl (by omega)), hb₂,
    slice_overwrite_within (by omega) hlow (by omega)]

end BootBytes

theorem fsInfo_length {fs : Fat} {info : List UInt8} (h : fsInfo fs = .ok info) :
    info.length = 512 := by
  rw [fsInfo, pack, pack] at h
  by_cases hfree : fs.fat.length - fs.nextFree < 256 ^ 4
  · by_cases hnext : fs.nextFree < 256 ^ 4
    · rw [if_pos hfree, if_pos hnext] at h
      cases h
      refine overwrite_length_eq (overwrite_length_eq (overwrite_length_eq (overwrite_length_eq
        zeros_length ?_) ?_) ?_) ?_ <;>
        simp only [List.length_append, leBytes_length, List.length_cons, List.length_nil] <;>
        omega
    · rw [if_pos hfree, if_neg hnext] at h
      cases h
  · rw [if_neg hfree] at h
    cases h

theorem fsInfo_ok {fs : Fat} (hlen : fs.fat.length ≤ 2 ^ 32) (hnext : fs.nextFree < 2 ^ 32)
    (htwo : 2 ≤ fs.nextFree) : ∃ info, fsInfo fs = .ok info := by
  rw [fsInfo, pack, pack, if_pos (by omega), if_pos (by omega)]
  exact ⟨_, rfl⟩

theorem packFat_spec {fat : List ℕ} {blob : List UInt8} (h : packFat fat = .ok blob) :
    blob = (fat.map (leBytes 4)).flatten ∧ ∀ v ∈ fat, v < 256 ^ 4 := by
  induction fat generalizing blob with
  | nil =>
      rw [packFat, Except.ok.injEq] at h
      exact ⟨h.symm, fun v hv => absurd hv List.not_mem_nil⟩
  | cons v fat ih =>
      rw [packFat] at h
      obtain ⟨e, hv, h⟩ := bind_eq_ok.mp h
      obtain ⟨rest, hfat, h⟩ := bind_eq_ok.mp h
      cases h
      obtain ⟨hrest, hall⟩ := ih hfat
      rw [pack] at hv
      split at hv
      · cases hv
        refine ⟨?_, List.forall_mem_cons.mpr ⟨‹_›, hall⟩⟩
        rw [hrest, List.map_cons, List.flatten_cons]
      · cases hv

theorem packFat_ok {fat : List ℕ} (h : ∀ v ∈ fat, v < 256 ^ 4) :
    packFat fat = .ok (fat.map (leBytes 4)).flatten := by
  induction fat with
  | nil => rfl
  | cons v fat ih =>
      obtain ⟨hv, hfat⟩ := List.forall_mem_cons.mp h
      rw [packFat, pack, if_pos hv, ih hfat]
      rfl

/-- A copy of the FAT, filled up to whole sectors. -/
def fatBlob (fs : Fat) : List UInt8 :=
  (fs.fat.map (leBytes 4)).flatten ++
    List.replicate (fs.fatSectors * SECTOR - (fs.fat.map (leBytes 4)).flatten.length) 0

theorem fatBytes_length (fat : List ℕ) : (fat.map (leBytes 4)).flatten.length = 4 * fat.length := by
  have hfour : ∀ p ∈ fat.map (leBytes 4), p.length = 4 := by
    intro p hp
    obtain ⟨v, -, rfl⟩ := List.mem_map.mp hp
    exact leBytes_length 4 v
  rw [flatten_length hfour, List.length_map]

theorem fatBlob_length {cs size : ℕ} {fs : Fat} (h : Sized cs size fs) :
    (fatBlob fs).length = fs.fatSectors * SECTOR := by
  have hroom := h.fatRoom
  rw [fatBlob, List.length_append, List.length_replicate, fatBytes_length]
  omega

theorem field_fatBlob {fs : Fat} {c v : ℕ} (h : fs.fat[c]? = some v) (hv : v < 256 ^ 4) :
    field (fatBlob fs) (4 * c) 4 = v := by
  have hall : ∀ p ∈ fs.fat.map (leBytes 4), p.length = 4 := by
    intro p hp
    obtain ⟨w, -, rfl⟩ := List.mem_map.mp hp
    exact leBytes_length 4 w
  have hpiece : (fs.fat.map (leBytes 4))[c]? = some (leBytes 4 v) := by
    rw [List.getElem?_map, h, Option.map_some]
  obtain ⟨hlt, -⟩ := List.getElem?_eq_some_iff.mp h
  rw [field, fatBlob, slice_append_left (by rw [fatBytes_length]; omega),
    slice_flatten hall hpiece, leValue_leBytes, Nat.mod_eq_of_lt hv]

/-- The image before the clusters are written. -/
structure Base (cs size : ℕ) (fs : Fat) (base : List UInt8) : Prop where
  length : base.length = size
  boot : ∀ off n, off + n ≤ 512 →
    slice base off n = slice (bootBytes cs fs.totalSectors fs.fatSectors) off n
  fat : ∀ i < 2,
    slice base ((RESERVED + i * fs.fatSectors) * SECTOR) (fs.fatSectors * SECTOR) = fatBlob fs
  data : ∀ off n, fs.dataStart * SECTOR ≤ off → off + n ≤ size →
    slice base off n = List.replicate n 0

theorem base_spec {cs size : ℕ} {fs : Fat} {bs info : List UInt8} (h : Sized cs size fs)
    (hbs : bs = bootBytes cs fs.totalSectors fs.fatSectors) (hinfo : info.length = 512) :
    Base cs size fs (overwrite (overwrite (overwrite (overwrite (overwrite (overwrite
      (List.replicate size 0) 0 bs) SECTOR info) (6 * SECTOR) bs) (7 * SECTOR) info)
      ((RESERVED + 0 * fs.fatSectors) * SECTOR) (fatBlob fs))
      ((RESERVED + 1 * fs.fatSectors) * SECTOR) (fatBlob fs)) := by
  have hblen : bs.length = 512 := hbs ▸ bootBytes_length
  have hflen : (fatBlob fs).length = fs.fatSectors * 512 := fatBlob_length h
  have hzero : (List.replicate size (0 : UInt8)).length = size := List.length_replicate
  have hstart : fs.dataStart * 512 = 16384 + 2 * (fs.fatSectors * 512) := by
    rw [h.dataStart, RESERVED, NFATS, Nat.add_mul, Nat.mul_assoc]
  have hroom : 16384 + 2 * (fs.fatSectors * 512) ≤ size := by
    rw [h.size_eq, ← hstart]
    exact Nat.mul_le_mul_right 512 h.le_total
  have hzeroth : (32 + 0 * fs.fatSectors) * 512 = 16384 := by rw [Nat.zero_mul]
  have hfirst : (32 + 1 * fs.fatSectors) * 512 = 16384 + fs.fatSectors * 512 := by
    rw [Nat.one_mul, Nat.add_mul]
  simp only [SECTOR, RESERVED, Nat.reduceMul]
  rw [hzeroth, hfirst]
  generalize h₁ : overwrite (List.replicate size (0 : UInt8)) 0 bs = b₁
  have hl₁ : b₁.length = size := h₁ ▸ overwrite_length_eq hzero (by omega)
  generalize h₂ : overwrite b₁ 512 info = b₂
  have hl₂ : b₂.length = size := h₂ ▸ overwrite_length_eq hl₁ (by omega)
  generalize h₃ : overwrite b₂ 3072 bs = b₃
  have hl₃ : b₃.length = size := h₃ ▸ overwrite_length_eq hl₂ (by omega)
  generalize h₄ : overwrite b₃ 3584 info = b₄
  have hl₄ : b₄.length = size := h₄ ▸ overwrite_length_eq hl₃ (by omega)
  generalize h₅ : overwrite b₄ 16384 (fatBlob fs) = b₅
  have hl₅ : b₅.length = size := h₅ ▸ overwrite_length_eq hl₄ (by omega)
  constructor
  · exact overwrite_length_eq hl₅ (by omega)
  · intro off n hoff
    rw [slice_overwrite_apart (by omega) (.inl (by omega)), ← h₅,
      slice_overwrite_apart (by omega) (.inl (by omega)), ← h₄,
      slice_overwrite_apart (by omega) (.inl (by omega)), ← h₃,
      slice_overwrite_apart (by omega) (.inl (by omega)), ← h₂,
      slice_overwrite_apart (by omega) (.inl (by omega)), ← h₁,
      slice_overwrite_within (by omega) (Nat.zero_le _) (by omega), Nat.sub_zero, hbs]
  · intro i hi
    simp only [SECTOR, RESERVED]
    rw [← hflen]
    obtain rfl | rfl : i = 0 ∨ i = 1 := by omega
    · rw [hflen, hzeroth, slice_overwrite_apart (by omega) (.inl (by omega)), ← h₅, ← hflen]
      exact slice_overwrite_self (by omega)
    · rw [hflen, hfirst, ← hflen]
      exact slice_overwrite_self (by omega)
  · intro off n hoff hn
    have hoff : 16384 + 2 * (fs.fatSectors * 512) ≤ off := hstart ▸ hoff
    rw [slice_overwrite_apart (by omega) (.inr (by omega)), ← h₅,
      slice_overwrite_apart (by omega) (.inr (by omega)), ← h₄,
      slice_overwrite_apart (by omega) (.inr (by omega)), ← h₃,
      slice_overwrite_apart (by omega) (.inr (by omega)), ← h₂,
      slice_overwrite_apart (by omega) (.inr (by omega)), ← h₁,
      slice_overwrite_apart (by omega) (.inr (by omega)), slice_replicate hn]

section Written

variable {cs size : ℕ} {fs : Fat} {img base : List UInt8}

/-- The clusters stand in the image side by side. -/
theorem blocksFit (hsized : Sized cs size fs) (hgood : Good cs fs) :
    BlocksFit (clusterOffset cs fs) (cs * SECTOR) size fs.clusters where
  fits e he := by
    have hkey := hgood.keys e.1 (List.mem_map_of_mem he)
    have hroom := hgood.room
    exact ⟨hgood.sizes e.1 e.2 (lookup_of_mem hgood.nodup he),
      hsized.cluster_le (by omega) hkey.1⟩
  apart := by
    have hpairs := List.pairwise_map.mp hgood.nodup
    refine hpairs.imp_of_mem ?_
    intro d e hd he hne
    have hdkey := (hgood.keys d.1 (List.mem_map_of_mem hd)).1
    have hekey := (hgood.keys e.1 (List.mem_map_of_mem he)).1
    have hside : ∀ {i j : ℕ}, 2 ≤ i → i < j →
        clusterOffset cs fs i + cs * SECTOR ≤ clusterOffset cs fs j := by
      intro i j hi hij
      have hmul : (i - 2 + 1) * cs ≤ (j - 2) * cs := Nat.mul_le_mul_right cs (by omega)
      rw [Nat.succ_mul] at hmul
      rw [clusterOffset, clusterOffset, ← Nat.add_mul]
      exact Nat.mul_le_mul_right SECTOR (by omega)
    rcases Nat.lt_or_gt_of_ne hne with hlt | hlt
    · exact .inl (hside hdkey hlt)
    · exact .inr (hside hekey hlt)

theorem writeImage_spec (h : writeImage cs size fs = .ok img) (hsized : Sized cs size fs) :
    (cs < 256 ^ 1 ∧ fs.totalSectors < 256 ^ 4 ∧ fs.fatSectors < 256 ^ 4) ∧
      (∀ v ∈ fs.fat, v < 256 ^ 4) ∧ ∃ base, Base cs size fs base ∧
        img = writeBlocks (clusterOffset cs fs) base fs.clusters := by
  obtain ⟨bs, hbs, h⟩ := bind_eq_ok.mp h
  obtain ⟨info, hinfo, h⟩ := bind_eq_ok.mp h
  obtain ⟨blob, hfat, h⟩ := bind_eq_ok.mp h
  obtain ⟨rfl, hlinks⟩ := packFat_spec hfat
  rw [bootSector_eq] at hbs
  by_cases hnumbers : cs < 256 ^ 1 ∧ fs.totalSectors < 256 ^ 4 ∧ fs.fatSectors < 256 ^ 4
  · rw [if_pos hnumbers] at hbs
    cases hbs
    cases h
    exact ⟨hnumbers, hlinks, _, base_spec hsized rfl (fsInfo_length hinfo), rfl⟩
  · rw [if_neg hnumbers] at hbs
    cases hbs

/-- What comes before the clusters is as it was. -/
theorem slice_written (hsized : Sized cs size fs) (hgood : Good cs fs)
    (hbase : Base cs size fs base) {off n : ℕ} (h : off + n ≤ fs.dataStart * SECTOR) :
    slice (writeBlocks (clusterOffset cs fs) base fs.clusters) off n = slice base off n := by
  apply slice_writeBlocks_apart (hbase.length ▸ blocksFit hsized hgood)
  intro e he
  have hle : fs.dataStart * SECTOR ≤ clusterOffset cs fs e.1 :=
    Nat.mul_le_mul_right SECTOR (Nat.le_add_right _ _)
  exact .inl (by omega)

/-- The geometry of the image. -/
def madeGeometry (cs : ℕ) (fs : Fat) : Geometry :=
  ⟨SECTOR, cs, RESERVED, NFATS, fs.totalSectors, fs.fatSectors, 2⟩

theorem dataStart_large (hsized : Sized cs size fs) : 512 ≤ fs.dataStart * SECTOR := by
  rw [hsized.dataStart, SECTOR, RESERVED]
  omega

theorem geometry_written (hsized : Sized cs size fs) (hgood : Good cs fs)
    (hbase : Base cs size fs base) (hcs : cs < 256 ^ 1) (htotal : fs.totalSectors < 256 ^ 4)
    (hfat : fs.fatSectors < 256 ^ 4) :
    geometry (writeBlocks (clusterOffset cs fs) base fs.clusters) = madeGeometry cs fs := by
  have hlarge := dataStart_large hsized
  have hfront : ∀ off n, off + n ≤ 512 →
      field (writeBlocks (clusterOffset cs fs) base fs.clusters) off n =
        field (bootBytes cs fs.totalSectors fs.fatSectors) off n := by
    intro off n hoff
    rw [field, field, slice_written hsized hgood hbase (by omega), hbase.boot off n hoff]
  have hhead : ∀ off n, off + n ≤ 36 →
      field (writeBlocks (clusterOffset cs fs) base fs.clusters) off n =
        field (bootHead cs fs.totalSectors) off n := by
    intro off n hoff
    rw [hfront off n (by omega), field, slice_bootHead hoff, field]
  have hfat32 : ∀ off n, 36 ≤ off → off + n ≤ 52 →
      field (writeBlocks (clusterOffset cs fs) base fs.clusters) off n =
        field (bootFat32 fs.fatSectors) (off - 36) n := by
    intro off n hlow hoff
    rw [hfront off n (by omega), field, slice_bootFat32 hlow hoff, field]
  obtain ⟨hsector, hspc, hreserved, hnfats, htot⟩ := field_bootHead cs fs.totalSectors
  obtain ⟨hsectors, hroot⟩ := field_bootFat32 fs.fatSectors
  rw [geometry, hhead 11 2 (by decide), hhead 13 1 (by decide), hhead 14 2 (by decide),
    hhead 16 1 (by decide), hhead 32 4 (by decide), hfat32 36 4 (by decide) (by decide),
    hfat32 44 4 (by decide) (by decide), hsector, hspc, hreserved, hnfats, htot, hsectors, hroot,
    Nat.mod_eq_of_lt hcs, Nat.mod_eq_of_lt htotal, Nat.mod_eq_of_lt hfat]
  rfl

/-- The image shows the FAT and the clusters as they were. -/
theorem shows_written (hsized : Sized cs size fs) (hgood : Good cs fs)
    (hbase : Base cs size fs base) (hlinks : ∀ v ∈ fs.fat, v < 256 ^ 4) :
    Shows cs (writeBlocks (clusterOffset cs fs) base fs.clusters) (madeGeometry cs fs) fs where
  clusterSize := rfl
  count := by
    have hstart : (madeGeometry cs fs).dataStart = fs.dataStart := hsized.dataStart.symm
    rw [Geometry.clusterCount, hstart, hsized.length, hsized.nclusters]
    rfl
  entry c v hv := by
    obtain ⟨hlt, -⟩ := List.getElem?_eq_some_iff.mp hv
    have hroom := hsized.fatRoom
    have hfat := hbase.fat 0 (by decide)
    have hstart : fs.dataStart * SECTOR =
        RESERVED * SECTOR + fs.fatSectors * SECTOR + fs.fatSectors * SECTOR := by
      rw [hsized.dataStart, NFATS]
      ring
    rw [Nat.zero_mul, Nat.add_zero] at hfat
    have hsmall : v < 256 ^ 4 := hlinks v (List.mem_of_getElem? hv)
    have hvalue := field_fatBlob hv hsmall
    rw [entry]
    congr 1
    change field _ (RESERVED * SECTOR + 4 * c) 4 = v
    rw [field, slice_written hsized hgood hbase (by omega),
      ← slice_slice (n := fs.fatSectors * SECTOR)
      (by omega), hfat, ← field, hvalue]
  cluster c data hc := by
    have hplace : (madeGeometry cs fs).dataStart * SECTOR + (c - 2) * (cs * SECTOR) =
        clusterOffset cs fs c := by
      have hstart : (madeGeometry cs fs).dataStart = fs.dataStart := hsized.dataStart.symm
      rw [hstart, clusterOffset]
      ring
    have hmem := mem_of_lookup hc
    have hfits := blocksFit hsized hgood
    obtain ⟨hlen, hend⟩ : data.length ≤ cs * SECTOR ∧ clusterOffset cs fs c + cs * SECTOR ≤ size :=
      hfits.fits _ hmem
    have hlow : fs.dataStart * SECTOR ≤ clusterOffset cs fs c :=
      Nat.mul_le_mul_right SECTOR (Nat.le_add_right _ _)
    change slice _ ((madeGeometry cs fs).dataStart * SECTOR + (c - 2) * (cs * SECTOR))
      (cs * SECTOR) = _
    rw [hplace, slice_writeBlocks (hbase.length ▸ hfits) hc, hbase.data _ _ (by omega) (by omega)]

/-- Both copies of the FAT are the same. -/
theorem fatCopy_written (hsized : Sized cs size fs) (hgood : Good cs fs)
    (hbase : Base cs size fs base) {i : ℕ} (hi : i < 2) :
    fatCopy (writeBlocks (clusterOffset cs fs) base fs.clusters) (madeGeometry cs fs) i =
      fatBlob fs := by
  have hend : (RESERVED + i * fs.fatSectors) * SECTOR + fs.fatSectors * SECTOR ≤
      fs.dataStart * SECTOR := by
    have hmul : i * fs.fatSectors + fs.fatSectors ≤ 2 * fs.fatSectors := by
      rw [← Nat.succ_mul]
      exact Nat.mul_le_mul_right _ hi
    rw [hsized.dataStart, NFATS, ← Nat.add_mul]
    exact Nat.mul_le_mul_right SECTOR (by omega)
  exact (slice_written hsized hgood hbase hend).trans (hbase.fat i hi)

end Written

end Veron.MkFat
