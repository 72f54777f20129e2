/-
A tree that lies in an image is read back from it, as long as the clusters it
lies in have numbers FAT32 can name.
-/
import Veron.MkFatLayout

namespace Veron.MkFat

open FileTree Fat32

/-- The image shows the FAT and the clusters. -/
structure Shows (cs : ℕ) (img : List UInt8) (g : Geometry) (fs : Fat) : Prop where
  clusterSize : g.clusterSize = cs * SECTOR
  count : g.clusterCount + 2 = fs.fat.length
  entry : ∀ c v, fs.fat[c]? = some v → entry img g c = v % 2 ^ 28
  cluster : ∀ c data, fs.clusters.lookup c = some data →
    clusterBytes img g c = data ++ List.replicate (cs * SECTOR - data.length) 0

section Chains

variable {cs : ℕ} {img : List UInt8} {g : Geometry} {fs : Fat} {first : ℕ} {data : List UInt8}

/-- A chain is followed from any of its clusters to its end. -/
theorem chain_from (hshows : Shows cs img g fs) (hholds : Holds cs fs first data)
    (htwo : 2 ≤ first) (hbad : first + clustersFor cs data.length ≤ badCluster)
    (hroom : first + clustersFor cs data.length ≤ fs.fat.length) {rounds i n : ℕ}
    (hn : i + n = clustersFor cs data.length) (hpos : 1 ≤ n) (hrounds : n ≤ rounds) :
    chain img g rounds (first + i) = some (List.range' (first + i) n) := by
  induction n generalizing i rounds with
  | zero => omega
  | succ n ih =>
      obtain ⟨rounds, rfl⟩ : ∃ r, rounds = r + 1 := Nat.exists_eq_add_of_le' (by omega)
      have hcluster : IsCluster g (first + i) := by
        have hcount := hshows.count
        exact ⟨by omega, by omega, by omega⟩
      have hentry := hshows.entry _ _ (hholds i (by omega)).1
      rw [chain, if_pos hcluster, hentry, link]
      by_cases hlast : i + 1 < clustersFor cs data.length
      · rw [badCluster] at hbad
        have hsmall : (first + i + 1) % 2 ^ 28 = first + (i + 1) := by omega
        have hmore : ¬endOfChain ≤ first + (i + 1) := by
          rw [endOfChain]
          omega
        rw [if_pos hlast, hsmall, if_neg hmore, ih (by omega) (by omega) (by omega),
          Option.map_some, List.range'_succ, Nat.add_assoc first i 1]
      · have hend : endOfChain ≤ 0x0FFFFFFF % 2 ^ 28 := by decide
        obtain rfl : n = 0 := by omega
        rw [if_neg hlast, if_pos hend]
        rfl

theorem chain_holds (hshows : Shows cs img g fs) (hholds : Holds cs fs first data)
    (htwo : 2 ≤ first) (hbad : first + clustersFor cs data.length ≤ badCluster)
    (hroom : first + clustersFor cs data.length ≤ fs.fat.length) :
    chain img g g.clusterCount first =
      some (List.range' first (clustersFor cs data.length)) := by
  have hcount := hshows.count
  exact chain_from hshows hholds htwo hbad hroom (i := 0) (Nat.zero_add _)
    (clustersFor_pos cs data.length) (by omega)

/-- A chain that goes on to numbers no cluster has is not read. -/
theorem chain_bad (hshows : Shows cs img g fs) (hholds : Holds cs fs first data)
    (hbad : badCluster < first + clustersFor cs data.length) (rounds : ℕ) {i : ℕ}
    (hi : i < clustersFor cs data.length) : chain img g rounds (first + i) = none := by
  induction rounds generalizing i with
  | zero => rw [chain]
  | succ rounds ih =>
      rw [chain]
      by_cases hcluster : IsCluster g (first + i)
      · have hlt : first + i < badCluster := hcluster.2.2
        rw [badCluster] at hlt hbad
        have hlast : i + 1 < clustersFor cs data.length := by omega
        have hsmall : (first + i + 1) % 2 ^ 28 = first + (i + 1) := by omega
        have hmore : ¬endOfChain ≤ first + (i + 1) := by
          rw [endOfChain]
          omega
        rw [if_pos hcluster, hshows.entry _ _ (hholds i hi).1, link, if_pos hlast, hsmall,
          if_neg hmore, ih hlast]
        rfl
      · rw [if_neg hcluster]

/-- The clusters of a chain give the data, filled up with zeros. -/
theorem chainBytes_holds (hcs : 0 < cs) (hshows : Shows cs img g fs)
    (hholds : Holds cs fs first data) :
    chainBytes img g (List.range' first (clustersFor cs data.length)) =
      data ++ List.replicate (clustersFor cs data.length * (cs * SECTOR) - data.length) 0 := by
  have hle := le_clustersFor_mul hcs data.length
  generalize hk : clustersFor cs data.length = k at hle ⊢
  generalize hpad : data ++ List.replicate (k * (cs * SECTOR) - data.length) 0 = padded
  have hlen : padded.length = cs * SECTOR * k := by
    rw [← hpad, List.length_append, List.length_replicate, Nat.mul_comm (cs * SECTOR) k]
    omega
  have hpiece : ∀ i < k, clusterBytes img g (first + i) =
      slice padded (cs * SECTOR * i) (cs * SECTOR) := by
    intro i hi
    have hdata := (hholds i (hk ▸ hi)).2
    have hend : i * (cs * SECTOR) + cs * SECTOR ≤ k * (cs * SECTOR) := by
      rw [← Nat.succ_mul]
      exact Nat.mul_le_mul_right _ hi
    rw [hshows.cluster _ _ hdata, ← hpad, Nat.mul_comm (cs * SECTOR) i]
    exact (slice_append_replicate (by omega)).symm
  have hwhole := flatten_slices padded (cs * SECTOR) k
  rw [← hlen, List.take_length] at hwhole
  rw [← hwhole, chainBytes, List.flatMap_def, List.range'_eq_map_range, List.map_map]
  congr 1
  apply List.map_congr_left
  intro i hi
  exact hpiece i (List.mem_range.mp hi)

end Chains

theorem slots_padded {ss : List (List UInt8)} (h : ∀ s ∈ ss, s.length = 32) (j : ℕ) :
    slots (ss.flatten ++ List.replicate (32 * j) 0) =
      ss ++ List.replicate j (List.replicate 32 0) := by
  have hall : ∀ s ∈ ss ++ List.replicate j (List.replicate 32 0), s.length = 32 := by
    intro s hs
    rcases List.mem_append.mp hs with hs | hs
    · exact h s hs
    · rw [(List.mem_replicate.mp hs).2, List.length_replicate]
  have hflat : ss.flatten ++ List.replicate (32 * j) 0 =
      (ss ++ List.replicate j (List.replicate 32 (0 : UInt8))).flatten := by
    rw [List.flatten_append, List.flatten_replicate_replicate, Nat.mul_comm]
  have hcount : (ss ++ List.replicate j (List.replicate 32 (0 : UInt8))).flatten.length / 32 =
      (ss ++ List.replicate j (List.replicate 32 (0 : UInt8))).length := by
    rw [flatten_length hall]
    omega
  rw [hflat, slots, hcount, slices_flatten hall]

theorem items_zeros (j : ℕ) (run : List LongSlot) :
    items (List.replicate j (List.replicate 32 0)) run = [] := by
  cases j with
  | zero => rfl
  | succ j =>
      rw [List.replicate_succ, items, if_pos]
      rfl

/-- The entry of `.` or `..` is passed over. -/
theorem items_dot {short : List UInt8} (h : short = dotName ∨ short = dotdotName) (c : ℕ)
    (rest : List (List UInt8)) (run : List LongSlot) :
    items (shortSlot short 0x10 c 0 :: rest) run = items rest [] := by
  have hlen : short.length = 11 := by rcases h with rfl | rfl <;> decide
  have hfirst : short.getD 0 0 ≠ 0 ∧ short.getD 0 0 ≠ 0xe5 := by
    rcases h with rfl | rfl <;> decide
  have hlong : ¬(0x10 : UInt8) = 0x0f := by decide
  have hlabel : ¬(0x10 : UInt8) &&& 0x08 ≠ 0 := by decide
  rw [items, shortSlot_first hlen, shortSlot_attr hlen, shortSlot_take hlen, if_neg hfirst.1,
    if_neg hfirst.2, if_neg hlong, if_neg hlabel, if_pos h]

section Entries

variable {placed : List (String × Placed)}

theorem items_entries (hnames : ∀ e ∈ placed, NameOk e.1) (hfits : ∀ e ∈ placed, e.2.Fits)
    (j : ℕ) : items (slots ((placedSlots placed).flatten ++ List.replicate (32 * j) 0)) [] =
      placed.map fun e => e.2.item e.1 := by
  rw [slots_padded (placedSlots_size hnames), items_placedSlots hnames hfits, items_zeros,
    List.append_nil]

theorem items_dirBytes (hnames : ∀ e ∈ placed, NameOk e.1) (hfits : ∀ e ∈ placed, e.2.Fits)
    (first j : ℕ) :
    items (slots (dirBytes first (placedSlots placed).flatten ++ List.replicate (32 * j) 0)) [] =
      placed.map fun e => e.2.item e.1 := by
  have hbytes : dirBytes first (placedSlots placed).flatten =
      (shortSlot dotName 0x10 first 0 :: shortSlot dotdotName 0x10 0 0 ::
        placedSlots placed).flatten := by
    rw [dirBytes, List.flatten_cons, List.flatten_cons]
  have hsize : ∀ s ∈ shortSlot dotName 0x10 first 0 :: shortSlot dotdotName 0x10 0 0 ::
      placedSlots placed, s.length = 32 := by
    intro s hs
    rcases List.mem_cons.mp hs with rfl | hs
    · exact shortSlot_length dotName_length
    · rcases List.mem_cons.mp hs with rfl | hs
      · exact shortSlot_length dotdotName_length
      · exact placedSlots_size hnames s hs
  rw [hbytes, slots_padded hsize, List.cons_append, List.cons_append, items_dot (.inl rfl),
    items_dot (.inr rfl), items_placedSlots hnames hfits, items_zeros, List.append_nil]

end Entries

section Tree

variable {cs : ℕ} {img : List UInt8} {g : Geometry} {fs : Fat}

theorem readFile_holds (hcs : 0 < cs) (hshows : Shows cs img g fs) {first : ℕ} {data : List UInt8}
    (hholds : Holds cs fs first data) (htwo : 2 ≤ first)
    (hbad : first + clustersFor cs data.length ≤ badCluster)
    (hroom : first + clustersFor cs data.length ≤ fs.fat.length) :
    readFile img g first data.length =
      some (data, List.range' first (clustersFor cs data.length)) := by
  have hlen : data.length ≤ (data ++ List.replicate
      (clustersFor cs data.length * (cs * SECTOR) - data.length) (0 : UInt8)).length := by
    rw [List.length_append]
    exact Nat.le_add_right _ _
  rw [readFile, if_neg (by omega), chain_holds hshows hholds htwo hbad hroom]
  change (if _ then _ else _) = _
  rw [chainBytes_holds hcs hshows hholds, if_pos hlen, List.take_left' rfl]

/-- The zeros after the entries of a directory are whole slots. -/
theorem padding_slots {k n : ℕ} (h : 64 + 32 * n ≤ k * (cs * SECTOR)) :
    k * (cs * SECTOR) - (64 + 32 * n) = 32 * (k * cs * 16 - 2 - n) := by
  have hmul : k * (cs * SECTOR) = 32 * (k * cs * 16) := by
    rw [SECTOR]
    ring
  omega

mutual

/-- A node that lies in the image is read back, from its own clusters. -/
theorem readItem_laid (hcs : 0 < cs) (hshows : Shows cs img g fs) : ∀ {node : FileNode}
    {t : Placed} {a b depth : ℕ} (name : String), LaidNode cs fs node t a b →
    NodeDirs NamesOk node → 2 ≤ a → b ≤ badCluster → b ≤ fs.fat.length →
    nodeDepth node ≤ depth →
      ∃ used, readItem img g (readDir img g depth) (t.item name) = some (node, used) ∧
        (∀ c ∈ used, a ≤ c ∧ c < b) ∧ used.Nodup
  | .file data, t, a, b, depth, name, h, hnames, htwo, hbad, hroom, hdepth => by
      cases h with
      | empty => exact ⟨[], rfl, fun c hc => absurd hc List.not_mem_nil, List.nodup_nil⟩
      | file hne hholds =>
          refine ⟨List.range' a (clustersFor cs data.length), ?_, ?_, List.nodup_range'⟩
          · change (readFile img g a data.length).map _ = _
            rw [readFile_holds hcs hshows hholds htwo hbad hroom]
            rfl
          · intro c hc
            rw [List.mem_range'_1] at hc
            omega
  | .dir tree, t, a, b, depth, name, h, hnames, htwo, hbad, hroom, hdepth => by
      cases h with
      | @dir _ placed entries _ m htree hentries hholds =>
          rw [NodeDirs] at hnames
          rw [nodeDepth] at hdepth
          obtain ⟨depth, rfl⟩ : ∃ d, depth = d + 1 := by
            have hpos := depth_pos tree
            exact Nat.exists_eq_add_of_le' (by omega)
          have hle := htree.le
          have hplaced : ∀ e ∈ placed, NameOk e.1 := htree.forall_names hnames.1
          obtain ⟨hbytes, hfits⟩ := placedEntries_spec hplaced hentries
          obtain ⟨used, hread, hbounds, hnodup⟩ := readItems_laid hcs hshows htree hnames.2 htwo
            (by omega) (by omega) hdepth
          have hlen : (dirBytes m entries).length = 64 + entries.length := dirBytes_length m entries
          have hslots : entries.length = 32 * (placedSlots placed).length := by
            rw [hbytes, flatten_length (placedSlots_size hplaced)]
          have hchain := chain_holds hshows hholds (by omega) (by rw [hlen]; exact hbad)
            (by rw [hlen]; exact hroom)
          have hdata := chainBytes_holds hcs hshows hholds
          rw [hlen] at hchain hdata
          have hwhole := le_clustersFor_mul hcs (64 + entries.length)
          have hitems : items (slots (chainBytes img g
              (List.range' m (clustersFor cs (64 + entries.length))))) [] =
                placed.map fun e => e.2.item e.1 := by
            rw [hdata, hslots, padding_slots (hslots ▸ hwhole), hbytes]
            exact items_dirBytes hplaced hfits m _
          refine ⟨List.range' m (clustersFor cs (64 + entries.length)) ++ used, ?_, ?_, ?_⟩
          · change (readDir img g (depth + 1) m).map _ = _
            rw [readDir, hchain]
            change Option.map _ (readItems img g (readDir img g depth) (items _ []) >>= _) = _
            rw [hitems, hread]
            rfl
          · intro c hc
            rcases List.mem_append.mp hc with hc | hc
            · rw [List.mem_range'_1] at hc
              omega
            · have hc := hbounds c hc
              omega
          · refine List.nodup_append'.mpr ⟨List.nodup_range', hnodup, ?_⟩
            intro c hc hc'
            rw [List.mem_range'_1] at hc
            have hc' := hbounds c hc'
            omega

theorem readItems_laid (hcs : 0 < cs) (hshows : Shows cs img g fs) : ∀ {t : FileTree}
    {placed : List (String × Placed)} {a b d : ℕ}, LaidTree cs fs t placed a b →
    InnerDirs NamesOk t → 2 ≤ a → b ≤ badCluster → b ≤ fs.fat.length → depth t ≤ d + 1 →
      ∃ used, readItems img g (readDir img g d) (placed.map fun e => e.2.item e.1) =
          some (t, used) ∧ (∀ c ∈ used, a ≤ c ∧ c < b) ∧ used.Nodup
  | [], _, _, _, _, h, _, _, _, _, _ => by
      cases h
      exact ⟨[], rfl, fun c hc => absurd hc List.not_mem_nil, List.nodup_nil⟩
  | (name, node) :: rest, _, a, b, d, h, hnames, htwo, hbad, hroom, hdepth => by
      cases h with
      | @cons _ _ _ t placed _ m _ hnode hrest =>
          rw [InnerDirs] at hnames
          rw [depth] at hdepth
          have hle := hnode.le
          have hle' := hrest.le
          obtain ⟨used, hread, hbounds, hnodup⟩ := readItem_laid hcs hshows name hnode hnames.1
            htwo (by omega) (by omega) (show nodeDepth node ≤ d by omega)
          obtain ⟨more, hmore, hbounds', hnodup'⟩ := readItems_laid hcs hshows hrest hnames.2
            (by omega) hbad hroom (show depth rest ≤ d + 1 by omega)
          refine ⟨used ++ more, ?_, ?_, ?_⟩
          · rw [List.map_cons, readItems, hread, hmore]
            rfl
          · intro c hc
            rcases List.mem_append.mp hc with hc | hc
            · have hc := hbounds c hc
              omega
            · have hc := hbounds' c hc
              omega
          · refine List.nodup_append'.mpr ⟨hnodup, hnodup', ?_⟩
            intro c hc hc'
            have hc := hbounds c hc
            have hc' := hbounds' c hc'
            omega

end

/-- A node whose last cluster has no number in FAT32 is not read. -/
theorem readItem_bad (hshows : Shows cs img g fs) {node : FileNode} {t : Placed} {a b : ℕ}
    (h : LaidNode cs fs node t a b) (ha : a ≤ badCluster) (hb : badCluster < b) (name : String)
    (depth : ℕ) (htwo : 2 ≤ a) :
    readItem img g (readDir img g depth) (t.item name) = none := by
  cases h with
  | empty => omega
  | @file data _ hne hholds =>
      have hchain := chain_bad hshows hholds hb g.clusterCount (clustersFor_pos cs data.length)
      rw [Nat.add_zero] at hchain
      change (readFile img g a data.length).map _ = none
      rw [readFile, if_neg (by omega), hchain]
      rfl
  | @dir tree placed entries _ m htree hentries hholds =>
      have hlen := dirBytes_length m entries
      have hchain := chain_bad hshows hholds (by rw [hlen]; exact hb) g.clusterCount
        (clustersFor_pos cs _)
      rw [Nat.add_zero] at hchain
      change (readDir img g depth m).map _ = none
      cases depth with
      | zero => rfl
      | succ depth =>
          rw [readDir, hchain]
          rfl

theorem readItems_bad (hshows : Shows cs img g fs) {t : FileTree}
    {placed : List (String × Placed)} {a b : ℕ} (h : LaidTree cs fs t placed a b)
    (ha : a ≤ badCluster) (hb : badCluster < b) (htwo : 2 ≤ a) (depth : ℕ) :
    readItems img g (readDir img g depth) (placed.map fun e => e.2.item e.1) = none := by
  induction t generalizing placed a with
  | nil =>
      cases h
      omega
  | cons e rest ih =>
      cases h with
      | @cons name node _ t placed _ m _ hnode hrest =>
          rw [List.map_cons, readItems]
          by_cases hm : badCluster < m
          · rw [readItem_bad hshows hnode ha hm name depth htwo]
            rfl
          · have hle := hnode.le
            rw [ih hrest (by omega) (by omega)]
            cases readItem img g (readDir img g depth) (t.item name) <;> rfl

end Tree

end Veron.MkFat
