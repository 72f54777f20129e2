/-
Where a tree comes to lie: consecutive ranges of clusters, those of a directory's
entries before its own.
-/
import Veron.MkFatAlloc

namespace Veron.MkFat

open FileTree Fat32

namespace Placed

def cluster : Placed → ℕ
  | .dir c => c
  | .file c _ => c

def size : Placed → ℕ
  | .dir _ => 0
  | .file _ n => n

def isDir : Placed → Bool
  | .dir _ => true
  | .file _ _ => false

/-- Its numbers fit the fields of an entry. -/
def Fits (t : Placed) : Prop := t.cluster < 2 ^ 32 ∧ t.size < 2 ^ 32

/-- What a reader finds of an entry. -/
def item (name : String) (t : Placed) : Item := ⟨name, t.isDir, t.cluster, t.size⟩

end Placed

theorem placedEntry_eq {name : String} (h : NameOk name) (t : Placed) :
    placedEntry name t = if t.cluster < 2 ^ 32 ∧ t.size < 2 ^ 32 then
      .ok (entrySlots name t.cluster t.size t.isDir).flatten else .error .struct := by
  cases t with
  | dir c => exact direntry_eq h c 0 true
  | file c n => exact direntry_eq h c n false

/-- The slots of a directory's entries. -/
def placedSlots (placed : List (String × Placed)) : List (List UInt8) :=
  placed.flatMap fun e => entrySlots e.1 e.2.cluster e.2.size e.2.isDir

theorem placedSlots_cons (name : String) (t : Placed) (placed : List (String × Placed)) :
    placedSlots ((name, t) :: placed) =
      entrySlots name t.cluster t.size t.isDir ++ placedSlots placed := List.flatMap_cons

theorem placedEntries_spec {placed : List (String × Placed)} {entries : List UInt8}
    (hnames : ∀ e ∈ placed, NameOk e.1) (h : placedEntries placed = .ok entries) :
    entries = (placedSlots placed).flatten ∧ ∀ e ∈ placed, e.2.Fits := by
  induction placed generalizing entries with
  | nil =>
      rw [placedEntries, Except.ok.injEq] at h
      exact ⟨h.symm, fun e he => absurd he List.not_mem_nil⟩
  | cons e placed ih =>
      obtain ⟨name, t⟩ := e
      obtain ⟨hname, hrest⟩ := List.forall_mem_cons.mp hnames
      rw [placedEntries] at h
      obtain ⟨bytes, hentry, h⟩ := bind_eq_ok.mp h
      obtain ⟨more, hplaced, h⟩ := bind_eq_ok.mp h
      cases h
      obtain ⟨hmore, hall⟩ := ih hrest hplaced
      rw [placedEntry_eq hname] at hentry
      by_cases hfits : t.cluster < 2 ^ 32 ∧ t.size < 2 ^ 32
      · rw [if_pos hfits, Except.ok.injEq] at hentry
        refine ⟨?_, List.forall_mem_cons.mpr ⟨hfits, hall⟩⟩
        rw [hmore, placedSlots_cons, List.flatten_append, hentry]
      · rw [if_neg hfits] at hentry
        cases hentry

theorem placedEntries_ok {placed : List (String × Placed)} (hnames : ∀ e ∈ placed, NameOk e.1)
    (hfits : ∀ e ∈ placed, e.2.Fits) :
    placedEntries placed = .ok (placedSlots placed).flatten := by
  induction placed with
  | nil => rfl
  | cons e placed ih =>
      obtain ⟨name, t⟩ := e
      obtain ⟨hname, hrest⟩ := List.forall_mem_cons.mp hnames
      obtain ⟨hfit, hall⟩ := List.forall_mem_cons.mp hfits
      have hnumbers : t.cluster < 2 ^ 32 ∧ t.size < 2 ^ 32 := hfit
      rw [placedEntries, placedEntry_eq hname, if_pos hnumbers, ih hrest hall,
        placedSlots_cons, List.flatten_append]
      rfl

theorem placedSlots_size {placed : List (String × Placed)} (hnames : ∀ e ∈ placed, NameOk e.1) :
    ∀ slot ∈ placedSlots placed, slot.length = 32 := by
  intro slot hslot
  obtain ⟨e, he, hslot⟩ := List.mem_flatMap.mp hslot
  exact entrySlots_size (hnames e he) slot hslot

/-- What was written for the entries of a directory is read as its entries. -/
theorem items_placedSlots {placed : List (String × Placed)} (hnames : ∀ e ∈ placed, NameOk e.1)
    (hfits : ∀ e ∈ placed, e.2.Fits) (rest : List (List UInt8)) :
    items (placedSlots placed ++ rest) [] =
      placed.map (fun e => e.2.item e.1) ++ items rest [] := by
  induction placed with
  | nil => rfl
  | cons e placed ih =>
      obtain ⟨name, t⟩ := e
      obtain ⟨hname, hrest⟩ := List.forall_mem_cons.mp hnames
      obtain ⟨hfit, hall⟩ := List.forall_mem_cons.mp hfits
      rw [placedSlots_cons, List.append_assoc, items_entrySlots hname hfit.1 hfit.2,
        ih hrest hall]
      rfl

/-- The bytes of a directory's entries. -/
def entriesLength (entries : FileTree) : ℕ := 32 * (entries.map fun e => slotCount e.1).sum

mutual

def nodeClusters (cs : ℕ) : FileNode → ℕ
  | .file data => if data = [] then 0 else clustersFor cs data.length
  | .dir entries => treeClusters cs entries + clustersFor cs (64 + entriesLength entries)

/-- The clusters for all that is in a directory. -/
def treeClusters (cs : ℕ) : FileTree → ℕ
  | [] => 0
  | (_, node) :: rest => nodeClusters cs node + treeClusters cs rest

end

theorem treeClusters_eq_sum (cs : ℕ) (t : FileTree) :
    treeClusters cs t = (t.map fun e => nodeClusters cs e.2).sum := by
  induction t with
  | nil => rfl
  | cons e rest ih =>
      obtain ⟨name, node⟩ := e
      rw [treeClusters, ih, List.map_cons, List.sum_cons]

theorem treeClusters_insertEntry (cs : ℕ) (e : String × FileNode) (t : FileTree) :
    treeClusters cs (insertEntry e t) = nodeClusters cs e.2 + treeClusters cs t := by
  induction t with
  | nil => rfl
  | cons d rest ih =>
      rw [insertEntry]
      split
      · rw [treeClusters, ih, treeClusters]
        omega
      · rw [treeClusters]

theorem entriesLength_sorted (t : FileTree) : entriesLength (sorted t) = entriesLength t := by
  have hperm := (names_sorted t).map slotCount
  rw [List.map_map, List.map_map] at hperm
  exact congrArg (32 * ·) hperm.sum_nat

mutual

theorem nodeClusters_sorted (cs : ℕ) :
    ∀ node : FileNode, nodeClusters cs (sortedNode node) = nodeClusters cs node
  | .file data => by rw [sortedNode]
  | .dir entries => by
      rw [sortedNode, nodeClusters, nodeClusters, treeClusters_sorted cs entries,
        entriesLength_sorted]

theorem treeClusters_sorted (cs : ℕ) :
    ∀ t : FileTree, treeClusters cs (sorted t) = treeClusters cs t
  | [] => by rw [sorted]
  | (name, node) :: rest => by
      rw [sorted, treeClusters_insertEntry, treeClusters, nodeClusters_sorted cs node,
        treeClusters_sorted cs rest]

end

mutual

/-- A node in the clusters from `a` up to `b`. -/
inductive LaidNode (cs : ℕ) (fs : Fat) : FileNode → Placed → ℕ → ℕ → Prop
  | empty {a : ℕ} : LaidNode cs fs (.file []) (.file 0 0) a a
  | file {data : List UInt8} {a : ℕ} : data ≠ [] → Holds cs fs a data →
      LaidNode cs fs (.file data) (.file a data.length) a (a + clustersFor cs data.length)
  | dir {t : FileTree} {placed : List (String × Placed)} {entries : List UInt8} {a m : ℕ} :
      LaidTree cs fs t placed a m → placedEntries placed = .ok entries →
      Holds cs fs m (dirBytes m entries) →
      LaidNode cs fs (.dir t) (.dir m) a (m + clustersFor cs (64 + entries.length))

/-- The entries of a directory, one after the other. -/
inductive LaidTree (cs : ℕ) (fs : Fat) : FileTree → List (String × Placed) → ℕ → ℕ → Prop
  | nil {a : ℕ} : LaidTree cs fs [] [] a a
  | cons {name : String} {node : FileNode} {rest : FileTree} {t : Placed}
      {placed : List (String × Placed)} {a m b : ℕ} : LaidNode cs fs node t a m →
      LaidTree cs fs rest placed m b →
      LaidTree cs fs ((name, node) :: rest) ((name, t) :: placed) a b

end

mutual

theorem LaidNode.le {cs : ℕ} {fs : Fat} : ∀ {node : FileNode} {t : Placed} {a b : ℕ},
    LaidNode cs fs node t a b → a ≤ b
  | .file _, _, _, _, h => by
      cases h
      · exact Nat.le_refl _
      · exact Nat.le_add_right _ _
  | .dir _, _, _, _, h => by
      cases h with
      | dir htree _ _ => exact htree.le.trans (Nat.le_add_right _ _)

theorem LaidTree.le {cs : ℕ} {fs : Fat} : ∀ {t : FileTree} {placed : List (String × Placed)}
    {a b : ℕ}, LaidTree cs fs t placed a b → a ≤ b
  | [], _, _, _, h => by
      cases h
      exact Nat.le_refl _
  | (_, _) :: _, _, _, _, h => by
      cases h with
      | cons hnode hrest => exact hnode.le.trans hrest.le

end

theorem LaidTree.names {cs : ℕ} {fs : Fat} {t : FileTree} {placed : List (String × Placed)}
    {a b : ℕ} (h : LaidTree cs fs t placed a b) : placed.map Prod.fst = t.map Prod.fst := by
  induction t generalizing placed a with
  | nil =>
      cases h
      rfl
  | cons e rest ih =>
      cases h with
      | cons hnode hrest => rw [List.map_cons, List.map_cons, ih hrest]

theorem LaidTree.forall_names {cs : ℕ} {fs : Fat} {t : FileTree}
    {placed : List (String × Placed)} {a b : ℕ} (h : LaidTree cs fs t placed a b)
    {p : String → Prop} (ht : ∀ e ∈ t, p e.1) : ∀ e ∈ placed, p e.1 := by
  intro e he
  have hmem : e.1 ∈ t.map Prod.fst := h.names ▸ List.mem_map_of_mem he
  obtain ⟨d, hd, heq⟩ := List.mem_map.mp hmem
  exact heq ▸ ht d hd

/-- The two states have the same in the clusters from `a` up to `b`. -/
def Agree (fs fs' : Fat) (a b : ℕ) : Prop :=
  ∀ c, a ≤ c → c < b →
    fs'.fat[c]? = fs.fat[c]? ∧ fs'.clusters.lookup c = fs.clusters.lookup c

theorem Holds.congr {cs first a b : ℕ} {fs fs' : Fat} {data : List UInt8}
    (h : Holds cs fs first data) (hagree : Agree fs fs' a b) (ha : a ≤ first)
    (hb : first + clustersFor cs data.length ≤ b) : Holds cs fs' first data := by
  intro i hi
  obtain ⟨hfat, hcluster⟩ := hagree (first + i) (by omega) (by omega)
  rw [hfat, hcluster]
  exact h i hi

mutual

theorem LaidNode.congr {cs : ℕ} {fs fs' : Fat} : ∀ {node : FileNode} {t : Placed} {a b : ℕ},
    LaidNode cs fs node t a b → Agree fs fs' a b → LaidNode cs fs' node t a b
  | .file _, _, _, _, h, hagree => by
      cases h with
      | empty => exact .empty
      | file hne hholds => exact .file hne (hholds.congr hagree (Nat.le_refl _) (Nat.le_refl _))
  | .dir _, _, a, _, h, hagree => by
      cases h with
      | dir htree hentries hholds =>
          refine .dir (htree.congr fun c ha hb => hagree c ha (by omega)) hentries ?_
          exact hholds.congr hagree htree.le (by rw [dirBytes_length])

theorem LaidTree.congr {cs : ℕ} {fs fs' : Fat} : ∀ {t : FileTree}
    {placed : List (String × Placed)} {a b : ℕ},
    LaidTree cs fs t placed a b → Agree fs fs' a b → LaidTree cs fs' t placed a b
  | [], _, _, _, h, _ => by
      cases h
      exact .nil
  | (_, _) :: _, _, _, _, h, hagree => by
      cases h with
      | cons hnode hrest =>
          have hle := hnode.le
          have hle' := hrest.le
          exact .cons (hnode.congr fun c ha hb => hagree c ha (by omega))
            (hrest.congr fun c ha hb => hagree c (by omega) hb)

end

theorem Extends.agree {fs fs' : Fat} (h : Extends fs fs') {a b : ℕ} (hb : b ≤ fs.nextFree) :
    Agree fs fs' a b := fun c _ hc => ⟨h.fat c (by omega), h.clusters c (by omega)⟩

mutual

theorem placeNode_spec {cs : ℕ} (hcs : 0 < cs) : ∀ {node : FileNode} {t : Placed} {fs fs' : Fat},
    placeNode cs node fs = .ok (t, fs') → Good cs fs →
      Good cs fs' ∧ Extends fs fs' ∧ LaidNode cs fs' node t fs.nextFree fs'.nextFree
  | .file data, t, fs, fs', h, hgood => by
      rw [placeNode] at h
      by_cases hdata : data = []
      · subst hdata
        cases h
        exact ⟨hgood, Extends.refl fs, .empty⟩
      · rw [if_neg hdata] at h
        obtain ⟨⟨first, fs₁⟩, halloc, h⟩ := bind_eq_ok.mp h
        cases h
        obtain ⟨rfl, hgood', hext, hnext, hholds⟩ := allocChain_spec halloc hgood
        rw [hnext]
        exact ⟨hgood', hext, .file hdata hholds⟩
  | .dir tree, t, fs, fs', h, hgood => by
      rw [placeNode] at h
      obtain ⟨⟨placed, fs₁⟩, hplace, h⟩ := bind_eq_ok.mp h
      obtain ⟨hgood₁, hext₁, htree⟩ := placeEntries_spec hcs hplace hgood
      obtain ⟨⟨first, fs₂⟩, hclose, h⟩ := bind_eq_ok.mp h
      cases h
      obtain ⟨entries, hentries, rfl, hgood₂, hext₂, hnext, hholds⟩ :=
        closeDir_spec hcs hclose hgood₁
      rw [hnext]
      have htree' := htree.congr (hext₂.agree (Nat.le_refl _))
      exact ⟨hgood₂, hext₁.trans hext₂, .dir htree' hentries hholds⟩

theorem placeEntries_spec {cs : ℕ} (hcs : 0 < cs) : ∀ {t : FileTree}
    {placed : List (String × Placed)} {fs fs' : Fat},
    placeEntries cs t fs = .ok (placed, fs') → Good cs fs →
      Good cs fs' ∧ Extends fs fs' ∧ LaidTree cs fs' t placed fs.nextFree fs'.nextFree
  | [], placed, fs, fs', h, hgood => by
      rw [placeEntries] at h
      cases h
      exact ⟨hgood, Extends.refl fs, .nil⟩
  | (name, node) :: rest, placed, fs, fs', h, hgood => by
      rw [placeEntries] at h
      obtain ⟨⟨t, fs₁⟩, hnode, h⟩ := bind_eq_ok.mp h
      obtain ⟨hgood₁, hext₁, hlaid⟩ := placeNode_spec hcs hnode hgood
      obtain ⟨⟨placed, fs₂⟩, hrest, h⟩ := bind_eq_ok.mp h
      cases h
      obtain ⟨hgood₂, hext₂, hlaid₂⟩ := placeEntries_spec hcs hrest hgood₁
      have hlaid' := hlaid.congr (hext₂.agree (Nat.le_refl _))
      exact ⟨hgood₂, hext₁.trans hext₂, .cons hlaid' hlaid₂⟩

end

/-- Every name of a directory can be a name. -/
def NamesOk (t : FileTree) : Prop := ∀ e ∈ t, NameOk e.1

theorem placedSlots_length {cs : ℕ} {fs : Fat} {t : FileTree} {placed : List (String × Placed)}
    {a b : ℕ} (h : LaidTree cs fs t placed a b) :
    (placedSlots placed).length = (t.map fun e => slotCount e.1).sum := by
  have hslots : (placedSlots placed).length = ((placed.map Prod.fst).map slotCount).sum := by
    rw [placedSlots, List.length_flatMap, List.map_map]
    congr 1
    exact List.map_congr_left fun e _ => entrySlots_length
  rw [hslots, h.names, List.map_map]
  rfl

theorem entries_length {cs : ℕ} {fs : Fat} {t : FileTree} {placed : List (String × Placed)}
    {a b : ℕ} {entries : List UInt8} (h : LaidTree cs fs t placed a b) (hnames : NamesOk t)
    (hentries : placedEntries placed = .ok entries) : entries.length = entriesLength t := by
  have hplaced : ∀ e ∈ placed, NameOk e.1 := h.forall_names hnames
  rw [(placedEntries_spec hplaced hentries).1, flatten_length (placedSlots_size hplaced),
    placedSlots_length h, entriesLength]

mutual

theorem LaidNode.clusters {cs : ℕ} {fs : Fat} : ∀ {node : FileNode} {t : Placed} {a b : ℕ},
    LaidNode cs fs node t a b → NodeDirs NamesOk node → b = a + nodeClusters cs node
  | .file _, _, _, _, h, _ => by
      cases h with
      | empty => rw [nodeClusters, if_pos rfl, Nat.add_zero]
      | file hne _ => rw [nodeClusters, if_neg hne]
  | .dir _, _, _, _, h, hnames => by
      cases h with
      | dir htree hentries _ =>
          rw [NodeDirs] at hnames
          rw [nodeClusters, entries_length htree hnames.1 hentries, htree.clusters hnames.2]
          omega

theorem LaidTree.clusters {cs : ℕ} {fs : Fat} : ∀ {t : FileTree}
    {placed : List (String × Placed)} {a b : ℕ},
    LaidTree cs fs t placed a b → InnerDirs NamesOk t → b = a + treeClusters cs t
  | [], _, _, _, h, _ => by
      cases h
      rw [treeClusters, Nat.add_zero]
  | (_, _) :: _, _, _, _, h, hnames => by
      cases h with
      | cons hnode hrest =>
          rw [InnerDirs] at hnames
          rw [treeClusters, hrest.clusters hnames.2, hnode.clusters hnames.1]
          omega

end

def fileLength : FileNode → ℕ
  | .file data => data.length
  | .dir _ => 0

/-- Every file of a directory has a size its entry can hold. -/
def FilesOk (t : FileTree) : Prop := ∀ e ∈ t, fileLength e.2 < 2 ^ 32

instance (t : FileTree) : Decidable (FilesOk t) := inferInstanceAs (Decidable (∀ e ∈ t, _))

theorem LaidTree.fits {cs : ℕ} {fs : Fat} {t : FileTree} {placed : List (String × Placed)}
    {a b : ℕ} (h : LaidTree cs fs t placed a b) (hfiles : FilesOk t) (hb : b ≤ 2 ^ 32) :
    ∀ e ∈ placed, e.2.Fits := by
  induction t generalizing placed a with
  | nil =>
      cases h
      exact fun e he => absurd he List.not_mem_nil
  | cons e rest ih =>
      cases h with
      | @cons name node _ t placed _ m _ hnode hrest =>
          obtain ⟨hfile, hfiles⟩ := List.forall_mem_cons.mp hfiles
          have hle := hrest.le
          refine List.forall_mem_cons.mpr ⟨?_, ih hrest hfiles⟩
          cases hnode with
          | empty => exact ⟨Nat.two_pow_pos 32, Nat.two_pow_pos 32⟩
          | @file data _ hne hholds =>
              have hpos := clustersFor_pos cs data.length
              exact ⟨show a < 2 ^ 32 by omega, hfile⟩
          | @dir tree inner entries _ first htree hentries hholds =>
              have hpos := clustersFor_pos cs (64 + entries.length)
              exact ⟨show first < 2 ^ 32 by omega, Nat.two_pow_pos 32⟩

mutual

theorem placeNode_ok {cs : ℕ} (hcs : 0 < cs) : ∀ {node : FileNode} {fs : Fat}, Good cs fs →
    NodeDirs NamesOk node → NodeDirs FilesOk node →
    fs.nextFree + nodeClusters cs node ≤ fs.fat.length → fs.fat.length ≤ 2 ^ 32 →
      ∃ t fs', placeNode cs node fs = .ok (t, fs')
  | .file data, fs, hgood, hnames, hfiles, hroom, hlen => by
      rw [placeNode]
      rw [nodeClusters] at hroom
      by_cases hdata : data = []
      · rw [if_pos hdata]
        exact ⟨_, _, rfl⟩
      · rw [if_neg hdata] at hroom ⊢
        obtain ⟨fs', h'⟩ := allocChain_ok hroom
        rw [h']
        exact ⟨_, _, rfl⟩
  | .dir tree, fs, hgood, hnames, hfiles, hroom, hlen => by
      rw [nodeClusters] at hroom
      rw [NodeDirs] at hnames hfiles
      obtain ⟨placed, fs₁, hplace⟩ := placeEntries_ok hcs hgood hnames.2 hfiles.2
        (show fs.nextFree + treeClusters cs tree ≤ fs.fat.length by omega) hlen
      obtain ⟨hgood₁, hext₁, htree⟩ := placeEntries_spec hcs hplace hgood
      have hnext := htree.clusters hnames.2
      have hlen₁ := hext₁.length
      have hpos := clustersFor_pos cs (64 + entriesLength tree)
      have hplaced : ∀ e ∈ placed, NameOk e.1 := htree.forall_names hnames.1
      have hentries := placedEntries_ok hplaced (htree.fits hfiles.1 (by omega))
      have hsize := entries_length htree hnames.1 hentries
      obtain ⟨fs', h'⟩ := closeDir_ok hentries
        (show fs₁.nextFree + clustersFor cs _ ≤ fs₁.fat.length by rw [hsize]; omega) (by omega)
      rw [placeNode, hplace]
      change ∃ t fs', (closeDir cs placed fs₁ >>= fun r => Except.ok (Placed.dir r.1, r.2)) = _
      rw [h']
      exact ⟨_, _, rfl⟩

theorem placeEntries_ok {cs : ℕ} (hcs : 0 < cs) : ∀ {t : FileTree} {fs : Fat}, Good cs fs →
    InnerDirs NamesOk t → InnerDirs FilesOk t →
    fs.nextFree + treeClusters cs t ≤ fs.fat.length → fs.fat.length ≤ 2 ^ 32 →
      ∃ placed fs', placeEntries cs t fs = .ok (placed, fs')
  | [], fs, _, _, _, _, _ => ⟨[], fs, by rw [placeEntries]⟩
  | (name, node) :: rest, fs, hgood, hnames, hfiles, hroom, hlen => by
      rw [treeClusters] at hroom
      rw [InnerDirs] at hnames hfiles
      obtain ⟨t, fs₁, hnode⟩ := placeNode_ok hcs hgood hnames.1 hfiles.1
        (show fs.nextFree + nodeClusters cs node ≤ fs.fat.length by omega) hlen
      obtain ⟨hgood₁, hext₁, hlaid⟩ := placeNode_spec hcs hnode hgood
      have hnext := hlaid.clusters hnames.1
      have hlen₁ := hext₁.length
      obtain ⟨placed, fs₂, hrest⟩ := placeEntries_ok hcs hgood₁ hnames.2 hfiles.2
        (show fs₁.nextFree + treeClusters cs rest ≤ fs₁.fat.length by omega) (by omega)
      rw [placeEntries, hnode]
      change ∃ placed fs', (placeEntries cs rest fs₁ >>= fun r =>
        Except.ok ((name, t) :: r.1, r.2)) = _
      rw [hrest]
      exact ⟨_, _, rfl⟩

end

mutual

theorem nodeDepth_le (cs : ℕ) : ∀ node : FileNode, nodeDepth node ≤ nodeClusters cs node
  | .file data => by
      rw [nodeDepth]
      exact Nat.zero_le _
  | .dir tree => by
      have htree := depth_le cs tree
      have hpos := clustersFor_pos cs (64 + entriesLength tree)
      rw [nodeDepth, nodeClusters]
      omega

theorem depth_le (cs : ℕ) : ∀ t : FileTree, depth t ≤ treeClusters cs t + 1
  | [] => by
      rw [depth, treeClusters]
  | (name, node) :: rest => by
      have hnode := nodeDepth_le cs node
      have hrest := depth_le cs rest
      rw [depth, treeClusters]
      omega

end

end Veron.MkFat
