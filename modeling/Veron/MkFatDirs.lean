/-
The directories of an image: what their `.` and `..` name, and their short names.
-/
import Veron.MkFatVolume

namespace Veron.MkFat

open FileTree Fat32

/-- A directory that was emitted: its clusters, from the first up to `stop`, and
the first cluster of the directory that it is in. -/
structure Emitted where
  first : ℕ
  stop : ℕ
  parent : ℕ
deriving DecidableEq

mutual

/-- The calls of `emit_dir` for an entry of the directory at `parent`. -/
def emittedNode (cs parent : ℕ) : FileNode → Fat → List Emitted
  | .file _, _ => []
  | .dir entries, fs =>
      match placeEntries cs entries fs with
      | .error _ => []
      | .ok (placed, fs') =>
          match closeDir cs placed fs' with
          | .error _ => []
          | .ok (first, fs'') =>
              ⟨first, fs''.nextFree, parent⟩ :: emittedEntries cs first entries fs

def emittedEntries (cs parent : ℕ) : FileTree → Fat → List Emitted
  | [], _ => []
  | (_, node) :: rest, fs =>
      match placeNode cs node fs with
      | .error _ => []
      | .ok (_, fs') => emittedNode cs parent node fs ++ emittedEntries cs parent rest fs'

end

/-- The calls of `emit_dir` of a build. -/
def emitted (cs : ℕ) (size : ℤ) (tree : FileTree) : List Emitted :=
  match Fat.new cs size >>= allocChain cs (List.replicate (cs * SECTOR) 0) with
  | .error _ => []
  | .ok (root, fs) => emittedEntries cs root (sorted tree) fs

/-- The clusters from `first` up to `stop`. -/
def clustersIn (img : List UInt8) (first stop : ℕ) : List UInt8 :=
  chainBytes img (geometry img) (List.range' first (stop - first))

/-- The cluster that an entry names. -/
def slotCluster (slot : List UInt8) : ℕ := field slot 20 2 * 2 ^ 16 + field slot 26 2

/-- The entry is in use and no part of a long name. -/
def isShortSlot (slot : List UInt8) : Bool :=
  slot.getD 11 0 ≠ 0x0f && slot ≠ List.replicate 32 0

/-- The short names in a directory. -/
def shortNames (bs : List UInt8) : List (List UInt8) :=
  ((slots bs).filter isShortSlot).map fun slot => slot.take 11

/-- What a subdirectory has to be. -/
structure Emitted.Sound (img : List UInt8) (d : Emitted) : Prop where
  dot : slice (clustersIn img d.first d.stop) 0 11 = dotName ∧
    slotCluster (slice (clustersIn img d.first d.stop) 0 32) = d.first
  dotdot : slice (clustersIn img d.first d.stop) 32 11 = dotdotName ∧
    slotCluster (slice (clustersIn img d.first d.stop) 32 32) = if d.parent = 2 then 0 else d.parent
  names : (shortNames (clustersIn img d.first d.stop)).Nodup

/-- What the directories of an image have to be. -/
structure DirsSound (cs : ℕ) (size : ℤ) (tree : FileTree) (img : List UInt8) : Prop where
  root : (shortNames (clustersIn img 2 3)).Nodup
  inner : ∀ d ∈ emitted cs size tree, d.Sound img

def isDir : FileNode → Bool
  | .file _ => false
  | .dir _ => true

def innerEntries : FileNode → FileTree
  | .file _ => []
  | .dir entries => entries

/-- No directory is in a subdirectory. -/
def Shallow (t : FileTree) : Prop := ∀ e ∈ t, ∀ d ∈ innerEntries e.2, isDir d.2 = false

instance (t : FileTree) : Decidable (Shallow t) :=
  inferInstanceAs (Decidable (∀ e ∈ t, ∀ d ∈ innerEntries e.2, _))

/-- The short name, where there is one. -/
def shortOf (name : String) : Option (List UInt8) :=
  match dos83 name with
  | .ok (short, _) => some short
  | .error _ => none

/-- What stands before the first dot, in capitals. -/
def stem (name : String) : List Char := (name.toList.flatMap upper).takeWhile (· ≠ '.')

/-- What stands behind the first dot, in capitals. -/
def extension (name : String) : List Char := ((name.toList.flatMap upper).dropWhile (· ≠ '.')).tail

/-- Two names that agree, but for small letters, in the first eight characters before the first dot
and in the first three behind it, where a blank stands for a character that is not there. -/
def Alike (a b : String) : Prop :=
  (∀ i < 8, (stem a).getD i ' ' = (stem b).getD i ' ') ∧
    ∀ i < 3, (extension a).getD i ' ' = (extension b).getD i ' '

instance (a b : String) : Decidable (Alike a b) := inferInstanceAs (Decidable (_ ∧ _))

/-- No two names of a directory are alike. -/
def NamesApart (t : FileTree) : Prop := (t.map Prod.fst).Pairwise fun a b => ¬ Alike a b

instance (t : FileTree) : Decidable (NamesApart t) :=
  inferInstanceAs (Decidable (List.Pairwise _ _))

theorem ljust_take (n : ℕ) (cs : List Char) :
    ljust n (cs.take n) = (List.range n).map fun i => cs.getD i ' ' := by
  induction n generalizing cs with
  | zero => simp [ljust]
  | succ n ih =>
      rw [List.range_succ_eq_map, List.map_cons, List.map_map]
      cases cs with
      | nil =>
          have hnil := ih []
          simp only [List.take_nil, ljust, List.length_nil, Nat.sub_zero, List.nil_append] at hnil ⊢
          rw [List.replicate_succ, hnil]
          rfl
      | cons c cs =>
          rw [List.take_succ_cons]
          have hcons : ljust (n + 1) (c :: cs.take n) = c :: ljust n (cs.take n) := by
            simp [ljust]
          rw [hcons, ih]
          rfl

theorem ascii_inj {cs ds : List Char} (hcs : cs.all (·.toNat < 128)) (hds : ds.all (·.toNat < 128))
    (h : ascii cs = ascii ds) : cs = ds := by
  have hback : ∀ {cs : List Char}, cs.all (·.toNat < 128) →
      (ascii cs).map (fun b => Char.ofNat b.toNat) = cs := by
    intro cs hcs
    rw [ascii, List.map_map]
    refine (List.map_congr_left fun c hc => ?_).trans (List.map_id cs)
    have hlow : c.toNat < 128 := by simpa using List.all_eq_true.mp hcs c hc
    exact ascii_forall (P := fun c => Char.ofNat (UInt8.ofNat c.toNat).toNat = c) (by decide) hlow
  rw [← hback hcs, ← hback hds, h]

/-- Names with one short name are alike. -/
theorem shortOf_eq_iff {a b : String} (ha : (shortOf a).isSome) (hb : (shortOf b).isSome) :
    shortOf a = shortOf b ↔ Alike a b := by
  have hform : ∀ {name : String}, (shortOf name).isSome →
      (ljust 8 ((stem name).take 8) ++ ljust 3 ((extension name).take 3)).all (·.toNat < 128) ∧
        shortOf name =
          some (ascii (ljust 8 ((stem name).take 8) ++ ljust 3 ((extension name).take 3))) := by
    intro name hsome
    by_cases hall : (ljust 8 ((stem name).take 8) ++ ljust 3 ((extension name).take 3)).all
        (·.toNat < 128)
    · refine ⟨hall, ?_⟩
      rw [shortOf, dos83]
      simp only [encodeAscii, stem, extension] at hall ⊢
      rw [if_pos hall]
      rfl
    · rw [shortOf, dos83] at hsome
      simp only [encodeAscii, stem, extension] at hall hsome
      rw [if_neg hall] at hsome
      cases hsome
  obtain ⟨hlow, ha⟩ := hform ha
  obtain ⟨hlow', hb⟩ := hform hb
  have hfields : ∀ {n : ℕ} {cs ds : List Char}, ljust n (cs.take n) = ljust n (ds.take n) ↔
      ∀ i < n, cs.getD i ' ' = ds.getD i ' ' := by
    intro n cs ds
    rw [ljust_take, ljust_take, List.map_inj_left]
    exact forall_congr' fun i => by rw [List.mem_range]
  have hlen : (ljust 8 ((stem a).take 8)).length = (ljust 8 ((stem b).take 8)).length := by
    rw [ljust_length (List.length_take_le _ _), ljust_length (List.length_take_le _ _)]
  rw [ha, hb, Option.some.injEq, Alike, ← hfields, ← hfields]
  constructor
  · intro h
    exact List.append_inj (ascii_inj hlow hlow' h) hlen
  · rintro ⟨hstem, hext⟩
    rw [hstem, hext]

theorem dos83_first {name : String} {short : List UInt8} {long : Bool}
    (h : dos83 name = .ok (short, long)) :
    short.length = 11 ∧ short ≠ dotName ∧ short ≠ dotdotName := by
  obtain ⟨b, hb, hrest⟩ := bind_eq_ok.mp h
  obtain ⟨rfl, -⟩ := Prod.mk.inj (Except.ok.inj hrest)
  rw [encodeAscii] at hb
  split at hb
  · obtain rfl := Except.ok.inj hb
    rename_i hascii
    generalize hbase : (name.toList.flatMap upper).takeWhile (· ≠ '.') = base at hascii
    generalize hext : ((name.toList.flatMap upper).dropWhile (· ≠ '.')).tail = ext at hascii
    have hlen : (ljust 8 (base.take 8) ++ ljust 3 (ext.take 3)).length = 11 := by
      rw [List.length_append, ljust_length (by rw [List.length_take]; omega),
        ljust_length (by rw [List.length_take]; omega)]
    have hfirst : (ascii (ljust 8 (base.take 8) ++ ljust 3 (ext.take 3))).getD 0 0 ≠ 0x2e := by
      cases base with
      | nil =>
          rw [show (ascii (ljust 8 (([] : List Char).take 8) ++
              ljust 3 (ext.take 3))).getD 0 0 = 0x20
            from rfl]
          decide
      | cons c base =>
          have hc : c ≠ '.' := by
            have hmem : c ∈ (name.toList.flatMap upper).takeWhile (· ≠ '.') :=
              hbase ▸ List.mem_cons_self
            simpa using List.mem_takeWhile_imp hmem
          have hlow : c.toNat < 128 := by
            have hall := List.all_eq_true.mp hascii c (by simp [ljust])
            simpa using hall
          have hbyte : (ascii (ljust 8 ((c :: base).take 8) ++ ljust 3 (ext.take 3))).getD 0 0 =
              UInt8.ofNat c.toNat := by simp [ljust, ascii]
          rw [hbyte]
          intro heq
          refine hc (ascii_forall (P := fun c => UInt8.ofNat c.toNat = 0x2e → c = '.')
            (by decide) hlow heq)
    refine ⟨by rw [ascii_length]; exact hlen, fun heq => hfirst ?_, fun heq => hfirst ?_⟩
    · rw [heq]
      rfl
    · rw [heq]
      rfl
  · cases hb

theorem shortOf_plain {name : String} {short : List UInt8} (h : shortOf name = some short) :
    short ≠ dotName ∧ short ≠ dotdotName := by
  rw [shortOf] at h
  split at h
  · rename_i short' long hshort
    obtain rfl := Option.some.inj h
    exact (dos83_first hshort).2
  · cases h

theorem lfnEntry_slot {n s i : ℕ} {ch slot : List UInt8} (hch : ch.length = 26)
    (h : lfnEntry n s ch i = .ok slot) : slot.length = 32 ∧ slot.getD 11 0 = 0x0f := by
  have hform : lfnEntry n s ch i = if slotOrder n i < 256 ∧ s < 256 then
      .ok (lfnSlot n (UInt8.ofNat s) ch i) else .error .value := rfl
  rw [hform] at h
  split at h
  · obtain rfl := Except.ok.inj h
    refine ⟨lfnSlot_length n _ i hch, ?_⟩
    simp only [lfnSlot, List.append_assoc, List.cons_append, List.nil_append]
    refine getD_middle (UInt8.ofNat (slotOrder n i) :: slice ch 0 10) _ _ ?_
    rw [List.length_cons, slice_length, hch]
    rfl
  · cases h

theorem mapM_forall {α β : Type} {f : α → Except Error β} {P : β → Prop} {l : List α}
    {bs : List β} (h : l.mapM f = .ok bs) (hP : ∀ a ∈ l, ∀ b, f a = .ok b → P b) :
    ∀ b ∈ bs, P b := by
  induction l generalizing bs with
  | nil =>
      obtain rfl := Except.ok.inj h
      exact fun b hb => absurd hb List.not_mem_nil
  | cons a l ih =>
      rw [List.mapM_cons] at h
      obtain ⟨b, hb, h⟩ := bind_eq_ok.mp h
      obtain ⟨bs', hbs, h⟩ := bind_eq_ok.mp h
      obtain rfl := Except.ok.inj h
      obtain ⟨ha, hl⟩ := List.forall_mem_cons.mp hP
      exact List.forall_mem_cons.mpr ⟨ha b hb, ih hbs hl⟩

theorem lfnEntries_slots {name : String} {short long : List UInt8}
    (h : lfnEntries name short = .ok long) :
    ∃ ss : List (List UInt8), long = ss.flatten ∧ ∀ s ∈ ss, s.length = 32 ∧ s.getD 11 0 = 0x0f := by
  obtain ⟨ss, hss, h⟩ := bind_eq_ok.mp h
  obtain rfl := Except.ok.inj h
  refine ⟨ss, rfl, mapM_forall hss fun e he slot hslot => ?_⟩
  have hmem : e.1 ∈ chunks (lfnUnits name) :=
    List.fst_mem_of_mem_zipIdx (List.mem_reverse.mp he)
  exact lfnEntry_slot ((chunks_eq name).2.1 _ hmem) hslot

theorem isShortSlot_shortSlot {short : List UInt8} {attr : UInt8} {cluster size : ℕ}
    (h : short.length = 11) (hlong : attr ≠ 0x0f) (hzero : attr ≠ 0) :
    isShortSlot (shortSlot short attr cluster size) = true := by
  have hattr : (shortSlot short attr cluster size).getD 11 0 = attr := shortSlot_attr h
  rw [isShortSlot, hattr, Bool.and_eq_true, decide_eq_true_eq, decide_eq_true_eq]
  refine ⟨hlong, fun heq => hzero ?_⟩
  rw [← hattr, heq]
  rfl

/-- The slots of an entry: those of its long name, and the short one. -/
theorem direntry_slots {name : String} {cluster size : ℕ} {isDir : Bool} {bytes : List UInt8}
    (h : direntry name cluster size isDir = .ok bytes) :
    ∃ short ss slot, shortOf name = some short ∧ bytes = (ss ++ [slot]).flatten ∧
      (∀ s ∈ ss ++ [slot], s.length = 32) ∧ (∀ s ∈ ss, isShortSlot s = false) ∧
      isShortSlot slot = true ∧ slot.take 11 = short := by
  obtain ⟨⟨short, needs⟩, hshort, h⟩ := bind_eq_ok.mp h
  obtain ⟨e, he, h⟩ := bind_eq_ok.mp h
  obtain ⟨long, hlong, h⟩ := bind_eq_ok.mp h
  obtain rfl := Except.ok.inj h
  obtain ⟨hlen, -, -⟩ := dos83_first hshort
  rw [packEntry_eq] at he
  split at he
  · obtain rfl := Except.ok.inj he
    obtain ⟨ss, rfl, hss⟩ : ∃ ss : List (List UInt8), long = ss.flatten ∧
        ∀ s ∈ ss, s.length = 32 ∧ s.getD 11 0 = 0x0f := by
      cases needs with
      | false =>
          obtain rfl := Except.ok.inj hlong
          exact ⟨[], rfl, fun s hs => absurd hs List.not_mem_nil⟩
      | true => exact lfnEntries_slots hlong
    refine ⟨short, ss, shortSlot short (if isDir then 0x10 else 0x20) cluster size,
      by simp only [shortOf, hshort], by simp, ?_, ?_, ?_, shortSlot_take hlen⟩
    · intro s hs
      rcases List.mem_append.mp hs with hs | hs
      · exact (hss s hs).1
      · rw [List.mem_singleton.mp hs, shortSlot_length hlen]
    · intro s hs
      rw [isShortSlot, (hss s hs).2]
      rfl
    · apply isShortSlot_shortSlot hlen
      · cases isDir <;> decide
      · cases isDir <;> decide
  · cases he

theorem placedEntry_slots {name : String} {t : Placed} {bytes : List UInt8}
    (h : placedEntry name t = .ok bytes) :
    ∃ short ss slot, shortOf name = some short ∧ bytes = (ss ++ [slot]).flatten ∧
      (∀ s ∈ ss ++ [slot], s.length = 32) ∧ (∀ s ∈ ss, isShortSlot s = false) ∧
      isShortSlot slot = true ∧ slot.take 11 = short := by
  cases t with
  | dir cluster => exact direntry_slots h
  | file cluster size => exact direntry_slots h

/-- The entries of a directory are slots, and the short ones have the short names. -/
theorem placedEntries_slots {placed : List (String × Placed)} {entries : List UInt8}
    (h : placedEntries placed = .ok entries) :
    ∃ ss : List (List UInt8), entries = ss.flatten ∧ (∀ s ∈ ss, s.length = 32) ∧
      ((ss.filter isShortSlot).map fun s => some (s.take 11)) =
        placed.map fun e => shortOf e.1 := by
  induction placed generalizing entries with
  | nil =>
      rw [placedEntries, Except.ok.injEq] at h
      exact ⟨[], h.symm, fun s hs => absurd hs List.not_mem_nil, rfl⟩
  | cons e placed ih =>
      obtain ⟨name, t⟩ := e
      rw [placedEntries] at h
      obtain ⟨bytes, hentry, h⟩ := bind_eq_ok.mp h
      obtain ⟨more, hplaced, h⟩ := bind_eq_ok.mp h
      obtain rfl := Except.ok.inj h
      obtain ⟨ss, rfl, hss, hnames⟩ := ih hplaced
      obtain ⟨short, ls, slot, hshort, rfl, hlen, hlong, hslot, htake⟩ := placedEntry_slots hentry
      refine ⟨(ls ++ [slot]) ++ ss, List.flatten_append.symm, ?_, ?_⟩
      · intro s hs
        rcases List.mem_append.mp hs with hs | hs
        · exact hlen s hs
        · exact hss s hs
      · have hnone : ls.filter isShortSlot = [] := by
          rw [List.filter_eq_nil_iff]
          intro s hs
          rw [hlong s hs]
          exact Bool.false_ne_true
        rw [List.filter_append, List.filter_append, hnone, List.filter_cons_of_pos hslot,
          List.map_append, hnames, List.map_cons, hshort, ← htake]
        rfl

mutual

/-- The directories of a node, in the order in which they are entered. -/
def nodeDirs : FileNode → List FileTree
  | .file _ => []
  | .dir entries => entries :: treeDirs entries

def treeDirs : FileTree → List FileTree
  | [] => []
  | (_, node) :: rest => nodeDirs node ++ treeDirs rest

end

mutual

theorem nodeDirs_iff (P : FileTree → Prop) :
    ∀ node : FileNode, NodeDirs P node ↔ ∀ t ∈ nodeDirs node, P t
  | .file _ => by simp [NodeDirs, nodeDirs]
  | .dir entries => by
      rw [NodeDirs, nodeDirs, List.forall_mem_cons, treeDirs_iff P entries]

theorem treeDirs_iff (P : FileTree → Prop) :
    ∀ t : FileTree, InnerDirs P t ↔ ∀ d ∈ treeDirs t, P d
  | [] => by simp [InnerDirs, treeDirs]
  | (name, node) :: rest => by
      rw [InnerDirs, treeDirs, List.forall_mem_append, nodeDirs_iff P node, treeDirs_iff P rest]

end

/-- An emitted directory with the entries of `t`, in clusters from `low` on. -/
structure DirAt (cs : ℕ) (fs : Fat) (low : ℕ) (d : Emitted) (t : FileTree) : Prop where
  laid : ∃ placed entries, placedEntries placed = .ok entries ∧
    placed.map Prod.fst = t.map Prod.fst ∧ Holds cs fs d.first (dirBytes d.first entries) ∧
    d.stop = d.first + clustersFor cs (64 + entries.length)
  low_le : low ≤ d.first
  stop_le : d.stop ≤ fs.nextFree
  number : d.first < 2 ^ 32
  parent : 2 ≤ d.parent

theorem DirAt.congr {cs low : ℕ} {fs fs' : Fat} {d : Emitted} {t : FileTree}
    (h : DirAt cs fs low d t) (hagree : Agree fs fs' low fs.nextFree)
    (hnext : fs.nextFree ≤ fs'.nextFree) : DirAt cs fs' low d t where
  laid := by
    obtain ⟨placed, entries, hentries, hnames, hholds, hstop⟩ := h.laid
    refine ⟨placed, entries, hentries, hnames, hholds.congr hagree h.low_le ?_, hstop⟩
    rw [dirBytes_length, ← hstop]
    exact h.stop_le
  low_le := h.low_le
  stop_le := h.stop_le.trans hnext
  number := h.number
  parent := h.parent

theorem DirAt.extend {cs low : ℕ} {fs fs' : Fat} {d : Emitted} {t : FileTree}
    (h : DirAt cs fs low d t) (hext : Extends fs fs') : DirAt cs fs' low d t :=
  h.congr (hext.agree (Nat.le_refl _)) hext.nextFree

theorem DirAt.lower {cs low low' : ℕ} {fs : Fat} {d : Emitted} {t : FileTree}
    (h : DirAt cs fs low d t) (hle : low' ≤ low) : DirAt cs fs low' d t :=
  ⟨h.laid, hle.trans h.low_le, h.stop_le, h.number, h.parent⟩

theorem closeDir_number {cs first : ℕ} {placed : List (String × Placed)} {fs fs' : Fat}
    {entries : List UInt8} (hentries : placedEntries placed = .ok entries)
    (h : closeDir cs placed fs = .ok (first, fs')) : first < 2 ^ 32 := by
  rw [closeDir_eq hentries] at h
  obtain ⟨⟨first', fs''⟩, -, h⟩ := bind_eq_ok.mp h
  simp only at h
  split at h
  · cases h
    assumption
  · cases h

mutual

theorem emittedNode_dirs {cs : ℕ} (hcs : 0 < cs) : ∀ {node : FileNode} {t : Placed}
    {fs fs' : Fat} {parent : ℕ}, placeNode cs node fs = .ok (t, fs') → Good cs fs → 2 ≤ parent →
      List.Forall₂ (DirAt cs fs' fs.nextFree) (emittedNode cs parent node fs) (nodeDirs node)
  | .file data, t, fs, fs', parent, h, hgood, hparent => by
      rw [emittedNode, nodeDirs]
      exact List.Forall₂.nil
  | .dir tree, t, fs, fs', parent, h, hgood, hparent => by
      rw [placeNode] at h
      obtain ⟨⟨placed, fs₁⟩, hplace, h⟩ := bind_eq_ok.mp h
      obtain ⟨⟨first, fs₂⟩, hclose, h⟩ := bind_eq_ok.mp h
      cases h
      obtain ⟨hgood₁, hext₁, htree⟩ := placeEntries_spec hcs hplace hgood
      obtain ⟨entries, hentries, rfl, hgood₂, hext₂, hnext, hholds⟩ :=
        closeDir_spec hcs hclose hgood₁
      have hle := hext₁.nextFree
      have hinner := emittedEntries_dirs hcs hplace hgood
        (show 2 ≤ fs₁.nextFree from hgood₁.two_le)
      simp only [emittedNode, hplace, hclose, nodeDirs]
      refine List.Forall₂.cons ?_ (hinner.imp fun d t hd => hd.extend hext₂)
      exact ⟨⟨placed, entries, hentries, htree.names, hholds, hnext⟩, hle, Nat.le_refl _,
        closeDir_number hentries hclose, hparent⟩

theorem emittedEntries_dirs {cs : ℕ} (hcs : 0 < cs) : ∀ {t : FileTree}
    {placed : List (String × Placed)} {fs fs' : Fat} {parent : ℕ},
    placeEntries cs t fs = .ok (placed, fs') → Good cs fs → 2 ≤ parent →
      List.Forall₂ (DirAt cs fs' fs.nextFree) (emittedEntries cs parent t fs) (treeDirs t)
  | [], placed, fs, fs', parent, h, hgood, hparent => by
      rw [emittedEntries, treeDirs]
      exact List.Forall₂.nil
  | (name, node) :: rest, placed, fs, fs', parent, h, hgood, hparent => by
      rw [placeEntries] at h
      obtain ⟨⟨t, fs₁⟩, hnode, h⟩ := bind_eq_ok.mp h
      obtain ⟨⟨placed, fs₂⟩, hrest, h⟩ := bind_eq_ok.mp h
      cases h
      obtain ⟨hgood₁, hext₁, -⟩ := placeNode_spec hcs hnode hgood
      obtain ⟨-, hext₂, -⟩ := placeEntries_spec hcs hrest hgood₁
      have hfirst := emittedNode_dirs hcs hnode hgood hparent
      have hothers := emittedEntries_dirs hcs hrest hgood₁ hparent
      simp only [emittedEntries, hnode, treeDirs]
      refine List.rel_append (hfirst.imp fun d t hd => hd.extend hext₂) ?_
      exact hothers.imp fun d t hd => hd.lower hext₁.nextFree

end

theorem emittedEntries_files {cs parent : ℕ} {t : FileTree} {fs : Fat}
    (h : ∀ e ∈ t, isDir e.2 = false) : emittedEntries cs parent t fs = [] := by
  induction t generalizing fs with
  | nil => rw [emittedEntries]
  | cons e rest ih =>
      obtain ⟨name, node⟩ := e
      obtain ⟨hnode, hrest⟩ := List.forall_mem_cons.mp h
      cases node with
      | dir entries => cases hnode
      | file data =>
          rw [emittedEntries]
          split
          · rfl
          · rw [emittedNode, ih hrest, List.append_nil]

theorem emittedNode_dir {cs parent first : ℕ} {tree : FileTree} {fs fs₁ fs₂ : Fat}
    {placed : List (String × Placed)} (hplace : placeEntries cs tree fs = .ok (placed, fs₁))
    (hclose : closeDir cs placed fs₁ = .ok (first, fs₂)) :
    emittedNode cs parent (.dir tree) fs =
      ⟨first, fs₂.nextFree, parent⟩ :: emittedEntries cs first tree fs := by
  simp only [emittedNode, hplace, hclose]

/-- A directory among the entries is emitted below `parent`. -/
theorem exists_emitted {cs : ℕ} (parent : ℕ) {t : FileTree} {fs fs' : Fat}
    {placed : List (String × Placed)} (h : placeEntries cs t fs = .ok (placed, fs'))
    (hdir : ∃ e ∈ t, isDir e.2) : ∃ d ∈ emittedEntries cs parent t fs, d.parent = parent := by
  induction t generalizing fs fs' placed with
  | nil =>
      obtain ⟨e, he, -⟩ := hdir
      cases he
  | cons e rest ih =>
      obtain ⟨name, node⟩ := e
      rw [placeEntries] at h
      obtain ⟨⟨t, fs₁⟩, hnode, h⟩ := bind_eq_ok.mp h
      obtain ⟨⟨placed, fs₂⟩, hrest, h⟩ := bind_eq_ok.mp h
      simp only [emittedEntries, hnode]
      cases node with
      | file data =>
          obtain ⟨e, he, hedir⟩ := hdir
          rcases List.mem_cons.mp he with rfl | he
          · cases hedir
          · obtain ⟨d, hd, hparent⟩ := ih hrest ⟨e, he, hedir⟩
            exact ⟨d, List.mem_append_right _ hd, hparent⟩
      | dir tree =>
          rw [placeNode] at hnode
          obtain ⟨⟨inner, fs₃⟩, hplace, hnode⟩ := bind_eq_ok.mp hnode
          obtain ⟨⟨first, fs₄⟩, hclose, -⟩ := bind_eq_ok.mp hnode
          rw [emittedNode_dir hplace hclose]
          exact ⟨_, List.mem_append_left _ List.mem_cons_self, rfl⟩

theorem shallow_cons {name : String} {node : FileNode} {rest : FileTree} :
    Shallow ((name, node) :: rest) ↔
      (∀ d ∈ innerEntries node, isDir d.2 = false) ∧ Shallow rest := List.forall_mem_cons

/-- All directories are emitted below `parent` exactly when none is in another. -/
theorem emitted_parent_iff {cs parent : ℕ} (hcs : 0 < cs) {t : FileTree} {fs fs' : Fat}
    {placed : List (String × Placed)} (h : placeEntries cs t fs = .ok (placed, fs'))
    (hgood : Good cs fs) (hlt : parent < fs.nextFree) :
    (∀ d ∈ emittedEntries cs parent t fs, d.parent = parent) ↔ Shallow t := by
  induction t generalizing fs fs' placed with
  | nil => simp [emittedEntries, Shallow]
  | cons e rest ih =>
      obtain ⟨name, node⟩ := e
      rw [placeEntries] at h
      obtain ⟨⟨t, fs₁⟩, hnode, h⟩ := bind_eq_ok.mp h
      obtain ⟨⟨placed, fs₂⟩, hrest, h⟩ := bind_eq_ok.mp h
      obtain ⟨hgood₁, hext₁, -⟩ := placeNode_spec hcs hnode hgood
      have hothers := ih hrest hgood₁ (hlt.trans_le hext₁.nextFree)
      simp only [emittedEntries, hnode]
      rw [List.forall_mem_append, hothers, shallow_cons]
      refine and_congr_left fun _ => ?_
      cases node with
      | file data => simp [emittedNode, innerEntries]
      | dir tree =>
          rw [placeNode] at hnode
          obtain ⟨⟨inner, fs₃⟩, hplace, hnode⟩ := bind_eq_ok.mp hnode
          obtain ⟨⟨first, fs₄⟩, hclose, -⟩ := bind_eq_ok.mp hnode
          obtain ⟨hgood₃, hext₃, -⟩ := placeEntries_spec hcs hplace hgood
          obtain ⟨-, -, rfl, -⟩ := closeDir_spec hcs hclose hgood₃
          have hlater : parent < fs₃.nextFree := hlt.trans_le hext₃.nextFree
          rw [emittedNode_dir hplace hclose, List.forall_mem_cons]
          constructor
          · rintro ⟨-, hall⟩ e he
            by_contra hdir
            obtain ⟨d, hd, hparent⟩ := exists_emitted fs₃.nextFree hplace
              ⟨e, he, by simpa using hdir⟩
            have hsame := hall d hd
            omega
          · intro hfiles
            have hfiles : ∀ d ∈ tree, isDir d.2 = false := hfiles
            rw [emittedEntries_files hfiles]
            exact ⟨rfl, fun d hd => absurd hd List.not_mem_nil⟩

theorem shortNames_padded {ss : List (List UInt8)} (h : ∀ s ∈ ss, s.length = 32) (j : ℕ) :
    shortNames (ss.flatten ++ List.replicate (32 * j) 0) =
      (ss.filter isShortSlot).map fun s => s.take 11 := by
  have hzero : (List.replicate j (List.replicate 32 (0 : UInt8))).filter isShortSlot = [] := by
    rw [List.filter_eq_nil_iff]
    intro s hs
    rw [(List.mem_replicate.mp hs).2]
    decide
  rw [shortNames, slots_padded h, List.filter_append, hzero, List.append_nil]

theorem nodup_shortNames {ss : List (List UInt8)} {placed : List (String × Placed)}
    {t : FileTree} (hnames : placed.map Prod.fst = t.map Prod.fst)
    (h : ((ss.filter isShortSlot).map fun s => some (s.take 11)) =
      placed.map fun e => shortOf e.1) :
    ((ss.filter isShortSlot).map fun s => s.take 11).Nodup ↔ NamesApart t := by
  have hmap : (t.map fun e => shortOf e.1) =
      ((ss.filter isShortSlot).map fun s => s.take 11).map some := by
    have hsame := congrArg (List.map shortOf) hnames
    rw [List.map_map, List.map_map] at hsame
    rw [List.map_map]
    exact (h.trans hsame).symm
  have hsome : ∀ e ∈ t, (shortOf e.1).isSome := by
    intro e he
    have hmem : shortOf e.1 ∈ ((ss.filter isShortSlot).map fun s => s.take 11).map some :=
      hmap ▸ List.mem_map_of_mem he
    obtain ⟨short, -, hshort⟩ := List.mem_map.mp hmem
    rw [← hshort]
    rfl
  rw [← List.nodup_map_iff (Option.some_injective _), ← hmap, NamesApart,
    List.nodup_iff_pairwise_ne, List.pairwise_map, List.pairwise_map]
  exact List.Pairwise.iff_of_mem fun he he' => not_congr (shortOf_eq_iff (hsome _ he) (hsome _ he'))

section Read

variable {cs size : ℕ} {t : FileTree} {img : List UInt8} {fs : Fat}
  {placed : List (String × Placed)} {entries : List UInt8}

/-- The clusters of data, as a reader of the image finds them. -/
theorem Built.clustersIn_holds (h : Built cs size t img fs placed entries) {first : ℕ}
    {data : List UInt8} (hholds : Holds cs fs first data) :
    clustersIn img first (first + clustersFor cs data.length) =
      data ++ List.replicate (clustersFor cs data.length * (cs * SECTOR) - data.length) 0 := by
  obtain ⟨hgeometry, hshows, -⟩ := h.seen
  rw [clustersIn, hgeometry, Nat.add_sub_cancel_left]
  exact chainBytes_holds h.pos hshows hholds

theorem Built.root_names (h : Built cs size t img fs placed entries) :
    (shortNames (clustersIn img 2 3)).Nodup ↔ NamesApart t := by
  have hone := clustersFor_one h.pos
  have hsmall := h.small
  have hlen := rootBytes_length hsmall
  have hread := h.clustersIn_holds h.root
  rw [hlen, hone, Nat.one_mul, Nat.sub_self, List.replicate_zero, List.append_nil] at hread
  obtain ⟨ss, rfl, hss, hnames⟩ := placedEntries_slots h.placed
  have hpad : cs * SECTOR - ss.flatten.length = 32 * (cs * 16 - ss.length) := by
    rw [flatten_length hss, SECTOR]
    omega
  rw [hread, rootBytes, hpad, shortNames_padded hss]
  exact nodup_shortNames h.laid.names hnames

/-- An emitted directory is right exactly when it is in the root and its names
have different short names. -/
theorem Built.sound_iff (h : Built cs size t img fs placed entries) {low : ℕ} {d : Emitted}
    {dt : FileTree} (hd : DirAt cs fs low d dt) :
    d.Sound img ↔ d.parent = 2 ∧ NamesApart dt := by
  obtain ⟨inner, bytes, hbytes, hnames, hholds, hstop⟩ := hd.laid
  have hread := h.clustersIn_holds hholds
  rw [dirBytes_length, ← hstop] at hread
  obtain ⟨ss, rfl, hss, hshort⟩ := placedEntries_slots hbytes
  generalize hk : clustersFor cs (64 + ss.flatten.length) = k at hread hstop
  have hroom := le_clustersFor_mul h.pos (64 + ss.flatten.length)
  rw [hk, flatten_length hss] at hroom
  have hdot : ∀ c, (shortSlot dotName 0x10 c 0).length = 32 :=
    fun c => shortSlot_length dotName_length
  have hdotdot : (shortSlot dotdotName 0x10 0 0).length = 32 := shortSlot_length dotdotName_length
  generalize hpad : List.replicate (k * (cs * SECTOR) - (64 + ss.flatten.length)) (0 : UInt8) = pad
    at hread
  have hslots : clustersIn img d.first d.stop = shortSlot dotName 0x10 d.first 0 ++
      (shortSlot dotdotName 0x10 0 0 ++ (ss.flatten ++ pad)) := by
    rw [hread, dirBytes, List.append_assoc, List.append_assoc]
  have hfirst : slice (clustersIn img d.first d.stop) 0 32 = shortSlot dotName 0x10 d.first 0 := by
    rw [hslots, slice, List.drop_zero]
    exact List.take_left' (hdot _)
  have hsecond : slice (clustersIn img d.first d.stop) 32 32 = shortSlot dotdotName 0x10 0 0 := by
    rw [hslots, slice, List.drop_left' (hdot _)]
    exact List.take_left' hdotdot
  have hname : ∀ off, slice (clustersIn img d.first d.stop) off 11 =
      (slice (clustersIn img d.first d.stop) off 32).take 11 := by
    intro off
    rw [slice, slice, List.take_take]
    rfl
  have hfiltered : shortNames (clustersIn img d.first d.stop) =
      dotName :: dotdotName :: (ss.filter isShortSlot).map fun s => s.take 11 := by
    have hall : ∀ s ∈ shortSlot dotName 0x10 d.first 0 :: shortSlot dotdotName 0x10 0 0 :: ss,
        s.length = 32 :=
      List.forall_mem_cons.mpr ⟨hdot _, List.forall_mem_cons.mpr ⟨hdotdot, hss⟩⟩
    have hcount : k * (cs * SECTOR) - (64 + ss.flatten.length) =
        32 * (16 * (k * cs) - 2 - ss.length) := by
      rw [flatten_length hss, ← Nat.mul_assoc, SECTOR]
      omega
    have hnames := shortNames_padded hall (16 * (k * cs) - 2 - ss.length)
    rw [← hcount, hpad, List.flatten_cons, List.flatten_cons, List.append_assoc,
      List.append_assoc, ← hslots] at hnames
    rw [hnames, List.filter_cons_of_pos
      (isShortSlot_shortSlot dotName_length (by decide) (by decide)),
      List.filter_cons_of_pos (isShortSlot_shortSlot dotdotName_length (by decide) (by decide)),
      List.map_cons, List.map_cons, shortSlot_take dotName_length, shortSlot_take dotdotName_length]
  have hdistinct := nodup_shortNames hnames hshort
  constructor
  · rintro ⟨-, ⟨-, hparent⟩, hnodup⟩
    have htwo := hd.parent
    rw [hsecond, slotCluster, shortSlot_cluster dotdotName_length (Nat.two_pow_pos 32)] at hparent
    rw [hfiltered] at hnodup
    refine ⟨?_, hdistinct.mp (List.nodup_cons.mp (List.nodup_cons.mp hnodup).2).2⟩
    by_contra hne
    rw [if_neg hne] at hparent
    omega
  · rintro ⟨hparent, hshorts⟩
    have hplain : ∀ short ∈ (ss.filter isShortSlot).map (fun s => s.take 11),
        short ≠ dotName ∧ short ≠ dotdotName := by
      intro short hmem
      obtain ⟨s, hs, rfl⟩ := List.mem_map.mp hmem
      have hsome : some (s.take 11) ∈ inner.map fun e => shortOf e.1 :=
        hshort ▸ List.mem_map_of_mem hs
      obtain ⟨e, -, he⟩ := List.mem_map.mp hsome
      exact shortOf_plain he
    refine ⟨⟨?_, ?_⟩, ⟨?_, ?_⟩, ?_⟩
    · rw [hname, hfirst, shortSlot_take dotName_length]
    · rw [hfirst, slotCluster, shortSlot_cluster dotName_length hd.number]
    · rw [hname, hsecond, shortSlot_take dotdotName_length]
    · rw [hsecond, slotCluster, shortSlot_cluster dotdotName_length (Nat.two_pow_pos 32),
        if_pos hparent]
    · rw [hfiltered, List.nodup_cons, List.nodup_cons]
      refine ⟨?_, fun hmem => (hplain _ hmem).2 rfl, hdistinct.mpr hshorts⟩
      intro hmem
      rcases List.mem_cons.mp hmem with heq | hmem
      · exact absurd heq (by decide)
      · exact (hplain _ hmem).1 rfl

end Read

theorem isDir_sortedNode (node : FileNode) : isDir (sortedNode node) = isDir node := by
  cases node with
  | file data => rw [sortedNode]
  | dir entries =>
      rw [sortedNode]
      rfl

theorem files_sorted (t : FileTree) :
    (∀ e ∈ sorted t, isDir e.2 = false) ↔ ∀ e ∈ t, isDir e.2 = false := by
  induction t with
  | nil => rw [sorted]
  | cons e rest ih =>
      obtain ⟨name, node⟩ := e
      rw [sorted, forall_insertEntry, List.forall_mem_cons, ih, isDir_sortedNode]

theorem shallow_sorted (t : FileTree) : Shallow (sorted t) ↔ Shallow t := by
  induction t with
  | nil => rw [sorted]
  | cons e rest ih =>
      obtain ⟨name, node⟩ := e
      rw [Shallow] at ih
      rw [Shallow, sorted, forall_insertEntry, ih, shallow_cons]
      refine and_congr_left fun _ => ?_
      cases node with
      | file data => rw [sortedNode]
      | dir entries =>
          rw [sortedNode]
          exact files_sorted entries

theorem Alike.symm {a b : String} (h : Alike a b) : Alike b a :=
  ⟨fun i hi => (h.1 i hi).symm, fun i hi => (h.2 i hi).symm⟩

theorem namesApart_sorted (t : FileTree) : NamesApart (sorted t) ↔ NamesApart t :=
  (names_sorted t).pairwise_iff fun h hsymm => h hsymm.symm

theorem forall₂_forall_iff {α β : Type} {R : α → β → Prop} {p p' : α → Prop} {q : β → Prop}
    {l : List α} {l' : List β} (h : List.Forall₂ R l l')
    (hpq : ∀ a b, R a b → (p a ↔ p' a ∧ q b)) :
    (∀ a ∈ l, p a) ↔ (∀ a ∈ l, p' a) ∧ ∀ b ∈ l', q b := by
  induction h with
  | nil => simp
  | cons hab _ ih =>
      rw [List.forall_mem_cons, List.forall_mem_cons, List.forall_mem_cons, ih, hpq _ _ hab,
        and_and_and_comm]

theorem build_dirs {cs : ℕ} {size : ℤ} {tree : FileTree} {img : List UInt8}
    (h : build cs size tree = .ok img) :
    ∃ fs placed entries, Built cs size.toNat (sorted tree) img fs placed entries ∧
      List.Forall₂ (DirAt cs fs 3) (emitted cs size tree) (treeDirs (sorted tree)) ∧
      ((∀ d ∈ emitted cs size tree, d.parent = 2) ↔ Shallow (sorted tree)) := by
  obtain ⟨fs₁, fs₂, placed, entries, halloc, hgood, hfree, hplace, hbuilt⟩ := buildSorted_states h
  have hdirs : emitted cs size tree = emittedEntries cs 2 (sorted tree) fs₁ := by
    simp only [emitted, halloc]
  have hlaid := emittedEntries_dirs hbuilt.pos hplace hgood (Nat.le_refl 2)
  have hparent := emitted_parent_iff hbuilt.pos hplace hgood (show 2 < fs₁.nextFree by omega)
  rw [hfree] at hlaid
  refine ⟨_, placed, entries, hbuilt, ?_, hdirs ▸ hparent⟩
  rw [hdirs]
  refine hlaid.imp fun d t hd => hd.congr (fun c hc _ => ⟨rfl, ?_⟩) (Nat.le_refl _)
  rw [patched, lookup_setItem, if_neg (by omega)]

section Sound

variable {cs : ℕ} {size : ℤ} {tree : FileTree} {img : List UInt8}
  (h : build cs size tree = .ok img)

include h

theorem inner_sound_iff : (∀ d ∈ emitted cs size tree, d.Sound img) ↔
    Shallow tree ∧ InnerDirs NamesApart (sorted tree) := by
  obtain ⟨fs, placed, entries, hbuilt, hdirs, hparents⟩ := build_dirs h
  have hinner : (∀ d ∈ emitted cs size tree, d.Sound img) ↔
      (∀ d ∈ emitted cs size tree, d.parent = 2) ∧
        ∀ t ∈ treeDirs (sorted tree), NamesApart t :=
    forall₂_forall_iff hdirs fun d t hd => hbuilt.sound_iff hd
  rw [hinner, hparents, shallow_sorted, treeDirs_iff]

theorem root_sound_iff : (shortNames (clustersIn img 2 3)).Nodup ↔ NamesApart (sorted tree) := by
  obtain ⟨fs, placed, entries, hbuilt, -, -⟩ := build_dirs h
  exact hbuilt.root_names

/-- The directories of an image are right exactly when no directory is in a
subdirectory and no two names of one are alike: `..` always names the root, and a short name is
only the name cut off. -/
theorem build_dirsSound_iff :
    DirsSound cs size tree img ↔ Shallow tree ∧ AllDirs NamesApart tree := by
  have hall : AllDirs NamesApart (sorted tree) ↔ AllDirs NamesApart tree :=
    AllDirs.sorted_iff namesApart_sorted
  rw [← hall]
  constructor
  · rintro ⟨hroot, hsound⟩
    obtain ⟨hshallow, hnames⟩ := (inner_sound_iff h).mp hsound
    exact ⟨hshallow, (root_sound_iff h).mp hroot, hnames⟩
  · rintro ⟨hshallow, hroot, hnames⟩
    exact ⟨(root_sound_iff h).mpr hroot, (inner_sound_iff h).mpr ⟨hshallow, hnames⟩⟩

end Sound

/-- An ESP with one directory. -/
def plainTree : FileTree := [("EFI", .dir [("BOOTX64.EFI", .file [0x4d, 0x5a, 0x90])])]

theorem build_dirsSound_plain : ∃ img, build 2 134217728 plainTree = .ok img ∧
    DirsSound 2 134217728 plainTree img := by
  have hbuild : ∃ img, build 2 ((262144 : ℕ) * SECTOR : ℤ) plainTree = .ok img :=
    build_ok (by decide) (by decide) (by decide) (by decide) (by decide) (by decide)
      (by decide) (by decide) (by decide) (by decide)
  obtain ⟨img, himg⟩ := hbuild
  exact ⟨img, himg, (build_dirsSound_iff himg).mpr ⟨by decide, by decide⟩⟩

/-- `EFI/BOOT` is emitted with the root as its parent. -/
theorem build_sample_not_dirsSound : ∃ img, build 2 134217728 sampleTree = .ok img ∧
    ¬ DirsSound 2 134217728 sampleTree img := by
  have hbuild : ∃ img, build 2 ((262144 : ℕ) * SECTOR : ℤ) sampleTree = .ok img :=
    build_ok (by decide) (by decide) (by decide) (by decide) (by decide) (by decide)
      (by decide) (by decide) (by decide) (by decide)
  obtain ⟨img, himg⟩ := hbuild
  refine ⟨img, himg, fun hsound => ?_⟩
  obtain ⟨hshallow, -⟩ := (inner_sound_iff himg).mp hsound.inner
  exact absurd hshallow (by decide)

end Veron.MkFat
