/-
What `copy_tree` leaves: one new inode for every inode that was met, under the
same names, and when it is the inode that was copied.
-/
import Mathlib.Data.List.Nodup
import Mathlib.Data.List.TakeWhile
import Veron.CopyTree

namespace Veron.CopyTree

inductive Item where
  | file (ino : ℕ)
  | dir (st : Attr)
  | mount (st : Attr)
deriving DecidableEq

def path (dst name : Text) : Text := dst ++ slash :: name

/-- The entries that are copied, by their paths in the destination. -/
def Listing.entries : Listing → Text → List (Text × Item)
  | .nil, _ => []
  | .file name ino rest, dst => (path dst name, .file ino) :: rest.entries dst
  | .dir name st sub rest, dst =>
      (path dst name, .dir st) :: (sub.entries (path dst name) ++ rest.entries dst)
  | .mount name st rest, dst => (path dst name, .mount st) :: rest.entries dst
  | .foreign _ rest, dst => rest.entries dst

attribute [local simp] Listing.entries

/-- The names in the directory itself. -/
def Listing.names : Listing → List Text
  | .nil => []
  | .file name _ rest => name :: rest.names
  | .dir name _ _ rest => name :: rest.names
  | .mount name _ rest => name :: rest.names
  | .foreign name rest => name :: rest.names

/-- Names without a slash, each once in a directory. -/
def Listing.Ok : Listing → Prop
  | .nil => True
  | .file name _ rest => slash ∉ name ∧ name ∉ rest.names ∧ rest.Ok
  | .dir name _ sub rest => slash ∉ name ∧ name ∉ rest.names ∧ sub.Ok ∧ rest.Ok
  | .mount name _ rest => slash ∉ name ∧ name ∉ rest.names ∧ rest.Ok
  | .foreign name rest => slash ∉ name ∧ name ∉ rest.names ∧ rest.Ok

/-- The inodes of the entries, once for every name. -/
def Listing.inos : Listing → List ℕ
  | .nil => []
  | .file _ ino rest => ino :: rest.inos
  | .dir _ _ sub rest => sub.inos ++ rest.inos
  | .mount _ _ rest => rest.inos
  | .foreign _ rest => rest.inos

/-- A tree as there can be one: an inode with two names has two links, a symbolic link
has its one mode and a target that is a path. -/
structure Tree (src : Source) where
  listing : Listing
  ok : listing.Ok
  linked : ∀ ino, 1 < listing.inos.count ino → 1 < src.nlink ino
  symlinks : ∀ ino ∈ listing.inos, ∀ target, src.content ino = .symlink target →
    (src.attr ino).mode = 0o777#12 ∧ target.length < 4096

/-- A path below a directory. -/
def Below (dst t : Text) : Prop := ∃ x, t = path dst x

theorem Below.trans {t t' t'' : Text} (h : Below t t') (h' : Below t' t'') : Below t t'' := by
  obtain ⟨x, rfl⟩ := h
  obtain ⟨y, rfl⟩ := h'
  exact ⟨x ++ slash :: y, by simp [path]⟩

theorem not_below_self (t : Text) : ¬ Below t t := by
  rintro ⟨x, hx⟩
  have hlen := congrArg List.length hx
  simp [path] at hlen

/-- A path below a directory begins with one of its names. -/
theorem exists_name {l : Listing} {dst t : Text} {item : Item} (h : (t, item) ∈ l.entries dst) :
    ∃ name ∈ l.names, t = path dst name ∨ Below (path dst name) t := by
  induction l generalizing dst t with
  | nil => cases h
  | file name ino rest ih =>
      rcases List.mem_cons.mp h with heq | hrest
      · exact ⟨name, List.mem_cons_self, .inl (congrArg Prod.fst heq)⟩
      · obtain ⟨name', hmem, hpath⟩ := ih hrest
        exact ⟨name', List.mem_cons_of_mem _ hmem, hpath⟩
  | dir name st sub rest ihsub ih =>
      rcases List.mem_cons.mp h with heq | hmore
      · exact ⟨name, List.mem_cons_self, .inl (congrArg Prod.fst heq)⟩
      · rcases List.mem_append.mp hmore with hsub | hrest
        · obtain ⟨name', -, hpath⟩ := ihsub hsub
          refine ⟨name, List.mem_cons_self, .inr ?_⟩
          rcases hpath with rfl | ⟨x, rfl⟩
          · exact ⟨name', rfl⟩
          · exact ⟨name' ++ slash :: x, by simp [path]⟩
        · obtain ⟨name', hmem, hpath⟩ := ih hrest
          exact ⟨name', List.mem_cons_of_mem _ hmem, hpath⟩
  | mount name st rest ih =>
      rcases List.mem_cons.mp h with heq | hrest
      · exact ⟨name, List.mem_cons_self, .inl (congrArg Prod.fst heq)⟩
      · obtain ⟨name', hmem, hpath⟩ := ih hrest
        exact ⟨name', List.mem_cons_of_mem _ hmem, hpath⟩
  | foreign name rest ih =>
      obtain ⟨name', hmem, hpath⟩ := ih h
      exact ⟨name', List.mem_cons_of_mem _ hmem, hpath⟩

/-- The first name of a path. -/
def firstName (dst t : Text) : Text := (t.drop (dst.length + 1)).takeWhile (· != slash)

theorem firstName_eq {dst name t : Text} (hname : slash ∉ name)
    (h : t = path dst name ∨ Below (path dst name) t) : firstName dst t = name := by
  have hall : ∀ c ∈ name, (c != slash) = true := by
    intro c hc
    have hne : c ≠ slash := fun heq => hname (heq ▸ hc)
    simp [hne]
  have hdrop : ∀ x, (dst ++ slash :: x).drop (dst.length + 1) = x := by
    intro x
    rw [← List.drop_drop, List.drop_left]
    rfl
  rw [firstName]
  rcases h with rfl | ⟨x, rfl⟩
  · rw [path, hdrop, List.takeWhile_eq_self_iff]
    exact hall
  · rw [path, path, List.append_assoc, List.cons_append, hdrop, List.takeWhile_append_of_pos hall,
      List.takeWhile_cons_of_neg (by simp), List.append_nil]

theorem Listing.Ok.name {l : Listing} (h : l.Ok) : ∀ name ∈ l.names, slash ∉ name := by
  induction l with
  | nil => exact fun _ hmem => nomatch hmem
  | file name ino rest ih => exact List.forall_mem_cons.mpr ⟨h.1, ih h.2.2⟩
  | dir name st sub rest _ ih => exact List.forall_mem_cons.mpr ⟨h.1, ih h.2.2.2⟩
  | mount name st rest ih => exact List.forall_mem_cons.mpr ⟨h.1, ih h.2.2⟩
  | foreign name rest ih => exact List.forall_mem_cons.mpr ⟨h.1, ih h.2.2⟩

theorem firstName_mem {l : Listing} (hok : l.Ok) {dst t : Text} {item : Item}
    (h : (t, item) ∈ l.entries dst) : firstName dst t ∈ l.names := by
  obtain ⟨name, hmem, hpath⟩ := exists_name h
  rw [firstName_eq (hok.name name hmem) hpath]
  exact hmem

theorem path_ne_of_mem {l : Listing} (hok : l.Ok) {dst name t : Text} {item : Item}
    (hname : slash ∉ name) (hnew : name ∉ l.names) (h : (t, item) ∈ l.entries dst) :
    t ≠ path dst name ∧ ¬ Below (path dst name) t := by
  have hmem := firstName_mem hok h
  constructor
  · rintro rfl
    rw [firstName_eq hname (.inl rfl)] at hmem
    exact hnew hmem
  · intro hbelow
    rw [firstName_eq hname (.inr hbelow)] at hmem
    exact hnew hmem

theorem below_of_mem {l : Listing} {dst t : Text} {item : Item} (h : (t, item) ∈ l.entries dst) :
    Below dst t := by
  obtain ⟨name, -, rfl | ⟨x, rfl⟩⟩ := exists_name h
  · exact ⟨name, rfl⟩
  · exact ⟨name ++ slash :: x, by simp [path]⟩

/-- Nor is a path of one name below an entry of another. -/
theorem not_below_of_mem {l : Listing} (hok : l.Ok) {dst name t t' : Text} {item : Item}
    (hname : slash ∉ name) (hnew : name ∉ l.names) (h : (t, item) ∈ l.entries dst)
    (ht' : t' = path dst name ∨ Below (path dst name) t') : ¬ Below t t' := by
  intro hbelow
  obtain ⟨other, hother, hpath⟩ := exists_name h
  have hunder : Below (path dst other) t' := by
    rcases hpath with rfl | hunder
    · exact hbelow
    · exact hunder.trans hbelow
  have hsame := firstName_eq hname ht'
  rw [firstName_eq (hok.name other hother) (.inr hunder)] at hsame
  exact hnew (hsame ▸ hother)

theorem path_notMem {l : Listing} (hok : l.Ok) {name : Text} (hname : slash ∉ name)
    (hnew : name ∉ l.names) (dst : Text) : path dst name ∉ (l.entries dst).map Prod.fst := by
  intro hmem
  obtain ⟨⟨t, item⟩, hentry, heq⟩ := List.mem_map.mp hmem
  exact (path_ne_of_mem hok hname hnew hentry).1 heq

/-- No path stands for two entries. -/
theorem Listing.Ok.nodup {l : Listing} (hok : l.Ok) (dst : Text) :
    ((l.entries dst).map Prod.fst).Nodup := by
  induction l generalizing dst with
  | nil => exact List.nodup_nil
  | file name ino rest ih =>
      obtain ⟨hname, hnew, hrest⟩ := hok
      exact List.nodup_cons.mpr ⟨path_notMem hrest hname hnew dst, ih hrest dst⟩
  | dir name st sub rest ihsub ih =>
      obtain ⟨hname, hnew, hsub, hrest⟩ := hok
      have hbelow : ∀ t ∈ (sub.entries (path dst name)).map Prod.fst, Below (path dst name) t := by
        intro t ht
        obtain ⟨⟨t', item⟩, hentry, rfl⟩ := List.mem_map.mp ht
        exact below_of_mem hentry
      rw [Listing.entries, List.map_cons, List.map_append, List.nodup_cons, List.mem_append, not_or,
        List.nodup_append]
      refine ⟨⟨fun h => not_below_self _ (hbelow _ h), path_notMem hrest hname hnew dst⟩,
        ihsub hsub _, ih hrest dst, ?_⟩
      rintro t ht t' ht' rfl
      obtain ⟨⟨t'', item⟩, hentry, rfl⟩ := List.mem_map.mp ht'
      exact (path_ne_of_mem hrest hname hnew hentry).2 (hbelow _ ht)
  | mount name st rest ih =>
      obtain ⟨hname, hnew, hrest⟩ := hok
      exact List.nodup_cons.mpr ⟨path_notMem hrest hname hnew dst, ih hrest dst⟩
  | foreign name rest ih => exact ih hok.2.2 dst

/-- What is another device's is not entered. -/
theorem not_below_mount {l : Listing} (hok : l.Ok) {dst t t' : Text} {st : Attr} {item : Item}
    (h : (t, .mount st) ∈ l.entries dst) (h' : (t', item) ∈ l.entries dst) : ¬ Below t t' := by
  induction l generalizing dst with
  | nil => cases h
  | file name ino rest ih =>
      obtain ⟨hname, hnew, hrest⟩ := hok
      have hmem : (t, .mount st) ∈ rest.entries dst := by simpa [Listing.entries] using h
      rcases List.mem_cons.mp h' with heq | hmem'
      · exact not_below_of_mem hrest hname hnew hmem (.inl (congrArg Prod.fst heq))
      · exact ih hrest hmem hmem'
  | dir name st' sub rest ihsub ih =>
      obtain ⟨hname, hnew, hsub, hrest⟩ := hok
      have hmem : (t, .mount st) ∈ sub.entries (path dst name) ++ rest.entries dst := by
        simpa [Listing.entries] using h
      rcases List.mem_append.mp hmem with hin | hmem
      · have hunder := below_of_mem hin
        rcases List.mem_cons.mp h' with heq | hmore
        · obtain rfl : t' = path dst name := congrArg Prod.fst heq
          exact fun hbelow => not_below_self _ (hunder.trans hbelow)
        · rcases List.mem_append.mp hmore with hin' | hmem'
          · exact ihsub hsub hin hin'
          · exact fun hbelow => (path_ne_of_mem hrest hname hnew hmem').2 (hunder.trans hbelow)
      · rcases List.mem_cons.mp h' with heq | hmore
        · exact not_below_of_mem hrest hname hnew hmem (.inl (congrArg Prod.fst heq))
        · rcases List.mem_append.mp hmore with hin' | hmem'
          · exact not_below_of_mem hrest hname hnew hmem (.inr (below_of_mem hin'))
          · exact ih hrest hmem hmem'
  | mount name st' rest ih =>
      obtain ⟨hname, hnew, hrest⟩ := hok
      rcases List.mem_cons.mp h with heq | hmem
      · obtain rfl : t = path dst name := congrArg Prod.fst heq
        rcases List.mem_cons.mp h' with heq' | hmem'
        · obtain rfl : t' = path dst name := congrArg Prod.fst heq'
          exact not_below_self _
        · exact (path_ne_of_mem hrest hname hnew hmem').2
      · rcases List.mem_cons.mp h' with heq' | hmem'
        · exact not_below_of_mem hrest hname hnew hmem (.inl (congrArg Prod.fst heq'))
        · exact ih hrest hmem hmem'
  | foreign name rest ih => exact ih hok.2.2 h h'

variable {src : Source} {umask : BitVec 12} {dev : ℕ}

def Attr.inode (st : Attr) : Inode := ⟨none, st⟩

/-- The inode a copy has: a node made with `mknod` keeps the mode the mask and the
change of owner left. -/
def Source.copied (src : Source) (umask : BitVec 12) (ino : ℕ) : Inode :=
  { content := some (src.content ino)
    attr :=
      if (src.content ino).special then
        { src.attr ino with mode := clearSetId ((src.attr ino).mode &&& ~~~umask) }
      else src.attr ino }

/-- The inode of the source. -/
def Source.inode (src : Source) (ino : ℕ) : Inode := ⟨some (src.content ino), src.attr ino⟩

@[simp] theorem modify_create (fs : Fs) (t : Text) (node : Inode) (f : Inode → Inode) :
    (fs.create t node).modify t f = fs.create t (f node) := by
  have hname : (fs.create t node).names t = some fs.next := Function.update_self ..
  have hnode : (fs.create t node).inodes fs.next = node := Function.update_self ..
  rw [Fs.modify]
  split
  · rename_i hnone
    rw [hname] at hnone
    cases hnone
  · rename_i i hi
    obtain rfl : fs.next = i := Option.some.inj (hname.symm.trans hi)
    rw [hnode]
    exact Fs.ext rfl (Function.update_idem ..) rfl

theorem modify_names (fs : Fs) (t : Text) (f : Inode → Inode) :
    (fs.modify t f).names = fs.names := by
  rw [Fs.modify]
  split <;> rfl

theorem modify_next (fs : Fs) (t : Text) (f : Inode → Inode) : (fs.modify t f).next = fs.next := by
  rw [Fs.modify]
  split <;> rfl

theorem modify_inodes {fs : Fs} {t : Text} {i : ℕ} (h : fs.names t = some i) (f : Inode → Inode) :
    (fs.modify t f).inodes = Function.update fs.inodes i (f (fs.inodes i)) := by
  rw [Fs.modify]
  split
  · rename_i hnone
    rw [h] at hnone
    cases hnone
  · rename_i j hj
    obtain rfl : i = j := Option.some.inj (h.symm.trans hj)
    rfl

theorem clearSetId_symlink : clearSetId 0o777#12 = 0o777#12 := by decide

section

variable {fs : Fs} {t : Text}

/-- A directory of another device. -/
theorem mount_new (hnew : fs.names t = none) (st : Attr) :
    ((fs.mkdir umask t st.mode).chown t st.uid st.gid).chmod t st.mode = fs.create t st.inode := by
  have hmkdir : fs.mkdir umask t st.mode = fs.new umask t none st.mode := if_neg (by simp [hnew])
  rw [hmkdir, Fs.new, Fs.chown, modify_create, Fs.chmod, modify_create]
  rfl

theorem enter_new (hnew : fs.names t = none) (st : Attr) :
    fs.mkdir umask t st.mode = fs.create t ⟨none, st.mode &&& ~~~umask, 0, 0⟩ :=
  if_neg (by simp [hnew])

theorem copyFile_new (hnew : fs.names t = none) (bytes : List UInt8) (st : Attr) :
    copyFile umask fs bytes t st = fs.create t ⟨some (.reg bytes), st⟩ := by
  have hopen : fs.openTrunc umask t st.mode = fs.new umask t (some (.reg [])) st.mode :=
    if_neg (by simp [hnew])
  rw [copyFile, hopen, Fs.new, Fs.append, modify_create, Fs.chown, modify_create, Fs.chmod,
    modify_create]
  rfl

theorem symlink_new (hnew : fs.names t = none) {target : Text} {st : Attr}
    (hmode : st.mode = 0o777#12) (hlen : target.length < 4096) :
    (fs.symlink (target.take 4095) t).chown t st.uid st.gid =
      fs.create t ⟨some (.symlink target), st⟩ := by
  have hlink : fs.symlink (target.take 4095) t =
      fs.create t ⟨some (.symlink (target.take 4095)), 0o777#12, 0, 0⟩ := if_neg (by simp [hnew])
  rw [hlink, Fs.chown, modify_create, List.take_of_length_le (by omega)]
  obtain ⟨mode, uid, gid⟩ := st
  obtain rfl : mode = 0o777#12 := hmode
  have hchown : Inode.chown uid gid ⟨some (.symlink target), ⟨0o777#12, 0, 0⟩⟩ =
      ⟨some (.symlink target), ⟨0o777#12, uid, gid⟩⟩ := by
    rw [Inode.chown, if_neg (by simp), clearSetId_symlink]
  rw [hchown]

theorem mknod_new (hnew : fs.names t = none) (content : Content) (st : Attr) :
    (fs.mknod umask t st.mode content).chown t st.uid st.gid = fs.create t
      ⟨some content, { st with mode := clearSetId (st.mode &&& ~~~umask) }⟩ := by
  have hnode : fs.mknod umask t st.mode content = fs.new umask t (some content) st.mode :=
    if_neg (by simp [hnew])
  rw [hnode, Fs.new, Fs.chown, modify_create]
  rfl

/-- A file that is not linked to one already copied. -/
theorem copyEntry_new {s : State} {ino : ℕ} (hnew : s.fs.names t = none)
    (hsymlink : ∀ target, src.content ino = .symlink target →
      (src.attr ino).mode = 0o777#12 ∧ target.length < 4096)
    (hunseen : 1 < src.nlink ino → linkSeen s.links dev ino = none) :
    copyEntry umask src dev ino t s =
      { fs := s.fs.create t (src.copied umask ino)
        links := if 1 < src.nlink ino then linkRemember s.links dev ino t else s.links } := by
  have hlinked : (if 1 < src.nlink ino then
      (linkSeen s.links dev ino).bind fun first => s.fs.link first t else none) = none := by
    split_ifs with h
    · rw [hunseen h]
      rfl
    · rfl
  rw [copyEntry, hlinked]
  dsimp only
  rw [Source.copied]
  cases hcontent : src.content ino with
  | reg bytes => simp only [copyFile_new hnew, Content.special, Bool.false_eq_true, if_false]
  | symlink target =>
      obtain ⟨hmode, hlen⟩ := hsymlink target hcontent
      simp only [symlink_new hnew hmode hlen, Content.special, Bool.false_eq_true, if_false]
  | chr rdev => simp only [mknod_new hnew, Content.special, if_true]
  | blk rdev => simp only [mknod_new hnew, Content.special, if_true]
  | fifo => simp only [mknod_new hnew, Content.special, if_true]
  | sock => simp only [mknod_new hnew, Content.special, if_true]

end

/-- A file that is linked to the first name of its inode. -/
theorem copyEntry_link {s : State} {ino i : ℕ} {first t : Text} (hnew : s.fs.names t = none)
    (hlinks : 1 < src.nlink ino) (hseen : linkSeen s.links dev ino = some first)
    (hfirst : s.fs.names first = some i) :
    ∃ fs', copyEntry umask src dev ino t s = { s with fs := fs' } ∧
      fs'.names = Function.update s.fs.names t (some i) ∧ fs'.inodes = s.fs.inodes ∧
      fs'.next = s.fs.next := by
  obtain ⟨fs', hlink, hnames, hinodes, hnext⟩ : ∃ fs', s.fs.link first t = some fs' ∧
      fs'.names = Function.update s.fs.names t (some i) ∧ fs'.inodes = s.fs.inodes ∧
      fs'.next = s.fs.next := by
    rw [Fs.link]
    split
    · rename_i j hj _
      obtain rfl : i = j := Option.some.inj (hfirst.symm.trans hj)
      exact ⟨_, rfl, rfl, rfl, rfl⟩
    · rename_i h
      exact absurd hnew (h i hfirst)
  refine ⟨fs', ?_, hnames, hinodes, hnext⟩
  rw [copyEntry, if_pos hlinks, hseen, Option.bind_some, hlink]

section

variable (src umask dev)

/-- What an entry's inode is; a directory that is open has not got its attributes. -/
def Item.Holds (opened : List Text) (t : Text) : Item → Inode → Prop
  | .file ino, node => node = src.copied umask ino
  | .dir st, node => node.content = none ∧ (t ∉ opened → node = st.inode)
  | .mount st, node => node = st.inode

def Item.isDir : Item → Bool
  | .file _ => false
  | _ => true

/-- The table knows the first name of an inode with more than one link. -/
def Known (made : List (Text × Item)) (links : List Link) (ino : ℕ) : Prop :=
  (linkSeen links dev ino = none ∧ ∀ t, (t, .file ino) ∉ made) ∨
    ∃ t, linkSeen links dev ino = some t ∧ (t, .file ino) ∈ made

structure Inv (s₀ : State) (opened : List Text) (made : List (Text × Item)) (s : State) : Prop where
  nodup : (made.map Prod.fst).Nodup
  next_le : s₀.fs.next ≤ s.fs.next
  same : ∀ t, t ∉ made.map Prod.fst → s.fs.names t = s₀.fs.names t
  old : ∀ i, i < s₀.fs.next → s.fs.inodes i = s₀.fs.inodes i
  holds : ∀ t item, (t, item) ∈ made → ∃ i, s₀.fs.next ≤ i ∧ s.fs.names t = some i ∧
    item.Holds src umask opened t (s.fs.inodes i)
  /-- a directory has one name -/
  one : ∀ t t' item, (t, item) ∈ made → item.isDir → s.fs.names t' = s.fs.names t → t' = t
  shared : ∀ t t' ino ino', (t, .file ino) ∈ made → (t', .file ino') ∈ made →
    (s.fs.names t = s.fs.names t' ↔ ino = ino')
  known : ∀ ino, 1 < src.nlink ino → Known dev made s.links ino

end

theorem eq_of_nodup {made : List (Text × Item)} (h : (made.map Prod.fst).Nodup) {t : Text}
    {a b : Item} (ha : (t, a) ∈ made) (hb : (t, b) ∈ made) : a = b :=
  congrArg Prod.snd (List.inj_on_of_nodup_map h ha hb rfl)

theorem Item.Holds.mono {opened opened' : List Text} (hopened : ∀ t, t ∉ opened' → t ∉ opened)
    {t : Text} {item : Item} {node : Inode} (h : item.Holds src umask opened t node) :
    item.Holds src umask opened' t node := by
  cases item with
  | file ino => exact h
  | dir st => exact ⟨h.1, fun ht => h.2 (hopened t ht)⟩
  | mount st => exact h

namespace Inv

variable {s₀ s : State} {opened : List Text} {made : List (Text × Item)}

theorem mem_paths {t : Text} {item : Item} (h : (t, item) ∈ made) : t ∈ made.map Prod.fst :=
  List.mem_map_of_mem h

/-- A new inode under a new name. -/
theorem create (h : Inv src umask dev s₀ opened made s) {t : Text} {item : Item} {node : Inode}
    {opened' : List Text} {links : List Link} (ht : t ∉ made.map Prod.fst)
    (hopened : ∀ t', t' ∉ opened' → t' ∉ opened) (hholds : item.Holds src umask opened' t node)
    (hnew : ∀ ino, item = .file ino → ∀ t', (t', .file ino) ∉ made)
    (hknown : ∀ ino, 1 < src.nlink ino → Known dev (made ++ [(t, item)]) links ino) :
    Inv src umask dev s₀ opened' (made ++ [(t, item)]) ⟨s.fs.create t node, links⟩ := by
  have hself : (s.fs.create t node).names t = some s.fs.next := Function.update_self ..
  have hname : ∀ {t'}, t' ≠ t → (s.fs.create t node).names t' = s.fs.names t' :=
    fun hne => Function.update_of_ne hne ..
  have hinode : ∀ {i}, i < s.fs.next → (s.fs.create t node).inodes i = s.fs.inodes i :=
    fun hlt => Function.update_of_ne (Nat.ne_of_lt hlt) ..
  have hne : ∀ {t' item'}, (t', item') ∈ made → t' ≠ t := by
    rintro t' item' hmem rfl
    exact ht (mem_paths hmem)
  have hlt : ∀ {t' i}, s.fs.names t' = some i → i < s.fs.next := fun hi => s.fs.names_lt hi
  constructor
  · rw [List.map_append, List.map_singleton, List.nodup_append]
    refine ⟨h.nodup, List.nodup_singleton _, ?_⟩
    rintro t' ht' t'' ht'' rfl
    obtain rfl : t' = t := List.mem_singleton.mp ht''
    exact ht ht'
  · exact Nat.le_succ_of_le h.next_le
  · intro t' ht'
    rw [List.map_append, List.mem_append, not_or] at ht'
    rw [hname fun heq => ht'.2 (List.mem_singleton.mpr heq)]
    exact h.same t' ht'.1
  · intro i hi
    rw [hinode (Nat.lt_of_lt_of_le hi h.next_le)]
    exact h.old i hi
  · intro t' item' hmem
    rcases List.mem_append.mp hmem with hmem | hlast
    · obtain ⟨i, hle, hi, hold⟩ := h.holds t' item' hmem
      refine ⟨i, hle, (hname (hne hmem)).trans hi, ?_⟩
      rw [hinode (hlt hi)]
      exact hold.mono hopened
    · obtain ⟨rfl, rfl⟩ := Prod.mk.inj (List.mem_singleton.mp hlast)
      refine ⟨s.fs.next, h.next_le, hself, ?_⟩
      have hnode : (s.fs.create t' node).inodes s.fs.next = node := Function.update_self ..
      rw [hnode]
      exact hholds
  · intro t' t'' item' hmem hdir hsame
    rcases List.mem_append.mp hmem with hmem | hlast
    · obtain ⟨i, -, hi, -⟩ := h.holds t' item' hmem
      rw [hname (hne hmem)] at hsame
      by_cases heq : t'' = t
      · rw [heq, hself, hi] at hsame
        exact absurd (Option.some.inj hsame) (Nat.ne_of_gt (hlt hi))
      · rw [hname heq] at hsame
        exact h.one t' t'' item' hmem hdir hsame
    · obtain ⟨rfl, rfl⟩ := Prod.mk.inj (List.mem_singleton.mp hlast)
      by_contra heq
      rw [hname heq, hself] at hsame
      exact Nat.lt_irrefl _ (hlt hsame)
  · have hcross : ∀ {t' ino ino'}, item = .file ino → (t', .file ino') ∈ made →
        (s.fs.create t node).names t' ≠ some s.fs.next ∧ ino ≠ ino' := by
      rintro t' ino ino' hitem hmem
      obtain ⟨i, -, hi, -⟩ := h.holds t' _ hmem
      constructor
      · rw [hname (hne hmem), hi]
        exact fun heq => Nat.ne_of_lt (hlt hi) (Option.some.inj heq)
      · rintro rfl
        exact hnew ino hitem t' hmem
    intro t' t'' ino ino' hmem hmem'
    rcases List.mem_append.mp hmem with hold | hlast
    · rcases List.mem_append.mp hmem' with hold' | hlast'
      · rw [hname (hne hold), hname (hne hold')]
        exact h.shared t' t'' ino ino' hold hold'
      · obtain ⟨rfl, hitem⟩ := Prod.mk.inj (List.mem_singleton.mp hlast')
        obtain ⟨hnames, hinos⟩ := hcross hitem.symm hold
        rw [hself]
        exact iff_of_false hnames (Ne.symm hinos)
    · obtain ⟨rfl, hitem⟩ := Prod.mk.inj (List.mem_singleton.mp hlast)
      rcases List.mem_append.mp hmem' with hold' | hlast'
      · obtain ⟨hnames, hinos⟩ := hcross hitem.symm hold'
        rw [hself]
        exact iff_of_false (Ne.symm hnames) hinos
      · obtain ⟨rfl, hitem'⟩ := Prod.mk.inj (List.mem_singleton.mp hlast')
        exact iff_of_true rfl (Item.file.inj (hitem.trans hitem'.symm))
  · exact hknown

/-- A new name of an inode that has been copied. -/
theorem link (h : Inv src umask dev s₀ opened made s) {t first : Text} {ino i : ℕ} {fs : Fs}
    (ht : t ∉ made.map Prod.fst) (hfirst : (first, .file ino) ∈ made)
    (hi : s.fs.names first = some i) (hnames : fs.names = Function.update s.fs.names t (some i))
    (hinodes : fs.inodes = s.fs.inodes) (hnext : fs.next = s.fs.next) :
    Inv src umask dev s₀ opened (made ++ [(t, .file ino)]) { s with fs } := by
  have hself : fs.names t = some i := by
    rw [hnames]
    exact Function.update_self ..
  have hname : ∀ {t'}, t' ≠ t → fs.names t' = s.fs.names t' := by
    intro t' hne
    rw [hnames]
    exact Function.update_of_ne hne ..
  have hne : ∀ {t' item'}, (t', item') ∈ made → t' ≠ t := by
    rintro t' item' hmem rfl
    exact ht (mem_paths hmem)
  constructor
  · rw [List.map_append, List.map_singleton, List.nodup_append]
    refine ⟨h.nodup, List.nodup_singleton _, ?_⟩
    rintro t' ht' t'' ht'' rfl
    obtain rfl : t' = t := List.mem_singleton.mp ht''
    exact ht ht'
  · exact hnext.symm ▸ h.next_le
  · intro t' ht'
    rw [List.map_append, List.mem_append, not_or] at ht'
    exact (hname fun heq => ht'.2 (List.mem_singleton.mpr heq)).trans (h.same t' ht'.1)
  · exact hinodes.symm ▸ h.old
  · intro t' item' hmem
    dsimp only
    rw [hinodes]
    rcases List.mem_append.mp hmem with hmem | hlast
    · rw [hname (hne hmem)]
      exact h.holds t' item' hmem
    · obtain ⟨rfl, rfl⟩ := Prod.mk.inj (List.mem_singleton.mp hlast)
      rw [hself, ← hi]
      exact h.holds first _ hfirst
  · intro t' t'' item' hmem hdir hsame
    rcases List.mem_append.mp hmem with hmem | hlast
    · dsimp only at hsame
      rw [hname (hne hmem)] at hsame
      by_cases heq : t'' = t
      · rw [heq, hself, ← hi] at hsame
        have hpath := h.one t' first item' hmem hdir hsame
        have hitem := eq_of_nodup h.nodup (hpath ▸ hfirst) hmem
        rw [← hitem] at hdir
        cases hdir
      · rw [hname heq] at hsame
        exact h.one t' t'' item' hmem hdir hsame
    · obtain ⟨-, rfl⟩ := Prod.mk.inj (List.mem_singleton.mp hlast)
      cases hdir
  · intro t' t'' ino' ino'' hmem hmem'
    dsimp only
    rcases List.mem_append.mp hmem with hold | hlast
    · rcases List.mem_append.mp hmem' with hold' | hlast'
      · rw [hname (hne hold), hname (hne hold')]
        exact h.shared t' t'' ino' ino'' hold hold'
      · obtain ⟨rfl, hitem⟩ := Prod.mk.inj (List.mem_singleton.mp hlast')
        rw [hname (hne hold), hself, ← hi, Item.file.inj hitem]
        exact h.shared t' first ino' ino hold hfirst
    · obtain ⟨rfl, hitem⟩ := Prod.mk.inj (List.mem_singleton.mp hlast)
      rcases List.mem_append.mp hmem' with hold' | hlast'
      · rw [hname (hne hold'), hself, ← hi, Item.file.inj hitem]
        exact h.shared first t'' ino ino'' hfirst hold'
      · obtain ⟨rfl, hitem'⟩ := Prod.mk.inj (List.mem_singleton.mp hlast')
        exact iff_of_true rfl (Item.file.inj (hitem.trans hitem'.symm))
  · intro ino' hlinks
    rcases h.known ino' hlinks with ⟨hnone, hunseen⟩ | ⟨t', hseen, hmem⟩
    · refine .inl ⟨hnone, fun t' hmem => ?_⟩
      rcases List.mem_append.mp hmem with hold | hlast
      · exact hunseen t' hold
      · obtain ⟨-, hitem⟩ := Prod.mk.inj (List.mem_singleton.mp hlast)
        rw [Item.file.inj hitem] at hunseen
        exact hunseen first hfirst
    · exact .inr ⟨t', hseen, List.mem_append_left _ hmem⟩

/-- A directory gets its attributes after what is in it. -/
theorem leave {t : Text} {st : Attr} (h : Inv src umask dev s₀ (t :: opened) made s)
    (ht : (t, .dir st) ∈ made) :
    Inv src umask dev s₀ opened made
      { s with fs := (s.fs.chown t st.uid st.gid).chmod t st.mode } := by
  obtain ⟨i, hle, hi, hdir, -⟩ := h.holds t _ ht
  obtain ⟨fs, hfs⟩ : ∃ fs, (s.fs.chown t st.uid st.gid).chmod t st.mode = fs := ⟨_, rfl⟩
  have hinodes : fs.inodes = Function.update s.fs.inodes i st.inode := by
    have hnode : ((s.fs.inodes i).chown st.uid st.gid).chmod st.mode = st.inode := by
      rw [Inode.chown, Inode.chmod, hdir]
      rfl
    rw [← hfs, Fs.chmod, modify_inodes (modify_names .. ▸ hi), Fs.chown, modify_inodes hi,
      Function.update_self, hnode]
    exact Function.update_idem ..
  have hother : ∀ {t' item' i'}, (t', item') ∈ made → t' ≠ t → s.fs.names t' = some i' →
      fs.inodes i' = s.fs.inodes i' := by
    intro t' item' i' hmem hne hi'
    have hapart : i' ≠ i := by
      rintro rfl
      exact hne (h.one t t' _ ht rfl (hi'.trans hi.symm))
    rw [hinodes]
    exact Function.update_of_ne hapart ..
  have hnames : fs.names = s.fs.names := by
    rw [← hfs]
    exact (modify_names ..).trans (modify_names ..)
  have hnext : fs.next = s.fs.next := by
    rw [← hfs]
    exact (modify_next ..).trans (modify_next ..)
  rw [hfs]
  constructor
  · exact h.nodup
  · exact hnext.symm ▸ h.next_le
  · exact hnames.symm ▸ h.same
  · intro j hj
    dsimp only
    rw [hinodes]
    exact (Function.update_of_ne (Nat.ne_of_lt (Nat.lt_of_lt_of_le hj hle)) ..).trans (h.old j hj)
  · intro t' item hmem
    obtain ⟨i', hle', hi', hold⟩ := h.holds t' item hmem
    refine ⟨i', hle', hnames.symm ▸ hi', ?_⟩
    dsimp only
    by_cases heq : t' = t
    · subst heq
      obtain rfl := eq_of_nodup h.nodup hmem ht
      obtain rfl : i = i' := Option.some.inj (hi.symm.trans hi')
      rw [hinodes, Function.update_self]
      exact ⟨rfl, fun _ => rfl⟩
    · rw [hother hmem heq hi']
      cases item with
      | file ino => exact hold
      | dir st' =>
          refine ⟨hold.1, fun hopened => hold.2 ?_⟩
          rw [List.mem_cons, not_or]
          exact ⟨heq, hopened⟩
      | mount st' => exact hold
  · exact hnames.symm ▸ h.one
  · exact hnames.symm ▸ h.shared
  · exact h.known

theorem linkSeen_remember (links : List Link) (ino ino' : ℕ) (t : Text) :
    linkSeen (linkRemember links dev ino t) dev ino' =
      (linkSeen links dev ino').or (if ino = ino' then some t else none) := by
  rw [linkSeen, linkSeen, linkRemember, List.find?_append]
  cases links.find? fun l => l.dev = dev && l.ino = ino' with
  | some l => rfl
  | none =>
      rw [Option.none_or, Option.map_none, Option.none_or, List.find?_singleton]
      by_cases heq : ino = ino' <;> simp [heq]

/-- An entry of something else changes nothing. -/
theorem known_append {made : List (Text × Item)} {links : List Link} {ino : ℕ} {item : Item}
    (h : Known dev made links ino) (hne : item ≠ .file ino) (t : Text) :
    Known dev (made ++ [(t, item)]) links ino := by
  rcases h with ⟨hnone, hunseen⟩ | ⟨t', hseen, hmem⟩
  · refine .inl ⟨hnone, fun t' hmem => ?_⟩
    rcases List.mem_append.mp hmem with hold | hlast
    · exact hunseen t' hold
    · exact hne (Prod.mk.inj (List.mem_singleton.mp hlast)).2.symm
  · exact .inr ⟨t', hseen, List.mem_append_left _ hmem⟩

theorem entry (h : Inv src umask dev s₀ opened made s) {t : Text} {ino : ℕ}
    (ht : t ∉ made.map Prod.fst) (hempty : s₀.fs.names t = none)
    (hsymlink : ∀ target, src.content ino = .symlink target →
      (src.attr ino).mode = 0o777#12 ∧ target.length < 4096)
    (hsingle : src.nlink ino ≤ 1 → ∀ t', (t', .file ino) ∉ made) :
    Inv src umask dev s₀ opened (made ++ [(t, .file ino)])
      (copyEntry umask src dev ino t s) := by
  have hnew : s.fs.names t = none := (h.same t ht).trans hempty
  by_cases hlinks : 1 < src.nlink ino
  · rcases h.known ino hlinks with ⟨hnone, hunseen⟩ | ⟨first, hseen, hmem⟩
    · rw [copyEntry_new hnew hsymlink fun _ => hnone, if_pos hlinks]
      refine h.create ht (fun _ => id) rfl (fun ino' heq => Item.file.inj heq ▸ hunseen) ?_
      intro ino' hlinks'
      by_cases heq : ino = ino'
      · subst heq
        refine .inr ⟨t, ?_, List.mem_append_right _ (List.mem_singleton_self _)⟩
        rw [linkSeen_remember, hnone, if_pos rfl, Option.none_or]
      · have hknown := known_append (h.known ino' hlinks') (fun h => heq (Item.file.inj h)) t
        rw [Known, linkSeen_remember, if_neg heq, Option.or_none]
        exact hknown
    · obtain ⟨i, -, hi, -⟩ := h.holds first _ hmem
      obtain ⟨fs, hcopy, hnames, hinodes, hnext⟩ := copyEntry_link hnew hlinks hseen hi
      rw [hcopy]
      exact h.link ht hmem hi hnames hinodes hnext
  · rw [copyEntry_new hnew hsymlink fun h => absurd h hlinks, if_neg hlinks]
    have hunseen := hsingle (Nat.not_lt.mp hlinks)
    refine h.create ht (fun _ => id) rfl (fun ino' heq => Item.file.inj heq ▸ hunseen) ?_
    intro ino' hlinks'
    refine known_append (h.known ino' hlinks') (fun heq => hlinks ?_) t
    rw [Item.file.inj heq]
    exact hlinks'

end Inv

def Item.ino : Item → Option ℕ
  | .file ino => some ino
  | _ => none

def inos (made : List (Text × Item)) : List ℕ := made.filterMap fun e => e.2.ino

theorem inos_append (made made' : List (Text × Item)) :
    inos (made ++ made') = inos made ++ inos made' := List.filterMap_append

theorem inos_entries (l : Listing) (dst : Text) : inos (l.entries dst) = l.inos := by
  induction l generalizing dst with
  | nil => rfl
  | file name ino rest ih => exact congrArg (ino :: ·) (ih dst)
  | dir name st sub rest ihsub ih =>
      have hsplit := inos_append (sub.entries (path dst name)) (rest.entries dst)
      rw [ihsub, ih] at hsplit
      exact hsplit
  | mount name st rest ih => exact ih dst
  | foreign name rest ih => exact ih dst

variable (src) in
/-- What makes a list of entries one that can be copied to where there is nothing. -/
structure Fits (s₀ : State) (all : List (Text × Item)) : Prop where
  nodup : (all.map Prod.fst).Nodup
  short : ∀ e ∈ all, e.1.length < 4096
  empty : ∀ e ∈ all, s₀.fs.names e.1 = none
  single : ∀ ino, src.nlink ino ≤ 1 → (inos all).count ino ≤ 1
  symlinks : ∀ ino ∈ inos all, ∀ target, src.content ino = .symlink target →
    (src.attr ino).mode = 0o777#12 ∧ target.length < 4096

theorem Fits.left {s₀ : State} {made made' : List (Text × Item)}
    (h : Fits src s₀ (made ++ made')) : Fits src s₀ made where
  nodup := by
    have hnodup := h.nodup
    rw [List.map_append] at hnodup
    exact hnodup.of_append_left
  short e he := h.short e (List.mem_append_left _ he)
  empty e he := h.empty e (List.mem_append_left _ he)
  single ino hino := by
    have hcount := h.single ino hino
    rw [inos_append, List.count_append] at hcount
    omega
  symlinks ino hino := h.symlinks ino (by
    rw [inos_append]
    exact List.mem_append_left _ hino)

theorem join_eq {dst name : Text} (h : (path dst name).length < 4096) :
    join dst name = path dst name := List.take_of_length_le (Nat.le_of_lt_succ h)

theorem Fits.mem_inos {all : List (Text × Item)} {t : Text} {ino : ℕ}
    (h : (t, .file ino) ∈ all) : ino ∈ inos all :=
  List.mem_filterMap.mpr ⟨_, h, rfl⟩

theorem Fits.last {s₀ : State} {made : List (Text × Item)} {t : Text} {item : Item}
    (h : Fits src s₀ (made ++ [(t, item)])) :
    t ∉ made.map Prod.fst ∧ t.length < 4096 ∧ s₀.fs.names t = none := by
  have hmem : (t, item) ∈ made ++ [(t, item)] :=
    List.mem_append_right _ (List.mem_singleton_self _)
  refine ⟨fun ht => ?_, h.short _ hmem, h.empty _ hmem⟩
  have hnodup := h.nodup
  rw [List.map_append, List.nodup_append] at hnodup
  exact hnodup.2.2 t ht t (List.mem_singleton_self _) rfl

theorem Inv.run {s₀ : State} (l : Listing) {dst : Text} {opened : List Text}
    {made : List (Text × Item)} {s : State} (h : Inv src umask dev s₀ opened made s)
    (hfits : Fits src s₀ (made ++ l.entries dst)) :
    Inv src umask dev s₀ opened (made ++ l.entries dst) (copyTree umask src dev l dst s) := by
  induction l generalizing dst opened made s with
  | nil =>
      rw [Listing.entries, List.append_nil]
      exact h
  | file name ino rest ih =>
      rw [Listing.entries, List.append_cons] at hfits ⊢
      obtain ⟨ht, hlen, hempty⟩ := hfits.left.last
      rw [copyTree, join_eq hlen]
      refine ih (h.entry ht hempty (hfits.symlinks ino ?_) fun hone t' hmem => ?_) hfits
      · exact Fits.mem_inos (List.mem_append_left _
          (List.mem_append_right _ (List.mem_singleton_self _)))
      · have hcount := hfits.left.single ino hone
        have hpos := List.count_pos_iff.mpr (Fits.mem_inos hmem)
        have hlast : inos [(path dst name, Item.file ino)] = [ino] := rfl
        rw [inos_append, List.count_append, hlast, List.count_singleton_self] at hcount
        omega
  | dir name st sub rest ihsub ih =>
      rw [Listing.entries, List.append_cons, ← List.append_assoc] at hfits ⊢
      obtain ⟨ht, hlen, hempty⟩ := hfits.left.left.last
      have hnew := (h.same _ ht).trans hempty
      rw [copyTree, join_eq hlen, enter_new hnew]
      have hentered : Inv src umask dev s₀ (path dst name :: opened)
          (made ++ [(path dst name, .dir st)])
          { s with fs := s.fs.create (path dst name) ⟨none, st.mode &&& ~~~umask, 0, 0⟩ } := by
        refine h.create ht (fun t' ht' hopen => ht' (List.mem_cons_of_mem _ hopen))
          ⟨rfl, fun hclosed => absurd List.mem_cons_self hclosed⟩ nofun ?_
        exact fun ino hlinks => known_append (h.known ino hlinks) (by nofun) _
      have hmem : (path dst name, Item.dir st) ∈
          made ++ [(path dst name, .dir st)] ++ sub.entries (path dst name) :=
        List.mem_append_left _ (List.mem_append_right _ (List.mem_singleton_self _))
      exact ih ((ihsub hentered hfits.left).leave hmem) hfits
  | mount name st rest ih =>
      rw [Listing.entries, List.append_cons] at hfits ⊢
      obtain ⟨ht, hlen, hempty⟩ := hfits.left.last
      have hnew := (h.same _ ht).trans hempty
      rw [copyTree, join_eq hlen, mount_new hnew]
      refine ih (h.create ht (fun _ => id) rfl nofun ?_) hfits
      exact fun ino hlinks => known_append (h.known ino hlinks) (by nofun) _
  | foreign name rest ih => exact ih h hfits

def Item.inode (src : Source) : Item → Inode
  | .file ino => src.inode ino
  | .dir st => st.inode
  | .mount st => st.inode

/-- Below `dst` there is the tree of the listing, and elsewhere what there was. -/
structure Isomorphic (src : Source) (l : Listing) (dst : Text) (fs₀ fs : Fs) : Prop where
  /-- every entry, with its kind, content, mode and owner -/
  entry : ∀ t item, (t, item) ∈ l.entries dst →
    ∃ i, fs.names t = some i ∧ fs.inodes i = item.inode src
  only : ∀ t, Below dst t → (fs.names t).isSome → ∃ item, (t, item) ∈ l.entries dst
  shared : ∀ t t' ino ino', (t, .file ino) ∈ l.entries dst → (t', .file ino') ∈ l.entries dst →
    (fs.names t = fs.names t' ↔ ino = ino')
  mounts : ∀ t st, (t, .mount st) ∈ l.entries dst → ∀ t', Below t t' → fs.names t' = none
  elsewhere : ∀ t, ¬ Below dst t → fs.names t = fs₀.names t
  old : ∀ i, i < fs₀.next → fs.inodes i = fs₀.inodes i

theorem copied_eq_iff (src : Source) (umask : BitVec 12) (ino : ℕ) :
    src.copied umask ino = src.inode ino ↔ ((src.content ino).special →
      clearSetId ((src.attr ino).mode &&& ~~~umask) = (src.attr ino).mode) := by
  rw [Source.copied, Source.inode, Inode.mk.injEq, eq_self, true_and]
  by_cases hspecial : (src.content ino).special
  · rw [if_pos hspecial, imp_iff_right hspecial]
    constructor
    · intro h
      exact congrArg Attr.mode h
    · intro h
      rw [h]
  · rw [if_neg hspecial]
    exact iff_of_true rfl fun h => absurd h hspecial

theorem Inv.start {s₀ : State} (hlinks : ∀ l ∈ s₀.links, l.dev ≠ dev) :
    Inv src umask dev s₀ [] [] s₀ where
  nodup := List.nodup_nil
  next_le := Nat.le_refl _
  same _ _ := rfl
  old _ _ := rfl
  holds _ _ h := nomatch h
  one _ _ _ h := nomatch h
  shared _ _ _ _ h := nomatch h
  known ino _ := by
    refine .inl ⟨?_, fun _ h => nomatch h⟩
    rw [linkSeen, List.find?_eq_none.mpr fun l hl => by simp [hlinks l hl]]
    rfl

theorem Tree.fits (tree : Tree src) {dst : Text} {s₀ : State}
    (hempty : ∀ t, Below dst t → s₀.fs.names t = none)
    (hshort : ∀ e ∈ tree.listing.entries dst, e.1.length < 4096) :
    Fits src s₀ (tree.listing.entries dst) where
  nodup := tree.ok.nodup dst
  short := hshort
  empty e he := hempty e.1 (below_of_mem he)
  single ino hino := by
    rw [inos_entries]
    exact Nat.not_lt.mp fun hlt => Nat.not_lt.mpr hino (tree.linked ino hlt)
  symlinks ino hino := tree.symlinks ino (inos_entries tree.listing dst ▸ hino)

theorem exists_entry {l : Listing} {ino : ℕ} (h : ino ∈ l.inos) (dst : Text) :
    ∃ t, (t, .file ino) ∈ l.entries dst := by
  rw [← inos_entries l dst] at h
  obtain ⟨⟨t, item⟩, hmem, hino⟩ := List.mem_filterMap.mp h
  cases item with
  | file ino' =>
      obtain rfl : ino' = ino := Option.some.inj hino
      exact ⟨t, hmem⟩
  | dir st => cases hino
  | mount st => cases hino

/-- The copy is the tree that was copied exactly when `mknod`, the mask and the change
of owner leave the device nodes, fifos and sockets in it their modes. -/
theorem copyTree_isomorphic_iff (tree : Tree src) {dst : Text} {s₀ : State}
    (hempty : ∀ t, Below dst t → s₀.fs.names t = none) (hlinks : ∀ l ∈ s₀.links, l.dev ≠ dev)
    (hshort : ∀ e ∈ tree.listing.entries dst, e.1.length < 4096) :
    Isomorphic src tree.listing dst s₀.fs (copyTree umask src dev tree.listing dst s₀).fs ↔
      ∀ ino ∈ tree.listing.inos, (src.content ino).special →
        clearSetId ((src.attr ino).mode &&& ~~~umask) = (src.attr ino).mode := by
  have hstart : Inv src umask dev s₀ [] [] s₀ := Inv.start hlinks
  have h := hstart.run tree.listing (by
    rw [List.nil_append]
    exact tree.fits hempty hshort)
  rw [List.nil_append] at h
  constructor
  · intro hiso ino hino
    obtain ⟨t, hmem⟩ := exists_entry hino dst
    obtain ⟨i, -, hi, hcopied⟩ := h.holds t _ hmem
    obtain ⟨i', hi', hnode⟩ := hiso.entry t _ hmem
    obtain rfl : i = i' := Option.some.inj (hi.symm.trans hi')
    exact (copied_eq_iff src umask ino).mp (hcopied.symm.trans hnode)
  · intro hkept
    refine ⟨fun t item hmem => ?_, fun t hbelow hsome => ?_, h.shared, ?_, ?_, h.old⟩
    · obtain ⟨i, -, hi, hholds⟩ := h.holds t item hmem
      refine ⟨i, hi, ?_⟩
      cases item with
      | file ino =>
          have hino : ino ∈ tree.listing.inos := by
            rw [← inos_entries tree.listing dst]
            exact Fits.mem_inos hmem
          exact hholds.trans ((copied_eq_iff src umask ino).mpr (hkept ino hino))
      | dir st => exact hholds.2 (by simp)
      | mount st => exact hholds
    · by_contra hnone
      have hpath : t ∉ (tree.listing.entries dst).map Prod.fst := by
        intro hmem
        obtain ⟨⟨t', item⟩, hentry, rfl⟩ := List.mem_map.mp hmem
        exact hnone ⟨item, hentry⟩
      rw [h.same t hpath, hempty t hbelow] at hsome
      cases hsome
    · intro t st hmount t' hbelow
      have hpath : t' ∉ (tree.listing.entries dst).map Prod.fst := by
        intro hmem
        obtain ⟨⟨t', item⟩, hentry, rfl⟩ := List.mem_map.mp hmem
        exact not_below_mount tree.ok hmount hentry hbelow
      rw [h.same t' hpath]
      exact hempty t' ((below_of_mem hmount).trans hbelow)
    · intro t hbelow
      apply h.same
      intro hmem
      obtain ⟨⟨t', item⟩, hentry, rfl⟩ := List.mem_map.mp hmem
      exact hbelow (below_of_mem hentry)

/-- A fifo that everyone may write to, and a file with two links. -/
def sample : Source where
  content ino := if ino = 1 then .fifo else .reg [0x76]
  attr _ := ⟨0o666#12, 0, 0⟩
  nlink ino := if ino = 1 then 1 else 2

/-- An empty directory `r`. -/
def ram : State where
  fs :=
    { names := fun t => if t = [0x72] then some 0 else none
      inodes := fun _ => ⟨none, ⟨0o755#12, 0, 0⟩⟩
      next := 1
      names_lt := fun {t i} h => by
        split at h
        · rw [← Option.some.inj h]
          decide
        · cases h }
  links := []

theorem ram_empty (t : Text) (h : Below [0x72] t) : ram.fs.names t = none := by
  obtain ⟨x, rfl⟩ := h
  simp [ram, path]

def oneFifo : Tree sample where
  listing := .file [0x70] 1 .nil
  ok := ⟨by decide, by decide, trivial⟩
  linked ino h := by
    rw [Listing.inos, Listing.inos, List.count_singleton] at h
    split at h
    · exact absurd h (by decide)
    · exact absurd h (by decide)
  symlinks ino _ target h := by
    rw [sample] at h
    dsimp only at h
    split at h <;> cases h

/-- With the mask a kernel starts its first process with, the fifo is no longer
everyone's. -/
theorem copyTree_fifo :
    ¬ Isomorphic sample oneFifo.listing [0x72] ram.fs
      (copyTree 0o022#12 sample 0 oneFifo.listing [0x72] ram).fs := by
  intro h
  obtain ⟨i, hi, hnode⟩ := h.entry [0x72, 0x2f, 0x70] (.file 1) (by decide)
  have hname : (copyTree 0o022#12 sample 0 oneFifo.listing [0x72] ram).fs.names
      [0x72, 0x2f, 0x70] = some 1 := by decide
  obtain rfl : i = 1 := Option.some.inj (hi.symm.trans hname)
  revert hnode
  decide

def twoNames : Tree sample where
  listing := .file [0x61] 2 (.file [0x62] 2 .nil)
  ok := ⟨by decide, by decide, by decide, by decide, trivial⟩
  linked ino h := by
    by_cases hino : ino = 1
    · subst hino
      revert h
      decide
    · exact Nat.lt_of_lt_of_eq (by decide) (if_neg hino).symm
  symlinks ino _ target h := by
    rw [sample] at h
    dsimp only at h
    split at h <;> cases h

theorem copyTree_twoNames :
    Isomorphic sample twoNames.listing [0x72] ram.fs
        (copyTree 0o022#12 sample 0 twoNames.listing [0x72] ram).fs ↔
      ∀ ino ∈ twoNames.listing.inos, (sample.content ino).special →
        clearSetId ((sample.attr ino).mode &&& ~~~0o022#12) = (sample.attr ino).mode :=
  copyTree_isomorphic_iff twoNames ram_empty (by decide) (by decide)

end Veron.CopyTree
