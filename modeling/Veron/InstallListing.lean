/-
The listing of what a package installs, and its digest: a line for every file
and every symbolic link of the DESTDIR, the lines sorted.
-/
import Mathlib.Data.List.Lex
import Veron.CutText
import Veron.PackageKeys
import Veron.StageTree

namespace Veron.Driver

open Files

/-- What reading a file raises. -/
inductive OSError where
  | osError
  | blocking
  | childProcess
  | connection
  | brokenPipe
  | connectionAborted
  | connectionRefused
  | connectionReset
  | fileExists
  | fileNotFound
  | interrupted
  | isADirectory
  | notADirectory
  | permission
  | processLookup
  | timeout
deriving DecidableEq, Repr

/-- `type(e).__name__`. -/
def OSError.name : OSError → String
  | .osError => "OSError"
  | .blocking => "BlockingIOError"
  | .childProcess => "ChildProcessError"
  | .connection => "ConnectionError"
  | .brokenPipe => "BrokenPipeError"
  | .connectionAborted => "ConnectionAbortedError"
  | .connectionRefused => "ConnectionRefusedError"
  | .connectionReset => "ConnectionResetError"
  | .fileExists => "FileExistsError"
  | .fileNotFound => "FileNotFoundError"
  | .interrupted => "InterruptedError"
  | .isADirectory => "IsADirectoryError"
  | .notADirectory => "NotADirectoryError"
  | .permission => "PermissionError"
  | .processLookup => "ProcessLookupError"
  | .timeout => "TimeoutError"

/-- What the listing says of an entry. -/
inductive Item where
  | file (content : List UInt8)
  | unreadable (error : OSError)
  | link (target : String)
deriving DecidableEq

def isHex (c : Char) : Bool := c.isDigit || ('a' ≤ c && c ≤ 'f')

/-- `hexdigest()`. -/
structure HexDigest extends Digest where
  hex : ∀ c ∈ text, isHex c = true

/-- The bytes of the files, or what reading them raises. -/
abbrev Readings := ℕ → Except OSError (List UInt8)

def item (read : Readings) : Leaf → Item
  | .link target => .link target
  | .file key =>
      match read key with
      | .ok content => .file content
      | .error e => .unreadable e

/-- `os.path.relpath`. -/
def relpath (q : Path) : List Char := ['/'].intercalate (q.map String.toList)

/-- What is listed, in the order of the walk. -/
def items (read : Readings) (entries : List (String × DestNode)) : List (Path × Item) :=
  (walkTree entries).flatMap fun w => w.2.map fun e => (w.1 ++ [e.1], item read e.2)

/-- A link's target and path, as its line has them. -/
def linkText (rel : List Char) (target : String) : List Char := target.toList ++ ' ' :: rel

def unreadableText (rel : List Char) (e : OSError) : List Char :=
  ("unreadable:" ++ e.name).toList ++ ' ' :: '0' :: ' ' :: rel

/-- `"\n".join(lines) + ("\n" if lines else "")`. -/
def joinLines (ls : List (List Char)) : List Char :=
  ['\n'].intercalate ls ++ if ls = [] then [] else ['\n']

section

variable (sha : List UInt8 → HexDigest)

/-- What follows the letter and the space in the line of a file. -/
def fileText (rel : List Char) (content : List UInt8) : List Char :=
  (sha content).text ++ ' ' :: (Nat.toDigits 10 content.length ++ ' ' :: rel)

def listingLine : Path × Item → List Char
  | (q, .link target) => 'l' :: ' ' :: linkText (relpath q) target
  | (q, .file content) => 'f' :: ' ' :: fileText sha (relpath q) content
  | (q, .unreadable e) => '?' :: ' ' :: unreadableText (relpath q) e

/-- The lines and the digest of `install_listing`. -/
def installListing (read : Readings) (entries : List (String × DestNode)) :
    List (List Char) × HexDigest :=
  let lines := ((items read entries).map (listingLine sha)).insertionSort (· ≤ ·)
  (lines, sha (encode (joinLines lines)))

end

/-- A DESTDIR.  Its names and the targets of its links are text in one line, and no
name has a slash. -/
structure DestTree where
  entries : List (String × DestNode)
  read : Readings
  proper : Proper entries
  names : ∀ e ∈ items read entries, ∀ name ∈ e.1, '/' ∉ name.toList ∧ '\n' ∉ name.toList
  targets : ∀ q target, (q, .link target) ∈ items read entries → '\n' ∉ target.toList

/-- What the tree has at a path, however its directories are enumerated. -/
def DestTree.itemAt (t : DestTree) (q : Path) : Option Item :=
  ((nodeAt t.entries q).bind DestNode.leaf).map (item t.read)

theorem items_eq (read : Readings) (entries : List (String × DestNode)) :
    items read entries = (leafPaths (walkTree entries)).map fun e => (e.1, item read e.2) := by
  rw [items, leafPaths, List.map_flatMap]
  simp only [leavesAt, List.map_map]
  rfl

theorem DestTree.mem_items (t : DestTree) {q : Path} {i : Item} :
    (q, i) ∈ items t.read t.entries ↔ t.itemAt q = some i := by
  rw [items_eq, DestTree.itemAt, Option.map_eq_some_iff]
  constructor
  · intro h
    obtain ⟨⟨q', l⟩, hl, heq⟩ := List.mem_map.mp h
    obtain ⟨rfl, rfl⟩ := Prod.mk.inj heq
    obtain ⟨node, hnode, hleaf⟩ := (mem_leafPaths_walkTree t.proper).mp hl
    exact ⟨l, by rw [hnode, Option.bind_some, hleaf], rfl⟩
  · rintro ⟨l, hl, rfl⟩
    obtain ⟨node, hnode, hleaf⟩ := Option.bind_eq_some_iff.mp hl
    exact List.mem_map.mpr
      ⟨(q, l), (mem_leafPaths_walkTree t.proper).mpr ⟨node, hnode, hleaf⟩, rfl⟩

/-- A walk comes to no entry twice. -/
theorem Walk.leafPaths_nodup {W : Walked} (h : Walk W) : ((leafPaths W).map Prod.fst).Nodup := by
  induction h with
  | nil => exact List.nodup_nil
  | @snoc V rel ls hV hparent hplain hD hL hnodup hnew ih =>
      have hlast : leafPaths (V ++ [(rel, ls)]) = leafPaths V ++ leavesAt rel ls := by
        rw [leafPaths_append, leafPaths_cons]
        simp [leafPaths]
      have hpaths : ((leavesAt rel ls).map Prod.fst).Nodup := by
        have hmap : (leavesAt rel ls).map Prod.fst = (ls.map Prod.fst).map fun a => rel ++ [a] := by
          rw [leavesAt, List.map_map, List.map_map]
          rfl
        rw [hmap]
        exact hnodup.map fun a b hab => by simpa using hab
      rw [hlast, List.map_append, List.nodup_append]
      refine ⟨ih, hpaths, fun q hq q' hq' heq => ?_⟩
      obtain ⟨e, he, rfl⟩ := List.mem_map.mp hq'
      exact (hnew e he).2 (heq ▸ hq)

theorem DestTree.items_nodup (t : DestTree) : (items t.read t.entries).Nodup := by
  have hpaths : ((items t.read t.entries).map Prod.fst).Nodup := by
    rw [items_eq, List.map_map]
    exact (walk_walkTree t.proper).leafPaths_nodup
  exact hpaths.of_map

theorem DestTree.items_perm {s t : DestTree} (h : s.itemAt = t.itemAt) :
    (items s.read s.entries).Perm (items t.read t.entries) := by
  rw [List.perm_ext_iff_of_nodup s.items_nodup t.items_nodup]
  rintro ⟨q, i⟩
  rw [s.mem_items, t.mem_items, h]

section

variable (sha : List UInt8 → HexDigest)

def DestTree.lines (t : DestTree) : List (List Char) :=
  (items t.read t.entries).map (listingLine sha)

def DestTree.digest (t : DestTree) : HexDigest := (installListing sha t.read t.entries).2

/-- What hashing the tree hashes: the contents of its files, and the listing. -/
inductive DestTree.Hashed (t : DestTree) : List UInt8 → Prop
  | file {q : Path} {content : List UInt8} : t.itemAt q = some (.file content) → t.Hashed content
  | listing : t.Hashed (encode (joinLines (installListing sha t.read t.entries).1))

theorem listing_eq_of_perm {s t : DestTree} (h : (s.lines sha).Perm (t.lines sha)) :
    (installListing sha s.read s.entries).1 = (installListing sha t.read t.entries).1 := by
  have hperm : ((s.lines sha).insertionSort (· ≤ ·)).Perm ((t.lines sha).insertionSort (· ≤ ·)) :=
    ((List.perm_insertionSort _ _).trans h).trans (List.perm_insertionSort _ _).symm
  exact hperm.eq_of_pairwise' (List.pairwise_insertionSort _ _) (List.pairwise_insertionSort _ _)

/-- Only what is installed decides the digest. -/
theorem DestTree.digest_eq {s t : DestTree} (h : s.itemAt = t.itemAt) :
    s.digest sha = t.digest sha := by
  have hlines := listing_eq_of_perm sha ((DestTree.items_perm h).map (listingLine sha))
  rw [DestTree.digest, DestTree.digest, installListing, installListing]
  exact congrArg (fun ls => sha (encode (joinLines ls))) hlines

theorem joinLines_eq (ls : List (List Char)) : joinLines ls = CutText.unlines ls := by
  induction ls with
  | nil => rfl
  | cons l ls ih =>
      rw [CutText.unlines, List.flatMap_cons, ← CutText.unlines, ← ih]
      cases ls with
      | nil => simp [joinLines]
      | cons m ls =>
          rw [joinLines, joinLines, List.intercalate_cons_cons, if_neg (by simp), if_neg (by simp),
            List.append_assoc, List.append_assoc]

theorem HexDigest.ext {a b : HexDigest} (h : a.text = b.text) : a = b := by
  cases a
  cases b
  simpa using Digest.ext h

theorem HexDigest.not_mem (d : HexDigest) {c : Char} (hc : isHex c = false) : c ∉ d.text :=
  fun h => absurd (d.hex c h) (by simp [hc])

theorem not_mem_decimal {c : Char} (hc : c.isDigit = false) (n : ℕ) : c ∉ Nat.toDigits 10 n := by
  intro h
  have hdigit := Nat.isDigit_of_mem_toDigits (by decide) (by decide) h
  rw [hc] at hdigit
  cases hdigit

theorem not_mem_relpath {q : Path} {c : Char} (hc : c ≠ '/') (hq : ∀ name ∈ q, c ∉ name.toList) :
    c ∉ relpath q := by
  intro h
  rcases CutText.mem_intercalate h with h | ⟨piece, hpiece, h⟩
  · exact hc (List.mem_singleton.mp h)
  · obtain ⟨name, hname, rfl⟩ := List.mem_map.mp hpiece
    exact hq name hname h

theorem relpath_inj {q q' : Path} (hq : q ≠ []) (hq' : q' ≠ [])
    (hslash : ∀ name ∈ q, '/' ∉ name.toList) (hslash' : ∀ name ∈ q', '/' ∉ name.toList)
    (h : relpath q = relpath q') : q = q' := by
  have hparts : ∀ {p : Path}, p ≠ [] → (∀ name ∈ p, '/' ∉ name.toList) →
      (relpath p).splitOn '/' = p.map String.toList := by
    intro p hp hnames
    refine List.splitOn_intercalate '/' (fun piece hpiece => ?_) (by simpa using hp)
    obtain ⟨name, hname, rfl⟩ := List.mem_map.mp hpiece
    exact hnames name hname
  have hmap : q.map String.toList = q'.map String.toList := by
    rw [← hparts hq hslash, h, hparts hq' hslash']
  exact List.map_injective_iff.mpr (fun _ _ => String.toList_inj.mp) hmap

theorem fileText_inj {rel rel' : List Char} {content content' : List UInt8}
    (h : fileText sha rel content = fileText sha rel' content') :
    sha content = sha content' ∧ rel = rel' := by
  obtain ⟨htext, hrest⟩ := List.append_inj h
    (by rw [(sha content).length, (sha content').length])
  have hspace : ∀ n, ' ' ∉ Nat.toDigits 10 n := not_mem_decimal rfl
  have hrest := (List.cons.inj hrest).2
  exact ⟨HexDigest.ext htext, (CutText.append_cons_inj_of_notMem (hspace _) (hspace _) hrest).2⟩

theorem DestTree.path_ne_nil {t : DestTree} {q : Path} {i : Item} (h : t.itemAt q = some i) :
    q ≠ [] := by
  rintro rfl
  cases h

theorem DestTree.not_mem_path {t : DestTree} {q : Path} {i : Item} (h : t.itemAt q = some i) :
    (∀ name ∈ q, '/' ∉ name.toList) ∧ ∀ name ∈ q, '\n' ∉ name.toList := by
  have hnames := t.names (q, i) (t.mem_items.mpr h)
  exact ⟨fun name hname => (hnames name hname).1, fun name hname => (hnames name hname).2⟩

theorem not_mem_name (e : OSError) : '\n' ∉ e.name.toList := by
  cases e <;> simp [OSError.name]

theorem DestTree.newline_not_mem {t : DestTree} {line : List Char} (h : line ∈ t.lines sha) :
    '\n' ∉ line := by
  obtain ⟨⟨q, i⟩, hi, rfl⟩ := List.mem_map.mp h
  have hpath : '\n' ∉ relpath q :=
    not_mem_relpath (by decide) (DestTree.not_mem_path (t.mem_items.mp hi)).2
  cases i with
  | file content =>
      have hsha := (sha content).not_mem (c := '\n') rfl
      have hsize := not_mem_decimal (c := '\n') rfl content.length
      simp [listingLine, fileText, hsha, hsize, hpath]
  | unreadable e =>
      have hname := not_mem_name e
      rw [listingLine, unreadableText, String.toList_append]
      simp [hname, hpath]
  | link target => simp [listingLine, linkText, t.targets q target hi, hpath]

/-- Equal digests are of the same lines. -/
theorem DestTree.lines_perm {s t : DestTree}
    (hinj : Set.InjOn sha {m | s.Hashed sha m ∨ t.Hashed sha m})
    (h : s.digest sha = t.digest sha) : (s.lines sha).Perm (t.lines sha) := by
  have hbody := encode_inj (hinj (.inl .listing) (.inr .listing) h)
  rw [joinLines_eq, joinLines_eq] at hbody
  have hback : ∀ u : DestTree,
      CutText.lines (CutText.unlines (installListing sha u.read u.entries).1) =
        (u.lines sha).insertionSort (· ≤ ·) := by
    intro u
    refine CutText.lines_unlines fun line hline => u.newline_not_mem sha ?_
    exact (List.mem_insertionSort _).mp hline
  have hsorted : (s.lines sha).insertionSort (· ≤ ·) = (t.lines sha).insertionSort (· ≤ ·) := by
    rw [← hback s, hbody, hback t]
  exact (List.perm_insertionSort _ _).symm.trans
    ((hsorted ▸ List.perm_insertionSort (· ≤ ·) (t.lines sha)))

def DestTree.Readable (t : DestTree) : Prop := ∀ q e, t.itemAt q ≠ some (.unreadable e)

def SameFiles (s t : DestTree) : Prop :=
  ∀ q content, s.itemAt q = some (.file content) ↔ t.itemAt q = some (.file content)

def SameLinks (s t : DestTree) : Prop :=
  ∀ q target, s.itemAt q = some (.link target) ↔ t.itemAt q = some (.link target)

theorem itemAt_eq_iff {s t : DestTree} (hs : s.Readable) (ht : t.Readable) :
    s.itemAt = t.itemAt ↔ SameFiles s t ∧ SameLinks s t := by
  constructor
  · intro h
    exact ⟨fun q content => by rw [h], fun q target => by rw [h]⟩
  · rintro ⟨hfiles, hlinks⟩
    funext q
    refine Option.ext fun i => ?_
    cases i with
    | file content => exact hfiles q content
    | unreadable e => exact iff_of_false (hs q e) (ht q e)
    | link target => exact hlinks q target

/-- The text of the line, when it is a link's. -/
def linkLine : List Char → Option (List Char)
  | 'l' :: ' ' :: rest => some rest
  | _ => none

/-- The targets and paths of the links, as their lines have them. -/
def DestTree.linkTexts (t : DestTree) : List (List Char) :=
  (items t.read t.entries).filterMap fun e =>
    match e.2 with
    | .link target => some (linkText (relpath e.1) target)
    | _ => none

theorem DestTree.filterMap_lines (t : DestTree) :
    (t.lines sha).filterMap linkLine = t.linkTexts := by
  rw [DestTree.lines, DestTree.linkTexts, List.filterMap_map]
  refine List.filterMap_congr fun e _ => ?_
  obtain ⟨q, i⟩ := e
  cases i <;> rfl

def Item.isLink : Item → Bool
  | .link _ => true
  | _ => false

theorem DestTree.lines_perm_split (t : DestTree) :
    (t.lines sha).Perm (t.linkTexts.map (fun rest => 'l' :: ' ' :: rest) ++
      ((items t.read t.entries).filter fun e => !e.2.isLink).map (listingLine sha)) := by
  have hlinks : ((items t.read t.entries).filter fun e => e.2.isLink).map (listingLine sha) =
      t.linkTexts.map (fun rest => 'l' :: ' ' :: rest) := by
    rw [DestTree.linkTexts]
    induction items t.read t.entries with
    | nil => rfl
    | cons e rest ih =>
        obtain ⟨q, i⟩ := e
        cases i with
        | file content => simpa [Item.isLink] using ih
        | unreadable e => simpa [Item.isLink] using ih
        | link target => simpa [Item.isLink, listingLine] using ih
  rw [← hlinks, ← List.map_append, DestTree.lines]
  exact (List.filter_append_perm _ _).symm.map _

theorem DestTree.files_perm {s t : DestTree} (hs : s.Readable) (ht : t.Readable)
    (h : SameFiles s t) :
    ((items s.read s.entries).filter fun e => !e.2.isLink).Perm
      ((items t.read t.entries).filter fun e => !e.2.isLink) := by
  rw [List.perm_ext_iff_of_nodup (s.items_nodup.filter _) (t.items_nodup.filter _)]
  rintro ⟨q, i⟩
  rw [List.mem_filter, List.mem_filter, s.mem_items, t.mem_items]
  refine and_congr_left fun hi => ?_
  cases i with
  | file content => exact h q content
  | unreadable e => exact iff_of_false (hs q e) (ht q e)
  | link target => cases hi

theorem sameFiles_of_lines {s t : DestTree}
    (hinj : Set.InjOn sha {m | s.Hashed sha m ∨ t.Hashed sha m})
    (hperm : ∀ line ∈ s.lines sha, line ∈ t.lines sha) {q : Path} {content : List UInt8}
    (h : s.itemAt q = some (.file content)) : t.itemAt q = some (.file content) := by
  have hline : listingLine sha (q, .file content) ∈ s.lines sha :=
    List.mem_map_of_mem (s.mem_items.mpr h)
  obtain ⟨⟨q', i⟩, hi, heq⟩ := List.mem_map.mp (hperm _ hline)
  have hi := t.mem_items.mp hi
  cases i with
  | file content' =>
      obtain ⟨hsha, hrel⟩ := fileText_inj sha (List.cons.inj (List.cons.inj heq).2).2
      obtain rfl := hinj (.inr (.file hi)) (.inl (.file h)) hsha
      obtain rfl := relpath_inj (DestTree.path_ne_nil hi) (DestTree.path_ne_nil h)
        (DestTree.not_mem_path hi).1 (DestTree.not_mem_path h).1 hrel
      exact hi
  | unreadable e => cases (List.cons.inj heq).1
  | link target => cases (List.cons.inj heq).1

/-- The same files, and other links whose lines are the same: where a target ends
and a path begins is read another way. -/
def Reread (s t : DestTree) : Prop :=
  SameFiles s t ∧ s.linkTexts.Perm t.linkTexts ∧ ¬ SameLinks s t

/-- The digest tells two trees apart exactly when no line of a link is read two ways. -/
theorem digest_exact_iff {s t : DestTree} (hs : s.Readable) (ht : t.Readable)
    (hinj : Set.InjOn sha {m | s.Hashed sha m ∨ t.Hashed sha m}) :
    (s.digest sha = t.digest sha ↔ s.itemAt = t.itemAt) ↔ ¬ Reread s t := by
  have hdigest : s.digest sha = t.digest sha ↔ SameFiles s t ∧ s.linkTexts.Perm t.linkTexts := by
    constructor
    · intro h
      have hperm := DestTree.lines_perm sha hinj h
      have hback : Set.InjOn sha {m | t.Hashed sha m ∨ s.Hashed sha m} :=
        hinj.mono fun m hm => Or.symm hm
      refine ⟨fun q content => ⟨sameFiles_of_lines sha hinj fun _ => hperm.mem_iff.mp,
        sameFiles_of_lines sha hback fun _ => hperm.mem_iff.mpr⟩, ?_⟩
      rw [← s.filterMap_lines sha, ← t.filterMap_lines sha]
      exact hperm.filterMap _
    · rintro ⟨hfiles, htexts⟩
      have hlines : (s.lines sha).Perm (t.lines sha) :=
        (s.lines_perm_split sha).trans (((htexts.map _).append
          ((DestTree.files_perm hs ht hfiles).map _)).trans (t.lines_perm_split sha).symm)
      have hlisting := listing_eq_of_perm sha hlines
      exact congrArg (fun ls => sha (encode (joinLines ls))) hlisting
  rw [hdigest, itemAt_eq_iff hs ht, Reread]
  constructor
  · rintro h ⟨hfiles, htexts, hlinks⟩
    exact hlinks (h.mp ⟨hfiles, htexts⟩).2
  · intro h
    refine ⟨fun ⟨hfiles, htexts⟩ => ⟨hfiles, ?_⟩, fun hsame => ?_⟩
    · by_contra hlinks
      exact h ⟨hfiles, htexts, hlinks⟩
    · have heq := (itemAt_eq_iff hs ht).mpr hsame
      refine ⟨hsame.1, ?_⟩
      exact (DestTree.items_perm heq).filterMap _

/-- Paths of links without a space are read one way. -/
theorem not_reread_of_no_space {s t : DestTree}
    (hs : ∀ q target, s.itemAt q = some (.link target) → ' ' ∉ relpath q)
    (ht : ∀ q target, t.itemAt q = some (.link target) → ' ' ∉ relpath q) : ¬ Reread s t := by
  have hmem : ∀ {u : DestTree} {text : List Char}, text ∈ u.linkTexts ↔
      ∃ q target, u.itemAt q = some (.link target) ∧ linkText (relpath q) target = text := by
    intro u text
    rw [DestTree.linkTexts, List.mem_filterMap]
    constructor
    · rintro ⟨⟨q, i⟩, hi, htext⟩
      cases i with
      | link target => exact ⟨q, target, u.mem_items.mp hi, Option.some.inj htext⟩
      | file content => cases htext
      | unreadable e => cases htext
    · rintro ⟨q, target, hi, rfl⟩
      exact ⟨(q, .link target), u.mem_items.mpr hi, rfl⟩
  have hone : ∀ {u v : DestTree}, u.linkTexts.Perm v.linkTexts →
      (∀ q target, u.itemAt q = some (.link target) → ' ' ∉ relpath q) →
      (∀ q target, v.itemAt q = some (.link target) → ' ' ∉ relpath q) →
      ∀ q target, u.itemAt q = some (.link target) → v.itemAt q = some (.link target) := by
    intro u v hperm hu hv q target hq
    obtain ⟨q', target', hq', htext⟩ := hmem.mp (hperm.mem_iff.mp (hmem.mpr ⟨q, target, hq, rfl⟩))
    obtain ⟨htarget, hrel⟩ :=
      CutText.append_cons_inj_of_notMem_right (hv q' target' hq') (hu q target hq) htext
    obtain rfl := relpath_inj (DestTree.path_ne_nil hq') (DestTree.path_ne_nil hq)
      (DestTree.not_mem_path hq').1 (DestTree.not_mem_path hq).1 hrel
    obtain rfl := String.toList_inj.mp htarget
    exact hq'
  rintro ⟨-, hperm, hlinks⟩
  exact hlinks fun q target =>
    ⟨hone hperm hs ht q target, hone hperm.symm ht hs q target⟩

end

/-- A digest by its number. -/
def hexDigestOf (n : ℕ) : HexDigest where
  toDigest := hexdigest n
  hex c hc := by
    obtain ⟨i, -, rfl⟩ := List.mem_map.mp hc
    have hdigit : ∀ d < 16, isHex (Json.hexDigit d) = true := by decide
    exact hdigit _ (Nat.mod_lt _ (by decide))

/-- Every file of a sample has the one byte `x`. -/
def sampleReadings : Readings := fun _ => .ok [0x78]

/-- `usr/tool`, and `usr/a`, which links to `target`. -/
def sampleEntries (target : String) : List (String × DestNode) :=
  [("usr", .dir [("tool", .file 0), ("a", .link target false)])]

theorem sampleItems (target : String) : items sampleReadings (sampleEntries target) =
    [(["usr", "tool"], .file [0x78]), (["usr", "a"], .link target)] := rfl

def sampleDest (target : String) (h : '\n' ∉ target.toList) : DestTree where
  entries := sampleEntries target
  read := sampleReadings
  proper := .dir (by decide) (by simp)
    (.leaf (by decide) (by simp) (by simp) (.leaf (by decide) (by simp) (by simp) .nil)) .nil
  names := by
    rw [sampleItems]
    simp
  targets q target' hmem := by
    rw [sampleItems] at hmem
    simp only [List.mem_cons, Prod.mk.injEq, reduceCtorEq, and_false, Item.link.injEq,
      List.not_mem_nil, or_false, false_or] at hmem
    exact hmem.2 ▸ h

def linkToB : DestTree := sampleDest "b" (by simp)

def linkToC : DestTree := sampleDest "c" (by simp)

/-- The texts hashed for the two, with their SHA-256. -/
def listingTable : List (List UInt8 × ℕ) :=
  [([0x78], 0x2d711642b726b04401627ca9fbac32f5c8530fb1903cc4db02258717921a4881),
    (encode ("f 2d711642b726b04401627ca9fbac32f5".toList ++
      "c8530fb1903cc4db02258717921a4881 1 usr/tool\nl b usr/a\n".toList),
      0x61df45f38e48269fdd43d774f40a239a423e0bce377e3569fa8b9f90dc1f1219),
    (encode ("f 2d711642b726b04401627ca9fbac32f5".toList ++
      "c8530fb1903cc4db02258717921a4881 1 usr/tool\nl c usr/a\n".toList),
      0x1d6edeae91f45121914f8355c1e5906a627fac54b6f955f23750bb320b1b43b7),
    (encode "l a b c\n".toList,
      0xd14c768db03a80e59fbd15f095d09cc2a50e49e42fb54cf7da306226e42dd295)]

def listingSha (m : List UInt8) : HexDigest := hexDigestOf ((listingTable.lookup m).getD 0)

theorem listingSha_inj : Set.InjOn listingSha {m | m ∈ listingTable.map Prod.fst} := by
  have hpairs : ∀ m ∈ listingTable.map Prod.fst, ∀ m' ∈ listingTable.map Prod.fst,
      (listingSha m).text = (listingSha m').text → m = m' := by decide
  exact fun m hm m' hm' h => hpairs m hm m' hm' (by rw [h])

theorem sampleDest_items {t : DestTree} (h : t = linkToB ∨ t = linkToC) {q : Path} {i : Item}
    (hi : t.itemAt q = some i) :
    i = .file [0x78] ∨ q = ["usr", "a"] ∧ ∃ target, i = .link target := by
  have hmem := t.mem_items.mpr hi
  rcases h with rfl | rfl
  · have hlist : items linkToB.read linkToB.entries =
        [(["usr", "tool"], .file [0x78]), (["usr", "a"], .link "b")] := rfl
    rw [hlist] at hmem
    simp only [List.mem_cons, Prod.mk.injEq, List.not_mem_nil, or_false] at hmem
    exact hmem.imp And.right fun hlink => ⟨hlink.1, _, hlink.2⟩
  · have hlist : items linkToC.read linkToC.entries =
        [(["usr", "tool"], .file [0x78]), (["usr", "a"], .link "c")] := rfl
    rw [hlist] at hmem
    simp only [List.mem_cons, Prod.mk.injEq, List.not_mem_nil, or_false] at hmem
    exact hmem.imp And.right fun hlink => ⟨hlink.1, _, hlink.2⟩

theorem sampleDest_hashed {t : DestTree} (h : t = linkToB ∨ t = linkToC) {m : List UInt8}
    (hm : t.Hashed listingSha m) : m ∈ listingTable.map Prod.fst := by
  cases hm with
  | file hq =>
      rcases sampleDest_items h hq with hfile | ⟨-, target, hlink⟩
      · obtain rfl := Item.file.inj hfile
        exact List.mem_cons_self
      · cases hlink
  | listing =>
      rcases h with rfl | rfl
      · decide
      · decide

theorem sampleDest_readable {t : DestTree} (h : t = linkToB ∨ t = linkToC) : t.Readable := by
  intro q e hq
  rcases sampleDest_items h hq with hfile | ⟨-, target, hlink⟩
  · cases hfile
  · cases hlink

/-- Two trees apart in the target of a link have two digests. -/
theorem digest_exact_iff_sample :
    linkToB.digest listingSha = linkToC.digest listingSha ↔ linkToB.itemAt = linkToC.itemAt := by
  have hspace : ∀ {t : DestTree}, t = linkToB ∨ t = linkToC →
      ∀ q target, t.itemAt q = some (.link target) → ' ' ∉ relpath q := by
    intro t h q target hq
    rcases sampleDest_items h hq with hfile | ⟨rfl, -⟩
    · cases hfile
    · decide
  refine (digest_exact_iff listingSha (sampleDest_readable (.inl rfl))
    (sampleDest_readable (.inr rfl)) ?_).mpr
    (not_reread_of_no_space (hspace (.inl rfl)) (hspace (.inr rfl)))
  intro m hm m' hm' heq
  exact listingSha_inj (hm.elim (sampleDest_hashed (.inl rfl)) (sampleDest_hashed (.inr rfl)))
    (hm'.elim (sampleDest_hashed (.inl rfl)) (sampleDest_hashed (.inr rfl))) heq

/-- One link and nothing else. -/
def loneLink (name target : String) (hplain : FileSystem.Plain name)
    (hname : '/' ∉ name.toList ∧ '\n' ∉ name.toList) (htarget : '\n' ∉ target.toList) :
    DestTree where
  entries := [(name, .link target false)]
  read := sampleReadings
  proper := .leaf hplain (by simp) (by simp) .nil
  names e he a ha := by
    obtain rfl : e = ([name], .link target) := List.mem_singleton.mp he
    rwa [List.mem_singleton.mp ha]
  targets q target' hmem := by
    have heq := List.mem_singleton.mp hmem
    rw [Item.link.inj (Prod.mk.inj heq).2]
    exact htarget

/-- `c`, which links to `a b`. -/
def spacedTarget : DestTree := loneLink "c" "a b" (by decide) (by simp) (by simp)

/-- `b c`, which links to `a`. -/
def spacedPath : DestTree := loneLink "b c" "a" (by decide) (by simp) (by simp)

theorem loneLink_hashed {t : DestTree} (h : t = spacedTarget ∨ t = spacedPath) {m : List UInt8}
    (hm : t.Hashed listingSha m) : m = encode "l a b c\n".toList := by
  cases hm with
  | @file q content hq =>
      have hmem := t.mem_items.mpr hq
      rcases h with rfl | rfl <;> cases (Prod.mk.inj (List.mem_singleton.mp hmem)).2
  | listing =>
      rcases h with rfl | rfl
      · decide
      · decide

/-- Both links have the line `l a b c`. -/
theorem digest_spaced : Set.InjOn listingSha
      {m | spacedTarget.Hashed listingSha m ∨ spacedPath.Hashed listingSha m} ∧
    ¬ (spacedTarget.digest listingSha = spacedPath.digest listingSha ↔
      spacedTarget.itemAt = spacedPath.itemAt) := by
  constructor
  · intro m hm m' hm' _
    rw [hm.elim (loneLink_hashed (.inl rfl)) (loneLink_hashed (.inr rfl)),
      hm'.elim (loneLink_hashed (.inl rfl)) (loneLink_hashed (.inr rfl))]
  · intro h
    have hlisting := (loneLink_hashed (.inl rfl) (.listing (t := spacedTarget))).trans
      (loneLink_hashed (.inr rfl) (.listing (t := spacedPath))).symm
    have hitems := congrFun (h.mp (congrArg listingSha hlisting)) ["c"]
    exact absurd hitems (by decide)

end Veron.Driver
