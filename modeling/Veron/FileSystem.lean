/-
A file system by physical paths: directories, symbolic links and files with
their inodes.  Paths given to it are resolved through symbolic links.
-/
import Mathlib.Data.List.Induction
import Mathlib.Logic.Function.Basic
import Mathlib.Tactic.Common
import Veron.Dict

namespace Veron.Files

abbrev Path := List String

inductive Kind where
  | dir
  | file (ino : ℕ)
  | link (target : String)
deriving DecidableEq, Repr

def Kind.inodes : Kind → List ℕ
  | .file i => [i]
  | _ => []

structure FileData where
  mode : ℕ
  content : List UInt8
deriving DecidableEq, Repr

/-- What stands at every physical path, the data of the inodes, and a bound of
those in use.  What stands somewhere stands in a directory. -/
structure FileSystem where
  entry : Path → Option Kind
  inode : ℕ → FileData
  next : ℕ
  root : entry [] = some .dir
  parent : ∀ p name, entry (p ++ [name]) ≠ none → entry p = some .dir
  bound : ∀ p i, entry p = some (.file i) → i < next

/-- The parts of a path between its slashes. -/
def splitSlash : List Char → List (List Char)
  | [] => [[]]
  | '/' :: cs => [] :: splitSlash cs
  | c :: cs =>
      match splitSlash cs with
      | [] => [[c]]
      | part :: parts => (c :: part) :: parts

def components (target : String) : List String :=
  (splitSlash target.toList).map String.ofList

def isAbsolute (target : String) : Bool := target.toList.head? = some '/'

namespace FileSystem

variable (fs : FileSystem)

/-- Directories from `cwd` down; `follow` finds the directory of a link.  The
number counts the links that may still be followed. -/
def walk (follow : ℕ → Path → String → Option (Path × ℕ)) :
    ℕ → Path → List String → Option (Path × ℕ)
  | left, cwd, [] => some (cwd, left)
  | left, cwd, name :: rest =>
      if name = "" ∨ name = "." then walk follow left cwd rest
      else if name = ".." then walk follow left cwd.dropLast rest
      else
        match fs.entry (cwd ++ [name]) with
        | some .dir => walk follow left (cwd ++ [name]) rest
        | some (.link target) =>
            match left with
            | 0 => none
            | left + 1 =>
                (follow left cwd target).bind fun p => walk follow p.2 p.1 rest
        | _ => none

attribute [local simp] walk

def follow : ℕ → ℕ → Path → String → Option (Path × ℕ)
  | 0, _, _, _ => none
  | depth + 1, left, cwd, target =>
      fs.walk (follow depth) left (if isAbsolute target then [] else cwd) (components target)

/-- The links that one lookup follows. -/
def maxLinks : ℕ := 40

/-- The physical path of a directory. -/
def resolve (cwd : Path) (path : List String) : Option Path :=
  (fs.walk (fs.follow maxLinks) maxLinks cwd path).map Prod.fst

def isdir (cwd : Path) (path : List String) : Bool := (fs.resolve cwd path).isSome

/-- `path.lexists`, of `name` in a directory. -/
def lexists (cwd : Path) (path : List String) (name : String) : Bool :=
  match fs.resolve cwd path with
  | some d => (fs.entry (d ++ [name])).isSome
  | none => false

/-- The file system with another entry `name` in the directory `d`. -/
def put (d : Path) (name : String) (k : Option Kind) (hdir : fs.entry d = some .dir)
    (hold : fs.entry (d ++ [name]) ≠ some .dir)
    (hk : ∀ i, k = some (.file i) → i < fs.next) : FileSystem where
  entry := Function.update fs.entry (d ++ [name]) k
  inode := fs.inode
  next := fs.next
  root := by
    rw [Function.update_of_ne (by simp)]
    exact fs.root
  parent := by
    intro p a hne
    by_cases hp : p ++ [a] = d ++ [name]
    · obtain ⟨rfl, -⟩ := List.append_inj' hp rfl
      rw [Function.update_of_ne (by simp)]
      exact hdir
    · rw [Function.update_of_ne hp] at hne
      have hpdir := fs.parent p a hne
      have hpne : p ≠ d ++ [name] := by
        rintro rfl
        exact hold hpdir
      rw [Function.update_of_ne hpne]
      exact hpdir
  bound := by
    intro p i hpi
    by_cases hp : p = d ++ [name]
    · rw [hp, Function.update_self] at hpi
      exact hk i hpi
    · rw [Function.update_of_ne hp] at hpi
      exact fs.bound p i hpi

/-- A new inode. -/
def alloc (data : FileData) : FileSystem where
  entry := fs.entry
  inode := Function.update fs.inode fs.next data
  next := fs.next + 1
  root := fs.root
  parent := fs.parent
  bound p i h := Nat.lt_succ_of_lt (fs.bound p i h)

/-- A new entry that is no file, where there is none. -/
def create (d : Path) (name : String) (k : Kind) (hk : ∀ i, k ≠ .file i) : Option FileSystem :=
  if hdir : fs.entry d = some .dir then
    if hnone : fs.entry (d ++ [name]) = none then
      some (fs.put d name (some k) hdir (by simp [hnone])
        fun i hi => absurd (Option.some.inj hi) (hk i))
    else none
  else none

def mkdir (cwd : Path) (path : List String) (name : String) : Option FileSystem :=
  (fs.resolve cwd path).bind fun d => fs.create d name .dir (by simp)

def symlink (target : String) (cwd : Path) (path : List String) (name : String) :
    Option FileSystem :=
  (fs.resolve cwd path).bind fun d => fs.create d name (.link target) (by simp)

def unlink (cwd : Path) (path : List String) (name : String) : Option FileSystem :=
  (fs.resolve cwd path).bind fun d =>
    if hdir : fs.entry d = some .dir then
      if hold : fs.entry (d ++ [name]) ≠ some .dir ∧ fs.entry (d ++ [name]) ≠ none then
        some (fs.put d name none hdir hold.1 (by simp))
      else none
    else none

/-- `os.link`, from a file to a name that is free. -/
def link (cwd : Path) (src : List String) (srcName : String) (path : List String)
    (name : String) : Option FileSystem :=
  (fs.resolve cwd src).bind fun s => (fs.resolve cwd path).bind fun d =>
    match hs : fs.entry (s ++ [srcName]) with
    | some (.file i) =>
        if hdir : fs.entry d = some .dir then
          if hnone : fs.entry (d ++ [name]) = none then
            some (fs.put d name (some (.file i)) hdir (by simp [hnone]) (by
              intro j hj
              cases hj
              exact fs.bound _ _ hs))
          else none
        else none
    | _ => none

/-- `shutil.copy2` to a name that is free. -/
def copy (data : FileData) (cwd : Path) (path : List String) (name : String) :
    Option FileSystem :=
  (fs.resolve cwd path).bind fun d =>
    if hdir : fs.entry d = some .dir then
      if hnone : fs.entry (d ++ [name]) = none then
        some ((fs.alloc data).put d name (some (.file fs.next)) hdir (by simp [alloc, hnone])
          (by
            intro i hi
            cases hi
            exact Nat.lt_succ_self _))
      else none
    else none

variable {fs}

theorem put_entry_self {d : Path} {name : String} {k : Option Kind} {hdir hold hk} :
    (fs.put d name k hdir hold hk).entry (d ++ [name]) = k :=
  Function.update_self _ _ _

theorem put_entry_ne {d p : Path} {name : String} {k : Option Kind} {hdir hold hk}
    (h : p ≠ d ++ [name]) : (fs.put d name k hdir hold hk).entry p = fs.entry p :=
  Function.update_of_ne h _ _

/-- What is above something that stands in the file system is a directory. -/
theorem entry_of_append {p q : Path} (hq : q ≠ []) (h : fs.entry (p ++ q) ≠ none) :
    fs.entry p = some .dir := by
  induction q using List.reverseRecOn with
  | nil => exact absurd rfl hq
  | append_singleton q a ih =>
      rw [← List.append_assoc] at h
      have hdir := fs.parent _ _ h
      by_cases hnil : q = []
      · simpa [hnil] using hdir
      · exact ih hnil (by simp [hdir])

/-- A component that a directory can have as an entry. -/
def Plain (name : String) : Prop := name ≠ "" ∧ name ≠ "." ∧ name ≠ ".."

instance : DecidablePred Plain :=
  fun name => inferInstanceAs (Decidable (name ≠ "" ∧ name ≠ "." ∧ name ≠ ".."))

/-- Directories, with no link on the way, are gone through. -/
theorem walk_append (g : ℕ → Path → String → Option (Path × ℕ)) (left : ℕ) {cwd path : Path}
    (hplain : ∀ name ∈ path, Plain name) (hdir : fs.entry (cwd ++ path) = some .dir)
    (rest : List String) :
    fs.walk g left cwd (path ++ rest) = fs.walk g left (cwd ++ path) rest := by
  induction path generalizing cwd with
  | nil => simp
  | cons name path ih =>
      obtain ⟨hempty, hdot, hdots⟩ := hplain name List.mem_cons_self
      rw [List.append_cons] at hdir
      have hname : fs.entry (cwd ++ [name]) = some .dir := by
        cases path with
        | nil => simpa using hdir
        | cons b path => exact entry_of_append (List.cons_ne_nil b path) (by rw [hdir]; simp)
      rw [List.cons_append, walk, if_neg (by simp [hempty, hdot]), if_neg hdots, hname]
      simp only
      rw [ih (fun a ha => hplain a (List.mem_cons_of_mem _ ha)) hdir, ← List.append_cons]

/-- The path of a directory, with no link on the way, leads to it. -/
theorem resolve_dir {cwd path : Path} (hplain : ∀ name ∈ path, Plain name)
    (hdir : fs.entry (cwd ++ path) = some .dir) : fs.resolve cwd path = some (cwd ++ path) := by
  have hwalk := walk_append (fs.follow maxLinks) maxLinks hplain hdir []
  rw [List.append_nil] at hwalk
  rw [resolve, hwalk, walk]
  rfl

/-- Of what is in a directory, a directory and perhaps a link is one. -/
theorem entry_of_isdir {cwd path : Path} {name : String} (hplain : ∀ a ∈ path, Plain a)
    (hname : Plain name) (hdir : fs.entry (cwd ++ path) = some .dir)
    (hlink : ∀ target, fs.entry (cwd ++ path ++ [name]) ≠ some (.link target))
    (h : fs.isdir cwd (path ++ [name])) : fs.entry (cwd ++ path ++ [name]) = some .dir := by
  rw [isdir, resolve, walk_append _ _ hplain hdir, walk, if_neg (by simp [hname.1, hname.2.1]),
    if_neg hname.2.2] at h
  cases hentry : fs.entry (cwd ++ path ++ [name]) with
  | none =>
      rw [hentry] at h
      cases h
  | some k => cases k with
    | dir => rfl
    | file i =>
        rw [hentry] at h
        cases h
    | link target => exact absurd hentry (hlink target)

/-- `fs'` is `fs` with `k` at `p`. -/
structure Sets (fs fs' : FileSystem) (p : Path) (k : Option Kind) : Prop where
  self : fs'.entry p = k
  other : ∀ q, q ≠ p → fs'.entry q = fs.entry q

theorem Sets.refl {p : Path} {k : Option Kind} (h : fs.entry p = k) : Sets fs fs p k :=
  ⟨h, fun _ _ => rfl⟩

theorem Sets.trans {fs₁ fs₂ : FileSystem} {p : Path} {k l : Option Kind} (h : Sets fs fs₁ p k)
    (h' : Sets fs₁ fs₂ p l) : Sets fs fs₂ p l :=
  ⟨h'.self, fun q hq => (h'.other q hq).trans (h.other q hq)⟩

theorem sets_put {d : Path} {name : String} {k : Option Kind} {hdir hold hk} :
    Sets fs (fs.put d name k hdir hold hk) (d ++ [name]) k :=
  ⟨put_entry_self, fun _ hq => put_entry_ne hq⟩

section

variable {fs' : FileSystem} {cwd d path : Path} {name : String}

theorem create_spec {k : Kind} {hk} (h : fs.create d name k hk = some fs') :
    Sets fs fs' (d ++ [name]) (some k) ∧ fs'.inode = fs.inode ∧ fs'.next = fs.next := by
  rw [create] at h
  split_ifs at h with hdir hnone
  obtain rfl := Option.some.inj h
  exact ⟨sets_put, rfl, rfl⟩

theorem mkdir_spec (hd : fs.resolve cwd path = some d) (h : fs.mkdir cwd path name = some fs') :
    Sets fs fs' (d ++ [name]) (some .dir) ∧ fs'.inode = fs.inode ∧ fs'.next = fs.next := by
  rw [mkdir, hd, Option.bind_some] at h
  exact create_spec h

theorem symlink_spec {target : String} (hd : fs.resolve cwd path = some d)
    (h : fs.symlink target cwd path name = some fs') :
    Sets fs fs' (d ++ [name]) (some (.link target)) ∧ fs'.inode = fs.inode ∧
      fs'.next = fs.next := by
  rw [symlink, hd, Option.bind_some] at h
  exact create_spec h

theorem unlink_spec (hd : fs.resolve cwd path = some d)
    (h : fs.unlink cwd path name = some fs') :
    Sets fs fs' (d ++ [name]) none ∧ fs'.inode = fs.inode ∧ fs'.next = fs.next := by
  rw [unlink, hd, Option.bind_some] at h
  split_ifs at h with hdir hold
  obtain rfl := Option.some.inj h
  exact ⟨sets_put, rfl, rfl⟩

theorem copy_spec {data : FileData} (hd : fs.resolve cwd path = some d)
    (h : fs.copy data cwd path name = some fs') :
    Sets fs fs' (d ++ [name]) (some (.file fs.next)) ∧
      fs'.inode = Function.update fs.inode fs.next data ∧ fs'.next = fs.next + 1 := by
  rw [copy, hd, Option.bind_some] at h
  split_ifs at h with hdir hnone
  obtain rfl := Option.some.inj h
  exact ⟨⟨put_entry_self, fun _ hq => put_entry_ne hq⟩, rfl, rfl⟩

/-- A hard link to a file, to a free name, can be made. -/
theorem link_spec {s src : Path} {srcName : String} {i : ℕ} (hs : fs.resolve cwd src = some s)
    (hfile : fs.entry (s ++ [srcName]) = some (.file i)) (hd : fs.resolve cwd path = some d)
    (hdir : fs.entry d = some .dir) (hnone : fs.entry (d ++ [name]) = none) :
    ∃ fs', fs.link cwd src srcName path name = some fs' ∧
      Sets fs fs' (d ++ [name]) (some (.file i)) ∧ fs'.inode = fs.inode ∧ fs'.next = fs.next := by
  rw [link, hs, Option.bind_some, hd, Option.bind_some]
  split
  · rename_i j hj
    obtain rfl : i = j := by simpa [hfile] using hj
    rw [dif_pos hdir, dif_pos hnone]
    exact ⟨_, rfl, sets_put, rfl, rfl⟩
  · rename_i hno
    exact absurd hfile (hno i)

end

end FileSystem

/-- A file system given by its entries. -/
def FileSystem.ofList (es : List (Path × Kind)) (inode : ℕ → FileData) (next : ℕ)
    (hroot : es.lookup [] = some .dir)
    (hparent : ∀ e ∈ es, e.1 ≠ [] → es.lookup e.1.dropLast = some .dir)
    (hbound : ∀ e ∈ es, ∀ i ∈ e.2.inodes, i < next) : FileSystem where
  entry p := es.lookup p
  inode := inode
  next := next
  root := hroot
  parent p name h := by
    obtain ⟨k, hk⟩ := Option.ne_none_iff_exists'.mp h
    simpa using hparent _ (mem_of_lookup hk) (by simp)
  bound p i h := hbound _ (mem_of_lookup h) i (List.mem_singleton_self i)

end Veron.Files
