/-
Staging a package's DESTDIR into the build root.
-/
import Veron.Dict
import Veron.FileSystem

namespace Veron.Driver

open Files

/-- What stands in a DESTDIR.  A file is known by its device and inode, and of a
link the host tells whether a directory is behind it. -/
inductive DestNode where
  | file (key : ℕ)
  | link (target : String) (toDir : Bool)
  | dir (entries : List (String × DestNode))

structure DestFile where
  data : FileData
  nlink : ℕ

/-- An entry that is staged. -/
inductive Leaf where
  | file (key : ℕ)
  | link (target : String)
deriving DecidableEq

def filename : String × DestNode → Option (String × Leaf)
  | (name, .file key) => some (name, .file key)
  | (name, .link target false) => some (name, .link target)
  | _ => none

def linked : String × DestNode → Option (String × Leaf)
  | (name, .link target true) => some (name, .link target)
  | _ => none

/-- `filenames + linked`. -/
def leaves (entries : List (String × DestNode)) : List (String × Leaf) :=
  entries.filterMap filename ++ entries.filterMap linked

mutual

/-- What `walk_tree` yields at `rel` and below. -/
def walkNode (rel : Path) : DestNode → List (Path × List (String × Leaf))
  | .dir entries => (rel, leaves entries) :: walkSubdirs rel entries
  | _ => []

def walkSubdirs (rel : Path) : List (String × DestNode) → List (Path × List (String × Leaf))
  | [] => []
  | e :: rest => walkEntry rel e ++ walkSubdirs rel rest

def walkEntry (rel : Path) : String × DestNode → List (Path × List (String × Leaf))
  | (name, node) => walkNode (rel ++ [name]) node

end

def walkTree (entries : List (String × DestNode)) : List (Path × List (String × Leaf)) :=
  ([], leaves entries) :: walkSubdirs [] entries

/-- `os.makedirs(path, exist_ok=True)`, of a path from its end.  Below a head that
exists and is no directory nothing can be made either way. -/
def makedirs (fs : FileSystem) (root : Path) : List String → Option FileSystem
  | [] => if fs.isdir root [] then some fs else none
  | name :: head =>
      (if fs.isdir root head.reverse then some fs else makedirs fs root head).bind fun fs =>
        match fs.mkdir root head.reverse name with
        | some fs => some fs
        | none => if fs.isdir root (head.reverse ++ [name]) then some fs else none

/-- `if os.path.lexists(dst): os.unlink(dst)`. -/
def unlinkExisting (fs : FileSystem) (root rel : Path) (name : String) : Option FileSystem :=
  if fs.lexists root rel name then fs.unlink root rel name else some fs

/-- The variables of the loop of `stage_into`. -/
structure Stage where
  fs : FileSystem
  n : ℕ
  seen : List (ℕ × Path × String)

section

variable (data : ℕ → DestFile) (root : Path)

/-- The body of the inner loop, for the entry `e` of the directory `rel`. -/
def stageLeaf (rel : Path) (s : Stage) (e : String × Leaf) : Option Stage := do
  let fs ← unlinkExisting s.fs root rel e.1
  match e.2 with
  | .link target => do
      let fs ← fs.symlink target root rel e.1
      some ⟨fs, s.n + 1, s.seen⟩
  | .file key =>
      match if 1 < (data key).nlink then s.seen.lookup key else none with
      | some first =>
          match fs.link root first.1 first.2 rel e.1 with
          | some fs => some ⟨fs, s.n + 1, s.seen⟩
          | none => do
              let fs ← fs.copy (data key).data root rel e.1
              some ⟨fs, s.n + 1, s.seen⟩
      | none => do
          let fs ← fs.copy (data key).data root rel e.1
          some ⟨fs, s.n + 1,
            if 1 < (data key).nlink then (key, rel, e.1) :: s.seen else s.seen⟩

def stageDir (s : Stage) (w : Path × List (String × Leaf)) : Option Stage := do
  let fs ← makedirs s.fs root w.1.reverse
  w.2.foldlM (stageLeaf data root w.1) { s with fs := fs }

/-- The build root afterwards and the count, unless it dies or raises. -/
def stageInto (fs : FileSystem) (entries : List (String × DestNode)) :
    Option (FileSystem × ℕ) := do
  if fs.isdir root ["usr", "bin"] then
    let s ← (walkTree entries).foldlM (stageDir data root) ⟨fs, 0, []⟩
    some (s.fs, s.n)
  else none

end

end Veron.Driver
