/-
`copy_tree`: lifting one file system into another, entry by entry, with a table
of the inodes that have more than one link.
-/
import Mathlib.Data.Nat.Notation
import Mathlib.Logic.Function.Basic

namespace Veron.CopyTree

abbrev Text := List UInt8

def slash : UInt8 := 0x2f

/-- The permission bits with the set-id and sticky bits, and the owner. -/
structure Attr where
  mode : BitVec 12
  uid : ℕ
  gid : ℕ
deriving DecidableEq

/-- What is not a directory. -/
inductive Content where
  | reg (bytes : List UInt8)
  | symlink (target : Text)
  | chr (rdev : ℕ)
  | blk (rdev : ℕ)
  | fifo
  | sock
deriving DecidableEq

/-- A device node, a fifo or a socket. -/
def Content.special : Content → Bool
  | .reg _ => false
  | .symlink _ => false
  | _ => true

/-- An inode; a directory has no content. -/
structure Inode where
  content : Option Content
  attr : Attr
deriving DecidableEq

/-- What `lstat` and the reading calls say of the inodes of the device. -/
structure Source where
  content : ℕ → Content
  attr : ℕ → Attr
  nlink : ℕ → ℕ

/-- What `readdir` gives besides `.` and `..`, in its order: entries of the device
with what is below them, and directories and other entries of other devices. -/
inductive Listing where
  | nil
  | file (name : Text) (ino : ℕ) (rest : Listing)
  | dir (name : Text) (st : Attr) (sub rest : Listing)
  | mount (name : Text) (st : Attr) (rest : Listing)
  | foreign (name : Text) (rest : Listing)

/-- The names there are, by their paths, and their inodes. -/
@[ext] structure Fs where
  names : Text → Option ℕ
  inodes : ℕ → Inode
  next : ℕ
  names_lt : ∀ {t i}, names t = some i → i < next

def Fs.create (fs : Fs) (t : Text) (node : Inode) : Fs where
  names := Function.update fs.names t (some fs.next)
  inodes := Function.update fs.inodes fs.next node
  next := fs.next + 1
  names_lt {t' i} h := by
    by_cases ht : t' = t
    · rw [ht, Function.update_self] at h
      rw [← Option.some.inj h]
      exact Nat.lt_succ_self _
    · rw [Function.update_of_ne ht] at h
      exact Nat.lt_succ_of_lt (fs.names_lt h)

/-- What a call that changes an inode by its path does. -/
def Fs.modify (fs : Fs) (t : Text) (f : Inode → Inode) : Fs :=
  match fs.names t with
  | none => fs
  | some i => { fs with inodes := Function.update fs.inodes i (f (fs.inodes i)) }

/-- A change of owner takes the set-id bits from all but directories: the set-group-id
bit only where the group may execute. -/
def clearSetId (mode : BitVec 12) : BitVec 12 :=
  let mode := mode &&& ~~~0o4000#12
  if mode &&& 0o10#12 = 0 then mode else mode &&& ~~~0o2000#12

def Inode.chown (uid gid : ℕ) (node : Inode) : Inode :=
  { node with attr :=
      { mode := if node.content = none then node.attr.mode else clearSetId node.attr.mode
        uid, gid } }

def Inode.chmod (mode : BitVec 12) (node : Inode) : Inode :=
  { node with attr := { node.attr with mode } }

def Fs.chown (fs : Fs) (t : Text) (uid gid : ℕ) : Fs := fs.modify t (Inode.chown uid gid)

def Fs.chmod (fs : Fs) (t : Text) (mode : BitVec 12) : Fs := fs.modify t (Inode.chmod mode)

/-- `link`, which fails where there is nothing to link or something at the new path. -/
def Fs.link (fs : Fs) (first t : Text) : Option Fs :=
  match h : fs.names first, fs.names t with
  | some i, none => some
      { fs with
        names := Function.update fs.names t (some i)
        names_lt := fun {t' j} hj => by
          by_cases ht : t' = t
          · rw [ht, Function.update_self] at hj
            rw [← Option.some.inj hj]
            exact fs.names_lt h
          · rw [Function.update_of_ne ht] at hj
            exact fs.names_lt hj }
  | _, _ => none

def Fs.append (fs : Fs) (t : Text) (bytes : List UInt8) : Fs :=
  fs.modify t fun node =>
    match node.content with
    | some (.reg old) => { node with content := some (.reg (old ++ bytes)) }
    | _ => node

section

variable (umask : BitVec 12)

/-- A new inode is root's, and what the mask takes is not in its mode. -/
def Fs.new (fs : Fs) (t : Text) (content : Option Content) (mode : BitVec 12) : Fs :=
  fs.create t ⟨content, mode &&& ~~~umask, 0, 0⟩

/-- Where there is something already, `mkdir` and `mknod` say EEXIST, which is let pass. -/
def Fs.mkdir (fs : Fs) (t : Text) (mode : BitVec 12) : Fs :=
  if (fs.names t).isSome then fs else fs.new umask t none mode

def Fs.mknod (fs : Fs) (t : Text) (mode : BitVec 12) (content : Content) : Fs :=
  if (fs.names t).isSome then fs else fs.new umask t (some content) mode

/-- The mode of a symbolic link is not masked. -/
def Fs.symlink (fs : Fs) (target t : Text) : Fs :=
  if (fs.names t).isSome then fs else fs.create t ⟨some (.symlink target), 0o777#12, 0, 0⟩

/-- `open` for writing, which creates or empties the file. -/
def Fs.openTrunc (fs : Fs) (t : Text) (mode : BitVec 12) : Fs :=
  if (fs.names t).isSome then
    fs.modify t fun node =>
      match node.content with
      | some (.reg _) => { node with content := some (.reg []) }
      | _ => node
  else fs.new umask t (some (.reg [])) mode

/-- `struct linkent`. -/
structure Link where
  dev : ℕ
  ino : ℕ
  dst : Text

def linkSeen (links : List Link) (dev ino : ℕ) : Option Text :=
  (links.find? fun l => l.dev = dev && l.ino = ino).map Link.dst

def linkRemember (links : List Link) (dev ino : ℕ) (dst : Text) : List Link :=
  links ++ [⟨dev, ino, dst⟩]

/-- The file system written to, and the table. -/
structure State where
  fs : Fs
  links : List Link

/-- `copy_file`: its loops write all that is read. -/
def copyFile (fs : Fs) (bytes : List UInt8) (t : Text) (st : Attr) : Fs :=
  (((fs.openTrunc umask t st.mode).append t bytes).chown t st.uid st.gid).chmod t st.mode

/-- `snprintf` into 4096 bytes. -/
def join (dir name : Text) : Text := (dir ++ slash :: name).take 4095

variable (src : Source) (dev : ℕ)

/-- An entry that is no directory. -/
def copyEntry (ino : ℕ) (t : Text) (s : State) : State :=
  let st := src.attr ino
  let linked := if 1 < src.nlink ino then
      (linkSeen s.links dev ino).bind fun first => s.fs.link first t
    else none
  match linked with
  | some fs => { s with fs }
  | none =>
      let fs :=
        match src.content ino with
        | .symlink target => (s.fs.symlink (target.take 4095) t).chown t st.uid st.gid
        | .reg bytes => copyFile umask s.fs bytes t st
        | special => (s.fs.mknod umask t st.mode special).chown t st.uid st.gid
      { fs
        links := if 1 < src.nlink ino then linkRemember s.links dev ino t else s.links }

/-- The loop over a directory. -/
def copyTree : Listing → Text → State → State
  | .nil, _, s => s
  | .file name ino rest, dst, s =>
      copyTree rest dst (copyEntry umask src dev ino (join dst name) s)
  | .dir name st sub rest, dst, s =>
      let t := join dst name
      let s := copyTree sub t { s with fs := s.fs.mkdir umask t st.mode }
      copyTree rest dst { s with fs := (s.fs.chown t st.uid st.gid).chmod t st.mode }
  | .mount name st rest, dst, s =>
      let t := join dst name
      let fs := ((s.fs.mkdir umask t st.mode).chown t st.uid st.gid).chmod t st.mode
      copyTree rest dst { s with fs }
  | .foreign _ rest, dst, s => copyTree rest dst s

end

end Veron.CopyTree
