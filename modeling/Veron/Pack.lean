/-
`pack.py`: the members of an archive, from what a directory walk and `lstat` say of a tree.
-/
import Mathlib.Data.List.Sort
import Mathlib.Data.List.Lex
import Veron.CopyTree

namespace Veron.Pack

open CopyTree (Text slash Content)

/-- What `lstat` says besides what an entry is, with the names of its owners. -/
structure Attr where
  mode : BitVec 12
  ino : ℕ
  dev : ℕ
  nlink : ℕ
  uid : ℕ
  gid : ℕ
  uname : Text
  gname : Text
  mtime : ℕ

/-- A directory has no content. -/
structure Status where
  content : Option Content
  attr : Attr

/-- What `scandir` gives, in its order; of a symbolic link also whether it leads to a
directory. -/
inductive Listing where
  | nil
  | leaf (name : Text) (content : Content) (toDir : Bool) (attr : Attr) (rest : Listing)
  | dir (name : Text) (attr : Attr) (sub rest : Listing)

/-- The path from the root of the walk, by `relpath`, `join` and `normpath`. -/
def pathOf (dp name : Text) : Text := if dp = [] then name else dp ++ slash :: name

def Listing.dns : Listing → List Text
  | nil => []
  | leaf name _ toDir _ rest => if toDir then name :: rest.dns else rest.dns
  | dir name _ _ rest => name :: rest.dns

def Listing.fns : Listing → List Text
  | nil => []
  | leaf name _ toDir _ rest => if toDir then rest.fns else name :: rest.fns
  | dir _ _ _ rest => rest.fns

def Listing.here (dp : Text) (l : Listing) : List Text := (l.dns ++ l.fns).map (pathOf dp)

/-- The directories that `os.walk` comes to next, which no symbolic link is. -/
def Listing.deeper (dp : Text) : Listing → List Text
  | nil => []
  | leaf _ _ _ _ rest => rest.deeper dp
  | dir name _ sub rest =>
      sub.here (pathOf dp name) ++ (sub.deeper (pathOf dp name) ++ rest.deeper dp)

def Listing.walk (l : Listing) : List Text := l.here [] ++ l.deeper []

/-- Every path with what `lstat` says of it. -/
def Listing.stats (dp : Text) : Listing → List (Text × Status)
  | nil => []
  | leaf name content _ attr rest => (pathOf dp name, ⟨some content, attr⟩) :: rest.stats dp
  | dir name attr sub rest =>
      (pathOf dp name, ⟨none, attr⟩) :: (sub.stats (pathOf dp name) ++ rest.stats dp)

def Listing.lstat (l : Listing) (p : Text) : Option Status := (l.stats []).lookup p

/-- A regular file by its inode and device, anything else by its path. -/
def Listing.key (l : Listing) (p : Text) : Text ⊕ ℕ × ℕ :=
  match l.lstat p with
  | some ⟨some (.reg _), attr⟩ => if attr.ino = 0 then .inl p else .inr (attr.ino, attr.dev)
  | _ => .inl p

/-- A listing as a file system gives it. -/
structure Tree where
  listing : Listing
  nodup : ((listing.stats []).map Prod.fst).Nodup
  relative : ∀ x ∈ listing.stats [], x.1.head? ≠ some slash
  /-- A file with a second name counts its links. -/
  nlink : ∀ x ∈ listing.stats [], ∀ y ∈ listing.stats [], x.1 ≠ y.1 →
    listing.key x.1 = listing.key y.1 → 1 < x.2.attr.nlink

inductive MemberType where
  | reg
  | lnk
  | sym
  | chr
  | blk
  | dir
  | fifo
deriving DecidableEq

structure TarInfo where
  name : Text
  mode : BitVec 12
  uid : ℕ
  gid : ℕ
  size : ℕ
  mtime : ℕ
  type : MemberType
  linkname : Text
  uname : Text
  gname : Text
  devmajor : ℕ
  devminor : ℕ
deriving DecidableEq

/-- The members so far, and the names by which files with more links are in the archive. -/
structure TarFile where
  members : List (TarInfo × List UInt8)
  inodes : List ((ℕ × ℕ) × Text)

def TarFile.new : TarFile := ⟨[], []⟩

inductive Raised where
  | unicodeEncodeError
  | fileNotFoundError
  /-- `gettarinfo` has no member for a socket. -/
  | attributeError
deriving DecidableEq

def major (rdev : ℕ) : ℕ := ((rdev >>> 8) &&& 0xfff) ||| ((rdev >>> 32) &&& 0xfffff000)

def minor (rdev : ℕ) : ℕ := (rdev &&& 0xff) ||| ((rdev >>> 12) &&& 0xffffff00)

def tarInfo (name : Text) (attr : Attr) (type : MemberType) (size : ℕ) (linkname : Text)
    (rdev : ℕ) : TarInfo where
  name
  mode := attr.mode
  uid := attr.uid
  gid := attr.gid
  size
  mtime := attr.mtime
  type
  linkname
  uname := attr.uname
  gname := attr.gname
  devmajor := major rdev
  devminor := minor rdev

/-- The member that a file with more links is written as a link to. -/
def linkTo (tf : TarFile) (name : Text) (attr : Attr) : Option Text :=
  if 1 < attr.nlink then (tf.inodes.lookup (attr.ino, attr.dev)).filter (name != ·) else none

/-- `TarFile.gettarinfo`, with the inodes that it has seen then. -/
def gettarinfo (tf : TarFile) (arcname : Text) (st : Status) :
    Option (TarInfo × List ((ℕ × ℕ) × Text)) :=
  let name := arcname.dropWhile (· == slash)
  match st.content with
  | none => some (tarInfo name st.attr .dir 0 [] 0, tf.inodes)
  | some (.reg bytes) =>
      match linkTo tf name st.attr with
      | some other => some (tarInfo name st.attr .lnk 0 other 0, tf.inodes)
      | none => some (tarInfo name st.attr .reg bytes.length [] 0,
          if st.attr.ino = 0 then tf.inodes
          else ((st.attr.ino, st.attr.dev), name) :: tf.inodes)
  | some .fifo => some (tarInfo name st.attr .fifo 0 [] 0, tf.inodes)
  | some (.symlink target) => some (tarInfo name st.attr .sym 0 target 0, tf.inodes)
  | some (.chr rdev) => some (tarInfo name st.attr .chr 0 [] rdev, tf.inodes)
  | some (.blk rdev) => some (tarInfo name st.attr .blk 0 [] rdev, tf.inodes)
  | some .sock => none

/-- Without owners and times. -/
def TarInfo.plain (ti : TarInfo) : TarInfo :=
  { ti with uid := 0, gid := 0, uname := [], gname := [], mtime := 0 }

/-- What `addfile` reads for a member. -/
def dataOf (ti : TarInfo) (st : Status) : List UInt8 :=
  match ti.type, st.content with
  | .reg, some (.reg bytes) => bytes
  | _, _ => []

/-- Whether bytes are UTF-8, with `n` bytes between `lo` and `hi` still to come of a character. -/
def utf8 : ℕ → UInt8 → UInt8 → Text → Bool
  | 0, _, _, [] => true
  | _ + 1, _, _, [] => false
  | n + 1, lo, hi, b :: rest => lo ≤ b && b ≤ hi && utf8 n 0x80 0xbf rest
  | 0, _, _, b :: rest =>
      if b < 0x80 then utf8 0 0x80 0xbf rest
      else if 0xc2 ≤ b && b ≤ 0xdf then utf8 1 0x80 0xbf rest
      else if b == 0xe0 then utf8 2 0xa0 0xbf rest
      else if b == 0xed then utf8 2 0x80 0x9f rest
      else if 0xe1 ≤ b && b ≤ 0xef then utf8 2 0x80 0xbf rest
      else if b == 0xf0 then utf8 3 0x90 0xbf rest
      else if 0xf1 ≤ b && b ≤ 0xf3 then utf8 3 0x80 0xbf rest
      else if b == 0xf4 then utf8 3 0x80 0x8f rest
      else false

/-- A name that `s.encode()` gives the bytes of. -/
def encodes (p : Text) : Bool := utf8 0 0x80 0xbf p

def join (a b : Text) : Text :=
  if b.head? = some slash then b
  else if a = [] ∨ a.getLast? = some slash then a ++ b
  else a ++ slash :: b

def arcname (arcroot rel : Text) : Text := if arcroot = [] then rel else join arcroot rel

def excluded (exclude : List Text) (e : Text) : Bool :=
  exclude.any fun x => e == x || (x ++ [slash]).isPrefixOf e

/-- Python's order of bytes. -/
def bytesLe (p q : Text) : Bool := p.map UInt8.toNat ≤ q.map UInt8.toNat

def addAll (l : Listing) (arcroot : Text) : List Text → TarFile → TarFile × Option Raised
  | [], tf => (tf, none)
  | rel :: rest, tf =>
      match l.lstat rel with
      | none => (tf, some .fileNotFoundError)
      | some st =>
          match gettarinfo tf (arcname arcroot rel) st with
          | none => (tf, some .attributeError)
          | some (ti, inodes) =>
              addAll l arcroot rest ⟨tf.members ++ [(ti.plain, dataOf ti st)], inodes⟩

def addTree (tf : TarFile) (l : Listing) (arcroot : Text) (exclude : List Text) :
    TarFile × Option Raised :=
  let entries := l.walk.filter fun e => !excluded exclude e
  if entries.all encodes then addAll l arcroot (entries.insertionSort (bytesLe · ·)) tf
  else (tf, some .unicodeEncodeError)

end Veron.Pack
