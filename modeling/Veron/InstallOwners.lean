/-
Which package a name belongs to, and which names a file holds: `_install_owners`,
`_refs_in_file` and the `owner` of `cmd_reachable`.
-/
import Veron.Elf
import Veron.Regex
import Veron.RestoreCheck

namespace Veron.Reachable

open Driver Regex

/-- A path below the root, a soname, or the name of an interpreter behind `USRBIN:`. -/
abbrev Ref := List Char

/-- A directory of a package, named after it, and its `installs.txt` where it has one. -/
structure PkgDir where
  name : Name
  nonempty : name ≠ ""
  listing : Option (List Char)

/-- `own[path] = pkg`: a path keeps its place in the order of iteration. -/
def assign (own : List (Ref × Name)) (path : Ref) (pkg : Name) : List (Ref × Name) :=
  if own.any fun e => e.1 = path then
    own.map fun e => if e.1 = path then (path, pkg) else e
  else own ++ [(path, pkg)]

/-- The path that a line of `installs.txt` names. -/
def installedPath (line : List Char) : Option Ref :=
  match splitWhite 3 (line.rdropWhile (· = '\n')) with
  | [kind, _, third, path] =>
      if kind = ['f'] then some path else if kind = ['l'] then some third else none
  | [kind, _, third] => if kind = ['l'] then some third else none
  | _ => none

/-- The lines of one listing. -/
def ownLines (own : List (Ref × Name)) (d : PkgDir) : List (Ref × Name) :=
  match d.listing with
  | none => own
  | some text => ((fileLines text).filterMap installedPath).foldl
      (fun own path => assign own path d.name) own

/-- `_install_owners`. -/
def installOwners (dirs : List PkgDir) : List (Ref × Name) := dirs.foldl ownLines []

/-- `os.path.basename`. -/
def basename (path : Ref) : Ref := path.rtakeWhile (· ≠ '/')

/-- The first path of a basename, the one that `by_base` takes the package of. -/
def pathOfBase (own : List (Ref × Name)) (base : Ref) : Option (Ref × Name) :=
  own.find? fun e => basename e.1 = base

/-- `by_base.get(base)`. -/
def byBase (own : List (Ref × Name)) (base : Ref) : Option Name :=
  (pathOfBase own base).map Prod.snd

def usrbin : Ref := ['U', 'S', 'R', 'B', 'I', 'N', ':']

/-- `owner`. -/
def owner (own : List (Ref × Name)) (ref : Ref) : Option Name :=
  if usrbin <+: ref then byBase own (ref.drop usrbin.length)
  else (own.lookup ref).or (byBase own (basename ref))

/-- The first path that a package installs. -/
def firstPath (own : List (Ref × Name)) (pkg : Name) : Option Ref :=
  (own.find? fun e => e.2 = pkg).map Prod.fst

/-- The bytes of ASCII text. -/
def bytes (s : String) : List UInt8 := s.toList.map fun c => UInt8.ofNat c.toNat

/-- Bytes that an expression of ASCII characters matched. -/
def asciiText (bs : List UInt8) : List Char := bs.map fun b => Char.ofNat b.toNat

def isAlnum (b : UInt8) : Bool :=
  (0x30 ≤ b && b ≤ 0x39) || (0x41 ≤ b && b ≤ 0x5a) || (0x61 ≤ b && b ≤ 0x7a)

/-- `[A-Za-z0-9._+-]`. -/
def nameByte (b : UInt8) : Bool := isAlnum b || b = 0x2e || b = 0x5f || b = 0x2b || b = 0x2d

/-- `[A-Za-z0-9._/+-]`. -/
def pathByte (b : UInt8) : Bool := nameByte b || b = 0x2f

/-- `r{0,n}`. -/
def atMost (r : Regex UInt8) : ℕ → Regex UInt8
  | 0 => .empty
  | n + 1 => optional (.seq r (atMost r n))

/-- `r{lo,hi}`. -/
def between (r : Regex UInt8) (lo hi : ℕ) : Regex UInt8 :=
  seqs (List.replicate lo r ++ [atMost r (hi - lo)])

/-- `/(?:usr/)?(?:bin|sbin|lib|libexec|share)/` and what follows it. -/
def pathLiteral (tail : Regex UInt8) : Regex UInt8 :=
  seqs [literal (bytes "/"), optional (literal (bytes "usr/")),
    .alt (literal (bytes "bin")) (.alt (literal (bytes "sbin")) (.alt (literal (bytes "lib"))
      (.alt (literal (bytes "libexec")) (literal (bytes "share"))))),
    literal (bytes "/"), tail]

/-- `lib[A-Za-z0-9._+-]{1,60}\.so(?:\.[0-9]+)*`. -/
def sonameLiteral : Regex UInt8 :=
  seqs [literal (bytes "lib"), between (.one nameByte) 1 60, literal (bytes ".so"),
    .star (.seq (literal (bytes ".")) (plus (.one fun b => 0x30 ≤ b && b ≤ 0x39)))]

/-- `m.group(0)` of every match, as text. -/
def literals (r : Regex UInt8) (b : List UInt8) : List (List Char) :=
  (findAll (.group 0 r) b).map fun m => asciiText (m.group 0)

/-- `lstrip("/")`. -/
def lstripSlash (t : List Char) : List Char := t.dropWhile (· = '/')

/-- `text.split()`. -/
def words (text : List Char) : List (List Char) :=
  (text.splitOnP isWhite).filter (· ≠ [])

/-- The reference that a word of a shebang line is. -/
def shebangRef (t : List Char) : Option Ref :=
  if t.head? = some '/' then some (lstripSlash t)
  else if t.head? ≠ some '-' ∧ '/' ∉ t then some (usrbin ++ t)
  else none

/-- The references of a shebang line. -/
def shebang (b : List UInt8) : List Ref :=
  if b.take 2 = bytes "#!" then
    (words ((Elf.decode (b.takeWhile (· ≠ 0x0a))).drop 2)).filterMap shebangRef
  else []

/-- `{2,120}` of the path literals. -/
def literalTail : Regex UInt8 := between (.one pathByte) 2 120

/-- `4 * 1024 * 1024`. -/
def readLimit : ℕ := 4 * 1024 * 1024

/-- `_refs_in_file`, of a file that may not open, in the order in which the references are
put into the set. -/
def refsInFile (content : Option (List UInt8)) : List Ref :=
  let needed := (Elf.elfDynamic content).2
  match content with
  | none => needed
  | some content =>
      let b := content.take readLimit
      needed ++ shebang b ++ (literals (pathLiteral literalTail) b).map lstripSlash ++
        literals sonameLiteral b

end Veron.Reachable
