/-
`veron-trace --verify --hash-files --strays`: the records of an image against each other, the
files and the links that they name against the disk, and the paths of the disk against the
records.  The verdict counts the failures of all passes.
-/
import Mathlib.Logic.Function.Basic
import Veron.CutText

namespace Veron.Trace

open CutText

structure Records where
  substages : List Char
  packages : List Char
  chain : List Char
  stripped : Option (List Char)
  extra : Option (List Char)

inductive Item (C : Type) where
  | file (content : C)
  | link (target : List Char)

/-- The characters that mean something in a regular expression, and those that end a field
or a line. -/
def special : List Char := "\\^$.[]|()*+?\x7b\x7d\t\n".toList

/-- The tree at `$ROOT`.  `item` is a file or a link by its path below the root, on the root's own
file system, and `found` what `find` lists of them.  `regularAt` is the file that `[ -f ]` and
`sha256sum` come to, `linkAt` the target that `[ -L ]` and `readlink` come to; on the way they
may follow links, and leave the file system. -/
structure Root (C : Type) where
  root : List Char
  item : List Char → Option (Item C)
  found : List (List Char)
  regularAt : List Char → Option C
  linkAt : List Char → Option (List Char)
  plain : ∀ c ∈ root, c ∉ special
  mem_found : ∀ path, path ∈ found ↔ item path ≠ none
  named : ∀ path ∈ found, path ≠ [] ∧ path.head? ≠ some '/' ∧ '\n' ∉ path
  regularAt_file : ∀ path content, item path = some (.file content) → regularAt path = some content
  linkAt_link : ∀ path target, item path = some (.link target) → linkAt path = some target
  target : ∀ path target, item path = some (.link target) → '\n' ∉ target

/-- The programs that the script calls.  `sameNumber` is how awk compares two fields that both
look like numbers; it is `none` where one does not. -/
structure Tools (C : Type) where
  sha256sum : C → List Char
  sameNumber : List Char → List Char → Option Bool

variable {C : Type}

/-- `==` of awk, between two fields. -/
def Tools.same (tools : Tools C) (a b : List Char) : Bool :=
  (tools.sameNumber a b).getD (a = b)

structure Tally where
  edges : ℕ
  fails : ℕ

/-- `$1 == "S" { sha[$2] = $6 }`. -/
def shaOf (rows : List (List Char)) : List Char → Option (List Char) :=
  rows.foldl
    (fun sha row =>
      if field row 1 = ['S'] then Function.update sha (field row 2) (some (field row 6)) else sha)
    fun _ => none

/-- A `B` line fails when nothing is published for the name, or something else. -/
def edgeFails (tools : Tools C) (sha : List Char → Option (List Char)) (row : List Char) : Bool :=
  match sha (field row 3) with
  | none => true
  | some digest => !tools.same digest (field row 4)

def builderEdges (tools : Tools C) (substages : List Char) : Tally :=
  let refs := (lines substages).filter fun row => field row 1 = ['B']
  ⟨refs.length, refs.countP (edgeFails tools (shaOf (lines substages)))⟩

/-- The fields of a line between blanks. -/
def blanks (row : List Char) : List (List Char) :=
  (row.splitOnP fun c => c = ' ' ∨ c = '\t').filter (· ≠ [])

/-- `pattern { print x; exit }`, taken by `$(...)`. -/
def printFirst (text : List Char) (pattern : List Char → Bool) (x : List Char → List Char) :
    List Char :=
  (((lines text).find? pattern).map x).getD []

/-- `$1" "$2 == k { print $NF; exit }`. -/
def chain (text stage key : List Char) : List Char :=
  printFirst text
    (fun row => (blanks row).getD 0 [] ++ ' ' :: (blanks row).getD 1 [] = stage ++ ' ' :: key)
    fun row => (blanks row).getLastD []

/-- `$1=="stage3" && $2=="tcc-amd64" { print $4; exit }`. -/
def committedTcc (text : List Char) : List Char :=
  printFirst text
    (fun row =>
      (blanks row).getD 0 [] = "stage3".toList ∧ (blanks row).getD 1 [] = "tcc-amd64".toList)
    fun row => (blanks row).getD 3 []

def unknown : List Char := "unknown".toList

/-- What stage 4 says it received against the committed record; one that is absent does not
count. -/
def seam (text : List Char) : Tally :=
  let reftcc := chain text "stage4".toList "ref-tcc".toList
  let tcc3 := committedTcc text
  if reftcc ≠ [] ∧ reftcc ≠ unknown ∧ tcc3 ≠ [] ∧ tcc3 ≠ unknown then
    ⟨1, if reftcc ≠ tcc3 then 1 else 0⟩
  else ⟨0, 0⟩

/-- `$1=="F" { if ($4 in h && h[$4] != $2) bad=1; h[$4]=$2 }`. -/
def claimPath (tools : Tools C) (s : (List Char → Option (List Char)) × Bool) (row : List Char) :
    (List Char → Option (List Char)) × Bool :=
  if field row 1 = ['F'] then
    (Function.update s.1 (field row 4) (some (field row 2)),
      s.2 || (s.1 (field row 4)).any fun digest => !tools.same digest (field row 2))
  else s

def claimedTwice (tools : Tools C) (packages : List Char) : Bool :=
  ((lines packages).foldl (claimPath tools) (fun _ => none, false)).2

/-- `$1=="F" && $4==p { print $2; exit }`. -/
def overlay (tools : Tools C) (r : Records) (path : List Char) : List Char :=
  printFirst (r.stripped.getD []) (fun row => field row 1 = ['F'] ∧ tools.same (field row 4) path)
    (field · 2)

/-- The recorded digest where the overlay has none. -/
def want (tools : Tools C) (r : Records) (path sha : List Char) : List Char :=
  if overlay tools r path ≠ [] then overlay tools r path else sha

/-- A line of the first loop, `read -r tag sha size path pkg`; `none` is `continue`. -/
def checkFile (tools : Tools C) (r : Records) (d : Root C) (row : List Char) : Option Bool :=
  let w := words 5 row
  if w.getD 0 [] = ['F'] then
    (d.regularAt (w.getD 3 [])).map fun content =>
      tools.sha256sum content = want tools r (w.getD 3 []) (w.getD 1 [])
  else none

/-- What `$(...)` takes of an output. -/
def captured (output : List Char) : List Char := output.rdropWhile (· = '\n')

/-- A line of the second loop, `read -r tag tgt path pkg`. -/
def checkLink (d : Root C) (row : List Char) : Option Bool :=
  let w := words 4 row
  if w.getD 0 [] = ['L'] then
    (d.linkAt (w.getD 2 [])).map fun target => captured target = w.getD 1 []
  else none

def Tally.of (checks : List Bool) : Tally := ⟨checks.length, checks.count false⟩

def hashFiles (tools : Tools C) (r : Records) (d : Root C) : Tally :=
  .of ((endedLines r.packages).filterMap (checkFile tools r d))

def readLinks (r : Records) (d : Root C) : Tally :=
  .of ((endedLines r.packages).filterMap (checkLink d))

/-- The first parts of the lines of `CATS`. -/
def cats : List (List Char) :=
  ["usr/lib/modules/", "lib/modules/", "usr/lib/firmware/", "lib/firmware/", "boot/",
    "vmlinuz-generic", "Image", "initramfs.cpio.gz", "initramfs-fw.cpio.gz", "home/", "root/",
    "var/", "srv/", "opt/", "mnt/", "media/", "tmp/", "etc/wpa_supplicant.conf",
    "etc/resolv.conf", "lost+found"].map String.toList

/-- `($1=="F"||$1=="Fb"){print $4} ($1=="L"||$1=="Lb"){print $3}`. -/
def recordedPaths (packages : List Char) : List (List Char) :=
  (lines packages).flatMap fun row =>
    (if field row 1 = ['F'] ∨ field row 1 = ['F', 'b'] then [field row 4] else []) ++
      if field row 1 = ['L'] ∨ field row 1 = ['L', 'b'] then [field row 3] else []

def recordsEnd : List Char := "===RECORDS-END===".toList

/-- How `find "$ROOT"` prints a path. -/
def Root.printed (d : Root C) (path : List Char) : List Char :=
  if d.root.getLast? = some '/' then d.root ++ path else d.root ++ '/' :: path

/-- What the census reads. -/
def stream (r : Records) (d : Root C) : List Char :=
  unlines (recordedPaths r.packages ++ recordsEnd :: d.found.map d.printed)

/-- `sub("^" root, "", rel); sub("^/*", "", rel)`; of the root every character stands for itself. -/
def Root.relative (d : Root C) (row : List Char) : List Char :=
  (if d.root <+: row then row.drop d.root.length else row).dropWhile (· = '/')

def isStray (known xt : List (List Char)) (rel : List Char) : Bool :=
  rel ≠ [] ∧ rel ∉ known ∧ rel ∉ xt ∧ ∀ c ∈ cats, ¬ c <+: rel

def strays (r : Records) (d : Root C) : ℕ :=
  let rows := lines (stream r d)
  let known := rows.takeWhile (· ≠ recordsEnd)
  (rows.dropWhile (· ≠ recordsEnd)).tail.countP fun row =>
    isStray known (lines (r.extra.getD [])) (d.relative row)

def census (r : Records) (d : Root C) : Tally := ⟨1, strays r d⟩

def Tally.add (s t : Tally) : Tally := ⟨s.edges + t.edges, s.fails + t.fails⟩

/-- `none` where the records are missing. -/
def verify (tools : Tools C) (r : Records) (d : Root C) : Option Tally :=
  if r.substages = [] ∨ r.packages = [] ∨ r.chain = [] then none
  else
    some <| [builderEdges tools r.substages, seam r.chain,
      ⟨1, if claimedTwice tools r.packages then 1 else 0⟩, hashFiles tools r d, readLinks r d,
      census r d].foldl Tally.add ⟨0, 0⟩

/-- `VERON-TRACE-OK`. -/
def PrintsOk (tools : Tools C) (r : Records) (d : Root C) : Prop :=
  (verify tools r d).map Tally.fails = some 0

instance (tools : Tools C) (r : Records) (d : Root C) : Decidable (PrintsOk tools r d) :=
  inferInstanceAs (Decidable (_ = _))

end Veron.Trace
