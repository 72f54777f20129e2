/-
`include_closure.py`: every header that a set of C files needs, each after those that it
includes.
-/
import Mathlib.Data.List.Lex
import Veron.DepthFirst
import Veron.Regex
import Veron.RestoreCheck

namespace Veron.IncludeClosure

open DepthFirst
open Driver (isWhite)

/-- `os.path.join`. -/
def join (a b : List Char) : List Char :=
  if b.head? = some '/' ∨ a = [] then b
  else if a.getLast? = some '/' then a ++ b
  else a ++ '/' :: b

/-- `os.path.dirname`. -/
def dirname (path : List Char) : List Char :=
  let head := path.rdropWhile (· ≠ '/')
  if head.all (· = '/') then head else head.rdropWhile (· = '/')

/-- The body of the loop of `normpath`. -/
def keepComp (initialSlashes : ℕ) (newComps : List (List Char)) (comp : List Char) :
    List (List Char) :=
  if comp = [] ∨ comp = ['.'] then newComps
  else if comp ≠ ['.', '.'] ∨ (initialSlashes = 0 ∧ newComps = []) ∨
      newComps.getLast? = some ['.', '.'] then newComps ++ [comp]
  else newComps.dropLast

/-- Two slashes in front stay two, more are one. -/
def initialSlashes (path : List Char) : ℕ :=
  if ['/', '/'] <+: path ∧ ¬ ['/', '/', '/'] <+: path then 2
  else if path.head? = some '/' then 1
  else 0

/-- `os.path.normpath`. -/
def normpath (path : List Char) : List Char :=
  let n := initialSlashes path
  let newComps := (path.splitOn '/').foldl (keepComp n) []
  let out := List.replicate n '/' ++ ['/'].intercalate newComps
  if out = [] then ['.'] else out

example : normpath "sub/.././x//y.h".toList = "x/y.h".toList := by decide

/-- What a directory tree gives from its root on. -/
structure Tree where
  /-- What stands at a path, if anything does, a directory too. -/
  file : List Char → Option ℕ
  /-- The text of what can be opened and read. -/
  text : ℕ → Option (List Char)

def lineStart : Regex Char := .edge fun before _ => before.all (· = '\n')

/-- `INCLUDE`, in `re.M`. -/
def includePattern : Regex Char :=
  .seqs [lineStart, .star (.one isWhite), .literal ['#'], .star (.one isWhite),
    .literal "include".toList, .star (.one isWhite), .literal ['"'],
    .group 1 (.plus (.one (· ≠ '"'))), .literal ['"']]

/-- `INCLUDE.findall(text)`; what cannot be read includes nothing. -/
def names (tree : Tree) (path : List Char) : List (List Char) :=
  match (tree.file path).bind tree.text with
  | some text => (includePattern.findAll text).map (·.group 1)
  | none => []

/-- The first candidate that exists. -/
def resolve (tree : Tree) (path name : List Char) : Option (List Char) :=
  [normpath (join (dirname path) name), name].find? fun cand => (tree.file cand).isSome

/-- What `includes_of` returns. -/
def includesOf (tree : Tree) (path : List Char) : List (List Char) :=
  (names tree path).filterMap (resolve tree path)

/-- What `includes_of` appends to `UNRESOLVED`. -/
def unresolved (tree : Tree) (path : List Char) : List (List Char × List Char) :=
  ((names tree path).filter fun name => (resolve tree path name).isNone).map (path, ·)

/-- `closure`, with room for so many calls of `visit` inside one another before the
interpreter raises `RecursionError`. -/
def closure (tree : Tree) (room : ℕ) (seeds : List (List Char)) :
    Option (State (List Char) (List Char × List Char)) :=
  search (includesOf tree) (unresolved tree) room seeds

def noSuchFile (s : List Char) : List Char := "include_closure: no such file: ".toList ++ s

def notFound (root : List Char) : List Char × List Char → List Char
  | (who, what) =>
      "include_closure: ".toList ++ who ++ " includes \"".toList ++ what ++
        "\" -- not found under ".toList ++ root

def refusing : List Char :=
  ("include_closure: refusing to emit an incomplete list; " ++
    "a missing header is a missing type").toList

def cycleThrough (c : List Char) : List Char :=
  "include_closure: include cycle through ".toList ++ c ++
    " -- emitted at the point the cycle closes".toList

/-- How the program ends, with the lines it writes to its two outputs. -/
structure Exit where
  code : ℕ
  stdout : List (List Char) := []
  stderr : List (List Char) := []

/-- `main`, with `doc` for its docstring. The interpreter's own report of an exception is left
out. -/
def main (doc : List (List Char)) (tree : Tree) (room : ℕ) (root : List Char)
    (seeds : List (List Char)) : Exit :=
  if seeds = [] then { code := 2, stderr := doc }
  else
    match seeds.find? fun s => (tree.file s).isNone with
    | some s => { code := 1, stderr := [noSuchFile s] }
    | none =>
        match closure tree room seeds with
        | none => { code := 1 }
        | some t =>
            if t.notes ≠ [] then
              { code := 1, stderr := t.notes.map (notFound root) ++ [refusing] }
            else
              { code := 0
                stdout := t.order.filter fun p => !seeds.contains p
                stderr := (t.cycles.dedup.mergeSort).map cycleThrough }

end Veron.IncludeClosure
