/-
`cmd_reachable`: which packages the entry points of the image lead to.
-/
import Mathlib.Data.Finset.Image
import Veron.Checkpoint
import Veron.InstallOwners
import Veron.Worklist

namespace Veron.Reachable

open Driver

/-- What `lstat` says of a path below the root; a file may not open. -/
inductive Node where
  | file (content : Option (List UInt8))
  | link (target : List Char)
  | other
  | missing
deriving DecidableEq

/-- The tree below the root: what stands at each path, and the contents of its files. -/
structure Tree where
  node : Ref → Node
  contents : List (Option (List UInt8))
  mem_contents : ∀ r c, node r = .file c → c ∈ contents

/-- The order in which a set is gone through, given the one in which it was filled. -/
structure SetOrder (α : Type) where
  list : List α → List α
  nodup : ∀ l, (list l).Nodup
  mem : ∀ l x, x ∈ list l ↔ x ∈ l

/-- What `cmd_reachable` is given: the recipes, the package directories of the base and the
overlay, the lines of the application files and of the service files that could be read,
the entries of the command line, and the tree. -/
structure System where
  recipes : Recipes
  pkgdirs : List PkgDir
  applications : List (List Char)
  services : List (List Char)
  entry : List (List Char)
  tree : Tree
  entrySet : SetOrder Ref
  depSet : SetOrder Name
  refSet : SetOrder Ref

/-- `ln.split("=", 1)[1]`, where the line has a `=`. -/
def behindEquals (line : List Char) : Option (List Char) :=
  if '=' ∈ line then some ((line.dropWhile (· ≠ '=')).drop 1) else none

/-- What a line of an application file launches; `Exec=` with nothing behind it has no
first word. -/
def execEntry (line : List Char) : Except Stop (Option Ref) :=
  if "Exec=".toList <+: line then
    match (behindEquals line).map words with
    | some (w :: _) => .ok (some (lstripSlash w))
    | _ => .error .raised
  else .ok none

/-- What a line of a service file starts. -/
def commandEntry (line : List Char) : Option Ref :=
  if "command".toList <+: line then
    match (behindEquals line).map words with
    | some (w :: _) => some (lstripSlash w)
    | _ => none
  else none

namespace System

variable (sys : System)

def own : List (Ref × Name) := installOwners sys.pkgdirs

/-- `entry`, in the order in which it is filled. -/
def entries : Except Stop (List Ref) := do
  let launched ← sys.applications.mapM execEntry
  pure (launched.reduceOption ++ sys.services.filterMap commandEntry ++
    sys.entry.map lstripSlash)

end System

/-- `set(v)`, without the elements that are no string: no recipe has their name. -/
def setOf : Json.Value → Except Stop (List Name)
  | .str s => .ok (s.toList.map String.singleton)
  | .arr vs => do
      let names ← vs.mapM fun v =>
        match v with
        | .str s => .ok (some s)
        | .arr _ | .table _ => .error Stop.raised
        | _ => .ok none
      pure names.reduceOption
  | .table entries => .ok (entries.map Prod.fst)
  | _ => .error .raised

/-- `d.get(kind, [])` of the dependencies `d`, as a set. -/
def kindSet (d : List (String × Json.Value)) (kind : String) : Except Stop (List Name) :=
  match d.lookup kind with
  | none => .ok []
  | some v => setOf v

/-- `set(d.get("runtime", [])) | set(d.get("link", []))`, of a package that may have no
recipe. -/
def declared (recipes : Recipes) (pkg : Name) : Except Stop (List Name) :=
  match (recipes.get pkg).bind fun r => r.document.lookup "deps" with
  | none => .ok []
  | some (.table d) => do
      let runtime ← kindSet d "runtime"
      let link ← kindSet d "link"
      pure (runtime ++ link)
  | some _ => .error .raised

/-- `seen_paths`, `seen_pkgs` and `q`, the next to be popped first. -/
structure State where
  paths : Finset Ref
  pkgs : Finset Name
  q : List Ref

namespace System

variable (sys : System)

/-- The first paths of the dependencies that have not been reached. -/
def depPaths (deps : List Name) (pkgs : Finset Name) : List Ref :=
  (sys.depSet.list deps).filterMap fun dep =>
    if sys.recipes.has dep ∧ dep ∉ pkgs then firstPath sys.own dep else none

/-- The part of the loop about the package of a reference. -/
def reachOwner (rel : Ref) (st : State) : Except Stop State :=
  match owner sys.own rel with
  | none => .ok st
  | some pkg =>
      if pkg ∈ st.pkgs then .ok st
      else do
        let pkgs := insert pkg st.pkgs
        let deps ← declared sys.recipes pkg
        pure { st with pkgs, q := (sys.depPaths deps pkgs).reverse ++ st.q }

/-- The part of the loop that opens the file: a regular one, and no symbolic link. -/
def readFile (rel : Ref) (st : State) : State :=
  match sys.tree.node rel with
  | .file content =>
      let refs := (sys.refSet.list (refsInFile content)).filter (· ∉ st.paths)
      { st with q := refs.reverse ++ st.q }
  | _ => st

/-- One round of the `while` loop, `rel` just popped. -/
def turn (rel : Ref) (st : State) : Except Stop State :=
  if rel ∈ st.paths then .ok st
  else do
    let st ← sys.reachOwner rel { st with paths := insert rel st.paths }
    pure (sys.readFile rel st)

/-- The `while` loop; none when `fuel` runs out. -/
def search : ℕ → State → Option (Except Stop State)
  | 0, _ => none
  | fuel + 1, st =>
      match st.q with
      | [] => some (.ok st)
      | rel :: q =>
          match sys.turn rel { st with q } with
          | .error e => some (.error e)
          | .ok st => search fuel st

def start (entries : List Ref) : State := ⟨∅, ∅, (sys.entrySet.list entries).reverse⟩

end System

/-- What is printed, and the exit status. -/
structure Report where
  reached : Finset Name
  unreached : List Name
  undeclared : List Name
  status : ℕ

/-- `recipes[n].get("build_only")`, as a condition. -/
def buildOnly (recipes : Recipes) (n : Name) : Bool :=
  match recipes.get n with
  | some r => flag r.document "build_only"
  | none => false

/-- The lines after the loop. -/
def System.report (sys : System) (fail : Bool) (st : State) : Report :=
  let unreached := (sys.recipes.keys.filter (· ∉ st.pkgs)).insertionSort (· ≤ ·)
  let undeclared := unreached.filter fun n => !buildOnly sys.recipes n
  ⟨st.pkgs, unreached, undeclared, if fail ∧ undeclared ≠ [] then 1 else 0⟩

/-- `cmd_reachable`; none when `fuel` runs out. -/
def System.cmdReachable (sys : System) (fail : Bool) (fuel : ℕ) : Option (Except Stop Report) :=
  if sys.own = [] then
    some (.error (.die ("no installs.txt anywhere -- run a build first, this reads the " ++
      "tree that build produced")))
  else
    match sys.entries with
    | .error e => some (.error e)
    | .ok entries =>
        (sys.search fuel (sys.start entries)).map fun result => result.map (sys.report fail)

end Veron.Reachable
