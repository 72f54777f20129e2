/-
The build driver's recipes: what their hash covers, their dependency order and
the key of every package.
-/
import Mathlib.Data.List.Dedup
import Mathlib.Data.List.Sort
import Mathlib.Data.String.Basic
import Veron.Dict
import Veron.Json

namespace Veron.Driver

/-- How the driver stops early: `die` with its message, or an exception. -/
inductive Stop where
  | die (message : String)
  | raised
deriving DecidableEq, Repr

abbrev Name := String

/-- A SHA-256 digest as `hexdigest` writes it. -/
structure Digest where
  text : List Char
  length : text.length = 64
deriving DecidableEq

/-- `str.encode()`. -/
def encode (t : List Char) : List UInt8 := t.flatMap String.utf8EncodeChar

/-- A file below `files/`. -/
inductive Source where
  | link (target : List UInt8)
  | file (content : List UInt8)

def Source.bytes : Source → List UInt8
  | .link target => 0x4c :: target
  | .file content => 0x46 :: content

/-- A loaded recipe: the parsed document (a date in it is the string that
`default=str` makes of it), the files below `files/` by relative path in the
order of the walk, and the patches by file name. -/
structure Recipe where
  document : List (String × Json.Value)
  files : List (List UInt8 × Source)
  patches : List (List UInt8 × List UInt8)

/-- The sections that are not inputs of the build. -/
def notInputs : List String := ["installs", "guest", "declared", "undeclarable", "_dir"]

def Recipe.inputs (r : Recipe) : List (String × Json.Value) :=
  r.document.filter fun e => e.1 ∉ notInputs

/-- All that `load_recipes` hashes for `_recipe_sha256`. -/
def Recipe.message (r : Recipe) : List UInt8 :=
  encode (Json.Value.table r.inputs).dumps ++
    (r.files.flatMap fun e => 0 :: (e.1 ++ 0 :: e.2.bytes)) ++
    r.patches.flatMap fun e => 0 :: 0x50 :: (e.1 ++ 0 :: e.2)

/-- `set(v)`; an element that is no string has no recipe. -/
def elements : Json.Value → Except Stop (List Name)
  | .str s => .ok (s.toList.map String.singleton)
  | .arr vs => vs.mapM fun v =>
      match v with
      | .str s => .ok s
      | _ => .error .raised
  | .table entries => .ok (entries.map Prod.fst)
  | _ => .error .raised

/-- `r.get("deps", {}).get(kind, [])`. -/
def Recipe.deps (r : Recipe) (kind : String) : Except Stop (List Name) :=
  match r.document.lookup "deps" with
  | none => .ok []
  | some (.table d) =>
      match d.lookup kind with
      | none => .ok []
      | some v => elements v
  | some _ => .error .raised

/-- `sorted(set(names))`. -/
def sortedSet (names : List Name) : List Name := names.dedup.insertionSort (· ≤ ·)

/-- The dependencies that order the build. -/
def Recipe.order (r : Recipe) : Except Stop (List Name) := do
  let build ← r.deps "build"
  let link ← r.deps "link"
  pure (sortedSet (build ++ link))

/-- Recipes by name. -/
abbrev Recipes := Dict Recipe

/-- One pass of the first loop of `topo_order`. -/
def Recipes.checkDeps (R : Recipes) (n : Name) (r : Recipe) : Except Stop (List Name) := do
  let order ← r.order
  let runtime ← r.deps "runtime"
  match (sortedSet (order ++ runtime)).find? (fun m => !R.has m) with
  | some m => .error (.die s!"{n}: depends on '{m}', which has no recipe")
  | none => pure order

def Recipes.depsTable (R : Recipes) : Except Stop (List (Name × List Name)) :=
  R.items.mapM fun e => do
    let order ← R.checkDeps e.1 e.2
    pure (e.1, order)

/-- The names of `table` that `accept` takes, sorted. -/
def sortedNames (table : List (Name × List Name)) (accept : Name × List Name → Bool) :
    List Name :=
  ((table.filter accept).map Prod.fst).insertionSort (· ≤ ·)

/-- What `done`, the set of the names in `ordered`, makes ready. -/
def ready (table : List (Name × List Name)) (done : List Name) : List Name :=
  sortedNames table fun e => e.1 ∉ done ∧ ∀ m ∈ e.2, m ∈ done

/-- The second loop of `topo_order`.  A round adds a name, so that the length of
the table is fuel enough. -/
def rounds (table : List (Name × List Name)) : ℕ → List Name → Except Stop (List Name)
  | 0, ordered => .ok ordered
  | fuel + 1, ordered =>
      if ordered.length < table.length then
        match ready table ordered with
        | [] =>
            let stuck := ", ".intercalate (sortedNames table fun e => e.1 ∉ ordered)
            .error (.die s!"dependency cycle among: {stuck}")
        | n :: ns => rounds table fuel (ordered ++ n :: ns)
      else .ok ordered

def Recipes.topoOrder (R : Recipes) : Except Stop (List Name) := do
  let table ← R.depsTable
  rounds table table.length []

abbrev Policy := List (String × Json.Value)

/-- `policy.get(section, {})`. -/
def Policy.get (policy : Policy) (section_ : String) : Json.Value :=
  (policy.lookup section_).getD (.table [])

/-- The text of the policy in the root key. -/
def Policy.text (policy : Policy) : List Char :=
  (Json.Value.table [("build", policy.get "build"), ("env", policy.get "env"),
    ("tool_env", policy.get "tool_env")]).dumps

def rootMessage (policy : Policy) (base : String) : List UInt8 :=
  encode (base.toList ++ '\n' :: policy.text)

section

variable (sha : List UInt8 → Digest)

/-- `_recipe_sha256`. -/
def Recipe.sha256 (r : Recipe) : Digest := sha r.message

abbrev Memo := List (Name × Digest)

/-- `key` of `package_keys`, with what it leaves in `memo`. -/
def Recipes.key (R : Recipes) (root : Digest) : ℕ → Name → Memo → Except Stop (Digest × Memo)
  | 0, _, _ => .error .raised
  | fuel + 1, n, memo =>
      match memo.lookup n, R.get n with
      | some k, _ => .ok (k, memo)
      | none, none => .error .raised
      | none, some r => do
          let deps ← r.order
          let (body, memo) ← (deps.filter R.has).foldlM
            (fun (p : List Char × Memo) x => do
              let (k, memo) ← R.key root fuel x p.2
              pure (p.1 ++ x.toList ++ '=' :: k.text, memo))
            (root.text ++ (r.sha256 sha).text, memo)
          let k := sha (encode body)
          pure (k, (n, k) :: memo)

/-- The key of every package, in dependency order.  A call nests no deeper than
there are recipes. -/
def Recipes.packageKeys (R : Recipes) (policy : Policy) (base : String) :
    Except Stop (List (Name × Digest)) := do
  let root := sha (rootMessage policy base)
  let names ← R.topoOrder
  let (keys, _) ← names.foldlM
    (fun (p : List (Name × Digest) × Memo) n => do
      let (k, memo) ← R.key sha root (R.items.length + 1) n p.2
      pure (p.1 ++ [(n, k)], memo))
    ([], [])
  pure keys

end

end Veron.Driver
