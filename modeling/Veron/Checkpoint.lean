/-
The build driver over a history of commands: what a build leaves below dest/,
what a checkpoint records of it and what a resumed build takes from there.
-/
import Mathlib.Logic.Function.Basic
import Veron.Recipes

namespace Veron.Driver

/-- One step of a package's plan, by the keys that decide whether it runs. -/
structure BuildStep where
  optional : Bool
  onFailure : Bool
deriving DecidableEq, Repr

/-- `bool(v)`. -/
def truthy : Json.Value → Bool
  | .str s => s ≠ ""
  | .num n => n.text ≠ ['0'] ∧ n.text ≠ ['0', '.', '0'] ∧ n.text ≠ ['-', '0', '.', '0']
  | .bool b => b
  | .arr vs => !vs.isEmpty
  | .table es => !es.isEmpty

/-- `s.get(k)`, as a condition. -/
def flag (s : List (String × Json.Value)) (k : String) : Bool :=
  match s.lookup k with
  | some v => truthy v
  | none => false

/-- The steps that `expand` makes of one of a recipe. -/
def expandStep (name : Name) : Json.Value → Except Stop (List BuildStep)
  | .table s =>
      let step := ⟨flag s "optional", flag s "on_failure"⟩
      match s.lookup "shell", s.lookup "run" with
      | some _, _ =>
          if flag s "why" then .ok [step]
          else .error (.die s!"{name}: shell step without a 'why'")
      | none, some (.arr argvs) => .ok (argvs.map fun _ => step)
      | none, _ => .error .raised
  | _ => .error .raised

def expandSteps (name : Name) (r : Recipe) : Except Stop (List BuildStep) :=
  match r.document.lookup "steps" with
  | none => .ok []
  | some (.arr ss) => do
      let parts ← ss.mapM (expandStep name)
      pure parts.flatten
  | some _ => .error .raised

/-- What `--optional` leaves to run of a package. -/
def toRun (optional : Bool) (steps : List BuildStep) : List BuildStep :=
  steps.filter fun s => !s.onFailure && (!s.optional || optional)

/-- The sources a command reads: recipes, policy, and the paths that each
`installs.txt` names. -/
structure Repo where
  recipes : Recipes
  policy : Policy
  installedPaths : Name → List String

/-- A directory dest/p: the paths in it, and, for the record only, the key of the
build that made it where all its steps but optional ones have succeeded. -/
structure DestEntry where
  paths : List String
  madeBy : Option Digest
deriving DecidableEq

/-- dest/.veron-checkpoint. -/
structure Marker where
  base : String
  keys : Name → Option Digest

/-- The options of `veron build`.  A dry run, which runs no step, is not among the
builds here. -/
structure BuildArgs where
  clean : Bool
  resume : Bool
  optional : Bool
  bankEvery : ℕ
  upto : String
  pkg : List Name

/-- A build under way.  `plan` begins with the package whose turn it is, and
`steps` are those it has left once its first has been allowed to run; `begun`,
for the record only, are the packages this build has emptied dest/ for. -/
structure Session where
  repo : Repo
  args : BuildArgs
  plan : List (Name × List BuildStep)
  resumed : Name → Option Digest
  steps : Option (List BuildStep)
  built : ℕ
  begun : List Name

structure World where
  repo : Repo
  dest : Name → Option DestEntry
  marker : Option Marker
  session : Option Session

section

variable (sha : List UInt8 → Digest) (base : String)

/-- What `package_keys` gives, nothing where it raises. -/
def Repo.keys (r : Repo) : List (Name × Digest) :=
  match r.recipes.packageKeys sha r.policy base with
  | .ok keys => keys
  | .error _ => []

def Repo.key (r : Repo) (n : Name) : Option Digest := (r.keys sha base).lookup n

/-- `write_checkpoint`: a key for every directory below dest/ that has one, or
what was there where there is none. -/
def writeCheckpoint (r : Repo) (dest : Name → Option DestEntry) (marker : Option Marker) :
    Option Marker :=
  if (r.keys sha base).any fun e => (dest e.1).isSome then
    some ⟨base, fun n => if (dest n).isSome then r.key sha base n else none⟩
  else marker

/-- `expand`, of the packages in their order. -/
def Repo.expand (r : Repo) : Except Stop (List (Name × List BuildStep)) := do
  let names ← r.recipes.topoOrder
  names.mapM fun n =>
    match r.recipes.get n with
    | some recipe => do
        let steps ← expandSteps n recipe
        pure (n, steps)
    | none => .error .raised

/-- `--upto` and the package list. -/
def selectPlan (args : BuildArgs) (plan : List (Name × List BuildStep)) :
    Except Stop (List (Name × List BuildStep)) :=
  if args.upto ≠ "" then
    if args.upto ∉ plan.map Prod.fst then
      .error (.die s!"--upto '{args.upto}' is not in the plan")
    else if args.pkg ≠ [] then
      .error (.die "--upto and a package list mean different things; pass one")
    else .ok (plan.take ((plan.map Prod.fst).idxOf args.upto + 1))
  else if args.pkg ≠ [] then
    let chosen := plan.filter fun p => p.1 ∈ args.pkg
    let asked := ", ".intercalate args.pkg
    if chosen = [] then .error (.die s!"no such package: {asked}") else .ok chosen
  else .ok plan

/-- What of the marker a resumed build takes over. -/
def reusable (r : Repo) (dest : Name → Option DestEntry) (m : Marker) (n : Name) :
    Option Digest :=
  match m.keys n with
  | some k => if r.key sha base n = some k ∧ (dest n).isSome then some k else none
  | none => none

/-- The head of `cmd_build`, up to its loop over the packages. -/
def startBuild (w : World) (args : BuildArgs) : Except Stop World := do
  let plan ← w.repo.expand
  let plan ← selectPlan args plan
  let wiped := args.clean && !args.resume
  let dest := if wiped then fun _ => none else w.dest
  let marker := if wiped then none else w.marker
  let session : Session := ⟨w.repo, args, plan, fun _ => none, none, 0, []⟩
  match args.resume, marker with
  | true, some m =>
      if base = "" then
        .error (.die
          ("--resume needs --base <sysroot sha256>: without it the checkpoint can only " ++
          "be checked against itself, which accepts a checkpoint built on any other image."))
      else if m.base ≠ base then
        .error (.die (s!"checkpoint was built against a different sysroot.\n  marker {m.base}\n" ++
          s!"  this run {base}\nRefusing to build on top of it."))
      else
        let resumed := reusable sha base w.repo dest m
        .ok { w with
          dest := fun n => if (m.keys n).isSome ∧ resumed n = none then none else dest n
          session := some { session with resumed := resumed } }
  | _, _ => .ok { w with dest := dest, marker := marker, session := some session }

/-- Whether the paths that the listing names are all in dest/p. -/
def listed (r : Repo) (dest : Name → Option DestEntry) (n : Name) : Bool :=
  (r.installedPaths n).all fun p => p ∈ ((dest n).map DestEntry.paths).getD []

/-- The build is about to restore the package at the head of its plan. -/
def Restores (w : World) (s : Session) (n : Name) : Prop :=
  s.steps = none ∧ s.plan.head?.map Prod.fst = some n ∧ (s.resumed n).isSome ∧
    listed w.repo w.dest n

instance (w : World) (s : Session) (n : Name) : Decidable (Restores w s n) :=
  inferInstanceAs (Decidable (s.steps = none ∧ s.plan.head?.map Prod.fst = some n ∧
    (s.resumed n).isSome ∧ listed w.repo w.dest n))

/-- dest/p with these paths, when the steps `left` have not succeeded. -/
def destAfter (r : Repo) (n : Name) (left : List BuildStep) (paths : List String) : DestEntry :=
  ⟨paths, if left.all BuildStep.optional then r.key sha base n else none⟩

/-- One turn of the loop over the plan: the package is restored, or dest/p is
emptied and its steps begin. -/
def nextPackage (w : World) (s : Session) : World :=
  match s.plan with
  | [] => { w with session := none }
  | (n, steps) :: rest =>
      if (s.resumed n).isSome ∧ listed w.repo w.dest n then
        { w with session := some { s with plan := rest } }
      else
        let left := toRun s.args.optional steps
        { w with
          dest := Function.update w.dest n (some (destAfter sha base s.repo n left []))
          session := some { s with
            resumed := Function.update s.resumed n none
            steps := some left
            begun := n :: s.begun } }

/-- The first of `todo` ends and leaves `paths`; where it fails, so does the build. -/
def afterStep (w : World) (s : Session) (n : Name) (todo : List BuildStep) (ok : Bool)
    (paths : List String) : World :=
  let left := if ok then todo.tail else todo
  { w with
    dest := Function.update w.dest n (some (destAfter sha base s.repo n left paths))
    session := if ok then some { s with steps := some left } else none }

/-- `--bank-every`, for the package that is being finished. -/
def Session.banks (s : Session) : Bool :=
  s.args.bankEvery ≠ 0 && (s.built + 1) % s.args.bankEvery = 0

/-- What happens in a history: the repository is edited, a build starts, its loop
takes the next package, a step of the package under way runs, the package is
finished, the build is killed or raises, or a checkpoint is recorded. -/
inductive Event where
  | edit (repo : Repo)
  | build (args : BuildArgs)
  | next
  | run (ok : Bool) (paths : List String)
  | finish
  | kill
  | checkpoint

/-- What an event makes of the world, where it can happen.  A build that dies at
its start leaves things as they are. -/
def step (w : World) : Event → Option World
  | .edit repo => some { w with repo := repo }
  | .build args =>
      match w.session, startBuild sha base w args with
      | some _, _ => none
      | none, .ok w' => some w'
      | none, .error _ => some w
  | .next =>
      match w.session with
      | some s => if s.steps = none then some (nextPackage sha base w s) else none
      | none => none
  | .run ok paths =>
      match w.session with
      | some s =>
          match s.steps, s.plan with
          | some (todo@(_ :: _)), (n, _) :: _ => some (afterStep sha base w s n todo ok paths)
          | _, _ => none
      | none => none
  | .finish =>
      match w.session with
      | some s =>
          if s.steps = some [] then
            some { w with
              marker := if s.banks then writeCheckpoint sha base s.repo w.dest w.marker
                else w.marker
              session := some { s with
                plan := s.plan.tail, steps := none, built := s.built + 1 } }
          else none
      | none => none
  | .kill => if w.session.isSome then some { w with session := none } else none
  | .checkpoint =>
      if w.session.isSome then none
      else some { w with marker := writeCheckpoint sha base w.repo w.dest w.marker }

/-- Before any command: nothing is below dest/. -/
def World.initial (repo : Repo) : World := ⟨repo, fun _ => none, none, none⟩

end

end Veron.Driver
