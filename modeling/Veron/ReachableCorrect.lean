/-
What `cmd_reachable` reports and what the files that are reached need: the search takes a
name for the path of a regular file, and loses what only another kind of name leads to.
-/
import Veron.Reachable

namespace Veron.Reachable

open Driver

/-- Where a search starts, which names a name leads to, whose a name is, and which packages
a package depends on. -/
structure Rules where
  start : Ref → Prop
  names : Ref → Ref → Prop
  owner : Ref → Option Name
  deps : Name → Name → Prop

/-- The names led to. -/
inductive Rules.Meets (R : Rules) : Ref → Prop
  | start {r : Ref} : R.start r → R.Meets r
  | names {r n : Ref} : R.Meets r → R.names r n → R.Meets n

/-- The packages led to. -/
inductive Rules.Needs (R : Rules) : Name → Prop
  | owner {r : Ref} {p : Name} : R.Meets r → R.owner r = some p → R.Needs p
  | deps {p d : Name} : R.Needs p → R.deps p d → R.Needs d

/-- Where a symbolic link at a path leads, inside the tree. -/
def target (path text : List Char) : Ref :=
  if text.head? = some '/' then lstripSlash text else path.rdropWhile (· ≠ '/') ++ text

/-- The file at a path, symbolic links followed. -/
inductive Tree.FileAt (t : Tree) : Ref → Option (List UInt8) → Prop
  | file {r : Ref} {c : Option (List UInt8)} : t.node r = .file c → t.FileAt r c
  | link {r : Ref} {text : List Char} {c : Option (List UInt8)} : t.node r = .link text →
      t.FileAt (target r text) c → t.FileAt r c

/-- What a file names, whatever its length and that of the paths in it. -/
def namedIn (content : Option (List UInt8)) : List Ref :=
  (Elf.elfDynamic content).2 ++
    match content with
    | none => []
    | some b => shebang b ++
        (literals (pathLiteral (Regex.plus (.one pathByte))) b).map lstripSlash

/-- The worklist of a state. -/
def State.work (st : State) : Worklist Ref := ⟨st.paths, st.q⟩

namespace System

variable (sys : System)

/-- The path that a name stands for: itself where the tree has it, else the installed path
that gave the package. -/
def path (r : Ref) : Ref :=
  match sys.tree.node r with
  | .missing =>
      if (sys.own.lookup r).isSome then r
      else
        let base := if usrbin <+: r then r.drop usrbin.length else basename r
        ((pathOfBase sys.own base).map Prod.fst).getD r
  | _ => r

def IsEntry (r : Ref) : Prop := ∃ entries, sys.entries = .ok entries ∧ r ∈ entries

/-- A runtime or link dependency that has a recipe. -/
def DependsOn (p d : Name) : Prop :=
  ∃ deps, declared sys.recipes p = .ok deps ∧ d ∈ deps ∧ sys.recipes.has d

/-- A name of a package, and the installed path by which the package's dependency, or one of a
dependency, is reached. -/
def Opens (D : Name → Name → Prop) (r n : Ref) : Prop :=
  ∃ p d, owner sys.own r = some p ∧ D p d ∧ firstPath sys.own d = some n

/-- The file behind a name is read, all of it, and so is the file by which a declared dependency
is reached. -/
def full : Rules where
  start := sys.IsEntry
  names r n := (∃ c, sys.tree.FileAt (sys.path r) c ∧ n ∈ namedIn c) ∨
    sys.Opens (Relation.TransGen sys.DependsOn) r n
  owner := owner sys.own
  deps := sys.DependsOn

/-- What `_refs_in_file` reads, where a name is the path of a regular file. -/
def Reads (r n : Ref) : Prop := ∃ c, sys.tree.node r = .file c ∧ n ∈ refsInFile c

/-- A name leads to what is read in its own file, and from its package on to the first path of
each dependency. -/
def widest : Rules where
  start := sys.IsEntry
  names r n := sys.Reads r n ∨ sys.Opens sys.DependsOn r n
  owner := owner sys.own
  deps _ _ := False

/-- Nothing else is met that is the dependency's. -/
def Sole (d : Name) (n : Ref) : Prop :=
  owner sys.own n = some d ∧ ∀ x, sys.widest.Meets x → owner sys.own x = some d → x = n

/-- A dependency counts where it has an installed path of its own, and that path is met where
nothing else leads to the dependency. -/
def direct : Rules where
  start := sys.IsEntry
  names r n := sys.Reads r n ∨
    ∃ p d, owner sys.own r = some p ∧ sys.DependsOn p d ∧ firstPath sys.own d = some n ∧
      sys.Sole d n
  owner := owner sys.own
  deps p d := sys.DependsOn p d ∧
    ∃ r, firstPath sys.own d = some r ∧ owner sys.own r = some d

/-- Every package needed is reported as reached and none as unreached. -/
def Covered (report : Report) : Prop :=
  ∀ p, sys.full.Needs p → p ∈ report.reached ∧ p ∉ report.unreached

/-- The entry points and the declared dependencies can be read. -/
def Readable : Prop :=
  sys.own ≠ [] ∧ (∃ entries, sys.entries = .ok entries) ∧
    ∀ p, ∃ deps, declared sys.recipes p = .ok deps

/-- What a name taken owes: the names its file holds, and the packages its own depends on. -/
def Owes (x : Ref) (S : Set Ref) : Prop :=
  (∃ n, sys.Reads x n ∧ S = {n}) ∨
    ∃ p d, owner sys.own x = some p ∧ sys.direct.deps p d ∧
      S = {y | owner sys.own y = some d}

/-- The packages reached are those of the names taken. -/
def Owned (st : State) : Prop :=
  ∀ p, p ∈ st.pkgs ↔ ∃ r ∈ st.paths, owner sys.own r = some p

variable {sys}

theorem mem_depPaths {deps : List Name} {pkgs : Finset Name} {n : Ref} :
    n ∈ sys.depPaths deps pkgs ↔
      ∃ d ∈ deps, sys.recipes.has d ∧ d ∉ pkgs ∧ firstPath sys.own d = some n := by
  rw [depPaths, List.mem_filterMap]
  constructor
  · rintro ⟨d, hd, hpath⟩
    split_ifs at hpath with hcond
    exact ⟨d, (sys.depSet.mem _ _).mp hd, hcond.1, hcond.2, hpath⟩
  · rintro ⟨d, hd, hhas, hnew, hpath⟩
    exact ⟨d, (sys.depSet.mem _ _).mpr hd, by rw [if_pos ⟨hhas, hnew⟩, hpath]⟩

/-- The package of a name has been reached before, or it is reached now. -/
theorem reachOwner_cases {rel : Ref} {st st' : State} (h : sys.reachOwner rel st = .ok st') :
    (st' = st ∧ ∀ p, owner sys.own rel = some p → p ∈ st.pkgs) ∨
      ∃ p deps, owner sys.own rel = some p ∧ declared sys.recipes p = .ok deps ∧
        st' = { st with
          pkgs := insert p st.pkgs
          q := (sys.depPaths deps (insert p st.pkgs)).reverse ++ st.q } := by
  rw [reachOwner] at h
  cases howner : owner sys.own rel with
  | none =>
      rw [howner] at h
      exact .inl ⟨(Except.ok.inj h).symm, fun p hp => by cases hp⟩
  | some pkg =>
      rw [howner] at h
      by_cases hpkg : pkg ∈ st.pkgs
      · have hsame : st' = st := by simpa [hpkg] using h.symm
        refine .inl ⟨hsame, fun p hp => ?_⟩
        obtain rfl := Option.some.inj hp
        exact hpkg
      · simp only [if_neg hpkg] at h
        cases hdeps : declared sys.recipes pkg with
        | error e =>
            rw [hdeps] at h
            cases h
        | ok deps =>
            rw [hdeps] at h
            exact .inr ⟨pkg, deps, rfl, hdeps, (Except.ok.inj h).symm⟩

/-- Reading a file only puts what it names, and has not been taken, on the list. -/
theorem readFile_eq (rel : Ref) (st : State) :
    ∃ new, sys.readFile rel st = { st with q := new ++ st.q } ∧
      ∀ n, n ∈ new ↔ sys.Reads rel n ∧ n ∉ st.paths := by
  rw [readFile]
  split
  next content hnode =>
      refine ⟨_, rfl, fun n => ?_⟩
      rw [List.mem_reverse, List.mem_filter, sys.refSet.mem, decide_eq_true_eq]
      refine and_congr_left fun _ => ⟨fun hn => ⟨content, hnode, hn⟩, ?_⟩
      rintro ⟨c, hc, hn⟩
      obtain rfl : content = c := Node.file.inj (hnode.symm.trans hc)
      exact hn
  next hnode =>
      refine ⟨[], rfl, fun n => ⟨fun hn => absurd hn List.not_mem_nil, ?_⟩⟩
      rintro ⟨⟨c, hc, _⟩, _⟩
      exact absurd hc (hnode c)

/-- What one of the names taken owes for its package is owed for every name of it. -/
theorem Owned.paid {st : State} (howned : sys.Owned st)
    (hpaid : Worklist.Paid sys.Owes st.work) {p d : Name} (hp : p ∈ st.pkgs)
    (hdep : sys.direct.deps p d) : ∃ y, owner sys.own y = some d ∧ st.work.Covers y := by
  obtain ⟨r, hr, howner⟩ := (howned p).mp hp
  exact hpaid r hr _ (.inr ⟨p, d, howner, hdep, rfl⟩)

theorem Owned.insert {st : State} (howned : sys.Owned st) {rel : Ref} {pkgs : Finset Name}
    {q : List Ref} (h : ∀ p, p ∈ pkgs ↔ owner sys.own rel = some p ∨ p ∈ st.pkgs) :
    sys.Owned ⟨insert rel st.paths, pkgs, q⟩ := by
  intro p
  rw [h, howned p, Finset.exists_mem_insert]

/-- The dependencies of a package just reached: each is reached already, or its first path is
put on the list. -/
theorem depPaths_covers {st : State} (howned : sys.Owned st) {rel : Ref} {p d : Name}
    {deps : List Name} (howner : owner sys.own rel = some p)
    (hdeps : declared sys.recipes p = .ok deps) (hdep : sys.direct.deps p d) :
    ∃ y, owner sys.own y = some d ∧
      (y ∈ insert rel st.paths ∨
        y ∈ sys.depPaths deps (insert p st.pkgs)) := by
  obtain ⟨⟨ds, hds, hd, hhas⟩, r, hfirst, hr⟩ := hdep
  obtain rfl : deps = ds := Except.ok.inj (hdeps.symm.trans hds)
  by_cases hreached : d ∈ insert p st.pkgs
  · rcases Finset.mem_insert.mp hreached with rfl | hreached
    · exact ⟨rel, howner, .inl (Finset.mem_insert_self _ _)⟩
    · obtain ⟨y, hy, hyd⟩ := (howned d).mp hreached
      exact ⟨y, hyd, .inl (Finset.mem_insert_of_mem hy)⟩
  · exact ⟨r, hr, .inr (mem_depPaths.mpr ⟨d, hd, hhas, hreached, hfirst⟩)⟩

/-- One round is one step of a worklist, and keeps the packages those of the names taken. -/
theorem turn_step {rel : Ref} {q : List Ref} {st st' : State} (hq : st.q = rel :: q)
    (h : sys.turn rel { st with q } = .ok st') (howned : sys.Owned st)
    (hpaid : Worklist.Paid sys.Owes st.work) :
    Worklist.Step sys.Owes sys.widest.names st.work st'.work ∧ sys.Owned st' := by
  have hwork : st.work = ⟨st.paths, rel :: q⟩ := by rw [State.work, hq]
  by_cases hseen : rel ∈ st.paths
  · have hst : st' = { st with q } := by simpa [turn, hseen] using h.symm
    subst hst
    rw [hwork]
    exact ⟨.again hseen, howned⟩
  rw [turn, if_neg hseen] at h
  cases hmid : sys.reachOwner rel { st with paths := insert rel st.paths, q } with
  | error e =>
      rw [hmid] at h
      cases h
  | ok mid =>
      rw [hmid] at h
      obtain ⟨refs, hread, hrefs⟩ := @readFile_eq sys rel mid
      obtain rfl : sys.readFile rel mid = st' := Except.ok.inj h
      have hpaths : mid.paths = insert rel st.paths := by
        rcases reachOwner_cases hmid with ⟨rfl, _⟩ | ⟨_, _, _, _, rfl⟩ <;> rfl
      have hname : ∀ n, sys.Reads rel n →
          n ∈ insert rel st.paths ∨ n ∈ refs := fun n hn => by
        by_cases hmem : n ∈ insert rel st.paths
        · exact .inl hmem
        · exact .inr ((hrefs n).mpr ⟨hn, by rwa [hpaths]⟩)
      have hlead : ∀ n ∈ refs, sys.widest.names rel n := fun n hn => .inl ((hrefs n).mp hn).1
      rw [hread, hwork]
      rcases reachOwner_cases hmid with ⟨rfl, hold⟩ | ⟨p, deps, howner, hdeps, rfl⟩
      · refine ⟨.take hseen (fun S hS => ?_) hlead, howned.insert fun p => ?_⟩
        · rcases hS with ⟨n, hn, rfl⟩ | ⟨p, d, hp, hdep, rfl⟩
          · exact ⟨n, rfl, (hname n hn).imp_right (List.mem_append_left _)⟩
          · obtain ⟨y, hy, hcovers⟩ := howned.paid hpaid (hold p hp) hdep
            rw [hwork] at hcovers
            exact ⟨y, hy, hcovers.take⟩
        · exact ⟨.inr, fun hp => hp.elim (hold p) id⟩
      · refine ⟨?_, howned.insert fun o => ?_⟩
        · rw [State.work, ← List.append_assoc]
          refine .take hseen (fun S hS => ?_) fun n hn => ?_
          · rcases hS with ⟨n, hn, rfl⟩ | ⟨p', d, hp', hdep, rfl⟩
            · refine ⟨n, rfl, (hname n hn).imp_right fun hn => ?_⟩
              exact List.mem_append_left _ (List.mem_append_left _ hn)
            · obtain rfl : p = p' := Option.some.inj (howner.symm.trans hp')
              obtain ⟨y, hy, hcovers⟩ := depPaths_covers howned howner hdeps hdep
              refine ⟨y, hy, hcovers.imp_right fun hy => ?_⟩
              exact List.mem_append_left _ (List.mem_append_right _ (List.mem_reverse.mpr hy))
          · rcases List.mem_append.mp hn with hn | hn
            · exact hlead n hn
            · obtain ⟨d, hd, hhas, _, hfirst⟩ := mem_depPaths.mp (List.mem_reverse.mp hn)
              exact .inr ⟨p, d, howner, ⟨deps, hdeps, hd, hhas⟩, hfirst⟩
        · rw [Finset.mem_insert, howner, Option.some.injEq, eq_comm]

/-- The loop is a run of a worklist to its end. -/
theorem search_run {fuel : ℕ} {st final : State} (h : sys.search fuel st = some (.ok final))
    (howned : sys.Owned st) (hpaid : Worklist.Paid sys.Owes st.work) :
    Worklist.Run sys.Owes sys.widest.names st.work final.work ∧ final.q = [] ∧
      sys.Owned final := by
  induction fuel generalizing st with
  | zero => cases h
  | succ fuel ih =>
      rw [search] at h
      cases hq : st.q with
      | nil =>
          rw [hq] at h
          obtain rfl : st = final := Except.ok.inj (Option.some.inj h)
          exact ⟨.refl, hq, howned⟩
      | cons rel q =>
          rw [hq] at h
          cases hturn : sys.turn rel { st with q } with
          | error e =>
              simp only [hturn] at h
              cases h
          | ok st' =>
              simp only [hturn] at h
              obtain ⟨hstep, howned'⟩ := turn_step hq hturn howned hpaid
              obtain ⟨hrun, hdone, hfinal⟩ := ih h howned' (hstep.paid hpaid)
              exact ⟨hrun.head hstep, hdone, hfinal⟩

theorem start_owned (entries : List Ref) : sys.Owned (sys.start entries) := by
  intro p
  simp [start]

theorem start_paid (entries : List Ref) : Worklist.Paid sys.Owes (sys.start entries).work := by
  intro x hx
  simp [start, State.work] at hx

/-- The search takes all that is met directly, and nothing beyond what is met at the widest. -/
theorem search_spec {fuel : ℕ} {entries : List Ref} {final : State}
    (hentries : sys.entries = .ok entries)
    (h : sys.search fuel (sys.start entries) = some (.ok final)) :
    (∀ p, sys.direct.Needs p → p ∈ final.pkgs) ∧ ∀ p ∈ final.pkgs, sys.widest.Needs p := by
  obtain ⟨hrun, hdone, howned⟩ := search_run h (start_owned entries) (start_paid entries)
  obtain ⟨hstart, hclosed⟩ := hrun.closed rfl hdone
  have hbounded : ∀ r ∈ final.paths, sys.widest.Meets r := by
    intro r hr
    refine hrun.bounded (P := sys.widest.Meets) (fun x y hx hname => .names hx hname) ?_ r
      (.inl hr)
    rintro x (hx | hx)
    · simp [start, State.work] at hx
    · refine .start ⟨entries, hentries, (sys.entrySet.mem _ _).mp ?_⟩
      exact List.mem_reverse.mp hx
  have hmeets : ∀ r, sys.direct.Meets r → r ∈ final.paths := by
    intro r hr
    induction hr with
    | start hentry =>
        obtain ⟨es, hes, hr⟩ := hentry
        obtain rfl : entries = es := Except.ok.inj (hentries.symm.trans hes)
        exact hstart _ (List.mem_reverse.mpr ((sys.entrySet.mem _ _).mpr hr))
    | @names r n _ hname ih =>
        rcases hname with hread | ⟨p, d, howner, hdep, hfirst, hown, hsole⟩
        · obtain ⟨y, hy, hseen⟩ := hclosed r ih _ (.inl ⟨n, hread, rfl⟩)
          rwa [Set.mem_singleton_iff.mp hy] at hseen
        · obtain ⟨y, hy, hseen⟩ :=
            hclosed r ih _ (.inr ⟨p, d, howner, ⟨hdep, n, hfirst, hown⟩, rfl⟩)
          rwa [hsole y (hbounded y hseen) hy] at hseen
  refine ⟨fun p hp => ?_, fun p hp => ?_⟩
  · induction hp with
    | owner hr howner => exact (howned _).mpr ⟨_, hmeets _ hr, howner⟩
    | @deps p d _ hdep ih =>
        obtain ⟨r, hr, howner⟩ := (howned p).mp ih
        obtain ⟨y, hy, hseen⟩ := hclosed r hr _ (.inr ⟨p, d, howner, hdep, rfl⟩)
        exact (howned d).mpr ⟨y, hseen, hy⟩
  · obtain ⟨r, hr, howner⟩ := (howned p).mp hp
    exact .owner (hbounded r hr) howner

theorem turn_isOk {rel : Ref} {st : State}
    (hread : ∀ p, ∃ deps, declared sys.recipes p = .ok deps) :
    ∃ st', sys.turn rel st = .ok st' := by
  by_cases hseen : rel ∈ st.paths
  · exact ⟨st, by rw [turn, if_pos hseen]⟩
  rw [turn, if_neg hseen]
  have howner : ∃ mid, sys.reachOwner rel { st with paths := insert rel st.paths } = .ok mid := by
    rw [reachOwner]
    cases owner sys.own rel with
    | none => exact ⟨_, rfl⟩
    | some pkg =>
        obtain ⟨deps, hdeps⟩ := hread pkg
        by_cases hpkg : pkg ∈ st.pkgs
        · exact ⟨_, if_pos hpkg⟩
        · simp only [if_neg hpkg, hdeps]
          exact ⟨_, rfl⟩
  obtain ⟨mid, hmid⟩ := howner
  rw [hmid]
  exact ⟨_, rfl⟩

/-- All that can come on the list. -/
def names (entries : List Ref) : Finset Ref :=
  (entries ++ sys.own.map Prod.fst ++ sys.tree.contents.flatMap refsInFile).toFinset

theorem leads_mem_names {entries : List Ref} {x y : Ref} (h : sys.widest.names x y) :
    y ∈ sys.names entries := by
  rw [names, List.mem_toFinset, List.mem_append, List.mem_append]
  rcases h with ⟨c, hc, hy⟩ | ⟨p, d, _, _, hfirst⟩
  · exact .inr (List.mem_flatMap.mpr ⟨c, sys.tree.mem_contents x c hc, hy⟩)
  · obtain ⟨e, he, rfl⟩ := Option.map_eq_some_iff.mp hfirst
    exact .inl (.inr (List.mem_map_of_mem (List.mem_of_find?_eq_some he)))

theorem search_ends (hread : ∀ p, ∃ deps, declared sys.recipes p = .ok deps)
    (entries : List Ref) :
    ∃ fuel final, sys.search fuel (sys.start entries) = some (.ok final) := by
  have hend : ∀ w, Acc (fun w' w => Worklist.Step sys.Owes sys.widest.names w w') w →
      ∀ st : State, st.work = w → sys.Owned st → Worklist.Paid sys.Owes st.work →
      ∃ fuel final, sys.search fuel st = some (.ok final) := by
    intro w hacc
    induction hacc with
    | intro w _ ih =>
        intro st hst howned hpaid
        cases hq : st.q with
        | nil => exact ⟨1, st, by rw [search, hq]⟩
        | cons rel q =>
            obtain ⟨st', hturn⟩ := @turn_isOk _ rel { st with q } hread
            obtain ⟨hstep, howned'⟩ := turn_step hq hturn howned hpaid
            obtain ⟨fuel, final, hsearch⟩ :=
              ih st'.work (hst ▸ hstep) st' rfl howned' (hstep.paid hpaid)
            refine ⟨fuel + 1, final, ?_⟩
            rw [search, hq]
            simp only [hturn]
            exact hsearch
  refine hend _ (Worklist.acc_of_finite (sys.names entries) (fun _ _ _ => leads_mem_names) ?_) _
    rfl (start_owned entries) (start_paid entries)
  rintro x (hx | hx)
  · simp [start, State.work] at hx
  · rw [names, List.mem_toFinset]
    exact List.mem_append_left _
      (List.mem_append_left _ ((sys.entrySet.mem _ _).mp (List.mem_reverse.mp hx)))

theorem mem_report {fail : Bool} {st : State} {p : Name} :
    p ∈ (sys.report fail st).unreached ↔
      p ∈ sys.recipes.keys ∧ p ∉ (sys.report fail st).reached := by
  simp [report, List.mem_insertionSort]

end System

/-- A package directory with one installed file. -/
def oneFile (name : Name) (h : name ≠ "") (path : String) : PkgDir where
  name := name
  nonempty := h
  listing := some ("f 00 1 ".toList ++ path.toList ++ ['\n'])

def bareRecipe : Recipe := ⟨[], [], []⟩

/-- Sets gone through as they were filled. -/
def inOrder {α : Type} [DecidableEq α] : SetOrder α where
  list := List.dedup
  nodup := List.nodup_dedup
  mem _ _ := List.mem_dedup

/-- The menu is a script of an interpreter, and that names its library. -/
def scriptTree : Tree where
  node r :=
    if r = "usr/bin/menu".toList then .file (some (bytes "#!/usr/bin/env py"))
    else if r = "usr/bin/py".toList then .file (some (bytes "/usr/lib/pylib"))
    else if r = "usr/lib/pylib".toList then .file (some [])
    else .missing
  contents := [some (bytes "#!/usr/bin/env py"), some (bytes "/usr/lib/pylib"), some []]
  mem_contents r c h := by
    split_ifs at h <;> cases h <;> simp

def scripted : System where
  recipes := ⟨[("menu", bareRecipe), ("py", bareRecipe), ("pylib", bareRecipe)], by decide⟩
  pkgdirs := [oneFile "menu" (by decide) "usr/bin/menu", oneFile "py" (by decide) "usr/bin/py",
    oneFile "pylib" (by decide) "usr/lib/pylib"]
  applications := ["Exec=/usr/bin/menu\n".toList]
  services := []
  entry := []
  tree := scriptTree
  entrySet := inOrder
  depSet := inOrder
  refSet := inOrder

theorem scripted_report :
    (scripted.cmdReachable false 8).map (fun r => r.map Report.unreached) =
      some (.ok ["pylib"]) := by
  decide

/-- The library is needed, and is reported as unreached. -/
theorem scripted_lost : ∃ report, scripted.cmdReachable false 8 = some (.ok report) ∧
    scripted.full.Needs "pylib" ∧ "pylib" ∈ report.unreached := by
  have hentry : scripted.IsEntry "usr/bin/menu".toList :=
    ⟨["usr/bin/menu".toList], by decide, List.mem_singleton.mpr rfl⟩
  have hname : scripted.full.Meets "USRBIN:py".toList := by
    refine .names (.start hentry) (.inl ⟨some (bytes "#!/usr/bin/env py"), ?_, by decide⟩)
    have hpath : scripted.path "usr/bin/menu".toList = "usr/bin/menu".toList := by decide
    rw [hpath]
    exact .file (by decide)
  have hlib : scripted.full.Meets "usr/lib/pylib".toList := by
    refine .names hname (.inl ⟨some (bytes "/usr/lib/pylib"), ?_, by decide⟩)
    have hpath : scripted.path "USRBIN:py".toList = "usr/bin/py".toList := by decide
    rw [hpath]
    exact .file (by decide)
  obtain ⟨result, hresult, hmap⟩ := Option.map_eq_some_iff.mp scripted_report
  cases result with
  | error e => cases hmap
  | ok report =>
      refine ⟨report, hresult, .owner hlib (by decide), ?_⟩
      rw [Except.ok.inj hmap]
      exact List.mem_singleton.mpr rfl

/-- The menu names nothing, and its interpreter names its library. -/
def declaredTree : Tree where
  node r :=
    if r = "usr/bin/menu".toList then .file (some [])
    else if r = "usr/bin/py".toList then .file (some (bytes "/usr/lib/pylib"))
    else if r = "usr/lib/pylib".toList then .file (some [])
    else .missing
  contents := [some [], some (bytes "/usr/lib/pylib")]
  mem_contents r c h := by
    split_ifs at h <;> cases h <;> simp

/-- The menu declares its interpreter. -/
def declaredMenu : System where
  recipes := ⟨[("menu", ⟨[("deps", .table [("runtime", .arr [.str "py"])])], [], []⟩),
    ("py", bareRecipe), ("pylib", bareRecipe)], by decide⟩
  pkgdirs := [oneFile "menu" (by decide) "usr/bin/menu", oneFile "py" (by decide) "usr/bin/py",
    oneFile "pylib" (by decide) "usr/lib/pylib"]
  applications := []
  services := ["command = /usr/bin/menu\n".toList]
  entry := []
  tree := declaredTree
  entrySet := inOrder
  depSet := inOrder
  refSet := inOrder

section

variable {p d : Name} {r n : Ref}

theorem declaredMenu_declared (p : Name) :
    declared declaredMenu.recipes p = .ok (if p = "menu" then ["py"] else []) := by
  by_cases hmenu : p = "menu"
  · rw [hmenu]
    rfl
  · rw [if_neg hmenu, declared, declaredMenu, Dict.get, List.lookup_cons]
    have hno : (p == "menu") = false := beq_false_of_ne hmenu
    rw [hno, List.lookup_cons, List.lookup_cons]
    cases p == "py" <;> cases p == "pylib" <;> rfl

theorem declaredMenu_dependsOn (h : declaredMenu.DependsOn p d) : p = "menu" ∧ d = "py" := by
  obtain ⟨ds, hds, hd, -⟩ := h
  obtain rfl := Except.ok.inj ((declaredMenu_declared p).symm.trans hds)
  by_cases hmenu : p = "menu"
  · rw [if_pos hmenu] at hd
    exact ⟨hmenu, List.mem_singleton.mp hd⟩
  · rw [if_neg hmenu] at hd
    cases hd

theorem declaredMenu_dependsOn_trans (h : Relation.TransGen declaredMenu.DependsOn p d) :
    declaredMenu.DependsOn p d := by
  induction h with
  | single h => exact h
  | tail _ h ih =>
      have hfirst := (declaredMenu_dependsOn ih).2
      have hsecond := (declaredMenu_dependsOn h).1
      exact absurd (hfirst.symm.trans hsecond) (by decide)

/-- The installed paths, each of them a regular file. -/
def declaredPaths : List Ref :=
  ["usr/bin/menu".toList, "usr/bin/py".toList, "usr/lib/pylib".toList]

theorem declaredMenu_file (hr : r ∈ declaredPaths) :
    ∃ c, declaredMenu.tree.node r = .file c ∧ declaredMenu.path r = r ∧
      (∀ m ∈ namedIn c, m ∈ refsInFile c) ∧ ∀ m ∈ refsInFile c, m ∈ declaredPaths := by
  simp only [declaredPaths, List.mem_cons, List.not_mem_nil, or_false] at hr
  rcases hr with rfl | rfl | rfl
  · exact ⟨some [], by decide +kernel⟩
  · exact ⟨some (bytes "/usr/lib/pylib"), by decide +kernel⟩
  · exact ⟨some [], by decide +kernel⟩

/-- Of a file all that is named is read. -/
theorem declaredMenu_reads (hr : r ∈ declaredPaths) {c : Option (List UInt8)}
    (hfile : declaredMenu.tree.FileAt (declaredMenu.path r) c) (hn : n ∈ namedIn c) :
    declaredMenu.Reads r n := by
  obtain ⟨c', hnode, hpath, hread, -⟩ := declaredMenu_file hr
  rw [hpath] at hfile
  cases hfile with
  | file hc =>
      obtain rfl := Node.file.inj (hnode.symm.trans hc)
      exact ⟨c', hnode, hread n hn⟩
  | link hlink _ => cases hnode.symm.trans hlink

theorem declaredMenu_reads_mem (hr : r ∈ declaredPaths) (h : declaredMenu.Reads r n) :
    n ∈ declaredPaths := by
  obtain ⟨c, hc, hn⟩ := h
  obtain ⟨c', hnode, -, -, hmem⟩ := declaredMenu_file hr
  obtain rfl := Node.file.inj (hnode.symm.trans hc)
  exact hmem n hn

theorem declaredMenu_opens (h : declaredMenu.Opens declaredMenu.DependsOn r n) :
    n = "usr/bin/py".toList := by
  obtain ⟨p, d, -, hdep, hfirst⟩ := h
  rw [(declaredMenu_dependsOn hdep).2] at hfirst
  have hpy : firstPath declaredMenu.own "py" = some "usr/bin/py".toList := by decide +kernel
  exact Option.some.inj (hfirst.symm.trans hpy)

theorem declaredMenu_entry (h : declaredMenu.IsEntry r) : r = "usr/bin/menu".toList := by
  have hentries : declaredMenu.entries = .ok ["usr/bin/menu".toList] := by decide +kernel
  obtain ⟨es, hes, hr⟩ := h
  obtain rfl := Except.ok.inj (hentries.symm.trans hes)
  exact List.mem_singleton.mp hr

theorem declaredMenu_widest (h : declaredMenu.widest.Meets r) : r ∈ declaredPaths := by
  induction h with
  | start hentry =>
      rw [declaredMenu_entry hentry]
      exact List.mem_cons_self
  | names _ hname ih =>
      rcases hname with hread | hopens
      · exact declaredMenu_reads_mem ih hread
      · rw [declaredMenu_opens hopens]
        decide

theorem declaredMenu_sole : declaredMenu.Sole "py" "usr/bin/py".toList := by
  refine ⟨by decide +kernel, fun x hx hpy => ?_⟩
  have hmem := declaredMenu_widest hx
  simp only [declaredPaths, List.mem_cons, List.not_mem_nil, or_false] at hmem
  rcases hmem with rfl | rfl | rfl
  · exact absurd hpy (by decide +kernel)
  · rfl
  · exact absurd hpy (by decide +kernel)

theorem declaredMenu_direct (h : declaredMenu.full.Meets r) :
    declaredMenu.direct.Meets r ∧ r ∈ declaredPaths := by
  induction h with
  | start hentry =>
      refine ⟨.start hentry, ?_⟩
      rw [declaredMenu_entry hentry]
      exact List.mem_cons_self
  | names _ hname ih =>
      rcases hname with ⟨c, hfile, hn⟩ | ⟨p, d, howner, hdep, hfirst⟩
      · have hread := declaredMenu_reads ih.2 hfile hn
        exact ⟨.names ih.1 (.inl hread), declaredMenu_reads_mem ih.2 hread⟩
      · have hdirect := declaredMenu_dependsOn_trans hdep
        have hpy := declaredMenu_opens ⟨p, d, howner, hdirect, hfirst⟩
        obtain rfl := (declaredMenu_dependsOn hdirect).2
        subst hpy
        exact ⟨.names ih.1 (.inr ⟨p, "py", howner, hdirect, hfirst, declaredMenu_sole⟩), by decide⟩

end

end Veron.Reachable
