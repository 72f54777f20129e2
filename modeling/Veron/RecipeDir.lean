/-
What the hash of a recipe covers of the directory that the recipe is loaded from.
-/
import Veron.Frames
import Veron.InstallListing

namespace Veron.Driver

open Files

/-- A value of the parsed recipe.  The entries of a table stand in the order of their
keys, and a date is known by what `str` makes of it. -/
inductive Toml where
  | str (s : String)
  | num (n : Json.Number)
  | bool (b : Bool)
  | date (text : String)
  | arr (vs : List Toml)
  | table (entries : List (String × Toml))

mutual

/-- What `json.dumps` sees, with `default=str`. -/
def Toml.plain : Toml → Json.Value
  | .str s => .str s
  | .num n => .num n
  | .bool b => .bool b
  | .date text => .str text
  | .arr vs => .arr (plainItems vs)
  | .table es => .table (plainEntries es)

def plainItems : List Toml → List Json.Value
  | [] => []
  | v :: vs => v.plain :: plainItems vs

def plainEntries : List (String × Toml) → List (String × Json.Value)
  | [] => []
  | (k, v) :: es => (k, v.plain) :: plainEntries es

end

/-- A directory below `files/`, its entries in the order of their names, in which the
loader goes through them.  No name and no target has a zero byte. -/
inductive Ordered : List (String × DestNode) → Prop
  | nil : Ordered []
  | leaf {name : String} {node : DestNode} {rest : List (String × DestNode)} :
      FileSystem.Plain name → '/' ∉ name.toList → '\x00' ∉ name.toList →
      (∀ e ∈ rest, name < e.1) → (∀ es, node ≠ .dir es) →
      (∀ target toDir, node = .link target toDir → '\x00' ∉ target.toList) → Ordered rest →
      Ordered ((name, node) :: rest)
  | dir {name : String} {sub rest : List (String × DestNode)} :
      FileSystem.Plain name → '/' ∉ name.toList → '\x00' ∉ name.toList →
      (∀ e ∈ rest, name < e.1) → Ordered sub → Ordered rest →
      Ordered ((name, .dir sub) :: rest)

/-- A recipe's directory: the parsed `recipe.toml`, what is in `files/` with the data of
its files, and what is in `patches/`. -/
structure RecipeDir where
  document : List (String × Toml)
  files : List (String × DestNode)
  data : ℕ → List UInt8
  patches : List (String × List UInt8)
  ordered : Ordered files
  patches_nodup : (patches.map Prod.fst).Nodup
  patches_named : ∀ e ∈ patches, '\x00' ∉ e.1.toList

/-- A file of `os.walk`, by its name alone. -/
def fileHere (e : String × DestNode) : Option (Path × Leaf) :=
  (filename e).map fun l => ([l.1], l.2)

mutual

/-- The files that `os.walk` comes to: those of a directory, then those of its
directories.  A link to a directory is among the directories, and not followed. -/
def walkedNode : DestNode → List (Path × Leaf)
  | .dir es => es.filterMap fileHere ++ walkedSubdirs es
  | _ => []

def walkedSubdirs : List (String × DestNode) → List (Path × Leaf)
  | [] => []
  | e :: rest => walkedEntry e ++ walkedSubdirs rest

def walkedEntry : String × DestNode → List (Path × Leaf)
  | (name, node) => (walkedNode node).map fun x => (name :: x.1, x.2)

end

def source (data : ℕ → List UInt8) : Leaf → Source
  | .file key => .file (data key)
  | .link target => .link (encode target.toList)

/-- `fn.endswith(".patch")`. -/
def isPatch (name : String) : Bool := ['.', 'p', 'a', 't', 'c', 'h'].isSuffixOf name.toList

namespace RecipeDir

variable (d : RecipeDir)

def walked : List (Path × Leaf) := walkedNode (.dir d.files)

/-- The patches, sorted by name. -/
def sortedPatches : List (String × List UInt8) :=
  (d.patches.filter fun e => isPatch e.1).insertionSort fun a b => a.1 ≤ b.1

/-- The recipe as it is loaded. -/
def load : Recipe where
  document := plainEntries d.document
  files := d.walked.map fun x => (encode (relpath x.1), source d.data x.2)
  patches := d.sortedPatches.map fun e => (encode e.1.toList, e.2)

/-- The sections that the hash leaves out. -/
def excluded : List String := ["installs", "guest", "declared", "undeclarable"]

def inputs : List (String × Toml) := d.document.filter fun e => e.1 ∉ excluded

/-- The file or link at a path below `files/`, also a link to a directory. -/
def sourceAt (q : Path) : Option Source :=
  ((nodeAt d.files q).bind DestNode.leaf).map (source d.data)

end RecipeDir

/-- The same inputs, the same files and links, and the same patches. -/
structure Agree (d e : RecipeDir) : Prop where
  inputs : d.inputs = e.inputs
  files : ∀ q, d.sourceAt q = e.sourceAt q
  patches : ∀ p, isPatch p.1 = true → (p ∈ d.patches ↔ p ∈ e.patches)

/-- The order in which the walk comes to paths. -/
def Before : Path → Path → Prop
  | [a], [b] => a < b
  | [_], _ :: _ :: _ => True
  | a :: b :: p, c :: d :: q => a < c ∨ a = c ∧ Before (b :: p) (d :: q)
  | _, _ => False

theorem Before.asymm {p q : Path} (h : Before p q) : ¬ Before q p := by
  induction p generalizing q with
  | nil => cases h
  | cons a p ih =>
      cases q with
      | nil => cases p <;> cases h
      | cons c q =>
          cases p with
          | nil =>
              cases q with
              | nil => exact lt_asymm h
              | cons d q => exact id
          | cons b p =>
              cases q with
              | nil => cases h
              | cons d q =>
                  rintro (hca | ⟨rfl, hback⟩)
                  · rcases h with hac | ⟨rfl, -⟩
                    · exact lt_asymm hac hca
                    · exact lt_irrefl _ hca
                  · rcases h with hac | ⟨-, hrest⟩
                    · exact lt_irrefl _ hac
                    · exact ih hrest hback

theorem walkedNode_dir (es : List (String × DestNode)) :
    walkedNode (.dir es) = es.filterMap fileHere ++ walkedSubdirs es := by
  rw [walkedNode]

theorem fileHere_eq_some {e : String × DestNode} {x : Path × Leaf} :
    fileHere e = some x ↔ x.1 = [e.1] ∧ filename e = some (e.1, x.2) := by
  obtain ⟨q, l⟩ := x
  rw [fileHere, Option.map_eq_some_iff]
  constructor
  · rintro ⟨⟨name, l'⟩, hname, heq⟩
    obtain ⟨rfl, rfl⟩ := Prod.mk.inj heq
    have hfst : e.1 = name := (filename_eq_some.mp hname).1
    exact ⟨by rw [hfst], by rw [hfst]; exact hname⟩
  · rintro ⟨rfl, hname⟩
    exact ⟨(e.1, l), hname, rfl⟩

theorem walkedSubdirs_leaf {node : DestNode} (hnode : ∀ es, node ≠ .dir es) (name : String)
    (rest : List (String × DestNode)) :
    walkedSubdirs ((name, node) :: rest) = walkedSubdirs rest := by
  rw [walkedSubdirs, walkedEntry]
  cases node with
  | file key => rw [walkedNode]; rfl; simp
  | link target toDir => rw [walkedNode]; rfl; simp
  | dir es => exact absurd rfl (hnode es)

theorem walkedSubdirs_dir (name : String) (sub rest : List (String × DestNode)) :
    walkedSubdirs ((name, .dir sub) :: rest) =
      (walkedNode (.dir sub)).map (fun x => (name :: x.1, x.2)) ++ walkedSubdirs rest := by
  rw [walkedSubdirs, walkedEntry]

theorem path_of_fileHere {es : List (String × DestNode)} {x : Path × Leaf}
    (hx : x ∈ es.filterMap fileHere) : ∃ e ∈ es, x.1 = [e.1] := by
  obtain ⟨e, he, heq⟩ := List.mem_filterMap.mp hx
  exact ⟨e, he, (fileHere_eq_some.mp heq).1⟩

/-- The paths of the directories in a directory have two names at least. -/
theorem path_of_walkedSubdirs {es : List (String × DestNode)} (h : Ordered es) {x : Path × Leaf}
    (hx : x ∈ walkedSubdirs es) : ∃ e ∈ es, ∃ b p, x.1 = e.1 :: b :: p := by
  induction h generalizing x with
  | nil =>
      rw [walkedSubdirs] at hx
      cases hx
  | @leaf name node rest _ _ _ _ hnode _ _ ih =>
      rw [walkedSubdirs_leaf hnode] at hx
      obtain ⟨e, he, hpath⟩ := ih hx
      exact ⟨e, List.mem_cons_of_mem _ he, hpath⟩
  | @dir name sub rest _ _ _ _ _ _ ihsub ih =>
      rw [walkedSubdirs_dir, List.mem_append] at hx
      rcases hx with hx | hx
      · obtain ⟨y, hy, rfl⟩ := List.mem_map.mp hx
        refine ⟨(name, .dir sub), List.mem_cons_self, ?_⟩
        rw [walkedNode_dir, List.mem_append] at hy
        rcases hy with hy | hy
        · obtain ⟨e, -, hpath⟩ := path_of_fileHere hy
          exact ⟨e.1, [], by rw [hpath]⟩
        · obtain ⟨e, -, b, p, hpath⟩ := ihsub hy
          exact ⟨e.1, b :: p, by rw [hpath]⟩
      · obtain ⟨e, he, hpath⟩ := ih hx
        exact ⟨e, List.mem_cons_of_mem _ he, hpath⟩

theorem Ordered.names_lt {es : List (String × DestNode)} (h : Ordered es) :
    es.Pairwise fun e f => e.1 < f.1 := by
  induction h with
  | nil => exact List.Pairwise.nil
  | leaf _ _ _ hlt _ _ _ ih => exact ih.cons hlt
  | dir _ _ _ hlt _ _ _ ih => exact ih.cons hlt

theorem Before.cons {p q : Path} (hp : p ≠ []) (hq : q ≠ []) (h : Before p q) (a : String) :
    Before (a :: p) (a :: q) := by
  obtain ⟨b, p, rfl⟩ := List.exists_cons_of_ne_nil hp
  obtain ⟨c, q, rfl⟩ := List.exists_cons_of_ne_nil hq
  exact .inr ⟨rfl, h⟩

theorem path_ne_nil_of_walked {es : List (String × DestNode)} (h : Ordered es) {x : Path × Leaf}
    (hx : x ∈ walkedNode (.dir es)) : x.1 ≠ [] := by
  rw [walkedNode_dir, List.mem_append] at hx
  rcases hx with hx | hx
  · obtain ⟨e, -, hpath⟩ := path_of_fileHere hx
    simp [hpath]
  · obtain ⟨e, -, b, p, hpath⟩ := path_of_walkedSubdirs h hx
    simp [hpath]

theorem walkedNode_before {es : List (String × DestNode)} (h : Ordered es)
    (hsubdirs : (walkedSubdirs es).Pairwise fun x y => Before x.1 y.1) :
    (walkedNode (.dir es)).Pairwise fun x y => Before x.1 y.1 := by
  rw [walkedNode_dir, List.pairwise_append]
  refine ⟨h.names_lt.filterMap fileHere fun e f hlt x hx y hy => ?_, hsubdirs,
    fun x hx y hy => ?_⟩
  · rw [(fileHere_eq_some.mp hx).1, (fileHere_eq_some.mp hy).1]
    exact hlt
  · obtain ⟨e, -, hpath⟩ := path_of_fileHere hx
    obtain ⟨e', -, b, p, hpath'⟩ := path_of_walkedSubdirs h hy
    rw [hpath, hpath']
    trivial

theorem walkedSubdirs_before {es : List (String × DestNode)} (h : Ordered es) :
    (walkedSubdirs es).Pairwise fun x y => Before x.1 y.1 := by
  induction h with
  | nil =>
      rw [walkedSubdirs]
      exact List.Pairwise.nil
  | @leaf name node rest _ _ _ _ hnode _ _ ih => rwa [walkedSubdirs_leaf hnode]
  | @dir name sub rest _ _ _ hlt hsub hrest ihsub ih =>
      rw [walkedSubdirs_dir, List.pairwise_append]
      refine ⟨?_, ih, fun x hx y hy => ?_⟩
      · rw [List.pairwise_map]
        refine (walkedNode_before hsub ihsub).imp_of_mem fun {x y} hx hy hxy => ?_
        exact hxy.cons (path_ne_nil_of_walked hsub hx) (path_ne_nil_of_walked hsub hy) name
      · obtain ⟨z, hz, rfl⟩ := List.mem_map.mp hx
        obtain ⟨b, p, hp⟩ := List.exists_cons_of_ne_nil (path_ne_nil_of_walked hsub hz)
        obtain ⟨e, he, c, q, hq⟩ := path_of_walkedSubdirs hrest hy
        rw [hq]
        change Before (name :: z.1) _
        rw [hp]
        exact .inl (hlt e he)

/-- The walk goes through the files in one order. -/
theorem RecipeDir.walked_before (d : RecipeDir) :
    d.walked.Pairwise fun x y => Before x.1 y.1 :=
  walkedNode_before d.ordered (walkedSubdirs_before d.ordered)

/-- What is hashed of a node. -/
def DestNode.walked : DestNode → Option Leaf
  | .file key => some (.file key)
  | .link target false => some (.link target)
  | _ => none

theorem filename_walked {name : String} {node : DestNode} {l : Leaf} :
    filename (name, node) = some (name, l) ↔ node.walked = some l := by
  cases node with
  | file key => simp [filename, DestNode.walked]
  | link target toDir => cases toDir <;> simp [filename, DestNode.walked]
  | dir es => simp [filename, DestNode.walked]

theorem nodeAt_cons_ne {a name : String} (hne : a ≠ name) (node : DestNode)
    (rest : List (String × DestNode)) (q : Path) :
    nodeAt ((name, node) :: rest) (a :: q) = nodeAt rest (a :: q) := by
  rw [nodeAt, nodeAt, lookup_cons_ne hne]

theorem nodeAt_cons_self {node : DestNode} (hnode : ∀ es, node ≠ .dir es) (name : String)
    (rest : List (String × DestNode)) (q : Path) :
    nodeAt ((name, node) :: rest) (name :: q) = if q = [] then some node else none := by
  rw [nodeAt, List.lookup_cons_self]
  cases node with
  | file key => rfl
  | link target toDir => rfl
  | dir es => exact absurd rfl (hnode es)

theorem nodeAt_not_mem {es : List (String × DestNode)} {a : String}
    (ha : ∀ e ∈ es, a ≠ e.1) (q : Path) : nodeAt es (a :: q) = none := by
  have hlookup : es.lookup a = none := by
    cases h : es.lookup a with
    | none => rfl
    | some node => exact absurd rfl (ha _ (mem_of_lookup h))
  rw [nodeAt, hlookup]

theorem mem_walkedNode {es : List (String × DestNode)} (h : Ordered es) {q : Path} {l : Leaf} :
    (q, l) ∈ walkedNode (.dir es) ↔ ∃ node, nodeAt es q = some node ∧ node.walked = some l := by
  induction h generalizing q with
  | nil =>
      rw [walkedNode_dir, walkedSubdirs]
      refine iff_of_false (by simp) ?_
      rintro ⟨node, hnode, hwalked⟩
      cases q with
      | nil =>
          obtain rfl := Option.some.inj hnode
          cases hwalked
      | cons a q => cases hnode
  | @leaf name node rest hplain hs hz hlt hnode ht hrest ih =>
      have hsplit : (q, l) ∈ walkedNode (.dir ((name, node) :: rest)) ↔
          (q = [name] ∧ node.walked = some l) ∨ (q, l) ∈ walkedNode (.dir rest) := by
        rw [walkedNode_dir, walkedNode_dir, walkedSubdirs_leaf hnode, List.mem_append,
          List.mem_append, ← or_assoc, List.mem_filterMap, List.mem_filterMap]
        refine or_congr ?_ Iff.rfl
        simp only [List.mem_cons, exists_eq_or_imp, fileHere_eq_some, filename_walked]
      rw [hsplit, ih]
      cases q with
      | nil => simp [nodeAt, DestNode.walked]
      | cons a q =>
          by_cases ha : a = name
          · subst ha
            have hother := nodeAt_not_mem (fun e he heq => absurd (hlt e he) (heq ▸ lt_irrefl _)) q
            rw [nodeAt_cons_self hnode, hother]
            cases q with
            | nil => simp
            | cons b q => simp
          · rw [nodeAt_cons_ne ha]
            simp [ha]
  | @dir name sub rest hplain hs hz hlt hsub hrest ihsub ih =>
      have hsplit : (q, l) ∈ walkedNode (.dir ((name, .dir sub) :: rest)) ↔
          (∃ p, q = name :: p ∧ (p, l) ∈ walkedNode (.dir sub)) ∨
            (q, l) ∈ walkedNode (.dir rest) := by
        have hfile : fileHere (name, .dir sub) = none := rfl
        rw [walkedNode_dir, walkedNode_dir rest, walkedSubdirs_dir,
          List.filterMap_cons_none hfile, List.mem_append, List.mem_append, List.mem_append,
          or_left_comm, List.mem_map]
        refine or_congr ?_ Iff.rfl
        constructor
        · rintro ⟨⟨p, l'⟩, hp, heq⟩
          obtain ⟨rfl, rfl⟩ := Prod.mk.inj heq
          exact ⟨p, rfl, hp⟩
        · rintro ⟨p, rfl, hp⟩
          exact ⟨(p, l), hp, rfl⟩
      rw [hsplit, ih]
      cases q with
      | nil => simp [nodeAt, DestNode.walked]
      | cons a q =>
          by_cases ha : a = name
          · subst ha
            have hother := nodeAt_not_mem (fun e he heq => absurd (hlt e he) (heq ▸ lt_irrefl _)) q
            have hself : nodeAt ((a, .dir sub) :: rest) (a :: q) = nodeAt sub q := by
              rw [nodeAt, List.lookup_cons_self]
            rw [hself, hother]
            simp [ihsub]
          · rw [nodeAt_cons_ne ha]
            simp [ha]

namespace RecipeDir

variable (d : RecipeDir)

/-- The files and links that are hashed, in their order. -/
def hashed : List (Path × Source) := d.walked.map fun x => (x.1, source d.data x.2)

/-- What is hashed of a path. -/
def hashedAt (q : Path) : Option Source :=
  ((nodeAt d.files q).bind DestNode.walked).map (source d.data)

variable {d}

theorem mem_hashed {q : Path} {s : Source} : (q, s) ∈ d.hashed ↔ d.hashedAt q = some s := by
  rw [hashed, hashedAt, Option.map_eq_some_iff]
  constructor
  · intro h
    obtain ⟨⟨q', l⟩, hl, heq⟩ := List.mem_map.mp h
    obtain ⟨rfl, rfl⟩ := Prod.mk.inj heq
    obtain ⟨node, hnode, hwalked⟩ := (mem_walkedNode d.ordered).mp hl
    exact ⟨l, by rw [hnode, Option.bind_some, hwalked], rfl⟩
  · rintro ⟨l, hl, rfl⟩
    obtain ⟨node, hnode, hwalked⟩ := Option.bind_eq_some_iff.mp hl
    exact List.mem_map.mpr ⟨(q, l), (mem_walkedNode d.ordered).mpr ⟨node, hnode, hwalked⟩, rfl⟩

theorem hashed_before : d.hashed.Pairwise fun x y => Before x.1 y.1 := by
  rw [hashed, List.pairwise_map]
  exact d.walked_before

theorem hashed_nodup : d.hashed.Nodup :=
  hashed_before.imp fun h heq => (heq ▸ h).asymm (heq ▸ h)

/-- Nothing but what is at the paths decides what is hashed. -/
theorem hashed_eq {e : RecipeDir} (h : ∀ q, d.hashedAt q = e.hashedAt q) :
    d.hashed = e.hashed := by
  have hperm : d.hashed.Perm e.hashed := by
    rw [List.perm_ext_iff_of_nodup hashed_nodup hashed_nodup]
    rintro ⟨q, s⟩
    rw [mem_hashed, mem_hashed, h]
  exact hperm.eq_of_pairwise (fun x y _ _ hxy hyx => absurd hyx hxy.asymm) hashed_before
    hashed_before

theorem mem_sortedPatches {p : String × List UInt8} :
    p ∈ d.sortedPatches ↔ p ∈ d.patches ∧ isPatch p.1 = true := by
  rw [sortedPatches, List.mem_insertionSort, List.mem_filter]

theorem sortedPatches_le : d.sortedPatches.Pairwise fun p q => p.1 ≤ q.1 := by
  have htotal : Std.Total fun p q : String × List UInt8 => p.1 ≤ q.1 :=
    ⟨fun p q => le_total p.1 q.1⟩
  have htrans : IsTrans (String × List UInt8) fun p q => p.1 ≤ q.1 :=
    ⟨fun _ _ _ => le_trans⟩
  exact List.pairwise_insertionSort _ _

theorem sortedPatches_eq {e : RecipeDir}
    (h : ∀ p, isPatch p.1 = true → (p ∈ d.patches ↔ p ∈ e.patches)) :
    d.sortedPatches = e.sortedPatches := by
  have hnodup : ∀ c : RecipeDir, c.sortedPatches.Nodup := fun c =>
    (List.perm_insertionSort _ _).nodup_iff.mpr (c.patches_nodup.of_map.filter _)
  have hperm : d.sortedPatches.Perm e.sortedPatches := by
    rw [List.perm_ext_iff_of_nodup (hnodup d) (hnodup e)]
    intro p
    rw [mem_sortedPatches, mem_sortedPatches]
    exact and_congr_left (h p)
  refine hperm.eq_of_pairwise (fun p q hp hq hpq hqp => ?_) sortedPatches_le sortedPatches_le
  have hq' : q ∈ d.patches := (mem_sortedPatches.mp (hperm.mem_iff.mpr hq)).1
  exact List.inj_on_of_nodup_map d.patches_nodup (mem_sortedPatches.mp hp).1 hq'
    (le_antisymm hpq hqp)

/-- A file or link as it is hashed: its path, then its kind and what is in it. -/
def fileFrame (x : Path × Source) : List UInt8 × List UInt8 := (encode (relpath x.1), x.2.bytes)

/-- A patch as it is hashed. -/
def patchFrame (p : String × List UInt8) : List UInt8 × List UInt8 :=
  (0x50 :: encode p.1.toList, p.2)

variable (d)

/-- What is hashed after the document. -/
def frames : List (List UInt8 × List UInt8) :=
  d.hashed.map fileFrame ++ d.sortedPatches.map patchFrame

variable {d}

theorem load_message : d.load.message =
    encode (Json.Value.table d.load.inputs).dumps ++ Frames.text 0 d.frames := by
  rw [Recipe.message, List.append_assoc, frames, Frames.text_append, Frames.text, Frames.text,
    hashed, load]
  simp only [List.flatMap_map]
  rfl

theorem load_message_eq_iff {e : RecipeDir} :
    d.load.message = e.load.message ↔
      d.load.inputs = e.load.inputs ∧ Frames.text 0 d.frames = Frames.text 0 e.frames := by
  constructor
  · intro h
    have hinputs := Recipe.inputs_eq h
    rw [load_message, load_message, hinputs] at h
    exact ⟨hinputs, List.append_cancel_left h⟩
  · rintro ⟨hinputs, htext⟩
    rw [load_message, load_message, hinputs, htext]

theorem plainEntries_filter (keep : String → Bool) (es : List (String × Toml)) :
    (plainEntries es).filter (fun x => keep x.1) =
      plainEntries (es.filter fun x => keep x.1) := by
  induction es with
  | nil => rfl
  | cons x es ih =>
      obtain ⟨k, v⟩ := x
      rw [plainEntries, List.filter_cons, List.filter_cons, ih]
      split
      · rw [plainEntries]
      · rfl

/-- The hash sees of the inputs what they are without dates, and not `_dir`. -/
theorem load_inputs : d.load.inputs = (plainEntries d.inputs).filter fun x => x.1 ≠ "_dir" := by
  have hfilter := plainEntries_filter (fun k => decide (k ∉ excluded)) d.document
  have hboth : d.load.inputs =
      ((plainEntries d.document).filter fun x => decide (x.1 ∉ excluded)).filter
        fun x => x.1 ≠ "_dir" := by
    rw [Recipe.inputs, load, List.filter_filter]
    refine List.filter_congr fun x _ => ?_
    simp only [notInputs, excluded, List.mem_cons, List.not_mem_nil, or_false]
    by_cases hdir : x.1 = "_dir" <;> simp [hdir]
  rw [hboth, hfilter, inputs]

theorem hashedAt_of_link {q : Path} {target : String}
    (h : nodeAt d.files q = some (.link target true)) : d.hashedAt q = none := by
  rw [hashedAt, h]
  rfl

theorem hashedAt_eq {q : Path} (h : ∀ target, nodeAt d.files q ≠ some (.link target true)) :
    d.hashedAt q = d.sourceAt q := by
  rw [hashedAt, sourceAt]
  cases hnode : nodeAt d.files q with
  | none => rfl
  | some node =>
      cases node with
      | file key => rfl
      | dir es => rfl
      | link target toDir =>
          cases toDir with
          | false => rfl
          | true => exact absurd hnode (h target)

theorem sourceAt_of_hashed {q : Path} {s : Source} (h : d.hashedAt q = some s) :
    d.sourceAt q = some s := by
  rw [← hashedAt_eq, h]
  intro target hlink
  rw [hashedAt_of_link hlink] at h
  cases h

end RecipeDir

theorem Ordered.names_of_nodeAt {es : List (String × DestNode)} (h : Ordered es) {q : Path}
    {node : DestNode} (hnode : nodeAt es q = some node) :
    (∀ name ∈ q, '/' ∉ name.toList ∧ '\x00' ∉ name.toList) ∧
      ∀ target toDir, node = .link target toDir → '\x00' ∉ target.toList := by
  induction h generalizing q with
  | nil =>
      cases q with
      | nil =>
          obtain rfl := Option.some.inj hnode
          exact ⟨by simp, by simp⟩
      | cons a q => cases hnode
  | @leaf name node' rest hplain hslash hzero hlt hleaf htarget hrest ih =>
      cases q with
      | nil =>
          obtain rfl := Option.some.inj hnode
          exact ⟨by simp, by simp⟩
      | cons a q =>
          by_cases ha : a = name
          · subst ha
            rw [nodeAt_cons_self hleaf, Option.ite_none_right_eq_some] at hnode
            obtain ⟨rfl, heq⟩ := hnode
            obtain rfl := Option.some.inj heq
            exact ⟨by simp [hslash, hzero], htarget⟩
          · rw [nodeAt_cons_ne ha] at hnode
            exact ih hnode
  | @dir name sub rest hplain hslash hzero hlt hsub hrest ihsub ih =>
      cases q with
      | nil =>
          obtain rfl := Option.some.inj hnode
          exact ⟨by simp, by simp⟩
      | cons a q =>
          by_cases ha : a = name
          · subst ha
            rw [nodeAt, List.lookup_cons_self] at hnode
            obtain ⟨hnames, htargets⟩ := ihsub hnode
            refine ⟨fun b hb => ?_, htargets⟩
            rcases List.mem_cons.mp hb with rfl | hb
            · exact ⟨hslash, hzero⟩
            · exact hnames b hb
          · rw [nodeAt_cons_ne ha] at hnode
            exact ih hnode

theorem Source.bytes_inj {s t : Source} (h : s.bytes = t.bytes) : s = t := by
  cases s with
  | link target =>
      cases t with
      | link target' => rw [(List.cons.inj h).2]
      | file content => exact absurd (List.cons.inj h).1 (by decide)
  | file content =>
      cases t with
      | link target => exact absurd (List.cons.inj h).1 (by decide)
      | file content' => rw [(List.cons.inj h).2]

namespace RecipeDir

variable {d e : RecipeDir}

theorem names_of_sourceAt {q : Path} {s : Source} (h : d.sourceAt q = some s) :
    q ≠ [] ∧ ∀ name ∈ q, '/' ∉ name.toList ∧ '\x00' ∉ name.toList := by
  obtain ⟨l, hl, -⟩ := Option.map_eq_some_iff.mp h
  obtain ⟨node, hnode, hleaf⟩ := Option.bind_eq_some_iff.mp hl
  refine ⟨?_, (d.ordered.names_of_nodeAt hnode).1⟩
  rintro rfl
  obtain rfl := Option.some.inj hnode
  cases hleaf

theorem zero_not_mem_relpath {q : Path} {s : Source} (h : d.sourceAt q = some s) :
    0 ∉ encode (relpath q) :=
  zero_not_mem_encode
    (not_mem_relpath (by decide) fun name hname => ((names_of_sourceAt h).2 name hname).2)

theorem zero_not_mem_header {x : List UInt8 × List UInt8} (hx : x ∈ d.frames) : 0 ∉ x.1 := by
  rcases List.mem_append.mp hx with hx | hx
  · obtain ⟨⟨q, s⟩, hy, rfl⟩ := List.mem_map.mp hx
    exact zero_not_mem_relpath (sourceAt_of_hashed (mem_hashed.mp hy))
  · obtain ⟨p, hp, rfl⟩ := List.mem_map.mp hx
    have hname := zero_not_mem_encode (d.patches_named p (mem_sortedPatches.mp hp).1)
    simpa [patchFrame] using hname

theorem fileFrame_inj {x y : Path × Source} (hx : d.sourceAt x.1 = some x.2)
    (hy : e.sourceAt y.1 = some y.2) (h : (fileFrame x).1 = (fileFrame y).1) : x.1 = y.1 := by
  obtain ⟨hne, hnames⟩ := names_of_sourceAt hx
  obtain ⟨hne', hnames'⟩ := names_of_sourceAt hy
  exact relpath_inj hne hne' (fun a ha => (hnames a ha).1) (fun a ha => (hnames' a ha).1)
    (encode_inj h)

/-- Where every path has one source in both, the text of the frames tells the files. -/
theorem files_inj {l m : List (Path × Source)} (hl : ∀ x ∈ l, d.sourceAt x.1 = some x.2)
    (hm : ∀ x ∈ m, e.sourceAt x.1 = some x.2) (hsame : ∀ q, d.sourceAt q = e.sourceAt q)
    (h : Frames.text 0 (l.map fileFrame) = Frames.text 0 (m.map fileFrame)) : l = m := by
  induction l generalizing m with
  | nil =>
      cases m with
      | nil => rfl
      | cons y m => cases h
  | cons x l ih =>
      cases m with
      | nil => cases h
      | cons y m =>
          have hx := hl x List.mem_cons_self
          have hy := hm y List.mem_cons_self
          rw [List.map_cons, List.map_cons, Frames.text_cons, Frames.text_cons] at h
          have hcut := CutText.append_cons_inj_of_notMem (zero_not_mem_relpath hx)
            (zero_not_mem_relpath hy) (List.cons.inj h).2
          have hpath := fileFrame_inj hx hy hcut.1
          have hxy : x = y := by
            refine Prod.ext hpath (Option.some.inj ?_)
            rw [← hx, ← hy, hpath, hsame]
          subst hxy
          rw [ih (fun z hz => hl z (List.mem_cons_of_mem _ hz))
            (fun z hz => hm z (List.mem_cons_of_mem _ hz)) (List.append_cancel_left hcut.2)]

/-- Patches that are the same are hashed the same, and so are then the files. -/
theorem hashed_eq_of_agree (h : Agree d e)
    (htext : Frames.text 0 d.frames = Frames.text 0 e.frames) : d.hashed = e.hashed := by
  rw [frames, frames, sortedPatches_eq h.patches, Frames.text_append, Frames.text_append] at htext
  exact files_inj (fun _ hx => sourceAt_of_hashed (mem_hashed.mp hx))
    (fun _ hx => sourceAt_of_hashed (mem_hashed.mp hx)) h.files (List.append_cancel_right htext)

theorem frames_eq_of_agree (h : Agree d e)
    (htext : Frames.text 0 d.frames = Frames.text 0 e.frames) : d.frames = e.frames := by
  rw [frames, frames, hashed_eq_of_agree h htext, sortedPatches_eq h.patches]

theorem mem_hashed_of_files (h : d.hashed.map fileFrame = e.hashed.map fileFrame)
    {x : Path × Source} (hx : x ∈ d.hashed) : x ∈ e.hashed := by
  have hframe : fileFrame x ∈ e.hashed.map fileFrame := h ▸ List.mem_map_of_mem hx
  obtain ⟨y, hy, heq⟩ := List.mem_map.mp hframe
  have hpath := fileFrame_inj (sourceAt_of_hashed (mem_hashed.mp hy))
    (sourceAt_of_hashed (mem_hashed.mp hx)) (congrArg Prod.fst heq)
  have hsource := Source.bytes_inj (congrArg Prod.snd heq)
  rwa [← Prod.ext hpath hsource]

theorem hashedAt_eq_of_files (h : d.hashed.map fileFrame = e.hashed.map fileFrame) (q : Path) :
    d.hashedAt q = e.hashedAt q := by
  refine Option.ext fun s => ?_
  rw [← mem_hashed, ← mem_hashed]
  exact ⟨mem_hashed_of_files h, mem_hashed_of_files h.symm⟩

theorem patchFrame_inj : Function.Injective patchFrame := by
  intro p q h
  obtain ⟨hname, hdata⟩ := Prod.mk.inj h
  exact Prod.ext (String.toList_inj.mp (encode_inj (List.cons.inj hname).2)) hdata

end RecipeDir

/-- A link to a directory in `d`, which is not hashed, and which `e` does not have. -/
def Unhashed (d e : RecipeDir) : Prop :=
  ∃ q target, nodeAt d.files q = some (.link target true) ∧ d.sourceAt q ≠ e.sourceAt q

/-- One link to one target, where a directory is for one of the two alone. -/
def Reclassified (d e : RecipeDir) : Prop :=
  ∃ q target toDir, nodeAt d.files q = some (.link target toDir) ∧
    nodeAt e.files q = some (.link target !toDir)

/-- Two directories that differ and are hashed as one. -/
inductive Confused (d e : RecipeDir) : Prop
  /-- A file or a patch of one goes on with what follows it in the other. -/
  | imitated : d.load.inputs = e.load.inputs →
      Frames.Imitates 0 d.frames e.frames ∨ Frames.Imitates 0 e.frames d.frames → Confused d e
  /-- The inputs differ in a date and its text, or under `_dir`. -/
  | inputs : d.load.inputs = e.load.inputs → d.frames = e.frames → d.inputs ≠ e.inputs →
      Confused d e
  | unhashed : d.load.inputs = e.load.inputs → d.frames = e.frames →
      Unhashed d e ∨ Unhashed e d → Confused d e
  /-- What is hashed as a file in one is hashed as a patch in the other. -/
  | patches : d.load.inputs = e.load.inputs → d.frames = e.frames →
      d.hashed.length ≠ e.hashed.length → Confused d e

namespace RecipeDir

variable {d e : RecipeDir}

theorem sourceAt_eq (h : ∀ q, d.hashedAt q = e.hashedAt q) (hd : ¬ Unhashed d e)
    (he : ¬ Unhashed e d) (q : Path) : d.sourceAt q = e.sourceAt q := by
  by_contra hne
  have hleft : ∀ target, nodeAt d.files q ≠ some (.link target true) :=
    fun target hlink => hd ⟨q, target, hlink, hne⟩
  have hright : ∀ target, nodeAt e.files q ≠ some (.link target true) :=
    fun target hlink => he ⟨q, target, hlink, Ne.symm hne⟩
  exact hne (by rw [← hashedAt_eq hleft, h, hashedAt_eq hright])

theorem mem_patches_iff (h : d.sortedPatches = e.sortedPatches) {p : String × List UInt8}
    (hp : isPatch p.1 = true) : p ∈ d.patches ↔ p ∈ e.patches := by
  have hmem : p ∈ d.sortedPatches ↔ p ∈ e.sortedPatches := by rw [h]
  rwa [mem_sortedPatches, mem_sortedPatches, and_iff_left hp, and_iff_left hp] at hmem

theorem not_agree_of_confused (h : Confused d e) : ¬ Agree d e := by
  intro hagree
  cases h with
  | imitated _ h =>
      rcases h with h | h
      · exact h.ne (frames_eq_of_agree hagree h.text_eq)
      · exact h.ne (frames_eq_of_agree hagree h.text_eq.symm).symm
  | inputs _ _ h => exact h hagree.inputs
  | unhashed _ _ h =>
      rcases h with ⟨q, _, _, hne⟩ | ⟨q, _, _, hne⟩
      · exact hne (hagree.files q)
      · exact hne (hagree.files q).symm
  | patches _ hframes h =>
      exact h (by rw [hashed_eq_of_agree hagree (by rw [hframes])])

/-- The directories that are confused are those of one message that do not agree. -/
theorem confused_iff :
    Confused d e ↔ d.load.message = e.load.message ∧ ¬ Agree d e := by
  have htext := Frames.text_eq_iff (fun _ => zero_not_mem_header (d := d))
    (fun _ => zero_not_mem_header (d := e))
  rw [load_message_eq_iff]
  constructor
  · intro h
    refine ⟨?_, not_agree_of_confused h⟩
    cases h with
    | imitated hinputs h => exact ⟨hinputs, htext.mpr (.inr h)⟩
    | inputs hinputs h _ => exact ⟨hinputs, by rw [h]⟩
    | unhashed hinputs h _ => exact ⟨hinputs, by rw [h]⟩
    | patches hinputs h _ => exact ⟨hinputs, by rw [h]⟩
  · rintro ⟨⟨hinputs, h⟩, hagree⟩
    rcases htext.mp h with hframes | h
    · by_cases hlength : d.hashed.length = e.hashed.length
      · obtain ⟨hfiles, hpatches⟩ := List.append_inj hframes (by simpa using hlength)
        by_cases hd : Unhashed d e
        · exact .unhashed hinputs hframes (.inl hd)
        by_cases he : Unhashed e d
        · exact .unhashed hinputs hframes (.inr he)
        refine .inputs hinputs hframes fun hsame => hagree ⟨hsame, ?_, ?_⟩
        · exact sourceAt_eq (hashedAt_eq_of_files hfiles) hd he
        · exact fun p hp => mem_patches_iff (List.map_injective_iff.mpr patchFrame_inj hpatches) hp
      · exact .patches hinputs hframes hlength
    · exact .imitated hinputs h

theorem sourceAt_of_link {q : Path} {target : String} {toDir : Bool}
    (h : nodeAt d.files q = some (.link target toDir)) :
    d.sourceAt q = some (.link (encode target.toList)) := by
  rw [sourceAt, h]
  rfl

theorem link_of_sourceAt {q : Path} {target : String}
    (h : d.sourceAt q = some (.link (encode target.toList))) :
    ∃ toDir, nodeAt d.files q = some (.link target toDir) := by
  obtain ⟨l, hl, hsource⟩ := Option.map_eq_some_iff.mp h
  obtain ⟨node, hnode, hleaf⟩ := Option.bind_eq_some_iff.mp hl
  cases node with
  | dir es => cases hleaf
  | file key =>
      obtain rfl := Option.some.inj hleaf
      cases hsource
  | link target' toDir =>
      obtain rfl := Option.some.inj hleaf
      have htarget : target' = target :=
        String.toList_inj.mp (encode_inj (Source.link.inj hsource))
      exact ⟨toDir, by rw [hnode, htarget]⟩

theorem reclassified_symm (h : Reclassified d e) : Reclassified e d := by
  obtain ⟨q, target, toDir, hd, he⟩ := h
  exact ⟨q, target, !toDir, he, by rwa [Bool.not_not]⟩

/-- A link to a directory is one in the other, too. -/
theorem hashedAt_of_agree (hfiles : ∀ q, d.sourceAt q = e.sourceAt q)
    (hlinks : ¬ Reclassified d e) {q : Path} {target : String}
    (hd : nodeAt d.files q = some (.link target true)) : d.hashedAt q = e.hashedAt q := by
  obtain ⟨toDir, he⟩ := link_of_sourceAt ((hfiles q).symm.trans (sourceAt_of_link hd))
  cases toDir with
  | true => rw [hashedAt_of_link hd, hashedAt_of_link he]
  | false => exact absurd ⟨q, target, true, hd, he⟩ hlinks

/-- Directories that agree have one message, unless a link is classified anew. -/
theorem message_eq_of_agree (h : Agree d e) (hlinks : ¬ Reclassified d e) :
    d.load.message = e.load.message := by
  have hhashed : ∀ q, d.hashedAt q = e.hashedAt q := by
    intro q
    by_cases hd : ∃ target, nodeAt d.files q = some (.link target true)
    · obtain ⟨target, hd⟩ := hd
      exact hashedAt_of_agree h.files hlinks hd
    by_cases he : ∃ target, nodeAt e.files q = some (.link target true)
    · obtain ⟨target, he⟩ := he
      have hfiles : ∀ q, e.sourceAt q = d.sourceAt q := fun q => (h.files q).symm
      exact (hashedAt_of_agree hfiles (fun h => hlinks (reclassified_symm h)) he).symm
    · rw [hashedAt_eq (fun target hlink => hd ⟨target, hlink⟩), h.files,
        hashedAt_eq (fun target hlink => he ⟨target, hlink⟩)]
  rw [load_message_eq_iff, load_inputs, load_inputs, h.inputs, frames, frames,
    hashed_eq hhashed, sortedPatches_eq h.patches]
  exact ⟨rfl, rfl⟩

theorem not_reclassified (h : Agree d e) (hmessage : d.load.message = e.load.message) :
    ¬ Reclassified d e := by
  have hhashed := hashed_eq_of_agree h (load_message_eq_iff.mp hmessage).2
  rintro ⟨q, target, toDir, hd, he⟩
  have hq : d.hashedAt q = e.hashedAt q := by
    refine Option.ext fun s => ?_
    rw [← mem_hashed, ← mem_hashed, hhashed]
  rw [hashedAt, hashedAt, hd, he] at hq
  cases toDir <;> cases hq

/-- The hash is equal exactly for directories that agree, where the two are not confused
and, if they agree, every link is to a directory for both or for neither. -/
theorem sha256_eq_iff_agree {sha : List UInt8 → Digest}
    (hinj : Set.InjOn sha {m | m = d.load.message ∨ m = e.load.message}) :
    (d.load.sha256 sha = e.load.sha256 sha ↔ Agree d e) ↔
      ¬ Confused d e ∧ ¬ (Agree d e ∧ Reclassified d e) := by
  have hmessage : d.load.sha256 sha = e.load.sha256 sha ↔ d.load.message = e.load.message :=
    ⟨fun h => hinj (.inl rfl) (.inr rfl) h, fun h => congrArg sha h⟩
  rw [hmessage]
  constructor
  · intro h
    refine ⟨fun hconfused => ?_, fun ⟨hagree, hlinks⟩ => ?_⟩
    · obtain ⟨heq, hne⟩ := confused_iff.mp hconfused
      exact hne (h.mp heq)
    · exact not_reclassified hagree (h.mpr hagree) hlinks
  · rintro ⟨hconfused, hlinks⟩
    constructor
    · intro heq
      by_contra hne
      exact hconfused (confused_iff.mpr ⟨heq, hne⟩)
    · exact fun hagree => message_eq_of_agree hagree fun h => hlinks ⟨hagree, h⟩

end RecipeDir

theorem ordered_a {rest : List (String × DestNode)} (hlt : ∀ e ∈ rest, "a" < e.1)
    (h : Ordered rest) : Ordered (("a", .file 0) :: rest) :=
  .leaf (by decide) (by decide) (by decide) hlt (by simp) (by simp) h

/-- A recipe with one file, `a`. -/
def loneFile (content : List UInt8) : RecipeDir where
  document := [("name", .str "p")]
  files := [("a", .file 0)]
  data _ := content
  patches := []
  ordered := ordered_a (by simp) .nil
  patches_nodup := List.nodup_nil
  patches_named := by simp

/-- A recipe with two files, `a` with an `x` in it and `b` with a `y`. -/
def twoFiles : RecipeDir where
  document := [("name", .str "p")]
  files := [("a", .file 0), ("b", .file 1)]
  data key := if key = 0 then [0x78] else [0x79]
  patches := []
  ordered := ordered_a (by decide) (.leaf (by decide) (by decide) (by decide) (by simp) (by simp)
    (by simp) .nil)
  patches_nodup := List.nodup_nil
  patches_named := by simp

example : twoFiles.frames = [([0x61], [0x46, 0x78]), ([0x62], [0x46, 0x79])] := by rfl

theorem loneFile_frames (content : List UInt8) :
    (loneFile content).frames = [([0x61], 0x46 :: content)] := by rfl

/-- What is hashed for an `x` and for a `y`, with its SHA-256. -/
def loneTable : List (List UInt8 × ℕ) :=
  [((loneFile [0x78]).load.message,
      0x57e41d1ee7ad759bc16ac15701383f253615cd0d5cc7add3a0125db5f0a37af1),
    ((loneFile [0x79]).load.message,
      0x864a37ec386a7905e57a08ecb4411cc02250905ffe2106bf8ded37947bbea726)]

def loneSha (m : List UInt8) : Digest := hexdigest ((loneTable.lookup m).getD 0)

theorem loneSha_inj : Set.InjOn loneSha
    {m | m = (loneFile [0x78]).load.message ∨ m = (loneFile [0x79]).load.message} := by
  have hne : loneSha (loneFile [0x78]).load.message ≠ loneSha (loneFile [0x79]).load.message := by
    decide
  rintro m (rfl | rfl) m' (rfl | rfl) h
  · rfl
  · exact absurd h hne
  · exact absurd h.symm hne
  · rfl

theorem not_imitates_loneFile {d : RecipeDir} {c : UInt8} (hc : c ≠ 0) :
    ¬ Frames.Imitates 0 d.frames (loneFile [c]).frames := by
  refine Frames.not_imitates fun x hx => ?_
  rw [loneFile_frames] at hx
  rw [List.mem_singleton.mp hx]
  simp [hc.symm]

/-- Two recipes apart in one byte of one file have two hashes. -/
theorem sha256_eq_iff_agree_sample :
    (loneFile [0x78]).load.sha256 loneSha = (loneFile [0x79]).load.sha256 loneSha ↔
      Agree (loneFile [0x78]) (loneFile [0x79]) := by
  refine (RecipeDir.sha256_eq_iff_agree loneSha_inj).mpr ⟨fun h => ?_, fun h => ?_⟩
  · have hne : (loneFile [0x78]).frames ≠ (loneFile [0x79]).frames := by simp [loneFile_frames]
    cases h with
    | imitated _ h =>
        exact h.elim (not_imitates_loneFile (by decide)) (not_imitates_loneFile (by decide))
    | inputs _ h _ => exact hne h
    | unhashed _ h _ => exact hne h
    | patches _ h _ => exact hne h
  · cases h.1.files ["a"]

/-- One file may hold what is hashed of two. -/
theorem sha256_imitated :
    (∀ sha, (loneFile [0x78, 0, 0x62, 0, 0x46, 0x79]).load.sha256 sha = twoFiles.load.sha256 sha) ∧
      ¬ Agree (loneFile [0x78, 0, 0x62, 0, 0x46, 0x79]) twoFiles := by
  have hconfused : Confused (loneFile [0x78, 0, 0x62, 0, 0x46, 0x79]) twoFiles :=
    .imitated rfl (.inr ⟨[], [0x61], [0x46, 0x78], [0, 0x62, 0, 0x46, 0x79],
      [([0x62], [0x46, 0x79])], [], rfl, rfl, by simp, rfl⟩)
  obtain ⟨hmessage, hagree⟩ := RecipeDir.confused_iff.mp hconfused
  exact ⟨fun sha => congrArg sha hmessage, hagree⟩

end Veron.Driver
