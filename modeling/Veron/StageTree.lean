/-
The entries that staging goes through: every path once, a directory before
what is in it.
-/
import Veron.Stage

namespace Veron.Driver

open Files

/-- No name twice in a directory, and no name that stands for another place. -/
inductive Proper : List (String × DestNode) → Prop
  | nil : Proper []
  | leaf {name : String} {node : DestNode} {rest : List (String × DestNode)} :
      FileSystem.Plain name → name ∉ rest.map Prod.fst → (∀ es, node ≠ .dir es) →
      Proper rest → Proper ((name, node) :: rest)
  | dir {name : String} {entries rest : List (String × DestNode)} :
      FileSystem.Plain name → name ∉ rest.map Prod.fst → Proper entries → Proper rest →
      Proper ((name, .dir entries) :: rest)

abbrev Walked := List (Path × List (String × Leaf))

def dirPaths (W : Walked) : List Path := W.map Prod.fst

/-- The leaves of one directory by their paths. -/
def leavesAt (rel : Path) (ls : List (String × Leaf)) : List (Path × Leaf) :=
  ls.map fun e => (rel ++ [e.1], e.2)

def leafPaths (W : Walked) : List (Path × Leaf) := W.flatMap fun w => leavesAt w.1 w.2

theorem leafPaths_append (V W : Walked) : leafPaths (V ++ W) = leafPaths V ++ leafPaths W :=
  List.flatMap_append

theorem leafPaths_cons (w : Path × List (String × Leaf)) (W : Walked) :
    leafPaths (w :: W) = leavesAt w.1 w.2 ++ leafPaths W :=
  List.flatMap_cons

/-- The paths of `V` end outside what stands at `p` and below. -/
def Outside (V : Walked) (p : Path) : Prop :=
  (∀ d ∈ dirPaths V, ¬ p <+: d) ∧ ∀ e ∈ leafPaths V, ¬ p <+: e.1

/-- A directory comes after the one it is in, and no path a second time. -/
inductive Walk : Walked → Prop
  | nil : Walk []
  | snoc {V : Walked} {rel : Path} {ls : List (String × Leaf)} : Walk V →
      (rel = [] ∨ rel.dropLast ∈ dirPaths V) → (∀ name ∈ rel, FileSystem.Plain name) →
      rel ∉ dirPaths V → (∀ e ∈ leafPaths V, e.1 ≠ rel) → (ls.map Prod.fst).Nodup →
      (∀ e ∈ leavesAt rel ls, e.1 ∉ rel :: dirPaths V ∧ e.1 ∉ (leafPaths V).map Prod.fst) →
      Walk (V ++ [(rel, ls)])

theorem Proper.nodup {es : List (String × DestNode)} (h : Proper es) :
    (es.map Prod.fst).Nodup := by
  induction h with
  | nil => exact List.nodup_nil
  | leaf _ hnew _ _ ih => exact List.nodup_cons.mpr ⟨hnew, ih⟩
  | dir _ hnew _ _ _ ih => exact List.nodup_cons.mpr ⟨hnew, ih⟩

theorem filename_eq_some {e : String × DestNode} {l : String × Leaf} :
    filename e = some l ↔ e.1 = l.1 ∧
      ((∃ key, e.2 = .file key ∧ l.2 = .file key) ∨
        ∃ target, e.2 = .link target false ∧ l.2 = .link target) := by
  obtain ⟨name, node⟩ := e
  obtain ⟨name', leaf⟩ := l
  cases node with
  | file key => simp [filename, eq_comm]
  | link target toDir => cases toDir <;> simp [filename, eq_comm]
  | dir es => simp [filename]

theorem linked_eq_some {e : String × DestNode} {l : String × Leaf} :
    linked e = some l ↔ e.1 = l.1 ∧ ∃ target, e.2 = .link target true ∧ l.2 = .link target := by
  obtain ⟨name, node⟩ := e
  obtain ⟨name', leaf⟩ := l
  cases node with
  | file key => simp [linked]
  | link target toDir => cases toDir <;> simp [linked, eq_comm]
  | dir es => simp [linked]

/-- What is staged of a directory: its files and links. -/
theorem mem_leaves {es : List (String × DestNode)} {l : String × Leaf} :
    l ∈ leaves es ↔ (∃ key, (l.1, .file key) ∈ es ∧ l.2 = .file key) ∨
      ∃ target toDir, (l.1, .link target toDir) ∈ es ∧ l.2 = .link target := by
  simp only [leaves, List.mem_append, List.mem_filterMap, filename_eq_some, linked_eq_some]
  constructor
  · rintro (⟨⟨name, node⟩, he, rfl, ⟨key, rfl, hl⟩ | ⟨target, rfl, hl⟩⟩ |
      ⟨⟨name, node⟩, he, rfl, target, rfl, hl⟩)
    · exact .inl ⟨key, he, hl⟩
    · exact .inr ⟨target, false, he, hl⟩
    · exact .inr ⟨target, true, he, hl⟩
  · rintro (⟨key, he, hl⟩ | ⟨target, toDir, he, hl⟩)
    · exact .inl ⟨_, he, rfl, .inl ⟨key, rfl, hl⟩⟩
    · cases toDir with
      | false => exact .inl ⟨_, he, rfl, .inr ⟨target, rfl, hl⟩⟩
      | true => exact .inr ⟨_, he, rfl, target, rfl, hl⟩

theorem filterMap_names_sublist {f : String × DestNode → Option (String × Leaf)}
    (hf : ∀ e l, f e = some l → e.1 = l.1) (es : List (String × DestNode)) :
    ((es.filterMap f).map Prod.fst).Sublist (es.map Prod.fst) := by
  induction es with
  | nil => exact List.Sublist.refl _
  | cons e es ih =>
      cases he : f e with
      | none =>
          rw [List.filterMap_cons_none he]
          exact ih.cons _
      | some l =>
          rw [List.filterMap_cons_some he, List.map_cons, List.map_cons, hf e l he]
          exact ih.cons_cons _

theorem leaves_nodup {es : List (String × DestNode)} (hes : Proper es) :
    ((leaves es).map Prod.fst).Nodup := by
  have hfile := filterMap_names_sublist (fun e l h => (filename_eq_some.mp h).1) es
  have hlink := filterMap_names_sublist (fun e l h => (linked_eq_some.mp h).1) es
  rw [leaves, List.map_append]
  refine List.nodup_append.mpr ⟨hfile.nodup hes.nodup, hlink.nodup hes.nodup, ?_⟩
  rintro name hname name' hname' rfl
  obtain ⟨l, hl, rfl⟩ := List.mem_map.mp hname
  obtain ⟨m, hm, hlm⟩ := List.mem_map.mp hname'
  obtain ⟨e, he, hel⟩ := List.mem_filterMap.mp hl
  obtain ⟨f, hf, hfm⟩ := List.mem_filterMap.mp hm
  obtain ⟨hename, hekind⟩ := filename_eq_some.mp hel
  obtain ⟨hfname, target, hfkind, -⟩ := linked_eq_some.mp hfm
  have hlookup := lookup_of_mem hes.nodup he
  rw [show e.1 = f.1 by rw [hename, hfname, hlm], lookup_of_mem hes.nodup hf, hfkind] at hlookup
  rcases hekind with ⟨key, hkey, -⟩ | ⟨target', htarget, -⟩
  · rw [hkey] at hlookup
    cases hlookup
  · rw [htarget] at hlookup
    cases hlookup

theorem leaves_not_dir {es sub : List (String × DestNode)} (hes : Proper es) {l : String × Leaf}
    (hl : l ∈ leaves es) : (l.1, .dir sub) ∉ es := by
  intro hdir
  have hlookup := lookup_of_mem hes.nodup hdir
  rcases mem_leaves.mp hl with ⟨key, he, -⟩ | ⟨target, toDir, he, -⟩
  · rw [lookup_of_mem (e := (l.1, DestNode.file key)) hes.nodup he] at hlookup
    cases hlookup
  · rw [lookup_of_mem (e := (l.1, DestNode.link target toDir)) hes.nodup he] at hlookup
    cases hlookup

theorem leavesAt_prefix {rel : Path} {ls : List (String × Leaf)} {e : Path × Leaf}
    (he : e ∈ leavesAt rel ls) : ∃ l ∈ ls, e = (rel ++ [l.1], l.2) := by
  obtain ⟨l, hl, rfl⟩ := List.mem_map.mp he
  exact ⟨l, hl, rfl⟩

@[simp]
theorem walkSubdirs_nil (rel : Path) : walkSubdirs rel [] = [] := by
  rw [walkSubdirs]

@[simp]
theorem walkSubdirs_file (rel : Path) (name : String) (key : ℕ)
    (rest : List (String × DestNode)) :
    walkSubdirs rel ((name, .file key) :: rest) = walkSubdirs rel rest := by
  rw [walkSubdirs, walkEntry, walkNode, List.nil_append]
  simp

@[simp]
theorem walkSubdirs_link (rel : Path) (name target : String) (toDir : Bool)
    (rest : List (String × DestNode)) :
    walkSubdirs rel ((name, .link target toDir) :: rest) = walkSubdirs rel rest := by
  rw [walkSubdirs, walkEntry, walkNode, List.nil_append]
  simp

@[simp]
theorem walkSubdirs_dir (rel : Path) (name : String) (sub rest : List (String × DestNode)) :
    walkSubdirs rel ((name, .dir sub) :: rest) =
      (rel ++ [name], leaves sub) ::
        (walkSubdirs (rel ++ [name]) sub ++ walkSubdirs rel rest) := by
  rw [walkSubdirs, walkEntry, walkNode, List.cons_append]

/-- All that the walk yields below a directory is below it. -/
theorem walkSubdirs_prefix {es : List (String × DestNode)} (hes : Proper es) (rel : Path) :
    (∀ d ∈ dirPaths (walkSubdirs rel es), rel <+: d) ∧
      ∀ e ∈ leafPaths (walkSubdirs rel es), rel <+: e.1 := by
  induction hes generalizing rel with
  | nil => simp [dirPaths, leafPaths]
  | @leaf name node rest _ _ hnode _ ih =>
      cases node with
      | file key => simpa only [walkSubdirs_file, walkSubdirs_link] using ih rel
      | link target toDir => simpa only [walkSubdirs_file, walkSubdirs_link] using ih rel
      | dir es => exact absurd rfl (hnode es)
  | @dir name es rest _ _ _ _ ihes ihrest =>
      obtain ⟨hdirs, hleaves⟩ := ihes (rel ++ [name])
      obtain ⟨hdirs', hleaves'⟩ := ihrest rel
      have hhead : rel <+: rel ++ [name] := List.prefix_append _ _
      constructor
      · intro d hd
        simp only [walkSubdirs_dir, dirPaths, List.map_cons, List.map_append, List.mem_cons,
          List.mem_append] at hd
        rcases hd with rfl | hd | hd
        · exact hhead
        · exact hhead.trans (hdirs d hd)
        · exact hdirs' d hd
      · intro e he
        rw [walkSubdirs_dir, leafPaths_cons, leafPaths_append] at he
        rcases List.mem_append.mp he with he | he
        · obtain ⟨l, -, rfl⟩ := leavesAt_prefix he
          exact hhead.trans (List.prefix_append _ _)
        · rcases List.mem_append.mp he with he | he
          · exact hhead.trans (hleaves e he)
          · exact hleaves' e he

theorem not_prefix_append_singleton {p : Path} {a b : String} (hne : a ≠ b) {q : Path}
    (ha : p ++ [a] <+: q) : ¬ p ++ [b] <+: q := by
  rintro ⟨s, rfl⟩
  obtain ⟨t, ht⟩ := ha
  rw [List.append_assoc, List.append_assoc] at ht
  have := List.append_cancel_left ht
  simp only [List.cons_append, List.nil_append, List.cons.injEq] at this
  exact hne this.1

/-- Going into the directory `name` keeps what is outside of another entry. -/
theorem Outside.append {V W : Walked} {rel : Path} {name other : String} (hne : name ≠ other)
    (hV : Outside V (rel ++ [other])) (hdirs : ∀ d ∈ dirPaths W, rel ++ [name] <+: d)
    (hleaves : ∀ e ∈ leafPaths W, rel ++ [name] <+: e.1) :
    Outside (V ++ W) (rel ++ [other]) := by
  constructor
  · intro d hd
    rw [dirPaths, List.map_append] at hd
    rcases List.mem_append.mp hd with hd | hd
    · exact hV.1 d hd
    · exact not_prefix_append_singleton hne (hdirs d hd)
  · intro e he
    rw [leafPaths_append] at he
    rcases List.mem_append.mp he with he | he
    · exact hV.2 e he
    · exact not_prefix_append_singleton hne (hleaves e he)

/-- A directory below one that was visited, all of it still to be visited. -/
theorem Walk.enter {V : Walked} {rel : Path} {name : String} {es : List (String × DestNode)}
    (hV : Walk V) (hrel : rel ∈ dirPaths V) (hplain : ∀ a ∈ rel, FileSystem.Plain a)
    (hname : FileSystem.Plain name) (hes : Proper es) (hout : Outside V (rel ++ [name])) :
    Walk (V ++ [(rel ++ [name], leaves es)]) := by
  have hself : ∀ a, rel ++ [name] <+: rel ++ [name] ++ [a] := fun a => List.prefix_append _ _
  refine hV.snoc (.inr (by simpa using hrel)) ?_ ?_ ?_ (leaves_nodup hes) ?_
  · intro a ha
    rcases List.mem_append.mp ha with ha | ha
    · exact hplain a ha
    · rw [List.mem_singleton.mp ha]
      exact hname
  · exact fun hmem => hout.1 _ hmem (List.prefix_refl _)
  · rintro e he heq
    exact hout.2 e he (heq ▸ List.prefix_refl _)
  · intro e he
    obtain ⟨l, -, rfl⟩ := leavesAt_prefix he
    refine ⟨fun hmem => ?_, fun hmem => ?_⟩
    · rcases List.mem_cons.mp hmem with hmem | hmem
      · simp at hmem
      · exact hout.1 _ hmem (hself _)
    · obtain ⟨f, hf, hfe⟩ := List.mem_map.mp hmem
      exact hout.2 f hf (hfe ▸ hself _)

theorem Outside.enter {V : Walked} {rel : Path} {name a : String}
    {es sub : List (String × DestNode)} (hes : Proper es) (hout : Outside V (rel ++ [name]))
    (ha : (a, DestNode.dir sub) ∈ es) :
    Outside (V ++ [(rel ++ [name], leaves es)]) (rel ++ [name] ++ [a]) := by
  have hself : rel ++ [name] <+: rel ++ [name] ++ [a] := List.prefix_append _ _
  constructor
  · intro d hd hprefix
    rw [dirPaths, List.map_append] at hd
    rcases List.mem_append.mp hd with hd | hd
    · exact hout.1 d hd (hself.trans hprefix)
    · rw [List.map_singleton, List.mem_singleton] at hd
      rw [hd] at hprefix
      simpa using hprefix.length_le
  · intro e he hprefix
    rw [leafPaths_append] at he
    rcases List.mem_append.mp he with he | he
    · exact hout.2 e he (hself.trans hprefix)
    · rw [leafPaths_cons] at he
      simp only [leafPaths, List.flatMap_nil, List.append_nil] at he
      obtain ⟨l, hl, rfl⟩ := leavesAt_prefix he
      have heq : rel ++ [name] ++ [a] = rel ++ [name] ++ [l.1] :=
        hprefix.eq_of_length (by simp)
      obtain rfl : a = l.1 := by simpa using heq
      exact leaves_not_dir hes hl ha

theorem Walk.subdirs {V : Walked} {rel : Path} {es : List (String × DestNode)} (hV : Walk V)
    (hrel : rel ∈ dirPaths V) (hplain : ∀ a ∈ rel, FileSystem.Plain a) (hes : Proper es)
    (hout : ∀ name sub, (name, DestNode.dir sub) ∈ es → Outside V (rel ++ [name])) :
    Walk (V ++ walkSubdirs rel es) := by
  induction hes generalizing V rel with
  | nil => simpa using hV
  | @leaf name node rest _ _ hnode _ ih =>
      have hrest := ih hV hrel hplain fun a sub ha => hout a sub (List.mem_cons_of_mem _ ha)
      cases node with
      | file key => simpa only [walkSubdirs_file, walkSubdirs_link] using hrest
      | link target toDir => simpa only [walkSubdirs_file, walkSubdirs_link] using hrest
      | dir es => exact absurd rfl (hnode es)
  | @dir name es rest hname hnew hes _ ihes ihrest =>
      have hhere := hout name es List.mem_cons_self
      have hplain' : ∀ a ∈ rel ++ [name], FileSystem.Plain a := by
        intro a ha
        rcases List.mem_append.mp ha with ha | ha
        · exact hplain a ha
        · rw [List.mem_singleton.mp ha]
          exact hname
      have hentered := hV.enter hrel hplain hname hes hhere
      have hinside := ihes hentered (by simp [dirPaths]) hplain' fun a sub ha =>
        Outside.enter hes hhere ha
      have hassoc : V ++ walkSubdirs rel ((name, .dir es) :: rest) =
          V ++ [(rel ++ [name], leaves es)] ++ walkSubdirs (rel ++ [name]) es ++
            walkSubdirs rel rest := by
        simp
      rw [hassoc]
      refine ihrest hinside (by simp [dirPaths] at hrel ⊢; tauto) hplain fun a sub ha => ?_
      have hne : name ≠ a := by
        rintro rfl
        exact hnew (List.mem_map.mpr ⟨_, ha, rfl⟩)
      have hbelow := walkSubdirs_prefix hes (rel ++ [name])
      refine ((hout a sub (List.mem_cons_of_mem _ ha)).append hne ?_ ?_).append hne hbelow.1
        hbelow.2
      · simp [dirPaths]
      · intro e he
        rw [leafPaths_cons] at he
        simp only [leafPaths, List.flatMap_nil, List.append_nil] at he
        obtain ⟨l, -, rfl⟩ := leavesAt_prefix he
        exact List.prefix_append _ _

theorem walk_walkTree {es : List (String × DestNode)} (hes : Proper es) :
    Walk (walkTree es) := by
  have hroot : Walk [([], leaves es)] := by
    refine Walk.nil.snoc (.inl rfl) (by simp) (by simp [dirPaths]) (by simp [leafPaths])
      (leaves_nodup hes) ?_
    intro e he
    obtain ⟨l, -, rfl⟩ := leavesAt_prefix he
    simp [dirPaths, leafPaths]
  refine hroot.subdirs (by simp [dirPaths]) (by simp) hes fun name sub hsub => ⟨?_, ?_⟩
  · simp [dirPaths]
  · intro e he hprefix
    rw [leafPaths_cons] at he
    simp only [leafPaths, List.flatMap_nil, List.append_nil] at he
    obtain ⟨l, hl, rfl⟩ := leavesAt_prefix he
    have heq : [] ++ [name] = [] ++ [l.1] := hprefix.eq_of_length (by simp)
    obtain rfl : name = l.1 := by simpa using heq
    exact leaves_not_dir hes hl hsub

/-- What stands at a path below a directory with these entries. -/
def nodeAt (es : List (String × DestNode)) : Path → Option DestNode
  | [] => some (.dir es)
  | name :: rest =>
      match es.lookup name with
      | some (.dir sub) => nodeAt sub rest
      | some node => if rest = [] then some node else none
      | none => none

def DestNode.leaf : DestNode → Option Leaf
  | .file key => some (.file key)
  | .link target _ => some (.link target)
  | .dir _ => none

/-- The files and links in a directory and below. -/
def leafCount : List (String × DestNode) → ℕ
  | [] => 0
  | (_, .dir sub) :: rest => leafCount sub + leafCount rest
  | _ :: rest => 1 + leafCount rest

theorem nodeAt_cons_dir {es sub : List (String × DestNode)} (hes : Proper es) {name : String}
    (hsub : (name, DestNode.dir sub) ∈ es) (rest : Path) :
    nodeAt es (name :: rest) = nodeAt sub rest := by
  have hlookup : es.lookup name = some (.dir sub) := lookup_of_mem hes.nodup hsub
  rw [nodeAt, hlookup]

/-- A leaf of a directory is one of its entries or in a directory of it. -/
theorem leaf_nodeAt {es : List (String × DestNode)} (hes : Proper es) {q : Path} {l : Leaf} :
    (∃ node, nodeAt es q = some node ∧ node.leaf = some l) ↔
      (∃ name, q = [name] ∧ (name, l) ∈ leaves es) ∨
        ∃ name sub rest, (name, DestNode.dir sub) ∈ es ∧ q = name :: rest ∧
          ∃ node, nodeAt sub rest = some node ∧ node.leaf = some l := by
  constructor
  · rintro ⟨node, hnode, hl⟩
    cases q with
    | nil =>
        rw [nodeAt, Option.some.injEq] at hnode
        subst hnode
        cases hl
    | cons name rest =>
        cases hlookup : es.lookup name with
        | none => simp [nodeAt, hlookup] at hnode
        | some node' =>
            have hmem := mem_of_lookup hlookup
            cases node' with
            | dir sub =>
                refine .inr ⟨name, sub, rest, hmem, rfl, node, ?_, hl⟩
                rwa [nodeAt_cons_dir hes hmem] at hnode
            | file key =>
                simp only [nodeAt, hlookup, Option.ite_none_right_eq_some,
                  Option.some.injEq] at hnode
                obtain ⟨rfl, rfl⟩ := hnode
                obtain rfl := Option.some.inj hl
                exact .inl ⟨name, rfl, mem_leaves.mpr (.inl ⟨key, hmem, rfl⟩)⟩
            | link target toDir =>
                simp only [nodeAt, hlookup, Option.ite_none_right_eq_some,
                  Option.some.injEq] at hnode
                obtain ⟨rfl, rfl⟩ := hnode
                obtain rfl := Option.some.inj hl
                exact .inl ⟨name, rfl, mem_leaves.mpr (.inr ⟨target, toDir, hmem, rfl⟩)⟩
  · rintro (⟨name, rfl, hmem⟩ | ⟨name, sub, rest, hmem, rfl, node, hnode, hl⟩)
    · rcases mem_leaves.mp hmem with ⟨key, he, hl⟩ | ⟨target, toDir, he, hl⟩
      · have hlookup : es.lookup name = some (.file key) := lookup_of_mem hes.nodup he
        simp only at hl
        exact ⟨.file key, by simp [nodeAt, hlookup], by rw [hl]; rfl⟩
      · have hlookup : es.lookup name = some (.link target toDir) := lookup_of_mem hes.nodup he
        simp only at hl
        exact ⟨.link target toDir, by simp [nodeAt, hlookup], by rw [hl]; rfl⟩
    · exact ⟨node, by rw [nodeAt_cons_dir hes hmem, hnode], hl⟩

theorem dir_nodeAt {es : List (String × DestNode)} (hes : Proper es) {q : Path} :
    (∃ sub, nodeAt es q = some (.dir sub)) ↔ q = [] ∨
      ∃ name sub rest, (name, DestNode.dir sub) ∈ es ∧ q = name :: rest ∧
        ∃ sub', nodeAt sub rest = some (.dir sub') := by
  constructor
  · rintro ⟨sub', hnode⟩
    cases q with
    | nil => exact .inl rfl
    | cons name rest =>
        right
        cases hlookup : es.lookup name with
        | none => simp [nodeAt, hlookup] at hnode
        | some node' =>
            have hmem := mem_of_lookup hlookup
            cases node' with
            | dir sub =>
                rw [nodeAt_cons_dir hes hmem] at hnode
                exact ⟨name, sub, rest, hmem, rfl, sub', hnode⟩
            | file key => simp [nodeAt, hlookup] at hnode
            | link target toDir => simp [nodeAt, hlookup] at hnode
  · rintro (rfl | ⟨name, sub, rest, hmem, rfl, sub', hnode⟩)
    · exact ⟨es, rfl⟩
    · exact ⟨sub', by rw [nodeAt_cons_dir hes hmem, hnode]⟩

/-- Below a directory, the walk yields the leaves of the directories in it. -/
theorem mem_leafPaths_walkSubdirs {es : List (String × DestNode)} (hes : Proper es)
    (rel : Path) {q : Path} {l : Leaf} :
    (q, l) ∈ leafPaths (walkSubdirs rel es) ↔
      ∃ name sub rest, (name, DestNode.dir sub) ∈ es ∧ q = rel ++ name :: rest ∧
        ∃ node, nodeAt sub rest = some node ∧ node.leaf = some l := by
  induction hes generalizing rel with
  | nil => simp [leafPaths]
  | @leaf name node rest _ _ hnode _ ih =>
      have hskip : ∀ a sub, (a, DestNode.dir sub) ∈ (name, node) :: rest ↔
          (a, DestNode.dir sub) ∈ rest := by
        intro a sub
        rw [List.mem_cons, or_iff_right]
        exact fun heq => hnode sub (congrArg Prod.snd heq).symm
      simp only [hskip]
      cases node with
      | file key => simpa only [walkSubdirs_file, walkSubdirs_link] using ih rel
      | link target toDir => simpa only [walkSubdirs_file, walkSubdirs_link] using ih rel
      | dir sub => exact absurd rfl (hnode sub)
  | @dir name sub rest _ _ hsub _ ihsub ihrest =>
      rw [walkSubdirs_dir, leafPaths_cons, leafPaths_append, List.mem_append, List.mem_append,
        ihrest rel, ihsub (rel ++ [name])]
      have hhere : ((q, l) ∈ leavesAt (rel ++ [name]) (leaves sub) ∨
          ∃ a sub' tail, (a, DestNode.dir sub') ∈ sub ∧ q = rel ++ [name] ++ a :: tail ∧
            ∃ node, nodeAt sub' tail = some node ∧ node.leaf = some l) ↔
          ∃ tail, q = rel ++ name :: tail ∧
            ∃ node, nodeAt sub tail = some node ∧ node.leaf = some l := by
        simp only [leaf_nodeAt hsub, leavesAt, List.mem_map, Prod.mk.injEq]
        constructor
        · rintro (⟨e, he, rfl, rfl⟩ | ⟨a, sub', tail, hmem, rfl, hnode⟩)
          · exact ⟨[e.1], by simp, .inl ⟨e.1, rfl, he⟩⟩
          · exact ⟨a :: tail, by simp, .inr ⟨a, sub', tail, hmem, rfl, hnode⟩⟩
        · rintro ⟨tail, rfl, ⟨a, rfl, he⟩ | ⟨a, sub', tail', hmem, rfl, hnode⟩⟩
          · exact .inl ⟨(a, l), he, by simp, rfl⟩
          · exact .inr ⟨a, sub', tail', hmem, by simp, hnode⟩
      rw [← or_assoc, hhere]
      constructor
      · rintro (⟨tail, hq, hnode⟩ | ⟨a, sub', tail, hmem, hq, hnode⟩)
        · exact ⟨name, sub, tail, List.mem_cons_self, hq, hnode⟩
        · exact ⟨a, sub', tail, List.mem_cons_of_mem _ hmem, hq, hnode⟩
      · rintro ⟨a, sub', tail, hmem, hq, hnode⟩
        rcases List.mem_cons.mp hmem with heq | hmem
        · simp only [Prod.mk.injEq, DestNode.dir.injEq] at heq
          obtain ⟨rfl, rfl⟩ := heq
          exact .inl ⟨tail, hq, hnode⟩
        · exact .inr ⟨a, sub', tail, hmem, hq, hnode⟩

/-- The walk yields the files and links of the tree. -/
theorem mem_leafPaths_walkTree {es : List (String × DestNode)} (hes : Proper es) {q : Path}
    {l : Leaf} :
    (q, l) ∈ leafPaths (walkTree es) ↔ ∃ node, nodeAt es q = some node ∧ node.leaf = some l := by
  rw [leaf_nodeAt hes, walkTree, leafPaths_cons, List.mem_append,
    mem_leafPaths_walkSubdirs hes []]
  refine or_congr ?_ (by simp)
  simp only [leavesAt, List.mem_map, List.nil_append, Prod.mk.injEq]
  constructor
  · rintro ⟨e, he, rfl, rfl⟩
    exact ⟨e.1, rfl, he⟩
  · rintro ⟨name, rfl, he⟩
    exact ⟨(name, l), he, rfl, rfl⟩

theorem mem_dirPaths_walkSubdirs {es : List (String × DestNode)} (hes : Proper es) (rel : Path)
    {q : Path} :
    q ∈ dirPaths (walkSubdirs rel es) ↔
      ∃ name sub rest, (name, DestNode.dir sub) ∈ es ∧ q = rel ++ name :: rest ∧
        ∃ sub', nodeAt sub rest = some (.dir sub') := by
  induction hes generalizing rel with
  | nil => simp [dirPaths]
  | @leaf name node rest _ _ hnode _ ih =>
      have hskip : ∀ a sub, (a, DestNode.dir sub) ∈ (name, node) :: rest ↔
          (a, DestNode.dir sub) ∈ rest := by
        intro a sub
        rw [List.mem_cons, or_iff_right]
        exact fun heq => hnode sub (congrArg Prod.snd heq).symm
      simp only [hskip]
      cases node with
      | file key => simpa only [walkSubdirs_file, walkSubdirs_link] using ih rel
      | link target toDir => simpa only [walkSubdirs_file, walkSubdirs_link] using ih rel
      | dir sub => exact absurd rfl (hnode sub)
  | @dir name sub rest _ _ hsub _ ihsub ihrest =>
      have hsplit : q ∈ dirPaths (walkSubdirs rel ((name, .dir sub) :: rest)) ↔
          q = rel ++ [name] ∨ q ∈ dirPaths (walkSubdirs (rel ++ [name]) sub) ∨
            q ∈ dirPaths (walkSubdirs rel rest) := by
        simp [dirPaths]
      rw [hsplit, ihrest rel, ihsub (rel ++ [name])]
      constructor
      · rintro (rfl | ⟨a, sub', tail, hmem, rfl, hnode⟩ | ⟨a, sub', tail, hmem, hq, hnode⟩)
        · exact ⟨name, sub, [], List.mem_cons_self, rfl, sub, rfl⟩
        · exact ⟨name, sub, a :: tail, List.mem_cons_self, by simp,
            (dir_nodeAt hsub).mpr (.inr ⟨a, sub', tail, hmem, rfl, hnode⟩)⟩
        · exact ⟨a, sub', tail, List.mem_cons_of_mem _ hmem, hq, hnode⟩
      · rintro ⟨a, sub', tail, hmem, hq, hnode⟩
        rcases List.mem_cons.mp hmem with heq | hmem
        · simp only [Prod.mk.injEq, DestNode.dir.injEq] at heq
          obtain ⟨rfl, rfl⟩ := heq
          rcases (dir_nodeAt hsub).mp hnode with rfl | ⟨c, sub'', tail', hmem', rfl, hnode'⟩
          · exact .inl hq
          · exact .inr (.inl ⟨c, sub'', tail', hmem', by simp [hq], hnode'⟩)
        · exact .inr (.inr ⟨a, sub', tail, hmem, hq, hnode⟩)

theorem mem_dirPaths_walkTree {es : List (String × DestNode)} (hes : Proper es) {q : Path} :
    q ∈ dirPaths (walkTree es) ↔ ∃ sub, nodeAt es q = some (.dir sub) := by
  rw [dir_nodeAt hes, walkTree, dirPaths, List.map_cons, List.mem_cons]
  refine or_congr Iff.rfl ?_
  have hsub := mem_dirPaths_walkSubdirs hes [] (q := q)
  rw [dirPaths] at hsub
  simpa using hsub

theorem length_leaves {es : List (String × DestNode)} (hes : Proper es) (rel : Path) :
    (leaves es).length + (leafPaths (walkSubdirs rel es)).length = leafCount es := by
  induction hes generalizing rel with
  | nil => simp [leaves, leafPaths, leafCount]
  | @leaf name node rest _ _ hnode _ ih =>
      have hrest := ih rel
      cases node with
      | file key =>
          simp only [leaves, List.filterMap_cons, filename, linked, List.length_append,
            List.length_cons, walkSubdirs_file, leafCount] at hrest ⊢
          omega
      | link target toDir =>
          cases toDir <;>
          · simp only [leaves, List.filterMap_cons, filename, linked, List.length_append,
              List.length_cons, walkSubdirs_link, leafCount] at hrest ⊢
            omega
      | dir sub => exact absurd rfl (hnode sub)
  | @dir name sub rest _ _ _ _ ihsub ihrest =>
      have hsub := ihsub (rel ++ [name])
      have hrest := ihrest rel
      have hhere : (leavesAt (rel ++ [name]) (leaves sub)).length = (leaves sub).length := by
        simp [leavesAt]
      have hleaves : leaves ((name, .dir sub) :: rest) = leaves rest := by
        simp [leaves, List.filterMap_cons, filename, linked]
      rw [hleaves, walkSubdirs_dir, leafPaths_cons, leafPaths_append, List.length_append,
        List.length_append, hhere, leafCount]
      omega

theorem length_leafPaths_walkTree {es : List (String × DestNode)} (hes : Proper es) :
    (leafPaths (walkTree es)).length = leafCount es := by
  rw [walkTree, leafPaths_cons, List.length_append, ← length_leaves hes []]
  simp [leavesAt]

end Veron.Driver
