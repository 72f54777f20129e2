/-
Manifests of an image: what must change on a machine that holds one to become
another, and the check of a tree against one.
-/
import Mathlib.Data.List.Sort
import Mathlib.Data.String.Basic
import Veron.Dict

namespace Veron.Driver

/-- A manifest's record of a path; `mode` is empty where none was recorded. -/
structure Entry where
  pkg : String
  kind : String
  val : String
  size : ℕ
  mode : String
deriving DecidableEq, Repr

abbrev Manifest := Dict Entry

/-- What the first loop of `manifest_delta` makes of a path of the new manifest. -/
inductive Fate where
  | added
  | changed
  | chmodded
  | kept
deriving DecidableEq, Repr

def fate (old : Manifest) (rel : String) (n : Entry) : Fate :=
  match old.get rel with
  | none => .added
  | some o =>
      if o.val ≠ n.val ∨ o.kind ≠ n.kind then .changed
      else if o.mode ≠ "" ∧ n.mode ≠ "" ∧ o.mode ≠ n.mode then .chmodded
      else .kept

/-- The paths of one fate, in the new manifest's order. -/
def withFate (old new : Manifest) (f : Fate) : List String :=
  (new.items.filter fun e => fate old e.1 e.2 = f).map Prod.fst

def removed (old new : Manifest) : List String := old.keys.filter fun rel => !new.has rel

/-- `fetch[val] = size`. -/
def setItem (fetch : List (String × ℕ)) (val : String) (size : ℕ) : List (String × ℕ) :=
  match fetch with
  | [] => [(val, size)]
  | (k, s) :: fetch => if k = val then (k, size) :: fetch else (k, s) :: setItem fetch val size

/-- One turn of the loop over `added + changed`. -/
def fetchBlob (new : Manifest) (fetch : List (String × ℕ)) (rel : String) : List (String × ℕ) :=
  match new.get rel with
  | some n => if n.kind = "file" then setItem fetch n.val n.size else fetch
  | none => fetch

structure Delta where
  added : List String
  changed : List String
  chmod : List String
  removed : List String
  blobs : List (String × ℕ)
deriving DecidableEq, Repr

def sorted (paths : List String) : List String := paths.insertionSort (· ≤ ·)

def manifestDelta (old new : Manifest) : Delta where
  added := sorted (withFate old new .added)
  changed := sorted (withFate old new .changed)
  chmod := sorted (withFate old new .chmodded)
  removed := sorted (Driver.removed old new)
  blobs := (withFate old new .added ++ withFate old new .changed).foldl (fetchBlob new) []

/-- What the system answers about the paths below a root.  An `OSError` is its
class's name. -/
structure Tree where
  lexists : String → Bool
  islink : String → Bool
  readlink : String → String
  lstatMode : String → Except String ℕ
  sha256File : String → Except String String

/-- `f"{mode & 0o7777:04o}"`. -/
def octalMode (mode : ℕ) : String :=
  String.ofList ([512, 64, 8, 1].map fun w => Nat.digitChar (mode / w % 8))

def short (digest : String) : String := (digest.take 16).toString

/-- The problem that `verify_tree` finds at a path of the manifest. -/
def problem (t : Tree) (rel : String) (e : Entry) : Option String :=
  if !t.lexists rel then some "missing"
  else if e.kind = "symlink" then
    if !t.islink rel then some "kind: expected a symlink"
    else if t.readlink rel ≠ e.val then some s!"target: {t.readlink rel} != {e.val}"
    else none
  else if e.kind ≠ "file" then none
  else if t.islink rel then some "kind: expected a file, found a symlink"
  else
    match t.lstatMode rel, t.sha256File rel with
    | .error x, _ => some s!"unreadable: {x}"
    | .ok _, .error x => some s!"unreadable: {x}"
    | .ok mode, .ok got =>
        if got ≠ e.val then some s!"content: {short got}... != {short e.val}..."
        else if e.mode ≠ "" ∧ octalMode mode ≠ e.mode then
          some s!"mode: {octalMode mode} != {e.mode}"
        else none

def verifyTree (manifest : Manifest) (t : Tree) (only : Option (List String)) :
    List (String × String) :=
  (sorted (only.getD manifest.keys)).filterMap fun rel =>
    (manifest.get rel).bind fun e => (problem t rel e).map fun p => (rel, p)

/-- Every question about `rel` has one answer in the two trees. -/
def Tree.AgreeAt (t u : Tree) (rel : String) : Prop :=
  t.lexists rel = u.lexists rel ∧ t.islink rel = u.islink rel ∧
    t.readlink rel = u.readlink rel ∧ t.lstatMode rel = u.lstatMode rel ∧
    t.sha256File rel = u.sha256File rel

/-- Every entry of a file has its mode. -/
def RecordsModes (m : Manifest) : Prop :=
  ∀ rel e, m.get rel = some e → e.kind = "file" → e.mode ≠ ""

@[simp]
theorem mem_sorted {rel : String} {paths : List String} : rel ∈ sorted paths ↔ rel ∈ paths :=
  List.mem_insertionSort _

theorem mem_withFate {old new : Manifest} {f : Fate} {rel : String} :
    rel ∈ withFate old new f ↔ ∃ n, new.get rel = some n ∧ fate old rel n = f := by
  simp only [withFate, List.mem_map, List.mem_filter, decide_eq_true_eq]
  constructor
  · rintro ⟨e, ⟨he, hf⟩, rfl⟩
    exact ⟨e.2, Dict.get_eq_some.mpr he, hf⟩
  · rintro ⟨n, hn, hf⟩
    exact ⟨(rel, n), ⟨Dict.get_eq_some.mp hn, hf⟩, rfl⟩

theorem mem_removed {old new : Manifest} {rel : String} :
    rel ∈ removed old new ↔ rel ∈ old.keys ∧ rel ∉ new.keys := by
  rw [removed, List.mem_filter, ← Dict.has_iff (d := new)]
  simp

theorem withFate_disjoint {old new : Manifest} {f g : Fate} (hne : f ≠ g) :
    List.Disjoint (withFate old new f) (withFate old new g) := by
  intro rel hf hg
  obtain ⟨n, hn, rfl⟩ := mem_withFate.mp hf
  obtain ⟨m, hm, rfl⟩ := mem_withFate.mp hg
  rw [hn] at hm
  exact hne (by rw [Option.some.inj hm])

theorem withFate_subset {old new : Manifest} {f : Fate} {rel : String}
    (h : rel ∈ withFate old new f) : rel ∈ new.keys := by
  obtain ⟨n, hn, -⟩ := mem_withFate.mp h
  rw [← Dict.has_iff, Dict.has, hn]
  rfl

/-- What a path has that needs nothing: in both manifests, of one kind and one
value, with no two modes recorded that differ. -/
theorem fate_eq_kept {old : Manifest} {rel : String} {n : Entry} :
    fate old rel n = .kept ↔ ∃ o, old.get rel = some o ∧ o.val = n.val ∧ o.kind = n.kind ∧
      (o.mode = "" ∨ n.mode = "" ∨ o.mode = n.mode) := by
  cases ho : old.get rel with
  | none => simp [fate, ho]
  | some o =>
      simp only [fate, ho, Option.some.injEq, exists_eq_left']
      split_ifs with hchanged hmode
      · simp only [false_iff]
        tauto
      · simp only [false_iff]
        tauto
      · simp only [true_iff]
        tauto

theorem mem_setItem {fetch : List (String × ℕ)} {val d : String} {size : ℕ} :
    d ∈ (setItem fetch val size).map Prod.fst ↔ d = val ∨ d ∈ fetch.map Prod.fst := by
  induction fetch with
  | nil => simp [setItem]
  | cons e fetch ih =>
      obtain ⟨k, s⟩ := e
      rw [setItem]
      split_ifs with hk
      · subst hk
        simp
      · simp only [List.map_cons, List.mem_cons, ih]
        tauto

/-- The digests to fetch are those of the file entries gone through. -/
theorem mem_fetch (new : Manifest) (paths : List String) (fetch : List (String × ℕ))
    {d : String} :
    d ∈ (paths.foldl (fetchBlob new) fetch).map Prod.fst ↔ d ∈ fetch.map Prod.fst ∨
      ∃ rel ∈ paths, ∃ n, new.get rel = some n ∧ n.kind = "file" ∧ n.val = d := by
  induction paths generalizing fetch with
  | nil => simp
  | cons rel paths ih =>
      rw [List.foldl_cons, ih]
      cases hn : new.get rel with
      | none => simp [fetchBlob, hn]
      | some n =>
          by_cases hkind : n.kind = "file"
          · simp only [fetchBlob, hn, hkind, if_true, mem_setItem, List.mem_cons,
              exists_eq_or_imp, Option.some.injEq, exists_eq_left', true_and]
            tauto
          · simp [fetchBlob, hn, hkind]

theorem verifyTree_eq_nil {m : Manifest} {t : Tree} {only : Option (List String)} :
    verifyTree m t only = [] ↔
      ∀ rel ∈ only.getD m.keys, ∀ e, m.get rel = some e → problem t rel e = none := by
  rw [verifyTree, List.filterMap_eq_nil_iff]
  simp only [mem_sorted, Option.bind_eq_none_iff, Option.map_eq_none_iff]

/-- A path is checked by what the tree answers about it. -/
theorem problem_agree {t u : Tree} {rel : String} (h : t.AgreeAt u rel) (e : Entry) :
    problem t rel e = problem u rel e := by
  obtain ⟨hexists, hlink, htarget, hmode, hsha⟩ := h
  rw [problem, problem, hexists, hlink, htarget, hmode, hsha]

/-- The check reads the kind, the value and a file's mode. -/
theorem problem_entry {t : Tree} {rel : String} {o n : Entry} (hval : o.val = n.val)
    (hkind : o.kind = n.kind) (hmode : n.kind = "file" → o.mode = n.mode) :
    problem t rel o = problem t rel n := by
  rw [problem, problem, hval, hkind]
  by_cases hfile : n.kind = "file"
  · rw [hmode hfile]
  · simp only [ne_eq, hfile, not_false_eq_true, if_true]

theorem problem_kept {old new : Manifest} (hold : RecordsModes old) (hnew : RecordsModes new)
    {rel : String} {n : Entry} (hn : new.get rel = some n) (hkept : fate old rel n = .kept)
    (t : Tree) : ∃ o, old.get rel = some o ∧ problem t rel o = problem t rel n := by
  obtain ⟨o, ho, hval, hkind, hmode⟩ := fate_eq_kept.mp hkept
  refine ⟨o, ho, problem_entry hval hkind fun hfile => ?_⟩
  have hom := hold rel o ho (hkind.trans hfile)
  have hnm := hnew rel n hn hfile
  tauto

theorem removed_disjoint {old new : Manifest} {f : Fate} :
    List.Disjoint (withFate old new f) (removed old new) := by
  intro rel hf hr
  exact (mem_removed.mp hr).2 (withFate_subset hf)

/-- Every path of the two manifests has one fate or is removed. -/
theorem mem_keys_iff {old new : Manifest} (rel : String) :
    (rel ∈ withFate old new .added ∨ rel ∈ withFate old new .changed ∨
      rel ∈ withFate old new .chmodded ∨ rel ∈ removed old new ∨
      ∃ o n, old.get rel = some o ∧ new.get rel = some n ∧ o.kind = n.kind ∧ o.val = n.val ∧
        (o.mode = "" ∨ n.mode = "" ∨ o.mode = n.mode)) ↔
    rel ∈ old.keys ∨ rel ∈ new.keys := by
  constructor
  · rintro (h | h | h | h | ⟨o, n, -, hn, -⟩)
    · exact .inr (withFate_subset h)
    · exact .inr (withFate_subset h)
    · exact .inr (withFate_subset h)
    · exact .inl (mem_removed.mp h).1
    · right
      rw [← Dict.has_iff, Dict.has, hn]
      rfl
  · intro h
    by_cases hnew : rel ∈ new.keys
    · obtain ⟨n, hn⟩ := Option.isSome_iff_exists.mp (Dict.has_iff.mpr hnew)
      cases hfate : fate old rel n with
      | added => exact .inl (mem_withFate.mpr ⟨n, hn, hfate⟩)
      | changed => exact .inr (.inl (mem_withFate.mpr ⟨n, hn, hfate⟩))
      | chmodded => exact .inr (.inr (.inl (mem_withFate.mpr ⟨n, hn, hfate⟩)))
      | kept =>
          obtain ⟨o, ho, hval, hkind, hmode⟩ := fate_eq_kept.mp hfate
          exact .inr (.inr (.inr (.inr ⟨o, n, ho, hn, hkind, hval, hmode⟩)))
    · exact .inr (.inr (.inr (.inl (mem_removed.mpr ⟨h.resolve_right hnew, hnew⟩))))

theorem verifyTree_of_delta {old new : Manifest} (hold : RecordsModes old)
    (hnew : RecordsModes new) {t u : Tree} (ht : verifyTree old t none = [])
    (hagree : ∀ rel, rel ∉ withFate old new .added → rel ∉ withFate old new .changed →
      rel ∉ withFate old new .chmodded → rel ∉ removed old new → t.AgreeAt u rel)
    (hu : ∀ rel, rel ∈ withFate old new .added ∨ rel ∈ withFate old new .changed ∨
      rel ∈ withFate old new .chmodded → ∀ n, new.get rel = some n → problem u rel n = none) :
    verifyTree new u none = [] := by
  rw [verifyTree_eq_nil] at ht ⊢
  intro rel hrel n hn
  by_cases hkept : fate old rel n = .kept
  · obtain ⟨o, ho, hsame⟩ := problem_kept hold hnew hn hkept t
    have hnot : ∀ f, f ≠ .kept → rel ∉ withFate old new f := by
      intro f hf hmem
      obtain ⟨m, hm, hfate⟩ := mem_withFate.mp hmem
      rw [hn] at hm
      exact hf (by rw [← hfate, ← Option.some.inj hm, hkept])
    have hsite := hagree rel (hnot _ (by decide)) (hnot _ (by decide)) (hnot _ (by decide))
      fun hr => (mem_removed.mp hr).2 hrel
    have hok := ht rel (Dict.has_iff.mp (by rw [Dict.has, ho]; rfl)) o ho
    rw [← problem_agree hsite, ← hsame, hok]
  · refine hu rel ?_ n hn
    cases hfate : fate old rel n with
    | added => exact .inl (mem_withFate.mpr ⟨n, hn, hfate⟩)
    | changed => exact .inr (.inl (mem_withFate.mpr ⟨n, hn, hfate⟩))
    | chmodded => exact .inr (.inr (mem_withFate.mpr ⟨n, hn, hfate⟩))
    | kept => exact absurd hfate hkept

/-- Checking what a delta touches is enough, where nothing else has changed; the
lists of a delta are disjoint and complete, and its blobs are the digests of the
files added and changed. -/
theorem manifestDelta_spec (old new : Manifest) :
    (RecordsModes old → RecordsModes new → ∀ t u : Tree, verifyTree old t none = [] →
      (∀ rel, rel ∉ (manifestDelta old new).added → rel ∉ (manifestDelta old new).changed →
        rel ∉ (manifestDelta old new).chmod → rel ∉ (manifestDelta old new).removed →
        t.AgreeAt u rel) →
      verifyTree new u (some ((manifestDelta old new).added ++ (manifestDelta old new).changed ++
        (manifestDelta old new).chmod)) = [] →
      verifyTree new u none = []) ∧
    [(manifestDelta old new).added, (manifestDelta old new).changed,
      (manifestDelta old new).chmod, (manifestDelta old new).removed].Pairwise List.Disjoint ∧
    (∀ rel, (rel ∈ (manifestDelta old new).added ∨ rel ∈ (manifestDelta old new).changed ∨
        rel ∈ (manifestDelta old new).chmod ∨ rel ∈ (manifestDelta old new).removed ∨
        ∃ o n, old.get rel = some o ∧ new.get rel = some n ∧ o.kind = n.kind ∧ o.val = n.val ∧
          (o.mode = "" ∨ n.mode = "" ∨ o.mode = n.mode)) ↔
      rel ∈ old.keys ∨ rel ∈ new.keys) ∧
    ∀ d, d ∈ (manifestDelta old new).blobs.map Prod.fst ↔
      ∃ rel, (rel ∈ (manifestDelta old new).added ∨ rel ∈ (manifestDelta old new).changed) ∧
        ∃ n, new.get rel = some n ∧ n.kind = "file" ∧ n.val = d := by
  have hadded : ∀ {rel}, rel ∈ (manifestDelta old new).added ↔ rel ∈ withFate old new .added :=
    mem_sorted
  have hchanged : ∀ {rel}, rel ∈ (manifestDelta old new).changed ↔
      rel ∈ withFate old new .changed := mem_sorted
  have hchmod : ∀ {rel}, rel ∈ (manifestDelta old new).chmod ↔
      rel ∈ withFate old new .chmodded := mem_sorted
  have hremoved : ∀ {rel}, rel ∈ (manifestDelta old new).removed ↔ rel ∈ removed old new :=
    mem_sorted
  refine ⟨?_, ?_, fun rel => ?_, fun d => ?_⟩
  · intro hold hnew t u ht hagree hu
    refine verifyTree_of_delta hold hnew ht ?_ ?_
    · intro rel h₁ h₂ h₃ h₄
      exact hagree rel (mt hadded.mp h₁) (mt hchanged.mp h₂) (mt hchmod.mp h₃) (mt hremoved.mp h₄)
    · intro rel hrel n hn
      refine verifyTree_eq_nil.mp hu rel ?_ n hn
      simp only [Option.getD_some, List.mem_append, hadded, hchanged, hchmod]
      tauto
  · simp only [List.pairwise_cons, List.mem_cons, List.not_mem_nil, or_false,
      forall_eq_or_imp, forall_eq, List.Pairwise.nil, and_true, List.Disjoint, hadded, hchanged,
      hchmod, hremoved, false_implies, implies_true]
    exact ⟨⟨withFate_disjoint (by decide), withFate_disjoint (by decide), removed_disjoint⟩,
      ⟨withFate_disjoint (by decide), removed_disjoint⟩, removed_disjoint⟩
  · rw [hadded, hchanged, hchmod, hremoved]
    exact mem_keys_iff rel
  · have hblobs := mem_fetch new (withFate old new .added ++ withFate old new .changed) [] (d := d)
    simp only [List.map_nil, List.not_mem_nil, false_or, List.mem_append] at hblobs
    simp only [hadded, hchanged]
    exact hblobs

def updateOld : Manifest where
  items := [("bin/a", ⟨"a", "file", "d1", 10, "0755"⟩), ("etc/b", ⟨"b", "symlink", "x", 0, ""⟩),
    ("lib/c", ⟨"c", "file", "d2", 20, "0644"⟩), ("lib/o", ⟨"o", "file", "d2", 20, "0644"⟩)]
  nodup := by decide

def updateNew : Manifest where
  items := [("bin/a", ⟨"a", "file", "d1", 10, "0700"⟩), ("etc/b", ⟨"b", "symlink", "y", 0, ""⟩),
    ("lib/c", ⟨"c", "file", "d2", 20, "0644"⟩), ("lib/n", ⟨"n", "file", "d3", 30, "0644"⟩)]
  nodup := by decide

/-- A tree with `lib/c` and, before or after the update, what else there is. -/
def updateTree (after : Bool) : Tree where
  lexists rel := rel ∈ ["bin/a", "etc/b", "lib/c", if after then "lib/n" else "lib/o"]
  islink rel := rel = "etc/b"
  readlink rel := if rel = "etc/b" ∧ after then "y" else "x"
  lstatMode rel := .ok (if rel = "bin/a" then (if after then 0o700 else 0o755) else 0o644)
  sha256File rel := .ok (if rel = "bin/a" then "d1" else if rel = "lib/n" then "d3" else "d2")

theorem manifestDelta_spec_update :
    verifyTree updateNew (updateTree true) none = [] ∧
      (manifestDelta updateOld updateNew).blobs = [("d3", 30)] := by
  have hdelta : manifestDelta updateOld updateNew =
      ⟨["lib/n"], ["etc/b"], ["bin/a"], ["lib/o"], [("d3", 30)]⟩ := by decide
  have hmodes : ∀ m : Manifest, (∀ e ∈ m.items, e.2.kind = "file" → e.2.mode ≠ "") →
      RecordsModes m := fun m h rel e he => h (rel, e) (Dict.get_eq_some.mp he)
  refine ⟨(manifestDelta_spec updateOld updateNew).1 (hmodes _ (by decide)) (hmodes _ (by decide))
    (updateTree false) (updateTree true) (by decide) ?_ (by decide), by rw [hdelta]⟩
  intro rel h₁ h₂ h₃ h₄
  simp only [hdelta, List.mem_singleton] at h₁ h₂ h₃ h₄
  simp [Tree.AgreeAt, updateTree, h₁, h₂, h₃, h₄]

end Veron.Driver
