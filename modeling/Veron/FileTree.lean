/-
Trees of named files: a directory is a dictionary of its entries, and the order
of a dictionary says nothing about the tree.
-/
import Mathlib.Data.List.Perm.Basic
import Mathlib.Tactic.Common
import Veron.Dict

namespace Veron

inductive FileNode where
  | file (data : List UInt8)
  | dir (entries : List (String × FileNode))

abbrev FileTree := List (String × FileNode)

namespace FileTree

inductive Found where
  | file (data : List UInt8)
  | dir
deriving DecidableEq

def look : FileTree → List String → Option Found
  | _, [] => some .dir
  | entries, name :: path =>
      match entries.lookup name with
      | none => none
      | some (.file data) => if path = [] then some (.file data) else none
      | some (.dir inner) => look inner path

attribute [local simp] look

/-- The same names, nested the same way, with the same bytes. -/
def Same (s t : FileTree) : Prop := ∀ path, look s path = look t path

def insertEntry (e : String × FileNode) : FileTree → FileTree
  | [] => [e]
  | d :: rest => if d.1 < e.1 then d :: insertEntry e rest else e :: d :: rest

attribute [local simp] insertEntry

mutual

def sortedNode : FileNode → FileNode
  | .file data => .file data
  | .dir entries => .dir (sorted entries)

/-- Every directory in the order of its names. -/
def sorted : FileTree → FileTree
  | [] => []
  | (name, node) :: rest => insertEntry (name, sortedNode node) (sorted rest)

end

theorem insertEntry_perm (e : String × FileNode) (t : FileTree) :
    (insertEntry e t).Perm (e :: t) := by
  induction t with
  | nil => exact List.Perm.refl _
  | cons d rest ih =>
      rw [insertEntry]
      split
      · exact (List.Perm.cons d ih).trans (List.Perm.swap e d rest)
      · exact List.Perm.refl _

/-- What every entry passes, in any order. -/
theorem forall_insertEntry {e : String × FileNode} {t : FileTree}
    {p : String × FileNode → Prop} : (∀ d ∈ insertEntry e t, p d) ↔ p e ∧ ∀ d ∈ t, p d := by
  rw [← List.forall_mem_cons]
  constructor
  · exact fun h d hd => h d ((insertEntry_perm e t).mem_iff.mpr hd)
  · exact fun h d hd => h d ((insertEntry_perm e t).mem_iff.mp hd)

theorem names_sorted (t : FileTree) : ((sorted t).map Prod.fst).Perm (t.map Prod.fst) := by
  induction t with
  | nil => exact List.Perm.refl _
  | cons e rest ih =>
      obtain ⟨name, node⟩ := e
      rw [sorted]
      exact ((insertEntry_perm _ _).map Prod.fst).trans (List.Perm.cons name ih)

/-- Every entry of a sorted directory was there. -/
theorem mem_sorted {t : FileTree} : ∀ e ∈ sorted t, ∃ d ∈ t, e = (d.1, sortedNode d.2) := by
  induction t with
  | nil =>
      rw [sorted]
      exact fun e he => absurd he List.not_mem_nil
  | cons e rest ih =>
      obtain ⟨name, node⟩ := e
      rw [sorted, forall_insertEntry]
      refine ⟨⟨(name, node), List.mem_cons_self, rfl⟩, fun d hd => ?_⟩
      obtain ⟨d', hd', heq⟩ := ih d hd
      exact ⟨d', List.mem_cons_of_mem _ hd', heq⟩

theorem lookup_insertEntry {e : String × FileNode} {t : FileTree} {name : String}
    (hnew : e.1 ∉ t.map Prod.fst) :
    (insertEntry e t).lookup name = if name = e.1 then some e.2 else t.lookup name := by
  induction t with
  | nil =>
      obtain ⟨n, v⟩ := e
      by_cases hname : name = n
      · simp [insertEntry, hname]
      · simp [insertEntry, hname, lookup_cons_ne hname]
  | cons d rest ih =>
      obtain ⟨n, v⟩ := e
      obtain ⟨m, w⟩ := d
      rw [List.map_cons, List.mem_cons, not_or] at hnew
      rw [insertEntry]
      split
      · by_cases hm : name = m
        · have hne : ¬ name = n := fun hn => hnew.1 (hn ▸ hm)
          rw [hm, List.lookup_cons_self, List.lookup_cons_self, if_neg (hm ▸ hne)]
        · rw [lookup_cons_ne hm, lookup_cons_ne hm, ih hnew.2]
      · by_cases hn : name = n
        · rw [hn, List.lookup_cons_self, if_pos rfl]
        · rw [lookup_cons_ne hn, if_neg hn]

theorem lookup_sorted {t : FileTree} (h : (t.map Prod.fst).Nodup) (name : String) :
    (sorted t).lookup name = (t.lookup name).map sortedNode := by
  induction t with
  | nil => rfl
  | cons e rest ih =>
      obtain ⟨n, v⟩ := e
      rw [List.map_cons, List.nodup_cons] at h
      have hnew : n ∉ (sorted rest).map Prod.fst := by
        rw [(names_sorted rest).mem_iff]
        exact h.1
      rw [sorted, lookup_insertEntry hnew]
      by_cases hname : name = n
      · rw [if_pos hname, hname, List.lookup_cons_self, Option.map_some]
      · rw [if_neg hname, lookup_cons_ne hname, ih h.2]

mutual

def NodeDirs (P : FileTree → Prop) : FileNode → Prop
  | .file _ => True
  | .dir entries => P entries ∧ InnerDirs P entries

def InnerDirs (P : FileTree → Prop) : FileTree → Prop
  | [] => True
  | (_, node) :: rest => NodeDirs P node ∧ InnerDirs P rest

end

/-- `P` of the tree and of every directory in it. -/
def AllDirs (P : FileTree → Prop) (t : FileTree) : Prop := P t ∧ InnerDirs P t

theorem innerDirs_iff {P : FileTree → Prop} {t : FileTree} :
    InnerDirs P t ↔ ∀ e ∈ t, NodeDirs P e.2 := by
  induction t with
  | nil => simp [InnerDirs]
  | cons e rest ih =>
      obtain ⟨name, node⟩ := e
      rw [InnerDirs, ih, List.forall_mem_cons]

mutual

def decideNode (P : FileTree → Prop) [DecidablePred P] : ∀ node, Decidable (NodeDirs P node)
  | .file _ => isTrue trivial
  | .dir entries =>
      have := decideInner P entries
      inferInstanceAs (Decidable (P entries ∧ InnerDirs P entries))

def decideInner (P : FileTree → Prop) [DecidablePred P] : ∀ t, Decidable (InnerDirs P t)
  | [] => isTrue trivial
  | (_, node) :: rest =>
      have := decideNode P node
      have := decideInner P rest
      inferInstanceAs (Decidable (NodeDirs P node ∧ InnerDirs P rest))

end

instance (P : FileTree → Prop) [DecidablePred P] (t : FileTree) : Decidable (AllDirs P t) :=
  have := decideInner P t
  inferInstanceAs (Decidable (P t ∧ InnerDirs P t))

mutual

theorem NodeDirs.imp {P Q : FileTree → Prop} (hPQ : ∀ t, P t → Q t) :
    ∀ {node : FileNode}, NodeDirs P node → NodeDirs Q node
  | .file _, _ => by rw [NodeDirs]; trivial
  | .dir entries, h => by
      rw [NodeDirs] at h ⊢
      exact ⟨hPQ entries h.1, InnerDirs.imp hPQ h.2⟩

theorem InnerDirs.imp {P Q : FileTree → Prop} (hPQ : ∀ t, P t → Q t) :
    ∀ {t : FileTree}, InnerDirs P t → InnerDirs Q t
  | [], _ => by rw [InnerDirs]; trivial
  | (_, node) :: rest, h => by
      rw [InnerDirs] at h ⊢
      exact ⟨NodeDirs.imp hPQ h.1, InnerDirs.imp hPQ h.2⟩

end

mutual

theorem NodeDirs.sorted {P : FileTree → Prop} (hP : ∀ t, P t → P (sorted t)) :
    ∀ {node : FileNode}, NodeDirs P node → NodeDirs P (sortedNode node)
  | .file _, _ => by rw [sortedNode, NodeDirs]; trivial
  | .dir entries, h => by
      rw [NodeDirs] at h
      rw [sortedNode, NodeDirs]
      exact ⟨hP entries h.1, InnerDirs.sorted hP h.2⟩

theorem InnerDirs.sorted {P : FileTree → Prop} (hP : ∀ t, P t → P (sorted t)) :
    ∀ {t : FileTree}, InnerDirs P t → InnerDirs P (sorted t)
  | [], _ => by rw [FileTree.sorted, InnerDirs]; trivial
  | (name, node) :: rest, h => by
      rw [InnerDirs] at h
      rw [FileTree.sorted, innerDirs_iff, forall_insertEntry, ← innerDirs_iff]
      exact ⟨NodeDirs.sorted hP h.1, InnerDirs.sorted hP h.2⟩

end

theorem AllDirs.sorted {P : FileTree → Prop} (hP : ∀ t, P t → P (sorted t)) {t : FileTree}
    (h : AllDirs P t) : AllDirs P (sorted t) :=
  ⟨hP t h.1, InnerDirs.sorted hP h.2⟩

mutual

theorem NodeDirs.of_sorted {P : FileTree → Prop} (hP : ∀ t, P (sorted t) → P t) :
    ∀ {node : FileNode}, NodeDirs P (sortedNode node) → NodeDirs P node
  | .file _, _ => by rw [NodeDirs]; trivial
  | .dir entries, h => by
      rw [sortedNode, NodeDirs] at h
      rw [NodeDirs]
      exact ⟨hP entries h.1, InnerDirs.of_sorted hP h.2⟩

theorem InnerDirs.of_sorted {P : FileTree → Prop} (hP : ∀ t, P (sorted t) → P t) :
    ∀ {t : FileTree}, InnerDirs P (FileTree.sorted t) → InnerDirs P t
  | [], _ => by rw [InnerDirs]; trivial
  | (name, node) :: rest, h => by
      rw [FileTree.sorted, innerDirs_iff, forall_insertEntry, ← innerDirs_iff] at h
      rw [InnerDirs]
      exact ⟨NodeDirs.of_sorted hP h.1, InnerDirs.of_sorted hP h.2⟩

end

theorem AllDirs.sorted_iff {P : FileTree → Prop} (hP : ∀ t, P (FileTree.sorted t) ↔ P t)
    {t : FileTree} :
    AllDirs P (FileTree.sorted t) ↔ AllDirs P t :=
  ⟨fun h => ⟨(hP t).mp h.1, InnerDirs.of_sorted (fun t => (hP t).mp) h.2⟩,
    AllDirs.sorted fun t => (hP t).mpr⟩

/-- Sorting changes nothing about the tree. -/
theorem same_sorted {t : FileTree} (h : AllDirs (fun d => (d.map Prod.fst).Nodup) t) :
    Same (sorted t) t := by
  intro path
  induction path generalizing t with
  | nil => rw [look, look]
  | cons name path ih =>
      rw [look, look, lookup_sorted h.1]
      cases hname : t.lookup name with
      | none => rfl
      | some node =>
          cases node with
          | file data => rw [Option.map_some, sortedNode]
          | dir inner =>
              have hinner := innerDirs_iff.mp h.2 _ (mem_of_lookup hname)
              rw [NodeDirs] at hinner
              rw [Option.map_some, sortedNode]
              exact ih hinner

mutual

def nodeDepth : FileNode → ℕ
  | .file _ => 0
  | .dir entries => depth entries

def depth : FileTree → ℕ
  | [] => 1
  | (_, node) :: rest => max (nodeDepth node + 1) (depth rest)

end

theorem depth_pos (t : FileTree) : 1 ≤ depth t := by
  induction t with
  | nil => exact Nat.le_of_eq depth.eq_1.symm
  | cons e rest ih =>
      obtain ⟨name, node⟩ := e
      rw [depth]
      omega

end FileTree

end Veron
