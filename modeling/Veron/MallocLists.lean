/-
How nodes move between the two lists of the allocator, and what taking memory from
the kernel leaves as it was.
-/
import Mathlib.Algebra.Order.Group.Int
import Mathlib.Data.List.TakeWhile
import Veron.Malloc

namespace Veron.Malloc

open IntrusiveList

/-- The allocated nodes are these and the free ones those. -/
structure Lists (h : Heap) (A F : List ℤ) : Prop where
  allocated : Chain 0 h.next h.allocatedList A
  free : Chain 0 h.next h.freeList F
  apart : ∀ n ∈ A, n ∉ F

/-- Only the lists have changed. -/
structure Relinked (h h' : Heap) : Prop where
  block : ∀ n, (h'.nodes n).block = (h.nodes n).block
  size : ∀ n, (h'.nodes n).size = (h.nodes n).size
  bytes : h'.bytes = h.bytes
  nodesCreated : h'.nodesCreated = h.nodesCreated
  mallocPtr : h'.mallocPtr = h.mallocPtr
  brkPtr : h'.brkPtr = h.brkPtr
  kernelBreak : h'.kernelBreak = h.kernelBreak

theorem Relinked.refl (h : Heap) : Relinked h h :=
  ⟨fun _ => rfl, fun _ => rfl, rfl, rfl, rfl, rfl, rfl⟩

theorem Relinked.trans {a b c : Heap} (hab : Relinked a b) (hbc : Relinked b c) :
    Relinked a c where
  block n := (hbc.block n).trans (hab.block n)
  size n := (hbc.size n).trans (hab.size n)
  bytes := hbc.bytes.trans hab.bytes
  nodesCreated := hbc.nodesCreated.trans hab.nodesCreated
  mallocPtr := hbc.mallocPtr.trans hab.mallocPtr
  brkPtr := hbc.brkPtr.trans hab.brkPtr
  kernelBreak := hbc.kernelBreak.trans hab.kernelBreak

variable {h : Heap} {A F : List ℤ} {n last x : ℤ}

theorem setNode_next (h : Heap) (n : ℤ) (node : Node) :
    (h.setNode n node).next = Function.update h.next n node.next := by
  funext m
  rw [Heap.next, Heap.setNode]
  by_cases hm : m = n
  · subst hm
    simp
  · simp [Function.update_of_ne hm, Heap.next]

theorem setNext_next (h : Heap) (n x : ℤ) :
    (h.setNext n x).next = Function.update h.next n x :=
  setNode_next h n _

/-- A node may get another next node, and be marked, and keeps its block. -/
theorem setNode_relinked (h : Heap) (n : ℤ) (x : ℤ) (used : ℕ) :
    Relinked h (h.setNode n { h.nodes n with next := x, used := used }) := by
  refine ⟨fun m => ?_, fun m => ?_, rfl, rfl, rfl, rfl, rfl⟩
  · by_cases hm : m = n
    · subst hm
      simp [Heap.setNode]
    · simp [Heap.setNode, Function.update_of_ne hm]
  · by_cases hm : m = n
    · subst hm
      simp [Heap.setNode]
    · simp [Heap.setNode, Function.update_of_ne hm]

theorem setNext_relinked (h : Heap) (n x : ℤ) : Relinked h (h.setNext n x) :=
  setNode_relinked h n x (h.nodes n).used

/-- The mark of a node. -/
theorem setNode_used (h : Heap) (n m : ℤ) (node : Node) :
    ((h.setNode n node).nodes m).used = if m = n then node.used else (h.nodes m).used := by
  rw [Heap.setNode]
  split
  · rename_i hm
    subst hm
    simp
  · rename_i hm
    simp [Function.update_of_ne hm]

theorem setNext_used (h : Heap) (n m x : ℤ) :
    ((h.setNext n x).nodes m).used = (h.nodes m).used := by
  rw [Heap.setNext, setNode_used]
  split
  · rename_i hm
    rw [hm]
  · rfl

theorem relinkAllocated_spec (h : Heap) (last x : ℤ) :
    (h.relinkAllocated last x).next = (splice 0 h.next h.allocatedList last x).1 ∧
      (h.relinkAllocated last x).allocatedList = (splice 0 h.next h.allocatedList last x).2 ∧
      (h.relinkAllocated last x).freeList = h.freeList ∧
      Relinked h (h.relinkAllocated last x) ∧
      ∀ m, ((h.relinkAllocated last x).nodes m).used = (h.nodes m).used := by
  rw [Heap.relinkAllocated, splice]
  split
  · exact ⟨rfl, rfl, rfl, ⟨fun _ => rfl, fun _ => rfl, rfl, rfl, rfl, rfl, rfl⟩, fun _ => rfl⟩
  · exact ⟨setNext_next h last x, rfl, rfl, setNext_relinked h last x,
      fun m => setNext_used h last m x⟩

theorem relinkFree_spec (h : Heap) (last x : ℤ) :
    (h.relinkFree last x).next = (splice 0 h.next h.freeList last x).1 ∧
      (h.relinkFree last x).freeList = (splice 0 h.next h.freeList last x).2 ∧
      (h.relinkFree last x).allocatedList = h.allocatedList ∧
      Relinked h (h.relinkFree last x) ∧
      ∀ m, ((h.relinkFree last x).nodes m).used = (h.nodes m).used := by
  rw [Heap.relinkFree, splice]
  split
  · exact ⟨rfl, rfl, rfl, ⟨fun _ => rfl, fun _ => rfl, rfl, rfl, rfl, rfl, rfl⟩, fun _ => rfl⟩
  · exact ⟨setNext_next h last x, rfl, rfl, setNext_relinked h last x,
      fun m => setNext_used h last m x⟩

/-- Going through a list stops before the part that begins with a node that passes. -/
theorem walk_split {list : ℤ} {l : List ℤ} (hl : Chain 0 h.next list l)
    (hlength : l.length ≤ h.nodesCreated) (test : ℤ → Bool) :
    ∃ a b, l = a ++ b ∧ (∀ m ∈ a, test m = false) ∧ (∀ m ∈ b.head?, test m = true) ∧
      h.walk list test = .ok (b.headD 0, a.getLastD 0) := by
  refine ⟨l.takeWhile fun n => !test n, l.dropWhile fun n => !test n,
    (List.takeWhile_append_dropWhile).symm, fun m hm => ?_, fun m hm => ?_, ?_⟩
  · simpa using List.mem_takeWhile_imp hm
  · have hdrop := List.head?_dropWhile_not (fun n => !test n) l
    rw [Option.mem_def.mp hm] at hdrop
    simpa using hdrop
  · have hfuel : l.length < h.fuel := Nat.lt_succ_of_le hlength
    rw [Heap.walk, walk_chain hl test 0 hfuel]

/-- The last node before some part of a list is not in another list. -/
theorem last_not_mem {list : ℤ} {a c l : List ℤ} (hl : Chain 0 h.next list l)
    (hapart : ∀ m ∈ a ++ c, m ∉ l) : a.getLastD 0 ∉ l := by
  rcases List.eq_nil_or_concat a with rfl | ⟨a, m, rfl⟩
  · exact fun hzero => hl.ne_null hzero rfl
  · rw [List.concat_eq_append] at *
    have hlast : (a ++ [m]).getLastD 0 = m := by simp
    rw [hlast]
    exact hapart m (by simp)

/-- Smallest first. -/
def Sorted (h : Heap) (F : List ℤ) : Prop :=
  (F.map fun n => (h.nodes n).size).Pairwise (· ≤ ·)

theorem Sorted.relinked {h' : Heap} (hsorted : Sorted h F) (hsame : Relinked h h') :
    Sorted h' F := by
  rw [Sorted, List.map_congr_left fun n _ => hsame.size n]
  exact hsorted

/-- A node goes in front of the first that is not smaller. -/
theorem Sorted.insert {a b : List ℤ} (hsorted : Sorted h (a ++ b))
    (ha : ∀ m ∈ a, (h.nodes m).size < (h.nodes n).size)
    (hb : ∀ m ∈ b.head?, (h.nodes n).size ≤ (h.nodes m).size) : Sorted h (a ++ n :: b) := by
  simp only [Sorted, List.map_append, List.map_cons, List.pairwise_append, List.pairwise_cons,
    List.mem_map, List.mem_cons, forall_exists_index, and_imp, forall_apply_eq_imp_iff₂]
    at hsorted ⊢
  obtain ⟨hsa, hsb, hab⟩ := hsorted
  have hnb : ∀ m ∈ b, (h.nodes n).size ≤ (h.nodes m).size := by
    cases b with
    | nil => simp
    | cons k b =>
        have hk := hb k rfl
        simp only [List.map_cons, List.pairwise_cons, List.mem_map, forall_exists_index, and_imp,
          forall_apply_eq_imp_iff₂] at hsb
        intro m hm
        rcases List.mem_cons.mp hm with rfl | hm
        · exact hk
        · exact hk.trans (hsb.1 m hm)
  refine ⟨hsa, ⟨hnb, hsb⟩, fun m hm size hsize => ?_⟩
  rcases hsize with rfl | ⟨k, hk, rfl⟩
  · exact (ha m hm).le
  · exact hab m hm k hk

theorem pushAllocated_relinked (h : Heap) (n : ℤ) : Relinked h (h.pushAllocated n) := by
  have hset := setNext_relinked h n h.allocatedList
  exact ⟨hset.block, hset.size, hset.bytes, hset.nodesCreated, hset.mallocPtr, hset.brkPtr,
    hset.kernelBreak⟩

theorem pushAllocated_used (h : Heap) (n m : ℤ) :
    ((h.pushAllocated n).nodes m).used = (h.nodes m).used :=
  setNext_used h n m h.allocatedList

/-- A node that is in neither list becomes the first of the allocated ones. -/
theorem Lists.push (hl : Lists h A F) (hn : n ≠ 0) (hA : n ∉ A) (hF : n ∉ F) :
    Lists (h.pushAllocated n) (n :: A) F := by
  have hnext : (h.pushAllocated n).next = Function.update h.next n h.allocatedList :=
    setNext_next h n h.allocatedList
  refine ⟨⟨rfl, hn, ?_⟩, ?_, ?_⟩
  · rw [hnext, Function.update_self]
    exact hl.allocated.update hA
  · rw [hnext]
    exact hl.free.update hF
  · intro m hm
    rcases List.mem_cons.mp hm with rfl | hm
    · exact hF
    · exact hl.apart m hm

/-- A free node goes to its place in the free list. -/
theorem insertBlock_free (hl : Lists h A F) (hlength : F.length ≤ h.nodesCreated)
    (hsorted : Sorted h F) (hn : n ≠ 0) (hA : n ∉ A) (hF : n ∉ F)
    (hused : (h.nodes n).used = NOT_IN_USE) (hnext : h.next n = 0) :
    ∃ h' a b, insertBlock h n NOT_IN_USE = .ok h' ∧ F = a ++ b ∧ Lists h' A (a ++ n :: b) ∧
      Sorted h' (a ++ n :: b) ∧ Relinked h h' ∧ ∀ m, (h'.nodes m).used = (h.nodes m).used := by
  obtain ⟨a, b, rfl, ha, hb, hwalk⟩ :=
    walk_split hl.free hlength fun i => (h.nodes n).size ≤ (h.nodes i).size
  have hset : (if b.headD 0 ≠ 0 then h.setNext n (b.headD 0) else h).next =
      Function.update h.next n (b.headD 0) := by
    split
    · exact setNext_next h n _
    · rename_i hzero
      rw [not_not.mp hzero, ← hnext, Function.update_eq_self]
  have hsame : Relinked h (if b.headD 0 ≠ 0 then h.setNext n (b.headD 0) else h) := by
    split
    · exact setNext_relinked h n _
    · exact .refl h
  have hmarks : ∀ m, ((if b.headD 0 ≠ 0 then h.setNext n (b.headD 0) else h).nodes m).used =
      (h.nodes m).used := by
    intro m
    split
    · exact setNext_used h n m _
    · rfl
  have hallocated : (if b.headD 0 ≠ 0 then h.setNext n (b.headD 0) else h).allocatedList =
      h.allocatedList := by split <;> rfl
  have hfree : (if b.headD 0 ≠ 0 then h.setNext n (b.headD 0) else h).freeList =
      h.freeList := by split <;> rfl
  generalize hh : (if b.headD 0 ≠ 0 then h.setNext n (b.headD 0) else h) = h₁ at *
  obtain ⟨hnext', hfree', hallocated', hsame', hmarks'⟩ := relinkFree_spec h₁ (a.getLastD 0) n
  refine ⟨h₁.relinkFree (a.getLastD 0) n, a, b, ?_, rfl, ?_, ?_, hsame.trans hsame', fun m =>
    (hmarks' m).trans (hmarks m)⟩
  · rw [insertBlock, if_neg (by decide), if_neg (by simp), if_neg (by simp [hused]),
      if_neg (by simp [hnext]), hwalk, ← hh]
    rfl
  · have hnb : n ∉ b := fun hnb => hF (List.mem_append_right a hnb)
    have hplaced : Chain 0 h₁.next n (n :: b) := by
      refine ⟨rfl, hn, ?_⟩
      rw [hset, Function.update_self]
      exact hl.free.suffix.update hnb
    have hdisjoint : ∀ m ∈ a, m ∉ n :: b := by
      intro m hm hmem
      rcases List.mem_cons.mp hmem with rfl | hmem
      · exact hF (List.mem_append_left b hm)
      · exact List.disjoint_of_nodup_append hl.free.nodup hm hmem
    refine ⟨?_, ?_, ?_⟩
    · rw [hnext', hallocated', hallocated]
      refine splice_other (hset ▸ hl.allocated.update hA) ?_
      exact last_not_mem hl.allocated fun m hm hmA => hl.apart m hmA hm
    · rw [hnext', hfree', hfree]
      exact splice_chain (hset ▸ hl.free.update hF) hplaced hdisjoint
    · intro m hm hmem
      rcases List.mem_append.mp hmem with hma | hmem
      · exact hl.apart m hm (List.mem_append_left b hma)
      · rcases List.mem_cons.mp hmem with rfl | hmb
        · exact hA hm
        · exact hl.apart m hm (List.mem_append_right a hmb)
  · refine (hsorted.insert (fun m hm => ?_) fun m hm => ?_).relinked (hsame.trans hsame')
    · simpa using ha m hm
    · simpa using hb m hm

/-- The lists do not notice what becomes of a node that is in neither. -/
theorem Lists.mark (hl : Lists h A F) (hA : n ∉ A) (hF : n ∉ F) (node : Node) :
    Lists (h.setNode n node) A F := by
  refine ⟨?_, ?_, hl.apart⟩
  · rw [setNode_next]
    exact hl.allocated.update hA
  · rw [setNode_next]
    exact hl.free.update hF

/-- A node taken out of the allocated list. -/
theorem Lists.unlinkAllocated {a b : List ℤ} (hl : Lists h (a ++ n :: b) F) :
    Lists (h.relinkAllocated (a.getLastD 0) (h.next n)) (a ++ b) F := by
  obtain ⟨hnext, hallocated, hfree, -, -⟩ := relinkAllocated_spec h (a.getLastD 0) (h.next n)
  have hnodup := hl.allocated.nodup
  have hdisjoint : ∀ m ∈ a, m ∉ b := fun m hm hmb =>
    List.disjoint_of_nodup_append hnodup hm (List.mem_cons_of_mem n hmb)
  refine ⟨?_, ?_, fun m hm => hl.apart m ?_⟩
  · rw [hnext, hallocated]
    exact splice_chain hl.allocated hl.allocated.drop.2.2 hdisjoint
  · rw [hnext, hfree]
    exact splice_other hl.free (last_not_mem hl.free hl.apart)
  · simp only [List.mem_append, List.mem_cons] at hm ⊢
    tauto

/-- A node taken out of the free list. -/
theorem Lists.unlinkFree {a b : List ℤ} (hl : Lists h A (a ++ n :: b)) :
    Lists (h.relinkFree (a.getLastD 0) (h.next n)) A (a ++ b) := by
  obtain ⟨hnext, hfree, hallocated, -, -⟩ := relinkFree_spec h (a.getLastD 0) (h.next n)
  have hnodup := hl.free.nodup
  have hdisjoint : ∀ m ∈ a, m ∉ b := fun m hm hmb =>
    List.disjoint_of_nodup_append hnodup hm (List.mem_cons_of_mem n hmb)
  refine ⟨?_, ?_, fun m hm hmem => hl.apart m hm ?_⟩
  · rw [hnext, hallocated]
    exact splice_other hl.allocated
      (last_not_mem hl.allocated fun m hm hmA => hl.apart m hmA hm)
  · rw [hnext, hfree]
    exact splice_chain hl.free hl.free.drop.2.2 hdisjoint
  · simp only [List.mem_append, List.mem_cons] at hmem ⊢
    tauto

/-- Only what has to do with the break has changed. -/
structure Broke (h h' : Heap) : Prop where
  nodes : h'.nodes = h.nodes
  allocatedList : h'.allocatedList = h.allocatedList
  freeList : h'.freeList = h.freeList
  nodesCreated : h'.nodesCreated = h.nodesCreated
  low : -1 ≤ h'.mallocPtr
  top : h'.brkPtr ≤ h'.kernelBreak
  broke : h.kernelBreak ≤ h'.kernelBreak
  grows : h.brkPtr ≠ 0 → h.mallocPtr ≤ h'.mallocPtr
  stays : h.brkPtr ≠ 0 → 0 < h.kernelBreak → h'.brkPtr ≠ 0

theorem Broke.trans {a b c : Heap} (hab : Broke a b) (hbc : Broke b c)
    (h : a.brkPtr ≠ 0 → b.brkPtr ≠ 0) : Broke a c where
  nodes := hbc.nodes.trans hab.nodes
  allocatedList := hbc.allocatedList.trans hab.allocatedList
  freeList := hbc.freeList.trans hab.freeList
  nodesCreated := hbc.nodesCreated.trans hab.nodesCreated
  low := hbc.low
  top := hbc.top
  broke := hab.broke.trans hbc.broke
  grows ha := (hab.grows ha).trans (hbc.grows (h ha))
  stays ha hpos := hbc.stays (h ha) (hpos.trans_le hab.broke)

/-- The kernel's break only moves up. -/
theorem brk_spec (kernel : Kernel) (h : Heap) (addr : ℤ) :
    ∃ k, (brk kernel h addr).1 = { h with kernelBreak := k, brkCalls := h.brkCalls + 1 } ∧
      h.kernelBreak ≤ k ∧
      ((brk kernel h addr).2 = -1 ∨ (brk kernel h addr).2 = (k : ℤ)) := by
  rw [brk]
  cases kernel h.brkCalls addr with
  | none => exact ⟨h.kernelBreak, rfl, le_rfl, .inl rfl⟩
  | some grown => exact ⟨h.kernelBreak + grown, rfl, Nat.le_add_right _ _, .inr rfl⟩

theorem findBreak_broke (kernel : Kernel) (hlow : -1 ≤ h.mallocPtr)
    (htop : h.brkPtr ≤ h.kernelBreak) :
    Broke h (findBreak kernel h) ∧ (h.brkPtr ≠ 0 → (findBreak kernel h).brkPtr ≠ 0) := by
  rw [findBreak]
  split
  · rename_i hzero
    obtain ⟨k, heq, hk, haddr⟩ := brk_spec kernel h 0
    dsimp only
    rw [heq]
    refine ⟨⟨rfl, rfl, rfl, rfl, ?_, ?_, hk, fun hne => absurd hzero hne,
      fun hne => absurd hzero hne⟩, fun hne => absurd hzero hne⟩ <;>
      dsimp only <;> rcases haddr with haddr | haddr <;> rw [haddr] <;> omega
  · exact ⟨⟨rfl, rfl, rfl, rfl, hlow, htop, le_rfl, fun _ => le_rfl, fun hne _ => hne⟩, id⟩

theorem moveBreak_broke (kernel : Kernel) (size : ℕ) (hlow : -1 ≤ h.mallocPtr)
    (htop : h.brkPtr ≤ h.kernelBreak) :
    Broke h (moveBreak kernel h size).1 ∧
      (moveBreak kernel h size).1.mallocPtr = h.mallocPtr ∧
      ((moveBreak kernel h size).2 = true →
        h.mallocPtr + size ≤ (moveBreak kernel h size).1.brkPtr) := by
  rw [moveBreak]
  split
  · rename_i hshort
    obtain ⟨k, heq, hk, haddr⟩ := brk_spec kernel h (h.mallocPtr + size)
    dsimp only
    rw [heq]
    refine ⟨⟨rfl, rfl, rfl, rfl, hlow, ?_, hk, fun _ => le_rfl, fun _ hpos => ?_⟩, rfl, ?_⟩
    · dsimp only
      rcases haddr with haddr | haddr
      · rw [haddr]
        omega
      · rw [haddr]
    · dsimp only
      rcases haddr with haddr | haddr
      · rw [haddr]
        omega
      · rw [haddr]
        omega
    · intro hgranted
      simp only [ne_eq, decide_eq_true_eq] at hgranted
      exact not_lt.mp hgranted.2.2
  · rename_i henough
    exact ⟨⟨rfl, rfl, rfl, rfl, hlow, htop, le_rfl, fun _ => le_rfl, fun hne _ => hne⟩, rfl,
      fun _ => not_lt.mp henough⟩

/-- Memory that is taken lies above all that was taken before. -/
theorem mallocBrk_broke (kernel : Kernel) (size : ℕ) (hlow : -1 ≤ h.mallocPtr)
    (htop : h.brkPtr ≤ h.kernelBreak) :
    Broke h (mallocBrk kernel h size).1 ∧
      ((mallocBrk kernel h size).2 ≠ 0 →
        -1 ≤ (mallocBrk kernel h size).2 ∧
        (h.brkPtr ≠ 0 → h.mallocPtr ≤ (mallocBrk kernel h size).2) ∧
        (mallocBrk kernel h size).1.mallocPtr = (mallocBrk kernel h size).2 + size ∧
        (mallocBrk kernel h size).1.mallocPtr ≤ (mallocBrk kernel h size).1.brkPtr) := by
  obtain ⟨hfound, hne⟩ := findBreak_broke kernel hlow htop
  obtain ⟨hmoved, hsame, hgranted⟩ :=
    moveBreak_broke kernel size hfound.low hfound.top
  have hboth := hfound.trans hmoved hne
  rw [mallocBrk]
  dsimp only
  split
  · rename_i hyes
    have htop' := hgranted hyes
    rw [← hsame] at htop'
    refine ⟨⟨hboth.nodes, hboth.allocatedList, hboth.freeList, hboth.nodesCreated, ?_, hboth.top,
      hboth.broke, fun h0 => ?_, hboth.stays⟩, fun _ => ⟨hboth.low, hboth.grows, rfl, htop'⟩⟩
    · have := hboth.low
      dsimp only
      omega
    · have := hboth.grows h0
      dsimp only
      omega
  · exact ⟨hboth, fun h0 => absurd rfl h0⟩

theorem brk_bytes (kernel : Kernel) (h : Heap) (addr : ℤ) :
    (brk kernel h addr).1.bytes = h.bytes := by
  rw [brk]
  split <;> rfl

theorem findBreak_bytes (kernel : Kernel) (h : Heap) :
    (findBreak kernel h).bytes = h.bytes := by
  rw [findBreak]
  split
  · exact brk_bytes kernel h 0
  · rfl

theorem moveBreak_bytes (kernel : Kernel) (h : Heap) (size : ℕ) :
    (moveBreak kernel h size).1.bytes = h.bytes := by
  rw [moveBreak]
  split
  · exact brk_bytes kernel h (h.mallocPtr + size)
  · rfl

/-- Nothing is written to memory that is taken. -/
theorem mallocBrk_bytes (kernel : Kernel) (h : Heap) (size : ℕ) :
    (mallocBrk kernel h size).1.bytes = h.bytes := by
  have hmoved := (moveBreak_bytes kernel (findBreak kernel h) size).trans (findBreak_bytes kernel h)
  rw [mallocBrk]
  dsimp only
  split
  · exact hmoved
  · exact hmoved

end Veron.Malloc
