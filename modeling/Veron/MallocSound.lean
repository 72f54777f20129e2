/-
What holds of the allocator after any sequence of calls: the lists, the marks, the
order of the free list and the ranges of addresses.
-/
import Veron.MallocLists

namespace Veron.Malloc

open IntrusiveList

/-- Two ranges of addresses, each up to but not with its second address. -/
def Apart (r s : ℤ × ℤ) : Prop := r.2 ≤ s.1 ∨ s.2 ≤ r.1

def header (n : ℤ) : ℤ × ℤ := (n, n + sizeofNode)

def Heap.extent (h : Heap) (n : ℤ) : ℤ × ℤ :=
  ((h.nodes n).block, (h.nodes n).block + (h.nodes n).size)

/-- No two headers or blocks overlap, and all are below `_malloc_ptr`. -/
structure Ranges (h : Heap) (L : List ℤ) : Prop where
  headers : ∀ n ∈ L, ∀ m ∈ L, n ≠ m → Apart (header n) (header m)
  blocks : ∀ n ∈ L, ∀ m ∈ L, n ≠ m → Apart (h.extent n) (h.extent m)
  mixed : ∀ n ∈ L, ∀ m ∈ L, Apart (header n) (h.extent m)
  headersBelow : ∀ n ∈ L, (header n).2 ≤ h.mallocPtr
  blocksBelow : ∀ n ∈ L, (h.extent n).2 ≤ h.mallocPtr

/-- The allocated nodes are `A` and the free ones `F`, and all is as it should be. -/
structure Sound (h : Heap) (A F : List ℤ) : Prop where
  lists : Lists h A F
  count : A.length + F.length = h.nodesCreated
  inUse : ∀ n ∈ A, (h.nodes n).used = IN_USE
  notInUse : ∀ n ∈ F, (h.nodes n).used = NOT_IN_USE
  sorted : Sorted h F
  ranges : Ranges h (A ++ F)

/-- What else the calls rely on. -/
structure Settled (h : Heap) (A F : List ℤ) : Prop where
  low : -1 ≤ h.mallocPtr
  top : h.brkPtr ≤ h.kernelBreak
  begun : ∀ n ∈ A ++ F, h.brkPtr ≠ 0 ∧ 0 < h.kernelBreak
  sized : ∀ n ∈ A ++ F, 0 < (h.nodes n).size ∧ (h.nodes n).block ≠ 0

variable {h h' : Heap} {A F : List ℤ} {n p : ℤ}

theorem Ranges.relinked {L L' : List ℤ} (hr : Ranges h L) (hsame : Relinked h h')
    (hsub : ∀ n ∈ L', n ∈ L) : Ranges h' L' := by
  have hextent : ∀ n, h'.extent n = h.extent n := fun n => by
    rw [Heap.extent, Heap.extent, hsame.block, hsame.size]
  refine ⟨fun n hn m hm => hr.headers n (hsub n hn) m (hsub m hm), fun n hn m hm => ?_,
    fun n hn m hm => ?_, fun n hn => ?_, fun n hn => ?_⟩
  · rw [hextent, hextent]
    exact hr.blocks n (hsub n hn) m (hsub m hm)
  · rw [hextent]
    exact hr.mixed n (hsub n hn) m (hsub m hm)
  · rw [hsame.mallocPtr]
    exact hr.headersBelow n (hsub n hn)
  · rw [hextent, hsame.mallocPtr]
    exact hr.blocksBelow n (hsub n hn)

theorem Settled.relinked {A' F' : List ℤ} (ht : Settled h A F) (hsame : Relinked h h')
    (hsub : ∀ n ∈ A' ++ F', n ∈ A ++ F) : Settled h' A' F' := by
  refine ⟨?_, ?_, fun n hn => ?_, fun n hn => ?_⟩
  · rw [hsame.mallocPtr]
    exact ht.low
  · rw [hsame.brkPtr, hsame.kernelBreak]
    exact ht.top
  · rw [hsame.brkPtr, hsame.kernelBreak]
    exact ht.begun n (hsub n hn)
  · rw [hsame.size, hsame.block]
    exact ht.sized n (hsub n hn)

/-- Blocks that are apart begin at different addresses. -/
theorem Sound.block_inj (hs : Sound h A F) (ht : Settled h A F) {m : ℤ} (hn : n ∈ A ++ F)
    (hm : m ∈ A ++ F) (hsame : (h.nodes n).block = (h.nodes m).block) : n = m := by
  by_contra hne
  have hapart := hs.ranges.blocks n hn m hm hne
  have hsn := (ht.sized n hn).1
  have hsm := (ht.sized m hm).1
  simp only [Apart, Heap.extent] at hapart
  omega

theorem free_eq {i last : ℤ} (hp : p ≠ 0) (hi : i ≠ 0)
    (hwalk : (h.walk h.allocatedList fun i => (h.nodes i).block = p) = .ok (i, last)) :
    free h p =
      insertBlock ((h.relinkAllocated last (h.next i)).setNode i
        { (h.relinkAllocated last (h.next i)).nodes i with used := NOT_IN_USE, next := 0 })
        i NOT_IN_USE := by
  rw [free, if_neg hp, hwalk]
  exact if_neg hi

/-- Going through the allocated list for a block finds its node. -/
theorem walk_block (hs : Sound h A F) (ht : Settled h A F) (hn : n ∈ A)
    (hp : (h.nodes n).block = p) :
    ∃ a b, A = a ++ n :: b ∧
      (h.walk h.allocatedList fun i => (h.nodes i).block = p) = .ok (n, a.getLastD 0) := by
  have hlength : A.length ≤ h.nodesCreated := by
    have := hs.count
    omega
  obtain ⟨a, c, hac, ha, hc, hwalk⟩ :=
    walk_split hs.lists.allocated hlength fun i => (h.nodes i).block = p
  have hna : n ∉ a := fun hna => by simpa [hp] using ha n hna
  cases c with
  | nil =>
      rw [List.append_nil] at hac
      exact absurd (hac ▸ hn) hna
  | cons k b =>
      have hk : (h.nodes k).block = p := by simpa using hc k rfl
      have hkA : k ∈ A := by simp [hac]
      have hkn : k = n := hs.block_inj ht (List.mem_append_left F hkA)
        (List.mem_append_left F hn) (hk.trans hp.symm)
      exact ⟨a, b, hkn ▸ hac, hkn ▸ hwalk⟩

/-- Freeing a block moves its node from the one list to the other. -/
theorem free_spec (hs : Sound h A F) (ht : Settled h A F) (hn : n ∈ A)
    (hp : (h.nodes n).block = p) :
    ∃ h' A' F', free h p = .ok h' ∧ (∀ m ∈ A, m ≠ n → m ∈ A') ∧ n ∈ F' ∧ Sound h' A' F' ∧
      Settled h' A' F' ∧ Relinked h h' := by
  have hp0 : p ≠ 0 := hp ▸ (ht.sized n (List.mem_append_left F hn)).2
  have hn0 : n ≠ 0 := hs.lists.allocated.ne_null hn
  obtain ⟨a, b, rfl, hwalk⟩ := walk_block hs ht hn hp
  obtain ⟨-, -, -, hsame₁, hused₁⟩ := relinkAllocated_spec h (a.getLastD 0) (h.next n)
  have hlists₁ := hs.lists.unlinkAllocated
  have hfree := free_eq hp0 hn0 hwalk
  generalize h.relinkAllocated (a.getLastD 0) (h.next n) = h₁ at *
  have hsame₂ := setNode_relinked h₁ n 0 NOT_IN_USE
  have hnodup := hs.lists.allocated.nodup
  have hnab : n ∉ a ++ b := (List.nodup_middle.mp hnodup).notMem
  have hnF : n ∉ F := hs.lists.apart n hn
  have hlists₂ := hlists₁.mark hnab hnF { h₁.nodes n with used := NOT_IN_USE, next := 0 }
  have hused₂ := fun m => setNode_used h₁ n m { h₁.nodes n with used := NOT_IN_USE, next := 0 }
  have hnext₂ : (h₁.setNode n { h₁.nodes n with used := NOT_IN_USE, next := 0 }).next n = 0 := by
    rw [setNode_next, Function.update_self]
  generalize h₁.setNode n { h₁.nodes n with used := NOT_IN_USE, next := 0 } = h₂ at *
  have hsame₁₂ := hsame₁.trans hsame₂
  have hlength : F.length ≤ h₂.nodesCreated := by
    have := hs.count
    rw [hsame₁₂.nodesCreated]
    omega
  obtain ⟨h₃, c, d, hinsert, rfl, hlists₃, hsorted₃, hsame₃, hused₃⟩ :=
    insertBlock_free hlists₂ hlength (hs.sorted.relinked hsame₁₂) hn0 hnab hnF
      ((hused₂ n).trans (if_pos rfl)) hnext₂
  have hsame := hsame₁₂.trans hsame₃
  have hused : ∀ m, m ≠ n → (h₃.nodes m).used = (h.nodes m).used := fun m hm => by
    rw [hused₃, hused₂, if_neg hm, hused₁]
  have hsub : ∀ m ∈ (a ++ b) ++ (c ++ n :: d), m ∈ (a ++ n :: b) ++ (c ++ d) := by
    intro m hm
    simp only [List.mem_append, List.mem_cons] at hm ⊢
    tauto
  refine ⟨h₃, a ++ b, c ++ n :: d, hfree.trans hinsert, ?_, by simp,
    ⟨hlists₃, ?_, ?_, ?_, hsorted₃, hs.ranges.relinked hsame hsub⟩, ht.relinked hsame hsub, hsame⟩
  · intro m hm hmn
    simp only [List.mem_append, List.mem_cons] at hm ⊢
    tauto
  · have := hs.count
    rw [hsame.nodesCreated, ← this]
    simp only [List.length_append, List.length_cons]
    omega
  · intro m hm
    rw [hused m fun hmn => hnab (hmn ▸ hm)]
    refine hs.inUse m ?_
    simp only [List.mem_append, List.mem_cons] at hm ⊢
    tauto
  · intro m hm
    by_cases hmn : m = n
    · rw [hmn, hused₃, hused₂, if_pos rfl]
    · rw [hused m hmn]
      refine hs.notInUse m ?_
      simp only [List.mem_append, List.mem_cons] at hm ⊢
      tauto

/-- What a request for so many bytes leaves: the blocks there were, and a new one of at
least that size when the pointer is not NULL. -/
structure Grants (h : Heap) (A : List ℤ) (size : ℕ) (h' : Heap) (A' F' : List ℤ) (p : ℤ) :
    Prop where
  sound : Sound h' A' F'
  settled : Settled h' A' F'
  kept : ∀ m ∈ A, m ∈ A' ∧ (h'.nodes m).block = (h.nodes m).block ∧
    (h'.nodes m).size = (h.nodes m).size
  granted : p ≠ 0 → ∃ n ∈ A', n ∉ A ∧ (h'.nodes n).block = p ∧ size ≤ (h'.nodes n).size

/-- A request changes no bytes, and when it is refused no node and no list either. -/
structure Quiet (h : Heap) (A F : List ℤ) (h' : Heap) (A' F' : List ℤ) (p : ℤ) : Prop where
  bytes : h'.bytes = h.bytes
  refused : p = 0 → A' = A ∧ F' = F ∧ ∀ m ∈ A ++ F, h'.nodes m = h.nodes m

theorem Quiet.none (h : Heap) (A F : List ℤ) : Quiet h A F h A F 0 :=
  ⟨rfl, fun _ => ⟨rfl, rfl, fun _ _ => rfl⟩⟩

theorem findFree_eq {i last : ℤ} {size : ℕ} (hi : i ≠ 0)
    (hwalk : (h.walk h.freeList fun i =>
      (h.nodes i).used = NOT_IN_USE ∧ size ≤ (h.nodes i).size) = .ok (i, last)) :
    findFree h size =
      .ok ((((h.relinkFree last (h.next i)).setNode i
          { (h.relinkFree last (h.next i)).nodes i with
            used := IN_USE, next := 0 }).pushAllocated i),
        ((((h.relinkFree last (h.next i)).setNode i
          { (h.relinkFree last (h.next i)).nodes i with used := IN_USE, next := 0 }).pushAllocated
            i).nodes i).block) := by
  rw [findFree, hwalk]
  exact if_neg hi

/-- A free block that is large enough moves to the allocated ones. -/
theorem findFree_spec (hs : Sound h A F) (ht : Settled h A F) (size : ℕ) :
    ∃ h' p, findFree h size = .ok (h', p) ∧
      ((p = 0 ∧ h' = h) ∨
        ∃ A' F', p ≠ 0 ∧ Grants h A size h' A' F' p ∧ Quiet h A F h' A' F' p) := by
  have hlength : F.length ≤ h.nodesCreated := by
    have := hs.count
    omega
  obtain ⟨a, c, rfl, -, hc, hwalk⟩ := walk_split hs.lists.free hlength
    fun i => (h.nodes i).used = NOT_IN_USE ∧ size ≤ (h.nodes i).size
  cases c with
  | nil =>
      refine ⟨h, 0, ?_, .inl ⟨rfl, rfl⟩⟩
      rw [findFree, hwalk]
      rfl
  | cons n b =>
      have hfits : size ≤ (h.nodes n).size := (by simpa using hc n rfl : _ ∧ _).2
      have hnF : n ∈ a ++ n :: b := by simp
      have hn0 : n ≠ 0 := hs.lists.free.ne_null hnF
      have hnA : n ∉ A := fun hnA => hs.lists.apart n hnA hnF
      have hnab : n ∉ a ++ b := (List.nodup_middle.mp hs.lists.free.nodup).notMem
      have hblock := (ht.sized n (List.mem_append_right A hnF)).2
      obtain ⟨-, -, -, hsame₁, hused₁⟩ := relinkFree_spec h (a.getLastD 0) (h.next n)
      have hlists₁ := hs.lists.unlinkFree
      have hfind := findFree_eq hn0 hwalk
      generalize h.relinkFree (a.getLastD 0) (h.next n) = h₁ at *
      have hsame₂ := setNode_relinked h₁ n 0 IN_USE
      have hlists₂ := hlists₁.mark hnA hnab { h₁.nodes n with used := IN_USE, next := 0 }
      have hused₂ := fun m => setNode_used h₁ n m { h₁.nodes n with used := IN_USE, next := 0 }
      generalize h₁.setNode n { h₁.nodes n with used := IN_USE, next := 0 } = h₂ at *
      have hlists₃ := hlists₂.push hn0 hnA hnab
      have hsame₃ := pushAllocated_relinked h₂ n
      have hused₃ := pushAllocated_used h₂ n
      generalize h₂.pushAllocated n = h₃ at *
      have hsame := (hsame₁.trans hsame₂).trans hsame₃
      have hused : ∀ m, m ≠ n → (h₃.nodes m).used = (h.nodes m).used := fun m hm => by
        rw [hused₃, hused₂, if_neg hm, hused₁]
      have hsub : ∀ m ∈ (n :: A) ++ (a ++ b), m ∈ A ++ (a ++ n :: b) := by
        intro m hm
        simp only [List.mem_append, List.mem_cons] at hm ⊢
        tauto
      have hblock₃ : (h₃.nodes n).block ≠ 0 := (hsame.block n).symm ▸ hblock
      refine ⟨h₃, (h₃.nodes n).block, hfind, .inr ⟨n :: A, a ++ b, hblock₃, ⟨?_, ?_, ?_, ?_⟩,
        hsame.bytes, fun h0 => absurd h0 hblock₃⟩⟩
      · refine ⟨hlists₃, ?_, ?_, ?_, ?_, hs.ranges.relinked hsame hsub⟩
        · have := hs.count
          rw [hsame.nodesCreated, ← this]
          simp only [List.length_append, List.length_cons]
          omega
        · intro m hm
          by_cases hmn : m = n
          · rw [hmn, hused₃, hused₂, if_pos rfl]
          · rw [hused m hmn]
            exact hs.inUse m ((List.mem_cons.mp hm).resolve_left hmn)
        · intro m hm
          rw [hused m fun hmn => hnab (hmn ▸ hm)]
          refine hs.notInUse m ?_
          simp only [List.mem_append, List.mem_cons] at hm ⊢
          tauto
        · have hsub' : (a ++ b).Sublist (a ++ n :: b) :=
            (List.sublist_cons_self n b).append_left a
          exact (hs.sorted.relinked hsame).sublist (hsub'.map _)
      · exact ht.relinked hsame hsub
      · exact fun m hm => ⟨List.mem_cons_of_mem n hm, hsame.block m, hsame.size m⟩
      · exact fun _ => ⟨n, List.mem_cons_self, hnA, rfl, by rw [hsame.size]; exact hfits⟩

/-- Taking memory from the kernel, or not getting it, disturbs no block. -/
theorem Sound.broke (hs : Sound h A F) (ht : Settled h A F) (hb : Broke h h') :
    Sound h' A F ∧ Settled h' A F := by
  have hnext : h'.next = h.next := funext fun n => by rw [Heap.next, Heap.next, hb.nodes]
  have hextent : ∀ n, h'.extent n = h.extent n := fun n => by
    rw [Heap.extent, Heap.extent, hb.nodes]
  have hgrows : ∀ n ∈ A ++ F, h.mallocPtr ≤ h'.mallocPtr := fun n hn => hb.grows (ht.begun n hn).1
  refine ⟨⟨⟨?_, ?_, hs.lists.apart⟩, ?_, ?_, ?_, ?_, ⟨hs.ranges.headers, ?_, ?_, ?_, ?_⟩⟩,
    ⟨hb.low, hb.top, fun n hn => ?_, fun n hn => ?_⟩⟩
  · rw [hnext, hb.allocatedList]
    exact hs.lists.allocated
  · rw [hnext, hb.freeList]
    exact hs.lists.free
  · rw [hb.nodesCreated]
    exact hs.count
  · rw [hb.nodes]
    exact hs.inUse
  · rw [hb.nodes]
    exact hs.notInUse
  · rw [Sorted, hb.nodes]
    exact hs.sorted
  · intro n hn m hm
    rw [hextent, hextent]
    exact hs.ranges.blocks n hn m hm
  · intro n hn m hm
    rw [hextent]
    exact hs.ranges.mixed n hn m hm
  · exact fun n hn => (hs.ranges.headersBelow n hn).trans (hgrows n hn)
  · intro n hn
    rw [hextent]
    exact (hs.ranges.blocksBelow n hn).trans (hgrows n hn)
  · obtain ⟨hbegun, hpos⟩ := ht.begun n hn
    exact ⟨hb.stays hbegun hpos, hpos.trans_le hb.broke⟩
  · rw [hb.nodes]
    exact ht.sized n hn

/-- What is written to a header that is in no list disturbs no block. -/
theorem Sound.scribble (hs : Sound h A F) (ht : Settled h A F) (hn : n ∉ A ++ F) (node : Node) :
    Sound (h.setNode n node) A F ∧ Settled (h.setNode n node) A F := by
  have hother : ∀ m ∈ A ++ F, (h.setNode n node).nodes m = h.nodes m := fun m hm =>
    Function.update_of_ne (ne_of_mem_of_not_mem hm hn) _ _
  have hextent : ∀ m ∈ A ++ F, (h.setNode n node).extent m = h.extent m := fun m hm => by
    rw [Heap.extent, Heap.extent, hother m hm]
  have hA : n ∉ A := fun hA => hn (List.mem_append_left F hA)
  have hF : n ∉ F := fun hF => hn (List.mem_append_right A hF)
  refine ⟨⟨hs.lists.mark hA hF node, hs.count, fun m hm => ?_, fun m hm => ?_, ?_,
    ⟨hs.ranges.headers, fun m hm k hk => ?_, fun m hm k hk => ?_, hs.ranges.headersBelow,
      fun m hm => ?_⟩⟩, ⟨ht.low, ht.top, ht.begun, fun m hm => ?_⟩⟩
  · rw [hother m (List.mem_append_left F hm)]
    exact hs.inUse m hm
  · rw [hother m (List.mem_append_right A hm)]
    exact hs.notInUse m hm
  · rw [Sorted, List.map_congr_left fun m hm =>
      congrArg Node.size (hother m (List.mem_append_right A hm))]
    exact hs.sorted
  · rw [hextent m hm, hextent k hk]
    exact hs.ranges.blocks m hm k hk
  · rw [hextent k hk]
    exact hs.ranges.mixed m hm k hk
  · rw [hextent m hm]
    exact hs.ranges.blocksBelow m hm
  · rw [hother m hm]
    exact ht.sized m hm

/-- A new header with its block, among the allocated nodes. -/
def Heap.create (h : Heap) (n block : ℤ) (size : ℕ) : Heap :=
  (({ h with nodesCreated := h.nodesCreated + 1 } : Heap).setNode n
    ⟨0, block, size, IN_USE⟩).pushAllocated n

theorem create_self (h : Heap) (n block : ℤ) (size : ℕ) :
    ((h.create n block size).nodes n).block = block ∧
      ((h.create n block size).nodes n).size = size ∧
      ((h.create n block size).nodes n).used = IN_USE := by
  simp [Heap.create, Heap.pushAllocated, Heap.setNext, Heap.setNode]

theorem create_other {m block : ℤ} {size : ℕ} (hm : m ≠ n) :
    (h.create n block size).nodes m = h.nodes m := by
  simp [Heap.create, Heap.pushAllocated, Heap.setNext, Heap.setNode, Function.update_of_ne hm]

/-- A header and a block that lie above all the others make a new allocated node. -/
theorem Sound.create (hs : Sound h A F) (ht : Settled h A F) {block : ℤ} {size : ℕ}
    (hn0 : n ≠ 0) (hb0 : block ≠ 0) (hsize : 0 < size)
    (habove : ∀ m ∈ A ++ F, (header m).2 ≤ n ∧ (h.extent m).2 ≤ n)
    (hblock : n + sizeofNode ≤ block) (hend : block + size ≤ h.mallocPtr)
    (hbegun : h.brkPtr ≠ 0 ∧ 0 < h.kernelBreak) :
    Sound (h.create n block size) (n :: A) F ∧ Settled (h.create n block size) (n :: A) F := by
  have hne : ∀ m ∈ A ++ F, m ≠ n := by
    intro m hm hmn
    have hm' := (habove m hm).1
    rw [hmn] at hm'
    simp only [header, sizeofNode] at hm'
    omega
  have hA : n ∉ A := fun hA => hne n (List.mem_append_left F hA) rfl
  have hF : n ∉ F := fun hF => hne n (List.mem_append_right A hF) rfl
  obtain ⟨hnblock, hnsize, hnused⟩ := create_self h n block size
  have hother : ∀ m ∈ A ++ F, (h.create n block size).nodes m = h.nodes m := fun m hm =>
    create_other (hne m hm)
  have hextent : ∀ m ∈ A ++ F, (h.create n block size).extent m = h.extent m := fun m hm => by
    rw [Heap.extent, Heap.extent, hother m hm]
  have hself : (h.create n block size).extent n = (block, block + size) := by
    rw [Heap.extent, hnblock, hnsize]
  have hlists : Lists ({ h with nodesCreated := h.nodesCreated + 1 } : Heap) A F :=
    ⟨hs.lists.allocated, hs.lists.free, hs.lists.apart⟩
  have hlists' : Lists (h.create n block size) (n :: A) F :=
    (hlists.mark hA hF ⟨0, block, size, IN_USE⟩).push hn0 hA hF
  have hmem : ∀ m ∈ (n :: A) ++ F, m = n ∨ m ∈ A ++ F := by
    intro m hm
    simpa only [List.cons_append, List.mem_cons] using hm
  have hcount : (h.create n block size).nodesCreated = h.nodesCreated + 1 := rfl
  have hptr : (h.create n block size).mallocPtr = h.mallocPtr := rfl
  refine ⟨⟨hlists', ?_, fun m hm => ?_, fun m hm => ?_, ?_, ⟨?_, ?_, ?_, ?_, ?_⟩⟩,
    ⟨ht.low, ht.top, fun _ _ => hbegun, fun m hm => ?_⟩⟩
  · rw [hcount, ← hs.count, List.length_cons]
    omega
  · rcases List.mem_cons.mp hm with rfl | hm
    · exact hnused
    · rw [hother m (List.mem_append_left F hm)]
      exact hs.inUse m hm
  · rw [hother m (List.mem_append_right A hm)]
    exact hs.notInUse m hm
  · rw [Sorted, List.map_congr_left fun m hm =>
      congrArg Node.size (hother m (List.mem_append_right A hm))]
    exact hs.sorted
  · intro m hm k hk hmk
    rcases hmem m hm with rfl | hm' <;> rcases hmem k hk with rfl | hk'
    · exact absurd rfl hmk
    · exact .inr (habove k hk').1
    · exact .inl (habove m hm').1
    · exact hs.ranges.headers m hm' k hk' hmk
  · intro m hm k hk hmk
    rcases hmem m hm with rfl | hm' <;> rcases hmem k hk with rfl | hk'
    · exact absurd rfl hmk
    · rw [hself, hextent k hk']
      refine .inr ((habove k hk').2.trans ?_)
      dsimp only
      omega
    · rw [hself, hextent m hm']
      refine .inl ((habove m hm').2.trans ?_)
      dsimp only
      omega
    · rw [hextent m hm', hextent k hk']
      exact hs.ranges.blocks m hm' k hk' hmk
  · intro m hm k hk
    rcases hmem m hm with rfl | hm' <;> rcases hmem k hk with rfl | hk'
    · rw [hself]
      exact .inl hblock
    · rw [hextent k hk']
      exact .inr (habove k hk').2
    · rw [hself]
      refine .inl ((habove m hm').1.trans ?_)
      dsimp only
      omega
    · rw [hextent k hk']
      exact hs.ranges.mixed m hm' k hk'
  · intro m hm
    rw [hptr]
    rcases hmem m hm with rfl | hm
    · simp only [header]
      omega
    · exact hs.ranges.headersBelow m hm
  · intro m hm
    rw [hptr]
    rcases hmem m hm with rfl | hm
    · rw [hself]
      exact hend
    · rw [hextent m hm]
      exact hs.ranges.blocksBelow m hm
  · rcases hmem m hm with rfl | hm
    · rw [hnblock, hnsize]
      exact ⟨hsize, hb0⟩
    · rw [hother m hm]
      exact ht.sized m hm

/-- A new node, or as before. -/
theorem addNew_spec (kernel : Kernel) (hs : Sound h A F) (ht : Settled h A F) {size : ℕ}
    (hsize : 0 < size) :
    ∃ h' p A', addNew kernel h size = .ok (h', p) ∧ Grants h A size h' A' F p ∧
      Quiet h A F h' A' F p := by
  obtain ⟨hb₁, hplace₁⟩ := mallocBrk_broke kernel sizeofNode ht.low ht.top
  obtain ⟨hs₁, ht₁⟩ := hs.broke ht hb₁
  obtain ⟨hb₂, hplace₂⟩ := mallocBrk_broke kernel size hb₁.low hb₁.top
  obtain ⟨hs₂, ht₂⟩ := hs₁.broke ht₁ hb₂
  have hbytes₁ := mallocBrk_bytes kernel h sizeofNode
  have hbytes₂ := mallocBrk_bytes kernel (mallocBrk kernel h sizeofNode).1 size
  rw [addNew]
  dsimp only
  generalize hn : (mallocBrk kernel h sizeofNode).2 = n at *
  generalize (mallocBrk kernel h sizeofNode).1 = h₁ at *
  generalize hblock : (mallocBrk kernel h₁ size).2 = block at *
  generalize (mallocBrk kernel h₁ size).1 = h₂ at *
  split
  · refine ⟨h₁, 0, A, rfl, ⟨hs₁, ht₁, fun m hm => ⟨hm, ?_, ?_⟩, fun h0 => absurd rfl h0⟩,
      hbytes₁, fun _ => ⟨rfl, rfl, fun m _ => by rw [hb₁.nodes]⟩⟩
    · rw [hb₁.nodes]
    · rw [hb₁.nodes]
  · rename_i hn0
    obtain ⟨hlow, habove, hend, htop⟩ := hplace₁ hn0
    have hbelow : ∀ m ∈ A ++ F, (header m).2 ≤ n ∧ (h.extent m).2 ≤ n := fun m hm =>
      ⟨(hs.ranges.headersBelow m hm).trans (habove (ht.begun m hm).1),
        (hs.ranges.blocksBelow m hm).trans (habove (ht.begun m hm).1)⟩
    have hnew : n ∉ A ++ F := by
      intro hmem
      have hm' := (hbelow n hmem).1
      simp only [header, sizeofNode] at hm'
      omega
    have hnodes : h₂.nodes = h.nodes := hb₂.nodes.trans hb₁.nodes
    split
    · rename_i hb0
      obtain ⟨hs₃, ht₃⟩ := hs₂.scribble ht₂ hnew { h₂.nodes n with block := 0 }
      have hother : ∀ m ∈ A ++ F,
          (h₂.setNode n { h₂.nodes n with block := 0 }).nodes m = h.nodes m := by
        intro m hm
        rw [Heap.setNode, ← hnodes]
        exact Function.update_of_ne (ne_of_mem_of_not_mem hm hnew) _ _
      refine ⟨_, 0, A, rfl, ⟨hs₃, ht₃, fun m hm => ?_, fun h0 => absurd rfl h0⟩,
        hbytes₂.trans hbytes₁, fun _ => ⟨rfl, rfl, hother⟩⟩
      rw [hother m (List.mem_append_left F hm)]
      exact ⟨hm, rfl, rfl⟩
    · rename_i hb0
      have hbegun₁ : h₁.brkPtr ≠ 0 := by
        simp only [sizeofNode] at hend
        omega
      obtain ⟨-, habove₂, hend₂, htop₂⟩ := hplace₂ hb0
      have hafter := habove₂ hbegun₁
      have hbegun₂ : h₂.brkPtr ≠ 0 ∧ 0 < h₂.kernelBreak := by
        have := hb₂.top
        simp only [sizeofNode] at hend
        omega
      obtain ⟨hs₃, ht₃⟩ := hs₂.create ht₂ hn0 hb0 hsize
        (fun m hm => by rw [Heap.extent, hnodes]; exact hbelow m hm) (hend ▸ hafter)
        hend₂.ge hbegun₂
      obtain ⟨hself, hfull, -⟩ := create_self h₂ n block size
      refine ⟨h₂.create n block size, ((h₂.create n block size).nodes n).block, n :: A, rfl,
        ⟨hs₃, ht₃, fun m hm => ?_, fun _ => ⟨n, List.mem_cons_self,
          fun hA => hnew (List.mem_append_left F hA), rfl, hfull.ge⟩⟩,
        hbytes₂.trans hbytes₁, fun h0 => absurd (hself.symm.trans h0) hb0⟩
      have hmn : m ≠ n := ne_of_mem_of_not_mem (List.mem_append_left F hm) hnew
      rw [create_other hmn, hnodes]
      exact ⟨List.mem_cons_of_mem n hm, rfl, rfl⟩

end Veron.Malloc
