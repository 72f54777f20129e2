/-
What `realloc` of a block leaves: where the blocks are, and what is in them.
-/
import Veron.MallocSound

namespace Veron.Malloc

variable {h h' : Heap} {A F : List ℤ} {n p : ℤ}

theorem standardSize_fits {size doublings used got : ℕ} (hused : 0 < used)
    (h : standardSize size doublings used = some got) : size ≤ got ∧ 0 < got := by
  induction doublings generalizing used with
  | zero => cases h
  | succ doublings ih =>
      rw [standardSize] at h
      split at h
      · split at h
        · cases h
        · exact ih (by omega) h
      · rename_i hfits
        cases h
        exact ⟨not_lt.mp hfits, hused⟩

theorem Grants.none (hs : Sound h A F) (ht : Settled h A F) (size : ℕ) :
    Grants h A size h A F 0 :=
  ⟨hs, ht, fun _ hm => ⟨hm, rfl, rfl⟩, fun h0 => absurd rfl h0⟩

theorem Grants.smaller {A' F' : List ℤ} {size size' : ℕ} (hg : Grants h A size h' A' F' p)
    (hle : size' ≤ size) : Grants h A size' h' A' F' p := by
  refine ⟨hg.sound, hg.settled, hg.kept, fun hp => ?_⟩
  obtain ⟨n, hn, hnew, hblock, hsize⟩ := hg.granted hp
  exact ⟨n, hn, hnew, hblock, hle.trans hsize⟩

theorem malloc_spec (kernel : Kernel) (hs : Sound h A F) (ht : Settled h A F) (size : UInt32) :
    ∃ h' p A' F', malloc kernel h size = .ok (h', p) ∧ Grants h A size.toNat h' A' F' p ∧
      Quiet h A F h' A' F' p := by
  rw [malloc]
  split
  · exact ⟨h, 0, A, F, rfl, .none hs ht _, .none h A F⟩
  · split
    · exact ⟨h, 0, A, F, rfl, .none hs ht _, .none h A F⟩
    · rename_i used hused
      obtain ⟨hfits, hpos⟩ := standardSize_fits (by decide) hused
      obtain ⟨h₁, p, hfind, hgot⟩ := findFree_spec hs ht used
      rw [hfind]
      rcases hgot with ⟨rfl, rfl⟩ | ⟨A', F', hp, hgrants, hquiet⟩
      · obtain ⟨h₂, p, A', hnew, hgrants, hquiet⟩ := addNew_spec kernel hs ht hpos
        exact ⟨h₂, p, A', F, hnew, hgrants.smaller hfits, hquiet⟩
      · exact ⟨h₁, p, A', F', if_neg hp, hgrants.smaller hfits, hquiet⟩

/-- The bytes in the blocks are the program's. -/
theorem Sound.bytes (hs : Sound h A F) (ht : Settled h A F) (bytes : ℤ → UInt8) :
    Sound { h with bytes := bytes } A F ∧ Settled { h with bytes := bytes } A F :=
  ⟨⟨⟨hs.lists.allocated, hs.lists.free, hs.lists.apart⟩, hs.count, hs.inUse, hs.notInUse,
    hs.sorted, ⟨hs.ranges.headers, hs.ranges.blocks, hs.ranges.mixed, hs.ranges.headersBelow,
      hs.ranges.blocksBelow⟩⟩, ⟨ht.low, ht.top, ht.begun, ht.sized⟩⟩

/-- Copying to a place apart from the old one. -/
theorem copy_bytes (h : Heap) {q : ℤ} {size : ℕ} (hapart : Apart (p, p + size) (q, q + size))
    (x : ℤ) :
    (copy h q p size).bytes x =
      if q ≤ x ∧ x < q + size then h.bytes (p + (x - q)) else h.bytes x := by
  induction size generalizing x with
  | zero =>
      rw [if_neg (by simp)]
      rfl
  | succ size ih =>
      have hbefore : Apart (p, p + size) (q, q + size) := by
        simp only [Apart] at hapart ⊢
        omega
      have hsource : (copy h q p size).bytes (p + size) = h.bytes (p + size) := by
        rw [ih hbefore, if_neg]
        simp only [Apart] at hapart
        omega
      have hstep : (copy h q p (size + 1)).bytes =
          Function.update (copy h q p size).bytes (q + size) (h.bytes (p + size)) := by
        rw [← hsource]
        simp [copy, List.range_succ]
      rw [hstep]
      by_cases hx : x = q + size
      · subst hx
        rw [Function.update_self, if_pos (by omega), add_sub_cancel_left]
      · rw [Function.update_of_ne hx, ih hbefore]
        refine if_congr ?_ rfl rfl
        omega

/-- What is in the block of a node. -/
def Heap.contents (h : Heap) (n : ℤ) : List UInt8 :=
  (List.range (h.nodes n).size).map fun k : ℕ => h.bytes ((h.nodes n).block + k)

theorem Heap.contents_take {size : ℕ} (hsize : size ≤ (h.nodes n).size) :
    (h.contents n).take size =
      (List.range size).map fun k : ℕ => h.bytes ((h.nodes n).block + k) := by
  rw [contents, ← List.map_take, List.take_range, min_eq_left hsize]

/-- The node has its block, and the block what was in it. -/
structure Keeps (h h' : Heap) (n : ℤ) : Prop where
  block : (h'.nodes n).block = (h.nodes n).block
  size : (h'.nodes n).size = (h.nodes n).size
  contents : h'.contents n = h.contents n

theorem Keeps.refl (h : Heap) (n : ℤ) : Keeps h h n := ⟨rfl, rfl, rfl⟩

theorem Keeps.of_bytes (hblock : (h'.nodes n).block = (h.nodes n).block)
    (hsize : (h'.nodes n).size = (h.nodes n).size)
    (hbytes : ∀ k < (h.nodes n).size,
      h'.bytes ((h.nodes n).block + k) = h.bytes ((h.nodes n).block + k)) : Keeps h h' n := by
  refine ⟨hblock, hsize, ?_⟩
  rw [Heap.contents, Heap.contents, hblock, hsize]
  exact List.map_congr_left fun k hk => hbytes k (List.mem_range.mp hk)

section Realloc

variable (kernel : Kernel) {h₁ h₂ : Heap} {q last last' m : ℤ} {size : UInt32}

theorem realloc_null (hsize : size ≠ 0) (hmalloc : malloc kernel h size = .ok (h₁, q)) :
    realloc kernel h 0 size = .ok (h₁, q) := by
  rw [realloc, if_neg hsize, if_neg (not_not.mpr rfl)]
  have hnone : ¬ ((0 : ℤ) ≠ 0 ∧ size.toNat ≤ (h.nodes 0).size) := fun hfound => hfound.1 rfl
  refine (if_neg (t := .ok (h, (0 : ℤ))) hnone).trans ?_
  rw [hmalloc]
  exact if_pos (.inl rfl)

theorem realloc_keep (hsize : size ≠ 0) (hp : p ≠ 0) (hn : n ≠ 0)
    (hwalk : (h.walk h.allocatedList fun i => (h.nodes i).block = p) = .ok (n, last))
    (hfits : size.toNat ≤ (h.nodes n).size) : realloc kernel h p size = .ok (h, p) := by
  rw [realloc, if_neg hsize, if_pos hp, hwalk]
  exact if_pos ⟨hn, hfits⟩

/-- A block that is too small is copied into a new one and freed. -/
theorem realloc_move (hsize : size ≠ 0) (hp : p ≠ 0)
    (hwalk : (h.walk h.allocatedList fun i => (h.nodes i).block = p) = .ok (n, last))
    (hshort : ¬ size.toNat ≤ (h.nodes n).size)
    (hmalloc : malloc kernel h size = .ok (h₁, q)) (hq : q ≠ 0)
    (hwalk₁ : (h₁.walk h₁.allocatedList fun i => (h₁.nodes i).block = p) = .ok (m, last'))
    (hm : m ≠ 0) (hold : (h₁.nodes m).size ≠ 0)
    (hfree : free (copy h₁ q p (if size.toNat < (h₁.nodes m).size then size.toNat
      else (h₁.nodes m).size)) p = .ok h₂) :
    realloc kernel h p size = .ok (h₂, q) := by
  rw [realloc, if_neg hsize, if_pos hp, hwalk]
  show (if n ≠ 0 ∧ _ then _ else _) = _
  rw [if_neg fun hfound => hshort hfound.2, hmalloc]
  show (if p = 0 ∨ q = 0 then _ else _) = _
  rw [if_neg (not_or.mpr ⟨hp, hq⟩), hwalk₁]
  show (if (if m = 0 then 0 else (h₁.nodes m).size) = 0 then _ else _) = _
  rw [if_neg hm, if_neg hold, hfree]
  rfl

theorem realloc_refused (hsize : size ≠ 0) (hp : p ≠ 0)
    (hwalk : (h.walk h.allocatedList fun i => (h.nodes i).block = p) = .ok (n, last))
    (hshort : ¬ size.toNat ≤ (h.nodes n).size)
    (hmalloc : malloc kernel h size = .ok (h₁, 0)) :
    realloc kernel h p size = .ok (h₁, 0) := by
  rw [realloc, if_neg hsize, if_pos hp, hwalk]
  show (if n ≠ 0 ∧ _ then _ else _) = _
  rw [if_neg fun hfound => hshort hfound.2, hmalloc]
  exact if_pos (.inr rfl)

end Realloc

/-- What `realloc` of the block of `n` to a size that is not 0 leaves.  When it returns NULL,
all is as it was; otherwise the block it returns begins as the old one did, and the old
one is either that or free.  The other blocks are not touched. -/
structure Resizes (h : Heap) (A F : List ℤ) (n : ℤ) (size : ℕ) (h' : Heap) (A' F' : List ℤ)
    (q : ℤ) : Prop where
  sound : Sound h' A' F'
  settled : Settled h' A' F'
  refused : q = 0 → A' = A ∧ F' = F ∧ ∀ m ∈ A ++ F, Keeps h h' m
  granted : q ≠ 0 → ∃ k ∈ A', (h'.nodes k).block = q ∧ size ≤ (h'.nodes k).size ∧
    (h'.contents k).take (min (h.nodes n).size size) =
      (h.contents n).take (min (h.nodes n).size size)
  others : ∀ m ∈ A, m ≠ n → m ∈ A' ∧ Keeps h h' m
  stays : q ≠ 0 → ((∃ k ∈ A', (h'.nodes k).block = (h.nodes n).block) ↔ q = (h.nodes n).block)
  freed : q ≠ 0 → q ≠ (h.nodes n).block → n ∈ F' ∧ (h'.nodes n).block = (h.nodes n).block

theorem Resizes.keep (hs : Sound h A F) (ht : Settled h A F) (hn : n ∈ A) {size : ℕ}
    (hfits : size ≤ (h.nodes n).size) : Resizes h A F n size h A F (h.nodes n).block := by
  refine ⟨hs, ht, fun _ => ⟨rfl, rfl, fun m _ => .refl h m⟩, fun _ => ?_,
    fun m hm _ => ⟨hm, .refl h m⟩, fun _ => ?_, fun _ hne => absurd rfl hne⟩
  · exact ⟨n, hn, rfl, hfits, rfl⟩
  · exact ⟨fun _ => rfl, fun _ => ⟨n, hn, rfl⟩⟩

theorem Resizes.refuse {A' F' : List ℤ} {size : ℕ} (hg : Grants h A size h' A' F' 0)
    (hquiet : Quiet h A F h' A' F' 0) : Resizes h A F n size h' A' F' 0 := by
  obtain ⟨hA, hF, hnodes⟩ := hquiet.refused rfl
  have hkeeps : ∀ m ∈ A ++ F, Keeps h h' m := by
    intro m hm
    refine .of_bytes ?_ ?_ ?_
    · rw [hnodes m hm]
    · rw [hnodes m hm]
    · intro k _
      rw [hquiet.bytes]
  refine ⟨hg.sound, hg.settled, fun _ => ⟨hA, hF, hkeeps⟩, fun h0 => absurd rfl h0,
    fun m hm _ => ⟨(hg.kept m hm).1, hkeeps m (List.mem_append_left F hm)⟩,
    fun h0 => absurd rfl h0, fun h0 => absurd rfl h0⟩

/-- The old block is copied to a new one, and its node goes to the free list. -/
theorem Resizes.move {h₁ h₂ : Heap} {A₁ F₁ A' F' : List ℤ} {size : ℕ} {q : ℤ}
    (ht : Settled h A F) (hn : n ∈ A) (hshort : (h.nodes n).size < size)
    (hg : Grants h A size h₁ A₁ F₁ q) (hquiet : Quiet h A F h₁ A₁ F₁ q) (hq : q ≠ 0)
    (hcopy : h₂ = copy h₁ q (h.nodes n).block (h.nodes n).size)
    (hkept : ∀ m ∈ A₁, m ≠ n → m ∈ A') (hfreed : n ∈ F') (hs' : Sound h' A' F')
    (ht' : Settled h' A' F') (hsame : Relinked h₂ h') : Resizes h A F n size h' A' F' q := by
  obtain ⟨k, hk, hnew, hkblock, hksize⟩ := hg.granted hq
  have hkn : k ≠ n := fun hkn => hnew (hkn ▸ hn)
  have hnodes : ∀ m ∈ A, (h'.nodes m).block = (h.nodes m).block ∧
      (h'.nodes m).size = (h.nodes m).size := by
    intro m hm
    obtain ⟨-, hblock, hsize⟩ := hg.kept m hm
    rw [hsame.block, hsame.size, hcopy]
    exact ⟨hblock, hsize⟩
  have hkblock' : (h'.nodes k).block = q := by
    rw [hsame.block, hcopy]
    exact hkblock
  have hksize' : size ≤ (h'.nodes k).size := by
    rw [hsame.size, hcopy]
    exact hksize
  -- a block from before is not where the new one is
  have hapart : ∀ m ∈ A, Apart (h.extent m) (h₁.extent k) := by
    intro m hm
    obtain ⟨hm₁, hblock, hsize⟩ := hg.kept m hm
    have hmk : m ≠ k := fun hmk => hnew (hmk ▸ hm)
    have := hg.sound.ranges.blocks m (List.mem_append_left F₁ hm₁) k
      (List.mem_append_left F₁ hk) hmk
    rwa [Heap.extent, hblock, hsize] at this
  have hfrom : Apart ((h.nodes n).block, (h.nodes n).block + (h.nodes n).size)
      (q, q + (h.nodes n).size) := by
    have := hapart n hn
    simp only [Apart, Heap.extent, hkblock] at this ⊢
    omega
  have hbytes : ∀ x, h'.bytes x =
      if q ≤ x ∧ x < q + (h.nodes n).size then h.bytes ((h.nodes n).block + (x - q))
      else h.bytes x := by
    intro x
    rw [hsame.bytes, hcopy, copy_bytes h₁ hfrom, hquiet.bytes]
  have hqn : q ≠ (h.nodes n).block := by
    intro heq
    have hpos := (ht.sized n (List.mem_append_left F hn)).1
    have := hapart n hn
    simp only [Apart, Heap.extent, hkblock, heq] at this
    omega
  refine ⟨hs', ht', fun h0 => absurd h0 hq, fun _ => ⟨k, hkept k hk hkn, hkblock', hksize', ?_⟩,
    fun m hm hmn => ⟨hkept m (hg.kept m hm).1 hmn, ?_⟩,
    fun _ => ⟨fun hlive => ?_, fun heq => absurd heq hqn⟩, fun _ _ => ⟨hfreed, (hnodes n hn).1⟩⟩
  · rw [min_eq_left hshort.le, Heap.contents_take (hshort.le.trans hksize'),
      Heap.contents_take le_rfl]
    refine List.map_congr_left fun j hj => ?_
    have := List.mem_range.mp hj
    rw [hkblock', hbytes, if_pos (by omega), add_sub_cancel_left]
  · refine .of_bytes (hnodes m hm).1 (hnodes m hm).2 fun j hj => ?_
    have := hapart m hm
    simp only [Apart, Heap.extent, hkblock] at this
    rw [hbytes, if_neg (by omega)]
  · obtain ⟨m, hm, hblock⟩ := hlive
    have hmn : m = n := hs'.block_inj ht' (List.mem_append_left F' hm)
      (List.mem_append_right A' hfreed) (hblock.trans (hnodes n hn).1.symm)
    exact absurd hfreed (hs'.lists.apart n (hmn ▸ hm))

/-- `realloc` of an allocated block returns. -/
theorem realloc_resizes (kernel : Kernel) (hs : Sound h A F) (ht : Settled h A F) (hn : n ∈ A)
    {size : UInt32} (hsize : size ≠ 0) :
    ∃ h' q A' F', realloc kernel h (h.nodes n).block size = .ok (h', q) ∧
      Resizes h A F n size.toNat h' A' F' q := by
  have hn0 : n ≠ 0 := hs.lists.allocated.ne_null hn
  have hp : (h.nodes n).block ≠ 0 := (ht.sized n (List.mem_append_left F hn)).2
  obtain ⟨a, b, -, hwalk⟩ := walk_block hs ht hn rfl
  by_cases hfits : size.toNat ≤ (h.nodes n).size
  · exact ⟨h, _, A, F, realloc_keep kernel hsize hp hn0 hwalk hfits, .keep hs ht hn hfits⟩
  obtain ⟨h₁, q, A₁, F₁, hmalloc, hgrants, hquiet⟩ := malloc_spec kernel hs ht size
  by_cases hq : q = 0
  · subst hq
    exact ⟨h₁, 0, A₁, F₁, realloc_refused kernel hsize hp hwalk hfits hmalloc,
      .refuse hgrants hquiet⟩
  -- the old block is still there after the new one has been found
  obtain ⟨hn₁, hblock₁, hsize₁⟩ := hgrants.kept n hn
  obtain ⟨a₁, b₁, -, hwalk₁⟩ := walk_block hgrants.sound hgrants.settled hn₁ hblock₁
  have hold : (h₁.nodes n).size ≠ 0 :=
    (hgrants.settled.sized n (List.mem_append_left F₁ hn₁)).1.ne'
  generalize hcopied : copy h₁ q (h.nodes n).block (h.nodes n).size = h₂
  obtain ⟨hs₂, ht₂⟩ : Sound h₂ A₁ F₁ ∧ Settled h₂ A₁ F₁ := by
    rw [← hcopied]
    exact hgrants.sound.bytes hgrants.settled _
  have hblock₂ : (h₂.nodes n).block = (h.nodes n).block := by
    rw [← hcopied]
    exact hblock₁
  obtain ⟨h₃, A', F', hfree, hkept, hfreed, hs', ht', hsame⟩ := free_spec hs₂ ht₂ hn₁ hblock₂
  refine ⟨h₃, q, A', F', realloc_move kernel hsize hp hwalk hfits hmalloc hq hwalk₁ hn0 hold ?_,
    .move ht hn (not_le.mp hfits) hgrants hquiet hq hcopied.symm hkept hfreed hs' ht' hsame⟩
  rw [hsize₁, if_neg fun hless => hfits hless.le, hcopied]
  exact hfree

end Veron.Malloc
