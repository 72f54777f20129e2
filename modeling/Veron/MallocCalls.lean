/-
Sequences of calls of the allocator by a program that gives back only what it has.
-/
import Veron.MallocRealloc

namespace Veron.Malloc

variable {h h' : Heap} {A F : List ℤ} {n p : ℤ}

theorem toInt_le_toUInt32 (x : Int32) : x.toInt.toNat ≤ x.toUInt32.toNat := by
  have hbits : x.toInt = x.toUInt32.toBitVec.toInt := rfl
  rw [hbits, BitVec.toInt_eq_toNat_cond, ← UInt32.toNat_toBitVec]
  split <;> omega

theorem calloc_spec (kernel : Kernel) (hs : Sound h A F) (ht : Settled h A F)
    (count size : Int32) :
    ∃ h' p A' F', calloc kernel h count size = .ok (h', p) ∧
      Grants h A (count * size).toInt.toNat h' A' F' p := by
  obtain ⟨h₁, p, A', F', hmalloc, hgrants, -⟩ :=
    malloc_spec kernel hs ht (count * size).toUInt32
  have hsmaller := hgrants.smaller (toInt_le_toUInt32 (count * size))
  rw [calloc, hmalloc]
  by_cases hp : p = 0
  · subst hp
    exact ⟨h₁, 0, A', F', rfl, hsmaller⟩
  · obtain ⟨hs', ht'⟩ := hgrants.sound.bytes hgrants.settled
      (memset h₁ p 0 (count * size).toInt.toNat).bytes
    exact ⟨memset h₁ p 0 (count * size).toInt.toNat, p, A', F', if_neg hp,
      ⟨hs', ht', hsmaller.kept, hsmaller.granted⟩⟩

/-- The blocks `realloc` does not move, and the one it returns. -/
structure Reallocs (h : Heap) (A : List ℤ) (p : ℤ) (size : ℕ) (h' : Heap) (A' F' : List ℤ)
    (q : ℤ) : Prop where
  sound : Sound h' A' F'
  settled : Settled h' A' F'
  kept : ∀ m ∈ A, (h.nodes m).block ≠ p ∨ q = 0 → m ∈ A' ∧
    (h'.nodes m).block = (h.nodes m).block ∧ (h'.nodes m).size = (h.nodes m).size
  granted : q ≠ 0 → ∃ n ∈ A', (h'.nodes n).block = q ∧ size ≤ (h'.nodes n).size

theorem realloc_spec (kernel : Kernel) (hs : Sound h A F) (ht : Settled h A F) (size : UInt32)
    (hsize : size ≠ 0) (hp : p = 0 ∨ ∃ n ∈ A, (h.nodes n).block = p) :
    ∃ h' q A' F', realloc kernel h p size = .ok (h', q) ∧
      Reallocs h A p size.toNat h' A' F' q := by
  rcases hp with rfl | ⟨n, hn, rfl⟩
  · obtain ⟨h₁, q, A', F', hmalloc, hgrants, -⟩ := malloc_spec kernel hs ht size
    refine ⟨h₁, q, A', F', realloc_null kernel hsize hmalloc, hgrants.sound, hgrants.settled,
      fun m hm _ => hgrants.kept m hm, fun hq => ?_⟩
    obtain ⟨n, hn, -, hblock, hle⟩ := hgrants.granted hq
    exact ⟨n, hn, hblock, hle⟩
  · obtain ⟨h', q, A', F', hrealloc, hr⟩ := realloc_resizes kernel hs ht hn hsize
    refine ⟨h', q, A', F', hrealloc, hr.sound, hr.settled, fun m hm hmoved => ?_, fun hq => ?_⟩
    · by_cases hmn : m = n
      · subst hmn
        obtain ⟨rfl, -, hkeeps⟩ := hr.refused (hmoved.resolve_left (not_not.mpr rfl))
        have hkeep := hkeeps m (List.mem_append_left F hm)
        exact ⟨hm, hkeep.block, hkeep.size⟩
      · obtain ⟨hm', hkeep⟩ := hr.others m hm hmn
        exact ⟨hm', hkeep.block, hkeep.size⟩
    · obtain ⟨k, hk, hblock, hle, -⟩ := hr.granted hq
      exact ⟨k, hk, hblock, hle⟩

/-- Each pointer the program has is to an allocated block, large enough. -/
def Holds (h : Heap) (A : List ℤ) (live : List (ℤ × ℕ)) : Prop :=
  ∀ q ∈ live, ∃ n ∈ A, (h.nodes n).block = q.1 ∧ q.2 ≤ (h.nodes n).size

/-- The two lists are disjoint, end, and have all nodes there are; the marks match the
list; the free list is sorted; headers and blocks are pairwise apart and below
`_malloc_ptr`; and the program's blocks are as large as asked. -/
def WellFormed (w : World) : Prop :=
  ∃ A F, Sound w.heap A F ∧ Holds w.heap A w.live

structure Inv (w : World) (A F : List ℤ) : Prop where
  sound : Sound w.heap A F
  settled : Settled w.heap A F
  holds : Holds w.heap A w.live

theorem Holds.drop {w : World} (hw : Holds w.heap A w.live) {A' : List ℤ}
    (hkept : ∀ m ∈ A, (w.heap.nodes m).block ≠ p → m ∈ A' ∧
      (h'.nodes m).block = (w.heap.nodes m).block ∧
      (h'.nodes m).size = (w.heap.nodes m).size) : Holds h' A' (w.drop p) := by
  intro q hq
  obtain ⟨hlive, hne⟩ := List.mem_filter.mp hq
  obtain ⟨n, hn, hblock, hle⟩ := hw q hlive
  obtain ⟨hn', hblock', hsize'⟩ := hkept n hn (by rw [hblock]; simpa using hne)
  exact ⟨n, hn', hblock'.trans hblock, hsize' ▸ hle⟩

theorem Holds.grants {live : List (ℤ × ℕ)} {A' F' : List ℤ} {size : ℕ}
    (hlive : Holds h A live) (hg : Grants h A size h' A' F' p) :
    Holds h' A' (if p = 0 then live else (p, size) :: live) := by
  have hold : Holds h' A' live := by
    intro q hq
    obtain ⟨n, hn, hblock, hle⟩ := hlive q hq
    obtain ⟨hn', hblock', hsize'⟩ := hg.kept n hn
    exact ⟨n, hn', hblock'.trans hblock, hsize' ▸ hle⟩
  split
  · exact hold
  · rename_i hp
    intro q hq
    rcases List.mem_cons.mp hq with rfl | hq
    · obtain ⟨n, hn, -, hblock, hle⟩ := hg.granted hp
      exact ⟨n, hn, hblock, hle⟩
    · exact hold q hq

/-- A legal call returns and keeps all this. -/
theorem call_inv (kernel : Kernel) {w : World} (hw : Inv w A F) {c : Call} (hc : c.Legal w) :
    ∃ w' A' F', w.call kernel c = .ok w' ∧ Inv w' A' F' := by
  have hknown : ∀ ptr, ptr = 0 ∨ ptr ∈ w.live.map Prod.fst →
      ptr = 0 ∨ ∃ n ∈ A, (w.heap.nodes n).block = ptr := by
    intro ptr hptr
    refine hptr.imp_right fun hmem => ?_
    obtain ⟨q, hq, rfl⟩ := List.mem_map.mp hmem
    obtain ⟨n, hn, hblock, -⟩ := hw.holds q hq
    exact ⟨n, hn, hblock⟩
  have hfreed : ∀ ptr, ptr = 0 ∨ ptr ∈ w.live.map Prod.fst →
      ∃ h' A' F', free w.heap ptr = .ok h' ∧ Inv ⟨h', w.drop ptr⟩ A' F' := by
    intro ptr hptr
    rcases hknown ptr hptr with rfl | ⟨n, hn, hblock⟩
    · exact ⟨w.heap, A, F, rfl, hw.sound, hw.settled,
        hw.holds.drop fun m hm _ => ⟨hm, rfl, rfl⟩⟩
    · obtain ⟨h', A', F', hfree, hkept, -, hs', ht', hsame⟩ :=
        free_spec hw.sound hw.settled hn hblock
      refine ⟨h', A', F', hfree, hs', ht', hw.holds.drop fun m hm hmp => ?_⟩
      have hmn : m ≠ n := fun hmn => hmp (hmn ▸ hblock)
      exact ⟨hkept m hm hmn, hsame.block m, hsame.size m⟩
  cases c with
  | malloc size =>
      obtain ⟨h', p, A', F', hmalloc, hgrants, -⟩ :=
        malloc_spec kernel hw.sound hw.settled size
      refine ⟨⟨h', if p = 0 then w.live else (p, size.toNat) :: w.live⟩, A', F', ?_,
        hgrants.sound, hgrants.settled, hw.holds.grants hgrants⟩
      rw [World.call, hmalloc]
      rfl
  | calloc count size =>
      obtain ⟨h', p, A', F', hcalloc, hgrants⟩ :=
        calloc_spec kernel hw.sound hw.settled count size
      have hproduct : (count * size).toInt = count.toInt * size.toInt := hc
      rw [hproduct] at hgrants
      refine ⟨⟨h', if p = 0 then w.live else (p, (count.toInt * size.toInt).toNat) :: w.live⟩,
        A', F', ?_, hgrants.sound, hgrants.settled, hw.holds.grants hgrants⟩
      rw [World.call, hcalloc]
      rfl
  | free ptr =>
      obtain ⟨h', A', F', hfree, hinv⟩ := hfreed ptr hc
      refine ⟨_, A', F', ?_, hinv⟩
      rw [World.call, hfree]
      rfl
  | realloc ptr size =>
      by_cases hsize : size = 0
      · obtain ⟨h', A', F', hfree, hinv⟩ := hfreed ptr hc
        refine ⟨⟨h', w.drop ptr⟩, A', F', ?_, hinv⟩
        have hrealloc : realloc kernel w.heap ptr size = .ok (h', 0) := by
          rw [realloc, if_pos hsize]
          by_cases hp : ptr = 0
          · subst hp
            rw [free, if_pos rfl] at hfree
            cases hfree
            rfl
          · rw [if_pos hp, hfree]
            rfl
        rw [World.call, hrealloc]
        exact congrArg (fun live => Except.ok (World.mk h' live)) (if_pos hsize)
      · obtain ⟨h', q, A', F', hrealloc, hr⟩ :=
          realloc_spec kernel hw.sound hw.settled size hsize (hknown ptr hc)
        refine ⟨⟨h', if q = 0 then w.live else (q, size.toNat) :: w.drop ptr⟩, A', F', ?_,
          hr.sound, hr.settled, ?_⟩
        · rw [World.call, hrealloc]
          exact congrArg (fun live => Except.ok (World.mk h' live)) (if_neg hsize)
        · split
          · rename_i hq
            intro r hlive
            obtain ⟨n, hn, hblock, hle⟩ := hw.holds r hlive
            obtain ⟨hn', hblock', hsize'⟩ := hr.kept n hn (.inr hq)
            exact ⟨n, hn', hblock'.trans hblock, hsize' ▸ hle⟩
          · rename_i hq
            intro r hlive
            rcases List.mem_cons.mp hlive with rfl | hlive
            · exact hr.granted hq
            · exact hw.holds.drop (fun m hm hmp => hr.kept m hm (.inl hmp)) r hlive

theorem start_inv (bytes : ℤ → UInt8) (kernelBreak : ℕ) :
    Inv ⟨Heap.start bytes kernelBreak, []⟩ [] [] := by
  refine ⟨⟨⟨rfl, rfl, by simp⟩, rfl, by simp, by simp, List.Pairwise.nil, ?_⟩,
    ⟨by simp [Heap.start], by simp [Heap.start], by simp, by simp⟩, fun q hq => by cases hq⟩
  exact ⟨by simp, by simp, by simp, by simp, by simp⟩

theorem calls_inv (kernel : Kernel) {w : World} (hw : Inv w A F) (cs : List Call)
    (hlegal : LegalCalls kernel w cs) :
    ∃ w' A' F', w.calls kernel cs = .ok w' ∧ Inv w' A' F' := by
  induction cs generalizing w A F with
  | nil => exact ⟨w, A, F, rfl, hw⟩
  | cons c cs ih =>
      obtain ⟨w₁, A₁, F₁, hcall, hw₁⟩ := call_inv kernel hw hlegal.1
      obtain ⟨w₂, A₂, F₂, hcalls, hw₂⟩ := ih hw₁ (hlegal.2 w₁ hcall)
      refine ⟨w₂, A₂, F₂, ?_, hw₂⟩
      rw [World.calls, List.foldlM_cons, hcall]
      exact hcalls

/-- Any sequence of legal calls returns, and leaves the allocator well formed. -/
theorem calls_wellFormed (kernel : Kernel) (bytes : ℤ → UInt8) (kernelBreak : ℕ)
    (cs : List Call) (hlegal : LegalCalls kernel ⟨Heap.start bytes kernelBreak, []⟩ cs) :
    ∃ w, World.calls kernel ⟨Heap.start bytes kernelBreak, []⟩ cs = .ok w ∧ WellFormed w := by
  obtain ⟨w, A, F, hcalls, hw⟩ := calls_inv kernel (start_inv bytes kernelBreak) cs hlegal
  exact ⟨w, hcalls, A, F, hw.sound, hw.holds⟩

/-- A kernel that starts the break at 4096 and then moves it by a page whenever asked. -/
def pages : Kernel := fun k _ => if k = 0 then some 0 else some 4096

theorem calls_wellFormed_sample :
    ∃ w, World.calls pages ⟨Heap.start (fun _ => 0) 4096, []⟩
      [.malloc 10, .malloc 300, .free 4128, .realloc 0 100] = .ok w ∧ WellFormed w := by
  apply calls_wellFormed
  refine ⟨trivial, fun w₁ h₁ => ⟨trivial, fun w₂ h₂ => ?_⟩⟩
  cases h₁
  cases h₂
  refine ⟨.inr ?_, fun w₃ h₃ => ⟨.inl rfl, fun _ _ => trivial⟩⟩
  decide

/-- After any sequence of legal calls, and whatever the program has written, `realloc` of a
live block to a size that is not 0 returns, and leaves the blocks as `Resizes` says. -/
theorem realloc_correct (kernel : Kernel) (start : ℤ → UInt8) (kernelBreak : ℕ) (cs : List Call)
    (hlegal : LegalCalls kernel ⟨Heap.start start kernelBreak, []⟩ cs) {w : World}
    (hcalls : World.calls kernel ⟨Heap.start start kernelBreak, []⟩ cs = .ok w)
    (bytes : ℤ → UInt8) {p : ℤ} (hp : p ∈ w.live.map Prod.fst) {size : UInt32} (hsize : size ≠ 0) :
    ∃ A F n, Sound { w.heap with bytes := bytes } A F ∧ n ∈ A ∧ (w.heap.nodes n).block = p ∧
      ∃ h' q A' F', realloc kernel { w.heap with bytes := bytes } p size = .ok (h', q) ∧
        Resizes { w.heap with bytes := bytes } A F n size.toNat h' A' F' q := by
  obtain ⟨w', A, F, hcalls', hw⟩ := calls_inv kernel (start_inv start kernelBreak) cs hlegal
  cases hcalls.symm.trans hcalls'
  obtain ⟨r, hr, rfl⟩ := List.mem_map.mp hp
  obtain ⟨n, hn, hblock, -⟩ := hw.holds r hr
  obtain ⟨hs, ht⟩ := hw.sound.bytes hw.settled bytes
  have hresized := realloc_resizes kernel hs ht hn hsize
  rw [← hblock]
  exact ⟨A, F, n, hs, hn, rfl, hresized⟩

/-- A block of 256 bytes when 600 are asked for. -/
theorem realloc_correct_sample :
    ∃ w, World.calls pages ⟨Heap.start (fun _ => 0) 4096, []⟩ [.malloc 10] = .ok w ∧
      ∃ A F n, Sound { w.heap with bytes := fun _ => 7 } A F ∧ n ∈ A ∧
        (w.heap.nodes n).block = 4128 ∧
        ∃ h' q A' F', realloc pages { w.heap with bytes := fun _ => 7 } 4128 600 = .ok (h', q) ∧
          Resizes { w.heap with bytes := fun _ => 7 } A F n 600 h' A' F' q := by
  have hlegal : LegalCalls pages ⟨Heap.start (fun _ => 0) 4096, []⟩ [.malloc 10] :=
    ⟨trivial, fun _ _ => trivial⟩
  refine ⟨_, rfl, ?_⟩
  exact realloc_correct pages (fun _ => 0) 4096 [.malloc 10] hlegal rfl (fun _ => 7) (by decide)
    (show (600 : UInt32) ≠ 0 by decide)

end Veron.Malloc
