/-
The allocator of M2libc: blocks behind headers of their own, which move between a
list of the allocated ones and a list of the free ones, smallest first.  Addresses
are integers and NULL is 0.  The check of the lists is not armed.
-/
import Mathlib.Algebra.Group.Nat.Defs
import Mathlib.Data.List.Defs
import Veron.IntrusiveList

namespace Veron.Malloc

open IntrusiveList

def IN_USE : ℕ := 1

def NOT_IN_USE : ℕ := 0

/-- `struct _malloc_node`. -/
structure Node where
  next : ℤ
  block : ℤ
  size : ℕ
  used : ℕ
deriving DecidableEq

/-- Four words. -/
def sizeofNode : ℕ := 32

/-- The memory and the variables of the allocator, and the kernel's break. -/
structure Heap where
  nodes : ℤ → Node
  bytes : ℤ → UInt8
  allocatedList : ℤ
  freeList : ℤ
  nodesCreated : ℕ
  mallocPtr : ℤ
  brkPtr : ℤ
  kernelBreak : ℕ
  brkCalls : ℕ

/-- What keeps a call from returning. -/
inductive Stop where
  | died (why : String) (value : ℤ)
  | hangs
deriving DecidableEq

/-- The kernel: to each call of `brk`, and to the address it is given, how far it
moves the break, or that it fails. -/
abbrev Kernel := ℕ → ℤ → Option ℕ

section Kernel

variable (kernel : Kernel)

def brk (h : Heap) (addr : ℤ) : Heap × ℤ :=
  match kernel h.brkCalls addr with
  | none => ({ h with brkCalls := h.brkCalls + 1 }, -1)
  | some grown =>
      ({ h with kernelBreak := h.kernelBreak + grown, brkCalls := h.brkCalls + 1 },
        (h.kernelBreak + grown : ℕ))

/-- The first part of `_malloc_brk`: where the break is. -/
def findBreak (h : Heap) : Heap :=
  if h.brkPtr = 0 then
    let (h, addr) := brk kernel h 0
    { h with brkPtr := addr, mallocPtr := addr }
  else h

/-- The second: move the break up where needed, and whether that did it. -/
def moveBreak (h : Heap) (size : ℕ) : Heap × Bool :=
  if h.brkPtr < h.mallocPtr + size then
    let oldBrk := h.brkPtr
    let (h, addr) := brk kernel h (h.mallocPtr + size)
    let h := { h with brkPtr := addr }
    (h, addr ≠ -1 ∧ addr ≠ oldBrk ∧ ¬ addr < h.mallocPtr + size)
  else (h, true)

def mallocBrk (h : Heap) (size : ℕ) : Heap × ℤ :=
  let (h, granted) := moveBreak kernel (findBreak kernel h) size
  if granted then ({ h with mallocPtr := h.mallocPtr + size }, h.mallocPtr) else (h, 0)

end Kernel

def Heap.next (h : Heap) (n : ℤ) : ℤ := (h.nodes n).next

def Heap.setNode (h : Heap) (n : ℤ) (node : Node) : Heap :=
  { h with nodes := Function.update h.nodes n node }

def Heap.setNext (h : Heap) (n next : ℤ) : Heap :=
  h.setNode n { h.nodes n with next := next }

/-- `last->next = x`, or the head of the allocated list when there is no last node. -/
def Heap.relinkAllocated (h : Heap) (last x : ℤ) : Heap :=
  if last = 0 then { h with allocatedList := x } else h.setNext last x

/-- The same for the free list. -/
def Heap.relinkFree (h : Heap) (last x : ℤ) : Heap :=
  if last = 0 then { h with freeList := x } else h.setNext last x

/-- In front of the allocated nodes. -/
def Heap.pushAllocated (h : Heap) (n : ℤ) : Heap :=
  { h.setNext n h.allocatedList with allocatedList := n }

/-- Far enough for any list of nodes that were created. -/
def Heap.fuel (h : Heap) : ℕ := h.nodesCreated + 1

/-- Go through a list to the first node that passes the test; NULL when none does. -/
def Heap.walk (h : Heap) (list : ℤ) (test : ℤ → Bool) : Except Stop (ℤ × ℤ) :=
  match IntrusiveList.walk 0 h.next test h.fuel list 0 with
  | none => .error .hangs
  | some ends => .ok ends

/-- `_malloc_insert_block`. -/
def insertBlock (h : Heap) (n : ℤ) (used : ℕ) : Except Stop Heap :=
  if used = IN_USE then .ok (h.pushAllocated n)
  else if used ≠ NOT_IN_USE then
    .error (.died "_malloc_insert_block: used flag is not _NOT_IN_USE" used)
  else if (h.nodes n).used ≠ NOT_IN_USE then
    .error (.died "_malloc_insert_block: node used flag is not _NOT_IN_USE" (h.nodes n).used)
  else if h.next n ≠ 0 then
    .error (.died "_malloc_insert_block: node already has a next" (h.next n))
  else do
    let (i, last) ← h.walk h.freeList fun i => (h.nodes n).size ≤ (h.nodes i).size
    let h := if i ≠ 0 then h.setNext n i else h
    return h.relinkFree last n

def free (h : Heap) (ptr : ℤ) : Except Stop Heap :=
  if ptr = 0 then .ok h
  else do
    let (i, last) ← h.walk h.allocatedList fun i => (h.nodes i).block = ptr
    if i = 0 then .error (.died "free: pointer was never returned by malloc" ptr)
    else
      let h := h.relinkAllocated last (h.next i)
      let h := h.setNode i { h.nodes i with used := NOT_IN_USE, next := 0 }
      insertBlock h i NOT_IN_USE

/-- `_malloc_find_free`. -/
def findFree (h : Heap) (size : ℕ) : Except Stop (Heap × ℤ) := do
  let (i, last) ← h.walk h.freeList fun i =>
    (h.nodes i).used = NOT_IN_USE ∧ size ≤ (h.nodes i).size
  if i = 0 then return (h, 0)
  else
    let h := h.relinkFree last (h.next i)
    let h := h.setNode i { h.nodes i with used := IN_USE, next := 0 }
    let h ← insertBlock h i IN_USE
    return (h, (h.nodes i).block)

/-- `_malloc_add_new`. -/
def addNew (kernel : Kernel) (h : Heap) (size : ℕ) : Except Stop (Heap × ℤ) :=
  let (h, n) := mallocBrk kernel h sizeofNode
  if n = 0 then .ok (h, 0)
  else
    let (h, block) := mallocBrk kernel h size
    if block = 0 then .ok (h.setNode n { h.nodes n with block := 0 }, 0)
    else do
      let h := { h with nodesCreated := h.nodesCreated + 1 }
      let h := h.setNode n ⟨0, block, size, IN_USE⟩
      let h ← insertBlock h n IN_USE
      return (h, (h.nodes n).block)

/-- The standard block sizes: 256 doubled until the size fits, up to 2^30; in so many
doublings at most. -/
def standardSize (size : ℕ) : ℕ → ℕ → Option ℕ
  | 0, _ => none
  | doublings + 1, used =>
      if used < size then
        if 2 ^ 30 < used * 2 then none else standardSize size doublings (used * 2)
      else some used

def malloc (kernel : Kernel) (h : Heap) (size : UInt32) : Except Stop (Heap × ℤ) :=
  if size = 0 then .ok (h, 0)
  else
    match standardSize size.toNat 32 256 with
    | none => .ok (h, 0)
    | some used => do
        let (h, ptr) ← findFree h used
        if ptr = 0 then addNew kernel h used else return (h, ptr)

def memset (h : Heap) (ptr : ℤ) (value : UInt8) (num : ℕ) : Heap :=
  let bytes := (List.range num).foldl (fun bytes k => Function.update bytes (ptr + k) value) h.bytes
  { h with bytes := bytes }

def calloc (kernel : Kernel) (h : Heap) (count size : Int32) : Except Stop (Heap × ℤ) := do
  let (h, ret) ← malloc kernel h (count * size).toUInt32
  if ret = 0 then return (h, 0)
  else return (memset h ret 0 (count * size).toInt.toNat, ret)

/-- The copying loop of `realloc`. -/
def copy (h : Heap) (newAlloc ptr : ℤ) (size : ℕ) : Heap :=
  let bytes := (List.range size).foldl
    (fun bytes k => Function.update bytes (newAlloc + k) (bytes (ptr + k))) h.bytes
  { h with bytes := bytes }

/-- The nodes of a list, as far as the fuel goes. -/
def Heap.listed (h : Heap) : ℕ → ℤ → List ℤ
  | 0, _ => []
  | fuel + 1, i => if i = 0 then [] else i :: h.listed fuel (h.next i)

/-- How `realloc` tells a pointer that is no block. -/
def badPointer (h : Heap) (ptr : ℤ) : Stop :=
  let allocated := h.listed h.fuel h.allocatedList
  let freed := h.listed h.fuel h.freeList
  if freed.any fun f => (h.nodes f).block = ptr then
    .died "realloc: USE AFTER FREE -- this block is on the free list" ptr
  else
    match allocated.find? fun g =>
        (h.nodes g).block < ptr ∧ ptr < (h.nodes g).block + (h.nodes g).size with
    | some g => .died "realloc: INTERIOR pointer, offset into a live block"
      (ptr - (h.nodes g).block)
    | none =>
        .died "realloc: pointer is not a block" ((allocated ++ freed).foldl
          (fun best n => min best ((ptr - (h.nodes n).block).natAbs)) 0x7FFFFFFF)

def realloc (kernel : Kernel) (h : Heap) (ptr : ℤ) (size : UInt32) :
    Except Stop (Heap × ℤ) :=
  if size = 0 then do
    let h ← if ptr ≠ 0 then free h ptr else .ok h
    return (h, 0)
  else do
    let (found, _) ← if ptr ≠ 0 then
        h.walk h.allocatedList fun i => (h.nodes i).block = ptr
      else .ok (0, 0)
    if found ≠ 0 ∧ size.toNat ≤ (h.nodes found).size then return (h, ptr)
    else
      let (h, newAlloc) ← malloc kernel h size
      if ptr = 0 ∨ newAlloc = 0 then return (h, newAlloc)
      else
        let (i, _) ← h.walk h.allocatedList fun i => (h.nodes i).block = ptr
        let oldAllocSize := if i = 0 then 0 else (h.nodes i).size
        if oldAllocSize = 0 then .error (badPointer h ptr)
        else
          let copySize := if size.toNat < oldAllocSize then size.toNat else oldAllocSize
          let h ← free (copy h newAlloc ptr copySize) ptr
          return (h, newAlloc)

/-- As the program starts; the break is wherever the kernel has it. -/
def Heap.start (bytes : ℤ → UInt8) (kernelBreak : ℕ) : Heap where
  nodes := fun _ => ⟨0, 0, 0, 0⟩
  bytes := bytes
  allocatedList := 0
  freeList := 0
  nodesCreated := 0
  mallocPtr := 0
  brkPtr := 0
  kernelBreak := kernelBreak
  brkCalls := 0

/-- What a program asks of the allocator. -/
inductive Call where
  | malloc (size : UInt32)
  | calloc (count size : Int32)
  | realloc (ptr : ℤ) (size : UInt32)
  | free (ptr : ℤ)
deriving DecidableEq

/-- The heap, and the pointers the program has and has not given back, each with the
size last granted for it. -/
structure World where
  heap : Heap
  live : List (ℤ × ℕ)

def World.drop (w : World) (ptr : ℤ) : List (ℤ × ℕ) := w.live.filter fun p => p.1 ≠ ptr

/-- One call. -/
def World.call (kernel : Kernel) (w : World) : Call → Except Stop World
  | .malloc size => do
      let (h, ptr) ← malloc kernel w.heap size
      return ⟨h, if ptr = 0 then w.live else (ptr, size.toNat) :: w.live⟩
  | .calloc count size => do
      let (h, ptr) ← calloc kernel w.heap count size
      return ⟨h, if ptr = 0 then w.live
        else (ptr, (count.toInt * size.toInt).toNat) :: w.live⟩
  | .realloc ptr size => do
      let (h, newPtr) ← realloc kernel w.heap ptr size
      -- a refused growth leaves the block as it was
      return ⟨h, if size = 0 then w.drop ptr else if newPtr = 0 then w.live
        else (newPtr, size.toNat) :: w.drop ptr⟩
  | .free ptr => do
      let h ← free w.heap ptr
      return ⟨h, w.drop ptr⟩

/-- Only pointers the program has go to `free` and `realloc`, and products fit. -/
def Call.Legal (w : World) : Call → Prop
  | .malloc _ => True
  | .calloc count size => (count * size).toInt = count.toInt * size.toInt
  | .realloc ptr _ => ptr = 0 ∨ ptr ∈ w.live.map Prod.fst
  | .free ptr => ptr = 0 ∨ ptr ∈ w.live.map Prod.fst

def World.calls (kernel : Kernel) (w : World) (cs : List Call) : Except Stop World :=
  cs.foldlM (World.call kernel) w

/-- Every call is legal when it is made. -/
def LegalCalls (kernel : Kernel) : World → List Call → Prop
  | _, [] => True
  | w, c :: cs => c.Legal w ∧ ∀ w', w.call kernel c = .ok w' → LegalCalls kernel w' cs

end Veron.Malloc
