/-
`sccs` and `order` of `closure`: the strongly connected components of a package graph and
the order the packages are built in.
-/
import Mathlib.Data.Finset.Sort
import Mathlib.Data.Finset.Union
import Mathlib.Data.Nat.Notation
import Mathlib.Data.List.Basic
import Mathlib.Tactic.Common

namespace Veron.Closure

variable {α : Type*} [LinearOrder α]

/-- What `sccs` keeps: the stack has its top first, and `low` is read only where it has
been set. -/
structure Tarjan (α : Type*) where
  index : α → Option ℕ := fun _ => none
  low : α → ℕ := fun _ => 0
  onstack : Finset α := ∅
  stack : List α := []
  out : List (List α) := []
  counter : ℕ := 0

def Tarjan.Visited (s : Tarjan α) (v : α) : Prop := (s.index v).isSome

instance (s : Tarjan α) (v : α) : Decidable (s.Visited v) :=
  inferInstanceAs (Decidable ((s.index v).isSome = true))

/-- `index[v]` of a node visited. -/
def Tarjan.num (s : Tarjan α) (v : α) : ℕ := (s.index v).getD 0

/-- The lines of `strong` before its loop. -/
def Tarjan.enter (s : Tarjan α) (v : α) : Tarjan α :=
  { s with
    index := Function.update s.index v (some s.counter)
    low := Function.update s.low v s.counter
    counter := s.counter + 1
    stack := v :: s.stack
    onstack := insert v s.onstack }

/-- `low[v] = min(low[v], n)`. -/
def Tarjan.lower (s : Tarjan α) (v : α) (n : ℕ) : Tarjan α :=
  { s with low := Function.update s.low v (min (s.low v) n) }

/-- The `while True` loop: `comp`, `stack` and `onstack` after it. An empty stack cannot
be popped. -/
def popTo (v : α) :
    List α → Finset α → List α → Option (List α × List α × Finset α)
  | [], _, _ => none
  | w :: stack, onstack, comp =>
      if w = v then some (comp ++ [w], stack, onstack.erase w)
      else popTo v stack (onstack.erase w) (comp ++ [w])

/-- The lines of `strong` after its loop. -/
def Tarjan.leave (s : Tarjan α) (v : α) : Option (Tarjan α) :=
  if s.low v = s.num v then do
    let (comp, stack, onstack) ← popTo v s.stack s.onstack []
    some { s with stack, onstack, out := s.out ++ [comp.mergeSort] }
  else some s

/-- The body of the loop of `strong`; `strong` is the call it makes on a node not visited. -/
def look (nodes : Finset α) (strong : α → Tarjan α → Option (Tarjan α)) (v : α)
    (s : Tarjan α) (w : α) : Option (Tarjan α) :=
  if w ∉ nodes then some s
  else if ¬ s.Visited w then do
    let s ← strong w s
    some (s.lower v (s.low w))
  else if w ∈ s.onstack then some (s.lower v (s.num w))
  else some s

/-- `strong`, with `room` for so many calls inside one another before the interpreter
raises `RecursionError`. -/
def strong (nodes : Finset α) (edges : α → List α) :
    ℕ → α → Tarjan α → Option (Tarjan α)
  | 0, _, _ => none
  | room + 1, v, s => do
      let s ← (edges v).foldlM (look nodes (strong nodes edges room) v) (s.enter v)
      s.leave v

/-- `sys.setrecursionlimit(10000)`. -/
def recursionLimit : ℕ := 10000

/-- The body of the loop over the nodes that `sccs` ends with. -/
def visit (nodes : Finset α) (edges : α → List α) (room : ℕ) (s : Tarjan α) (v : α) :
    Option (Tarjan α) :=
  if s.Visited v then some s else strong nodes edges room v s

/-- `sccs`, with `frames` frames on the interpreter's stack, its own among them; `edges`
gives `edges.get(v, [])`. -/
def sccs (frames : ℕ) (nodes : Finset α) (edges : α → List α) : Option (List (List α)) :=
  (nodes.sort.foldlM (visit nodes edges (recursionLimit - frames)) {}).map Tarjan.out

/-- `member`: the last component that holds the node. -/
def member (comps : List (List α)) (p : α) : Option ℕ :=
  (comps.zipIdx.reverse.find? fun e => p ∈ e.1).map Prod.snd

/-- `cedges[i]`: the components that the nodes of one depend on. -/
def cedges (nodes : Finset α) (edges : α → List α) (comps : List (List α)) (i : ℕ) :
    Finset ℕ :=
  ((nodes.filter fun p => member comps p = some i).biUnion fun p =>
    ((edges p).filterMap (member comps)).toFinset).erase i

def component (comps : List (List α)) (i : ℕ) : List α := comps.getD i []

/-- `comps[i][0] <= comps[j][0]`. -/
def firstLe (comps : List (List α)) (i j : ℕ) : Bool :=
  match (component comps i).head?, (component comps j).head? with
  | some a, some b => decide (a ≤ b)
  | _, _ => true

/-- The components ready, in the order they are taken. -/
def ready (comps : List (List α)) (need : ℕ → Finset ℕ) (done : Finset ℕ)
    (remaining : List ℕ) : List ℕ :=
  (remaining.filter fun i => need i ⊆ done).mergeSort (firstLe comps)

/-- The keys left by `remaining.pop(i)` for the components taken. -/
def popAll (remaining taken : List ℕ) : List ℕ := remaining.filter (· ∉ taken)

theorem length_popAll {remaining taken : List ℕ} (hne : taken ≠ [])
    (hsub : ∀ i ∈ taken, i ∈ remaining) : (popAll remaining taken).length < remaining.length := by
  obtain ⟨i, hi⟩ := List.exists_mem_of_ne_nil _ hne
  refine List.length_filter_lt_length_iff_exists.mpr ⟨i, hsub i hi, ?_⟩
  simpa using hi

theorem mem_ready {comps : List (List α)} {need : ℕ → Finset ℕ} {done : Finset ℕ}
    {remaining : List ℕ} {i : ℕ} :
    i ∈ ready comps need done remaining ↔ i ∈ remaining ∧ need i ⊆ done := by
  rw [ready, List.mem_mergeSort, List.mem_filter, decide_eq_true_eq]

/-- The `while remaining` loop of `order`, `remaining` being the keys left; it also ends
where nothing is ready. -/
def layers (comps : List (List α)) (need : ℕ → Finset ℕ) (done : Finset ℕ) (out : List α)
    (remaining : List ℕ) : List α :=
  let next := ready comps need done remaining
  if _h : next = [] then out
  else
    layers comps need (done ∪ next.toFinset) (out ++ next.flatMap (component comps))
      (popAll remaining next)
termination_by remaining.length
decreasing_by exact length_popAll _h fun i hi => (mem_ready.mp hi).1

/-- `order`: the nodes in order, and the components reported as cyclic. -/
def order (frames : ℕ) (nodes : Finset α) (edges : α → List α) :
    Option (List α × List (List α)) := do
  let comps ← sccs (frames + 1) nodes edges
  some (layers comps (cedges nodes edges comps) ∅ [] (List.range comps.length),
    comps.filter fun c => 1 < c.length)

end Veron.Closure
