/-
Stable orders: the numbers below `n` by a total preorder on them, and by size where
that does not tell two of them apart.
-/
import Mathlib.Data.List.Nodup
import Mathlib.Data.List.Pairwise
import Mathlib.Data.List.Perm.Basic
import Mathlib.Tactic.Common

namespace Veron

variable {le : ℕ → ℕ → Prop}

/-- `i` comes before `j`. -/
def Before (le : ℕ → ℕ → Prop) (i j : ℕ) : Prop := le i j ∧ (le j i → i < j)

structure StableOrder (le : ℕ → ℕ → Prop) (n : ℕ) (order : List ℕ) : Prop where
  perm : order.Perm (List.range n)
  sorted : order.Pairwise (Before le)

namespace StableOrder

variable {n : ℕ} {order : List ℕ}

theorem length (h : StableOrder le n order) : order.length = n := by
  rw [h.perm.length_eq, List.length_range]

theorem lt (h : StableOrder le n order) {i : ℕ} (hi : i ∈ order) : i < n :=
  List.mem_range.mp (h.perm.mem_iff.mp hi)

theorem range (hrefl : ∀ i j, le i j) : StableOrder le n (List.range n) :=
  ⟨List.Perm.refl _, List.pairwise_lt_range.imp fun hlt => ⟨hrefl _ _, fun _ => hlt⟩⟩

theorem small (hn : n < 2) : StableOrder le n (List.range n) := by
  refine ⟨List.Perm.refl _, ?_⟩
  rcases n with _ | _ | n
  · exact List.Pairwise.nil
  · exact List.pairwise_singleton _ _
  · omega

/-- What stands before the last one that is no greater is no greater either. -/
theorem take_le (h : StableOrder le n order) (htrans : ∀ i j k, le i j → le j k → le i k)
    {j k : ℕ} (hj : j < order.length) (hle : le order[j] k) :
    ∀ i ∈ order.take (j + 1), le i k := by
  intro i hi
  obtain ⟨t, ht, rfl⟩ := List.mem_iff_getElem.mp hi
  rw [List.length_take] at ht
  rw [List.getElem_take]
  rcases Nat.lt_or_ge t j with hlt | hge
  · have hbefore := List.pairwise_iff_getElem.mp h.sorted t j (by omega) hj hlt
    exact htrans _ _ _ hbefore.1 hle
  · obtain rfl : t = j := by omega
    exact hle

/-- The next number goes behind all that are no greater. -/
theorem insert (h : StableOrder le n order) (htotal : ∀ i j, le i j ∨ le j i) {j : ℕ}
    (hlow : ∀ i ∈ order.take j, le i n) (hhigh : ∀ i ∈ order.drop j, ¬ le i n) :
    StableOrder le (n + 1) (order.take j ++ n :: order.drop j) := by
  constructor
  · rw [List.range_succ]
    refine List.perm_middle.trans ?_
    rw [List.take_append_drop]
    exact (h.perm.cons n).trans (List.perm_append_singleton n _).symm
  · have hsorted := h.sorted
    rw [← List.take_append_drop j order, List.pairwise_append] at hsorted
    obtain ⟨htake, hdrop, hcross⟩ := hsorted
    refine List.pairwise_append.mpr ⟨htake, List.pairwise_cons.mpr ⟨?_, hdrop⟩, ?_⟩
    · intro i hi
      have hnot := hhigh i hi
      exact ⟨(htotal n i).resolve_right hnot, fun hle => absurd hle hnot⟩
    · intro i hi k hk
      rcases List.mem_cons.mp hk with rfl | hk
      · exact ⟨hlow i hi, fun _ => h.lt (List.mem_of_mem_take hi)⟩
      · exact hcross i hi k hk

end StableOrder

end Veron
