/-
The height of an element of a graph: how long the longest path from it is.
-/
import Mathlib.Data.Nat.Find
import Mathlib.Logic.Relation
import Mathlib.Order.Bounds.Basic

namespace Veron

variable {α : Type} {r : α → α → Prop}

/-- A path of so many steps leads from `a`. -/
inductive Descends (r : α → α → Prop) : ℕ → α → Prop
  | zero (a : α) : Descends r 0 a
  | succ {a b : α} {k : ℕ} : r a b → Descends r k b → Descends r (k + 1) a

/-- The longest path from `a` has `k` steps. -/
def IsHeight (r : α → α → Prop) (a : α) (k : ℕ) : Prop := IsGreatest {i | Descends r i a} k

theorem IsHeight.unique {a : α} {i j : ℕ} (hi : IsHeight r a i) (hj : IsHeight r a j) : i = j :=
  IsGreatest.unique hi hj

/-- Where no path is longer than `k`, there is a longest. -/
theorem exists_isHeight {a : α} {k : ℕ} (hbound : ∀ i, Descends r i a → i ≤ k) :
    ∃ i ≤ k, IsHeight r a i := by
  classical
  have hlongest : Descends r (Nat.findGreatest (fun i => Descends r i a) k) a :=
    Nat.findGreatest_spec (P := fun i => Descends r i a) (Nat.zero_le k) (Descends.zero a)
  refine ⟨_, Nat.findGreatest_le k, hlongest, fun i hi => ?_⟩
  exact Nat.le_findGreatest (hbound i hi) hi

/-- What leads only to elements below `k` is at most as high as `k`. -/
theorem exists_isHeight_of_forall {a : α} {k : ℕ}
    (hbelow : ∀ b, r a b → ∃ i < k, IsHeight r b i) : ∃ i ≤ k, IsHeight r a i := by
  refine exists_isHeight fun i hi => ?_
  cases hi with
  | zero => exact Nat.zero_le k
  | succ hab hb =>
      obtain ⟨j, hj, hbj⟩ := hbelow _ hab
      exact (Nat.succ_le_succ (hbj.2 hb)).trans hj

theorem IsHeight.below {a b : α} {k : ℕ} (hk : IsHeight r a k) (hab : r a b) :
    ∃ i < k, IsHeight r b i := by
  have hbound : ∀ i, Descends r i b → i + 1 ≤ k := fun i hi => hk.2 (hi.succ hab)
  cases k with
  | zero => exact absurd (hbound 0 (Descends.zero b)) (by simp)
  | succ k =>
      obtain ⟨i, hi, hb⟩ := exists_isHeight fun i hi => Nat.le_of_succ_le_succ (hbound i hi)
      exact ⟨i, Nat.lt_succ_of_le hi, hb⟩

theorem Descends.of_transGen {a b : α} (hab : Relation.TransGen r a b) {k : ℕ}
    (hb : Descends r k b) : ∃ i > k, Descends r i a := by
  induction hab using Relation.TransGen.head_induction_on with
  | single h => exact ⟨k + 1, Nat.lt_succ_self k, hb.succ h⟩
  | head h _ ih =>
      obtain ⟨i, hi, hc⟩ := ih
      exact ⟨i + 1, Nat.lt_succ_of_lt hi, hc.succ h⟩

/-- What has a height is on no cycle. -/
theorem IsHeight.acyclic {a : α} {k : ℕ} (hk : IsHeight r a k) : ¬ Relation.TransGen r a a := by
  intro hcycle
  obtain ⟨i, hi, ha⟩ := Descends.of_transGen hcycle hk.1
  exact absurd (hk.2 ha) (by simpa using hi)

/-- Lower first, and in the order of `α` where the heights are the same. -/
def HeightLt [LT α] (r : α → α → Prop) (a b : α) : Prop :=
  ∃ i j, IsHeight r a i ∧ IsHeight r b j ∧ (i < j ∨ i = j ∧ a < b)

theorem HeightLt.asymm [Preorder α] {a b : α} (hab : HeightLt r a b) : ¬ HeightLt r b a := by
  rintro ⟨j', i', hb', ha', hlt'⟩
  obtain ⟨i, j, ha, hb, hlt⟩ := hab
  obtain rfl := ha.unique ha'
  obtain rfl := hb.unique hb'
  rcases hlt with hlt | ⟨rfl, hlt⟩ <;> rcases hlt' with hlt' | ⟨heq, hlt'⟩
  · omega
  · omega
  · omega
  · exact lt_asymm hlt hlt'

/-- A list has one order by height. -/
theorem eq_of_heightLt [Preorder α] {l l' : List α} (hl : l.Pairwise (HeightLt r))
    (hl' : l'.Pairwise (HeightLt r)) (hperm : l.Perm l') : l = l' := by
  refine hperm.eq_of_pairwise ?_ hl hl'
  intro a b _ _ hab hba
  exact absurd hba hab.asymm

end Veron
