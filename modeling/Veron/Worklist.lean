/-
Worklists: what is taken from one goes into a set, and what it leads to is put on the list,
in whatever order.
-/
import Mathlib.Data.Finset.Card
import Mathlib.Data.Set.Basic
import Mathlib.Logic.Relation
import Mathlib.Tactic.Common

namespace Veron

structure Worklist (α : Type*) where
  seen : Finset α
  todo : List α

namespace Worklist

variable {α : Type*} {owes : α → Set α → Prop} {leads : α → α → Prop}
  {w w' start final : Worklist α} {x y : α}

def Covers (w : Worklist α) (x : α) : Prop := x ∈ w.seen ∨ x ∈ w.todo

/-- Of each set that one taken owes a member has been taken or is to be. -/
def Paid (owes : α → Set α → Prop) (w : Worklist α) : Prop :=
  ∀ x ∈ w.seen, ∀ S, owes x S → ∃ y ∈ S, w.Covers y

variable [DecidableEq α]

theorem Covers.take {seen : Finset α} {todo new : List α} (hy : Covers ⟨seen, x :: todo⟩ y) :
    Covers ⟨insert x seen, new ++ todo⟩ y := by
  rcases hy with hy | hy
  · exact .inl (Finset.mem_insert_of_mem hy)
  · rcases List.mem_cons.mp hy with rfl | hy
    · exact .inl (Finset.mem_insert_self _ _)
    · exact .inr (List.mem_append_right _ hy)

/-- The next one has been taken before, or it is taken now, so that what it owes is paid and
nothing is put on the list that it does not lead to. -/
inductive Step (owes : α → Set α → Prop) (leads : α → α → Prop) :
    Worklist α → Worklist α → Prop
  | again {seen : Finset α} {x : α} {todo : List α} (h : x ∈ seen) :
      Step owes leads ⟨seen, x :: todo⟩ ⟨seen, todo⟩
  | take {seen : Finset α} {x : α} {todo new : List α} (h : x ∉ seen)
      (hpaid : ∀ S, owes x S → ∃ y ∈ S, Covers ⟨insert x seen, new ++ todo⟩ y)
      (hlead : ∀ y ∈ new, leads x y) :
      Step owes leads ⟨seen, x :: todo⟩ ⟨insert x seen, new ++ todo⟩

theorem Step.covers (h : Step owes leads w w') (hx : w.Covers x) : w'.Covers x := by
  cases h with
  | again hseen =>
      rcases hx with hx | hx
      · exact .inl hx
      · rcases List.mem_cons.mp hx with rfl | hx
        · exact .inl hseen
        · exact .inr hx
  | take _ _ _ => exact hx.take

theorem Step.paid (h : Step owes leads w w') (hw : Paid owes w) : Paid owes w' := by
  intro x hx S hS
  have hold : x ∈ w.seen → ∃ y ∈ S, w'.Covers y := fun hx => by
    obtain ⟨y, hy, hcovers⟩ := hw x hx S hS
    exact ⟨y, hy, h.covers hcovers⟩
  cases h with
  | again _ => exact hold hx
  | take _ hpaid _ =>
      rcases Finset.mem_insert.mp hx with rfl | hx
      · exact hpaid S hS
      · exact hold hx

/-- What is seen or listed after a step was so before it, or is led to. -/
theorem Step.bounded {P : α → Prop} (h : Step owes leads w w')
    (hlead : ∀ x y, P x → leads x y → P y) (hw : ∀ x, w.Covers x → P x) :
    ∀ x, w'.Covers x → P x := by
  intro y hy
  cases h with
  | @again seen x todo _ =>
      exact hw y (hy.imp_right (List.mem_cons_of_mem x))
  | @take seen x todo new _ _ hnew =>
      have hx : P x := hw x (.inr List.mem_cons_self)
      rcases hy with hy | hy
      · rcases Finset.mem_insert.mp hy with rfl | hy
        · exact hx
        · exact hw y (.inl hy)
      · rcases List.mem_append.mp hy with hy | hy
        · exact hlead x y hx (hnew y hy)
        · exact hw y (.inr (List.mem_cons_of_mem x hy))

/-- Steps from one worklist to another. -/
def Run (owes : α → Set α → Prop) (leads : α → α → Prop) : Worklist α → Worklist α → Prop :=
  Relation.ReflTransGen (Step owes leads)

/-- An empty list means that all is taken that was listed at the start, and all that is owed. -/
theorem Run.closed (h : Run owes leads start final) (hstart : start.seen = ∅)
    (hdone : final.todo = []) :
    (∀ x ∈ start.todo, x ∈ final.seen) ∧
      ∀ x ∈ final.seen, ∀ S, owes x S → ∃ y ∈ S, y ∈ final.seen := by
  have hall : Paid owes final ∧ ∀ x ∈ start.todo, final.Covers x := by
    clear hdone
    induction h with
    | refl =>
        refine ⟨fun x hx => ?_, fun x hx => .inr hx⟩
        rw [hstart] at hx
        cases hx
    | tail _ hstep ih =>
        exact ⟨hstep.paid ih.1, fun x hx => hstep.covers (ih.2 x hx)⟩
  have hseen : ∀ x, final.Covers x → x ∈ final.seen := fun x hx => by
    rw [Covers, hdone] at hx
    exact hx.resolve_right List.not_mem_nil
  refine ⟨fun x hx => hseen x (hall.2 x hx), fun x hx S hS => ?_⟩
  obtain ⟨y, hy, hcovers⟩ := hall.1 x hx S hS
  exact ⟨y, hy, hseen y hcovers⟩

/-- Only what the start leads to is taken. -/
theorem Run.bounded {P : α → Prop} (h : Run owes leads start final)
    (hlead : ∀ x y, P x → leads x y → P y) (hstart : ∀ x, start.Covers x → P x) :
    ∀ x, final.Covers x → P x := by
  induction h with
  | refl => exact hstart
  | tail _ hstep ih => exact hstep.bounded hlead ih

/-- Inside a finite set that nothing leads out of there is no end to no run. -/
theorem acc_of_finite (U : Finset α) (hlead : ∀ x y, x ∈ U → leads x y → y ∈ U)
    (hw : ∀ x, w.Covers x → x ∈ U) : Acc (fun w' w => Step owes leads w w') w := by
  induction hn : (U \ w.seen).card using Nat.strong_induction_on generalizing w with
  | _ n ih =>
      obtain ⟨seen, todo⟩ := w
      -- Once more over the length of the list, which a step that takes nothing shortens.
      induction todo with
      | nil => exact ⟨_, fun _ h => nomatch h⟩
      | cons x todo ihtodo =>
          refine ⟨_, fun w' hstep => ?_⟩
          have hw' := hstep.bounded (P := fun x => x ∈ U) hlead hw
          cases hstep with
          | again _ => exact ihtodo hw' hn
          | take hx _ _ =>
              refine ih _ ?_ hw' rfl
              rw [← hn]
              refine Finset.card_lt_card ((Finset.ssubset_iff_of_subset ?_).mpr ⟨x, ?_, ?_⟩)
              · exact Finset.sdiff_subset_sdiff (Finset.Subset.refl U) (Finset.subset_insert x seen)
              · exact Finset.mem_sdiff.mpr ⟨hw x (.inr List.mem_cons_self), hx⟩
              · exact fun h => (Finset.mem_sdiff.mp h).2 (Finset.mem_insert_self x seen)

end Worklist

end Veron
