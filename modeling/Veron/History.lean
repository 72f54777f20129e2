/-
Histories of what a component has taken in and sent out, newest first, and rules
that say of an item whether it may follow what went before.
-/
import Mathlib.Data.List.Infix

namespace Veron.History

universe u

variable {α : Type u} {allowed : List α → α → Prop}

/-- Every item was allowed when it came. -/
def Lawful (allowed : List α → α → Prop) : List α → Prop
  | [] => True
  | x :: past => allowed past x ∧ Lawful allowed past

@[simp] theorem lawful_nil : Lawful allowed [] := trivial

theorem lawful_cons {x : α} {past : List α} :
    Lawful allowed (x :: past) ↔ allowed past x ∧ Lawful allowed past := Iff.rfl

instance decidableLawful [∀ past x, Decidable (allowed past x)] :
    DecidablePred (Lawful allowed)
  | [] => isTrue trivial
  | x :: past =>
      have : Decidable (Lawful allowed past) := decidableLawful past
      inferInstanceAs (Decidable (allowed past x ∧ Lawful allowed past))

/-- What is lawful was lawful all along. -/
theorem Lawful.of_suffix {old new : List α} (h : old <:+ new) (hnew : Lawful allowed new) :
    Lawful allowed old := by
  obtain ⟨recent, rfl⟩ := h
  induction recent with
  | nil => exact hnew
  | cons x recent ih => exact ih hnew.2

end Veron.History
