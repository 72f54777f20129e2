/-
Condensations: classes of a relation listed so that an edge leads into its own class or
into an earlier one.
-/
import Mathlib.Data.List.Flatten
import Mathlib.Data.List.Nodup
import Mathlib.Logic.Relation
import Mathlib.Tactic.Common

namespace Veron

variable {α : Type*} {E : α → α → Prop}

/-- Each of the two reaches the other. -/
def Mutual (E : α → α → Prop) (u w : α) : Prop :=
  Relation.ReflTransGen E u w ∧ Relation.ReflTransGen E w u

/-- Every class listed is strongly connected, and what it leads to stands before it. -/
inductive Condensed (E : α → α → Prop) : List (List α) → Prop
  | nil : Condensed E []
  | snoc {out : List (List α)} {C : List α} : Condensed E out → C ≠ [] → C.Nodup →
      (∀ u ∈ C, u ∉ out.flatten) →
      (∀ u ∈ C, ∀ w ∈ C, Relation.ReflTransGen E u w) →
      (∀ u ∈ C, ∀ w, E u w → w ∈ C ∨ w ∈ out.flatten) → Condensed E (out ++ [C])

namespace Condensed

variable {out : List (List α)} {C : List α} {u w : α}

theorem mem_snoc : u ∈ (out ++ [C]).flatten ↔ u ∈ out.flatten ∨ u ∈ C := by
  simp

theorem ne_nil (h : Condensed E out) : ∀ C ∈ out, C ≠ [] := by
  induction h with
  | nil => simp
  | snoc _ hne _ _ _ _ ih =>
      intro D hD
      rcases List.mem_append.mp hD with hD | hD
      · exact ih D hD
      · rw [List.mem_singleton.mp hD]
        exact hne

theorem nodup (h : Condensed E out) : out.flatten.Nodup := by
  induction h with
  | nil => simp
  | snoc _ _ hnodup hapart _ _ ih =>
      rw [List.flatten_append, List.flatten_singleton]
      exact List.nodup_append'.mpr ⟨ih, hnodup, fun u hu hC => hapart u hC hu⟩

/-- Nothing leads out of the classes listed. -/
theorem closed (h : Condensed E out) (hu : u ∈ out.flatten) (hedge : E u w) :
    w ∈ out.flatten := by
  induction h with
  | nil => simp at hu
  | snoc _ _ _ _ _ hback ih =>
      rw [mem_snoc] at hu ⊢
      rcases hu with hu | hu
      · exact .inl (ih hu)
      · exact (hback u hu w hedge).symm

theorem closed_reach (h : Condensed E out) (hu : u ∈ out.flatten)
    (hreach : Relation.ReflTransGen E u w) : w ∈ out.flatten := by
  induction hreach with
  | refl => exact hu
  | tail _ hedge ih => exact h.closed ih hedge

/-- A class listed is a whole class of mutual reachability. -/
theorem mem_iff (h : Condensed E out) (hC : C ∈ out) (hu : u ∈ C) :
    w ∈ C ↔ Mutual E u w := by
  induction h with
  | nil => simp at hC
  | @snoc out D hout hne hnodup hapart hconn hback ih =>
      rcases List.mem_append.mp hC with hC | hC
      · exact ih hC
      rw [List.mem_singleton] at hC
      subst hC
      refine ⟨fun hw => ⟨hconn u hu w hw, hconn w hw u hu⟩, fun ⟨hforth, hreturn⟩ => ?_⟩
      have hall := (hout.snoc hne hnodup hapart hconn hback).closed_reach
        (mem_snoc.mpr (.inr hu)) hforth
      rcases mem_snoc.mp hall with hw | hw
      · exact absurd (hout.closed_reach hw hreturn) (hapart u hu)
      · exact hw

/-- What the classes up to one lead to is among them. -/
theorem take (h : Condensed E out) (k : ℕ) : Condensed E (out.take k) := by
  induction h with
  | nil => simpa using Condensed.nil
  | @snoc out D hout hne hnodup hapart hconn hback ih =>
      rcases Nat.lt_or_ge out.length k with hlt | hge
      · rw [List.take_of_length_le (by rw [List.length_append, List.length_singleton]; omega)]
        exact hout.snoc hne hnodup hapart hconn hback
      · rw [List.take_append_of_le_length hge]
        exact ih

/-- An edge does not lead to a later class. -/
theorem le_of_edge (h : Condensed E out) {i j : ℕ} {B : List α} (hB : out[i]? = some B)
    (hC : out[j]? = some C) (hu : u ∈ B) (hw : w ∈ C) (hedge : E u w) : j ≤ i := by
  by_contra hlt
  have hearly : u ∈ (out.take j).flatten := by
    refine List.mem_flatten.mpr ⟨B, List.mem_iff_getElem?.mpr ⟨i, ?_⟩, hu⟩
    rw [List.getElem?_take_of_lt (by omega), hB]
  have hwearly := (h.take j).closed hearly hedge
  have hwlate : w ∈ (out.drop j).flatten := by
    refine List.mem_flatten.mpr ⟨C, List.mem_iff_getElem?.mpr ⟨0, ?_⟩, hw⟩
    rw [List.getElem?_drop, Nat.add_zero, hC]
  have hnodup := h.nodup
  rw [← List.take_append_drop j out, List.flatten_append] at hnodup
  exact (List.nodup_append'.mp hnodup).2.2 hwearly hwlate

/-- A member lies in one class only. -/
theorem unique (h : Condensed E out) {i j : ℕ} {B : List α} (hB : out[i]? = some B)
    (hC : out[j]? = some C) (hu : u ∈ B) (hw : u ∈ C) : i = j := by
  have hflat := List.pairwise_iff_getElem.mp (List.nodup_flatten.mp h.nodup).2
  obtain ⟨hi, rfl⟩ := List.getElem?_eq_some_iff.mp hB
  obtain ⟨hj, rfl⟩ := List.getElem?_eq_some_iff.mp hC
  rcases Nat.lt_trichotomy i j with hlt | heq | hgt
  · exact absurd hw (hflat i j hi hj hlt hu)
  · exact heq
  · exact absurd hu (hflat j i hj hi hgt hw)

end Condensed

end Veron
