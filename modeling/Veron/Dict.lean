/-
Python's dictionaries as lists of items, no key twice.
-/
import Mathlib.Data.List.Nodup

namespace Veron

section Lookup

variable {α β : Type} [BEq α] [LawfulBEq α] {l : List (α × β)}

theorem lookup_cons_ne {a b : α} {c : β} (h : a ≠ b) : ((b, c) :: l).lookup a = l.lookup a := by
  rw [List.lookup_cons, beq_eq_false_iff_ne.mpr h]

/-- Where no key stands twice, an item is what its key is looked up as. -/
theorem lookup_of_mem (hnodup : (l.map Prod.fst).Nodup) {e : α × β} (he : e ∈ l) :
    l.lookup e.1 = some e.2 := by
  induction l with
  | nil => cases he
  | cons f l ih =>
      rw [List.map_cons, List.nodup_cons] at hnodup
      rcases List.mem_cons.mp he with rfl | he
      · exact List.lookup_cons_self
      · have hne : e.1 ≠ f.1 := by
          intro heq
          exact hnodup.1 (List.mem_map.mpr ⟨e, he, heq⟩)
        rw [lookup_cons_ne hne]
        exact ih hnodup.2 he

theorem mem_of_lookup {a : α} {b : β} (h : l.lookup a = some b) : (a, b) ∈ l := by
  induction l with
  | nil => cases h
  | cons f l ih =>
      by_cases ha : a = f.1
      · subst ha
        rw [List.lookup_cons_self, Option.some.injEq] at h
        subst h
        exact List.mem_cons_self
      · rw [lookup_cons_ne ha] at h
        exact List.mem_cons_of_mem _ (ih h)

/-- Leaving out items of other keys does not count. -/
theorem lookup_filter {a : α} {p : α × β → Bool} (hp : ∀ b, p (a, b)) :
    (l.filter p).lookup a = l.lookup a := by
  induction l with
  | nil => rfl
  | cons e l ih =>
      obtain ⟨k, b⟩ := e
      by_cases ha : a = k
      · subst ha
        rw [List.filter_cons_of_pos (hp b), List.lookup_cons_self, List.lookup_cons_self]
      · rw [lookup_cons_ne ha]
        cases hk : p (k, b)
        · rw [List.filter_cons_of_neg (by simp [hk])]
          exact ih
        · rw [List.filter_cons_of_pos hk, lookup_cons_ne ha]
          exact ih

end Lookup

/-- A dictionary keyed by strings, in its order of iteration. -/
structure Dict (β : Type) where
  items : List (String × β)
  nodup : (items.map Prod.fst).Nodup

namespace Dict

variable {β : Type} (d : Dict β)

/-- `d.get(k)`. -/
def get (k : String) : Option β := d.items.lookup k

/-- `k in d`. -/
def has (k : String) : Bool := (d.get k).isSome

def keys : List String := d.items.map Prod.fst

variable {d}

theorem get_eq_some {k : String} {v : β} : d.get k = some v ↔ (k, v) ∈ d.items :=
  ⟨mem_of_lookup, fun h => lookup_of_mem d.nodup h⟩

theorem has_iff {k : String} : d.has k ↔ k ∈ d.keys := by
  rw [has, Option.isSome_iff_exists, keys, List.mem_map]
  constructor
  · rintro ⟨v, hv⟩
    exact ⟨(k, v), get_eq_some.mp hv, rfl⟩
  · rintro ⟨e, he, rfl⟩
    exact ⟨e.2, get_eq_some.mpr he⟩

end Dict

end Veron
