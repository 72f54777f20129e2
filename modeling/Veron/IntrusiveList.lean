/-
Lists that run through their nodes: each node holds the next one, and a null node
ends the list.  Walking along one, and putting another tail behind a node.
-/
import Mathlib.Data.List.Nodup
import Mathlib.Logic.Function.Basic

namespace Veron.IntrusiveList

universe u

variable {α : Type u} {null : α} {next : α → α}

/-- The nodes from `head` on are these. -/
def Chain (null : α) (next : α → α) : α → List α → Prop
  | head, [] => head = null
  | head, n :: l => head = n ∧ n ≠ null ∧ Chain null next (next n) l

theorem Chain.ne_null {head n : α} {l : List α} (h : Chain null next head l) (hn : n ∈ l) :
    n ≠ null := by
  induction l generalizing head with
  | nil => cases hn
  | cons m l ih =>
      rcases List.mem_cons.mp hn with rfl | hn
      · exact h.2.1
      · exact ih h.2.2 hn

/-- There is one list from a node. -/
theorem Chain.unique {head : α} {l l' : List α} (h : Chain null next head l)
    (h' : Chain null next head l') : l = l' := by
  induction l generalizing head l' with
  | nil =>
      cases l' with
      | nil => rfl
      | cons n l' => exact absurd (h'.1.symm.trans h) h'.2.1
  | cons n l ih =>
      cases l' with
      | nil => exact absurd (h.1.symm.trans h') h.2.1
      | cons m l' =>
          obtain ⟨rfl, -, hl⟩ := h
          obtain ⟨rfl, -, hl'⟩ := h'
          rw [ih hl hl']

theorem Chain.drop {head n : α} {a b : List α} (h : Chain null next head (a ++ n :: b)) :
    Chain null next n (n :: b) := by
  induction a generalizing head with
  | nil => exact h.1 ▸ h
  | cons m a ih => exact ih h.2.2

theorem Chain.suffix {head : α} {a b : List α} (h : Chain null next head (a ++ b)) :
    Chain null next (b.headD null) b := by
  cases b with
  | nil => rfl
  | cons n b => exact h.drop

/-- A list that ends never comes back to a node. -/
theorem Chain.nodup {head : α} {l : List α} (h : Chain null next head l) : l.Nodup := by
  induction l generalizing head with
  | nil => exact List.nodup_nil
  | cons n l ih =>
      refine List.nodup_cons.mpr ⟨fun hn => ?_, ih h.2.2⟩
      obtain ⟨a, b, rfl⟩ := List.append_of_mem hn
      have hhere : Chain null next n (n :: (a ++ n :: b)) := ⟨rfl, h.2.1, h.2.2⟩
      have hsame := hhere.unique h.2.2.drop
      have hlength := congrArg List.length hsame
      simp only [List.length_cons, List.length_append] at hlength
      omega

/-- Only the next nodes of its own nodes matter to a list. -/
theorem Chain.congr {next' : α → α} {head : α} {l : List α} (h : Chain null next head l)
    (hl : ∀ n ∈ l, next' n = next n) : Chain null next' head l := by
  induction l generalizing head with
  | nil => exact h
  | cons n l ih =>
      refine ⟨h.1, h.2.1, ?_⟩
      rw [hl n List.mem_cons_self]
      exact ih h.2.2 fun m hm => hl m (List.mem_cons_of_mem n hm)

variable [DecidableEq α]

theorem Chain.update {head m x : α} {l : List α} (h : Chain null next head l) (hm : m ∉ l) :
    Chain null (Function.update next m x) head l :=
  h.congr fun _ hn => Function.update_of_ne (ne_of_mem_of_not_mem hn hm) _ _

/-- Go along a list from `i` until a node passes the test, with the node before in
hand: where the walk ends (the null node, when none passes) and the node before. -/
def walk (null : α) (next : α → α) (test : α → Bool) : ℕ → α → α → Option (α × α)
  | 0, _, _ => none
  | fuel + 1, i, last =>
      if i = null then some (i, last)
      else if test i then some (i, last)
      else walk null next test fuel (next i) i

/-- A walk along a list ends at the first node that passes. -/
theorem walk_chain {i : α} {l : List α} (h : Chain null next i l) (test : α → Bool) (last : α)
    {fuel : ℕ} (hfuel : l.length < fuel) :
    walk null next test fuel i last =
      some ((l.dropWhile fun n => !test n).headD null,
        (l.takeWhile fun n => !test n).getLastD last) := by
  induction l generalizing i last fuel with
  | nil =>
      obtain ⟨fuel, rfl⟩ := Nat.exists_eq_succ_of_ne_zero (Nat.ne_zero_of_lt hfuel)
      have hi : i = null := h
      rw [walk, if_pos hi, hi]
      rfl
  | cons n l ih =>
      obtain ⟨fuel, rfl⟩ := Nat.exists_eq_succ_of_ne_zero (Nat.ne_zero_of_lt hfuel)
      obtain ⟨rfl, hnull, hl⟩ := h
      rw [walk, if_neg hnull]
      cases htest : test i with
      | true => simp [htest]
      | false =>
          have hpass : (fun n => !test n) i = true := by simp [htest]
          rw [if_neg Bool.false_ne_true, ih hl i (Nat.lt_of_succ_lt_succ hfuel),
            List.dropWhile_cons_of_pos (p := fun n => !test n) hpass,
            List.takeWhile_cons_of_pos (p := fun n => !test n) hpass,
            List.getLastD_cons]

/-- Put `x` where the node after `last` was: behind `last`, or at the head when there
is no node before. -/
def splice (null : α) (next : α → α) (head last x : α) : (α → α) × α :=
  if last = null then (next, x) else (Function.update next last x, head)

/-- The nodes up to `last` stay, and the list goes on with the one from `x`. -/
theorem splice_chain {head x : α} {a c d : List α} (h : Chain null next head (a ++ c))
    (hd : Chain null next x d) (hapart : ∀ n ∈ a, n ∉ d) :
    Chain null (splice null next head (a.getLastD null) x).1
      (splice null next head (a.getLastD null) x).2 (a ++ d) := by
  rcases List.eq_nil_or_concat a with rfl | ⟨a, m, rfl⟩
  · simpa [splice] using hd
  · rw [List.concat_eq_append] at *
    have hlast : (a ++ [m]).getLastD null = m := by simp
    have hm : m ≠ null := h.ne_null (by simp)
    rw [hlast, splice, if_neg hm]
    have hmd : m ∉ d := hapart m (by simp)
    have hd' := hd.update (m := m) (x := x) hmd
    clear hlast hapart
    show Chain null (Function.update next m x) head (a ++ [m] ++ d)
    induction a generalizing head with
    | nil =>
        refine ⟨h.1, hm, ?_⟩
        rw [Function.update_self]
        exact hd'
    | cons n a ih =>
        have hnm : n ≠ m := by
          have hnodup := h.nodup
          simp only [List.cons_append, List.nodup_cons, List.mem_append] at hnodup
          rintro rfl
          exact hnodup.1 (.inl (.inr List.mem_cons_self))
        refine ⟨h.1, h.2.1, ?_⟩
        rw [Function.update_of_ne hnm]
        exact ih h.2.2

/-- Another list does not notice. -/
theorem splice_other {head head' last x : α} {l : List α} (h : Chain null next head l)
    (hlast : last ∉ l) : Chain null (splice null next head' last x).1 head l := by
  rw [splice]
  split
  · exact h
  · exact h.update hlast

end Veron.IntrusiveList
