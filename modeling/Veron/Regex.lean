/-
Regular expressions for a backtracking matcher: the places where a match can end, the preferred
one first, as the matcher tries them, and as the expression means them.
-/
import Mathlib.Data.List.Basic
import Mathlib.Tactic.Common

namespace Veron

/-- Repetitions are greedy.  An edge takes no character and looks at those on both sides. -/
inductive Regex (α : Type*) where
  | empty
  | one (p : α → Bool)
  | seq (r s : Regex α)
  | alt (r s : Regex α)
  | star (r : Regex α)
  | group (k : ℕ) (r : Regex α)
  | edge (p : Option α → Option α → Bool)

/-- Between what was taken, the nearest first, and what is left, with the groups so far. -/
structure Place (α : Type*) where
  before : List α
  rest : List α
  groups : List (ℕ × List α)

namespace Regex

variable {α : Type*}

/-- So many times at most, each time with something taken. -/
def again (step : Place α → List (Place α)) : ℕ → Place α → List (Place α)
  | 0, s => [s]
  | n + 1, s =>
      ((step s).filter fun t => t.rest.length < s.rest.length).flatMap (again step n) ++ [s]

/-- A group is what was taken since `s`. -/
def close (k : ℕ) (s t : Place α) : Place α :=
  { t with groups := (k, s.rest.take (s.rest.length - t.rest.length)) :: t.groups }

/-- The ends of the ways to match from a place on, in the order in which they are tried. -/
def run : Regex α → Place α → List (Place α)
  | empty, s => [s]
  | one p, s =>
      match s.rest with
      | [] => []
      | c :: rest => if p c then [⟨c :: s.before, rest, s.groups⟩] else []
  | seq r r', s => (run r s).flatMap (run r')
  | alt r r', s => run r s ++ run r' s
  | star r, s => again (run r) s.rest.length s
  | group k r, s => (run r s).map (close k s)
  | edge p, s => if p s.before.head? s.rest.head? then [s] else []

/-- The ways to match. -/
inductive Runs : Regex α → Place α → Place α → Prop
  | empty (s : Place α) : Runs .empty s s
  | one {p : α → Bool} {c : α} {before rest : List α} {groups : List (ℕ × List α)} (hc : p c) :
      Runs (.one p) ⟨before, c :: rest, groups⟩ ⟨c :: before, rest, groups⟩
  | seq {r r' : Regex α} {s t u : Place α} : Runs r s t → Runs r' t u → Runs (.seq r r') s u
  | left {r r' : Regex α} {s t : Place α} : Runs r s t → Runs (.alt r r') s t
  | right {r r' : Regex α} {s t : Place α} : Runs r' s t → Runs (.alt r r') s t
  | done {r : Regex α} (s : Place α) : Runs (.star r) s s
  | more {r : Regex α} {s t u : Place α} : Runs r s t → t.rest.length < s.rest.length →
      Runs (.star r) t u → Runs (.star r) s u
  | group {k : ℕ} {r : Regex α} {s t : Place α} : Runs r s t → Runs (.group k r) s (close k s t)
  | edge {p : Option α → Option α → Bool} {s : Place α} : p s.before.head? s.rest.head? →
      Runs (.edge p) s s

variable {r : Regex α} {s t : Place α} {p : α → Bool}

theorem runs_of_mem_again (hr : ∀ s t, t ∈ r.run s → Runs r s t) {n : ℕ}
    (h : t ∈ again r.run n s) : Runs (.star r) s t := by
  induction n generalizing s with
  | zero =>
      cases List.mem_singleton.mp h
      exact .done _
  | succ n ih =>
      rcases List.mem_append.mp h with h | h
      · obtain ⟨u, hu, htail⟩ := List.mem_flatMap.mp h
        obtain ⟨hstep, hless⟩ := List.mem_filter.mp hu
        exact .more (hr s u hstep) (of_decide_eq_true hless) (ih htail)
      · cases List.mem_singleton.mp h
        exact .done _

theorem mem_again_of_runs (hr : ∀ s t, Runs r s t → t ∈ r.run s) (h : Runs (.star r) s t) :
    ∀ n, s.rest.length ≤ n → t ∈ again r.run n s := by
  generalize hstar : Regex.star r = q at h
  induction h with
  | done s =>
      intro n _
      cases n with
      | zero => exact List.mem_singleton.mpr rfl
      | succ n => exact List.mem_append_right _ (List.mem_singleton.mpr rfl)
  | more hstep hless _ _ ih =>
      cases hstar
      intro n hn
      cases n with
      | zero => omega
      | succ n =>
          refine List.mem_append_left _ (List.mem_flatMap.mpr ⟨_, ?_, ih rfl n (by omega)⟩)
          exact List.mem_filter.mpr ⟨hr _ _ hstep, decide_eq_true hless⟩
  | _ => cases hstar

/-- The matcher tries just the ways to match. -/
theorem mem_run_iff : t ∈ r.run s ↔ Runs r s t := by
  induction r generalizing s t with
  | empty =>
      constructor
      · intro h
        cases List.mem_singleton.mp h
        exact .empty s
      · rintro ⟨⟩
        exact List.mem_singleton.mpr rfl
  | one p =>
      constructor
      · intro h
        obtain ⟨before, rest, groups⟩ := s
        cases rest with
        | nil => cases h
        | cons c rest =>
            simp only [run] at h
            split at h
            · rename_i hc
              cases List.mem_singleton.mp h
              exact .one hc
            · cases h
      · rintro ⟨⟩
        rename_i hc
        simp [run, hc]
  | seq r r' ih ih' =>
      constructor
      · intro h
        obtain ⟨u, hu, ht⟩ := List.mem_flatMap.mp h
        exact .seq (ih.mp hu) (ih'.mp ht)
      · rintro ⟨⟩
        rename_i u hu ht
        exact List.mem_flatMap.mpr ⟨u, ih.mpr hu, ih'.mpr ht⟩
  | alt r r' ih ih' =>
      constructor
      · intro h
        rcases List.mem_append.mp h with h | h
        · exact .left (ih.mp h)
        · exact .right (ih'.mp h)
      · intro h
        cases h with
        | left h => exact List.mem_append_left _ (ih.mpr h)
        | right h => exact List.mem_append_right _ (ih'.mpr h)
  | star r ih =>
      constructor
      · exact runs_of_mem_again fun s t => ih.mp
      · exact fun h => mem_again_of_runs (fun s t => ih.mpr) h _ (Nat.le_refl _)
  | group k r ih =>
      constructor
      · intro h
        obtain ⟨u, hu, rfl⟩ := List.mem_map.mp h
        exact .group (ih.mp hu)
      · rintro ⟨⟩
        rename_i u hu
        exact List.mem_map.mpr ⟨u, ih.mpr hu, rfl⟩
  | edge p =>
      constructor
      · intro h
        rw [run] at h
        split at h
        · rename_i hp
          cases List.mem_singleton.mp h
          exact .edge hp
        · cases h
      · rintro ⟨⟩
        rename_i hp
        simp [run, hp]

def start (text : List α) : Place α := ⟨[], text, []⟩

/-- The preferred match at the start of a text. -/
def matchStart (r : Regex α) (text : List α) : Option (Place α) := (r.run (start text)).head?

/-- The preferred match that takes the whole text. -/
def fullmatch (r : Regex α) (text : List α) : Option (Place α) :=
  (r.run (start text)).find? fun t => t.rest.isEmpty

/-- The text from left to right, where the preferred matches are in the place of what they take.
The number counts the characters of the last match that are still to come; an empty match is
none. -/
def scan (r : Regex α) : ℕ → List α → List α → List (α ⊕ Place α)
  | _, _, [] => []
  | k + 1, before, c :: rest => scan r k (c :: before) rest
  | 0, before, c :: rest =>
      match (r.run ⟨before, c :: rest, []⟩).head? with
      | some t =>
          if t.rest.length ≤ rest.length then
            .inr t :: scan r (rest.length - t.rest.length) (c :: before) rest
          else .inl c :: scan r 0 (c :: before) rest
      | none => .inl c :: scan r 0 (c :: before) rest

/-- Each match replaced. -/
def sub (r : Regex α) (repl : Place α → List α) (text : List α) : List α :=
  (scan r 0 [] text).flatMap (Sum.elim (fun c => [c]) repl)

/-- Each match replaced, where that may fail. -/
def subM (r : Regex α) (repl : Place α → Option (List α)) (text : List α) : Option (List α) :=
  ((scan r 0 [] text).mapM (Sum.elim (fun c => some [c]) repl)).map List.flatten

/-- The matches. -/
def findAll (r : Regex α) (text : List α) : List (Place α) :=
  (scan r 0 [] text).filterMap Sum.getRight?

theorem fullmatch_isSome_iff {text : List α} :
    (r.fullmatch text).isSome ↔ ∃ t, Runs r (start text) t ∧ t.rest = [] := by
  rw [fullmatch, List.find?_isSome]
  simp only [mem_run_iff, List.isEmpty_iff]

def plus (r : Regex α) : Regex α := .seq r (.star r)

def optional (r : Regex α) : Regex α := .alt r .empty

def seqs (rs : List (Regex α)) : Regex α := rs.foldr seq empty

/-- Characters as they stand. -/
def literal [DecidableEq α] (text : List α) : Regex α :=
  text.foldr (fun c r => .seq (.one (· = c)) r) .empty

theorem runs_star_one {l rest before : List α} {groups : List (ℕ × List α)} (hl : ∀ c ∈ l, p c) :
    Runs (.star (.one p)) ⟨before, l ++ rest, groups⟩ ⟨l.reverse ++ before, rest, groups⟩ := by
  induction l generalizing before with
  | nil => exact .done _
  | cons c l ih =>
      rw [List.reverse_cons, List.append_assoc]
      exact .more (.one (hl c List.mem_cons_self)) (Nat.lt_succ_self _)
        (ih fun d hd => hl d (List.mem_cons_of_mem c hd))

theorem runs_plus_one {l rest before : List α} {groups : List (ℕ × List α)} (hne : l ≠ [])
    (hl : ∀ c ∈ l, p c) :
    Runs (plus (.one p)) ⟨before, l ++ rest, groups⟩ ⟨l.reverse ++ before, rest, groups⟩ := by
  obtain ⟨c, l, rfl⟩ := List.exists_cons_of_ne_nil hne
  rw [List.reverse_cons, List.append_assoc]
  exact .seq (.one (hl c List.mem_cons_self))
    (runs_star_one fun d hd => hl d (List.mem_cons_of_mem c hd))

theorem head?_flatMap {β γ : Type*} {l : List β} {f : β → List γ} {b : β} {c : γ}
    (hl : l.head? = some b) (hf : (f b).head? = some c) : (l.flatMap f).head? = some c := by
  cases l with
  | nil => cases hl
  | cons b' l =>
      obtain rfl : b' = b := Option.some.inj hl
      rw [List.flatMap_cons, List.head?_append, hf, Option.some_or]

theorem run_seq_head {r r' : Regex α} {s t u : Place α} (hr : (r.run s).head? = some t)
    (hr' : (r'.run t).head? = some u) : ((seq r r').run s).head? = some u := head?_flatMap hr hr'

/-- The place behind all characters of a kind. -/
def skip (p : α → Bool) (s : Place α) : Place α :=
  ⟨(s.rest.takeWhile p).reverse ++ s.before, s.rest.dropWhile p, s.groups⟩

theorem skip_run {l rest before : List α} {groups : List (ℕ × List α)}
    (h : l = (l ++ rest).takeWhile p) :
    skip p ⟨before, l ++ rest, groups⟩ = ⟨l.reverse ++ before, rest, groups⟩ := by
  have hsplit : (l ++ rest).takeWhile p ++ (l ++ rest).dropWhile p = l ++ rest :=
    List.takeWhile_append_dropWhile
  rw [← h, List.append_cancel_left_eq] at hsplit
  rw [skip, ← h, hsplit]

/-- A repetition takes all it can. -/
theorem head_again_one {n : ℕ} {s : Place α} (hn : s.rest.length ≤ n) :
    (again (run (.one p)) n s).head? = some (skip p s) := by
  induction n generalizing s with
  | zero =>
      obtain ⟨before, rest, groups⟩ := s
      cases List.length_eq_zero_iff.mp (Nat.le_zero.mp hn)
      rfl
  | succ n ih =>
      obtain ⟨before, rest, groups⟩ := s
      cases rest with
      | nil => rfl
      | cons c rest =>
          by_cases hc : p c = true
          · have hrest := @ih ⟨c :: before, rest, groups⟩ (Nat.le_of_succ_le_succ hn)
            have hstep : run (.one p) ⟨before, c :: rest, groups⟩ =
                [⟨c :: before, rest, groups⟩] := if_pos hc
            have hskip : skip p ⟨c :: before, rest, groups⟩ =
                skip p ⟨before, c :: rest, groups⟩ := by
              simp [skip, hc]
            rw [again, hstep, List.filter_cons_of_pos (by simp), List.filter_nil,
              List.flatMap_singleton, List.head?_append, hrest, Option.some_or, hskip]
          · simp [again, run, hc, skip]

theorem run_star_one_head (s : Place α) : ((star (.one p)).run s).head? = some (skip p s) :=
  head_again_one (Nat.le_refl _)

end Regex

/-- What a group took; one that took no part is empty. -/
def Place.group {α : Type*} (t : Place α) (k : ℕ) : List α := (t.groups.lookup k).getD []

end Veron
