/-
A function-like macro invoked by micro-c: its body with the arguments put in one after another,
and with all of them put in at once.
-/
import Mathlib.Data.List.Nodup
import Veron.MicroCMacro

namespace Veron.MicroC

open SelfAssembler (Byte ch text)

def texts (l : List Lexeme) : List Token := l.map Lexeme.s

/-- Parameters replaced one after another. -/
def substituteAll (maxString : ℕ) :
    List (Option Token × List Lexeme) → List Lexeme → Except Fault (List Lexeme)
  | [], l => .ok l
  | (name, argument) :: subs, l => do
      substituteAll maxString subs (← substitute maxString name argument l)

/-- An argument as it is written, and the token that ends it. -/
abbrev Piece := List Lexeme × Lexeme

def written (pieces : List Piece) : List Lexeme := pieces.flatMap fun p => p.1 ++ [p.2]

/-- Parentheses match, and commas are inside them. -/
def balanced : ℕ → List Lexeme → Bool
  | d, [] => d = 0
  | d, t :: ts => !endsArgument (d + 1) t && balanced (nesting (d + 1) t - 1) ts

/-- Arguments, each but the last ended by a comma and the last one by a parenthesis. -/
def Delimited : List Piece → Prop
  | [] => False
  | [(a, d)] => balanced 0 a = true ∧ at' d.s 0 = ch ')'
  | (a, d) :: p :: ps => balanced 0 a = true ∧ at' d.s 0 = ch ',' ∧ Delimited (p :: ps)

/-- The arguments as they are taken: an empty one is everything from its end on. -/
def taken (after : List Lexeme) : List Piece → List (List Lexeme)
  | [] => []
  | (a, d) :: ps => (if a = [] then d :: (written ps ++ after) else a) :: taken after ps

/-- A body with all parameters replaced at once. -/
def replaceAll (subs : List (Option Token × List Lexeme)) (body : List Lexeme) : List Token :=
  body.flatMap fun t =>
    match subs.find? (fun sub => sub.1 = some t.s) with
    | some sub => texts sub.2
    | none => [t.s]

/-- No argument that the body uses is empty or changed by those that are put in after it. -/
def Kept (maxString : ℕ) (after body : List Lexeme) : List (Option Token) → List Piece → Prop
  | name :: names, (a, _) :: ps =>
      ((∃ t ∈ body, name = some t.s) → a ≠ [] ∧
        ∃ r, substituteAll maxString (names.zip (taken after ps)) a = .ok r ∧
          texts r = texts a) ∧
      Kept maxString after body names ps
  | _, _ => True

/-- No `##` stands between two tokens. -/
def Pasteless (l : List Token) : Prop :=
  ¬ ∃ front x y back, l = front ++ x :: text ['#', '#'] :: y :: back

section Substitution

variable {m : ℕ} {name : Option Token} {argument l k r : List Lexeme} {t : Lexeme}
  {subs : List (Option Token × List Lexeme)}

theorem bind_eq_ok {ε α β : Type} {x : Except ε α} {f : α → Except ε β} {b : β} :
    x >>= f = .ok b ↔ ∃ a, x = .ok a ∧ f a = .ok b := by
  cases x with
  | error e => simp [bind, Except.bind]
  | ok a => simp [bind, Except.bind]

theorem substitute_append : substitute m name argument (l ++ k) = .ok r ↔
    ∃ l' k', substitute m name argument l = .ok l' ∧ substitute m name argument k = .ok k' ∧
      r = l' ++ k' := by
  induction l generalizing r with
  | nil => simp [substitute]
  | cons t l ih =>
      simp only [List.cons_append, substitute, bind_eq_ok, ih, Except.ok.injEq]
      constructor
      · rintro ⟨piece, ht, _, ⟨l', k', hl, hk, rfl⟩, rfl⟩
        exact ⟨piece ++ l', k', ⟨piece, ht, l', hl, rfl⟩, hk, (List.append_assoc ..).symm⟩
      · rintro ⟨_, k', ⟨piece, ht, l', hl, rfl⟩, hk, rfl⟩
        exact ⟨piece, ht, l' ++ k', ⟨l', k', hl, hk, rfl⟩, (List.append_assoc ..).symm⟩

theorem substituteAll_append : substituteAll m subs (l ++ k) = .ok r ↔
    ∃ l' k', substituteAll m subs l = .ok l' ∧ substituteAll m subs k = .ok k' ∧
      r = l' ++ k' := by
  induction subs generalizing l k with
  | nil => simp [substituteAll, eq_comm]
  | cons sub subs ih =>
      obtain ⟨name, argument⟩ := sub
      simp only [substituteAll, bind_eq_ok, substitute_append]
      constructor
      · rintro ⟨_, ⟨l', k', hl, hk, rfl⟩, hr⟩
        obtain ⟨l'', k'', hl', hk', rfl⟩ := ih.mp hr
        exact ⟨l'', k'', ⟨l', hl, hl'⟩, ⟨k', hk, hk'⟩, rfl⟩
      · rintro ⟨l'', k'', ⟨l', hl, hl'⟩, ⟨k', hk, hk'⟩, rfl⟩
        exact ⟨l' ++ k', ⟨l', k', hl, hk, rfl⟩, ih.mpr ⟨l'', k'', hl', hk', rfl⟩⟩

theorem substituteAll_nil (subs : List (Option Token × List Lexeme)) :
    substituteAll m subs [] = .ok [] := by
  induction subs with
  | nil => rfl
  | cons sub subs ih => exact ih

/-- A token is never replaced by nothing. -/
theorem length_le_of_substitute (harg : argument ≠ [])
    (h : substitute m name argument l = .ok r) : l.length ≤ r.length := by
  have hpos : 0 < argument.length := List.length_pos_iff.mpr harg
  induction l generalizing r with
  | nil => exact Nat.zero_le _
  | cons t l ih =>
      simp only [substitute, bind_eq_ok, Except.ok.injEq] at h
      obtain ⟨piece, ht, rest, hrest, rfl⟩ := h
      have hpiece : 0 < piece.length := by
        unfold substituteToken at ht
        split_ifs at ht
        · obtain ⟨s, _, hs⟩ := bind_eq_ok.mp ht
          cases hs
          exact Nat.one_pos
        · cases ht
          exact hpos
        · cases ht
          exact Nat.one_pos
      have hle := ih hrest
      rw [List.length_cons, List.length_append]
      omega

theorem length_le_of_substituteAll (hsubs : ∀ sub ∈ subs, sub.2 ≠ [])
    (h : substituteAll m subs l = .ok r) : l.length ≤ r.length := by
  induction subs generalizing l with
  | nil =>
      cases h
      exact le_rfl
  | cons sub subs ih =>
      obtain ⟨l', hl', hr⟩ := bind_eq_ok.mp h
      have hfirst := length_le_of_substitute (hsubs sub List.mem_cons_self) hl'
      exact hfirst.trans (ih (fun s hs => hsubs s (List.mem_cons_of_mem sub hs)) hr)

theorem substitute_singleton (ht : at' t.s 0 ≠ ch '#') :
    substitute m name argument [t] = .ok (if name = some t.s then argument else [t]) := by
  have htoken : substituteToken m name argument t =
      .ok (if name = some t.s then argument else [t]) := by
    rw [substituteToken, if_neg fun h => ht h.1]
    split_ifs <;> rfl
  have hnil : substitute m name argument [t] =
      substituteToken m name argument t >>= fun l => .ok (l ++ []) := rfl
  rw [hnil, htoken]
  exact congrArg Except.ok (List.append_nil _)

/-- A token that is no operator goes its own way through the parameters. -/
theorem substituteAll_singleton (ht : at' t.s 0 ≠ ch '#') :
    substituteAll m ((name, argument) :: subs) [t] =
      if name = some t.s then substituteAll m subs argument else substituteAll m subs [t] := by
  rw [substituteAll, substitute_singleton ht]
  split_ifs <;> rfl

end Substitution

section Replacement

variable {m : ℕ} {after body r : List Lexeme} {t : Lexeme} {names : List (Option Token)}
  {pieces : List Piece}

theorem taken_ne_nil : ∀ a ∈ taken after pieces, a ≠ [] := by
  intro a ha
  induction pieces with
  | nil => cases ha
  | cons p ps ih =>
      obtain ⟨arg, d⟩ := p
      rcases List.mem_cons.mp ha with rfl | ha
      · split_ifs with hempty
        · exact List.cons_ne_nil _ _
        · exact hempty
      · exact ih ha

theorem zip_taken_ne_nil : ∀ sub ∈ names.zip (taken after pieces), sub.2 ≠ [] :=
  fun sub hsub => taken_ne_nil _ (List.of_mem_zip (a := sub.1) (b := sub.2) hsub).2

theorem replaceAll_cons (subs : List (Option Token × List Lexeme)) (t : Lexeme)
    (body : List Lexeme) :
    replaceAll subs (t :: body) = replaceAll subs [t] ++ replaceAll subs body := by
  simp [replaceAll]

theorem replaceAll_singleton (name : Option Token) (argument : List Lexeme)
    (subs : List (Option Token × List Lexeme)) (t : Lexeme) :
    replaceAll ((name, argument) :: subs) [t] =
      if name = some t.s then texts argument else replaceAll subs [t] := by
  simp only [replaceAll, List.flatMap_singleton, List.find?_cons]
  split_ifs with hname <;> simp [hname]

/-- `Kept`, for one token of the body. -/
def KeptAt (maxString : ℕ) (after : List Lexeme) (t : Lexeme) :
    List (Option Token) → List Piece → Prop
  | name :: names, (a, _) :: ps =>
      (name = some t.s → a ≠ [] ∧
        ∃ r, substituteAll maxString (names.zip (taken after ps)) a = .ok r ∧
          texts r = texts a) ∧
      KeptAt maxString after t names ps
  | _, _ => True

theorem kept_iff : Kept m after body names pieces ↔ ∀ t ∈ body, KeptAt m after t names pieces := by
  induction names generalizing pieces with
  | nil => simp [Kept, KeptAt]
  | cons name names ih =>
      cases pieces with
      | nil => simp [Kept, KeptAt]
      | cons p ps =>
          simp only [Kept, KeptAt, ih]
          constructor
          · rintro ⟨hfirst, hrest⟩ t ht
            exact ⟨fun hname => hfirst ⟨t, ht, hname⟩, hrest t ht⟩
          · intro h
            exact ⟨fun ⟨t, ht, hname⟩ => (h t ht).1 hname, fun t ht => (h t ht).2⟩

theorem keptAt_of_not_mem (h : some t.s ∉ names) : KeptAt m after t names pieces := by
  induction names generalizing pieces with
  | nil => trivial
  | cons name names ih =>
      cases pieces with
      | nil => trivial
      | cons p ps =>
          obtain ⟨hname, hnames⟩ := List.ne_and_not_mem_of_not_mem_cons h
          exact ⟨fun heq => absurd heq.symm hname, ih hnames⟩

theorem length_replaceAll_token (ht : at' t.s 0 ≠ ch '#')
    (h : substituteAll m (names.zip (taken after pieces)) [t] = .ok r) :
    (replaceAll (names.zip (pieces.map Prod.fst)) [t]).length ≤ r.length := by
  induction names generalizing pieces with
  | nil => exact length_le_of_substituteAll (by simp) h
  | cons name names ih =>
      cases pieces with
      | nil => exact length_le_of_substituteAll (by simp [taken]) h
      | cons p ps =>
          obtain ⟨a, d⟩ := p
          rw [taken, List.zip_cons_cons, substituteAll_singleton ht] at h
          rw [List.map_cons, List.zip_cons_cons, replaceAll_singleton]
          split_ifs at h ⊢ with hname hempty
          · simp [hempty, texts]
          · rw [texts, List.length_map]
            exact length_le_of_substituteAll zip_taken_ne_nil h
          · exact ih h

/-- One token of the body becomes its replacement exactly when its argument is kept. -/
theorem substituteAll_token_iff (hdistinct : names.Nodup) (ht : at' t.s 0 ≠ ch '#') :
    (∃ r, substituteAll m (names.zip (taken after pieces)) [t] = .ok r ∧
      texts r = replaceAll (names.zip (pieces.map Prod.fst)) [t]) ↔
    KeptAt m after t names pieces := by
  induction names generalizing pieces with
  | nil => exact iff_of_true ⟨[t], rfl, rfl⟩ trivial
  | cons name names ih =>
      cases pieces with
      | nil => exact iff_of_true ⟨[t], rfl, rfl⟩ trivial
      | cons p ps =>
          obtain ⟨a, d⟩ := p
          obtain ⟨hnew, hdistinct⟩ := List.nodup_cons.mp hdistinct
          rw [taken, List.zip_cons_cons, substituteAll_singleton ht, List.map_cons,
            List.zip_cons_cons, replaceAll_singleton, KeptAt]
          by_cases hname : name = some t.s
          · have hrest : KeptAt m after t names ps := keptAt_of_not_mem (hname ▸ hnew)
            rw [if_pos hname, if_pos hname, and_iff_left hrest, imp_iff_right hname]
            constructor
            · rintro ⟨r, hr, htexts⟩
              have hempty : a ≠ [] := by
                rintro rfl
                have hle := length_le_of_substituteAll zip_taken_ne_nil hr
                have hlen := congrArg List.length htexts
                simp [texts] at hlen hle
                simp [hlen] at hle
              rw [if_neg hempty] at hr
              exact ⟨hempty, r, hr, htexts⟩
            · rintro ⟨hempty, hr⟩
              rwa [if_neg hempty]
          · rw [if_neg hname, if_neg hname, ih hdistinct]
            exact ⟨fun h => ⟨fun heq => absurd heq hname, h⟩, And.right⟩

theorem length_replaceAll (hbody : ∀ t ∈ body, at' t.s 0 ≠ ch '#')
    (h : substituteAll m (names.zip (taken after pieces)) body = .ok r) :
    (replaceAll (names.zip (pieces.map Prod.fst)) body).length ≤ r.length := by
  induction body generalizing r with
  | nil => exact Nat.zero_le _
  | cons t body ih =>
      obtain ⟨first, rest, hfirst, hrest, rfl⟩ := substituteAll_append (l := [t]).mp h
      rw [replaceAll_cons, List.length_append, List.length_append]
      exact Nat.add_le_add (length_replaceAll_token (hbody t List.mem_cons_self) hfirst)
        (ih (fun u hu => hbody u (List.mem_cons_of_mem t hu)) hrest)

/-- Nothing becomes shorter, so that the whole body is right only when each part of it is. -/
theorem substituteAll_iff (hdistinct : names.Nodup) (hbody : ∀ t ∈ body, at' t.s 0 ≠ ch '#') :
    (∃ r, substituteAll m (names.zip (taken after pieces)) body = .ok r ∧
      texts r = replaceAll (names.zip (pieces.map Prod.fst)) body) ↔
    Kept m after body names pieces := by
  rw [kept_iff]
  induction body with
  | nil =>
      exact iff_of_true ⟨[], substituteAll_nil _, rfl⟩ (by simp)
  | cons t body ih =>
      have ht := hbody t List.mem_cons_self
      have hrestBody := fun u hu => hbody u (List.mem_cons_of_mem t hu)
      rw [List.forall_mem_cons, ← substituteAll_token_iff hdistinct ht, ← ih hrestBody,
        replaceAll_cons]
      constructor
      · rintro ⟨r, hr, htexts⟩
        obtain ⟨first, rest, hfirst, hrest, rfl⟩ := substituteAll_append (l := [t]).mp hr
        have hle := length_replaceAll_token ht hfirst
        have hle' := length_replaceAll hrestBody hrest
        rw [texts, List.map_append] at htexts
        have hlen := congrArg List.length htexts
        rw [List.length_append, List.length_append, List.length_map, List.length_map] at hlen
        obtain ⟨hone, htwo⟩ := List.append_inj htexts (by rw [List.length_map]; omega)
        exact ⟨⟨first, hfirst, hone⟩, rest, hrest, htwo⟩
      · rintro ⟨⟨first, hfirst, hone⟩, rest, hrest, htwo⟩
        refine ⟨first ++ rest, substituteAll_append.mpr ⟨first, rest, hfirst, hrest, rfl⟩, ?_⟩
        rw [texts, List.map_append, ← texts, ← texts, hone, htwo]

end Replacement

end Veron.MicroC
