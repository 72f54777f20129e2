/-
Absolute paths as texts: their components between slashes, and the names that are left
when empty and dot components go and each double dot takes the name before it.
-/
import Veron.CutText

namespace Veron.PathText

/-- One component more, after the names kept so far. -/
def keep (kept : List (List Char)) (part : List Char) : List (List Char) :=
  if part = [] ∨ part = ['.'] then kept
  else if part = ['.', '.'] then kept.dropLast
  else kept ++ [part]

/-- The names so far, and then those of the rest of a path. -/
def namesFrom (kept : List (List Char)) (rest : List Char) : List (List Char) :=
  (rest.splitOn '/').foldl keep kept

def names (path : List Char) : List (List Char) := namesFrom [] path

/-- A slash, and the names with single slashes between them. -/
def joined (l : List (List Char)) : List Char := '/' :: ['/'].intercalate l

def canonical (path : List Char) : List Char := joined (names path)

example : canonical "/a//./b/../c/".toList = "/a/c".toList := by decide

/-- What is kept as it is. -/
structure IsName (part : List Char) : Prop where
  filled : part ≠ []
  notDot : part ≠ ['.']
  notDotDot : part ≠ ['.', '.']
  noSlash : '/' ∉ part

variable {l kept parts : List (List Char)} {part path rest : List Char}

@[simp]
theorem keep_nil (kept : List (List Char)) : keep kept [] = kept := if_pos (.inl rfl)

@[simp]
theorem keep_dot (kept : List (List Char)) : keep kept ['.'] = kept := if_pos (.inr rfl)

@[simp]
theorem keep_dotdot (kept : List (List Char)) : keep kept ['.', '.'] = kept.dropLast := rfl

theorem keep_name (hname : IsName part) (kept : List (List Char)) :
    keep kept part = kept ++ [part] := by
  rw [keep, if_neg (not_or.mpr ⟨hname.filled, hname.notDot⟩), if_neg hname.notDotDot]

theorem keep_isName (hkept : ∀ name ∈ kept, IsName name) (hpart : '/' ∉ part) :
    ∀ name ∈ keep kept part, IsName name := by
  intro name hmem
  rw [keep] at hmem
  split at hmem
  · exact hkept name hmem
  · rename_i hplain
    split at hmem
    · exact hkept name (List.mem_of_mem_dropLast hmem)
    · rename_i hdotdot
      rw [not_or] at hplain
      rcases List.mem_append.mp hmem with hmem | hmem
      · exact hkept name hmem
      · cases List.mem_singleton.mp hmem
        exact ⟨hplain.1, hplain.2, hdotdot, hpart⟩

theorem foldl_keep_isName (hkept : ∀ name ∈ kept, IsName name) (hparts : ∀ p ∈ parts, '/' ∉ p) :
    ∀ name ∈ parts.foldl keep kept, IsName name := by
  induction parts generalizing kept with
  | nil => exact hkept
  | cons p parts ih =>
      apply ih
      · exact keep_isName hkept (hparts p List.mem_cons_self)
      · exact fun q hq => hparts q (List.mem_cons_of_mem p hq)

theorem foldl_keep_names (hl : ∀ name ∈ l, IsName name) (kept : List (List Char)) :
    l.foldl keep kept = kept ++ l := by
  induction l generalizing kept with
  | nil => exact (List.append_nil kept).symm
  | cons name l ih =>
      rw [List.foldl_cons, keep_name (hl name List.mem_cons_self),
        ih fun m hm => hl m (List.mem_cons_of_mem name hm), List.append_assoc]
      rfl

theorem names_isName (path : List Char) : ∀ name ∈ names path, IsName name :=
  foldl_keep_isName (by simp) fun _ hpart => CutText.not_mem_of_mem_splitOn hpart

@[simp]
theorem namesFrom_nil (kept : List (List Char)) : namesFrom kept [] = kept := by
  simp [namesFrom]

@[simp]
theorem namesFrom_slash (kept : List (List Char)) (rest : List Char) :
    namesFrom kept ('/' :: rest) = namesFrom kept rest := by
  simp [namesFrom, List.splitOn_cons_eq_if_modifyHead]

/-- A component ends with the path or at a slash. -/
theorem namesFrom_component (hpart : '/' ∉ part) (hrest : rest = [] ∨ rest.head? = some '/') :
    namesFrom kept (part ++ rest) = namesFrom (keep kept part) rest.tail := by
  rcases hrest with rfl | hrest
  · rw [List.append_nil, namesFrom, List.splitOn_eq_singleton hpart]
    exact (namesFrom_nil _).symm
  · obtain ⟨after, rfl⟩ := List.head?_eq_some_iff.mp hrest
    rw [namesFrom, List.splitOn_append_cons_self_of_not_mem hpart]
    rfl

theorem namesFrom_tail (hrest : rest = [] ∨ rest.head? = some '/') :
    namesFrom kept rest.tail = namesFrom kept rest := by
  rw [← List.nil_append rest, namesFrom_component List.not_mem_nil hrest, keep_nil]
  rfl

/-- Names that are joined are found again. -/
theorem names_joined (hl : ∀ name ∈ l, IsName name) : names (joined l) = l := by
  rw [names, joined, namesFrom_slash]
  cases l with
  | nil => exact namesFrom_nil []
  | cons name l =>
      rw [namesFrom, List.splitOn_intercalate '/' (fun m hm => (hl m hm).noSlash)
        (List.cons_ne_nil _ _),
        foldl_keep_names hl, List.nil_append]

theorem canonical_canonical (path : List Char) : canonical (canonical path) = canonical path := by
  rw [canonical, canonical, names_joined (names_isName path)]

theorem mem_foldl_keep {name : List Char} (hname : name ∈ parts.foldl keep kept) :
    name ∈ kept ∨ name ∈ parts := by
  induction parts generalizing kept with
  | nil => exact .inl hname
  | cons p parts ih =>
      rcases ih hname with hkept | hparts
      · rw [keep] at hkept
        split at hkept
        · exact .inl hkept
        split at hkept
        · exact .inl (List.mem_of_mem_dropLast hkept)
        · rcases List.mem_append.mp hkept with hkept | hp
          · exact .inl hkept
          · exact .inr (List.mem_singleton.mp hp ▸ List.mem_cons_self)
      · exact .inr (List.mem_cons_of_mem p hparts)

/-- Nothing but slashes and characters of the path. -/
theorem mem_canonical {c : Char} (hc : c ∈ canonical path) : c = '/' ∨ c ∈ path := by
  rcases List.mem_cons.mp hc with rfl | hc
  · exact .inl rfl
  refine (CutText.mem_intercalate hc).imp List.mem_singleton.mp fun ⟨name, hname, hc⟩ => ?_
  have hpart := (mem_foldl_keep hname).resolve_left List.not_mem_nil
  exact CutText.mem_of_mem_splitOn hpart hc

/-- A slash, and a slash after each name. -/
def dirs (l : List (List Char)) : List Char := '/' :: (l.map (· ++ ['/'])).flatten

@[simp]
theorem dirs_nil : dirs [] = ['/'] := rfl

theorem dirs_concat (l : List (List Char)) (name : List Char) :
    dirs (l ++ [name]) = dirs l ++ name ++ ['/'] := by
  simp [dirs]

theorem dirs_getLast? (l : List (List Char)) : (dirs l).getLast? = some '/' := by
  rcases List.eq_nil_or_concat l with rfl | ⟨l, name, rfl⟩
  · rfl
  · rw [List.concat_eq_append, dirs_concat, List.getLast?_concat]

/-- Before its last slash the text of some names does not end in one. -/
theorem getLast?_of_dirs {text : List Char} (hl : ∀ name ∈ l, IsName name)
    (htext : text ++ ['/'] = dirs l) : text.getLast? ≠ some '/' := by
  rcases List.eq_nil_or_concat l with rfl | ⟨l, name, rfl⟩
  · rw [List.append_left_eq_self.mp htext]
    simp
  · rw [List.concat_eq_append] at hl htext
    have hname := hl name (by simp)
    rw [dirs_concat] at htext
    rw [List.append_cancel_right htext, List.getLast?_append_of_ne_nil _ hname.filled]
    exact fun hlast => hname.noSlash (List.mem_of_getLast? hlast)

theorem dirs_eq_joined (hl : l ≠ []) : dirs l = joined l ++ ['/'] := by
  induction l with
  | nil => exact absurd rfl hl
  | cons name l ih =>
      cases l with
      | nil => simp [dirs, joined]
      | cons m l =>
          have htail := ih (List.cons_ne_nil m l)
          simp only [dirs, joined, List.cons_append, List.cons.injEq, true_and] at htail
          simp [dirs, joined, ← htail]

end Veron.PathText
