/-
Texts cut at a separator: lines at newlines, and fields at tabs.  A field ends at every tab,
or at every run of tabs.
-/
import Mathlib.Data.List.DropRight
import Mathlib.Data.List.Infix
import Mathlib.Data.List.TakeWhile
import Mathlib.Tactic.Common

namespace Veron.CutText

section

variable {α : Type*} {sep piece : List α} {pieces : List (List α)} {c : α}

theorem mem_intercalate_of_mem (hpiece : piece ∈ pieces) (hc : c ∈ piece) :
    c ∈ sep.intercalate pieces := by
  induction pieces with
  | nil => cases hpiece
  | cons p pieces ih =>
      cases pieces with
      | nil =>
          cases List.mem_singleton.mp hpiece
          rwa [List.intercalate_singleton]
      | cons q pieces =>
          rw [List.intercalate_cons_cons, List.append_assoc]
          rcases List.mem_cons.mp hpiece with rfl | hpiece
          · exact List.mem_append_left _ hc
          · exact List.mem_append_right _ (List.mem_append_right _ (ih hpiece))

theorem mem_intercalate (hc : c ∈ sep.intercalate pieces) :
    c ∈ sep ∨ ∃ piece ∈ pieces, c ∈ piece := by
  induction pieces with
  | nil => cases hc
  | cons p pieces ih =>
      cases pieces with
      | nil =>
          rw [List.intercalate_singleton] at hc
          exact .inr ⟨p, List.mem_cons_self, hc⟩
      | cons q pieces =>
          rw [List.intercalate_cons_cons, List.append_assoc, List.mem_append, List.mem_append] at hc
          rcases hc with hc | hc | hc
          · exact .inr ⟨p, List.mem_cons_self, hc⟩
          · exact .inl hc
          · refine (ih hc).imp_right fun ⟨piece, hpiece, hc⟩ => ?_
            exact ⟨piece, List.mem_cons_of_mem p hpiece, hc⟩

/-- Two texts without `a`, each ended by the end or by `a`. -/
theorem append_inj_of_notMem {a : α} {s t u v : List α} (hs : a ∉ s) (ht : a ∉ t)
    (hu : ∀ c w, u = c :: w → c = a) (hv : ∀ c w, v = c :: w → c = a)
    (h : s ++ u = t ++ v) : s = t := by
  rcases List.append_eq_append_iff.mp h with ⟨r, rfl, hr⟩ | ⟨r, rfl, hr⟩
  · cases r with
    | nil => simp
    | cons c r => exact absurd (by simp [hu c _ hr]) ht
  · cases r with
    | nil => simp
    | cons c r => exact absurd (by simp [hv c _ hr]) hs

theorem append_cons_inj_of_notMem {a : α} {s t u v : List α} (hs : a ∉ s) (ht : a ∉ t)
    (h : s ++ a :: u = t ++ a :: v) : s = t ∧ u = v := by
  have hfirst : ∀ (w : List α) b r, a :: w = b :: r → b = a :=
    fun _ _ _ hw => (List.cons.inj hw).1.symm
  obtain rfl := append_inj_of_notMem hs ht (hfirst u) (hfirst v) h
  exact ⟨rfl, (List.cons.inj (List.append_cancel_left h)).2⟩

theorem append_cons_inj_of_notMem_right {a : α} {s t u v : List α} (hu : a ∉ u)
    (hv : a ∉ v) (h : s ++ a :: u = t ++ a :: v) : s = t ∧ u = v := by
  rcases List.append_eq_append_iff.mp h with ⟨r, hr, hru⟩ | ⟨r, hr, hru⟩
  · cases r with
    | nil => exact ⟨by simpa using hr.symm, by simpa using hru⟩
    | cons c r =>
        obtain ⟨rfl, rfl⟩ := List.cons.inj hru
        exact absurd (by simp) hu
  · cases r with
    | nil => exact ⟨by simpa using hr, by simpa using hru.symm⟩
    | cons c r =>
        obtain ⟨rfl, rfl⟩ := List.cons.inj hru
        exact absurd (by simp) hv

theorem not_of_mem_splitOnP {p : α → Bool} {l : List α} (hpiece : piece ∈ l.splitOnP p)
    (hc : c ∈ piece) : p c = false := by
  induction l generalizing piece with
  | nil =>
      cases List.mem_singleton.mp hpiece
      cases hc
  | cons b l ih =>
      rw [List.splitOnP_cons_eq_if_modifyHead] at hpiece
      split at hpiece
      · rcases List.mem_cons.mp hpiece with rfl | hpiece
        · cases hc
        · exact ih hpiece hc
      · rename_i hb
        obtain ⟨head, rest, heq⟩ := List.exists_cons_of_ne_nil (List.splitOnP_ne_nil p l)
        rw [heq] at ih hpiece
        rcases List.mem_cons.mp hpiece with rfl | hpiece
        · rcases List.mem_cons.mp hc with rfl | hc
          · exact Bool.eq_false_iff.mpr hb
          · exact ih List.mem_cons_self hc
        · exact ih (List.mem_cons_of_mem head hpiece) hc

section

variable [BEq α] [LawfulBEq α] {a : α} {l : List α}

theorem not_mem_of_mem_splitOn (hpiece : piece ∈ l.splitOn a) : a ∉ piece := by
  intro hmem
  rw [List.splitOn_eq_splitOnP] at hpiece
  exact absurd (not_of_mem_splitOnP hpiece hmem) (by simp)

/-- Nothing is in a piece that is not in the whole. -/
theorem mem_of_mem_splitOn (hpiece : piece ∈ l.splitOn a) (hc : c ∈ piece) : c ∈ l := by
  have hmem : c ∈ [a].intercalate (l.splitOn a) := mem_intercalate_of_mem hpiece hc
  rwa [List.intercalate_splitOn] at hmem

end

end

/-- The last line need not be ended. -/
def lines (text : List Char) : List (List Char) :=
  let pieces := text.splitOn '\n'
  if pieces.getLast? = some [] then pieces.dropLast else pieces

def endedLines (text : List Char) : List (List Char) := (text.splitOn '\n').dropLast

def unlines (ls : List (List Char)) : List Char := ls.flatMap (· ++ ['\n'])

example : lines "a\n\nb".toList = [['a'], [], ['b']] := by decide

variable {ls : List (List Char)} {fields : List (List Char)} {line text : List Char}

theorem newline_not_mem_lines (hline : line ∈ lines text) : '\n' ∉ line := by
  apply not_mem_of_mem_splitOn (l := text)
  rw [lines] at hline
  split at hline
  · exact List.mem_of_mem_dropLast hline
  · exact hline

theorem splitOn_unlines (hls : ∀ line ∈ ls, '\n' ∉ line) :
    (unlines ls).splitOn '\n' = ls ++ [[]] := by
  induction ls with
  | nil => rfl
  | cons line ls ih =>
      rw [unlines, List.flatMap_cons, List.append_assoc, List.singleton_append,
        List.splitOn_append_cons_self_of_not_mem (hls line List.mem_cons_self), ← unlines,
        ih fun m hm => hls m (List.mem_cons_of_mem line hm), List.cons_append]

theorem lines_unlines (hls : ∀ line ∈ ls, '\n' ∉ line) : lines (unlines ls) = ls := by
  rw [lines, splitOn_unlines hls]
  simp

/-- Of a text that ends with its last line, every line is ended. -/
theorem lines_append_newline (text : List Char) :
    lines (text ++ ['\n']) = endedLines (text ++ ['\n']) := by
  have hsplit : (text ++ ['\n']).splitOn '\n' = text.splitOn '\n' ++ [[]] := by
    rw [List.splitOn_append_cons_self, List.splitOn_nil]
  rw [lines, endedLines, hsplit, List.getLast?_concat, if_pos rfl]

theorem endedLines_append_newline (text : List Char) :
    endedLines (text ++ ['\n']) = text.splitOn '\n' := by
  rw [endedLines, List.splitOn_append_cons_self, List.splitOn_nil, List.dropLast_concat]

/-- Field `n`, counted from 1; those that a line does not have are empty. -/
def field (line : List Char) (n : ℕ) : List Char := (line.splitOn '\t').getD (n - 1) []

/-- So many fields between runs of tabs, the last one up to the end. -/
def words : ℕ → List Char → List (List Char)
  | 0, _ => []
  | 1, line => [(line.dropWhile (· = '\t')).rdropWhile (· = '\t')]
  | n + 2, line =>
      let line := line.dropWhile (· = '\t')
      line.takeWhile (· ≠ '\t') :: words (n + 1) (line.dropWhile (· ≠ '\t'))

example : words 3 "a\t\tb\tc\td".toList = ["a".toList, "b".toList, "c\td".toList] := by decide

def joined (fields : List (List Char)) : List Char := ['\t'].intercalate fields

theorem field_mem_of_mem {c : Char} {n : ℕ} (h : c ∈ field line n) : c ∈ line := by
  rw [field, List.getD_eq_getElem?_getD] at h
  cases hpiece : (line.splitOn '\t')[n - 1]? with
  | none =>
      rw [hpiece] at h
      cases h
  | some piece =>
      rw [hpiece] at h
      exact mem_of_mem_splitOn (List.mem_of_getElem? hpiece) h

theorem field_joined (hfields : ∀ f ∈ fields, '\t' ∉ f) (hne : fields ≠ []) (n : ℕ) :
    field (joined fields) n = fields.getD (n - 1) [] := by
  rw [field, joined, List.splitOn_intercalate '\t' hfields hne]

@[simp]
theorem words_tab (n : ℕ) (line : List Char) : words n ('\t' :: line) = words n line := by
  match n with
  | 0 => rfl
  | 1 => rfl
  | n + 2 => rfl

/-- Fields with something in them are the same between tabs and between runs of tabs. -/
theorem words_joined (hfields : ∀ f ∈ fields, '\t' ∉ f ∧ f ≠ []) :
    words fields.length (joined fields) = fields := by
  induction fields with
  | nil => rfl
  | cons f fields ih =>
      obtain ⟨htab, hne⟩ := hfields f List.mem_cons_self
      have hword : ∀ c ∈ f, c ≠ '\t' := fun c hc h => htab (h ▸ hc)
      have hstart : ∀ rest, (f ++ rest).dropWhile (· = '\t') = f ++ rest := by
        intro rest
        obtain ⟨c, f, rfl⟩ := List.exists_cons_of_ne_nil hne
        simp [hword c List.mem_cons_self]
      cases fields with
      | nil =>
          have hend : f.rdropWhile (· = '\t') = f := by
            rw [List.rdropWhile_eq_self_iff]
            intro hl
            simpa using hword _ (List.getLast_mem hl)
          have hwhole := hstart []
          rw [List.append_nil] at hwhole
          rw [joined, List.intercalate_singleton, List.length_singleton, words, hwhole, hend]
      | cons g fields =>
          have hrest := ih fun h hh => hfields h (List.mem_cons_of_mem f hh)
          rw [joined, List.intercalate_cons_cons, List.append_assoc, ← joined, List.length_cons,
            List.length_cons, words, hstart, List.takeWhile_append_of_pos (by simpa using hword),
            List.dropWhile_append_of_pos (by simpa using hword), List.singleton_append,
            List.takeWhile_cons_of_neg (by simp), List.dropWhile_cons_of_neg (by simp), words_tab,
            List.append_nil]
          exact congrArg _ hrest

end Veron.CutText
