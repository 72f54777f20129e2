/-
`conf_set` with the calls it makes: when what it leaves is read back by
`conf_get_pub` as the old settings with one of them changed.
-/
import Mathlib.Data.List.TakeWhile
import Veron.AuthConf

namespace Veron.AuthConf

/-- auth.conf and the file it is rewritten in. -/
structure Files where
  conf : Option Text
  new : Option Text

/-- What the calls of one `conf_set` return, all of its prints together; where a print or the
flush fails, `left` is what the file has. -/
structure Calls where
  opened : Bool
  created : Bool
  printed : Bool
  flushed : Bool
  renamed : Bool
  left : Text

/-- A file that does not open is taken for one that is not there, and of the writes only the last
one, the flush, is looked at. -/
def confSet (c : Calls) (key : Text) (val : Option Text) (fs : Files) : Bool × Files :=
  let text :=
    if c.printed && c.flushed then set key val (if c.opened then fs.conf.getD [] else [])
    else c.left
  if !c.created then (false, fs)
  else if !c.flushed then (false, { fs with new := some text })
  else if !c.renamed then (false, { fs with new := some text })
  else (true, { conf := some text, new := none })

def confGetPub (n : ℕ) (key : Text) (fs : Files) : Option Text := fs.conf.bind (get n key)

/-- A value in a buffer of `n` bytes, where the empty one is none. -/
def fits (n : ℕ) (v : Text) : Option Text :=
  if v.take (n - 1) = [] then none else some (v.take (n - 1))

/-- Success sets the key and nothing else, failure sets nothing. -/
structure Keeps (c : Calls) (key : Text) (val : Option Text) (fs : Files) : Prop where
  set : (confSet c key val fs).1 = true → ∀ n key', equals ∉ key' →
    confGetPub n key' (confSet c key val fs).2 =
      if key' = key then val.bind (fits n) else confGetPub n key' fs
  failed : (confSet c key val fs).1 = false → ∀ n key',
    confGetPub n key' (confSet c key val fs).2 = confGetPub n key' fs

/-- The lines that are not empty. -/
def entries (t : Text) : List Text := (lines t).filter (· != [])

/-- The entries that are copied, up to the size of the table. -/
def others (key t : Text) : List Text := (entries t).filter (!hasKey key ·)

/-- The value on the first line of a key, empty if there is none. -/
def first (key : Text) (ls : List Text) : Text :=
  match ls.find? (hasKey key) with
  | none => []
  | some line => line.drop (key.length + 1)

theorem fits_nil (n : ℕ) : fits n [] = none := by rw [fits, List.take_nil, if_pos rfl]

theorem fits_inj {v w : Text} (h : ∀ n, fits n v = fits n w) : v = w := by
  have hn := h (v.length + w.length + 1)
  simp only [fits, Nat.add_sub_cancel] at hn
  rw [List.take_of_length_le (Nat.le_add_right _ _),
    List.take_of_length_le (Nat.le_add_left _ _)] at hn
  split_ifs at hn with hv hw hw
  · rw [hv, hw]
  · exact Option.some.inj hn

theorem get_eq_first (n : ℕ) (key t : Text) : get n key t = fits n (first key (entries t)) := by
  rw [get, find_filter_lines, first, entries]
  cases ((lines t).filter (· != [])).find? (hasKey key) with
  | none => rw [fits_nil]
  | some line => rfl

/-- A line is of one key only. -/
theorem hasKey_unique {k k' line : Text} (hk : equals ∉ k) (hk' : equals ∉ k')
    (h : hasKey k line) (h' : hasKey k' line) : k = k' := by
  obtain ⟨v, rfl⟩ := hasKey_iff.mp h
  exact (hasKey_line (e := (k, v)) hk' hk).mp h'

theorem first_eq_nil {key : Text} {ls : List Text} (h : ∀ l ∈ ls, ¬ hasKey key l) :
    first key ls = [] := by
  have hnone : ls.find? (hasKey key) = none := by simpa using h
  rw [first, hnone]

/-- The first line of a key decides. -/
theorem first_append {key : Text} (ls ms : List Text) :
    first key (ls ++ ms) = if ∃ l ∈ ls, hasKey key l then first key ls else first key ms := by
  rw [first, List.find?_append]
  split_ifs with h
  · obtain ⟨l, hl⟩ : ∃ l, ls.find? (hasKey key) = some l :=
      Option.isSome_iff_exists.mp (List.find?_isSome.mpr h)
    rw [first, hl]
    rfl
  · have hnone : ls.find? (hasKey key) = none := by simpa using h
    rw [hnone]
    rfl

/-- A value that is there has a line, with no line of its key before it. -/
theorem first_ne_nil {key : Text} {ls : List Text} (h : first key ls ≠ []) :
    ∃ front back, ls = front ++ (key ++ equals :: first key ls) :: back ∧
      ∀ l ∈ front, ¬ hasKey key l := by
  cases hfind : ls.find? (hasKey key) with
  | none =>
      rw [first, hfind] at h
      exact absurd rfl h
  | some line =>
      obtain ⟨hline, front, back, hsplit, hfront⟩ := List.find?_eq_some_iff_append.mp hfind
      obtain ⟨v, rfl⟩ := hasKey_iff.mp hline
      have hv : first key ls = v := by
        rw [first, hfind]
        exact drop_line key v
      refine ⟨front, back, hv.symm ▸ hsplit, fun l hl => ?_⟩
      simpa using hfront l hl

theorem length_of_mem_chunks {room : ℕ} {line t : Text} (hroom : 1 ≤ room)
    (hline : line.length + room ≤ 1023) : ∀ l ∈ chunks 1024 room line t, l.length ≤ 1023 := by
  induction t generalizing room line with
  | nil =>
      intro l hl
      rw [chunks] at hl
      split at hl
      · cases hl
      · rw [List.mem_singleton.mp hl]
        omega
  | cons c t ih =>
      rw [chunks]
      split_ifs with hend
      · refine List.forall_mem_cons.mpr ⟨?_, ih (by decide) (by decide)⟩
        rw [List.length_append, List.length_singleton]
        omega
      · have hne : room ≠ 1 := fun h => hend (.inr h)
        refine ih (by omega) ?_
        rw [List.length_append, List.length_singleton]
        omega

/-- Nothing of the text is left out. -/
theorem flatten_chunks (size room : ℕ) (line t : Text) :
    (chunks size room line t).flatten = line ++ t := by
  induction t generalizing room line with
  | nil =>
      rw [chunks]
      split_ifs with h
      · rw [h]
        rfl
      · simp
  | cons c t ih =>
      rw [chunks]
      split_ifs with hend
      · rw [List.flatten_cons, ih]
        simp
      · rw [ih]
        simp

theorem isLine_of_mem_entries {t l : Text} (h : l ∈ entries t) : IsLine l := by
  obtain ⟨hmem, hne⟩ := List.mem_filter.mp h
  obtain ⟨chunk, hchunk, rfl⟩ := List.mem_map.mp hmem
  have hlen := length_of_mem_chunks (by decide) (by decide) chunk hchunk
  have hcut : ∀ c ∈ cut chunk, (c != newline && c != 0x0d && c != 0) = true := by
    intro c hc
    rw [cut] at hc
    exact List.mem_takeWhile_imp (p := fun c => c != newline && c != 0x0d && c != 0) hc
  refine ⟨by simpa using hne, Nat.le_trans (List.takeWhile_prefix _).length_le hlen, ?_, ?_, ?_⟩
  · exact fun hc => absurd (hcut _ hc) (by decide)
  · exact fun hc => absurd (hcut _ hc) (by decide)
  · exact fun hc => absurd (hcut _ hc) (by decide)

/-- An entry stands somewhere in the text. -/
theorem infix_of_mem_entries {t l : Text} (h : l ∈ entries t) : ∃ a b, t = a ++ (l ++ b) := by
  obtain ⟨hmem, -⟩ := List.mem_filter.mp h
  obtain ⟨chunk, hchunk, rfl⟩ := List.mem_map.mp hmem
  obtain ⟨front, back, hsplit⟩ := List.append_of_mem hchunk
  obtain ⟨b, hb⟩ := List.takeWhile_prefix (l := chunk) fun c => c != newline && c != 0x0d && c != 0
  refine ⟨front.flatten, b ++ back.flatten, ?_⟩
  have hflat := flatten_chunks 1024 1023 [] t
  rw [hsplit, List.flatten_append, List.flatten_cons, List.nil_append] at hflat
  rw [← hflat, ← List.append_assoc (cut chunk), cut, hb]

theorem entries_render_append {ls : List Text} (h : ∀ l ∈ ls, IsLine l) (t : Text) :
    entries (render ls ++ t) = ls ++ entries t := by
  induction ls with
  | nil => rfl
  | cons l ls ih =>
      have htail := ih fun l' hl' => h l' (List.mem_cons_of_mem l hl')
      rw [render, List.flatMap_cons, List.append_assoc, List.append_assoc, List.singleton_append,
        entries, lines_line (h l List.mem_cons_self)]
      exact congrArg (l :: ·) htail

/-- What is written after the lines that are kept. -/
def newLine (key : Text) : Option Text → Text
  | none => []
  | some v => key ++ equals :: v ++ [newline]

/-- An equals sign that ends the line leaves every value empty. -/
theorem first_newLine_nil {key key' : Text} (hkey : equals ∉ key) :
    first key' (entries (newLine key (some []))) = [] := by
  obtain ⟨es, hes⟩ : ∃ es, entries (newLine key (some [])) = es := ⟨_, rfl⟩
  rw [hes]
  by_contra hne
  obtain ⟨front, back, hsplit, -⟩ := first_ne_nil hne
  generalize first key' es = v at hsplit hne
  have hmem : key' ++ equals :: v ∈ entries (newLine key (some [])) := by
    rw [hes, hsplit]
    exact List.mem_append_right front List.mem_cons_self
  obtain ⟨a, b, htext⟩ := infix_of_mem_entries hmem
  have hnl := (isLine_of_mem_entries hmem).2.2.1
  have hends : key ++ equals :: [newline] = (a ++ key') ++ equals :: (v ++ b) := by
    rw [newLine] at htext
    simpa using htext
  obtain ⟨-, -, hvalue⟩ := (List.append_cons_inj_of_notMem hkey (by decide)).mp hends
  cases v with
  | nil => exact hne rfl
  | cons c v =>
      rw [List.cons_append] at hvalue
      rw [← (List.cons.inj hvalue).1] at hnl
      simp at hnl

/-- A value whose line is read back as written. -/
theorem entries_newLine {key v : Text} (h : IsLine (key ++ equals :: v)) :
    entries (newLine key (some v)) = [key ++ equals :: v] := by
  have hline := lines_line h []
  rw [newLine]
  exact hline

theorem set_eq (key : Text) (val : Option Text) (t : Text) :
    set key val t = render ((others key t).take 64) ++ newLine key val := by
  have hothers : (lines t).filter (fun line => line != [] && !hasKey key line) = others key t := by
    rw [others, entries, List.filter_filter]
    exact List.filter_congr fun _ _ => Bool.and_comm _ _
  rw [set.eq_def, hothers]
  cases val <;> rfl

theorem entries_set (key : Text) (val : Option Text) (t : Text) :
    entries (set key val t) = (others key t).take 64 ++ entries (newLine key val) := by
  rw [set_eq]
  apply entries_render_append
  intro l hl
  exact isLine_of_mem_entries (List.mem_filter.mp (List.mem_of_mem_take hl)).1

theorem not_hasKey_of_mem_others {key t l : Text} (h : l ∈ others key t) : ¬ hasKey key l := by
  simpa using (List.mem_filter.mp h).2

/-- The lines that go are not those of another key. -/
theorem first_others {key key' t : Text} (hkey : equals ∉ key) (hkey' : equals ∉ key')
    (hne : key' ≠ key) : first key' (others key t) = first key' (entries t) := by
  have hsame : (fun l => decide ((!hasKey key l) = true ∧ hasKey key' l = true)) = hasKey key' := by
    funext l
    cases h' : hasKey key' l with
    | false => simp
    | true =>
        have hno : ¬ hasKey key l := fun h => hne (hasKey_unique hkey' hkey h' h)
        simp [hno]
  rw [first, first, others, List.find?_filter, hsame]

/-- How many lines can be kept. -/
def Calls.cap (c : Calls) : ℕ := if c.opened then 64 else 0

def Calls.Succeed (c : Calls) : Prop := c.created ∧ c.flushed ∧ c.renamed

/-- A value behind the lines that can be kept stands behind another line of its key. -/
def Room (cap : ℕ) (ls : List Text) : Prop :=
  ∀ front back k v, ls = front ++ (k ++ equals :: v) :: back → cap ≤ front.length →
    equals ∉ k → v ≠ [] → ∃ l ∈ front, hasKey k l

theorem confGetPub_eq_first (n : ℕ) (key : Text) (fs : Files) :
    confGetPub n key fs = fits n (first key (entries (fs.conf.getD []))) := by
  rw [confGetPub]
  cases fs.conf with
  | none => exact (fits_nil n).symm
  | some t => exact get_eq_first n key t

theorem confSet_succeeds_iff (c : Calls) (key : Text) (val : Option Text) (fs : Files) :
    (confSet c key val fs).1 = true ↔ c.Succeed := by
  rw [confSet, Calls.Succeed]
  cases c.created <;> cases c.flushed <;> cases c.renamed <;> simp

/-- What a write leaves of the entries. -/
theorem confSet_entries {c : Calls} (h : c.Succeed) (hprinted : c.printed) (key : Text)
    (val : Option Text) (fs : Files) :
    entries ((confSet c key val fs).2.conf.getD []) =
      (others key (fs.conf.getD [])).take c.cap ++ entries (newLine key val) := by
  obtain ⟨hcreated, hflushed, hrenamed⟩ := h
  rw [confSet, hcreated, hprinted, hflushed, hrenamed, Calls.cap]
  cases c.opened with
  | true => exact entries_set key val _
  | false => exact entries_set key val []

theorem confSet_failed {c : Calls} (h : ¬ c.Succeed) (key : Text) (val : Option Text) (fs : Files) :
    (confSet c key val fs).2.conf = fs.conf := by
  rw [Calls.Succeed] at h
  rw [confSet]
  cases hcreated : c.created <;> cases hflushed : c.flushed <;> cases hrenamed : c.renamed <;>
    simp_all

theorem bind_fits (n : ℕ) (val : Option Text) : val.bind (fits n) = fits n (val.getD []) := by
  cases val with
  | none => exact (fits_nil n).symm
  | some v => rfl

/-- The settings a successful write leaves, whatever the buffer they are read into. -/
theorem keeps_iff_first {c : Calls} (h : c.Succeed) (hprinted : c.printed) (key : Text)
    (val : Option Text) (fs : Files) : Keeps c key val fs ↔ ∀ key', equals ∉ key' →
      first key' ((others key (fs.conf.getD [])).take c.cap ++ entries (newLine key val)) =
        if key' = key then val.getD [] else first key' (entries (fs.conf.getD [])) := by
  have hok := (confSet_succeeds_iff c key val fs).mpr h
  have hafter : ∀ n key', confGetPub n key' (confSet c key val fs).2 = fits n (first key'
      ((others key (fs.conf.getD [])).take c.cap ++ entries (newLine key val))) := by
    intro n key'
    rw [confGetPub_eq_first, confSet_entries h hprinted]
  have hbefore : ∀ n key', (if key' = key then val.bind (fits n) else confGetPub n key' fs) =
      fits n (if key' = key then val.getD [] else first key' (entries (fs.conf.getD []))) := by
    intro n key'
    rw [bind_fits, confGetPub_eq_first]
    exact (apply_ite (fits n) _ _ _).symm
  constructor
  · intro hkeeps key' hkey'
    apply fits_inj
    intro n
    rw [← hafter, ← hbefore]
    exact hkeeps.set hok n key' hkey'
  · intro hfirst
    refine ⟨fun _ n key' hkey' => ?_, fun hfail => absurd hok (by simp [hfail])⟩
    rw [hafter, hbefore, hfirst key' hkey']

/-- What the line of a value has to be. -/
def Fitting (key : Text) (val : Option Text) : Prop :=
  ∀ v, val = some v → v ≠ [] → IsLine (key ++ equals :: v)

theorem first_newLine {key key' : Text} {val : Option Text} (hkey : equals ∉ key)
    (hkey' : equals ∉ key') (h : Fitting key val) :
    first key' (entries (newLine key val)) = if key' = key then val.getD [] else [] := by
  cases val with
  | none => exact (ite_self _).symm
  | some v =>
      by_cases hv : v = []
      · subst hv
        rw [first_newLine_nil hkey]
        exact (ite_self _).symm
      · rw [entries_newLine (h v rfl hv)]
        split_ifs with hsame
        · have hself : hasKey key' (key ++ equals :: v) := hasKey_iff.mpr ⟨v, by rw [hsame]⟩
          rw [first, List.find?_cons_of_pos hself, hsame]
          exact drop_line key v
        · apply first_eq_nil
          rintro l hl hhas
          rw [List.mem_singleton.mp hl] at hhas
          exact hsame (hasKey_unique hkey' hkey hhas (hasKey_iff.mpr ⟨v, rfl⟩))

/-- A value that is read back had a line it fits on. -/
theorem fitting_of_first {key : Text} {val : Option Text}
    (h : first key (entries (newLine key val)) = val.getD []) : Fitting key val := by
  rintro v rfl hv
  rw [Option.getD_some] at h
  obtain ⟨front, back, hsplit, -⟩ := first_ne_nil (h.symm ▸ hv)
  rw [h] at hsplit
  exact isLine_of_mem_entries (hsplit ▸ List.mem_append_right front List.mem_cons_self)

theorem first_take_of_room {cap : ℕ} {ls : List Text} (hroom : Room cap ls) {k : Text}
    (hk : equals ∉ k) (hnone : ¬ ∃ l ∈ ls.take cap, hasKey k l) : first k ls = [] := by
  by_contra hne
  obtain ⟨front, back, hsplit, hfront⟩ := first_ne_nil hne
  have hbehind : cap ≤ front.length := by
    by_contra hlt
    apply hnone
    refine ⟨_, ?_, hasKey_iff.mpr ⟨first k ls, rfl⟩⟩
    nth_rewrite 1 [hsplit]
    rw [List.take_append]
    obtain ⟨j, hj⟩ : ∃ j, cap - front.length = j + 1 := ⟨cap - front.length - 1, by omega⟩
    rw [hj, List.take_succ_cons]
    exact List.mem_append_right _ List.mem_cons_self
  obtain ⟨l, hl, hhas⟩ := hroom front back k _ hsplit hbehind hk hne
  exact hfront l hl hhas

theorem first_take {k : Text} {cap : ℕ} {ls : List Text} (h : ∃ l ∈ ls.take cap, hasKey k l) :
    first k (ls.take cap) = first k ls := by
  have hsplit := @first_append k (ls.take cap) (ls.drop cap)
  rw [List.take_append_drop, if_pos h] at hsplit
  exact hsplit.symm

/-- A setting behind the lines that can be kept is lost. -/
theorem room_of_first {key t : Text} {val : Option Text} {cap : ℕ} (hkey : equals ∉ key)
    (hfitting : Fitting key val)
    (h : ∀ key', equals ∉ key' → key' ≠ key →
      first key' ((others key t).take cap ++ entries (newLine key val)) = first key' (entries t)) :
    Room cap (others key t) := by
  intro front back k v hsplit hbehind hk hv
  by_contra hnone
  have hmem : k ++ equals :: v ∈ others key t := by
    rw [hsplit]
    exact List.mem_append_right front List.mem_cons_self
  have hne : k ≠ key := by
    rintro rfl
    exact not_hasKey_of_mem_others hmem (hasKey_iff.mpr ⟨v, rfl⟩)
  have hlost : ¬ ∃ l ∈ (others key t).take cap, hasKey k l := by
    rintro ⟨l, hl, hhas⟩
    rw [hsplit, List.take_append_of_le_length hbehind] at hl
    exact hnone ⟨l, List.mem_of_mem_take hl, hhas⟩
  have hbefore : first k (entries t) = v := by
    rw [← first_others hkey hk hne, hsplit, first_append, if_neg hnone, first,
      List.find?_cons_of_pos (hasKey_iff.mpr ⟨v, rfl⟩)]
    exact drop_line k v
  have hafter := h k hk hne
  rw [first_append, if_neg hlost, first_newLine hkey hk hfitting, if_neg hne, hbefore] at hafter
  exact hv hafter.symm

theorem keeps_iff_of_printed {key : Text} (hkey : equals ∉ key) {val : Option Text} {c : Calls}
    {fs : Files} (hcalls : c.Succeed) (hprinted : c.printed) :
    Keeps c key val fs ↔ Fitting key val ∧ Room c.cap (others key (fs.conf.getD [])) := by
  rw [keeps_iff_first hcalls hprinted]
  obtain ⟨t, ht⟩ : ∃ t, fs.conf.getD [] = t := ⟨_, rfl⟩
  rw [ht]
  have hown : ¬ ∃ l ∈ (others key t).take c.cap, hasKey key l := by
    rintro ⟨l, hl, hhas⟩
    exact not_hasKey_of_mem_others (List.mem_of_mem_take hl) hhas
  constructor
  · intro hfirst
    have hself := hfirst key hkey
    rw [first_append, if_neg hown, if_pos rfl] at hself
    have hfitting := fitting_of_first hself
    refine ⟨hfitting, room_of_first hkey hfitting fun key' hkey' hne => ?_⟩
    rw [hfirst key' hkey', if_neg hne]
  · rintro ⟨hfitting, hroom⟩ key' hkey'
    rw [first_append]
    by_cases hsame : key' = key
    · rw [if_pos hsame, hsame, if_neg hown, first_newLine hkey hkey hfitting, if_pos rfl]
    · have hothers : first key' (others key t) = first key' (entries t) :=
        first_others hkey hkey' hsame
      rw [if_neg hsame, ← hothers]
      split_ifs with hkept
      · exact first_take hkept
      · rw [first_newLine hkey hkey' hfitting, if_neg hsame, first_take_of_room hroom hkey' hkept]

/-- Where the prints fail unseen and nothing of the text is in the file, no setting is. -/
theorem first_of_keeps_nothing {key : Text} {val : Option Text} {c : Calls} {fs : Files}
    (hcalls : c.Succeed) (hprinted : ¬ c.printed) (hleft : c.left = [])
    (hkeeps : Keeps c key val fs) (key' : Text) (hkey' : equals ∉ key') :
    (if key' = key then val.getD [] else first key' (entries (fs.conf.getD []))) = [] := by
  have hok := (confSet_succeeds_iff c key val fs).mpr hcalls
  have hconf : (confSet c key val fs).2.conf = some [] := by
    obtain ⟨hcreated, hflushed, hrenamed⟩ := hcalls
    rw [confSet, hcreated, hflushed, hrenamed, (Bool.not_eq_true _).mp hprinted, hleft]
    rfl
  apply fits_inj
  intro n
  have hset := hkeeps.set hok n key' hkey'
  rw [confGetPub_eq_first, hconf, bind_fits, confGetPub_eq_first] at hset
  rw [apply_ite (fits n), ← hset]
  rfl

theorem room_of_length_le {cap : ℕ} {ls : List Text} (h : ls.length ≤ cap) : Room cap ls := by
  rintro front back k v rfl hbehind
  rw [List.length_append, List.length_cons] at h
  omega

end Veron.AuthConf
