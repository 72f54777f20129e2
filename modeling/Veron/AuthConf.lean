/-
auth.conf: one `key=value` a line, read with a line buffer of 1024 bytes and
rewritten as a whole.  On files that hold one entry a key the two operations
are those of a dictionary.
-/
import Mathlib.Data.List.Nodup
import Veron.Dict

namespace Veron.AuthConf

abbrev Text := List UInt8

def newline : UInt8 := 0x0a

def equals : UInt8 := 0x3d

/-- What successive `fgets(line, size)` return: one byte less than the buffer
has, or up to and with a newline. `room` is what the buffer still takes. -/
def chunks (size : ℕ) : ℕ → Text → Text → List Text
  | _, line, [] => if line = [] then [] else [line]
  | room, line, c :: t =>
      if c = newline ∨ room = 1 then (line ++ [c]) :: chunks size (size - 1) [] t
      else chunks size (room - 1) (line ++ [c]) t

/-- The line as a string, up to `\r` or `\n`. -/
def cut (line : Text) : Text := line.takeWhile fun c => c != newline && c != 0x0d && c != 0

def lines (t : Text) : List Text := (chunks 1024 1023 [] t).map cut

def hasKey (key line : Text) : Bool := (key ++ [equals]).isPrefixOf line

/-- `conf_get_pub` into a buffer of `n` bytes; an empty value is none. -/
def get (n : ℕ) (key t : Text) : Option Text :=
  match (lines t).find? (hasKey key) with
  | none => none
  | some line =>
      let v := (line.drop (key.length + 1)).take (n - 1)
      if v = [] then none else some v

/-- The text `conf_set` replaces the file by; with no value the key goes. -/
def set (key : Text) (val : Option Text) (t : Text) : Text :=
  let keep := ((lines t).filter fun line => line != [] && !hasKey key line).take 64
  keep.flatMap (· ++ [newline]) ++
    match val with
    | none => []
    | some v => key ++ equals :: v ++ [newline]

/-- A line a buffer holds, with nothing in it to cut it short. -/
def IsLine (line : Text) : Prop :=
  line ≠ [] ∧ line.length ≤ 1023 ∧ newline ∉ line ∧ 0x0d ∉ line ∧ 0 ∉ line

def render (ls : List Text) : Text := ls.flatMap (· ++ [newline])

/-- A short line is read whole, whatever the size of the buffer. -/
theorem chunks_short {size room : ℕ} {line l : Text} (hl : newline ∉ l) (hlen : l.length < room)
    (t : Text) :
    chunks size room line (l ++ newline :: t) =
      (line ++ l ++ [newline]) :: chunks size (size - 1) [] t := by
  induction l generalizing room line with
  | nil => simp [chunks]
  | cons c l ih =>
      rw [List.mem_cons, not_or] at hl
      obtain ⟨hc, hl⟩ := hl
      rw [List.length_cons] at hlen
      have hroom : ¬ (c = newline ∨ room = 1) := by
        rintro (h | h)
        · exact hc h.symm
        · omega
      rw [List.cons_append, chunks, if_neg hroom, ih hl (by omega)]
      simp

/-- A line that fills the buffer leaves its newline to the next read. -/
theorem chunks_full {size room : ℕ} {line l : Text} (hl : newline ∉ l) (hlen : l.length = room)
    (hroom : room ≠ 0) (t : Text) :
    chunks size room line (l ++ newline :: t) =
      (line ++ l) :: [newline] :: chunks size (size - 1) [] t := by
  induction l generalizing room line with
  | nil => exact absurd hlen.symm hroom
  | cons c l ih =>
      rw [List.mem_cons, not_or] at hl
      obtain ⟨hc, hl⟩ := hl
      rw [List.length_cons] at hlen
      by_cases hlast : l = []
      · subst hlast
        have hone : room = 1 := by
          rw [← hlen]
          rfl
        rw [List.cons_append, chunks, if_pos (.inr hone), List.nil_append, chunks,
          if_pos (.inl rfl), List.nil_append]
      · have hpos : l.length ≠ 0 := fun h => hlast (List.length_eq_zero_iff.mp h)
        have hroom' : ¬ (c = newline ∨ room = 1) := by
          rintro (h | h)
          · exact hc h.symm
          · omega
        rw [List.cons_append, chunks, if_neg hroom', ih hl (by omega) (by omega)]
        simp

theorem cut_line {l : Text} (h : IsLine l) (rest : Text) :
    cut (l ++ newline :: rest) = l ∧ cut l = l := by
  have hall : ∀ c ∈ l, (c != newline && c != 0x0d && c != 0) = true := by
    intro c hc
    have h1 : c ≠ newline := fun heq => h.2.2.1 (heq ▸ hc)
    have h2 : c ≠ 0x0d := fun heq => h.2.2.2.1 (heq ▸ hc)
    have h3 : c ≠ 0 := fun heq => h.2.2.2.2 (heq ▸ hc)
    simp [h1, h2, h3]
  constructor
  · rw [cut, List.takeWhile_append_of_pos hall, List.takeWhile_cons_of_neg (by simp),
      List.append_nil]
  · have hself : (l ++ []).takeWhile _ = l ++ [].takeWhile _ := List.takeWhile_append_of_pos hall
    rw [List.append_nil, List.takeWhile_nil, List.append_nil] at hself
    exact hself

/-- Up to empty lines, a line in front is read as itself. -/
theorem lines_line {l : Text} (h : IsLine l) (t : Text) :
    (lines (l ++ newline :: t)).filter (· != []) = l :: (lines t).filter (· != []) := by
  have hne : (l != []) = true := by simp [h.1]
  rcases Nat.lt_or_eq_of_le h.2.1 with hlt | heq
  · rw [lines, chunks_short h.2.2.1 hlt, List.map_cons, List.nil_append, (cut_line h []).1,
      List.filter_cons_of_pos (p := (· != [])) hne]
    rfl
  · have hempty : cut [newline] = [] := rfl
    rw [lines, chunks_full h.2.2.1 heq (by omega), List.map_cons, List.map_cons, List.nil_append,
      (cut_line h []).2, hempty, List.filter_cons_of_pos (p := (· != [])) hne,
      List.filter_cons_of_neg (by simp)]
    rfl

theorem lines_render {ls : List Text} (h : ∀ l ∈ ls, IsLine l) :
    (lines (render ls)).filter (· != []) = ls := by
  induction ls with
  | nil => rfl
  | cons l ls ih =>
      have htail := ih fun l' hl' => h l' (List.mem_cons_of_mem l hl')
      rw [render, List.flatMap_cons, List.append_assoc, List.singleton_append,
        lines_line (h l List.mem_cons_self)]
      exact congrArg (l :: ·) htail

theorem hasKey_iff {key line : Text} : hasKey key line ↔ ∃ v, line = key ++ equals :: v := by
  rw [hasKey, List.isPrefixOf_iff_prefix]
  constructor
  · rintro ⟨v, rfl⟩
    exact ⟨v, by simp⟩
  · rintro ⟨v, rfl⟩
    exact ⟨v, by simp⟩

theorem drop_line (k v : Text) : (k ++ equals :: v).drop (k.length + 1) = v := by
  rw [← List.drop_drop, List.drop_left]
  rfl

@[simp] theorem hasKey_nil (key : Text) : hasKey key [] = false := by cases key <;> rfl

/-- A key with its value. -/
abbrev Entry := Text × Text

def Entry.line (e : Entry) : Text := e.1 ++ equals :: e.2

/-- A file of one entry a key, each on a line that is read back as written. -/
structure WellFormed (es : List Entry) : Prop where
  nodup : (es.map Prod.fst).Nodup
  keys : ∀ e ∈ es, equals ∉ e.1
  values : ∀ e ∈ es, e.2 ≠ []
  lines : ∀ e ∈ es, IsLine e.line
  length : es.length ≤ 64

def text (es : List Entry) : Text := render (es.map Entry.line)

theorem takeWhile_key {key : Text} (hkey : equals ∉ key) (rest : Text) :
    (key ++ equals :: rest).takeWhile (· != equals) = key := by
  have hall : ∀ c ∈ key, (c != equals) = true := by
    intro c hc
    have hne : c ≠ equals := fun heq => hkey (heq ▸ hc)
    simp [hne]
  rw [List.takeWhile_append_of_pos hall, List.takeWhile_cons_of_neg (by simp), List.append_nil]

theorem hasKey_line {key : Text} {e : Entry} (hkey : equals ∉ key) (he : equals ∉ e.1) :
    hasKey key e.line = true ↔ e.1 = key := by
  rw [hasKey, List.isPrefixOf_iff_prefix, Entry.line]
  constructor
  · rintro ⟨rest, h⟩
    have hcut := congrArg (List.takeWhile (· != equals)) h
    rw [List.append_assoc, List.singleton_append, takeWhile_key hkey, takeWhile_key he] at hcut
    exact hcut.symm
  · rintro rfl
    exact ⟨e.2, by simp⟩

theorem find_filter_lines (key t : Text) :
    (lines t).find? (hasKey key) = ((lines t).filter (· != [])).find? (hasKey key) := by
  induction lines t with
  | nil => rfl
  | cons l ls ih =>
      by_cases hl : l = []
      · subst hl
        rw [List.find?_cons_of_neg (by simp), List.filter_cons_of_neg (by simp), ih]
      · rw [List.filter_cons_of_pos (by simp [hl]), List.find?_cons, List.find?_cons, ih]

theorem find_line {es : List Entry} {key : Text} (hkey : equals ∉ key)
    (hes : ∀ e ∈ es, equals ∉ e.1) :
    (es.map Entry.line).find? (hasKey key) = (es.lookup key).map fun v => Entry.line (key, v) := by
  induction es with
  | nil => rfl
  | cons e es ih =>
      have htail := ih fun e' he' => hes e' (List.mem_cons_of_mem e he')
      have hiff := hasKey_line hkey (hes e List.mem_cons_self)
      obtain ⟨k, v⟩ := e
      rw [List.map_cons, List.find?_cons]
      by_cases hk : k = key
      · subst hk
        rw [hiff.mpr rfl, List.lookup_cons_self]
        rfl
      · have hno : hasKey key (Entry.line (k, v)) = false := by
          rw [← Bool.not_eq_true, hiff]
          exact hk
        rw [hno, lookup_cons_ne fun h => hk h.symm]
        exact htail

/-- Reading a key looks it up. -/
theorem get_text {es : List Entry} (hes : WellFormed es) {key : Text} (hkey : equals ∉ key) {n : ℕ}
    (hn : 2 ≤ n) : get n key (text es) = (es.lookup key).map (List.take (n - 1)) := by
  have hlines : ∀ l ∈ es.map Entry.line, IsLine l := by
    intro l hl
    obtain ⟨e, he, rfl⟩ := List.mem_map.mp hl
    exact hes.lines e he
  rw [get, find_filter_lines, text, lines_render hlines, find_line hkey hes.keys]
  cases hv : es.lookup key with
  | none => rfl
  | some v =>
      have hne : v ≠ [] := hes.values _ (mem_of_lookup hv)
      have hdrop : (Entry.line (key, v)).drop (key.length + 1) = v := by
        rw [Entry.line, ← List.drop_drop, List.drop_left]
        rfl
      have hcut : v.take (n - 1) ≠ [] := by
        rw [Ne, List.take_eq_nil_iff]
        rintro (h | h)
        · omega
        · exact hne h
      simp only [Option.map_some, hdrop, if_neg hcut]

/-- The entries with one key dropped. -/
def without (key : Text) (es : List Entry) : List Entry := es.filter fun e => e.1 != key

/-- Writing a key drops its old entry and appends the new one. -/
theorem set_text {es : List Entry} (hes : WellFormed es) {key : Text} (hkey : equals ∉ key)
    (val : Option Text) :
    set key val (text es) = text (without key es ++ (val.map fun v => (key, v)).toList) := by
  have hlines : ∀ l ∈ es.map Entry.line, IsLine l := by
    intro l hl
    obtain ⟨e, he, rfl⟩ := List.mem_map.mp hl
    exact hes.lines e he
  have hkeep : (lines (text es)).filter (fun line => line != [] && !hasKey key line) =
      (without key es).map Entry.line := by
    have hswap : (fun line => line != [] && !hasKey key line) =
        fun line => !hasKey key line && line != [] := funext fun line => Bool.and_comm _ _
    rw [hswap, ← List.filter_filter, text, lines_render hlines, List.filter_map, without]
    apply congrArg (List.map Entry.line)
    apply List.filter_congr
    intro e he
    have hiff := hasKey_line hkey (hes.keys e he)
    by_cases hk : e.1 = key
    · simp [hiff.mpr hk, hk]
    · have hno : hasKey key e.line = false := by
        rw [← Bool.not_eq_true, hiff]
        exact hk
      simp [hno, hk]
  have hlen : ((without key es).map Entry.line).length ≤ 64 := by
    rw [List.length_map]
    exact Nat.le_trans (List.length_filter_le _ _) hes.length
  rw [set.eq_def, hkeep, List.take_of_length_le hlen, text, render, List.map_append,
    List.flatMap_append]
  cases val with
  | none => rfl
  | some v => simp [Entry.line]

theorem lookup_without_self (key : Text) (es : List Entry) :
    (without key es).lookup key = none := by
  rw [List.lookup_eq_none_iff]
  intro e he
  have hne := (List.mem_filter.mp he).2
  simp only [bne_iff_ne] at hne
  simpa using fun h => hne h.symm

theorem lookup_without_ne {key key' : Text} (hne : key' ≠ key) (es : List Entry) :
    (without key es).lookup key' = es.lookup key' :=
  lookup_filter fun v => by simp [hne]

theorem WellFormed.without {es : List Entry} (hes : WellFormed es) (key : Text) :
    WellFormed (without key es) where
  nodup := hes.nodup.sublist (List.Sublist.map Prod.fst List.filter_sublist)
  keys e he := hes.keys e (List.mem_filter.mp he).1
  values e he := hes.values e (List.mem_filter.mp he).1
  lines e he := hes.lines e (List.mem_filter.mp he).1
  length := Nat.le_trans (List.length_filter_le _ _) hes.length

theorem WellFormed.append {es : List Entry} (hes : WellFormed es) {key v : Text}
    (hkey : equals ∉ key) (hv : v ≠ []) (hline : IsLine (Entry.line (key, v)))
    (hlen : es.length < 64) : WellFormed (AuthConf.without key es ++ [(key, v)]) := by
  have hrest := hes.without key
  have hmem : ∀ e ∈ AuthConf.without key es ++ [(key, v)],
      e ∈ AuthConf.without key es ∨ e = (key, v) := by
    intro e he
    simpa using he
  constructor
  · rw [List.map_append, List.map_singleton, List.nodup_append]
    refine ⟨hrest.nodup, by simp, ?_⟩
    rintro k hk k' hk' rfl
    obtain ⟨e, he, rfl⟩ := List.mem_map.mp hk
    have hne := (List.mem_filter.mp he).2
    simp only [bne_iff_ne] at hne
    exact hne (List.mem_singleton.mp hk')
  · intro e he
    rcases hmem e he with h | rfl
    · exact hrest.keys e h
    · exact hkey
  · intro e he
    rcases hmem e he with h | rfl
    · exact hrest.values e h
    · exact hv
  · intro e he
    rcases hmem e he with h | rfl
    · exact hrest.lines e h
    · exact hline
  · have hle : (AuthConf.without key es).length ≤ es.length := List.length_filter_le _ _
    rw [List.length_append, List.length_singleton]
    omega

end Veron.AuthConf
