/-
`walk_down` of `veron-trace`: from a substage along the builder lines to one that is its own
builder.  The loop has a bound, and nothing behind it.
-/
import Mathlib.Data.List.Nodup
import Veron.TraceAccounted

namespace Veron.Trace

open CutText

variable {C : Type}

/-- `$1 == tag { a[$2] = $k }`. -/
def arrayOf (tag : List Char) (k : ℕ) (rows : List (List Char)) :
    List Char → Option (List Char) :=
  rows.foldl
    (fun a row =>
      if field row 1 = tag then Function.update a (field row 2) (some (field row k)) else a)
    fun _ => none

/-- The loop of the `END` block, with the turns that are left, and the exit status.  Where none
is left, the block ends like any other. -/
def walkFrom (tools : Tools C) (sha bref : List Char → Option (List Char)) :
    ℕ → List Char → ℕ
  | 0, _ => 0
  | n + 1, id =>
      if sha id = none then 1
      else match bref id with
        | none => 1
        | some ref => if tools.same ref id then 0 else walkFrom tools sha bref n ref

/-- `walk_down`; `assigned` is what a variable of awk has that is given with `-v`. -/
def walkDown (tools : Tools C) (assigned : List Char → List Char)
    (substages start : List Char) : ℕ :=
  let rows := lines substages
  walkFrom tools (arrayOf ['S'] 6 rows) (arrayOf ['B'] 3 rows) 64 (assigned start)

/-- The lines with this tag, by their ids. -/
def idsOf (tag : List Char) (rows : List (List Char)) : List (List Char) :=
  (rows.filter fun row => field row 1 = tag).map (field · 2)

/-- Each id has at most one line of either kind. -/
structure Single (rows : List (List Char)) : Prop where
  record : (idsOf ['S'] rows).Nodup
  builder : (idsOf ['B'] rows).Nodup

def Recorded (rows : List (List Char)) (id : List Char) : Prop :=
  ∃ row ∈ rows, field row 1 = ['S'] ∧ field row 2 = id

/-- The builder line of `id` names `ref`. -/
def BuiltBy (rows : List (List Char)) (id ref : List Char) : Prop :=
  ∃ row ∈ rows, field row 1 = ['B'] ∧ field row 2 = id ∧ field row 3 = ref

/-- The builder lines lead to a substage that names itself, from record to record. -/
inductive Rooted (rows : List (List Char)) : List Char → Prop where
  | root {id : List Char} : Recorded rows id → BuiltBy rows id id → Rooted rows id
  | builder {id ref : List Char} :
      Recorded rows id → BuiltBy rows id ref → Rooted rows ref → Rooted rows id

/-- Among the first `n` substages is one without a record or without a builder line, and none
before it is equal to its builder for awk. -/
inductive Stops (tools : Tools C) (rows : List (List Char)) : ℕ → List Char → Prop where
  | noRecord {n : ℕ} {id : List Char} : ¬Recorded rows id → Stops tools rows (n + 1) id
  | noBuilder {n : ℕ} {id : List Char} :
      (∀ ref, ¬BuiltBy rows id ref) → Stops tools rows (n + 1) id
  | builder {n : ℕ} {id ref : List Char} :
      BuiltBy rows id ref → tools.same ref id = false → Stops tools rows n ref →
      Stops tools rows (n + 1) id

section

variable {tag id v : List Char} {k : ℕ} {rows : List (List Char)}

theorem arrayOf_snoc (row : List Char) :
    arrayOf tag k (rows ++ [row]) id =
      if field row 1 = tag ∧ field row 2 = id then some (field row k)
      else arrayOf tag k rows id := by
  rw [arrayOf, List.foldl_append, List.foldl_cons, List.foldl_nil, ← arrayOf]
  by_cases htag : field row 1 = tag
  · rw [if_pos htag]
    by_cases hid : field row 2 = id
    · rw [if_pos ⟨htag, hid⟩, hid, Function.update_self]
    · rw [if_neg fun h => hid h.2, Function.update_of_ne (Ne.symm hid)]
  · rw [if_neg htag, if_neg fun h => htag h.1]

theorem arrayOf_mem (h : arrayOf tag k rows id = some v) :
    ∃ row ∈ rows, field row 1 = tag ∧ field row 2 = id ∧ field row k = v := by
  induction rows using List.reverseRecOn with
  | nil => cases h
  | append_singleton rows row ih =>
      rw [arrayOf_snoc] at h
      split_ifs at h with hline
      · exact ⟨row, List.mem_append_right _ List.mem_cons_self, hline.1, hline.2,
          Option.some.inj h⟩
      · obtain ⟨s, hs, hline⟩ := ih h
        exact ⟨s, List.mem_append_left _ hs, hline⟩

theorem arrayOf_ne_none {row : List Char} (hrow : row ∈ rows) (htag : field row 1 = tag)
    (hid : field row 2 = id) : arrayOf tag k rows id ≠ none := by
  induction rows using List.reverseRecOn with
  | nil => cases hrow
  | append_singleton rows last ih =>
      rw [arrayOf_snoc]
      split_ifs with hline
      · exact Option.some_ne_none _
      · rcases List.mem_append.mp hrow with hrow | hrow
        · exact ih hrow
        · cases List.mem_singleton.mp hrow
          exact absurd ⟨htag, hid⟩ hline

/-- Where an id has one line, the array has what is on it. -/
theorem arrayOf_eq_some_iff (hsingle : (idsOf tag rows).Nodup) :
    arrayOf tag k rows id = some v ↔
      ∃ row ∈ rows, field row 1 = tag ∧ field row 2 = id ∧ field row k = v := by
  constructor
  · exact arrayOf_mem
  · rintro ⟨row, hrow, htag, hid, rfl⟩
    obtain ⟨w, hw⟩ := Option.ne_none_iff_exists'.mp (arrayOf_ne_none (k := k) hrow htag hid)
    obtain ⟨row', hrow', htag', hid', rfl⟩ := arrayOf_mem hw
    have hmem {r : List Char} (hr : r ∈ rows) (ht : field r 1 = tag) :
        r ∈ rows.filter fun r => field r 1 = tag :=
      List.mem_filter.mpr ⟨hr, decide_eq_true ht⟩
    have heq : row' = row :=
      List.inj_on_of_nodup_map hsingle (hmem hrow' htag') (hmem hrow htag) (hid'.trans hid.symm)
    rw [hw, heq]

theorem arrayOf_eq_none_iff :
    arrayOf tag k rows id = none ↔ ¬∃ row ∈ rows, field row 1 = tag ∧ field row 2 = id := by
  constructor
  · rintro hnone ⟨row, hrow, htag, hid⟩
    exact arrayOf_ne_none hrow htag hid hnone
  · intro hno
    cases h : arrayOf tag k rows id with
    | none => rfl
    | some v =>
        obtain ⟨row, hrow, htag, hid, -⟩ := arrayOf_mem h
        exact absurd ⟨row, hrow, htag, hid⟩ hno

end

section

variable {tools : Tools C} {rows : List (List Char)} {id ref : List Char}

theorem builtBy_iff (hsingle : Single rows) :
    arrayOf ['B'] 3 rows id = some ref ↔ BuiltBy rows id ref :=
  arrayOf_eq_some_iff hsingle.builder

theorem recorded_iff : arrayOf ['S'] 6 rows id ≠ none ↔ Recorded rows id :=
  arrayOf_eq_none_iff.not_left

theorem BuiltBy.unique {ref' : List Char} (hsingle : Single rows) (h : BuiltBy rows id ref)
    (h' : BuiltBy rows id ref') : ref = ref' :=
  Option.some.inj (((builtBy_iff hsingle).mpr h).symm.trans ((builtBy_iff hsingle).mpr h'))

theorem walkFrom_ne_zero_iff (hsingle : Single rows) (n : ℕ) (id : List Char) :
    walkFrom tools (arrayOf ['S'] 6 rows) (arrayOf ['B'] 3 rows) n id ≠ 0 ↔
      Stops tools rows n id := by
  induction n generalizing id with
  | zero =>
      constructor
      · exact fun h => absurd rfl h
      · intro h
        cases h
  | succ n ih =>
      unfold walkFrom
      by_cases hrecord : Recorded rows id
      · rw [if_neg (recorded_iff.mpr hrecord)]
        cases hbuilder : arrayOf ['B'] 3 rows id with
        | none =>
            have hno ref : ¬BuiltBy rows id ref := by
              rw [← builtBy_iff hsingle, hbuilder]
              exact nofun
            exact iff_of_true Nat.one_ne_zero (.noBuilder hno)
        | some ref =>
            have hbuilt := (builtBy_iff hsingle).mp hbuilder
            dsimp only
            split_ifs with hsame
            · refine iff_of_false (fun h => h rfl) ?_
              intro h
              cases h with
              | noRecord hno => exact hno hrecord
              | noBuilder hno => exact hno ref hbuilt
              | builder hbuilt' hne _ =>
                  cases hbuilt.unique hsingle hbuilt'
                  rw [hsame] at hne
                  cases hne
            · rw [ih ref]
              constructor
              · exact .builder hbuilt (eq_false_of_ne_true hsame)
              · intro h
                cases h with
                | noRecord hno => exact absurd hrecord hno
                | noBuilder hno => exact absurd hbuilt (hno ref)
                | builder hbuilt' _ hstops =>
                    cases hbuilt.unique hsingle hbuilt'
                    exact hstops
      · rw [if_pos (not_ne_iff.mp fun h => hrecord (recorded_iff.mp h))]
        exact iff_of_true Nat.one_ne_zero (.noRecord hrecord)

theorem walkDown_ne_zero_iff {substages : List Char} (tools : Tools C)
    (assigned : List Char → List Char) (start : List Char) (hsingle : Single (lines substages)) :
    walkDown tools assigned substages start ≠ 0 ↔
      Stops tools (lines substages) 64 (assigned start) :=
  walkFrom_ne_zero_iff hsingle 64 (assigned start)

/-- On the way to a substage that names itself no line is missing. -/
theorem Rooted.not_stops (hsingle : Single rows) (h : Rooted rows id) (n : ℕ) :
    ¬Stops tools rows n id := by
  intro hstops
  induction hstops with
  | noRecord hno =>
      cases h with
      | root hrecord _ => exact hno hrecord
      | builder hrecord _ _ => exact hno hrecord
  | noBuilder hno =>
      cases h with
      | root _ hbuilt => exact hno _ hbuilt
      | builder _ hbuilt _ => exact hno _ hbuilt
  | builder hbuilt _ _ ih =>
      cases h with
      | root hrecord hself =>
          cases hself.unique hsingle hbuilt
          exact ih (.root hrecord hself)
      | builder _ hbuilt' hrooted =>
          cases hbuilt'.unique hsingle hbuilt
          exact ih hrooted

end

/-- The exit status says whether the start is rooted, where it is so or the walk stops early. -/
theorem walkDown_exact (tools : Tools C) (assigned : List Char → List Char)
    (substages start : List Char) (hsingle : Single (lines substages)) :
    (walkDown tools assigned substages start = 0 ↔ Rooted (lines substages) start) ↔
      Xor (Rooted (lines substages) start)
        (Stops tools (lines substages) 64 (assigned start)) := by
  have hstatus := walkDown_ne_zero_iff tools assigned start hsingle
  by_cases hrooted : Rooted (lines substages) start <;>
    simp [Xor, ← hstatus, hrooted]

/-- Two substages that build each other. -/
def circle : List Char := "S\ta\nS\tb\nB\ta\tb\nB\tb\ta\n".toList

/-- No two ids are numbers. -/
def plainTools : Tools Unit := ⟨fun _ => [], fun _ _ => none⟩

theorem circle_unrooted :
    (walkDown plainTools id circle ['a'] = 0 ↔ Rooted (lines circle) ['a']) ↔
      Xor (Rooted (lines circle) ['a']) (Stops plainTools (lines circle) 64 ['a']) :=
  walkDown_exact plainTools id circle ['a'] ⟨by decide, by decide⟩

theorem circle_walkFrom (n : ℕ) :
    walkFrom plainTools (arrayOf ['S'] 6 (lines circle)) (arrayOf ['B'] 3 (lines circle)) n
        ['a'] = 0 ∧
      walkFrom plainTools (arrayOf ['S'] 6 (lines circle)) (arrayOf ['B'] 3 (lines circle)) n
        ['b'] = 0 := by
  have ha : arrayOf ['B'] 3 (lines circle) ['a'] = some ['b'] := by decide
  have hb : arrayOf ['B'] 3 (lines circle) ['b'] = some ['a'] := by decide
  have hrecord : arrayOf ['S'] 6 (lines circle) ['a'] ≠ none ∧
      arrayOf ['S'] 6 (lines circle) ['b'] ≠ none := by decide
  induction n with
  | zero => exact ⟨rfl, rfl⟩
  | succ n ih =>
      unfold walkFrom
      rw [if_neg hrecord.1, if_neg hrecord.2, ha, hb]
      exact ⟨ih.2, ih.1⟩

theorem circle_exits_zero :
    walkDown plainTools id circle ['a'] = 0 ∧ ¬Rooted (lines circle) ['a'] := by
  refine ⟨(circle_walkFrom 64).1, ?_⟩
  suffices h : ∀ start, Rooted (lines circle) start → start ≠ ['a'] ∧ start ≠ ['b'] from
    fun hrooted => (h _ hrooted).1 rfl
  have hother : ∀ row ∈ lines circle, field row 1 = ['B'] →
      (field row 2 = ['a'] → field row 3 = ['b']) ∧ (field row 2 = ['b'] → field row 3 = ['a']) ∧
        (field row 2 = ['a'] ∨ field row 2 = ['b']) := by
    decide
  intro start hrooted
  induction hrooted with
  | root _ hself =>
      obtain ⟨row, hrow, htag, rfl, hself⟩ := hself
      obtain ⟨ha, hb, -⟩ := hother row hrow htag
      refine ⟨fun h => ?_, fun h => ?_⟩
      · exact absurd (h.symm.trans (hself.symm.trans (ha h))) (by decide)
      · exact absurd (h.symm.trans (hself.symm.trans (hb h))) (by decide)
  | builder _ hbuilt _ ih =>
      obtain ⟨row, hrow, htag, rfl, rfl⟩ := hbuilt
      obtain ⟨ha, hb, -⟩ := hother row hrow htag
      exact ⟨fun h => ih.2 (ha h), fun h => ih.1 (hb h)⟩

/-- For a start that awk takes as it stands, the two do not meet. -/
theorem walkDown_plain {tools : Tools C} {assigned : List Char → List Char}
    {substages start : List Char} (hsingle : Single (lines substages))
    (hplain : assigned start = start) :
    (walkDown tools assigned substages start = 0 ↔ Rooted (lines substages) start) ↔
      Rooted (lines substages) start ∨ Stops tools (lines substages) 64 start := by
  have hstatus := walkDown_ne_zero_iff tools assigned start hsingle
  rw [hplain] at hstatus
  by_cases hrooted : Rooted (lines substages) start
  · have hno : ¬Stops tools (lines substages) 64 start := hrooted.not_stops hsingle 64
    simp [hrooted, not_ne_iff.mp (hstatus.not.mpr hno)]
  · simp [← hstatus, hrooted]

end Veron.Trace
