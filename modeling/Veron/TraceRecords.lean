/-
`flatten_ledger` of `veron-trace-records`: the lines that it writes are read by the shell as they
are read by awk, so that of the gaps between the passes of the verdict only some remain.
-/
import Mathlib.Data.Char
import Mathlib.Data.List.Lex
import Veron.TraceAccounted

namespace Veron.Trace

open CutText

/-- An entry of `files`. -/
structure FileEntry where
  path : Option (List Char)
  kind : Option (List Char)
  value : Option (List Char)
  size : Option (List Char)

structure Ledger where
  name : List Char
  version : Option (List Char)
  sha256 : Option (List Char)
  recipeSha256 : Option (List Char)
  license : Option (List Char)
  runtime : List (List Char)
  link : List (List Char)
  build : List (List Char)
  files : List FileEntry

/-- What stands for a missing value. -/
def dash : List Char := ['-']

def packageRow (stagedOnly : Bool) (rec : Ledger) : List (List Char) :=
  [['P'], rec.name, rec.version.getD dash, rec.sha256.getD dash, rec.recipeSha256.getD dash,
    rec.license.getD dash, if stagedOnly then "build-only".toList else "ships".toList]

/-- Each dependency once, of whatever kind. -/
def depRows (rec : Ledger) : List (List (List Char)) :=
  (rec.runtime ++ rec.link ++ rec.build).eraseDups.map fun dep => [['D'], rec.name, dep]

/-- A path that could not be hashed has no line. -/
def fileRow (stagedOnly : Bool) (name : List Char) (fe : FileEntry) : Option (List (List Char)) :=
  if fe.kind = some "symlink".toList ∨ fe.kind = some ['l'] then
    some [if stagedOnly then ['L', 'b'] else ['L'], fe.value.getD dash, fe.path.getD dash, name]
  else if fe.kind = some "unreadable".toList then none
  else
    some [if stagedOnly then ['F', 'b'] else ['F'], fe.value.getD dash, fe.size.getD dash,
      fe.path.getD dash, name]

def ledgerRows (buildOnly : List (List Char)) (rec : Ledger) : List (List (List Char)) :=
  let stagedOnly := buildOnly.any (· = rec.name)
  packageRow stagedOnly rec :: depRows rec ++ rec.files.filterMap (fileRow stagedOnly rec.name)

/-- One more record with its time: of two of one name the newer stays, the first of two of one
time. -/
def keepNewest (kept : List (ℕ × Ledger)) (rec : ℕ × Ledger) : List (ℕ × Ledger) :=
  match kept.find? fun k => k.2.name = rec.2.name with
  | none => kept ++ [rec]
  | some k => if rec.1 ≤ k.1 then kept else kept.filter (fun k => k.2.name ≠ rec.2.name) ++ [rec]

/-- The records in the order of their names. -/
def newest (recs : List (ℕ × Ledger)) : List Ledger :=
  ((recs.foldl keepNewest []).map Prod.snd).mergeSort fun a b => a.name ≤ b.name

/-- `packages.tsv`, of the records in the order of their files. -/
def flattenLedger (recs : List (ℕ × Ledger)) (buildOnly : List (List Char)) : List Char :=
  ['\n'].intercalate (((newest recs).flatMap (ledgerRows buildOnly)).map joined) ++ ['\n']

def IsField (f : List Char) : Prop := f ≠ [] ∧ '\t' ∉ f ∧ '\n' ∉ f

instance : DecidablePred IsField := fun f =>
  inferInstanceAs (Decidable (f ≠ [] ∧ '\t' ∉ f ∧ '\n' ∉ f))

structure FileEntry.Clean (fe : FileEntry) : Prop where
  path : IsField (fe.path.getD dash)
  value : IsField (fe.value.getD dash)
  size : IsField (fe.size.getD dash)

structure Ledger.Clean (rec : Ledger) : Prop where
  name : IsField rec.name
  version : IsField (rec.version.getD dash)
  sha256 : IsField (rec.sha256.getD dash)
  recipeSha256 : IsField (rec.recipeSha256.getD dash)
  license : IsField (rec.license.getD dash)
  deps : ∀ dep ∈ rec.runtime ++ rec.link ++ rec.build, IsField dep
  files : ∀ fe ∈ rec.files, fe.Clean

/-- A row that is written: a file has five fields, a link has four. -/
structure RowOk (row : List (List Char)) : Prop where
  fields : ∀ f ∈ row, IsField f
  file : row.head? = some ['F'] → row.length = 5
  link : row.head? = some ['L'] → row.length = 4

variable {recs : List (ℕ × Ledger)} {buildOnly : List (List Char)} {rec : Ledger}
  {row : List (List Char)} {line : List Char}

theorem packageRow_ok (h : rec.Clean) (stagedOnly : Bool) : RowOk (packageRow stagedOnly rec) := by
  refine ⟨?_, fun h => absurd (Option.some.inj h) (by decide),
    fun h => absurd (Option.some.inj h) (by decide)⟩
  have hword : IsField (if stagedOnly then "build-only".toList else "ships".toList) := by
    cases stagedOnly <;> decide
  have htag : IsField ['P'] := by decide
  intro f hf
  simp only [packageRow, List.mem_cons, List.not_mem_nil, or_false] at hf
  rcases hf with rfl | rfl | rfl | rfl | rfl | rfl | rfl
  exacts [htag, h.name, h.version, h.sha256, h.recipeSha256, h.license, hword]

theorem depRows_ok (h : rec.Clean) (hrow : row ∈ depRows rec) : RowOk row := by
  obtain ⟨dep, hdep, rfl⟩ := List.mem_map.mp hrow
  refine ⟨?_, by simp, by simp⟩
  have htag : IsField ['D'] := by decide
  intro f hf
  simp only [List.mem_cons, List.not_mem_nil, or_false] at hf
  rcases hf with rfl | rfl | rfl
  exacts [htag, h.name, h.deps f (List.mem_eraseDups.mp hdep)]

theorem fileRow_ok {fe : FileEntry} {name : List Char} {stagedOnly : Bool} (hname : IsField name)
    (h : fe.Clean) (hrow : fileRow stagedOnly name fe = some row) : RowOk row := by
  rw [fileRow] at hrow
  split at hrow
  · cases hrow
    have htag : IsField (if stagedOnly then ['L', 'b'] else ['L']) := by cases stagedOnly <;> decide
    refine ⟨?_, by cases stagedOnly <;> simp, by simp⟩
    intro f hf
    simp only [List.mem_cons, List.not_mem_nil, or_false] at hf
    rcases hf with rfl | rfl | rfl | rfl
    exacts [htag, h.value, h.path, hname]
  · split at hrow
    · cases hrow
    · cases hrow
      have htag : IsField (if stagedOnly then ['F', 'b'] else ['F']) := by
        cases stagedOnly <;> decide
      refine ⟨?_, by simp, by cases stagedOnly <;> simp⟩
      intro f hf
      simp only [List.mem_cons, List.not_mem_nil, or_false] at hf
      rcases hf with rfl | rfl | rfl | rfl | rfl
      exacts [htag, h.value, h.size, h.path, hname]

theorem ledgerRows_ok (h : rec.Clean) (hrow : row ∈ ledgerRows buildOnly rec) : RowOk row := by
  rcases List.mem_append.mp hrow with hrow | hrow
  · rcases List.mem_cons.mp hrow with rfl | hrow
    · exact packageRow_ok h _
    · exact depRows_ok h hrow
  · obtain ⟨fe, hfe, hrow⟩ := List.mem_filterMap.mp hrow
    exact fileRow_ok h.name (h.files fe hfe) hrow

theorem mem_keepNewest {kept : List (ℕ × Ledger)} {k new : ℕ × Ledger}
    (h : k ∈ keepNewest kept new) : k ∈ kept ∨ k = new := by
  rw [keepNewest] at h
  split at h
  · simpa using h
  · split at h
    · exact .inl h
    · rcases List.mem_append.mp h with h | h
      · exact .inl (List.mem_filter.mp h).1
      · exact .inr (List.mem_singleton.mp h)

theorem mem_foldl_keepNewest {kept : List (ℕ × Ledger)} {k : ℕ × Ledger}
    (h : k ∈ recs.foldl keepNewest kept) : k ∈ kept ∨ k ∈ recs := by
  induction recs generalizing kept with
  | nil => exact .inl h
  | cons new recs ih =>
      rcases ih h with h | h
      · refine (mem_keepNewest h).imp_right ?_
        rintro rfl
        exact List.mem_cons_self
      · exact .inr (List.mem_cons_of_mem new h)

theorem mem_newest (h : rec ∈ newest recs) : ∃ k ∈ recs, k.2 = rec := by
  obtain ⟨k, hk, rfl⟩ := List.mem_map.mp (List.mem_mergeSort.mp h)
  exact ⟨k, (mem_foldl_keepNewest hk).resolve_left List.not_mem_nil, rfl⟩

theorem newline_not_mem_joined {fields : List (List Char)} (h : ∀ f ∈ fields, IsField f) :
    '\n' ∉ joined fields := by
  intro hmem
  rcases mem_intercalate hmem with htab | ⟨f, hf, hmem⟩
  · exact absurd htab (by decide)
  · exact (h f hf).2.2 hmem

/-- A line is what a row was written as, or there was no row. -/
theorem endedLines_flattenLedger (hclean : ∀ k ∈ recs, k.2.Clean)
    (hline : line ∈ endedLines (flattenLedger recs buildOnly)) :
    line = [] ∨ ∃ row, RowOk row ∧ line = joined row := by
  rw [flattenLedger, endedLines_append_newline] at hline
  have hrows : ∀ row ∈ (newest recs).flatMap (ledgerRows buildOnly), RowOk row := by
    intro row hrow
    obtain ⟨rec, hrec, hrow⟩ := List.mem_flatMap.mp hrow
    obtain ⟨k, hk, rfl⟩ := mem_newest hrec
    exact ledgerRows_ok (hclean k hk) hrow
  cases hnil : ((newest recs).flatMap (ledgerRows buildOnly)).map joined with
  | nil =>
      rw [hnil] at hline
      exact .inl (List.mem_singleton.mp hline)
  | cons first rest =>
      rw [List.splitOn_intercalate '\n' ?_ (by simp [hnil])] at hline
      · obtain ⟨row, hrow, rfl⟩ := List.mem_map.mp hline
        exact .inr ⟨row, hrows row hrow, rfl⟩
      · intro l hl
        obtain ⟨row, hrow, rfl⟩ := List.mem_map.mp hl
        exact newline_not_mem_joined (hrows row hrow).fields

variable {C : Type} {tools : Tools C} {r : Records} {d : Root C} {path value : List Char}
  {item : Item C}

theorem field_row (hrow : RowOk row) (hne : row ≠ []) (n : ℕ) :
    field (joined row) n = row.getD (n - 1) [] :=
  field_joined (fun f hf => (hrow.fields f hf).2.1) hne n

theorem words_row (hrow : RowOk row) : words row.length (joined row) = row :=
  words_joined fun f hf => ⟨(hrow.fields f hf).2.1, (hrow.fields f hf).1⟩

/-- A line of `packages.tsv` with something in its first field is a row, for awk and for the
shell. -/
theorem row_of_line (hclean : ∀ k ∈ recs, k.2.Clean)
    (hpackages : r.packages = flattenLedger recs buildOnly) {tag : List Char} (htag : tag ≠ [])
    (hline : line ∈ lines r.packages) (hfield : field line 1 = tag) :
    line ∈ endedLines r.packages ∧ ∃ row, RowOk row ∧ row.head? = some tag ∧
      words row.length line = row ∧ ∀ n, field line n = row.getD (n - 1) [] := by
  have hended : line ∈ endedLines r.packages := by
    rw [hpackages, flattenLedger] at hline ⊢
    rwa [lines_append_newline] at hline
  refine ⟨hended, ?_⟩
  rw [hpackages] at hended
  rcases endedLines_flattenLedger hclean hended with rfl | ⟨row, hrow, rfl⟩
  · exact absurd hfield.symm htag
  · cases row with
    | nil => exact absurd hfield.symm htag
    | cons f row =>
        have hfields := field_row hrow (List.cons_ne_nil f row)
        refine ⟨f :: row, hrow, ?_, words_row hrow, hfields⟩
        rw [hfields] at hfield
        exact congrArg some hfield

/-- What awk reads as shipped, the shell reads too. -/
theorem flattened_reads (hclean : ∀ k ∈ recs, k.2.Clean)
    (hpackages : r.packages = flattenLedger recs buildOnly)
    (hoverlay : want tools r path value = shippedDigest r path value)
    (h : Ships r path value item) : Reads tools r path value item := by
  cases item with
  | file content =>
      obtain ⟨line, hline, htag, hvalue, hpath⟩ := h
      obtain ⟨hended, row, hrow, hhead, hwords, hfields⟩ :=
        row_of_line hclean hpackages (by simp) hline htag
      rw [hrow.file hhead] at hwords
      rw [hfields] at htag hvalue hpath
      exact ⟨⟨line, hended, hwords.symm ▸ htag, hwords.symm ▸ hvalue, hwords.symm ▸ hpath⟩,
        hoverlay⟩
  | link target =>
      obtain ⟨line, hline, htag, hvalue, hpath⟩ := h
      obtain ⟨hended, row, hrow, hhead, hwords, hfields⟩ :=
        row_of_line hclean hpackages (by simp) hline htag
      rw [hrow.link hhead] at hwords
      rw [hfields] at htag hvalue hpath
      exact ⟨line, hended, hwords.symm ▸ htag, hwords.symm ▸ hvalue, hwords.symm ▸ hpath⟩

/-- With the lines that `flatten_ledger` writes, a good verdict leaves three questions: whether each
digest is repeated as it is published, whether a path is shipped at all, and whether as what it
is. -/
theorem flattened_accounted_iff (hok : PrintsOk tools r d) (hclean : ∀ k ∈ recs, k.2.Clean)
    (hpackages : r.packages = flattenLedger recs buildOnly)
    (hoverlay : ∀ path sha, want tools r path sha = shippedDigest r path sha)
    (hnumber : ∀ a b, tools.sameNumber a b = some true → a = b) :
    Accounted tools r d ↔
      (∀ row ∈ lines r.substages, field row 1 = ['B'] → ∀ s ∈ lines r.substages,
        field s 1 = ['S'] → field s 2 = field row 3 →
          shaOf (lines r.substages) (field row 3) = some (field s 6)) ∧
      ∀ path item, d.item path = some item → Uncovered r path →
        ∃ value, Ships r path value item := by
  constructor
  · intro h
    refine ⟨(h.watertight hok).once, fun path item hitem hunc => ?_⟩
    obtain ⟨value, hships, -⟩ := h.paths path item hitem hunc
    exact ⟨value, hships⟩
  · rintro ⟨honce, hships⟩
    refine Watertight.accounted ⟨?_, honce, ?_, ?_, ?_⟩ hok
    · exact fun row _ _ digest _ hsame => hnumber _ _ hsame
    · intro path item hitem hunc _
      obtain ⟨value, hship⟩ := hships path item hitem hunc
      exact hship.recorded
    · exact fun path item hitem hunc _ => hships path item hitem hunc
    · intro path item _ _ ⟨value, hship⟩ hnone
      exact absurd (flattened_reads hclean hpackages (hoverlay path value) hship)
        (hnone value hship)

end Veron.Trace
