/-
What the verdict of `veron-trace --verify` says of the disk, and the condition on the records and
on the disk under which it says that.
-/
import Veron.Trace

namespace Veron.Trace

open CutText

variable {C : Type}

/-- Neither under a directory of the table, nor one of its files, nor a build extra. -/
def Uncovered (r : Records) (path : List Char) : Prop :=
  (∀ c ∈ cats, if c.getLast? = some '/' then ¬ c <+: path else path ≠ c) ∧
    path ∉ lines (r.extra.getD [])

/-- A shipping package records the path as what it is, with this digest or target. -/
def Ships (r : Records) (path value : List Char) : Item C → Prop
  | .file _ =>
      ∃ row ∈ lines r.packages, field row 1 = ['F'] ∧ field row 2 = value ∧ field row 4 = path
  | .link _ =>
      ∃ row ∈ lines r.packages, field row 1 = ['L'] ∧ field row 2 = value ∧ field row 3 = path

/-- The digest of the strip overlay where there is one, else the recorded one. -/
def shippedDigest (r : Records) (path sha : List Char) : List Char :=
  let stripped := printFirst (r.stripped.getD [])
    (fun row => field row 1 = ['F'] ∧ field row 4 = path) (field · 2)
  if stripped ≠ [] then stripped else sha

def Agrees (tools : Tools C) (r : Records) (path value : List Char) : Item C → Prop
  | .file content => tools.sha256sum content = shippedDigest r path value
  | .link target => target = value

/-- The records agree with each other, and the disk with the records. -/
structure Accounted (tools : Tools C) (r : Records) (d : Root C) : Prop where
  edges : ∀ row ∈ lines r.substages, field row 1 = ['B'] →
    (∃ s ∈ lines r.substages, field s 1 = ['S'] ∧ field s 2 = field row 3) ∧
      ∀ s ∈ lines r.substages, field s 1 = ['S'] → field s 2 = field row 3 →
        field s 6 = field row 4
  paths : ∀ path item, d.item path = some item → Uncovered r path →
    ∃ value, Ships r path value item ∧ Agrees tools r path value item

/-- A line of the packages that the loops read as it stands, and a strip overlay that is found
under this path and no other. -/
def Reads (tools : Tools C) (r : Records) (path value : List Char) : Item C → Prop
  | .file _ =>
      (∃ row ∈ endedLines r.packages, (words 5 row).getD 0 [] = ['F'] ∧
        (words 5 row).getD 1 [] = value ∧ (words 5 row).getD 3 [] = path) ∧
      want tools r path value = shippedDigest r path value
  | .link _ =>
      ∃ row ∈ endedLines r.packages, (words 4 row).getD 0 [] = ['L'] ∧
        (words 4 row).getD 1 [] = value ∧ (words 4 row).getD 2 [] = path

/-- Nothing falls between the passes. -/
structure Watertight (tools : Tools C) (r : Records) (d : Root C) : Prop where
  /-- A digest is not repeated as another spelling of the same number. -/
  spelled : ∀ row ∈ lines r.substages, field row 1 = ['B'] →
    ∀ digest, shaOf (lines r.substages) (field row 3) = some digest →
      tools.sameNumber digest (field row 4) = some true → digest = field row 4
  /-- No other line publishes another digest for a builder that is named. -/
  once : ∀ row ∈ lines r.substages, field row 1 = ['B'] →
    ∀ s ∈ lines r.substages, field s 1 = ['S'] → field s 2 = field row 3 →
      shaOf (lines r.substages) (field row 3) = some (field s 6)
  /-- A file name of the table lets no longer path through. -/
  whole : ∀ path item, d.item path = some item → Uncovered r path →
    (∃ c ∈ cats, c <+: path) → path ∈ recordedPaths r.packages
  /-- A recorded path is not only recorded as staged, or as the other kind. -/
  shipped : ∀ path item, d.item path = some item → Uncovered r path →
    path ∈ recordedPaths r.packages → ∃ value, Ships r path value item
  /-- A path of which the loops read no line as it stands agrees with one all the same. -/
  read : ∀ path item, d.item path = some item → Uncovered r path →
    (∃ value, Ships r path value item) →
      (∀ value, Ships r path value item → ¬ Reads tools r path value item) →
        ∃ value, Ships r path value item ∧ Agrees tools r path value item

variable {tools : Tools C} {r : Records} {d : Root C} {path value : List Char} {item : Item C}

theorem Tally.of_fails {checks : List Bool} (h : (Tally.of checks).fails = 0) : false ∉ checks :=
  List.count_eq_zero.mp h

theorem PrintsOk.passes (hok : PrintsOk tools r d) :
    (builderEdges tools r.substages).fails = 0 ∧ (hashFiles tools r d).fails = 0 ∧
      (readLinks r d).fails = 0 ∧ strays r d = 0 := by
  rw [PrintsOk, verify] at hok
  split at hok
  · cases hok
  · have hsum := Option.some.inj hok
    simp only [List.foldl, Tally.add, census] at hsum
    omega

/-- What the array has for a name is on a line of that name. -/
theorem shaOf_mem {rows : List (List Char)} {id digest : List Char}
    (h : shaOf rows id = some digest) :
    ∃ s ∈ rows, field s 1 = ['S'] ∧ field s 2 = id ∧ field s 6 = digest := by
  induction rows using List.reverseRecOn with
  | nil => cases h
  | append_singleton rows row ih =>
      rw [shaOf, List.foldl_append, List.foldl_cons, List.foldl_nil, ← shaOf] at h
      have hearlier : shaOf rows id = some digest →
          ∃ s ∈ rows ++ [row], field s 1 = ['S'] ∧ field s 2 = id ∧ field s 6 = digest := by
        intro h
        obtain ⟨s, hs, hline⟩ := ih h
        exact ⟨s, List.mem_append_left _ hs, hline⟩
      split at h
      · rename_i htag
        by_cases hid : id = field row 2
        · subst hid
          rw [Function.update_self] at h
          exact ⟨row, List.mem_append_right _ List.mem_cons_self, htag, rfl, Option.some.inj h⟩
        · rw [Function.update_of_ne hid] at h
          exact hearlier h
      · exact hearlier h

theorem edge_agrees (h : (builderEdges tools r.substages).fails = 0) {row : List Char}
    (hrow : row ∈ lines r.substages) (htag : field row 1 = ['B']) :
    ∃ digest, shaOf (lines r.substages) (field row 3) = some digest ∧
      tools.same digest (field row 4) := by
  have hfail := List.countP_eq_zero.mp h row (List.mem_filter.mpr ⟨hrow, by simpa using htag⟩)
  rw [edgeFails] at hfail
  cases hsha : shaOf (lines r.substages) (field row 3) with
  | none => simp [hsha] at hfail
  | some digest => exact ⟨digest, rfl, by simpa [hsha] using hfail⟩

theorem file_agrees (h : (hashFiles tools r d).fails = 0) {content : C}
    (hitem : d.item path = some (.file content))
    (hreads : Reads tools r path value (.file content)) :
    Agrees tools r path value (.file content) := by
  obtain ⟨⟨row, hrow, htag, rfl, rfl⟩, hwant⟩ := hreads
  by_contra hne
  refine Tally.of_fails h (List.mem_filterMap.mpr ⟨row, hrow, ?_⟩)
  simp only [checkFile, htag, if_true, d.regularAt_file _ _ hitem, Option.map_some, hwant]
  exact congrArg some (decide_eq_false hne)

theorem captured_eq {output : List Char} (h : '\n' ∉ output) : captured output = output := by
  rw [captured, List.rdropWhile_eq_self_iff]
  intro hne hlast
  exact h (of_decide_eq_true hlast ▸ List.getLast_mem hne)

theorem link_agrees (h : (readLinks r d).fails = 0) {target : List Char}
    (hitem : d.item path = some (.link target)) (hreads : Reads tools r path value (.link target)) :
    Agrees tools r path value (.link target) := by
  obtain ⟨row, hrow, htag, rfl, rfl⟩ := hreads
  by_contra hne
  refine Tally.of_fails h (List.mem_filterMap.mpr ⟨row, hrow, ?_⟩)
  simp only [checkLink, htag, if_true, d.linkAt_link _ _ hitem, Option.map_some,
    captured_eq (d.target _ _ hitem)]
  exact congrArg some (decide_eq_false hne)

theorem newline_not_mem_recordedPaths {text : List Char} (h : path ∈ recordedPaths text) :
    '\n' ∉ path := by
  obtain ⟨row, hrow, hpath⟩ := List.mem_flatMap.mp h
  have hline := newline_not_mem_lines hrow
  have hfield : ∀ n, '\n' ∉ field row n := fun n hn => hline (field_mem_of_mem hn)
  rcases List.mem_append.mp hpath with hpath | hpath <;> split at hpath
  · cases List.mem_singleton.mp hpath
    exact hfield 4
  · cases hpath
  · cases List.mem_singleton.mp hpath
    exact hfield 3
  · cases hpath

theorem newline_not_mem_printed (h : path ∈ d.found) : '\n' ∉ d.printed path := by
  have hroot : '\n' ∉ d.root := fun hmem => d.plain _ hmem (by decide)
  obtain ⟨-, -, hpath⟩ := d.named path h
  rw [Root.printed]
  split <;> simp [hroot, hpath]

theorem lines_stream (r : Records) (d : Root C) :
    lines (stream r d) = recordedPaths r.packages ++ recordsEnd :: d.found.map d.printed := by
  apply lines_unlines
  intro row hrow
  rcases List.mem_append.mp hrow with hrow | hrow
  · exact newline_not_mem_recordedPaths hrow
  · rcases List.mem_cons.mp hrow with rfl | hrow
    · decide
    · obtain ⟨path, hpath, rfl⟩ := List.mem_map.mp hrow
      exact newline_not_mem_printed hpath

theorem relative_printed (h : path ∈ d.found) : d.relative (d.printed path) = path := by
  obtain ⟨hne, hslash, -⟩ := d.named path h
  obtain ⟨c, path, rfl⟩ := List.exists_cons_of_ne_nil hne
  have hc : c ≠ '/' := by simpa using hslash
  rw [Root.relative, Root.printed]
  split <;> simp [hc]

section

variable {α : Type*} [DecidableEq α] {a m : α} {l k : List α}

/-- What follows a mark comes after the first mark too. -/
theorem mem_tail_dropWhile (h : a ∈ k) : a ∈ ((l ++ m :: k).dropWhile (· ≠ m)).tail := by
  induction l with
  | nil => simpa using h
  | cons b l ih =>
      by_cases hb : b = m
      · simp [hb, h]
      · simpa [hb] using ih

theorem mem_of_mem_takeWhile (h : a ∈ (l ++ m :: k).takeWhile (· ≠ m)) : a ∈ l := by
  induction l with
  | nil => simp at h
  | cons b l ih =>
      by_cases hb : b = m
      · simp [hb] at h
      · rw [List.cons_append, List.takeWhile_cons_of_pos (by simpa using hb)] at h
        exact (List.mem_cons.mp h).imp id ih |> List.mem_cons.mpr

end

/-- A path on the disk is recorded, or an extra, or begins as the table says. -/
theorem census_accepts (h : strays r d = 0) (hfound : path ∈ d.found) :
    path ∈ recordedPaths r.packages ∨ path ∈ lines (r.extra.getD []) ∨ ∃ c ∈ cats, c <+: path := by
  rw [strays] at h
  simp only [lines_stream] at h
  have hrow := List.countP_eq_zero.mp h _
    (mem_tail_dropWhile (List.mem_map.mpr ⟨path, hfound, rfl⟩))
  rw [relative_printed hfound, isStray] at hrow
  by_contra hno
  rw [not_or, not_or] at hno
  obtain ⟨hknown, hextra, hcats⟩ := hno
  refine hrow (decide_eq_true ⟨(d.named path hfound).1, fun hmem => ?_, hextra, ?_⟩)
  · exact hknown (mem_of_mem_takeWhile hmem)
  · exact fun c hc hbegins => hcats ⟨c, hc, hbegins⟩

def Item.oneLine : Item C → Bool
  | .file _ => true
  | .link target => '\n' ∉ target

/-- A tree of such items, where a link leads nowhere. -/
def Root.ofItems (root : List Char) (items : List (List Char × Item C))
    (hplain : ∀ c ∈ root, c ∉ special)
    (hitems : ∀ e ∈ items, e.1 ≠ [] ∧ e.1.head? ≠ some '/' ∧ '\n' ∉ e.1 ∧ e.2.oneLine) :
    Root C where
  root := root
  item path := items.lookup path
  found := items.map Prod.fst
  regularAt path := match items.lookup path with
    | some (.file content) => some content
    | _ => none
  linkAt path := match items.lookup path with
    | some (.link target) => some target
    | _ => none
  plain := hplain
  mem_found path := by
    rw [← Option.isSome_iff_ne_none, List.lookup_isSome_iff, List.mem_map]
    exact ⟨fun ⟨e, he, hpath⟩ => ⟨e, he, beq_iff_eq.mpr hpath.symm⟩,
      fun ⟨e, he, hpath⟩ => ⟨e, he, (beq_iff_eq.mp hpath).symm⟩⟩
  named path hpath := by
    obtain ⟨e, he, rfl⟩ := List.mem_map.mp hpath
    exact ⟨(hitems e he).1, (hitems e he).2.1, (hitems e he).2.2.1⟩
  regularAt_file path content h := by rw [h]
  linkAt_link path target h := by rw [h]
  target path target h := by
    obtain ⟨l, k, rfl, -⟩ := List.lookup_eq_some_iff.mp h
    exact of_decide_eq_true (hitems (path, .link target) (by simp)).2.2.2

def greeting : List Char := "echo hello\n".toList

def plant : List Char := "steal\n".toList

def greetingDigest : List Char :=
  ["5dbad7dd0b9b122d", "cd9956884390f4aa", "c4738caba8ff5349", "8a7ab6718b176c30"].flatMap
    String.toList

def plantDigest : List Char :=
  ["f8c75a071e980610", "199296a9fcfa9122", "62b4d67bb88087fa", "0afdd46f699c38b2"].flatMap
    String.toList

def emptyDigest : List Char :=
  ["e3b0c44298fc1c14", "9afbf4c8996fb924", "27ae41e4649b934c", "a495991b7852b855"].flatMap
    String.toList

/-- The digests of the contents here; none of them looks like a number. -/
def sampleTools : Tools (List Char) where
  sha256sum content :=
    if content = greeting then greetingDigest
    else if content = plant then plantDigest
    else emptyDigest
  sameNumber _ _ := none

/-- A shell and a link to it, and an empty file of a package that is only staged. -/
def sampleRecords : Records where
  substages := unlines
    [joined [['S'], "tcc".toList, ['3'], "amd64".toList, "root".toList, greetingDigest, ['7']],
      joined [['B'], "tcc".toList, "tcc".toList, greetingDigest]]
  packages := unlines
    [joined [['P'], "ash".toList, ['1'], ['-'], ['-'], ['-'], "ships".toList],
      joined [['F'], greetingDigest, "11".toList, "bin/sh".toList, "ash".toList],
      joined [['L'], "sh".toList, "bin/ash".toList, "ash".toList],
      joined [['P'], "boot".toList, ['1'], ['-'], ['-'], ['-'], "build-only".toList],
      joined [['F', 'b'], emptyDigest, ['0'], "bin/tool".toList, "boot".toList]]
  chain := "stage4 ref-tcc unknown\n".toList
  stripped := none
  extra := none

theorem slash_plain : ∀ c ∈ ['/'], c ∉ special := List.forall_mem_singleton.mpr (by decide)

def intactRoot : Root (List Char) :=
  .ofItems ['/'] [("bin/sh".toList, .file greeting), ("bin/ash".toList, .link "sh".toList)]
    slash_plain (by decide)

def plantedRoot : Root (List Char) :=
  .ofItems ['/'] [("bin/sh".toList, .file greeting), ("bin/tool".toList, .file plant)]
    slash_plain (by decide)

theorem Ships.recorded (h : Ships r path value item) : path ∈ recordedPaths r.packages := by
  cases item with
  | file content =>
      obtain ⟨row, hrow, htag, -, rfl⟩ := h
      exact List.mem_flatMap.mpr ⟨row, hrow, by simp [htag]⟩
  | link target =>
      obtain ⟨row, hrow, htag, -, rfl⟩ := h
      exact List.mem_flatMap.mpr ⟨row, hrow, by simp [htag]⟩

theorem agrees_of_reads (hok : PrintsOk tools r d) (hitem : d.item path = some item)
    (hreads : Reads tools r path value item) : Agrees tools r path value item := by
  obtain ⟨-, hfiles, hlinks, -⟩ := hok.passes
  cases item with
  | file content => exact file_agrees hfiles hitem hreads
  | link target => exact link_agrees hlinks hitem hreads

theorem Accounted.watertight (h : Accounted tools r d) (hok : PrintsOk tools r d) :
    Watertight tools r d := by
  obtain ⟨hedges, -⟩ := hok.passes
  refine ⟨?_, ?_, ?_, ?_, ?_⟩
  · intro row hrow htag digest hsha _
    obtain ⟨s, hs, hstag, hid, rfl⟩ := shaOf_mem hsha
    exact (h.edges row hrow htag).2 s hs hstag hid
  · intro row hrow htag s hs hstag hid
    obtain ⟨digest, hsha, -⟩ := edge_agrees hedges hrow htag
    obtain ⟨s', hs', hstag', hid', rfl⟩ := shaOf_mem hsha
    rw [hsha, (h.edges row hrow htag).2 s' hs' hstag' hid',
      (h.edges row hrow htag).2 s hs hstag hid]
  · intro path item hitem hunc _
    obtain ⟨value, hships, -⟩ := h.paths path item hitem hunc
    exact hships.recorded
  · intro path item hitem hunc _
    obtain ⟨value, hships, -⟩ := h.paths path item hitem hunc
    exact ⟨value, hships⟩
  · intro path item hitem hunc _ _
    exact h.paths path item hitem hunc

theorem Watertight.accounted (h : Watertight tools r d) (hok : PrintsOk tools r d) :
    Accounted tools r d := by
  obtain ⟨hedges, -, -, hstrays⟩ := hok.passes
  constructor
  · intro row hrow htag
    obtain ⟨digest, hsha, hsame⟩ := edge_agrees hedges hrow htag
    obtain ⟨s, hs, hstag, hid, rfl⟩ := shaOf_mem hsha
    have hdigest : field s 6 = field row 4 := by
      rw [Tools.same] at hsame
      cases hnumber : tools.sameNumber (field s 6) (field row 4) with
      | none =>
          rw [hnumber] at hsame
          exact of_decide_eq_true hsame
      | some same =>
          rw [hnumber, Option.getD_some] at hsame
          exact h.spelled row hrow htag _ hsha (hsame ▸ hnumber)
    refine ⟨⟨s, hs, hstag, hid⟩, ?_⟩
    intro s' hs' hstag' hid'
    have honce := h.once row hrow htag s' hs' hstag' hid'
    rw [hsha] at honce
    rw [← Option.some.inj honce, hdigest]
  · intro path item hitem hunc
    have hfound : path ∈ d.found := (d.mem_found path).mpr (by simp [hitem])
    have hrecorded : path ∈ recordedPaths r.packages := by
      rcases census_accepts hstrays hfound with hrecorded | hextra | hcats
      · exact hrecorded
      · exact absurd hextra hunc.2
      · exact h.whole path item hitem hunc hcats
    have hships := h.shipped path item hitem hunc hrecorded
    by_cases hreads : ∃ value, Ships r path value item ∧ Reads tools r path value item
    · obtain ⟨value, hship, hread⟩ := hreads
      exact ⟨value, hship, agrees_of_reads hok hitem hread⟩
    · rw [not_exists] at hreads
      exact h.read path item hitem hunc hships fun value hship hread => hreads value ⟨hship, hread⟩

/-- Where the verdict is good, it says what it should just when nothing falls between the passes. -/
theorem printsOk_accounted_iff (hok : PrintsOk tools r d) :
    Accounted tools r d ↔ Watertight tools r d :=
  ⟨fun h => h.watertight hok, fun h => h.accounted hok⟩

theorem printsOk_accounted_iff_sample :
    PrintsOk sampleTools sampleRecords intactRoot ∧
      (Accounted sampleTools sampleRecords intactRoot ↔
        Watertight sampleTools sampleRecords intactRoot) := by
  have hok : PrintsOk sampleTools sampleRecords intactRoot := by decide +kernel
  exact ⟨hok, printsOk_accounted_iff hok⟩

/-- A planted file goes as a file of the packages when a staged package had one of its name. -/
theorem planted_printsOk :
    PrintsOk sampleTools sampleRecords plantedRoot ∧
      ¬ Accounted sampleTools sampleRecords plantedRoot := by
  refine ⟨by decide +kernel, fun h => ?_⟩
  have hunc : Uncovered sampleRecords "bin/tool".toList := by
    rw [Uncovered]
    decide
  obtain ⟨value, ⟨row, hrow, htag, -, hpath⟩, -⟩ :=
    h.paths "bin/tool".toList (.file plant) rfl hunc
  have hnone : ∀ row ∈ lines sampleRecords.packages,
      field row 1 = ['F'] → field row 4 ≠ "bin/tool".toList := by decide +kernel
  exact hnone row hrow htag hpath

end Veron.Trace
