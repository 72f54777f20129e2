/-
Which banked DESTDIRs `--resume` takes: those that lack no path that is read
back from the committed listing of the package.
-/
import Mathlib.Data.List.DropRight
import Veron.InstallListing

namespace Veron.Driver

open Files

/-- The white space of `str.split` and `str.strip`. -/
def isWhite (c : Char) : Bool :=
  let n := c.toNat
  (0x09 ≤ n && n ≤ 0x0d) || (0x1c ≤ n && n ≤ 0x20) || n == 0x85 || n == 0xa0 || n == 0x1680 ||
    (0x2000 ≤ n && n ≤ 0x200a) || n == 0x2028 || n == 0x2029 || n == 0x202f || n == 0x205f ||
    n == 0x3000

def strip (text : List Char) : List Char := (text.dropWhile isWhite).rdropWhile isWhite

/-- `text.split(None, n)`. -/
def splitWhite : ℕ → List Char → List (List Char)
  | 0, text =>
      match text.dropWhile isWhite with
      | [] => []
      | c :: rest => [c :: rest]
  | n + 1, text =>
      match text.dropWhile isWhite with
      | [] => []
      | c :: rest =>
          (c :: rest).takeWhile (fun d => !isWhite d) ::
            splitWhite n ((c :: rest).dropWhile fun d => !isWhite d)

/-- What a text file is read as. -/
def universalNewlines : List Char → List Char
  | [] => []
  | '\r' :: '\n' :: rest => '\n' :: universalNewlines rest
  | '\r' :: rest => '\n' :: universalNewlines rest
  | c :: rest => c :: universalNewlines rest

/-- `for ln in open(f)`. -/
def fileLines (text : List Char) : List (List Char) :=
  let pieces := (universalNewlines text).splitOn '\n'
  pieces.dropLast.map (· ++ ['\n']) ++
    match pieces.getLast? with
    | some (c :: rest) => [c :: rest]
    | _ => []

/-- The path that `installed_paths` takes from a line. -/
def committedPath (line : List Char) : Option (List Char) :=
  match splitWhite 3 line with
  | [kind, _, _, path] =>
      if kind = ['f'] ∨ kind = ['l'] ∨ kind = ['d'] then some (strip path) else none
  | _ => none

/-- Of a package without a listing nothing is known. -/
def installedPaths (committed : Option (List Char)) : List (List Char) :=
  match committed with
  | some text => (fileLines text).filterMap committedPath
  | none => []

/-- The path that the check takes from a line of the banked DESTDIR. -/
def listedPath (line : List Char) : Option (List Char) :=
  match splitWhite 3 line with
  | [_, _, _, path] => some (strip path)
  | _ => none

/-- `want_paths - got_paths`. -/
def missingPaths (want got : List (List Char)) : List (List Char) :=
  want.filter fun p => !got.any fun q => decide (q = p)

/-- Whether the banked DESTDIR is restored. -/
def restores (sha : List UInt8 → HexDigest) (dryRun : Bool) (committed : Option (List Char))
    (read : Readings) (entries : List (String × DestNode)) : Bool :=
  let want := installedPaths committed
  if want ≠ [] ∧ dryRun = false then
    missingPaths want ((installListing sha read entries).1.filterMap listedPath) = []
  else true

/-- `installs.txt`, as written from a DESTDIR. -/
def DestTree.committed (sha : List UInt8 → HexDigest) (t : DestTree) : List Char :=
  joinLines (installListing sha t.read t.entries).1

theorem splitWhite_white (n : ℕ) {c : Char} (hc : isWhite c = true) (text : List Char) :
    splitWhite n (c :: text) = splitWhite n text := by
  cases n with
  | zero => rw [splitWhite, splitWhite, List.dropWhile_cons_of_pos hc]
  | succ n => rw [splitWhite, splitWhite, List.dropWhile_cons_of_pos hc]

theorem splitWhite_word (n : ℕ) {w : List Char} (hne : w ≠ [])
    (hword : ∀ c ∈ w, isWhite c = false) {c : Char} (hc : isWhite c = true)
    (text : List Char) :
    splitWhite (n + 1) (w ++ c :: text) = w :: splitWhite n text := by
  obtain ⟨d, w, rfl⟩ := List.exists_cons_of_ne_nil hne
  have hd := hword d List.mem_cons_self
  have hall : ∀ e ∈ d :: w, (!isWhite e) = true := fun e he => by rw [hword e he]; rfl
  have hend : (!isWhite c) = false := by rw [hc]; rfl
  have hstart : (d :: w ++ c :: text).dropWhile isWhite = d :: w ++ c :: text :=
    List.dropWhile_cons_of_neg (by simp [hd])
  rw [splitWhite, hstart]
  change ((d :: w ++ c :: text).takeWhile fun e => !isWhite e) ::
    splitWhite n ((d :: w ++ c :: text).dropWhile fun e => !isWhite e) = _
  rw [List.takeWhile_append_of_pos hall, List.dropWhile_append_of_pos hall,
    List.takeWhile_cons_of_neg (by simp [hend]), List.dropWhile_cons_of_neg (by simp [hend]),
    List.append_nil, splitWhite_white n hc]

/-- At most one more than is cut. -/
theorem length_splitWhite_le (n : ℕ) (text : List Char) : (splitWhite n text).length ≤ n + 1 := by
  induction n generalizing text with
  | zero =>
      rw [splitWhite]
      cases text.dropWhile isWhite with
      | nil => exact Nat.zero_le _
      | cons c rest => exact Nat.le_refl _
  | succ n ih =>
      rw [splitWhite]
      cases text.dropWhile isWhite with
      | nil => exact Nat.zero_le _
      | cons c rest => exact Nat.succ_le_succ (ih _)

/-- What follows `n` words, without the white space at its ends. -/
def fieldAfter (n : ℕ) (text : List Char) : Option (List Char) :=
  ((splitWhite n text)[n]?).map strip

theorem fieldAfter_word (n : ℕ) {w : List Char} (hne : w ≠ [])
    (hword : ∀ c ∈ w, isWhite c = false) {c : Char} (hc : isWhite c = true)
    (text : List Char) : fieldAfter (n + 1) (w ++ c :: text) = fieldAfter n text := by
  rw [fieldAfter, splitWhite_word n hne hword hc, List.getElem?_cons_succ, fieldAfter]

theorem listedPath_eq (line : List Char) : listedPath line = fieldAfter 3 line := by
  have hlen := length_splitWhite_le 3 line
  rw [listedPath, fieldAfter]
  match h : splitWhite 3 line with
  | [] => rfl
  | [_] => rfl
  | [_, _] => rfl
  | [_, _, _] => rfl
  | [_, _, _, _] => rfl
  | _ :: _ :: _ :: _ :: _ :: _ =>
      rw [h] at hlen
      simp only [List.length_cons] at hlen
      omega

theorem committedPath_eq {k : Char} (hkind : isWhite k = false) (text : List Char) :
    committedPath (k :: ' ' :: text) =
      if k = 'f' ∨ k = 'l' ∨ k = 'd' then fieldAfter 2 text else none := by
  have hword : splitWhite 3 (k :: ' ' :: text) = [k] :: splitWhite 2 text :=
    splitWhite_word 2 (w := [k]) (by simp) (by simpa using hkind) rfl text
  have hlen := length_splitWhite_le 2 text
  rw [committedPath, hword, fieldAfter]
  match h : splitWhite 2 text with
  | [] => simp
  | [_] => simp
  | [_, _] => simp
  | [_, _, _] => simp
  | _ :: _ :: _ :: _ :: _ =>
      rw [h] at hlen
      simp only [List.length_cons] at hlen
      omega

/-- A newline at the end goes to the last field that is cut. -/
theorem splitWhite_newline (n : ℕ) (line : List Char) :
    splitWhite n (line ++ ['\n']) = (splitWhite n line).modify n (· ++ ['\n']) := by
  have hdrop : ∀ l : List Char, (l ++ ['\n']).dropWhile isWhite =
      if (l.dropWhile isWhite).isEmpty then [] else l.dropWhile isWhite ++ ['\n'] := by
    intro l
    rw [List.dropWhile_append]
    rfl
  have hword : ∀ l : List Char, (l ++ ['\n']).dropWhile (fun d => !isWhite d) =
      l.dropWhile (fun d => !isWhite d) ++ ['\n'] := by
    intro l
    rw [List.dropWhile_append]
    cases l.dropWhile fun d => !isWhite d with
    | nil => rfl
    | cons c rest => rfl
  have htake : ∀ l : List Char, (l ++ ['\n']).takeWhile (fun d => !isWhite d) =
      l.takeWhile fun d => !isWhite d := by
    intro l
    induction l with
    | nil => rfl
    | cons c l ih =>
        rw [List.cons_append, List.takeWhile_cons, List.takeWhile_cons, ih]
  induction n generalizing line with
  | zero =>
      rw [splitWhite, splitWhite, hdrop]
      cases line.dropWhile isWhite with
      | nil => rfl
      | cons c rest => rfl
  | succ n ih =>
      rw [splitWhite, splitWhite, hdrop]
      cases line.dropWhile isWhite with
      | nil => rfl
      | cons c rest =>
          change ((c :: rest ++ ['\n']).takeWhile fun d => !isWhite d) ::
            splitWhite n ((c :: rest ++ ['\n']).dropWhile fun d => !isWhite d) = _
          rw [htake, hword, ih]
          rfl

theorem strip_newline (text : List Char) : strip (text ++ ['\n']) = strip text := by
  rw [strip, strip, List.dropWhile_append]
  cases text.dropWhile isWhite with
  | nil => rfl
  | cons c rest => exact List.rdropWhile_concat_pos isWhite (c :: rest) '\n' rfl

theorem committedPath_newline (line : List Char) :
    committedPath (line ++ ['\n']) = committedPath line := by
  have hlen := length_splitWhite_le 3 line
  rw [committedPath, committedPath, splitWhite_newline]
  match h : splitWhite 3 line with
  | [] => rfl
  | [_] => rfl
  | [_, _] => rfl
  | [_, _, _] => rfl
  | [kind, _, _, path] => exact if_congr Iff.rfl (congrArg some (strip_newline path)) rfl
  | _ :: _ :: _ :: _ :: _ :: _ =>
      rw [h] at hlen
      simp only [List.length_cons] at hlen
      omega

/-- A line, as a text file has it: cut at its carriage returns, of which one at the
end goes with the newline. -/
def cuts : List Char → List (List Char)
  | [] => [[]]
  | ['\r'] => [[]]
  | '\r' :: rest => [] :: cuts rest
  | c :: rest => (cuts rest).modifyHead (c :: ·)

theorem cuts_ne_nil (line : List Char) : cuts line ≠ [] := by
  induction line using cuts.induct with
  | case1 => simp [cuts]
  | case2 => simp [cuts]
  | case3 rest hne ih => simp [cuts]
  | case4 c rest hend hreturn ih =>
      rw [cuts]
      · exact fun h => ih (List.modifyHead_eq_nil_iff.mp h)
      · exact hend
      · exact hreturn

theorem splitOn_newline_cons (text : List Char) :
    ('\n' :: text).splitOn '\n' = [] :: text.splitOn '\n' := by
  have hnone : '\n' ∉ ([] : List Char) := by simp
  exact List.splitOn_append_cons_self_of_not_mem hnone text

theorem universalNewlines_return {c : Char} (hc : c ≠ '\n') (text : List Char) :
    universalNewlines ('\r' :: c :: text) = '\n' :: universalNewlines (c :: text) := by
  rw [universalNewlines]
  rintro _ h
  exact hc (List.cons.inj h).1

theorem universalNewlines_plain {c : Char} (hc : c ≠ '\r') (text : List Char) :
    universalNewlines (c :: text) = c :: universalNewlines text := by
  rw [universalNewlines]
  · exact fun _ h _ => hc h
  · exact fun h => hc h

theorem splitOn_universalNewlines {line : List Char} (hline : '\n' ∉ line) (rest : List Char) :
    (universalNewlines (line ++ '\n' :: rest)).splitOn '\n' =
      cuts line ++ (universalNewlines rest).splitOn '\n' := by
  induction line using cuts.induct with
  | case1 =>
      rw [List.nil_append, universalNewlines_plain (by decide), splitOn_newline_cons]
      rfl
  | case2 =>
      exact splitOn_newline_cons _
  | case3 line hne ih =>
      obtain ⟨c, line, rfl⟩ := List.exists_cons_of_ne_nil hne
      have hc : c ≠ '\n' := fun h => hline (h ▸ by simp)
      have ih := ih fun h => hline (List.mem_cons_of_mem _ h)
      rw [List.cons_append, List.cons_append, universalNewlines_return hc, ← List.cons_append,
        splitOn_newline_cons, ih, cuts]
      · rfl
      · exact hne
  | case4 c line hend hreturn ih =>
      have hc : c ≠ '\n' := fun h => hline (h ▸ List.mem_cons_self)
      have ih := ih fun h => hline (List.mem_cons_of_mem _ h)
      have hfull : cuts line ≠ [] := cuts_ne_nil line
      rw [List.cons_append, universalNewlines_plain (fun h => hreturn h),
        List.splitOn_cons_eq_if_modifyHead, if_neg (by simpa using hc), ih, cuts]
      · obtain ⟨first, later, heq⟩ := List.exists_cons_of_ne_nil hfull
        rw [heq]
        rfl
      · exact hend
      · exact fun h => hreturn h

theorem universalNewlines_unlines {ls : List (List Char)} (hls : ∀ line ∈ ls, '\n' ∉ line) :
    (universalNewlines (CutText.unlines ls)).splitOn '\n' = ls.flatMap cuts ++ [[]] := by
  induction ls with
  | nil => rfl
  | cons line ls ih =>
      rw [CutText.unlines, List.flatMap_cons, List.append_assoc, List.singleton_append,
        splitOn_universalNewlines (hls line List.mem_cons_self), ← CutText.unlines,
        ih fun m hm => hls m (List.mem_cons_of_mem line hm), List.flatMap_cons, List.append_assoc]

theorem filterMap_fileLines (text : List Char) :
    (fileLines text).filterMap committedPath =
      ((universalNewlines text).splitOn '\n').filterMap committedPath := by
  have hended : ∀ pieces : List (List Char),
      (pieces.map (· ++ ['\n'])).filterMap committedPath = pieces.filterMap committedPath := by
    intro pieces
    rw [List.filterMap_map]
    exact List.filterMap_congr fun line _ => committedPath_newline line
  rw [fileLines]
  cases (universalNewlines text).splitOn '\n' using List.reverseRecOn with
  | nil => rfl
  | append_singleton pieces last =>
      rw [List.dropLast_concat, List.getLast?_concat, List.filterMap_append, hended,
        List.filterMap_append]
      cases last with
      | nil => rfl
      | cons c rest => rfl

theorem cuts_append {word : List Char} (hword : '\r' ∉ word) (text : List Char) :
    cuts (word ++ text) = (cuts text).modifyHead (word ++ ·) := by
  induction word with
  | nil =>
      rw [List.nil_append]
      cases cuts text with
      | nil => rfl
      | cons first later => rfl
  | cons c word ih =>
      have hc : c ≠ '\r' := fun h => hword (h ▸ List.mem_cons_self)
      rw [List.cons_append, cuts, ih fun h => hword (List.mem_cons_of_mem c h),
        List.modifyHead_modifyHead]
      · rfl
      · exact fun h => absurd h hc
      · exact hc

/-- The words before the path in `entryText`. -/
def Item.words : Item → ℕ
  | .link _ => 2
  | _ => 0

/-- The end of an entry's line, from the target on in that of a link. -/
def entryText : Path × Item → List Char
  | (q, .link target) => linkText (relpath q) target
  | (q, _) => relpath q

/-- What the check takes from the line of an entry of the banked DESTDIR. -/
def shown (e : Path × Item) : Option (List Char) := fieldAfter e.2.words (entryText e)

/-- What the reader of the committed listing takes from the line of an entry that
ends in `text`. -/
def Item.readPath : Item → List Char → Option (List Char)
  | .unreadable _, _ => none
  | i, text => fieldAfter i.words text

/-- All it takes from there.  The line is cut where a path or a target has carriage
returns, and what follows one is read as a line. -/
def readBack (e : Path × Item) : List (List Char) :=
  match cuts (entryText e) with
  | [] => []
  | first :: later => (e.2.readPath first).toList ++ later.filterMap committedPath

theorem not_white_of_le {c : Char} (hlo : 0x21 ≤ c.toNat) (hhi : c.toNat ≤ 0x7e) :
    isWhite c = false := by
  simp only [isWhite, Bool.or_eq_false_iff, Bool.and_eq_false_iff, decide_eq_false_iff_not,
    beq_eq_false_iff_ne]
  omega

theorem not_white_of_isDigit {c : Char} (hc : c.isDigit = true) : isWhite c = false := by
  obtain ⟨hlo, hhi⟩ := Char.isDigit_iff_toNat.mp hc
  exact not_white_of_le (le_trans (by decide) hlo) (le_trans hhi (by decide))

theorem not_white_of_isHex {c : Char} (hc : isHex c = true) : isWhite c = false := by
  rcases Bool.or_eq_true_iff.mp hc with hc | hc
  · exact not_white_of_isDigit hc
  · rw [Bool.and_eq_true, decide_eq_true_eq, decide_eq_true_eq] at hc
    have hlo : 'a'.toNat ≤ c.toNat := hc.1
    have hhi : c.toNat ≤ 'f'.toNat := hc.2
    exact not_white_of_le (le_trans (by decide) hlo) (le_trans hhi (by decide))

theorem not_white_name (e : OSError) :
    ∀ c ∈ ("unreadable:" ++ e.name).toList, isWhite c = false := by
  have hall : ("unreadable:" ++ e.name).toList.all (fun c => !isWhite c) = true := by
    cases e <;> decide +kernel
  intro c hc
  simpa using List.all_eq_true.mp hall c hc

section

variable (sha : List UInt8 → HexDigest)

theorem fieldAfter_fileText (n : ℕ) (rel : List Char) (content : List UInt8) :
    fieldAfter (n + 2) (fileText sha rel content) = fieldAfter n rel := by
  have hsha : (sha content).text ≠ [] := by
    intro h
    have hlen := (sha content).length
    rw [h] at hlen
    cases hlen
  rw [fileText, fieldAfter_word (n + 1) hsha
      (fun c hc => not_white_of_isHex ((sha content).hex c hc)) rfl,
    fieldAfter_word n Nat.toDigits_ne_nil (fun c hc => not_white_of_isDigit
      (Nat.isDigit_of_mem_toDigits (by decide) (by decide) hc)) rfl]

theorem fieldAfter_unreadableText (n : ℕ) (rel : List Char) (e : OSError) :
    fieldAfter (n + 2) (unreadableText rel e) = fieldAfter n rel := by
  have hname : ("unreadable:" ++ e.name).toList ≠ [] := by cases e <;> decide +kernel
  rw [unreadableText, fieldAfter_word (n + 1) hname (not_white_name e) rfl]
  exact fieldAfter_word n (w := ['0']) (by simp) (by simp [isWhite]) rfl rel

theorem fieldAfter_letter (n : ℕ) {c : Char} (hc : isWhite c = false) (text : List Char) :
    fieldAfter (n + 1) (c :: ' ' :: text) = fieldAfter n text :=
  fieldAfter_word n (w := [c]) (by simp) (by simpa using hc) rfl text

theorem listedPath_listingLine (e : Path × Item) : listedPath (listingLine sha e) = shown e := by
  obtain ⟨q, i⟩ := e
  rw [listedPath_eq]
  cases i with
  | file content =>
      exact (fieldAfter_letter 2 rfl _).trans (fieldAfter_fileText sha 0 _ content)
  | unreadable e =>
      exact (fieldAfter_letter 2 rfl _).trans (fieldAfter_unreadableText 0 _ e)
  | link target => exact fieldAfter_letter 2 rfl _

theorem return_not_mem {text : List Char} (h : ∀ c ∈ text, isWhite c = false) : '\r' ∉ text :=
  fun hmem => absurd (h _ hmem) (by decide)

/-- The line of an entry is cut where its end is. -/
theorem filterMap_cuts {e : Path × Item} {b : List Char}
    (hline : listingLine sha e = b ++ entryText e) (hbefore : '\r' ∉ b)
    (hpath : ∀ first, committedPath (b ++ first) = e.2.readPath first) :
    (cuts (listingLine sha e)).filterMap committedPath = readBack e := by
  obtain ⟨first, later, hcuts⟩ := List.exists_cons_of_ne_nil (cuts_ne_nil (entryText e))
  rw [hline, cuts_append hbefore, readBack, hcuts, List.modifyHead_cons, List.filterMap_cons, hpath]
  change _ = (e.2.readPath first).toList ++ later.filterMap committedPath
  cases e.2.readPath first with
  | none => rfl
  | some p => rfl

theorem filterMap_cuts_listingLine (e : Path × Item) :
    (cuts (listingLine sha e)).filterMap committedPath = readBack e := by
  obtain ⟨q, i⟩ := e
  cases i with
  | file content =>
      have hsha : '\r' ∉ (sha content).text :=
        return_not_mem fun c hc => not_white_of_isHex ((sha content).hex c hc)
      have hsize : '\r' ∉ Nat.toDigits 10 content.length := not_mem_decimal rfl _
      refine filterMap_cuts sha (b := 'f' :: ' ' :: ((sha content).text ++
        ' ' :: (Nat.toDigits 10 content.length ++ [' '])))
        (by simp [listingLine, fileText, entryText]) (by simp [hsha, hsize]) fun first => ?_
      have hpath := committedPath_eq (k := 'f') rfl (fileText sha first content)
      rw [if_pos (.inl rfl), fieldAfter_fileText] at hpath
      simpa [fileText, Item.readPath, Item.words] using hpath
  | unreadable e =>
      have hname : '\r' ∉ ("unreadable:" ++ e.name).toList := return_not_mem (not_white_name e)
      refine filterMap_cuts sha (b := '?' :: ' ' :: (("unreadable:" ++ e.name).toList ++
        [' ', '0', ' '])) (by simp [listingLine, unreadableText, entryText])
        (by simpa using hname) fun first => ?_
      have hpath := committedPath_eq (k := '?') rfl (unreadableText first e)
      rw [if_neg (by decide)] at hpath
      simpa [unreadableText, Item.readPath] using hpath
  | link target =>
      refine filterMap_cuts sha (b := ['l', ' ']) rfl (by decide) fun first => ?_
      exact (committedPath_eq rfl first).trans (if_pos (.inr (.inl rfl)))

theorem mem_committed {t : DestTree} {w : List Char} :
    w ∈ installedPaths (some (t.committed sha)) ↔
      ∃ q i, t.itemAt q = some i ∧ w ∈ readBack (q, i) := by
  have hlines : ∀ line ∈ (installListing sha t.read t.entries).1, '\n' ∉ line :=
    fun line hline => t.newline_not_mem sha ((List.mem_insertionSort _).mp hline)
  have hpaths : installedPaths (some (t.committed sha)) =
      (installListing sha t.read t.entries).1.flatMap fun line =>
        (cuts line).filterMap committedPath := by
    rw [installedPaths, filterMap_fileLines, DestTree.committed, joinLines_eq,
      universalNewlines_unlines hlines, List.filterMap_append, List.filterMap_flatMap]
    exact List.append_nil _
  rw [hpaths, List.mem_flatMap]
  constructor
  · rintro ⟨line, hline, hw⟩
    obtain ⟨⟨q, i⟩, hi, rfl⟩ := List.mem_map.mp ((List.mem_insertionSort _).mp hline)
    exact ⟨q, i, t.mem_items.mp hi, filterMap_cuts_listingLine sha (q, i) ▸ hw⟩
  · rintro ⟨q, i, hi, hw⟩
    refine ⟨listingLine sha (q, i), (List.mem_insertionSort _).mpr
      (List.mem_map_of_mem (t.mem_items.mpr hi)), ?_⟩
    rwa [filterMap_cuts_listingLine]

theorem mem_listed {t : DestTree} {w : List Char} :
    w ∈ (installListing sha t.read t.entries).1.filterMap listedPath ↔
      ∃ q i, t.itemAt q = some i ∧ shown (q, i) = some w := by
  rw [List.mem_filterMap]
  constructor
  · rintro ⟨line, hline, hw⟩
    obtain ⟨⟨q, i⟩, hi, rfl⟩ := List.mem_map.mp ((List.mem_insertionSort _).mp hline)
    exact ⟨q, i, t.mem_items.mp hi, listedPath_listingLine sha (q, i) ▸ hw⟩
  · rintro ⟨q, i, hi, hw⟩
    refine ⟨listingLine sha (q, i), (List.mem_insertionSort _).mpr
      (List.mem_map_of_mem (t.mem_items.mpr hi)), ?_⟩
    rwa [listedPath_listingLine]

theorem missingPaths_eq_nil {want got : List (List Char)} :
    missingPaths want got = [] ↔ ∀ w ∈ want, w ∈ got := by
  simp [missingPaths, List.filter_eq_nil_iff]

/-- A banked DESTDIR shows all that is read back of the package's. -/
def ShowsAll (s t : DestTree) : Prop :=
  ∀ q i, s.itemAt q = some i → ∀ w ∈ readBack (q, i),
    ∃ q' i', t.itemAt q' = some i' ∧ shown (q', i') = some w

theorem restores_iff (dryRun : Bool) (s t : DestTree) :
    restores sha dryRun (some (s.committed sha)) t.read t.entries = true ↔
      dryRun = true ∨ ShowsAll s t := by
  have hall : (∀ w ∈ installedPaths (some (s.committed sha)),
      w ∈ (installListing sha t.read t.entries).1.filterMap listedPath) ↔ ShowsAll s t := by
    constructor
    · intro h q i hi w hw
      exact (mem_listed sha).mp (h w ((mem_committed sha).mpr ⟨q, i, hi, hw⟩))
    · intro h w hw
      obtain ⟨q, i, hi, hw⟩ := (mem_committed sha).mp hw
      exact (mem_listed sha).mpr (h q i hi w hw)
  rw [← hall, restores]
  cases dryRun with
  | true => simp
  | false =>
      split
      · rw [decide_eq_true_eq, missingPaths_eq_nil]
        simp
      · rename_i hwant
        have hnil : installedPaths (some (s.committed sha)) = [] := by simpa using hwant
        simp [hnil]

/-- A file or a link of the listing. -/
def DestTree.Lists (t : DestTree) (q : Path) : Prop :=
  (∃ content, t.itemAt q = some (.file content)) ∨ ∃ target, t.itemAt q = some (.link target)

def AllThere (s t : DestTree) : Prop := ∀ q, s.Lists q → nodeAt t.entries q ≠ none

/-- Something that is read back of an entry stands in no line of the tree. -/
def DestTree.Hides (t : DestTree) (e : Path × Item) : Prop :=
  ∃ w ∈ readBack e, ∀ q i, t.itemAt q = some i → shown (q, i) ≠ some w

/-- An entry whose path is missing. -/
def Missing (s t : DestTree) (e : Path × Item) : Prop :=
  s.itemAt e.1 = some e.2 ∧ s.Lists e.1 ∧ nodeAt t.entries e.1 = none

/-- A path is missing, and it is noticed. -/
def Noticed (s t : DestTree) : Prop := ∃ e, Missing s t e ∧ t.Hides e

/-- A path is missing, and nothing that is read back of its entry is. -/
def Unnoticed (s t : DestTree) : Prop := ∃ e, Missing s t e ∧ ¬ t.Hides e

/-- No path of the entry is missing, and something that is read back of it is. -/
def Mistaken (s t : DestTree) : Prop :=
  ∃ e, s.itemAt e.1 = some e.2 ∧ ¬ Missing s t e ∧ t.Hides e

theorem allThere_iff {s t : DestTree} : AllThere s t ↔ ¬ Noticed s t ∧ ¬ Unnoticed s t := by
  constructor
  · intro h
    exact ⟨fun ⟨e, hmissing, _⟩ => h e.1 hmissing.2.1 hmissing.2.2,
      fun ⟨e, hmissing, _⟩ => h e.1 hmissing.2.1 hmissing.2.2⟩
  · rintro ⟨hnoticed, hunnoticed⟩ q hlists hnone
    obtain ⟨i, hi⟩ : ∃ i, s.itemAt q = some i := by
      rcases hlists with ⟨content, hi⟩ | ⟨target, hi⟩
      · exact ⟨_, hi⟩
      · exact ⟨_, hi⟩
    by_cases hhides : t.Hides (q, i)
    · exact hnoticed ⟨(q, i), ⟨hi, hlists, hnone⟩, hhides⟩
    · exact hunnoticed ⟨(q, i), ⟨hi, hlists, hnone⟩, hhides⟩

theorem showsAll_iff {s t : DestTree} : ShowsAll s t ↔ ¬ Noticed s t ∧ ¬ Mistaken s t := by
  have hshows : ShowsAll s t ↔ ∀ e : Path × Item, s.itemAt e.1 = some e.2 → ¬ t.Hides e := by
    simp [ShowsAll, DestTree.Hides]
  rw [hshows]
  constructor
  · intro h
    exact ⟨fun ⟨e, hmissing, hhides⟩ => h e hmissing.1 hhides,
      fun ⟨e, hi, _, hhides⟩ => h e hi hhides⟩
  · rintro ⟨hnoticed, hmistaken⟩ e hi hhides
    by_cases hmissing : Missing s t e
    · exact hnoticed ⟨e, hmissing, hhides⟩
    · exact hmistaken ⟨e, hi, hmissing, hhides⟩

theorem restores_kinds_iff (s t : DestTree) :
    (restores sha false (some (s.committed sha)) t.read t.entries = true ↔ AllThere s t) ↔
      Noticed s t ∨ (Unnoticed s t ↔ Mistaken s t) := by
  rw [restores_iff, allThere_iff, showsAll_iff]
  simp only [Bool.false_eq_true, false_or]
  tauto

end

def OneWord (word : List Char) : Prop := word ≠ [] ∧ ∀ c ∈ word, isWhite c = false

theorem OneWord.splitWhite {word : List Char} (h : OneWord word) (n : ℕ) :
    splitWhite n word = [word] := by
  obtain ⟨c, word, rfl⟩ := List.exists_cons_of_ne_nil h.1
  have hc := h.2 c List.mem_cons_self
  have hstart : (c :: word).dropWhile isWhite = c :: word :=
    List.dropWhile_cons_of_neg (by simp [hc])
  have hall : ∀ d ∈ c :: word, (!isWhite d) = true := fun d hd => by rw [h.2 d hd]; rfl
  cases n with
  | zero => rw [Driver.splitWhite, hstart]
  | succ n =>
      rw [Driver.splitWhite, hstart]
      change ((c :: word).takeWhile fun d => !isWhite d) ::
        Driver.splitWhite n ((c :: word).dropWhile fun d => !isWhite d) = _
      rw [List.takeWhile_eq_self_iff.mpr hall, List.dropWhile_eq_nil_iff.mpr hall]
      cases n with
      | zero => rfl
      | succ n => rfl

theorem OneWord.strip {word : List Char} (h : OneWord word) : strip word = word := by
  have hstart : word.dropWhile isWhite = word := by
    rw [List.dropWhile_eq_self_iff]
    intro hlen
    simp [h.2 _ (List.getElem_mem hlen)]
  rw [Driver.strip, hstart, List.rdropWhile_eq_self_iff]
  intro hne
  simp [h.2 _ (List.getLast_mem hne)]

theorem OneWord.cuts {word : List Char} (h : OneWord word) : cuts word = [word] := by
  have hcuts := cuts_append (return_not_mem h.2) []
  rwa [List.append_nil, Driver.cuts, List.modifyHead_cons, List.append_nil] at hcuts

theorem OneWord.fieldAfter_zero {word : List Char} (h : OneWord word) :
    fieldAfter 0 word = some word := by
  rw [fieldAfter, h.splitWhite, List.getElem?_cons_zero, Option.map_some, h.strip]

/-- A line of two words has no field after them. -/
theorem OneWord.fieldAfter_two {rel : List Char} (hrel : OneWord rel) {target : String}
    (htarget : OneWord target.toList) : fieldAfter 2 (linkText rel target) = none := by
  rw [linkText, fieldAfter_word 1 htarget.1 htarget.2 rfl, fieldAfter, hrel.splitWhite]
  rfl

/-- No path and no target has white space in it. -/
def DestTree.OneWords (t : DestTree) : Prop :=
  ∀ q i, t.itemAt q = some i →
    OneWord (relpath q) ∧ ∀ target, i = .link target → OneWord target.toList

theorem readBack_oneWord {q : Path} {i : Item} (hrel : OneWord (relpath q))
    (htarget : ∀ target, i = .link target → OneWord target.toList) :
    readBack (q, i) = match i with
      | .file _ => [relpath q]
      | _ => [] := by
  cases i with
  | file content =>
      have hcuts : cuts (entryText (q, .file content)) = [relpath q] := hrel.cuts
      rw [readBack, hcuts]
      exact congrArg (fun p : Option (List Char) => p.toList ++ []) hrel.fieldAfter_zero
  | unreadable e =>
      have hcuts : cuts (entryText (q, .unreadable e)) = [relpath q] := hrel.cuts
      rw [readBack, hcuts]
      rfl
  | link target =>
      have hword := htarget target rfl
      have hreturn : '\r' ∉ linkText (relpath q) target := by
        have hpath := return_not_mem hrel.2
        have hlink := return_not_mem hword.2
        simp [linkText, hpath, hlink]
      have hcuts := cuts_append hreturn []
      rw [List.append_nil, cuts, List.modifyHead_cons, List.append_nil] at hcuts
      rw [readBack, entryText, hcuts]
      exact congrArg (fun p : Option (List Char) => p.toList ++ []) (hrel.fieldAfter_two hword)

theorem shown_oneWord {q : Path} {i : Item} (hrel : OneWord (relpath q))
    (htarget : ∀ target, i = .link target → OneWord target.toList) :
    shown (q, i) = if i.isLink then none else some (relpath q) := by
  cases i with
  | file content => exact hrel.fieldAfter_zero
  | unreadable e => exact hrel.fieldAfter_zero
  | link target => exact hrel.fieldAfter_two (htarget target rfl)

/-- Without white space a file is hidden where no file stands in its place, and nothing else is. -/
theorem hides_oneWord {s t : DestTree} (hs : s.OneWords) (ht : t.OneWords) {q : Path} {i : Item}
    (hi : s.itemAt q = some i) : t.Hides (q, i) ↔ (∃ content, i = .file content) ∧
      ∀ i', t.itemAt q = some i' → i'.isLink = true := by
  obtain ⟨hrel, htarget⟩ := hs q i hi
  rw [DestTree.Hides, readBack_oneWord hrel htarget]
  cases i with
  | file content =>
      constructor
      · rintro ⟨w, hw, hhidden⟩
        obtain rfl := List.mem_singleton.mp hw
        refine ⟨⟨content, rfl⟩, fun i' hi' => ?_⟩
        obtain ⟨hrel', htarget'⟩ := ht q i' hi'
        have hshown := hhidden q i' hi'
        rw [shown_oneWord hrel' htarget'] at hshown
        by_contra hlink
        exact hshown (if_neg hlink)
      · rintro ⟨-, hlinks⟩
        refine ⟨relpath q, List.mem_singleton_self _, fun q' i' hi' hshown => ?_⟩
        obtain ⟨hrel', htarget'⟩ := ht q' i' hi'
        rw [shown_oneWord hrel' htarget'] at hshown
        split_ifs at hshown with hlink
        obtain rfl := relpath_inj (DestTree.path_ne_nil hi') (DestTree.path_ne_nil hi)
          (DestTree.not_mem_path hi').1 (DestTree.not_mem_path hi).1 (Option.some.inj hshown)
        exact hlink (hlinks i' hi')
  | unreadable e => simp
  | link target => simp

/-- A file of the listing is missing. -/
def FileLost (s t : DestTree) : Prop :=
  ∃ q content, s.itemAt q = some (.file content) ∧ nodeAt t.entries q = none

/-- A link of the listing is missing. -/
def LinkLost (s t : DestTree) : Prop :=
  ∃ q target, s.itemAt q = some (.link target) ∧ nodeAt t.entries q = none

/-- Where the listing has a file, a link or a directory stands. -/
def FileReplaced (s t : DestTree) : Prop :=
  ∃ q content, s.itemAt q = some (.file content) ∧ nodeAt t.entries q ≠ none ∧
    ∀ i, t.itemAt q = some i → i.isLink = true

theorem no_item {t : DestTree} {q : Path} (h : nodeAt t.entries q = none) (i : Item) :
    t.itemAt q ≠ some i := by
  rw [DestTree.itemAt, h]
  simp

section

variable {s t : DestTree} (hs : s.OneWords) (ht : t.OneWords)

include hs ht

theorem noticed_oneWord : Noticed s t ↔ FileLost s t := by
  constructor
  · rintro ⟨⟨q, i⟩, ⟨hi, -, hnone⟩, hhides⟩
    obtain ⟨⟨content, rfl⟩, -⟩ := (hides_oneWord hs ht hi).mp hhides
    exact ⟨q, content, hi, hnone⟩
  · rintro ⟨q, content, hi, hnone⟩
    refine ⟨(q, .file content), ⟨hi, .inl ⟨content, hi⟩, hnone⟩, ?_⟩
    exact (hides_oneWord hs ht hi).mpr ⟨⟨content, rfl⟩, fun i' hi' => absurd hi' (no_item hnone i')⟩

theorem unnoticed_oneWord : Unnoticed s t ↔ LinkLost s t := by
  constructor
  · rintro ⟨⟨q, i⟩, ⟨hi, hlists, hnone⟩, hhides⟩
    rw [hides_oneWord hs ht hi] at hhides
    rcases hlists with ⟨content, hfile⟩ | ⟨target, hlink⟩
    · refine absurd ⟨⟨content, ?_⟩, fun i' hi' => absurd hi' (no_item hnone i')⟩ hhides
      exact Option.some.inj (hi.symm.trans hfile)
    · exact ⟨q, target, hlink, hnone⟩
  · rintro ⟨q, target, hi, hnone⟩
    refine ⟨(q, .link target), ⟨hi, .inr ⟨target, hi⟩, hnone⟩, ?_⟩
    rw [hides_oneWord hs ht hi]
    simp

theorem mistaken_oneWord : Mistaken s t ↔ FileReplaced s t := by
  constructor
  · rintro ⟨⟨q, i⟩, hi, hthere, hhides⟩
    obtain ⟨⟨content, rfl⟩, hlinks⟩ := (hides_oneWord hs ht hi).mp hhides
    exact ⟨q, content, hi, fun hnone => hthere ⟨hi, .inl ⟨content, hi⟩, hnone⟩, hlinks⟩
  · rintro ⟨q, content, hi, hthere, hlinks⟩
    refine ⟨(q, .file content), hi, fun hmissing => hthere hmissing.2.2, ?_⟩
    exact (hides_oneWord hs ht hi).mpr ⟨⟨content, rfl⟩, hlinks⟩

end

/-- `usr/tool` and nothing else. -/
def toolOnly : DestTree where
  entries := [("usr", .dir [("tool", .file 0)])]
  read := sampleReadings
  proper := .dir (by decide) (by simp) (.leaf (by decide) (by simp) (by simp) .nil) .nil
  names e he := by
    obtain rfl : e = (["usr", "tool"], .file [0x78]) := List.mem_singleton.mp he
    simp
  targets q target hmem := by cases (Prod.mk.inj (List.mem_singleton.mp hmem)).2

end Veron.Driver
