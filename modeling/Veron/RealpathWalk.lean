/-
The walk of `realpath` keeps the names of the path it has come through, so that what it
writes in the end is the canonical text.
-/
import Veron.Realpath

namespace Veron.Realpath

open PathText

variable {n i : ℕ} {kept : List (List Char)} {start text resolved path : List Char} {s : Walk}

theorem component_noSlash (path : List Char) (i : ℕ) : '/' ∉ component path i := by
  intro hmem
  simpa using List.mem_takeWhile_imp hmem

theorem drop_componentEnd (path : List Char) (i : ℕ) :
    path.drop (componentEnd path i) = (path.drop i).dropWhile (· ≠ '/') := by
  have hsplit : component path i ++ (path.drop i).dropWhile (· ≠ '/') = path.drop i :=
    List.takeWhile_append_dropWhile
  have hafter := congrArg (List.drop (component path i).length) hsplit
  rw [List.drop_left] at hafter
  rw [componentEnd, ← List.drop_drop, hafter]

theorem component_append (path : List Char) (i : ℕ) :
    component path i ++ path.drop (componentEnd path i) = path.drop i := by
  rw [drop_componentEnd]
  exact List.takeWhile_append_dropWhile

theorem componentEnd_ended (path : List Char) (i : ℕ) :
    path.drop (componentEnd path i) = [] ∨ (path.drop (componentEnd path i)).head? = some '/' := by
  rw [drop_componentEnd]
  have hdrop := List.head?_dropWhile_not (fun c => decide (c ≠ '/')) (path.drop i)
  cases hrest : (path.drop i).dropWhile (· ≠ '/') with
  | nil => exact .inl rfl
  | cons c rest =>
      rw [hrest] at hdrop
      exact .inr (by simpa using hdrop)

theorem componentEnd_le {path : List Char} {i : ℕ} (hi : i ≤ path.length) :
    componentEnd path i ≤ path.length := by
  have hlength := (List.takeWhile_prefix (· ≠ '/') (l := path.drop i)).length_le
  rw [List.length_drop] at hlength
  rw [componentEnd, component]
  omega

theorem component_cons (hi : i < path.length) (hc : path[i] ≠ '/') :
    component path i = path[i] :: component path (i + 1) := by
  rw [component, List.drop_eq_getElem_cons hi, List.takeWhile_cons_of_pos (by simpa using hc)]
  rfl

theorem component_dot (hi : i < path.length) (hc : path[i] ≠ '/') :
    (componentEnd path i - i = 1 ∧ path[i] = '.') ↔ component path i = ['.'] := by
  rw [componentEnd, Nat.add_sub_cancel_left, component_cons hi hc]
  simp [and_comm]

theorem component_dotdot (hi : i < path.length) (hc : path[i] ≠ '/') :
    (componentEnd path i - i = 2 ∧ path[i] = '.' ∧ path[i + 1]? = some '.') ↔
      component path i = ['.', '.'] := by
  rw [componentEnd, Nat.add_sub_cancel_left, component_cons hi hc]
  by_cases hi' : i + 1 < path.length
  · by_cases hc' : path[i + 1] = '/'
    · have hnone : component path (i + 1) = [] := by
        rw [component, List.drop_eq_getElem_cons hi',
          List.takeWhile_cons_of_neg (by simpa using hc')]
      simp [hnone]
    · rw [component_cons hi' hc', List.getElem?_eq_getElem hi']
      simp
      tauto
  · have hnone : component path (i + 1) = [] := by
      rw [component, List.drop_eq_nil_of_le (by omega)]
      rfl
    simp [hnone]

/-- The turn at the start of a component. -/
theorem turn_component {s : Walk} (hi : s.i < path.length) (hc : path[s.i] ≠ '/') :
    turn path s =
      if component path s.i = ['.'] then
        .ok (some { s with i := componentEnd path s.i + 1 })
      else if component path s.i = ['.', '.'] then
        if 1 < s.w then do
          return some ⟨componentEnd path s.i + 1, ← backUp s.resolved (s.w - 1), s.resolved⟩
        else .ok (some { s with i := componentEnd path s.i + 1 })
      else do
        let (w, resolved) ← copyChars path (component path s.i).length s.i s.w s.resolved
        return some ⟨componentEnd path s.i, w, resolved⟩ := by
  have hget : get path s.i = .ok path[s.i] := get_text (List.prefix_refl path) hi
  rw [turn, if_pos hi, hget]
  show (if path[s.i] = '/' then _ else _) = _
  rw [if_neg hc]
  simp only [component_dot hi hc, component_dotdot hi hc]
  rw [componentEnd, Nat.add_sub_cancel_left]
  rfl

/-- Between two turns: the names kept so far are written, with the slash after the last or
still without it, and the rest of the path leads from them to the names of all of it. -/
structure Walked (path start : List Char) (kept : List (List Char)) (text : List Char)
    (s : Walk) : Prop where
  written : Written path.length start text s.resolved
  cursor : s.w = text.length
  behind : s.w ≤ s.i
  fits : s.w ≤ path.length
  isNames : ∀ name ∈ kept, IsName name
  left : namesFrom kept (path.drop s.i) = names path
  place : text = dirs kept ∨
    text ++ ['/'] = dirs kept ∧ (path.drop s.i = [] ∨ (path.drop s.i).head? = some '/')

theorem turn_at_slash (hi : s.i < path.length) (hc : path[s.i] = '/') :
    turn path s = do
      if ← slashBefore s.resolved 0 s.w then return some { s with i := s.i + 1 }
      else return some ⟨s.i + 1, s.w + 1, ← put s.resolved s.w '/'⟩ := by
  have hget : get path s.i = .ok '/' := hc ▸ get_text (List.prefix_refl path) hi
  rw [turn, if_pos hi, hget]
  rfl

theorem turn_slash (hroom : path.length < start.length) (hs : Walked path start kept text s)
    (hi : s.i < path.length) (hc : path[s.i] = '/') :
    ∃ t text', turn path s = .ok (some t) ∧ s.i < t.i ∧ Walked path start kept text' t := by
  have hrest : path.drop s.i = '/' :: path.drop (s.i + 1) := by
    rw [List.drop_eq_getElem_cons hi, hc]
  have hleft : namesFrom kept (path.drop (s.i + 1)) = names path := by
    rw [← hs.left, hrest, namesFrom_slash]
  have hbefore := slashBefore_eq hs.written.text 0
  rw [← hs.cursor] at hbefore
  rcases hs.place with htext | ⟨htext, -⟩
  · -- one more slash of a run
    refine ⟨{ s with i := s.i + 1 }, text, ?_, Nat.lt_succ_self _, hs.written, hs.cursor,
      Nat.le_succ_of_le hs.behind, hs.fits, hs.isNames, hleft, .inl htext⟩
    have hyes : 0 < s.w ∧ text.getLast? = some '/' := by
      rw [hs.cursor, htext]
      exact ⟨by simp [dirs], dirs_getLast? kept⟩
    rw [turn_at_slash hi hc, hbefore, decide_eq_true hyes]
    rfl
  · obtain ⟨r, hput, hr⟩ := hs.written.put hroom (hs.cursor ▸ hs.fits) '/'
    refine ⟨⟨s.i + 1, s.w + 1, r⟩, text ++ ['/'], ?_, Nat.lt_succ_self _, hr, ?_,
      Nat.succ_le_succ hs.behind, hs.behind.trans_lt hi, hs.isNames, hleft, .inl htext⟩
    · have hno : ¬ (0 < s.w ∧ text.getLast? = some '/') := fun hyes =>
        getLast?_of_dirs hs.isNames htext hyes.2
      rw [turn_at_slash hi hc, hbefore, decide_eq_false hno]
      rw [hs.cursor, hput]
      rfl
    · rw [List.length_append, ← hs.cursor]
      rfl

theorem lt_componentEnd (hi : i < path.length) (hc : path[i] ≠ '/') :
    i < componentEnd path i := by
  rw [componentEnd, component_cons hi hc, List.length_cons]
  omega

/-- At the start of a component the text ends in a slash. -/
theorem Walked.text_eq (hs : Walked path start kept text s) (hi : s.i < path.length)
    (hc : path[s.i] ≠ '/') : text = dirs kept := by
  have hhead : (path.drop s.i).head? = some path[s.i] := by
    rw [List.head?_drop, List.getElem?_eq_getElem hi]
  refine hs.place.resolve_right fun hwithout => ?_
  rcases hwithout.2 with hnil | hslash
  · rw [hnil] at hhead
    cases hhead
  · exact hc (Option.some.inj (hhead.symm.trans hslash))

/-- The names go on with what the component does to them. -/
theorem Walked.left_component (hs : Walked path start kept text s) :
    namesFrom (keep kept (component path s.i)) (path.drop (componentEnd path s.i)) =
        names path ∧
      namesFrom (keep kept (component path s.i)) (path.drop (componentEnd path s.i + 1)) =
        names path := by
  have hended := componentEnd_ended path s.i
  have hleft := hs.left
  rw [← component_append path s.i, namesFrom_component (component_noSlash path s.i) hended]
    at hleft
  constructor
  · rw [← namesFrom_tail hended, hleft]
  · rw [← List.tail_drop, hleft]

/-- The cursor stays, or goes back, and the walk goes on behind a slash. -/
theorem Walked.skip {kept' : List (List Char)} {w : ℕ} (hs : Walked path start kept text s)
    (hi : s.i < path.length) (hc : path[s.i] ≠ '/') (htake : dirs kept' <+: text)
    (hw : w = (dirs kept').length) (hnames : ∀ name ∈ kept', IsName name)
    (hleft : namesFrom kept' (path.drop (componentEnd path s.i + 1)) = names path) :
    Walked path start kept' (dirs kept') ⟨componentEnd path s.i + 1, w, s.resolved⟩ := by
  have hlength : w ≤ s.w := by
    rw [hw, hs.cursor]
    exact htake.length_le
  have hnext := lt_componentEnd hi hc
  have hbehind : w ≤ componentEnd path s.i + 1 := by
    have := hs.behind
    omega
  exact ⟨hs.written.take htake, hw, hbehind, hlength.trans hs.fits, hnames, hleft, .inl rfl⟩

theorem turn_dot (hs : Walked path start kept text s) (hi : s.i < path.length)
    (hc : path[s.i] ≠ '/') (hdot : component path s.i = ['.']) :
    ∃ t, turn path s = .ok (some t) ∧ s.i < t.i ∧ Walked path start kept (dirs kept) t := by
  have hnext := lt_componentEnd hi hc
  have htext := hs.text_eq hi hc
  have hleft := hs.left_component.2
  rw [hdot, keep_dot] at hleft
  refine ⟨⟨componentEnd path s.i + 1, s.w, s.resolved⟩, ?_, Nat.lt_succ_of_lt hnext,
    hs.skip hi hc (htext ▸ List.prefix_refl _) (hs.cursor.trans (congrArg _ htext)) hs.isNames
      hleft⟩
  rw [turn_component hi hc, if_pos hdot]

theorem turn_dotdot (hs : Walked path start kept text s) (hi : s.i < path.length)
    (hc : path[s.i] ≠ '/') (hdotdot : component path s.i = ['.', '.']) :
    ∃ t, turn path s = .ok (some t) ∧ s.i < t.i ∧
      Walked path start kept.dropLast (dirs kept.dropLast) t := by
  have hnext := lt_componentEnd hi hc
  have htext := hs.text_eq hi hc
  have hleft := hs.left_component.2
  rw [hdotdot, keep_dotdot] at hleft
  rw [turn_component hi hc, if_neg (by simp [hdotdot]), if_pos hdotdot]
  rcases List.eq_nil_or_concat kept with rfl | ⟨front, name, rfl⟩
  · -- nothing is above the root
    have hw : s.w = 1 := hs.cursor.trans (congrArg _ htext)
    rw [if_neg (by omega)]
    exact ⟨⟨componentEnd path s.i + 1, s.w, s.resolved⟩, rfl, Nat.lt_succ_of_lt hnext,
      hs.skip hi hc (htext ▸ List.prefix_refl _) hw hs.isNames hleft⟩
  · rw [List.concat_eq_append] at *
    rw [dirs_concat] at htext
    have hname := hs.isNames name (by simp)
    have hw : s.w = (dirs front ++ name).length + 1 := by
      rw [hs.cursor, htext]
      simp only [List.length_append, List.length_singleton]
    have hbase : dirs front ++ name <+: s.resolved :=
      (htext ▸ List.prefix_append _ ['/']).trans hs.written.text
    have hback := backUp_eq (dirs_getLast? front) hname.noSlash hbase
    rw [if_pos (by simp [hw, dirs]), hw, Nat.add_sub_cancel, hback]
    rw [List.dropLast_concat] at hleft ⊢
    refine ⟨⟨componentEnd path s.i + 1, (dirs front).length, s.resolved⟩, rfl,
      Nat.lt_succ_of_lt hnext, hs.skip hi hc ?_ rfl
        (fun m hm => hs.isNames m (List.mem_append_left _ hm)) hleft⟩
    rw [htext, List.append_assoc]
    exact List.prefix_append _ _

theorem turn_name (hroom : path.length < start.length) (hs : Walked path start kept text s)
    (hi : s.i < path.length) (hc : path[s.i] ≠ '/') (hname : IsName (component path s.i)) :
    ∃ t, turn path s = .ok (some t) ∧ s.i < t.i ∧
      Walked path start (kept ++ [component path s.i]) (text ++ component path s.i) t := by
  have hnext := lt_componentEnd hi hc
  have hend := componentEnd_le hi.le
  have hleft := hs.left_component.1
  have hbehind := hs.behind
  have hcursor := hs.cursor
  have htaken : (path.drop s.i).take (component path s.i).length = component path s.i := by
    rw [← component_append path s.i]
    exact List.take_left
  rw [keep_name hname] at hleft
  rw [componentEnd] at hend
  obtain ⟨r, hcopy, hr⟩ := copyChars_eq hs.written hroom
    (show text.length + (component path s.i).length ≤ path.length + 1 by omega) hend
  rw [htaken] at hr
  refine ⟨⟨componentEnd path s.i, text.length + (component path s.i).length, r⟩, ?_, hnext, hr,
    List.length_append.symm, ?_, ?_, ?_, hleft, .inr ⟨?_, componentEnd_ended path s.i⟩⟩
  · rw [turn_component hi hc, if_neg hname.notDot, if_neg hname.notDotDot, hcursor, hcopy]
    rfl
  · rw [componentEnd]
    dsimp only
    omega
  · dsimp only
    omega
  · intro m hm
    rcases List.mem_append.mp hm with hm | hm
    · exact hs.isNames m hm
    · exact List.mem_singleton.mp hm ▸ hname
  · rw [dirs_concat, hs.text_eq hi hc]

/-- Each turn keeps this and goes on in the path. -/
theorem turn_walked (hroom : path.length < start.length) (hs : Walked path start kept text s)
    (hi : s.i < path.length) :
    ∃ t kept' text', turn path s = .ok (some t) ∧ s.i < t.i ∧
      Walked path start kept' text' t := by
  by_cases hc : path[s.i] = '/'
  · obtain ⟨t, text', hturn, hless, ht⟩ := turn_slash hroom hs hi hc
    exact ⟨t, kept, text', hturn, hless, ht⟩
  by_cases hdot : component path s.i = ['.']
  · obtain ⟨t, hturn, hless, ht⟩ := turn_dot hs hi hc hdot
    exact ⟨t, _, _, hturn, hless, ht⟩
  by_cases hdotdot : component path s.i = ['.', '.']
  · obtain ⟨t, hturn, hless, ht⟩ := turn_dotdot hs hi hc hdotdot
    exact ⟨t, _, _, hturn, hless, ht⟩
  · have hfilled : component path s.i ≠ [] := by
      rw [component_cons hi hc]
      exact List.cons_ne_nil _ _
    obtain ⟨t, hturn, hless, ht⟩ :=
      turn_name hroom hs hi hc ⟨hfilled, hdot, hdotdot, component_noSlash path s.i⟩
    exact ⟨t, _, _, hturn, hless, ht⟩

/-- The NUL goes behind the canonical text when that is what the cursor is behind. -/
theorem finish_put {again : Bool} (hroom : n < start.length)
    (hbefore : slashBefore s.resolved 1 s.w = .ok again)
    (hw : Written n start (joined kept) s.resolved)
    (hcursor : (if again then s.w - 1 else s.w) = (joined kept).length)
    (hfits : s.w ≤ n) :
    ∃ r, finish s = .ok r ∧ Written n start (joined kept ++ ['\x00']) r := by
  have hlength : (joined kept).length ≤ n := by
    rw [← hcursor]
    split <;> omega
  obtain ⟨r, hput, hr⟩ := hw.put hroom hlength '\x00'
  refine ⟨r, ?_, hr⟩
  rw [finish, hbefore]
  show (if (if again then s.w - 1 else s.w) = 0 then _ else put s.resolved _ '\x00') = _
  rw [hcursor, if_neg (by simp [joined]), hput]

/-- At the end of the path the canonical text is finished. -/
theorem finish_walked (hroom : path.length < start.length) (hs : Walked path start kept text s)
    (hi : path.length ≤ s.i) (hpath : path ≠ []) :
    ∃ r, finish s = .ok r ∧ Written path.length start (canonical path ++ ['\x00']) r := by
  have hkept : names path = kept := by
    have hleft := hs.left
    rw [List.drop_eq_nil_of_le hi, namesFrom_nil] at hleft
    exact hleft.symm
  have hbefore := slashBefore_eq hs.written.text 1
  rw [← hs.cursor] at hbefore
  rw [canonical, hkept]
  rcases hs.place with htext | ⟨htext, -⟩
  · by_cases hnone : kept = []
    · subst hnone
      have hroot : text = joined [] := htext
      have hw : s.w = 1 := hs.cursor.trans (congrArg _ htext)
      rw [decide_eq_false (by omega)] at hbefore
      exact finish_put hroom hbefore (hroot ▸ hs.written) hw hs.fits
    · rw [dirs_eq_joined hnone] at htext
      have hw : s.w = (joined kept).length + 1 := by
        rw [hs.cursor, htext, List.length_append, List.length_singleton]
      have hyes : 1 < s.w ∧ text.getLast? = some '/' := by
        rw [hw, htext, List.getLast?_concat]
        exact ⟨by simp [joined], rfl⟩
      rw [decide_eq_true hyes] at hbefore
      refine finish_put hroom hbefore (hs.written.take (htext ▸ List.prefix_append _ _)) ?_ hs.fits
      rw [if_pos rfl, hw, Nat.add_sub_cancel]
  · have hno : ¬ (1 < s.w ∧ text.getLast? = some '/') := fun hyes =>
      getLast?_of_dirs hs.isNames htext hyes.2
    rw [decide_eq_false hno] at hbefore
    by_cases hnone : kept = []
    · subst hnone
      have hempty : text = [] := List.append_left_eq_self.mp htext
      rw [hempty] at hs
      have hpos : 1 ≤ path.length := List.length_pos_iff.mpr hpath
      obtain ⟨r, hput, hr⟩ := hs.written.put hroom (Nat.zero_le _) '/'
      obtain ⟨r', hput', hr'⟩ := hr.put hroom hpos '\x00'
      refine ⟨r', ?_, hr'⟩
      have hw : s.w = 0 := hs.cursor
      rw [finish, hbefore]
      show (if s.w = 0 then (do put (← put s.resolved 0 '/') 1 '\x00') else _) = _
      rw [if_pos hw, show put s.resolved 0 '/' = _ from hput]
      exact hput'
    · rw [dirs_eq_joined hnone] at htext
      have hjoined : text = joined kept := List.append_cancel_right htext
      exact finish_put hroom hbefore (hjoined ▸ hs.written) (hjoined ▸ hs.cursor) hs.fits

/-- The string in a buffer. -/
def cString (cells : List Char) : List Char := cells.takeWhile (· ≠ '\x00')

/-- Into any buffer with room for the path and its NUL, given or from `malloc`, `realpath`
writes this text, and it writes to no cell behind that room. -/
def Writes (malloc : ℕ → Option (List Char)) (path text : List Char) : Prop :=
  ∀ given start, (given <|> malloc (path.length + 1)) = some start →
    path.length < start.length →
    ∃ r, realpath malloc path given = .ok (some r) ∧ cString r = text ∧
      r.length = start.length ∧ r.drop (path.length + 1) = start.drop (path.length + 1)

/-- The walk ends, at the end of the path. -/
theorem run_walked (hroom : path.length < start.length) (habs : path.head? = some '/') :
    ∃ s, Loop.run .stuck (turn path) (path.length + 2) ⟨0, 0, start⟩ = .ok s ∧
      (∃ kept text, Walked path start kept text s) ∧ path.length ≤ s.i := by
  have hstart : Walked path start [] [] ⟨0, 0, start⟩ :=
    ⟨⟨List.nil_prefix, rfl, rfl⟩, rfl, Nat.zero_le _, Nat.zero_le _, by simp, rfl,
      .inr ⟨rfl, .inr habs⟩⟩
  have hmore : ∀ s, (∃ kept text, Walked path start kept text s) → s.i < path.length →
      ∃ t, turn path s = .ok (some t) ∧ (∃ kept text, Walked path start kept text t) ∧
        path.length + 1 - t.i < path.length + 1 - s.i := by
    rintro s ⟨kept, text, hs⟩ hi
    obtain ⟨t, kept', text', hturn, hless, ht⟩ := turn_walked hroom hs hi
    exact ⟨t, hturn, ⟨kept', text', ht⟩, by omega⟩
  have htotal : ∃ s, Loop.run .stuck (turn path) (path.length + 2) ⟨0, 0, start⟩ = .ok s ∧
      (∃ kept text, Walked path start kept text s) ∧ turn path s = .ok none := by
    refine Loop.run_total _ (fun s => path.length + 1 - s.i) (fun s hs => ?_)
      ⟨[], [], hstart⟩ (by simp)
    by_cases hi : s.i < path.length
    · exact .inr (hmore s hs hi)
    · exact .inl (if_neg hi)
  obtain ⟨s, hrun, hs, hstop⟩ := htotal
  refine ⟨s, hrun, hs, not_lt.mp fun hi => ?_⟩
  obtain ⟨t, hturn, -⟩ := hmore s hs hi
  cases hstop.symm.trans hturn

theorem cString_of_prefix (hnul : '\x00' ∉ text) (hbegins : text ++ ['\x00'] <+: resolved) :
    cString resolved = text := by
  obtain ⟨after, rfl⟩ := hbegins
  rw [cString, List.append_assoc, List.takeWhile_append_of_pos]
  · simp
  · exact fun c hc => by simpa using ne_of_mem_of_not_mem hc hnul

theorem realpath_writes (malloc : ℕ → Option (List Char)) (habs : path.head? = some '/')
    (hnul : '\x00' ∉ path) : Writes malloc path (canonical path) := by
  intro given start hbuffer hroom
  obtain ⟨s, hrun, ⟨kept, text, hs⟩, hend⟩ := run_walked hroom habs
  have hpath : path ≠ [] := by
    rintro rfl
    cases habs
  obtain ⟨r, hfinish, hr⟩ := finish_walked hroom hs hend hpath
  have hnul' : '\x00' ∉ canonical path := fun hmem =>
    (mem_canonical hmem).elim (by decide) hnul
  refine ⟨r, ?_, cString_of_prefix hnul' hr.text, hr.length, hr.rest⟩
  rw [realpath, hbuffer]
  show (if path.head? ≠ some '/' then _ else _) = _
  rw [if_neg (not_not.mpr habs), hrun]
  show (do return some (← finish s)) = _
  rw [hfinish]
  rfl

/-- An absolute path gets its canonical text, which gets itself, and which every path with
the same names gets. -/
theorem realpath_correct (malloc : ℕ → Option (List Char)) (path : List Char)
    (habs : path.head? = some '/') (hnul : '\x00' ∉ path) :
    Writes malloc path (canonical path) ∧ Writes malloc (canonical path) (canonical path) ∧
      ∀ other, other.head? = some '/' → '\x00' ∉ other → names other = names path →
        Writes malloc other (canonical path) := by
  refine ⟨realpath_writes malloc habs hnul, ?_, fun other habs' hnul' hsame => ?_⟩
  · have hnul' : '\x00' ∉ canonical path := fun hmem => (mem_canonical hmem).elim (by decide) hnul
    have hwrites := realpath_writes malloc (show (canonical path).head? = some '/' from rfl) hnul'
    rwa [canonical_canonical] at hwrites
  · have hwrites := realpath_writes malloc habs' hnul'
    rwa [canonical, hsame] at hwrites

theorem realpath_correct_sample :
    Writes (fun _ => none) "/a//./b/../c/".toList (canonical "/a//./b/../c/".toList) ∧
      Writes (fun _ => none) (canonical "/a//./b/../c/".toList)
        (canonical "/a//./b/../c/".toList) ∧
      ∀ other, other.head? = some '/' → '\x00' ∉ other →
        names other = names "/a//./b/../c/".toList →
        Writes (fun _ => none) other (canonical "/a//./b/../c/".toList) :=
  realpath_correct (fun _ => none) "/a//./b/../c/".toList (by decide) (by decide)

end Veron.Realpath
