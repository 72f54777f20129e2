/-
The runs of `preprocess` in micro-c: to the end of the list or to a diagnostic, unless a macro
puts a newline in.
-/
import Mathlib.Data.Prod.Lex
import Mathlib.Order.WellFounded
import Veron.Loop
import Veron.MicroCPreprocess
import Veron.MicroCReplaceCorrect

namespace Veron.MicroC

open SelfAssembler (Byte ch text)

/-- What holds in every turn of a list without `#include`. -/
structure Placed (c : Preprocessor) : Prop where
  noInclude : ∀ t ∈ if c.startOfLine then c.ahead else lineTail c.ahead, t.s ≠ includeName
  unlinked : c.unlinked = true → Newline c.ahead
  functionLike : FunctionLike c.env → c.before ≠ [] ∨ c.unlinked = false ∧ Newline c.ahead

/-- Tokens up to the newline are rescanned as long as the count allows. -/
def rank (c : Preprocessor) : ℕ × ℕ × ℕ :=
  (if c.startOfLine then 2 * c.ahead.length else 2 * (lineTail c.ahead).length + 1,
    10000 - c.depth, c.ahead.length)

def Below : ℕ × ℕ × ℕ → ℕ × ℕ × ℕ → Prop := Prod.Lex (· < ·) (Prod.Lex (· < ·) (· < ·))

theorem below_wf : WellFounded Below :=
  WellFounded.prod_lex wellFounded_lt (WellFounded.prod_lex wellFounded_lt wellFounded_lt)

theorem below_iff {a b k a' b' k' : ℕ} : Below (a, b, k) (a', b', k') ↔
    a < a' ∨ a = a' ∧ (b < b' ∨ b = b' ∧ k < k') := by
  simp only [Below, Prod.lex_def]

section Turn

variable {m : ℕ} (int : IntType) (handleInclude : List Lexeme → Except Fault (List Lexeme))
  {c d : Preprocessor} {t : Lexeme} {ts front back : List Lexeme}

theorem lineTail_of_newline (ht : isNewline t = true) : lineTail (t :: ts) = t :: ts := by
  simp [lineTail, ht]

theorem lineTail_cons (ht : isNewline t = false) : lineTail (t :: ts) = lineTail ts := by
  simp [lineTail, ht]

theorem lineTail_append (hfront : ∀ t ∈ front, isNewline t = false) :
    lineTail (front ++ back) = lineTail back :=
  List.dropWhile_append_of_pos fun t ht => by simp [hfront t ht]

theorem lineTail_suffix (h : back <:+ ts) : lineTail back <:+ lineTail ts := by
  obtain ⟨front, rfl⟩ := h
  induction front with
  | nil => exact List.suffix_refl _
  | cons t front ih =>
      by_cases ht : isNewline t = true
      · rw [List.cons_append, lineTail_of_newline ht]
        exact ((List.dropWhile_suffix _).trans (List.suffix_append front back)).trans
          (List.suffix_cons t _)
      · rw [List.cons_append, lineTail_cons (Bool.eq_false_of_not_eq_true ht)]
        exact ih

/-- A turn in which neither a directive nor a newline is at the cursor. -/
theorem Placed.expanded {cursor : Cursor} (h : Placed c) (hc : c.ahead = t :: ts)
    (ht : isNewline t = false) (hexpanded : Expanded c.toCursor cursor ts) :
    Placed { c with toCursor := cursor, startOfLine := false } ∧
      Below (rank { c with toCursor := cursor, startOfLine := false }) (rank c) := by
  obtain ⟨front, back, hahead, hback, hfront, hdepth⟩ := hexpanded.ahead
  have hno : ¬ Newline c.ahead := by
    rintro ⟨u, us, hu, hnewline⟩
    rw [hc] at hu
    cases hu
    exact absurd (ht.symm.trans hnewline) Bool.false_ne_true
  have htail : lineTail cursor.ahead <:+ lineTail ts := by
    rw [hahead, lineTail_append hfront]
    exact lineTail_suffix hback
  have hsub : lineTail ts <:+ ts := List.dropWhile_suffix _
  refine ⟨⟨?_, fun hd => absurd (h.unlinked hd) hno, fun hf => ?_⟩, ?_⟩
  · intro u hu
    have hmem : u ∈ lineTail ts := htail.subset hu
    apply h.noInclude u
    rw [hc, lineTail_cons ht]
    split_ifs
    · exact List.mem_cons_of_mem t (hsub.subset hmem)
    · exact hmem
  · rcases h.functionLike (hexpanded.functionLike hf) with hbefore | ⟨-, hnewline⟩
    · exact .inl (hexpanded.before hbefore)
    · exact absurd hnewline hno
  · have hle := htail.length_le
    have hsub := hsub.length_le
    have hlen := hback.length_le
    have hfirst : rank c = (if c.startOfLine then 2 * (ts.length + 1)
        else 2 * (lineTail ts).length + 1, 10000 - c.depth, ts.length + 1) := by
      rw [rank, hc, lineTail_cons ht, List.length_cons]
    have hnext : rank { c with toCursor := cursor, startOfLine := false } =
        (2 * (lineTail cursor.ahead).length + 1, 10000 - cursor.depth,
          cursor.ahead.length) := rfl
    rw [hfirst, hnext, below_iff]
    rcases hdepth with ⟨rfl, hsame⟩ | ⟨hmore, hdeeper⟩
    · rw [List.nil_append] at hahead
      rw [hahead] at hle ⊢
      split_ifs <;> omega
    · split_ifs <;> omega

/-- A turn at a newline. -/
theorem Placed.newline (h : Placed c) (hc : c.ahead = t :: ts) (ht : isNewline t = true)
    (hd : d = { c with
      before := if c.unlinked then c.before else t :: c.before
      ahead := ts
      depth := 0
      unlinked := false
      startOfLine := true }) : Placed d ∧ Below (rank d) (rank c) := by
  subst hd
  refine ⟨⟨?_, fun hd => absurd hd Bool.false_ne_true, fun hf => ?_⟩, ?_⟩
  · intro u hu
    apply h.noInclude u
    rw [hc, lineTail_of_newline ht, ite_self]
    exact List.mem_cons_of_mem t hu
  · left
    dsimp only
    rcases h.functionLike hf with hbefore | ⟨hlinked, -⟩
    · split_ifs
      · exact hbefore
      · exact List.cons_ne_nil t _
    · rw [hlinked]
      exact List.cons_ne_nil t _
  · rw [rank, rank, below_iff, hc, lineTail_of_newline ht, List.length_cons]
    dsimp only
    rw [if_pos rfl]
    split_ifs <;> omega

/-- A turn at a directive. -/
theorem Placed.directed (h : Placed c) (hline : c.startOfLine = true) (hdirected : Directed c d) :
    Placed d ∧ Below (rank d) (rank c) := by
  have hstart := hdirected.startOfLine.trans hline
  refine ⟨⟨?_, hdirected.unlinked, hdirected.functionLike⟩, ?_⟩
  · intro u hu
    rw [if_pos hstart] at hu
    rcases hdirected.tokens u hu with hu | hu
    · exact h.noInclude u (by rwa [if_pos hline])
    · rw [hu]
      decide
  · have hlen := hdirected.shorter
    rw [rank, rank, below_iff, if_pos hstart, if_pos hline]
    omega

theorem turn_yields (h : Placed c) (htame : Tame m c) :
    Yields (fun next => ∀ d, next = some d → Placed d ∧ Below (rank d) (rank c))
      (turn int handleInclude m c) := by
  unfold turn
  cases hc : c.ahead with
  | nil =>
      rintro _ ⟨⟩
  | cons t ts =>
      have hbehind (ht : isNewline t = false) (hf : FunctionLike c.env) : c.before ≠ [] := by
        rcases h.functionLike hf with hbefore | ⟨-, u, us, hu, hnewline⟩
        · exact hbefore
        · rw [hc] at hu
          cases hu
          exact absurd (ht.symm.trans hnewline) Bool.false_ne_true
      dsimp only
      by_cases hdirective : c.startOfLine = true ∧ at' t.s 0 = ch '#'
      · obtain ⟨hline, hhash⟩ := hdirective
        have ht : isNewline t = false := by
          rw [isNewline, hhash]
          decide
        have hunlinked : c.unlinked = false := by
          by_contra hunlinked
          obtain ⟨u, us, hu, hnewline⟩ := h.unlinked (Bool.eq_true_of_not_eq_false hunlinked)
          rw [hc] at hu
          cases hu
          exact absurd (ht.symm.trans hnewline) Bool.false_ne_true
        have hat : AtDirective c t ts := ⟨hc, hunlinked, hbehind ht⟩
        have hinclude : t.s ≠ includeName := h.noInclude t (by simp [hline, hc])
        rw [if_pos ⟨hline, hhash⟩]
        apply (macroDirective_yields hat hhash hinclude (htame.defined hline t ts hc)).bind
        intro d hdirected
        split
        · rintro _ ⟨⟩
          exact h.directed hline hdirected
        · split_ifs
          · rintro _ ⟨⟩
            exact h.directed hline hdirected
          · exact yields_exit _
      · rw [if_neg hdirective]
        by_cases ht : isNewline t = true
        · rw [if_pos ht]
          rintro _ ⟨⟩
          exact h.newline hc ht rfl
        · rw [if_neg ht]
          have ht := Bool.eq_false_of_not_eq_true ht
          have hexpanding : expanding c = true := by
            simp only [expanding, hc, ht, Bool.not_false, Bool.and_true, Bool.not_eq_true',
              Bool.and_eq_false_iff, decide_eq_false_iff_not]
            by_cases hline : c.startOfLine = true
            · exact .inr fun hhash => hdirective ⟨hline, hhash⟩
            · exact .inl (Bool.eq_false_of_not_eq_true hline)
          apply (maybeExpand_yields hc (hbehind ht) (htame.newline hexpanding)
            (htame.joined hexpanding) (htame.opened hexpanding)).bind
          intro cursor hcursor
          rintro _ ⟨⟩
          exact h.expanded hc ht hcursor

end Turn

/-- A turn at a macro with parameters that nothing is pasted in. -/
theorem turn_invoke {int : IntType} {handleInclude : List Lexeme → Except Fault (List Lexeme)}
    {m : ℕ} {c : Preprocessor} {t next : Lexeme} {rest l ahead : List Lexeme} {hold : Macro}
    {names : List (Option Token)} (hc : c.ahead = t :: next :: rest) (hhash : at' t.s 0 ≠ ch '#')
    (hnewline : isNewline t = false) (hpaint : t.noExpand = false)
    (hfound : lookupMacro c.env t = (c.env, some hold)) (hexpansion : hold.expansion ≠ [])
    (harguments : hold.arguments = some names) (hparen : at' next.s 0 = ch '(')
    (hcollect : collectArguments m true names 1 [] hold.expansion rest = .ok (l, ahead))
    (hl : ∀ t ∈ l, t.s ≠ text ['#', '#']) (hbefore : c.before ≠ []) (hdepth : c.depth < 10000) :
    turn int handleInclude m c = .ok (some { c with
      ahead := insertTokens (paint hold.symbol l) t.filename t.linenumber ++ ahead
      depth := c.depth + 1
      startOfLine := false }) := by
  have hsplice : splice m c.toCursor t hold l ahead = .ok { c.toCursor with
      ahead := insertTokens (paint hold.symbol l) t.filename t.linenumber ++ ahead
      depth := c.depth + 1 } := by
    rw [splice, if_neg hexpansion, paste_of_pasteless (pasteless_of_noPaste hl)]
    change (if 10000 ≤ c.depth then _ else _) = _
    rw [if_neg (Nat.not_le_of_lt hdepth), if_neg (harguments ▸ Option.some_ne_none names)]
  have hexpand : maybeExpand m c.toCursor = splice m c.toCursor t hold l ahead := by
    rw [maybeExpand, hc]
    dsimp only
    rw [hpaint, if_neg Bool.false_ne_true, hfound]
    dsimp only
    rw [harguments]
    dsimp only
    rw [if_neg (not_not.mpr hparen), decide_eq_true hbefore, hcollect]
    change (if c.before = [] then _ else _) = _
    rw [if_neg hbefore, ← hc]
  rw [turn, hc]
  dsimp only
  rw [if_neg fun h => hhash h.2, hnewline, if_neg Bool.false_ne_true, hexpand, hsplice]
  rfl

section Preprocess

variable (int : IntType) (handleInclude : List Lexeme → Except Fault (List Lexeme)) (m : ℕ)

/-- `preprocess` comes to the end of the list or to a diagnostic. -/
def Ends (c : Preprocessor) : Prop :=
  ∃ d, Loop.Steps (turn int handleInclude m) c d ∧
    (turn int handleInclude m d = .ok none ∨
      ∃ message, turn int handleInclude m d = .error (.exit message))

theorem placed_start {env : List Macro} {tokens : List Lexeme}
    (henv : ∀ hold ∈ env, hold.arguments = none) (hinclude : ∀ t ∈ tokens, t.s ≠ includeName) :
    Placed (.start env tokens) where
  noInclude := hinclude
  unlinked h := absurd h Bool.false_ne_true
  functionLike h := by
    obtain ⟨hold, hmem, harguments⟩ := h
    exact absurd (henv hold hmem) harguments

theorem preprocess_ends (env : List Macro) (tokens : List Lexeme)
    (henv : ∀ hold ∈ env, hold.arguments = none) (hinclude : ∀ t ∈ tokens, t.s ≠ includeName)
    (htame : ∀ c, Loop.Steps (turn int handleInclude m) (.start env tokens) c → Tame m c) :
    Ends int handleInclude m (.start env tokens) := by
  have hplaced (c : Preprocessor)
      (hsteps : Loop.Steps (turn int handleInclude m) (.start env tokens) c) : Placed c := by
    refine Loop.invariant_of_steps Placed (placed_start henv hinclude) ?_ hsteps
    intro u v hu hplaced hturn
    have hnext := turn_yields int handleInclude hplaced (htame u hu)
    rw [hturn] at hnext
    exact (hnext v rfl).1
  have hlast : ∃ d, Loop.Steps (turn int handleInclude m) (.start env tokens) d ∧
      ∀ v, turn int handleInclude m d ≠ .ok (some v) := by
    apply Loop.exists_last below_wf rank
    intro u v hu hturn
    have hnext := turn_yields int handleInclude (hplaced u hu) (htame u hu)
    rw [hturn] at hnext
    exact (hnext v rfl).2
  obtain ⟨d, hd, hlast⟩ := hlast
  refine ⟨d, hd, ?_⟩
  have hend := turn_yields int handleInclude (hplaced d hd) (htame d hd)
  cases hturn : turn int handleInclude m d with
  | error e =>
      rw [hturn] at hend
      obtain ⟨message, rfl⟩ := hend
      exact .inr ⟨message, rfl⟩
  | ok next =>
      cases next with
      | none => exact .inl rfl
      | some v => exact absurd hturn (hlast v)

end Preprocess

def lexeme (line : ℕ) (s : List Char) : Lexeme :=
  ⟨text s, text ['a', '.', 'c'], line, false⟩

section Identity

/-- `int` for numbers that do not overflow. -/
def plainInt : IntType where
  apply op lhs rhs :=
    if op = text ['+'] then lhs + rhs
    else if op = text ['-'] then lhs - rhs
    else if op = text ['*'] then lhs * rhs
    else if op = text ['/'] then lhs.tdiv rhs
    else lhs.tmod rhs
  strtoint s := s.foldl (fun n c => 10 * n + (c.toNat - 0x30)) 0

def identity : Macro where
  symbol := text ['A']
  expansion := [lexeme 2 ['x']]
  arguments := some [some (text ['x'])]

/-- `A(x)` is defined as `x`, and `A(y)` stands in the next line. -/
def identityLines : List Lexeme :=
  [lexeme 1 ['#', 'd', 'e', 'f', 'i', 'n', 'e'], lexeme 1 ['A'], lexeme 1 ['('], lexeme 1 ['x'],
    lexeme 1 [')'], lexeme 2 ['x'], lexeme 2 ['\n'], lexeme 2 ['A'], lexeme 2 ['('],
    lexeme 2 ['y'], lexeme 3 [')'], lexeme 3 ['\n']]

theorem tame_of_none {m : ℕ} {c : Preprocessor}
    (hexpansion : expanding c = true → expansionAt m c.toCursor = none)
    (hopened : ∀ t u, c.ahead = [t, u] → at' u.s 0 ≠ ch '(')
    (hdefined : c.startOfLine → ∀ t ts, c.ahead = t :: ts →
      t.s = text ['#', 'd', 'e', 'f', 'i', 'n', 'e'] → defineEnds ts = true) : Tame m c where
  newline h l hl := by
    rw [hexpansion h] at hl
    cases hl
  joined h l hl := by
    rw [hexpansion h] at hl
    cases hl
  opened _ t u hc _ hparen := absurd hparen (hopened t u hc)
  defined := hdefined

/-- A state of the run, past its directive. -/
def identityAt (before ahead : List Lexeme) (depth : ℕ) (startOfLine : Bool) : Preprocessor where
  before := before
  ahead := ahead
  env := [identity]
  depth := depth
  unlinked := false
  conditionals := []
  startOfLine := startOfLine

theorem tame_identityAt {before ahead : List Lexeme} {depth : ℕ} {startOfLine : Bool}
    (hexpansion : expanding (identityAt before ahead depth startOfLine) = true →
      expansionAt 4096 (identityAt before ahead depth startOfLine).toCursor = none)
    (hopened : ∀ t u, ahead = [t, u] → at' u.s 0 ≠ ch '(')
    (hdefined : ∀ t ∈ ahead, t.s ≠ text ['#', 'd', 'e', 'f', 'i', 'n', 'e']) :
    Tame 4096 (identityAt before ahead depth startOfLine) := by
  apply tame_of_none hexpansion hopened
  intro _ t ts hc hdefine
  have hmem : t ∈ (identityAt before ahead depth startOfLine).ahead := by
    rw [hc]
    exact List.mem_cons_self
  exact absurd hdefine (hdefined t hmem)

theorem identity_ends : Ends plainInt .ok 4096 (.start [] identityLines) := by
  apply preprocess_ends plainInt .ok 4096 [] identityLines (by simp) (by decide)
  have hfirst : Tame 4096 (.start [] identityLines) := by
    refine tame_of_none (fun h => Bool.noConfusion h) (by rintro _ _ ⟨⟩) ?_
    rintro _ _ _ ⟨⟩ _
    rfl
  have hinvoke : Tame 4096 (identityAt [lexeme 2 ['\n']] (identityLines.drop 7) 0 true) := by
    have hbody : expansionAt 4096
        (identityAt [lexeme 2 ['\n']] (identityLines.drop 7) 0 true).toCursor =
          some [lexeme 2 ['y']] := rfl
    refine ⟨?_, ?_, by rintro _ _ _ ⟨⟩, ?_⟩
    · rintro _ l hl
      rw [hbody] at hl
      cases hl
      decide
    · rintro _ l hl
      rw [hbody] at hl
      cases hl
      exact ⟨_, paste_of_pasteless (pasteless_of_noPaste (by decide))⟩
    · rintro _ _ _ ⟨⟩ hdefine
      exact absurd hdefine (by decide)
  have hturn : turn plainInt .ok 4096
      (identityAt [lexeme 2 ['\n']] (identityLines.drop 7) 0 true) =
        .ok (some (identityAt [lexeme 2 ['\n']] [lexeme 2 ['y'], lexeme 3 ['\n']] 1 false)) :=
    turn_invoke (c := identityAt [lexeme 2 ['\n']] (identityLines.drop 7) 0 true) rfl
      (by decide) rfl rfl rfl (List.cons_ne_nil _ _) rfl rfl rfl (by decide) (List.cons_ne_nil _ _)
      (by decide)
  refine Loop.forall_steps hfirst (v := identityAt [] (identityLines.drop 6) 0 true) rfl ?_
  refine Loop.forall_steps ?_ (v := identityAt [lexeme 2 ['\n']] (identityLines.drop 7) 0 true)
    rfl ?_
  · exact tame_identityAt (fun _ => rfl) (by rintro _ _ ⟨⟩) (by decide)
  refine Loop.forall_steps hinvoke hturn ?_
  refine Loop.forall_steps ?_
    (v := identityAt [lexeme 2 ['y'], lexeme 2 ['\n']] [lexeme 3 ['\n']] 1 false) rfl ?_
  · exact tame_identityAt (fun _ => rfl) (by rintro _ _ ⟨⟩; decide) (by decide)
  refine Loop.forall_steps ?_
    (v := identityAt [lexeme 3 ['\n'], lexeme 2 ['y'], lexeme 2 ['\n']] [] 0 true) rfl ?_
  · exact tame_identityAt (fun _ => rfl) (by rintro _ _ ⟨⟩) (by decide)
  refine Loop.forall_steps_last ?_ rfl
  exact tame_identityAt (fun _ => rfl) (by rintro _ _ ⟨⟩) (by decide)

end Identity

def macroA : Macro where
  symbol := text ['A']
  expansion := [lexeme 1 ['x'], lexeme 1 ['B'], lexeme 1 ['('], lexeme 1 ['x'], lexeme 2 [')']]
  arguments := some [some (text ['x'])]

def macroB : Macro where
  symbol := text ['B']
  expansion := [lexeme 2 ['A'], lexeme 2 ['('], lexeme 2 ['x'], lexeme 3 [')']]
  arguments := some [some (text ['x'])]

/-- `A(x)` is defined as `x B(x)` and `B(x)` as `A(x)`. -/
def macroLines : List Lexeme :=
  [lexeme 1 ['#', 'd', 'e', 'f', 'i', 'n', 'e'], lexeme 1 ['A'], lexeme 1 ['('], lexeme 1 ['x'],
    lexeme 1 [')']] ++ macroA.expansion ++ [lexeme 2 ['\n']] ++
  [lexeme 2 ['#', 'd', 'e', 'f', 'i', 'n', 'e'], lexeme 2 ['B'], lexeme 2 ['('], lexeme 2 ['x'],
    lexeme 2 [')']] ++ macroB.expansion ++ [lexeme 3 ['\n']]

/-- The argument, and the end of the list. -/
def newlineArgument (i j k : ℕ) : List Lexeme :=
  [lexeme i ['('], lexeme j ['\n'], lexeme k [')'], lexeme 5 ['\n']]

/-- A state of the run, past the first newline. -/
def pong (first : Lexeme) (before ahead : List Lexeme) (depth : ℕ) (startOfLine : Bool) :
    Preprocessor where
  before := first :: before
  ahead := ahead
  env := [macroB, macroA]
  depth := depth
  unlinked := false
  conditionals := []
  startOfLine := startOfLine

section PingPong

variable {int : IntType} {handleInclude : List Lexeme → Except Fault (List Lexeme)}
  {m i j k depth : ℕ} {t : Lexeme} {before : List Lexeme} {startOfLine : Bool}

theorem turn_A (hdepth : depth < 10000) :
    turn int handleInclude m
      (pong t before (lexeme 3 ['A'] :: newlineArgument i j k) depth startOfLine) =
      .ok (some (pong t before (lexeme 3 ['\n'] :: lexeme 3 ['B'] :: newlineArgument 3 3 3)
        (depth + 1) false)) := by
  have hl : ∀ u ∈ [lexeme j ['\n'], lexeme 1 ['B'], lexeme 1 ['('], lexeme j ['\n'],
      lexeme 2 [')']], u.s ≠ text ['#', '#'] := by
    simp only [lexeme, List.forall_mem_cons]
    decide
  have hhash : at' (lexeme 3 ['A']).s 0 ≠ ch '#' := by decide
  exact turn_invoke (c := pong t before _ depth startOfLine) rfl hhash rfl rfl rfl
    (List.cons_ne_nil _ _) rfl rfl
    rfl hl (List.cons_ne_nil _ _) hdepth

theorem turn_B (hdepth : depth < 10000) :
    turn int handleInclude m
      (pong t before (lexeme 3 ['B'] :: newlineArgument 3 3 3) depth startOfLine) =
      .ok (some (pong t before (lexeme 3 ['A'] :: newlineArgument 3 3 3) (depth + 1) false)) := by
  have hl : ∀ u ∈ [lexeme 2 ['A'], lexeme 2 ['('], lexeme 3 ['\n'], lexeme 3 [')']],
      u.s ≠ text ['#', '#'] := by
    simp only [lexeme, List.forall_mem_cons]
    decide
  have hhash : at' (lexeme 3 ['B']).s 0 ≠ ch '#' := by decide
  exact turn_invoke (c := pong t before _ depth startOfLine) rfl hhash rfl rfl rfl
    (List.cons_ne_nil _ _) rfl rfl
    rfl hl (List.cons_ne_nil _ _) hdepth

theorem turn_pong_newline {ahead : List Lexeme} :
    turn int handleInclude m (pong t before (lexeme i ['\n'] :: ahead) depth startOfLine) =
      .ok (some (pong (lexeme i ['\n']) (t :: before) ahead 0 true)) := by
  cases startOfLine with
  | false => rfl
  | true => rfl

/-- The states that the run goes round in. -/
inductive Spinning : Preprocessor → Prop
  | newline (t : Lexeme) (before : List Lexeme) (depth : ℕ) :
      Spinning (pong t before (lexeme 3 ['\n'] :: lexeme 3 ['B'] :: newlineArgument 3 3 3)
        depth false)
  | second (t : Lexeme) (before : List Lexeme) :
      Spinning (pong t before (lexeme 3 ['B'] :: newlineArgument 3 3 3) 0 true)
  | first (t : Lexeme) (before : List Lexeme) :
      Spinning (pong t before (lexeme 3 ['A'] :: newlineArgument 3 3 3) 1 false)

theorem Spinning.next {c : Preprocessor} (h : Spinning c) :
    ∃ d, turn int handleInclude m c = .ok (some d) ∧ Spinning d := by
  cases h with
  | newline t before depth => exact ⟨_, turn_pong_newline, .second _ _⟩
  | second t before => exact ⟨_, turn_B (by decide), .first _ _⟩
  | first t before => exact ⟨_, turn_A (by decide), .newline _ _ _⟩

theorem steps_spinning : Loop.Steps (turn int handleInclude m)
    (.start [] (macroLines ++ lexeme 3 ['A'] :: newlineArgument 4 4 5))
    (pong (lexeme 3 ['\n']) [lexeme 2 ['\n']]
      (lexeme 3 ['\n'] :: lexeme 3 ['B'] :: newlineArgument 3 3 3) 1 false) := by
  refine .head (show _ = Except.ok (some _) from rfl) ?_
  refine .head (show _ = Except.ok (some _) from rfl) ?_
  refine .head (show _ = Except.ok (some _) from rfl) ?_
  refine .head (show _ = Except.ok (some _) from rfl) ?_
  exact .single (turn_A (i := 4) (j := 4) (k := 5) (by decide))

end PingPong

/-- The newline in the argument of `A` sets the count of expansions back in every round. -/
theorem not_preprocess_ends : ¬ ∀ (int : IntType)
    (handleInclude : List Lexeme → Except Fault (List Lexeme)) (m : ℕ) (env : List Macro)
    (tokens : List Lexeme), (∀ hold ∈ env, hold.arguments = none) →
    (∀ t ∈ tokens, t.s ≠ includeName) → Ends int handleInclude m (.start env tokens) := by
  intro h
  obtain ⟨d, hd, hend⟩ := h ⟨fun _ _ _ => 0, fun _ => 0⟩ .ok 4096 []
    (macroLines ++ lexeme 3 ['A'] :: newlineArgument 4 4 5) (by simp) (by decide)
  obtain ⟨w, hw⟩ := Loop.exists_next Spinning (fun _ hc => hc.next) steps_spinning
    (.newline _ _ _) hd
  rcases hend with hend | ⟨message, hend⟩
  · rw [hend] at hw
    cases hw
  · rw [hend] at hw
    cases hw

end Veron.MicroC
