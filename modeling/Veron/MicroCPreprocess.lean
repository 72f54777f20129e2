/-
What one turn of `preprocess` in micro-c does at a directive and at a macro.
-/
import Veron.MicroCCondition
import Veron.MicroCReplace

namespace Veron.MicroC

open SelfAssembler (Byte ch text)

/-- Past the rest of a parameter list: from what ends it, or from a period in it. -/
def parametersEnd (ts : List Lexeme) : List Lexeme :=
  ts.dropWhile fun t => at' t.s 0 ≠ ch ')' ∧ at' t.s 0 ≠ ch '.'

/-- A definition that the list is not too short for, past the name of the macro. -/
def argumentsEnd : List Lexeme → Bool
  | [] => false
  | t :: ts =>
      if at' t.s 0 = ch '(' then
        match parametersEnd ts with
        | [] => false
        | u :: us => at' u.s 0 = ch '.' || us.any isNewline
      else (t :: ts).any isNewline

def defineEnds : List Lexeme → Bool
  | [] => true
  | name :: ts => isNewline name || argumentsEnd ts

/-- The tokens that a macro at the cursor puts in, before `##` joins them. -/
def expansionAt (maxString : ℕ) (c : Cursor) : Option (List Lexeme) :=
  match c.ahead with
  | token :: next :: rest =>
      if token.noExpand then none
      else match (lookupMacro c.env token).2 with
        | none => none
        | some hold =>
            match hold.arguments with
            | none => some hold.expansion
            | some names =>
                if at' next.s 0 ≠ ch '(' then none
                else match collectArguments maxString (c.before ≠ []) names 1 []
                    hold.expansion rest with
                  | .ok (expansion, _) => some expansion
                  | .error _ => none
  | _ => none

/-- Whether a turn is for `maybe_expand`. -/
def expanding (c : Preprocessor) : Bool :=
  match c.ahead with
  | [] => false
  | t :: _ => !(c.startOfLine && at' t.s 0 = ch '#') && !isNewline t

/-- No newline is put in by a macro at the cursor, and neither it nor a definition there runs
into the end of the list or makes a token that is too long. -/
structure Tame (maxString : ℕ) (c : Preprocessor) : Prop where
  newline : expanding c → ∀ l, expansionAt maxString c.toCursor = some l →
    ∀ t ∈ l, isNewline t = false
  joined : expanding c → ∀ l, expansionAt maxString c.toCursor = some l →
    ∃ r, paste maxString l = .ok r
  opened : expanding c → ∀ t u, c.ahead = [t, u] → t.noExpand = false → at' u.s 0 = ch '(' →
    ∀ hold, (lookupMacro c.env t).2 = some hold → hold.arguments = none
  defined : c.startOfLine → ∀ t ts, c.ahead = t :: ts →
    t.s = text ['#', 'd', 'e', 'f', 'i', 'n', 'e'] → defineEnds ts = true

/-- A newline is first. -/
def Newline (l : List Lexeme) : Prop := ∃ t ts, l = t :: ts ∧ isNewline t = true

/-- What is left of the tokens from the next newline on. -/
def lineTail (l : List Lexeme) : List Lexeme := l.dropWhile fun t => !isNewline t

section Definitions

variable {env : List Macro} {ts us : List Lexeme} {u : Lexeme}

theorem handleFunctionLikeMacro_yields (names : List (Option Token)) (name : Option Token)
    (h : parametersEnd ts = u :: us) :
    Yields (fun r => at' u.s 0 ≠ ch '.' ∧ r.2 = us) (handleFunctionLikeMacro names name ts) := by
  induction names, name, ts using handleFunctionLikeMacro.induct with
  | case1 names name => cases h
  | case2 names name t ts hclose =>
      have hu : t :: ts = u :: us := by simpa [parametersEnd, hclose] using h
      cases hu
      rw [handleFunctionLikeMacro.eq_def]
      dsimp only
      rw [if_pos hclose]
      exact ⟨fun hdot => absurd (hclose.symm.trans hdot) (by decide), rfl⟩
  | case3 names name t ts hclose hdot =>
      rw [handleFunctionLikeMacro.eq_def]
      dsimp only
      rw [if_neg hclose, if_pos hdot]
      exact yields_exit _
  | case4 names name t hclose hdot => simp [parametersEnd, hclose, hdot] at h
  | case5 names name t hclose hdot comma rest hcomma ih =>
      rw [handleFunctionLikeMacro, if_neg hclose, if_neg hdot]
      rw [if_pos hcomma]
      have hneither : at' comma.s 0 ≠ ch ')' ∧ at' comma.s 0 ≠ ch '.' := by
        rw [hcomma]
        decide
      apply ih
      simpa [parametersEnd, hclose, hdot, hneither] using h
  | case6 names name t hclose hdot comma rest hcomma ih =>
      rw [handleFunctionLikeMacro, if_neg hclose, if_neg hdot]
      rw [if_neg hcomma]
      apply ih
      simpa [parametersEnd, hclose, hdot] using h

theorem defineExpansion_yields (h : ts.any isNewline = true) :
    Yields (fun r => r.2 <:+ ts ∧ Newline r.2) (defineExpansion ts) := by
  induction ts with
  | nil => cases h
  | cons t ts ih =>
      unfold defineExpansion
      split_ifs with hnewline
      · exact ⟨List.suffix_refl _, t, ts, rfl, hnewline⟩
      · rw [List.any_cons, Bool.or_eq_true, or_iff_right hnewline] at h
        apply (ih h).bind
        rintro ⟨expansion, rest⟩ ⟨hsuffix, hrest⟩
        exact ⟨hsuffix.trans (List.suffix_cons t ts), hrest⟩

theorem parametersEnd_suffix (h : parametersEnd ts = u :: us) : us <:+ ts :=
  (List.suffix_cons u us).trans (h ▸ List.dropWhile_suffix _)

theorem defineArguments_yields (h : argumentsEnd ts = true) :
    Yields (fun r => r.2 <:+ ts ∧ r.2.any isNewline = true) (defineArguments ts) := by
  cases ts with
  | nil => cases h
  | cons t ts =>
      unfold defineArguments
      unfold argumentsEnd at h
      dsimp only at h ⊢
      by_cases hspace : at' t.s 0 = 0x20
      · rw [if_pos hspace]
        rw [if_neg (by rw [hspace]; decide), List.any_cons] at h
        have hno : isNewline t = false := by
          rw [isNewline, hspace]
          decide
        exact ⟨List.suffix_cons t ts, by rwa [hno, Bool.false_or] at h⟩
      · rw [if_neg hspace]
        split_ifs at h ⊢ with hparen
        · split at h
          · cases h
          · rename_i u us hend
            apply (handleFunctionLikeMacro_yields [] none hend).bind
            rintro ⟨names, rest⟩ ⟨hdot, rfl⟩
            refine ⟨(parametersEnd_suffix hend).trans (List.suffix_cons t ts), ?_⟩
            simpa [hdot] using h
        · exact ⟨List.suffix_refl _, h⟩

theorem handleDefine_yields (h : defineEnds ts = true) :
    Yields (fun r => r.2 <:+ ts ∧ Newline r.2) (handleDefine env ts) := by
  cases ts with
  | nil => exact yields_exit _
  | cons name ts =>
      unfold handleDefine
      dsimp only
      split_ifs with hname
      · exact yields_exit _
      · have hends : argumentsEnd ts = true := ((Bool.or_eq_true _ _).mp h).resolve_left hname
        apply (defineArguments_yields hends).bind
        rintro ⟨arguments, rest⟩ ⟨hrest, hnewline⟩
        apply (defineExpansion_yields hnewline).bind
        rintro ⟨expansion, rest'⟩ ⟨hsuffix, hend⟩
        exact ⟨(hsuffix.trans hrest).trans (List.suffix_cons name ts), hend⟩

end Definitions

/-- What a directive leaves where the macros with parameters were defined behind the cursor. -/
structure Directed (c d : Preprocessor) : Prop where
  shorter : d.ahead.length < c.ahead.length
  tokens : ∀ t ∈ d.ahead, t ∈ c.ahead ∨ t.s = newlineText
  startOfLine : d.startOfLine = c.startOfLine
  unlinked : d.unlinked = true → Newline d.ahead
  functionLike : FunctionLike d.env → d.before ≠ [] ∨ d.unlinked = false ∧ Newline d.ahead

/-- Tokens eaten at the cursor, among them the first. -/
structure Eaten (c d : Preprocessor) : Prop where
  before : d.before = c.before
  ahead : d.ahead <:+ c.ahead.tail
  startOfLine : d.startOfLine = c.startOfLine
  unlinked : d.unlinked = false
  functionLike : FunctionLike d.env → d.before ≠ []

section Directives

variable {c d : Preprocessor} {t : Lexeme} {ts : List Lexeme}

theorem Eaten.length (h : Eaten c d) (hc : c.ahead = t :: ts) :
    d.ahead.length < c.ahead.length := by
  have hle := h.ahead.length_le
  rw [hc, List.tail_cons] at hle
  rw [hc, List.length_cons]
  omega

theorem Eaten.mem (h : Eaten c d) (ht : t ∈ d.ahead) : t ∈ c.ahead :=
  List.mem_of_mem_tail (h.ahead.subset ht)

theorem Eaten.directed (h : Eaten c d) (hc : c.ahead = t :: ts) : Directed c d where
  shorter := h.length hc
  tokens _ ht := .inl (h.mem ht)
  startOfLine := h.startOfLine
  unlinked hd := absurd (h.unlinked.symm.trans hd) Bool.false_ne_true
  functionLike hf := .inl (h.functionLike hf)

theorem newline_lineTail (hnewline : ts.any isNewline = true) : Newline (lineTail ts) := by
  induction ts with
  | nil => cases hnewline
  | cons t ts ih =>
      by_cases ht : isNewline t = true
      · exact ⟨t, ts, by simp [lineTail, ht], ht⟩
      · rw [List.any_cons, Bool.or_eq_true, or_iff_right ht] at hnewline
        have hskip : lineTail (t :: ts) = lineTail ts := by simp [lineTail, ht]
        rw [hskip]
        exact ih hnewline

theorem eatUntilEndif_yields (nested : ℕ) (compared : Bool) (ts : List Lexeme) :
    Yields (fun r => r <:+ ts ∧ r ≠ []) (eatUntilEndif nested compared ts) := by
  induction ts generalizing nested compared with
  | nil => exact yields_exit _
  | cons t ts ih =>
      have hpast (nested : ℕ) (compared : Bool) :
          Yields (fun r => r <:+ t :: ts ∧ r ≠ []) (eatUntilEndif nested compared ts) :=
        (ih nested compared).mono fun r hr => ⟨hr.1.trans (List.suffix_cons t ts), hr.2⟩
      unfold eatUntilEndif
      split_ifs
      · exact ⟨List.suffix_refl _, List.cons_ne_nil t ts⟩
      · exact hpast _ _
      · exact hpast _ _
      · exact hpast _ _

theorem isNewline_of_newlineText (h : t.s = newlineText) : isNewline t = true := by
  rw [isNewline, h]
  decide

theorem eatBlock_yields (h : Eaten c d) (hc : c.ahead = t :: ts) (hd : d.ahead ≠ []) :
    Yields (Directed c) (eatBlock d) := by
  have hlen := h.length hc
  unfold eatBlock
  cases hahead : d.ahead with
  | nil => exact absurd hahead hd
  | cons u us =>
      have hfirst : eatUntilEndif 0 false (u :: us) =
          eatUntilEndif (if u.s ∈ ifNames then 1 else 0) (if u.s ∈ ifNames then false else true)
            us := by
        simp only [eatUntilEndif]
        split_ifs <;> simp_all
      dsimp only
      rw [hfirst]
      rw [hahead, List.length_cons] at hlen
      apply (eatUntilEndif_yields _ _ us).bind
      rintro rest ⟨hrest, hmore⟩
      have hle := hrest.length_le
      have hmem (v : Lexeme) (hv : v ∈ rest) : v ∈ c.ahead :=
        h.mem (hahead ▸ List.mem_cons_of_mem u (hrest.subset hv))
      have hunlinked {P : Prop} (hd : d.unlinked = true) : P :=
        absurd (h.unlinked.symm.trans hd) Bool.false_ne_true
      split
      · exact absurd rfl hmore
      · rename_i v vs hbefore
        refine ⟨?_, ?_, h.startOfLine, fun _ => ⟨_, _, rfl, isNewline_of_newlineText rfl⟩, ?_⟩
        · simp only [List.length_cons] at hle ⊢
          omega
        · intro w hw
          rcases List.mem_cons.mp hw with rfl | hw
          · exact .inr rfl
          · exact .inl (hmem w hw)
        · exact fun hf => absurd hbefore (h.functionLike hf)
      · rename_i us' p before hbefore
        split_ifs with hp
        · refine ⟨?_, ?_, h.startOfLine, hunlinked, ?_⟩
          · simp only [List.length_cons]
            omega
          · intro w hw
            rcases List.mem_cons.mp hw with rfl | hw
            · exact .inr hp
            · exact .inl (hmem w hw)
          · exact fun _ => .inr ⟨h.unlinked, p, _, rfl, isNewline_of_newlineText hp⟩
        · exact ⟨by dsimp only; omega, fun w hw => .inl (hmem w hw), h.startOfLine, hunlinked,
            fun hf => .inl (h.functionLike hf)⟩

/-- A directive is at the cursor of a list whose macros with parameters are defined. -/
structure AtDirective (c : Preprocessor) (t : Lexeme) (ts : List Lexeme) : Prop where
  ahead : c.ahead = t :: ts
  unlinked : c.unlinked = false
  functionLike : FunctionLike c.env → c.before ≠ []

namespace AtDirective

theorem eaten {env : List Macro} {rest : List Lexeme} (h : AtDirective c t ts)
    (hrest : rest <:+ ts) (henv : FunctionLike env → FunctionLike c.env)
    (conditionals : List Bool) :
    Eaten c { c with ahead := rest, env := env, conditionals := conditionals } where
  before := rfl
  ahead := by rwa [h.ahead]
  startOfLine := rfl
  unlinked := h.unlinked
  functionLike hf := h.functionLike (henv hf)

theorem macroIf_yields (h : AtDirective c t ts) (int : IntType) :
    Yields (Directed c) (macroIf int c ts) := by
  apply (macroExpression_yields int c.env ts).bind
  rintro ⟨result, env, rest⟩ ⟨hreads, hmore⟩
  have heaten := h.eaten hreads.suffix hreads.functionLike
  dsimp only
  split_ifs
  · exact eatBlock_yields (heaten _) h.ahead hmore
  · exact (heaten _).directed h.ahead

theorem macroIfdef_yields (h : AtDirective c t ts) (wanted : Bool) :
    Yields (Directed c) (macroIfdef wanted c ts) := by
  cases ts with
  | nil => exact yields_exit _
  | cons name ts =>
      have henv := functionLike_lookupMacro c.env name
      unfold macroIfdef
      dsimp only
      split_ifs
      · exact (h.eaten (List.suffix_cons name ts) henv _).directed h.ahead
      · exact eatBlock_yields (h.eaten (List.suffix_refl _) henv _) h.ahead
          (List.cons_ne_nil name ts)

theorem macroElif_yields (h : AtDirective c t ts) (int : IntType) :
    Yields (Directed c) (macroElif int c ts) := by
  unfold macroElif
  by_cases hts : ts = []
  · rw [if_pos hts]
    exact yields_exit _
  · rw [if_neg hts]
    apply (macroExpression_yields int c.env ts).bind
    rintro ⟨result, env, rest⟩ ⟨hreads, hmore⟩
    have heaten := h.eaten hreads.suffix hreads.functionLike
    dsimp only
    split
    · exact yields_exit _
    · split_ifs
      · exact eatBlock_yields (heaten _) h.ahead hmore
      · exact (heaten _).directed h.ahead

theorem macroElse_yields (h : AtDirective c t ts) : Yields (Directed c) (macroElse c ts) := by
  have heaten := h.eaten (List.suffix_refl ts) id c.conditionals
  unfold macroElse
  split_ifs with hts
  · exact yields_exit _
  · split
    · exact yields_exit _
    · split_ifs
      · exact eatBlock_yields heaten h.ahead hts
      · exact heaten.directed h.ahead

theorem macroEndif_yields (h : AtDirective c t ts) : Yields (Directed c) (macroEndif c ts) := by
  unfold macroEndif
  split
  · exact yields_exit _
  · exact (h.eaten (List.suffix_refl ts) id _).directed h.ahead

theorem handleDefine_directed (h : AtDirective c t ts) (hends : defineEnds ts = true) :
    Yields (Directed c) (withEnv c <$> handleDefine c.env ts) := by
  apply (handleDefine_yields hends).map
  rintro ⟨env, rest⟩ ⟨hsuffix, hnewline⟩
  have hlen := hsuffix.length_le
  refine ⟨?_, ?_, rfl, fun hd => absurd (h.unlinked.symm.trans hd) Bool.false_ne_true,
    fun _ => .inr ⟨h.unlinked, hnewline⟩⟩
  · rw [h.ahead, List.length_cons]
    exact Nat.lt_succ_of_le hlen
  · intro u hu
    rw [h.ahead]
    exact .inl (List.mem_cons_of_mem t (hsuffix.subset hu))

theorem handleUndef_directed (h : AtDirective c t ts) :
    Yields (Directed c) (withEnv c <$> handleUndef c.env ts) := by
  cases ts with
  | nil => exact yields_exit _
  | cons name ts =>
      have henv (hf : FunctionLike (c.env.filter fun hold => hold.symbol ≠ name.s)) :
          FunctionLike c.env := by
        obtain ⟨hold, hmem, harguments⟩ := hf
        exact ⟨hold, List.mem_of_mem_filter hmem, harguments⟩
      exact (h.eaten (List.suffix_cons name ts) henv c.conditionals).directed h.ahead

theorem macroWarning_yields (h : AtDirective c t ts) :
    Yields (Directed c) (macroWarning c ts) := by
  unfold macroWarning
  split_ifs with hnewline
  · have hsuffix : lineTail ts <:+ ts := List.dropWhile_suffix _
    have hnext := newline_lineTail hnewline
    refine ⟨?_, ?_, rfl, fun _ => hnext, fun _ => .inr ⟨h.unlinked, hnext⟩⟩
    · rw [h.ahead, List.length_cons]
      exact Nat.lt_succ_of_le hsuffix.length_le
    · intro u hu
      rw [h.ahead]
      exact .inl (List.mem_cons_of_mem t (hsuffix.subset hu))
  · exact yields_exit _

theorem macroError_yields : Yields (Directed c) (macroError ts) := by
  unfold macroError
  split_ifs
  · exact yields_exit _
  · exact yields_exit _

end AtDirective

/-- Every directive but `#include` takes tokens away or stops with a diagnostic. -/
theorem macroDirective_yields {int : IntType}
    {handleInclude : List Lexeme → Except Fault (List Lexeme)} (h : AtDirective c t ts)
    (hhash : at' t.s 0 = ch '#') (hinclude : t.s ≠ includeName)
    (hdefine : t.s = text ['#', 'd', 'e', 'f', 'i', 'n', 'e'] → defineEnds ts = true) :
    Yields (Directed c) (macroDirective int handleInclude c) := by
  unfold macroDirective
  rw [h.ahead]
  dsimp only
  by_cases hdef : t.s = text ['#', 'd', 'e', 'f', 'i', 'n', 'e']
  · simp only [hdef]
    exact h.handleDefine_directed (hdefine hdef)
  split_ifs
  · exact h.macroIf_yields int
  · exact h.macroIfdef_yields true
  · exact h.macroIfdef_yields false
  · exact h.macroElif_yields int
  · exact h.macroElse_yields
  · exact h.macroEndif_yields
  · exact h.handleUndef_directed
  · exact AtDirective.macroError_yields
  · exact h.macroWarning_yields
  · have hrest : lineTail (t :: ts) <:+ ts := by
      have ht : isNewline t = false := by
        rw [isNewline, hhash]
        decide
      have hskip : lineTail (t :: ts) = lineTail ts := by simp [lineTail, ht]
      exact hskip ▸ List.dropWhile_suffix _
    exact (h.eaten hrest id c.conditionals).directed h.ahead

end Directives

/-- Where `maybe_expand` leaves the cursor: past some tokens, or at what is put in there. -/
structure Expanded (c d : Cursor) (rest : List Lexeme) : Prop where
  functionLike : FunctionLike d.env → FunctionLike c.env
  before : c.before ≠ [] → d.before ≠ []
  ahead : ∃ front back, d.ahead = front ++ back ∧ back <:+ rest ∧
    (∀ t ∈ front, isNewline t = false) ∧
    (front = [] ∧ d.depth = c.depth ∨ c.depth < 10000 ∧ d.depth = c.depth + 1)

section Expansions

variable {m : ℕ} {c : Cursor} {t : Lexeme} {ts l r : List Lexeme} {hold : Macro}
  {env : List Macro}

theorem substitute_yields (name : Option Token) (argument l : List Lexeme) :
    Yields (fun _ => True) (substitute m name argument l) := by
  have hjoin (ts : List Lexeme) (acc : Token) :
      Yields (fun _ => True) (ts.foldlM (joinWord m) acc) := by
    induction ts generalizing acc with
    | nil => trivial
    | cons t ts ih =>
        rw [List.foldlM_cons]
        refine Yields.bind (P := fun _ => True) ?_ fun acc' _ => ih acc'
        unfold joinWord
        dsimp only
        split_ifs <;> simp
  have htoken (t : Lexeme) : Yields (fun _ => True) (substituteToken m name argument t) := by
    unfold substituteToken
    split_ifs
    · exact (hjoin argument _).bind fun _ _ => trivial
    · trivial
    · trivial
  induction l with
  | nil => trivial
  | cons t l ih => exact (htoken t).bind fun _ _ => ih.bind fun _ _ => trivial

theorem collectArguments_yields (names : List (Option Token)) (parens : ℕ)
    (segment expansion : List Lexeme) (hts : ts ≠ []) :
    Yields (fun r => r.2 <:+ ts) (collectArguments m true names parens segment expansion ts) := by
  induction ts generalizing names parens segment expansion with
  | nil => exact absurd rfl hts
  | cons t ts ih =>
      have hpast (names : List (Option Token)) (parens : ℕ) (segment expansion : List Lexeme)
          (hts : ts ≠ []) : Yields (fun r => r.2 <:+ t :: ts)
            (collectArguments m true names parens segment expansion ts) :=
        (ih names parens segment expansion hts).mono fun r hr => hr.trans (List.suffix_cons t ts)
      cases names with
      | nil => exact yields_exit _
      | cons name names =>
          unfold collectArguments
          dsimp only
          by_cases hend : endsArgument parens t = true
          · rw [if_pos hend, Bool.not_true, if_neg Bool.false_ne_true]
            apply (substitute_yields name _ expansion).bind
            intro expansion' _
            by_cases hrest : ts = []
            · rw [if_pos hrest]
              exact yields_exit _
            · rw [if_neg hrest]
              split_ifs
              · exact List.suffix_cons t ts
              · exact hpast _ _ _ _ hrest
          · rw [if_neg hend]
            split_ifs with hrest
            · exact yields_exit _
            · exact hpast _ _ _ _ hrest

theorem isNewline_paste (hl : ∀ t ∈ l, isNewline t = false) (hr : paste m l = .ok r) :
    ∀ t ∈ r, isNewline t = false := by
  induction l using paste.induct m generalizing r with
  | case1 x op y rest hop hlong =>
      rw [paste, if_pos hop, if_pos hlong] at hr
      cases hr
  | case2 x op y rest hop hlong ih =>
      rw [paste, if_pos hop, if_neg hlong] at hr
      refine ih ?_ hr
      simp only [List.forall_mem_cons] at hl ⊢
      refine ⟨?_, hl.2.2.2⟩
      have hx := hl.1
      have hy := hl.2.2.1
      unfold isNewline at' at hx hy ⊢
      cases hs : x.s with
      | nil => simpa using hy
      | cons b s => simpa [hs] using hx
  | case3 x op y rest hop ih =>
      rw [paste, if_neg hop] at hr
      obtain ⟨r', hr', hcons⟩ := bind_eq_ok.mp hr
      cases hcons
      rw [List.forall_mem_cons] at hl ⊢
      exact ⟨hl.1, ih hl.2 hr'⟩
  | case4 l hshort =>
      rw [paste] at hr
      · cases hr
        exact hl
      · exact hshort

theorem isNewline_insertTokens {symbol file : Token} {line : ℕ}
    (h : ∀ t ∈ l, isNewline t = false) :
    ∀ t ∈ insertTokens (paint symbol l) file line, isNewline t = false := by
  intro t ht
  obtain ⟨u, hu, rfl⟩ := List.mem_map.mp ht
  obtain ⟨v, hv, rfl⟩ := List.mem_map.mp hu
  have hnewline := h v hv
  unfold isNewline at hnewline ⊢
  split_ifs <;> exact hnewline

theorem functionLike_setExpansion {symbol : Token}
    (h : FunctionLike (setExpansion symbol l env)) : FunctionLike env := by
  induction env with
  | nil => exact h
  | cons first env ih =>
      obtain ⟨hold, hmem, harguments⟩ := h
      unfold setExpansion at hmem
      split_ifs at hmem
      · rcases List.mem_cons.mp hmem with rfl | hmem
        · exact ⟨first, List.mem_cons_self, harguments⟩
        · exact ⟨hold, List.mem_cons_of_mem first hmem, harguments⟩
      · rcases List.mem_cons.mp hmem with rfl | hmem
        · exact ⟨hold, List.mem_cons_self, harguments⟩
        · obtain ⟨hold', hmem', harguments'⟩ := ih ⟨hold, hmem, harguments⟩
          exact ⟨hold', List.mem_cons_of_mem first hmem', harguments'⟩

theorem functionLike_of_found (h : (lookupMacro env t).2 = some hold)
    (harguments : hold.arguments ≠ none) : FunctionLike env := by
  unfold lookupMacro at h
  split_ifs at h
  · cases h
    exact absurd rfl harguments
  · cases h
    exact absurd rfl harguments
  · exact ⟨hold, List.mem_of_find?_eq_some h, harguments⟩

theorem splice_yields {ahead : List Lexeme} (henv : FunctionLike env → FunctionLike c.env)
    (hahead : ahead <:+ ts) (hnewline : ∀ t ∈ l, isNewline t = false)
    (hjoined : ∃ r, paste m l = .ok r) :
    Yields (fun d => Expanded c d ts) (splice m { c with env := env } t hold l ahead) := by
  obtain ⟨r, hr⟩ := hjoined
  unfold splice
  by_cases hempty : hold.expansion = []
  · rw [if_pos hempty]
    exact ⟨henv, id, [], ahead, rfl, hahead, by simp, .inl ⟨rfl, rfl⟩⟩
  · rw [if_neg hempty, hr]
    change Yields (fun d => Expanded c d ts) (if 10000 ≤ c.depth then _ else _)
    by_cases hdepth : 10000 ≤ c.depth
    · rw [if_pos hdepth]
      exact yields_exit _
    · rw [if_neg hdepth]
      refine ⟨fun hf => henv ?_, id, _, ahead, rfl, hahead,
        isNewline_insertTokens (isNewline_paste hnewline hr), .inr ⟨Nat.lt_of_not_le hdepth, rfl⟩⟩
      dsimp only at hf
      split_ifs at hf
      · exact functionLike_setExpansion hf
      · exact hf

/-- What `maybe_expand` does at a token, where no newline is put in. -/
theorem maybeExpand_yields (hc : c.ahead = t :: ts) (hbefore : FunctionLike c.env → c.before ≠ [])
    (hnewline : ∀ l, expansionAt m c = some l → ∀ t ∈ l, isNewline t = false)
    (hjoined : ∀ l, expansionAt m c = some l → ∃ r, paste m l = .ok r)
    (hopened : ∀ t u, c.ahead = [t, u] → t.noExpand = false → at' u.s 0 = ch '(' →
      ∀ hold, (lookupMacro c.env t).2 = some hold → hold.arguments = none) :
    Yields (fun d => Expanded c d ts) (maybeExpand m c) := by
  have henv := functionLike_lookupMacro c.env t
  have hpast {env : List Macro} (henv : FunctionLike env → FunctionLike c.env) :
      Expanded c { c with before := t :: c.before, ahead := ts, env := env } ts :=
    ⟨henv, fun _ => List.cons_ne_nil t _, [], ts, rfl, List.suffix_refl ts, by simp,
      .inl ⟨rfl, rfl⟩⟩
  unfold maybeExpand
  rw [hc]
  dsimp only
  by_cases hpaint : t.noExpand = true
  · rw [if_pos hpaint]
    exact hpast id
  rw [if_neg hpaint]
  cases ts with
  | nil => exact yields_exit _
  | cons next ts =>
      cases hfound : (lookupMacro c.env t).2 with
      | none => exact hpast henv
      | some hold =>
          dsimp only
          cases harguments : hold.arguments with
          | none =>
              have hexpansion : expansionAt m c = some hold.expansion := by
                simp only [expansionAt, hc, hpaint, hfound, harguments]
                rfl
              exact splice_yields henv (List.suffix_refl _) (hnewline _ hexpansion)
                (hjoined _ hexpansion)
          | some names =>
              dsimp only
              by_cases hparen : at' next.s 0 ≠ ch '('
              · rw [if_pos hparen]
                exact hpast henv
              · rw [if_neg hparen]
                have hbehind : c.before ≠ [] :=
                  hbefore (functionLike_of_found hfound (harguments ▸ Option.some_ne_none names))
                have hts : ts ≠ [] := by
                  rintro rfl
                  have hnone := hopened t next hc (by simpa using hpaint) (not_not.mp hparen)
                    hold hfound
                  rw [harguments] at hnone
                  cases hnone
                have hcollect := (collectArguments_yields (m := m) names 1 [] hold.expansion
                  hts).and_eq
                rw [decide_eq_true hbehind]
                apply hcollect.bind
                rintro ⟨expansion, ahead⟩ ⟨heq, hsuffix⟩
                have hexpansion : expansionAt m c = some expansion := by
                  simp only [expansionAt, hc, hpaint, hfound, harguments, hparen, hbehind,
                    decide_true, heq, ne_eq, not_false_eq_true]
                  rfl
                dsimp only
                rw [if_neg hbehind]
                exact splice_yields henv (hsuffix.trans (List.suffix_cons next ts))
                  (hnewline _ hexpansion) (hjoined _ hexpansion)

end Expansions

end Veron.MicroC
