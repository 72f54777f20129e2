/-
The run of `preprocess` over a text with conditionals, line by line and directive by directive.
-/
import Veron.MicroCSelect

namespace Veron.MicroC

open SelfAssembler (Byte ch text)

/-- What is left of the text before the cursor; newlines are taken out later. -/
def kept (c : Preprocessor) : List Lexeme := c.before.reverse.filter fun t => !isNewline t

/-- The cursor is at the start of a line, behind a newline if anything is left before it; the
macros are still those of `env`. -/
structure AtLine (env : List Macro) (c : Preprocessor) : Prop where
  start : c.startOfLine = true
  linked : c.unlinked = false
  before : c.before = [] ∨ ∃ p l, c.before = p :: l ∧ p.s = newlineText
  macros : defined c.env = defined env

variable {int : IntType} {handleInclude : List Lexeme → Except Fault (List Lexeme)} {m : ℕ}
  {env : List Macro} {c d : Preprocessor} {t newline : Lexeme} {l rest : List Lexeme}

/-- The loop comes from one line to another, past text of which `out` is left. -/
def Passes (int : IntType) (handleInclude : List Lexeme → Except Fault (List Lexeme)) (m : ℕ)
    (env : List Macro) (c : Preprocessor) (out ahead : List Lexeme) (conditionals : List Bool) :
    Prop :=
  ∃ d, Loop.Steps (turn int handleInclude m) c d ∧ AtLine env d ∧ kept d = kept c ++ out ∧
    d.ahead = ahead ∧ d.conditionals = conditionals

theorem Passes.refl (h : AtLine env c) :
    Passes int handleInclude m env c [] c.ahead c.conditionals :=
  ⟨c, .refl, h, (List.append_nil _).symm, rfl, rfl⟩

theorem Passes.trans {out out' ahead ahead' : List Lexeme} {conditionals conditionals' : List Bool}
    (h : Passes int handleInclude m env c out ahead conditionals)
    (hnext : ∀ d, AtLine env d → d.ahead = ahead → d.conditionals = conditionals →
      Passes int handleInclude m env d out' ahead' conditionals') :
    Passes int handleInclude m env c (out ++ out') ahead' conditionals' := by
  obtain ⟨d, hsteps, hline, hkept, hahead, hconditionals⟩ := h
  obtain ⟨e, hsteps', hline', hkept', hrest⟩ := hnext d hline hahead hconditionals
  exact ⟨e, hsteps.trans hsteps', hline', by rw [hkept', hkept, List.append_assoc], hrest⟩

theorem isNewline_of_eq (h : newline.s = newlineText) : isNewline newline = true := by
  rw [isNewline, h]
  decide

/-- The cursor past the newline that it is at. -/
def Preprocessor.pastNewline (c : Preprocessor) (newline : Lexeme) (rest : List Lexeme) :
    Preprocessor :=
  { c with
    before := if c.unlinked then c.before else newline :: c.before
    ahead := rest
    depth := 0
    unlinked := false
    startOfLine := true }

theorem turn_newline (int : IntType) (handleInclude : List Lexeme → Except Fault (List Lexeme))
    (m : ℕ) (hahead : c.ahead = newline :: rest)
    (hnewline : newline.s = newlineText) :
    turn int handleInclude m c = .ok (some (c.pastNewline newline rest)) := by
  have hhash : ¬(c.startOfLine = true ∧ at' newline.s 0 = ch '#') := by
    rw [hnewline]
    exact fun h => absurd h.2 (by decide)
  rw [turn, hahead]
  dsimp only
  rw [if_neg hhash, if_pos (isNewline_of_eq hnewline)]
  rfl

/-- A token that invokes no macro is passed. -/
theorem maybeExpand_quiet {c : Cursor} (hahead : c.ahead = t :: rest) (hrest : rest ≠ [])
    (hquiet : t.noExpand = false → ∀ hold, (lookupMacro c.env t).2 = some hold →
      hold.arguments ≠ none ∧ ∀ next ∈ rest.head?, at' next.s 0 ≠ ch '(') :
    ∃ env, defined env = defined c.env ∧
      maybeExpand m c = .ok { c with before := t :: c.before, ahead := rest, env := env } := by
  obtain ⟨next, l, rfl⟩ := List.exists_cons_of_ne_nil hrest
  have hsame := defined_lookupMacro c.env t
  rw [maybeExpand, hahead]
  dsimp only
  by_cases hpaint : t.noExpand = true
  · rw [if_pos hpaint]
    exact ⟨c.env, rfl, rfl⟩
  · rw [if_neg hpaint]
    rcases hlookup : lookupMacro c.env t with ⟨env, found⟩
    rw [hlookup] at hquiet hsame
    cases found with
    | none => exact ⟨env, hsame, rfl⟩
    | some hold =>
        obtain ⟨harguments, hparen⟩ := hquiet (eq_false_of_ne_true hpaint) hold rfl
        obtain ⟨names, hnames⟩ := Option.ne_none_iff_exists'.mp harguments
        dsimp only
        rw [hnames]
        dsimp only
        rw [if_pos (hparen next rfl)]
        exact ⟨env, hsame, rfl⟩

/-- The rest of a line of text that no macro is in, up to its newline. -/
theorem steps_text (int : IntType) (handleInclude : List Lexeme → Except Fault (List Lexeme))
    (m : ℕ) {text : List Lexeme} (hahead : c.ahead = text ++ newline :: rest)
    (hordinary : ∀ t ∈ text, isNewline t = false)
    (hhash : c.startOfLine = true → ∀ t ∈ text.head?, at' t.s 0 ≠ ch '#')
    (hquiet : Quiet c.env text) (hnewline : newline.s = newlineText)
    (hlinked : c.unlinked = false) :
    ∃ d, Loop.Steps (turn int handleInclude m) c d ∧ d.before = text.reverse ++ c.before ∧
      d.ahead = newline :: rest ∧ d.conditionals = c.conditionals ∧ d.unlinked = false ∧
      defined d.env = defined c.env := by
  induction text generalizing c with
  | nil => exact ⟨c, .refl, rfl, hahead, rfl, hlinked, rfl⟩
  | cons t text ih =>
      obtain ⟨hfirst, hothers⟩ := hquiet
      have hno : ¬isNewline t = true := by
        rw [hordinary t List.mem_cons_self]
        exact Bool.false_ne_true
      have hdirective : ¬(c.startOfLine = true ∧ at' t.s 0 = ch '#') :=
        fun h => hhash h.1 t rfl h.2
      have hquiet : t.noExpand = false → ∀ hold, (lookupMacro c.env t).2 = some hold →
          hold.arguments ≠ none ∧
            ∀ next ∈ (text ++ newline :: rest).head?, at' next.s 0 ≠ ch '(' := by
        intro hpaint hold hlookup
        obtain ⟨harguments, hparen⟩ := hfirst hpaint hold hlookup
        refine ⟨harguments, ?_⟩
        cases text with
        | nil =>
            intro next hnext
            cases hnext
            rw [hnewline]
            decide
        | cons u text => exact hparen
      obtain ⟨env, henv, hexpand⟩ :=
        @maybeExpand_quiet m t (text ++ newline :: rest) c.toCursor hahead (by simp) hquiet
      let next : Preprocessor := { c with
        before := t :: c.before, ahead := text ++ newline :: rest, env := env,
          startOfLine := false }
      have hturn : turn int handleInclude m c = .ok (some next) := by
        rw [turn, hahead]
        dsimp only [List.cons_append]
        rw [if_neg hdirective, if_neg hno, hexpand]
        rfl
      obtain ⟨d, hsteps, hbefore, hrest⟩ := @ih next rfl
        (fun u hu => hordinary u (List.mem_cons_of_mem t hu)) (fun h => absurd h Bool.false_ne_true)
        (hothers.congr henv) hlinked
      refine ⟨d, .head hturn hsteps, ?_, hrest.1, hrest.2.1, hrest.2.2.1, hrest.2.2.2.trans henv⟩
      rw [hbefore, List.reverse_cons, List.append_assoc]
      rfl

theorem passes_line {text : List Lexeme} (h : AtLine env c)
    (hahead : c.ahead = text ++ newline :: rest) (htext : IsText text)
    (hnewline : newline.s = newlineText) (hquiet : Quiet env text) :
    Passes int handleInclude m env c text rest c.conditionals := by
  obtain ⟨d, hsteps, hbefore, hahead, hconditionals, hlinked, hmacros⟩ :=
    steps_text int handleInclude m hahead
      (fun t ht => (htext.ordinary t ht).notNewline) (fun _ => htext.noDirective)
      (hquiet.congr h.macros) hnewline h.linked
  have hturn := turn_newline int handleInclude m hahead hnewline
  have hline : (d.pastNewline newline rest).before = newline :: d.before := by
    simp [Preprocessor.pastNewline, hlinked]
  refine ⟨d.pastNewline newline rest, hsteps.tail hturn,
    ⟨rfl, rfl, .inr ⟨newline, d.before, hline, hnewline⟩, hmacros.trans h.macros⟩, ?_, rfl,
    hconditionals⟩
  have hall : text.filter (fun t => !isNewline t) = text := by
    apply List.filter_eq_self.mpr
    intro t ht
    rw [(htext.ordinary t ht).notNewline]
    rfl
  rw [kept, hline, hbefore, List.reverse_cons, List.filter_append, List.reverse_append,
    List.reverse_reverse, List.filter_append, hall]
  simp [kept, isNewline_of_eq hnewline]

/-- A directive that leaves the cursor at the end of its line, and the newline there. -/
theorem steps_directive (hstart : c.startOfLine = true) (hahead : c.ahead = t :: l)
    (hhash : at' t.s 0 = ch '#') (hdirective : macroDirective int handleInclude c = .ok d)
    (hline : d.ahead = newline :: rest) (hnewline : newline.s = newlineText) :
    Loop.Steps (turn int handleInclude m) c (d.pastNewline newline rest) := by
  have hturn : turn int handleInclude m c = .ok (some d) := by
    rw [turn, hahead]
    dsimp only
    rw [if_pos ⟨hstart, hhash⟩, hdirective]
    simp only [bind, Except.bind, hline, isNewline_of_eq hnewline, if_true]
  exact .head hturn (.single (turn_newline int handleInclude m hline hnewline))

/-- A directive behind which the text is read on. -/
theorem passes_taken (h : AtLine env c) (hahead : c.ahead = t :: l) (hhash : at' t.s 0 = ch '#')
    (hdirective : macroDirective int handleInclude c = .ok d) (hbefore : d.before = c.before)
    (hlinked : d.unlinked = false) (hmacros : defined d.env = defined env)
    (hline : d.ahead = newline :: rest) (hnewline : newline.s = newlineText) :
    Passes int handleInclude m env c [] rest d.conditionals := by
  have hcons : (d.pastNewline newline rest).before = newline :: c.before := by
    simp [Preprocessor.pastNewline, hlinked, hbefore]
  refine ⟨d.pastNewline newline rest,
    steps_directive h.start hahead hhash hdirective hline hnewline,
    ⟨rfl, rfl, .inr ⟨newline, c.before, hcons, hnewline⟩, hmacros⟩, ?_, rfl, rfl⟩
  rw [kept, hcons, List.reverse_cons, List.filter_append]
  simp [kept, isNewline_of_eq hnewline]

/-- A directive behind which the text is skipped, up to another one. -/
theorem passes_skipped {u : Lexeme} {us : List Lexeme} (h : AtLine env c)
    (hahead : c.ahead = t :: l) (hhash : at' t.s 0 = ch '#')
    (hdirective : macroDirective int handleInclude c = eatBlock d) (hbefore : d.before = c.before)
    (hlinked : d.unlinked = false) (hmacros : defined d.env = defined env)
    (hskip : eatUntilEndif 0 false d.ahead = .ok (u :: us)) :
    Passes int handleInclude m env c [] (u :: us) d.conditionals := by
  cases hrest : d.ahead with
  | nil =>
      rw [hrest] at hskip
      cases hskip
  | cons v vs =>
      rw [hrest] at hskip
      rcases h.before with hnone | ⟨p, before, hsome, hp⟩
      · let e : Preprocessor := { d with
          ahead := ⟨newlineText, u.filename, u.linenumber, false⟩ :: u :: us, unlinked := true }
        have heat : eatBlock d = .ok e := by
          simp only [eatBlock, hrest, hskip, hbefore, hnone, bind, Except.bind, e]
        have hno : (e.pastNewline ⟨newlineText, u.filename, u.linenumber, false⟩
            (u :: us)).before = [] := by
          simp [Preprocessor.pastNewline, e, hbefore, hnone]
        refine ⟨_, steps_directive h.start hahead hhash (hdirective.trans heat) rfl rfl,
          ⟨rfl, rfl, .inl hno, hmacros⟩, ?_, rfl, rfl⟩
        rw [kept, hno, kept, hnone]
        rfl
      · let e : Preprocessor := { d with before := before, ahead := p :: u :: us }
        have heat : eatBlock d = .ok e := by
          simp only [eatBlock, hrest, hskip, hbefore, hsome, hp, bind, Except.bind, e, if_true]
        have hcons : (e.pastNewline p (u :: us)).before = c.before := by
          simp [Preprocessor.pastNewline, e, hlinked, hsome]
        refine ⟨_, steps_directive h.start hahead hhash (hdirective.trans heat) rfl hp,
          ⟨rfl, rfl, .inr ⟨p, before, hcons.trans hsome, hp⟩, hmacros⟩, ?_, rfl, rfl⟩
        rw [kept, hcons, List.append_nil, kept]

theorem holds_expression {condition : List Lexeme} (hdef : t.s ≠ ifdefName)
    (hndef : t.s ≠ ifndefName) : holds int env t condition = isTrue int env condition := by
  rw [holds, if_neg hdef, if_neg hndef]

theorem holds_ifdef {condition : List Lexeme} (ht : t.s = ifdefName) :
    holds int env t condition = isDefined env condition := by
  rw [holds, if_pos ht]

theorem holds_ifndef {condition : List Lexeme} (ht : t.s = ifndefName) :
    holds int env t condition = !isDefined env condition := by
  rw [holds, if_neg (by rw [ht]; decide), if_pos ht]

/-- `#ifdef` and `#ifndef` with a name. -/
theorem macroIfdef_name (h : AtLine env c) (wanted : Bool) (name : Lexeme) (ts : List Lexeme) :
    macroIfdef wanted c (name :: ts) =
      if isDefined env [name] = wanted then
        .ok (push true { c with ahead := ts, env := (lookupMacro c.env name).1 })
      else
        eatBlock (push false
          { c with ahead := name :: ts, env := (lookupMacro c.env name).1 }) := by
  rw [isDefined, ← lookupMacro_congr h.macros]
  rfl

theorem opening_directive (handleInclude : List Lexeme → Except Fault (List Lexeme))
    (h : AtLine env c) {condition : List Lexeme}
    (hahead : c.ahead = t :: (condition ++ newline :: rest)) (ht : t.s ∈ ifNames)
    (hcondition : ∀ u ∈ condition, Ordinary u) (hnewline : newline.s = newlineText)
    (hreadable : Readable int env t condition) :
    ∃ e l, defined e = defined env ∧ eatUntilEndif 0 false l = eatUntilEndif 0 true rest ∧
      macroDirective int handleInclude c =
        if holds int env t condition then
          .ok (push true { c with ahead := newline :: rest, env := e })
        else eatBlock (push false { c with ahead := l, env := e }) := by
  have hif : text ['#', 'i', 'f'] ≠ ifdefName ∧ text ['#', 'i', 'f'] ≠ ifndefName := by decide
  have hndef : ifndefName ≠ text ['#', 'i', 'f'] ∧
      ifndefName ≠ text ['#', 'i', 'f', 'd', 'e', 'f'] := by decide
  simp only [ifNames, List.mem_cons, List.not_mem_nil, or_false] at ht
  rw [macroDirective, hahead]
  dsimp only
  rcases ht with ht | ht | ht
  · rw [Readable, ht, if_neg (not_or.mpr hif)] at hreadable
    obtain ⟨v, e, hvalue, he, htrue⟩ := hreadable.reads h.macros hnewline
    refine ⟨e, newline :: rest, he, eatUntilEndif_ordinary (newline_ordinary hnewline), ?_⟩
    rw [holds_expression (ht ▸ hif.1) (ht ▸ hif.2), if_pos ht, macroIf, hvalue, htrue]
    by_cases hv : v = 0 <;> simp [hv, bind, Except.bind]
  · rw [Readable, if_pos (.inl ht)] at hreadable
    obtain ⟨name, rfl⟩ := hreadable
    refine ⟨(lookupMacro c.env name).1, name :: newline :: rest,
      (defined_lookupMacro c.env name).trans h.macros,
      eatUntilEndif_line hcondition hnewline, ?_⟩
    rw [holds_ifdef ht, if_neg fun hname => hif.1 (hname.symm.trans ht), if_pos ht]
    exact macroIfdef_name h true name _
  · rw [Readable, if_pos (.inr ht)] at hreadable
    obtain ⟨name, rfl⟩ := hreadable
    refine ⟨(lookupMacro c.env name).1, name :: newline :: rest,
      (defined_lookupMacro c.env name).trans h.macros,
      eatUntilEndif_line hcondition hnewline, ?_⟩
    rw [holds_ifndef ht, if_neg fun hname => hndef.1 (ht.symm.trans hname),
      if_neg fun hname => hndef.2 (ht.symm.trans hname), if_pos ht]
    simp only [Bool.not_eq_true']
    exact macroIfdef_name h false name _

theorem elif_directive (handleInclude : List Lexeme → Except Fault (List Lexeme))
    (h : AtLine env c) {condition : List Lexeme} {matched : Bool}
    {outer : List Bool} (hahead : c.ahead = t :: (condition ++ newline :: rest))
    (ht : t.s = elifName) (hnewline : newline.s = newlineText)
    (hreadable : Readable int env t condition) (hconditionals : c.conditionals = matched :: outer) :
    ∃ e, defined e = defined env ∧
      macroDirective int handleInclude c =
        if matched = false ∧ holds int env t condition = true then
          .ok { c with ahead := newline :: rest, env := e, conditionals := true :: outer }
        else eatBlock { c with ahead := newline :: rest, env := e } := by
  have helif : elifName ≠ ifdefName ∧ elifName ≠ ifndefName := by decide
  rw [Readable, ht, if_neg (not_or.mpr helif)] at hreadable
  obtain ⟨v, e, hvalue, he, htrue⟩ := hreadable.reads h.macros hnewline
  refine ⟨e, he, ?_⟩
  have hmore : condition ++ newline :: rest ≠ [] := by simp
  rw [holds_expression (ht ▸ helif.1) (ht ▸ helif.2), htrue, macroDirective, hahead]
  dsimp only
  rw [ht, if_neg (by decide), if_neg (by decide), if_neg (by decide), if_pos rfl, macroElif,
    if_neg hmore, hvalue, hconditionals]
  cases matched <;> by_cases hv : v = 0 <;> simp [hv, bind, Except.bind]

theorem else_directive {matched : Bool} {outer : List Bool}
    (hahead : c.ahead = t :: newline :: rest) (ht : t.s = elseName)
    (hconditionals : c.conditionals = matched :: outer) :
    macroDirective int handleInclude c =
      if matched then eatBlock { c with ahead := newline :: rest }
      else .ok { c with ahead := newline :: rest } := by
  rw [macroDirective, hahead]
  dsimp only
  rw [ht, if_neg (by decide), if_neg (by decide), if_neg (by decide), if_neg (by decide),
    if_pos rfl, macroElse, hconditionals, if_neg (List.cons_ne_nil newline rest)]

theorem endif_directive {matched : Bool} {outer : List Bool}
    (hahead : c.ahead = t :: newline :: rest) (ht : t.s = endifName)
    (hconditionals : c.conditionals = matched :: outer) :
    macroDirective int handleInclude c =
      .ok { c with ahead := newline :: rest, conditionals := outer } := by
  rw [macroDirective, hahead]
  dsimp only
  rw [ht, if_neg (by decide), if_neg (by decide), if_neg (by decide), if_neg (by decide),
    if_neg (by decide), if_pos rfl, macroEndif, hconditionals]

theorem hash_of_mem (h : t.s ∈ groupNames) : at' t.s 0 = ch '#' := by
  have hall : ∀ s ∈ groupNames, at' s 0 = ch '#' := by decide
  exact hall t.s h

/-- Skipping stops at the next directive of the same conditional. -/
theorem Branches.stops (b : Branches) (hb : b.Nested) (ht : t.s = endifName) :
    ∃ u us, b.tokens ++ t :: l = u :: us ∧ eatUntilEndif 0 true (u :: us) = .ok (u :: us) := by
  have hstop (u : Lexeme) (us : List Lexeme) (hu : u.s ∈ [elifName, elseName, endifName]) :
      eatUntilEndif 0 true (u :: us) = .ok (u :: us) := by
    rw [eatUntilEndif, if_pos ⟨rfl, rfl, hu⟩]
  cases b with
  | nil => exact ⟨t, l, rfl, hstop t l (by rw [ht]; decide)⟩
  | otherwise directive newline body =>
      exact ⟨directive, _, rfl, hstop directive _ (by rw [hb.1]; decide)⟩
  | elif directive condition newline body more =>
      exact ⟨directive, _, rfl, hstop directive _ (by rw [hb.1]; decide)⟩

/-- The rest of a group is skipped, up to the next directive of its conditional. -/
theorem passes_group_skipped (h : AtLine env c) (hahead : c.ahead = t :: l)
    (hhash : at' t.s 0 = ch '#') (hdirective : macroDirective int handleInclude c = eatBlock d)
    (hbefore : d.before = c.before) (hlinked : d.unlinked = false)
    (hmacros : defined d.env = defined env) (body : Group) (hbody : body.Nested) (b : Branches)
    (hb : b.Nested) {closing : Lexeme} (hclosing : closing.s = endifName)
    (hskip : eatUntilEndif 0 false d.ahead =
      eatUntilEndif 0 true (body.tokens ++ (b.tokens ++ closing :: rest))) :
    Passes int handleInclude m env c [] (b.tokens ++ closing :: rest) d.conditionals := by
  obtain ⟨u, us, heq, hstop⟩ := b.stops hb (l := rest) hclosing
  rw [heq]
  refine passes_skipped h hahead hhash hdirective hbefore hlinked hmacros ?_
  rw [hskip, heq, body.skip hbody, hstop]

theorem passes_endif (h : AtLine env c) {matched : Bool} {outer : List Bool}
    (hahead : c.ahead = t :: newline :: rest) (ht : t.s = endifName)
    (hnewline : newline.s = newlineText) (hconditionals : c.conditionals = matched :: outer) :
    Passes int handleInclude m env c [] rest outer :=
  passes_taken h hahead (by rw [ht]; decide) (endif_directive hahead ht hconditionals) rfl h.linked
    h.macros rfl hnewline

mutual

/-- What is left of a text is what C selects of it. -/
theorem Group.passes (g : Group) (hnested : g.Nested) (hready : g.Ready int env)
    {c : Preprocessor} {rest : List Lexeme} (h : AtLine env c)
    (hahead : c.ahead = g.tokens ++ rest) :
    Passes int handleInclude m env c (g.selected (holds int env)) rest c.conditionals := by
  cases g with
  | nil =>
      cases hahead
      exact .refl h
  | line text newline more =>
      obtain ⟨htext, hnewline, hmore⟩ := hnested
      rw [Group.tokens, List.append_assoc] at hahead
      refine (passes_line h hahead htext hnewline hready.1).trans fun d hd hahead hsame => ?_
      rw [← hsame]
      exact more.passes hmore hready.2 hd hahead
  | conditional opening condition newline body more closing newline' after =>
      obtain ⟨hopening, hcondition, hnewline, hbody, hmore, hclosing, hnewline', hafter⟩ := hnested
      obtain ⟨hreadable, hbodyReady, hmoreReady, hafterReady⟩ := hready
      simp only [Group.tokens, List.cons_append, List.append_assoc] at hahead
      have hhash : at' opening.s 0 = ch '#' := hash_of_mem (List.mem_append_left _ hopening)
      obtain ⟨e, l, he, hl, hdirective⟩ :=
        opening_directive handleInclude h hahead hopening hcondition hnewline hreadable
      rw [Group.selected]
      suffices hfirst : Passes int handleInclude m env c
          (if holds int env opening condition then body.selected (holds int env)
            else more.selected (holds int env)) (after.tokens ++ rest) c.conditionals from
        hfirst.trans fun d hd hahead hsame => hsame ▸ after.passes hafter hafterReady hd hahead
      cases hholds : holds int env opening condition with
      | true =>
          rw [hholds, if_pos rfl] at hdirective
          rw [if_pos rfl, ← List.nil_append (body.selected _), ← List.append_nil (body.selected _)]
          refine (passes_taken h hahead hhash hdirective rfl h.linked he rfl hnewline).trans ?_
          intro d hd hahead hpushed
          refine (body.passes hbody (hbodyReady hholds) hd hahead).trans ?_
          intro d' hd' hahead hsame
          exact more.passes hmore (hholds ▸ hmoreReady) hclosing hnewline' hd' hahead
            (hsame.trans hpushed)
      | false =>
          rw [hholds, if_neg Bool.false_ne_true] at hdirective
          rw [if_neg Bool.false_ne_true, ← List.nil_append (more.selected _)]
          refine (passes_group_skipped h hahead hhash hdirective rfl h.linked he body hbody more
            hmore hclosing hl).trans ?_
          intro d hd hahead hpushed
          exact more.passes hmore (hholds ▸ hmoreReady) hclosing hnewline' hd hahead hpushed

/-- Behind the first group of a conditional; nothing more is left where one has `matched`. -/
theorem Branches.passes (b : Branches) (hnested : b.Nested) {matched : Bool}
    (hready : b.Ready int env matched) {closing newline : Lexeme} {rest : List Lexeme}
    (hclosing : closing.s = endifName) (hnewline : newline.s = newlineText) {c : Preprocessor}
    (h : AtLine env c) (hahead : c.ahead = b.tokens ++ closing :: newline :: rest)
    {outer : List Bool} (hconditionals : c.conditionals = matched :: outer) :
    Passes int handleInclude m env c (if matched then [] else b.selected (holds int env)) rest
      outer := by
  cases b with
  | nil =>
      rw [Branches.selected, ite_self]
      exact passes_endif h hahead hclosing hnewline hconditionals
  | otherwise directive newline' body =>
      obtain ⟨hname, hnewline', hbody⟩ := hnested
      simp only [Branches.tokens, List.cons_append] at hahead
      have hhash : at' directive.s 0 = ch '#' := by
        rw [hname]
        decide
      have hdirective : macroDirective int handleInclude c = _ :=
        else_directive hahead hname hconditionals
      cases matched with
      | true =>
          rw [if_pos rfl] at hdirective
          refine (passes_group_skipped h hahead hhash hdirective rfl h.linked h.macros body hbody
            .nil trivial hclosing (eatUntilEndif_ordinary (newline_ordinary hnewline'))).trans ?_
          intro d hd hahead hsame
          exact passes_endif hd hahead hclosing hnewline (hsame.trans hconditionals)
      | false =>
          rw [if_neg Bool.false_ne_true] at hdirective
          rw [if_neg Bool.false_ne_true, Branches.selected, ← List.nil_append (body.selected _),
            ← List.append_nil (body.selected _)]
          refine (passes_taken h hahead hhash hdirective rfl h.linked h.macros rfl hnewline').trans
            ?_
          intro d hd hahead hsame
          refine (body.passes hbody (hready rfl) hd hahead).trans ?_
          intro d' hd' hahead hsame'
          exact passes_endif hd' hahead hclosing hnewline
            (hsame'.trans (hsame.trans hconditionals))
  | elif directive condition newline' body more =>
      obtain ⟨hname, hcondition, hnewline', hbody, hmore⟩ := hnested
      obtain ⟨hreadable, hbodyReady, hmoreReady⟩ := hready
      simp only [Branches.tokens, List.cons_append, List.append_assoc] at hahead
      have hhash : at' directive.s 0 = ch '#' := by
        rw [hname]
        decide
      obtain ⟨e, he, hdirective⟩ :=
        elif_directive handleInclude h hahead hname hnewline' hreadable hconditionals
      by_cases hfirst : matched = false ∧ holds int env directive condition = true
      · rw [if_pos hfirst] at hdirective
        obtain ⟨rfl, hholds⟩ := hfirst
        rw [if_neg Bool.false_ne_true, Branches.selected, hholds, if_pos rfl,
          ← List.nil_append (body.selected _), ← List.append_nil (body.selected _)]
        refine (passes_taken h hahead hhash hdirective rfl h.linked he rfl hnewline').trans ?_
        intro d hd hahead hpushed
        refine (body.passes hbody (hbodyReady rfl hholds) hd hahead).trans ?_
        intro d' hd' hahead hsame
        rw [hholds] at hmoreReady
        exact more.passes hmore hmoreReady hclosing hnewline hd' hahead (hsame.trans hpushed)
      · rw [if_neg hfirst] at hdirective
        have hmatched : (matched || holds int env directive condition) = matched := by
          cases matched with
          | true => rfl
          | false => exact eq_false_of_ne_true fun hholds => hfirst ⟨rfl, hholds⟩
        have hout : (if matched then [] else (Branches.elif directive condition newline' body
            more).selected (holds int env)) =
            if matched then [] else more.selected (holds int env) := by
          cases matched with
          | true => rfl
          | false =>
              rw [Branches.selected, if_neg fun hholds => hfirst ⟨rfl, hholds⟩]
        rw [hout, ← List.nil_append (if matched then _ else _)]
        refine (passes_group_skipped h hahead hhash hdirective rfl h.linked he body hbody more
          hmore hclosing (eatUntilEndif_ordinary (newline_ordinary hnewline'))).trans ?_
        intro d hd hahead hsame
        rw [hmatched] at hmoreReady
        exact more.passes hmore hmoreReady hclosing hnewline hd hahead
          (hsame.trans hconditionals)

end

/-- The text that C selects is what is left, and every conditional is closed. -/
theorem preprocess_selects (int : IntType)
    (handleInclude : List Lexeme → Except Fault (List Lexeme)) (m : ℕ) (env : List Macro)
    (g : Group) (hnested : g.Nested) (hready : g.Ready int env) :
    ∃ d, Loop.Steps (turn int handleInclude m) (.start env g.tokens) d ∧
      turn int handleInclude m d = .ok none ∧ kept d = g.selected (holds int env) ∧
      d.conditionals = [] := by
  have hstart : AtLine env (.start env g.tokens) := ⟨rfl, rfl, .inl rfl, rfl⟩
  have hpasses : Passes int handleInclude m env (.start env g.tokens) _ [] [] :=
    g.passes hnested hready hstart (List.append_nil _).symm
  obtain ⟨d, hsteps, -, hkept, hahead, hconditionals⟩ := hpasses
  refine ⟨d, hsteps, ?_, hkept, hconditionals⟩
  rw [turn, hahead]

/-- A line with one token. -/
def word (s : List Char) : Lexeme := ⟨text s, [], 1, false⟩

/-- `#ifdef x`, `a`, `#else`, `b`, `#endif`. -/
def undefinedGroup : Group :=
  .conditional (word ['#', 'i', 'f', 'd', 'e', 'f']) [word ['x']] endOfLine
    (.line [word ['a']] endOfLine .nil)
    (.otherwise (word ['#', 'e', 'l', 's', 'e']) endOfLine (.line [word ['b']] endOfLine .nil))
    (word ['#', 'e', 'n', 'd', 'i', 'f']) endOfLine .nil

theorem undefined_selects :
    ∃ d, Loop.Steps (turn ⟨fun _ v _ => v, fun _ => 0⟩ .ok 4096)
        (.start [] undefinedGroup.tokens) d ∧
      turn ⟨fun _ v _ => v, fun _ => 0⟩ .ok 4096 d = .ok none ∧ kept d = [word ['b']] ∧
      d.conditionals = [] := by
  have hordinary (c : Char) (hc : c ∈ ['a', 'b', 'x']) : Ordinary (word [c]) := by
    simp only [List.mem_cons, List.not_mem_nil, or_false] at hc
    rcases hc with rfl | rfl | rfl <;> exact ⟨by decide, by decide⟩
  have htext (c : Char) (hc : c ∈ ['a', 'b', 'x']) : IsText [word [c]] := by
    refine ⟨by simpa using hordinary c hc, ?_⟩
    rintro t ⟨⟩
    simp only [List.mem_cons, List.not_mem_nil, or_false] at hc
    rcases hc with rfl | rfl | rfl <;> decide
  have hnone : (lookupMacro [] (word ['b'])).2 = none := by decide
  have hquiet : Quiet [] [word ['b']] :=
    ⟨fun _ hold h => absurd (hnone.symm.trans h) (Option.some_ne_none hold).symm, trivial⟩
  exact preprocess_selects ⟨fun _ v _ => v, fun _ => 0⟩ .ok 4096 [] undefinedGroup
    ⟨by decide, by simpa using hordinary 'x' (by decide), rfl,
      ⟨htext 'a' (by decide), rfl, trivial⟩,
      ⟨rfl, rfl, htext 'b' (by decide), rfl, trivial⟩, rfl, rfl, trivial⟩
    ⟨⟨word ['x'], rfl⟩, fun h => absurd h (by decide), fun _ => ⟨hquiet, trivial⟩, trivial⟩

end Veron.MicroC
