/-
Conditional groups in micro-c.  Of a text with `#if`, `#elif` and `#else` nested to any depth
`preprocess` leaves the groups that C selects.
-/
import Veron.Loop
import Veron.MicroCLookups

namespace Veron.MicroC

open SelfAssembler (Byte ch text)

mutual

/-- Lines, and conditionals among them; each line has its newline. -/
inductive Group where
  | nil
  | line (text : List Lexeme) (newline : Lexeme) (rest : Group)
  | conditional (opening : Lexeme) (condition : List Lexeme) (newline : Lexeme) (body : Group)
      (more : Branches) (closing newline' : Lexeme) (rest : Group)

/-- What comes between the first group of a conditional and its `#endif`. -/
inductive Branches where
  | nil
  | otherwise (directive newline : Lexeme) (body : Group)
  | elif (directive : Lexeme) (condition : List Lexeme) (newline : Lexeme) (body : Group)
      (more : Branches)

end

mutual

def Group.tokens : Group → List Lexeme
  | .nil => []
  | .line text newline rest => text ++ newline :: rest.tokens
  | .conditional opening condition newline body more closing newline' rest =>
      opening :: (condition ++
        newline :: (body.tokens ++ (more.tokens ++ closing :: newline' :: rest.tokens)))

def Branches.tokens : Branches → List Lexeme
  | .nil => []
  | .otherwise directive newline body => directive :: newline :: body.tokens
  | .elif directive condition newline body more =>
      directive :: (condition ++ newline :: (body.tokens ++ more.tokens))

end

mutual

/-- The text that C selects: of each conditional the first group whose condition holds, else
that of `#else`. -/
def Group.selected (holds : Lexeme → List Lexeme → Bool) : Group → List Lexeme
  | .nil => []
  | .line text _ rest => text ++ rest.selected holds
  | .conditional opening condition _ body more _ _ rest =>
      (if holds opening condition then body.selected holds else more.selected holds) ++
        rest.selected holds

def Branches.selected (holds : Lexeme → List Lexeme → Bool) : Branches → List Lexeme
  | .nil => []
  | .otherwise _ _ body => body.selected holds
  | .elif directive condition _ body more =>
      if holds directive condition then body.selected holds else more.selected holds

end

def groupNames : List Token := ifNames ++ [elifName, elseName, endifName]

/-- A token of a line that belongs to no conditional. -/
structure Ordinary (t : Lexeme) : Prop where
  notNewline : isNewline t = false
  notGroup : t.s ∉ groupNames

/-- A line of tokens that is no directive. -/
structure IsText (line : List Lexeme) : Prop where
  ordinary : ∀ t ∈ line, Ordinary t
  noDirective : ∀ t ∈ line.head?, at' t.s 0 ≠ ch '#'

mutual

/-- The directives are where they stand, and nowhere else. -/
def Group.Nested : Group → Prop
  | .nil => True
  | .line text newline rest => IsText text ∧ newline.s = newlineText ∧ rest.Nested
  | .conditional opening condition newline body more closing newline' rest =>
      opening.s ∈ ifNames ∧ (∀ t ∈ condition, Ordinary t) ∧ newline.s = newlineText ∧
        body.Nested ∧ more.Nested ∧ closing.s = endifName ∧ newline'.s = newlineText ∧ rest.Nested

def Branches.Nested : Branches → Prop
  | .nil => True
  | .otherwise directive newline body =>
      directive.s = elseName ∧ newline.s = newlineText ∧ body.Nested
  | .elif directive condition newline body more =>
      directive.s = elifName ∧ (∀ t ∈ condition, Ordinary t) ∧ newline.s = newlineText ∧
        body.Nested ∧ more.Nested

end

def ifdefName : Token := text ['#', 'i', 'f', 'd', 'e', 'f']

def ifndefName : Token := text ['#', 'i', 'f', 'n', 'd', 'e', 'f']

def isDefined (env : List Macro) : List Lexeme → Bool
  | [] => false
  | name :: _ => (lookupMacro env name).2.isSome

/-- What ends the line of a condition. -/
def endOfLine : Lexeme := ⟨newlineText, [], 0, false⟩

/-- Whether the value of an expression is not zero. -/
def isTrue (int : IntType) (env : List Macro) (condition : List Lexeme) : Bool :=
  match macroExpression int env (condition ++ [endOfLine]) with
  | .ok (v, _, _) => v ≠ 0
  | .error _ => false

/-- Whether the condition of a directive holds. -/
def holds (int : IntType) (env : List Macro) (directive : Lexeme) (condition : List Lexeme) :
    Bool :=
  if directive.s = ifdefName then isDefined env condition
  else if directive.s = ifndefName then !isDefined env condition
  else isTrue int env condition

/-- The expression has a value, and nothing but the expression is on the line. -/
def Evaluates (int : IntType) (env : List Macro) (condition : List Lexeme) : Prop :=
  ∃ v, ∀ newline rest, newline.s = newlineText →
    ∃ e, macroExpression int env (condition ++ newline :: rest) = .ok (v, e, newline :: rest)

/-- The condition of a directive has a value. -/
def Readable (int : IntType) (env : List Macro) (directive : Lexeme) (condition : List Lexeme) :
    Prop :=
  if directive.s = ifdefName ∨ directive.s = ifndefName then ∃ name, condition = [name]
  else Evaluates int env condition

/-- No token of a line invokes a macro; for one with parameters a parenthesis is missing. -/
def Quiet (env : List Macro) : List Lexeme → Prop
  | [] => True
  | t :: ts =>
      (t.noExpand = false → ∀ hold, (lookupMacro env t).2 = some hold →
        hold.arguments ≠ none ∧ ∀ next ∈ ts.head?, at' next.s 0 ≠ ch '(') ∧ Quiet env ts

mutual

/-- The conditions that are read have values, and in the groups that are selected no macro is
invoked. -/
def Group.Ready (int : IntType) (env : List Macro) : Group → Prop
  | .nil => True
  | .line text _ rest => Quiet env text ∧ rest.Ready int env
  | .conditional opening condition _ body more _ _ rest =>
      Readable int env opening condition ∧
        (holds int env opening condition = true → body.Ready int env) ∧
        more.Ready int env (holds int env opening condition) ∧ rest.Ready int env

def Branches.Ready (int : IntType) (env : List Macro) (matched : Bool) : Branches → Prop
  | .nil => True
  | .otherwise _ _ body => matched = false → body.Ready int env
  | .elif directive condition _ body more =>
      Readable int env directive condition ∧
        (matched = false → holds int env directive condition = true → body.Ready int env) ∧
        more.Ready int env (matched || holds int env directive condition)

end

theorem Quiet.congr {env env' : List Macro} {text : List Lexeme} (h : Quiet env text)
    (henv : defined env' = defined env) : Quiet env' text := by
  induction text with
  | nil => trivial
  | cons t ts ih =>
      obtain ⟨hfirst, hothers⟩ := h
      refine ⟨?_, ih hothers⟩
      rw [lookupMacro_congr henv]
      exact hfirst

/-- The value of an expression, whatever lookups there were before. -/
theorem Evaluates.reads {int : IntType} {env env' : List Macro} {condition rest : List Lexeme}
    {newline : Lexeme} (h : Evaluates int env condition) (henv : defined env' = defined env)
    (hnewline : newline.s = newlineText) :
    ∃ v e, macroExpression int env' (condition ++ newline :: rest) = .ok (v, e, newline :: rest) ∧
      defined e = defined env ∧ isTrue int env condition = decide (v ≠ 0) := by
  obtain ⟨v, hvalue⟩ := h
  obtain ⟨_, hline⟩ := hvalue newline rest hnewline
  obtain ⟨e, hline', he⟩ := macroExpression_steady henv hline
  obtain ⟨_, hend⟩ := hvalue endOfLine [] rfl
  refine ⟨v, e, hline', he, ?_⟩
  rw [isTrue, hend]

section Skip

variable {n : ℕ} {compared : Bool} {t newline : Lexeme} {l rest : List Lexeme}

theorem eatUntilEndif_ordinary (h : t.s ∉ groupNames) :
    eatUntilEndif n compared (t :: l) = eatUntilEndif n true l := by
  obtain ⟨hif, hends⟩ := not_or.mp (List.mem_append.not.mp h)
  rw [eatUntilEndif, if_neg fun h => hends h.2.2, if_neg, if_neg hif]
  rintro ⟨-, -, hendif⟩
  exact hends (by simp [hendif])

theorem newline_ordinary (h : newline.s = newlineText) : newline.s ∉ groupNames := by
  rw [h]
  decide

theorem eatUntilEndif_append (h : ∀ t ∈ l, Ordinary t) :
    eatUntilEndif n true (l ++ rest) = eatUntilEndif n true rest := by
  induction l with
  | nil => rfl
  | cons t l ih =>
      rw [List.cons_append, eatUntilEndif_ordinary (h t List.mem_cons_self).notGroup]
      exact ih fun u hu => h u (List.mem_cons_of_mem t hu)

/-- The first token of a line is not a directive, so it does not matter whether it is compared. -/
theorem eatUntilEndif_line (h : ∀ t ∈ l, Ordinary t) (hnewline : newline.s = newlineText) :
    eatUntilEndif n compared (l ++ newline :: rest) = eatUntilEndif n true rest := by
  cases l with
  | nil => exact eatUntilEndif_ordinary (newline_ordinary hnewline)
  | cons t l =>
      rw [List.cons_append, eatUntilEndif_ordinary (h t List.mem_cons_self).notGroup,
        eatUntilEndif_append fun u hu => h u (List.mem_cons_of_mem t hu),
        eatUntilEndif_ordinary (newline_ordinary hnewline)]

theorem eatUntilEndif_opening (h : t.s ∈ ifNames) :
    eatUntilEndif n true (t :: l) = eatUntilEndif (n + 1) false l := by
  have hends : ∀ s ∈ ifNames, s ∉ [elifName, elseName, endifName] ∧ s ≠ endifName := by decide
  obtain ⟨hmem, hendif⟩ := hends t.s h
  rw [eatUntilEndif, if_neg fun h => hmem h.2.2, if_neg fun h => hendif h.2.2, if_pos h]

/-- Inside a conditional that is skipped its other directives mean nothing. -/
theorem eatUntilEndif_other (h : t.s = elifName ∨ t.s = elseName) :
    eatUntilEndif (n + 1) true (t :: l) = eatUntilEndif (n + 1) true l := by
  rw [eatUntilEndif, if_neg fun h => absurd h.2.1 (Nat.succ_ne_zero n), if_neg, if_neg]
  · rcases h with h | h <;> rw [h] <;> decide
  · rintro ⟨-, -, hendif⟩
    rw [hendif] at h
    exact absurd h (by decide)

theorem eatUntilEndif_closing (h : t.s = endifName) :
    eatUntilEndif (n + 1) true (t :: l) = eatUntilEndif n true l := by
  rw [eatUntilEndif, if_neg fun h => absurd h.2.1 (Nat.succ_ne_zero n),
    if_pos ⟨rfl, Nat.succ_ne_zero n, h⟩, Nat.add_sub_cancel]

mutual

theorem Group.skip (g : Group) (h : g.Nested) (n : ℕ) (rest : List Lexeme) :
    eatUntilEndif n true (g.tokens ++ rest) = eatUntilEndif n true rest := by
  cases g with
  | nil => rfl
  | line text newline more =>
      obtain ⟨htext, hnewline, hmore⟩ := h
      rw [Group.tokens, List.append_assoc, List.cons_append,
        eatUntilEndif_line htext.ordinary hnewline]
      exact more.skip hmore n rest
  | conditional opening condition newline body more closing newline' after =>
      obtain ⟨hopening, hcondition, hnewline, hbody, hmore, hclosing, hnewline', hafter⟩ := h
      simp only [Group.tokens, List.cons_append, List.append_assoc]
      rw [eatUntilEndif_opening hopening, eatUntilEndif_line hcondition hnewline,
        body.skip hbody, more.skip hmore, eatUntilEndif_closing hclosing,
        eatUntilEndif_ordinary (newline_ordinary hnewline')]
      exact after.skip hafter n rest

theorem Branches.skip (b : Branches) (h : b.Nested) (n : ℕ) (rest : List Lexeme) :
    eatUntilEndif (n + 1) true (b.tokens ++ rest) = eatUntilEndif (n + 1) true rest := by
  cases b with
  | nil => rfl
  | otherwise directive newline body =>
      obtain ⟨hdirective, hnewline, hbody⟩ := h
      simp only [Branches.tokens, List.cons_append]
      rw [eatUntilEndif_other (.inr hdirective),
        eatUntilEndif_ordinary (newline_ordinary hnewline)]
      exact body.skip hbody (n + 1) rest
  | elif directive condition newline body more =>
      obtain ⟨hdirective, hcondition, hnewline, hbody, hmore⟩ := h
      simp only [Branches.tokens, List.cons_append, List.append_assoc]
      rw [eatUntilEndif_other (.inl hdirective), eatUntilEndif_line hcondition hnewline,
        body.skip hbody]
      exact more.skip hmore n rest

end

end Skip

end Veron.MicroC
