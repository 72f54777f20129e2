/-
What the lookups of `__LINE__` and `__FILE__` leave in `macro_env` makes no difference to a
condition.
-/
import Veron.MicroCCondition

namespace Veron.MicroC

open SelfAssembler (Byte ch text)

/-- The macros that no lookup has put there. -/
def defined (env : List Macro) : List Macro :=
  env.filter fun hold => hold.symbol ≠ lineName ∧ hold.symbol ≠ fileName

/-- Two outcomes that differ by no more than `R`. -/
def Alike {α : Type} (R : α → α → Prop) : Except Fault α → Except Fault α → Prop
  | .ok a, .ok b => R a b
  | .error e, .error f => e = f
  | _, _ => False

section Alike

variable {α β : Type} {R : α → α → Prop} {x y : Except Fault α}

theorem Alike.bind {S : β → β → Prop} {f g : α → Except Fault β} (hxy : Alike R x y)
    (hfg : ∀ a b, R a b → Alike S (f a) (g b)) : Alike S (x >>= f) (y >>= g) := by
  cases x with
  | error e =>
      cases y with
      | error e' => exact hxy
      | ok b => exact hxy.elim
  | ok a =>
      cases y with
      | error e' => exact hxy.elim
      | ok b => exact hfg a b hxy

theorem Alike.of_ok {a : α} (hxy : Alike R x y) (hx : x = .ok a) : ∃ b, y = .ok b ∧ R a b := by
  subst hx
  cases y with
  | error e => exact hxy.elim
  | ok b => exact ⟨b, rfl, hxy⟩

@[simp] theorem alike_error (e : Fault) : Alike R (.error e) (.error e) := rfl

end Alike

variable {macros : List Macro} {env env' : List Macro} {t : Lexeme} {ts : List Lexeme}

theorem defined_lookupMacro (env : List Macro) (t : Lexeme) :
    defined (lookupMacro env t).1 = defined env := by
  unfold lookupMacro
  split_ifs <;> simp [defined, createReplacementToken]

theorem find_defined (hline : t.s ≠ lineName) (hfile : t.s ≠ fileName) :
    (defined env).find? (fun hold => hold.symbol = t.s) =
      env.find? fun hold => hold.symbol = t.s := by
  rw [defined, List.find?_filter]
  congr 1
  funext hold
  by_cases h : hold.symbol = t.s
  · simp [h, hline, hfile]
  · simp [h]

theorem lookupMacro_congr (h : defined env = defined env') :
    (lookupMacro env t).2 = (lookupMacro env' t).2 := by
  unfold lookupMacro
  split_ifs with hline hfile
  · rfl
  · rfl
  · rw [← find_defined hline hfile, h, find_defined hline hfile]

/-- Both lists give the same macro, and are left with the same macros. -/
theorem lookupMacro_both (t : Lexeme) (henv : defined env = macros)
    (henv' : defined env' = macros) :
    ∃ e e' found, lookupMacro env t = (e, found) ∧ lookupMacro env' t = (e', found) ∧
      defined e = macros ∧ defined e' = macros := by
  refine ⟨(lookupMacro env t).1, (lookupMacro env' t).1, (lookupMacro env t).2, rfl, ?_,
    (defined_lookupMacro env t).trans henv, (defined_lookupMacro env' t).trans henv'⟩
  rw [lookupMacro_congr (henv.trans henv'.symm)]

/-- Two readings with the same value that stop at the same place; the macros are still
`macros`. -/
structure SameValue (macros : List Macro) (v w : Value) : Prop where
  value : v.1 = w.1
  rest : v.2.2 = w.2.2
  left : defined v.2.1 = macros
  right : defined w.2.1 = macros

/-- A reading that does not see the difference between two lists with these macros. -/
def Steady (macros : List Macro) (read : List Macro → Except Fault Value) : Prop :=
  ∀ env env', defined env = macros → defined env' = macros →
    Alike (SameValue macros) (read env) (read env')

theorem followMacro_steady (n : ℕ) (hold : Macro) (henv : defined env = macros)
    (henv' : defined env' = macros) :
    Alike (fun r s => r.2 = s.2 ∧ defined r.1 = macros ∧ defined s.1 = macros)
      (followMacro n env hold) (followMacro n env' hold) := by
  induction n generalizing env env' hold with
  | zero =>
      unfold followMacro
      split
      · rfl
      · rename_i t _ _
        obtain ⟨e, e', found, hleft, hright, he, he'⟩ := lookupMacro_both t henv henv'
        rw [hleft, hright]
        cases found with
        | none => exact ⟨rfl, he, he'⟩
        | some next =>
            dsimp only
            split_ifs <;> exact ⟨rfl, he, he'⟩
  | succ n ih =>
      unfold followMacro
      split
      · rfl
      · rename_i t _ _
        obtain ⟨e, e', found, hleft, hright, he, he'⟩ := lookupMacro_both t henv henv'
        rw [hleft, hright]
        cases found with
        | none => exact ⟨rfl, he, he'⟩
        | some next =>
            dsimp only
            split_ifs
            · exact ⟨rfl, he, he'⟩
            · exact ih next he he'

theorem macroVariable_steady (int : IntType) (t : Lexeme) (ts : List Lexeme) :
    Steady macros fun env => macroVariable int env t ts := by
  intro env env' henv henv'
  obtain ⟨e, e', found, hleft, hright, he, he'⟩ := lookupMacro_both t henv henv'
  dsimp only [macroVariable]
  rw [hleft, hright]
  cases found with
  | none => exact ⟨rfl, rfl, he, he'⟩
  | some hold =>
      apply (followMacro_steady 64 hold he he').bind
      rintro ⟨r, s⟩ ⟨r', s'⟩ ⟨hs, hr, hr'⟩
      cases hs
      exact ⟨rfl, rfl, hr, hr'⟩

theorem macroDefined_steady (ts : List Lexeme) :
    Steady macros fun env => macroDefined env ts := by
  intro env env' henv henv'
  unfold macroDefined
  cases ts with
  | nil => rfl
  | cons t ts =>
      dsimp only
      cases (if at' t.s 0 = ch '(' then ts else t :: ts) with
      | nil => rfl
      | cons name rest =>
          obtain ⟨e, e', found, hleft, hright, he, he'⟩ := lookupMacro_both name henv henv'
          dsimp only
          rw [hleft, hright]
          dsimp only
          split_ifs
          all_goals
            first
            | exact ⟨rfl, rfl, he, he'⟩
            | cases rest with
              | nil => rfl
              | cons close rest =>
                  dsimp only
                  split_ifs
                  · exact ⟨rfl, rfl, he, he'⟩
                  · rfl

/-- A level of the grammar of conditions. -/
def SteadyLevel (macros : List Macro)
    (read : ℕ → List Macro → List Lexeme → Except Fault Value) (fuel : ℕ) : Prop :=
  ∀ ts, Steady macros fun env => read fuel env ts

section Levels

variable {int : IntType} {fuel : ℕ}

theorem SteadyLevel.bind {read : ℕ → List Macro → List Lexeme → Except Fault Value}
    {f : Value → Except Fault Value} (h : SteadyLevel macros read fuel)
    (henv : defined env = macros) (henv' : defined env' = macros)
    (hf : ∀ n rest, Steady macros fun env => f (n, env, rest)) :
    Alike (SameValue macros) (read fuel env ts >>= f) (read fuel env' ts >>= f) := by
  apply (h ts env env' henv henv').bind
  rintro ⟨n, e, rest⟩ ⟨n', e', rest'⟩ ⟨hn, hrest, he, he'⟩
  cases hn
  cases hrest
  exact hf n rest e e' he he'

theorem steady_ok (n : ℤ) (ts : List Lexeme) : Steady macros fun env => .ok (n, env, ts) :=
  fun _ _ henv henv' => ⟨rfl, rfl, henv, henv'⟩

theorem steady_error (e : Fault) : Steady macros fun _ => .error e := fun _ _ _ _ => rfl

theorem macroPrimaryExpr_steady (hprimary : SteadyLevel macros (macroPrimaryExpr int) fuel)
    (hbitwise : SteadyLevel macros (macroBitwiseExpr int) fuel) :
    SteadyLevel macros (macroPrimaryExpr int) (fuel + 1) := by
  intro ts env env' henv henv'
  cases ts with
  | nil => rfl
  | cons t ts =>
      dsimp only
      unfold macroPrimaryExpr
      split_ifs
      · exact hprimary.bind henv henv' fun n rest => steady_ok _ rest
      · exact hprimary.bind henv henv' fun n rest => steady_ok _ rest
      · apply hbitwise.bind henv henv'
        intro n rest
        cases rest with
        | nil => exact steady_error _
        | cons close rest =>
            dsimp only
            split_ifs
            · exact steady_ok n rest
            · exact steady_error _
      · exact macroDefined_steady ts env env' henv henv'
      · exact macroVariable_steady int t ts env env' henv henv'
      · exact steady_ok _ ts env env' henv henv'
      · exact steady_ok _ _ env env' henv henv'

theorem macroAdditiveExpr_steady (hprimary : SteadyLevel macros (macroPrimaryExpr int) fuel)
    (hadditive : SteadyLevel macros (macroAdditiveExpr int) fuel) :
    SteadyLevel macros (macroAdditiveExpr int) (fuel + 1) := by
  intro ts env env' henv henv'
  dsimp only
  unfold macroAdditiveExpr
  apply hprimary.bind henv henv'
  intro lhs rest env env' henv henv'
  cases rest with
  | nil => rfl
  | cons op rest =>
      dsimp only
      split_ifs
      · exact hadditive.bind henv henv' fun _ _ _ _ he he' => ⟨rfl, rfl, he, he'⟩
      · apply hadditive.bind henv henv'
        intro n rest
        dsimp only
        split_ifs
        · exact steady_error _
        · exact steady_ok _ rest
      · apply hadditive.bind henv henv'
        intro n rest
        dsimp only
        split_ifs
        · exact steady_error _
        · exact steady_ok _ rest
      · exact ⟨rfl, rfl, henv, henv'⟩

theorem macroRelationalExpr_steady (hadditive : SteadyLevel macros (macroAdditiveExpr int) fuel)
    (hrelational : SteadyLevel macros (macroRelationalExpr int) fuel) :
    SteadyLevel macros (macroRelationalExpr int) (fuel + 1) := by
  intro ts env env' henv henv'
  dsimp only
  unfold macroRelationalExpr
  apply hadditive.bind henv henv'
  intro lhs rest env env' henv henv'
  cases rest with
  | nil => rfl
  | cons op rest =>
      dsimp only
      split_ifs
      · exact hrelational.bind henv henv' fun _ _ _ _ he he' => ⟨rfl, rfl, he, he'⟩
      · exact ⟨rfl, rfl, henv, henv'⟩

theorem macroBitwiseExpr_steady
    (hrelational : SteadyLevel macros (macroRelationalExpr int) fuel)
    (hbitwise : SteadyLevel macros (macroBitwiseExpr int) fuel) :
    SteadyLevel macros (macroBitwiseExpr int) (fuel + 1) := by
  intro ts env env' henv henv'
  dsimp only
  unfold macroBitwiseExpr
  apply hrelational.bind henv henv'
  intro lhs rest env env' henv henv'
  cases rest with
  | nil => rfl
  | cons op rest =>
      dsimp only
      split_ifs
      · exact hbitwise.bind henv henv' fun _ _ _ _ he he' => ⟨rfl, rfl, he, he'⟩
      · exact hbitwise.bind henv henv' fun _ _ _ _ he he' => ⟨rfl, rfl, he, he'⟩
      · exact hbitwise.bind henv henv' fun _ _ _ _ he he' => ⟨rfl, rfl, he, he'⟩
      · exact ⟨rfl, rfl, henv, henv'⟩

theorem steady_levels (macros : List Macro) (int : IntType) (fuel : ℕ) :
    SteadyLevel macros (macroPrimaryExpr int) fuel ∧
      SteadyLevel macros (macroAdditiveExpr int) fuel ∧
      SteadyLevel macros (macroRelationalExpr int) fuel ∧
      SteadyLevel macros (macroBitwiseExpr int) fuel := by
  induction fuel with
  | zero =>
      exact ⟨fun _ _ _ _ _ => rfl, fun _ _ _ _ _ => rfl, fun _ _ _ _ _ => rfl,
        fun _ _ _ _ _ => rfl⟩
  | succ fuel ih =>
      obtain ⟨hprimary, hadditive, hrelational, hbitwise⟩ := ih
      exact ⟨macroPrimaryExpr_steady hprimary hbitwise,
        macroAdditiveExpr_steady hprimary hadditive,
        macroRelationalExpr_steady hadditive hrelational,
        macroBitwiseExpr_steady hrelational hbitwise⟩

end Levels

/-- A condition read with other lookups behind it comes to the same value at the same place. -/
theorem macroExpression_steady {int : IntType} {v : Value} (henv : defined env' = defined env)
    (h : macroExpression int env ts = .ok v) :
    ∃ e, macroExpression int env' ts = .ok (v.1, e, v.2.2) ∧ defined e = defined env := by
  have hboth := (steady_levels (defined env) int (4 * ts.length + 4)).2.2.2 ts env env' rfl henv
  obtain ⟨⟨n, e, rest⟩, hok, hn, hrest, -, he⟩ := hboth.of_ok h
  rw [hn, hrest]
  exact ⟨e, hok, he⟩

end Veron.MicroC
