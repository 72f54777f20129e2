/-
The conditions of `#if` come to a value: no reading of one loops or leaves the list.
-/
import Mathlib.Data.List.Infix
import Veron.MicroCDirective

namespace Veron.MicroC

open SelfAssembler (Byte ch text)

/-- A result with a property, or an exit with a diagnostic. -/
def Yields {α : Type} (P : α → Prop) : Except Fault α → Prop
  | .ok a => P a
  | .error e => ∃ message, e = .exit message

section Yields

variable {α β : Type} {P Q : α → Prop} {x : Except Fault α}

@[simp] theorem yields_ok (a : α) : Yields P (.ok a) ↔ P a := Iff.rfl

@[simp] theorem yields_exit (message : String) : Yields P (.error (.exit message)) :=
  ⟨message, rfl⟩

theorem Yields.mono (hx : Yields P x) (h : ∀ a, P a → Q a) : Yields Q x := by
  cases x with
  | error e => exact hx
  | ok a => exact h a hx

theorem Yields.bind {R : β → Prop} {f : α → Except Fault β} (hx : Yields P x)
    (hf : ∀ a, P a → Yields R (f a)) : Yields R (x >>= f) := by
  cases x with
  | error e => exact hx
  | ok a => exact hf a hx

theorem Yields.map {R : β → Prop} {f : α → β} (hx : Yields P x) (hf : ∀ a, P a → R (f a)) :
    Yields R (f <$> x) := by
  cases x with
  | error e => exact hx
  | ok a => exact hf a hx

theorem Yields.and_eq (hx : Yields P x) : Yields (fun a => x = .ok a ∧ P a) x := by
  cases x with
  | error e => exact hx
  | ok a => exact ⟨rfl, hx⟩

end Yields

/-- Some macro has parameters. -/
def FunctionLike (env : List Macro) : Prop := ∃ hold ∈ env, hold.arguments ≠ none

theorem functionLike_lookupMacro (env : List Macro) (t : Lexeme)
    (h : FunctionLike (lookupMacro env t).1) : FunctionLike env := by
  obtain ⟨hold, hmem, harguments⟩ := h
  unfold lookupMacro at hmem
  split_ifs at hmem
  · rcases List.mem_cons.mp hmem with rfl | hmem
    · exact absurd rfl harguments
    · exact ⟨hold, hmem, harguments⟩
  · rcases List.mem_cons.mp hmem with rfl | hmem
    · exact absurd rfl harguments
    · exact ⟨hold, hmem, harguments⟩
  · exact ⟨hold, hmem, harguments⟩

/-- What reading a part of a condition does to `macro_env` and to the tokens. -/
structure Reads (env : List Macro) (ts : List Lexeme) (v : Value) : Prop where
  functionLike : FunctionLike v.2.1 → FunctionLike env
  suffix : v.2.2 <:+ ts

namespace Reads

variable {env env' : List Macro} {ts ts' : List Lexeme} {t : Lexeme} {v w : Value}

theorem trans (h : Reads env ts v) (hw : Reads v.2.1 v.2.2 w) : Reads env ts w :=
  ⟨fun hf => h.functionLike (hw.functionLike hf), hw.suffix.trans h.suffix⟩

theorem value (h : Reads env ts v) (n : ℤ) : Reads env ts (n, v.2) :=
  ⟨h.functionLike, h.suffix⟩

theorem past (h : Reads env ts v) : Reads env (t :: ts) v :=
  ⟨h.functionLike, h.suffix.trans (List.suffix_cons t ts)⟩

theorem tail {m n : ℤ} (h : Reads env ts (m, env', t :: ts')) : Reads env ts (n, env', ts') :=
  ⟨h.functionLike, (List.suffix_cons t ts').trans h.suffix⟩

end Reads

section Primary

variable {env : List Macro} {t : Lexeme} {ts : List Lexeme}

theorem followMacro_yields (n : ℕ) (env : List Macro) (hold : Macro) :
    Yields (fun r => FunctionLike r.1 → FunctionLike env) (followMacro n env hold) := by
  induction n generalizing env hold with
  | zero =>
      unfold followMacro
      split
      · exact yields_exit _
      · rename_i t _ _
        have hlookup := functionLike_lookupMacro env t
        split
        · rename_i heq
          rw [heq] at hlookup
          exact hlookup
        · rename_i heq
          rw [heq] at hlookup
          split_ifs <;> exact hlookup
  | succ n ih =>
      unfold followMacro
      split
      · exact yields_exit _
      · rename_i t _ _
        have hlookup := functionLike_lookupMacro env t
        split
        · rename_i heq
          rw [heq] at hlookup
          exact hlookup
        · rename_i env' next heq
          rw [heq] at hlookup
          split_ifs
          · exact hlookup
          · exact (ih env' next).mono fun r hr hf => hlookup (hr hf)

theorem macroVariable_yields (int : IntType) :
    Yields (Reads env ts) (macroVariable int env t ts) := by
  have hlookup := functionLike_lookupMacro env t
  unfold macroVariable
  split
  · rename_i heq
    rw [heq] at hlookup
    exact ⟨hlookup, List.suffix_refl ts⟩
  · rename_i env' hold heq
    rw [heq] at hlookup
    apply (followMacro_yields 64 env' hold).bind
    intro r hr
    exact ⟨fun hf => hlookup (hr hf), List.suffix_refl ts⟩

theorem macroDefined_yields : Yields (Reads env ts) (macroDefined env ts) := by
  unfold macroDefined
  split
  · exact yields_exit _
  · rename_i t ts
    have hrest : (if at' t.s 0 = ch '(' then ts else t :: ts) <:+ t :: ts := by
      split_ifs
      · exact List.suffix_cons t ts
      · exact List.suffix_refl _
    simp only
    split
    · exact yields_exit _
    · rename_i name rest heq
      rw [heq] at hrest
      have hname := (List.suffix_cons name rest).trans hrest
      have hlookup := functionLike_lookupMacro env name
      generalize (if (lookupMacro env name).2.isSome = true then (1 : ℤ) else 0) = value
      split_ifs
      · cases rest with
        | nil => exact yields_exit _
        | cons close rest =>
            dsimp only
            split_ifs
            · exact ⟨hlookup, (List.suffix_cons close rest).trans hname⟩
            · exact yields_exit _
      · exact ⟨hlookup, hname⟩

end Primary

/-- A level of the grammar of conditions, with fuel for tokens and for the levels below it. -/
def Level (below : ℕ) (more : Prop)
    (read : ℕ → List Macro → List Lexeme → Except Fault Value) (fuel : ℕ) : Prop :=
  ∀ env ts, 4 * ts.length + below < fuel →
    Yields (fun v => Reads env ts v ∧ (more → v.2.2 ≠ [])) (read fuel env ts)

section Levels

variable {int : IntType} {fuel : ℕ}

theorem Level.weaken {below : ℕ} {read : ℕ → List Macro → List Lexeme → Except Fault Value}
    (h : Level below True read fuel) (env : List Macro) (ts : List Lexeme)
    (hfuel : 4 * ts.length + below < fuel) :
    Yields (fun v => Reads env ts v ∧ v.2.2 ≠ []) (read fuel env ts) :=
  (h env ts hfuel).mono fun _ hv => ⟨hv.1, hv.2 trivial⟩

theorem macroPrimaryExpr_level (hprimary : Level 0 False (macroPrimaryExpr int) fuel)
    (hbitwise : Level 3 True (macroBitwiseExpr int) fuel) :
    Level 0 False (macroPrimaryExpr int) (fuel + 1) := by
  intro env ts hfuel
  have hdone {v : Value} (h : Reads env ts v) :
      Reads env ts v ∧ (False → v.2.2 ≠ []) := ⟨h, False.elim⟩
  cases ts with
  | nil => exact yields_exit _
  | cons t ts =>
      rw [List.length_cons] at hfuel
      unfold macroPrimaryExpr
      split_ifs
      · apply (hprimary env ts (by omega)).bind
        intro v hv
        exact hdone (hv.1.past.value _)
      · apply (hprimary env ts (by omega)).bind
        intro v hv
        exact hdone (hv.1.past.value _)
      · apply (hbitwise.weaken env ts (by omega)).bind
        rintro ⟨v, env', rest⟩ ⟨hv, hmore⟩
        cases rest with
        | nil => exact absurd rfl hmore
        | cons close rest =>
            dsimp only
            split_ifs
            · exact hdone (hv.tail (n := v)).past
            · exact yields_exit _
      · exact macroDefined_yields.mono fun v hv => hdone hv.past
      · exact (macroVariable_yields int).mono fun v hv => hdone hv.past
      · exact hdone ⟨id, List.suffix_cons t ts⟩
      · exact hdone ⟨id, List.suffix_refl _⟩

/-- The right operand of an operator, and what is made of it. -/
theorem Level.operand {below : ℕ} {read : ℕ → List Macro → List Lexeme → Except Fault Value}
    {env env' : List Macro} {ts rest : List Lexeme} {op : Lexeme} {lhs : ℤ}
    {f : Value → Except Fault Value} (h : Level below True read fuel)
    (hlhs : Reads env ts (lhs, env', op :: rest)) (hfuel : 4 * ts.length + below < fuel + 1)
    (hf : ∀ v, Reads env ts v ∧ (True → v.2.2 ≠ []) →
      Yields (fun w => Reads env ts w ∧ (True → w.2.2 ≠ [])) (f v)) :
    Yields (fun w => Reads env ts w ∧ (True → w.2.2 ≠ [])) (read fuel env' rest >>= f) := by
  have hlen := hlhs.suffix.length_le
  rw [List.length_cons] at hlen
  apply (h env' rest (by omega)).bind
  intro v hv
  exact hf v ⟨(hlhs.tail (n := lhs)).trans hv.1, hv.2⟩

theorem macroAdditiveExpr_level (hprimary : Level 0 False (macroPrimaryExpr int) fuel)
    (hadditive : Level 1 True (macroAdditiveExpr int) fuel) :
    Level 1 True (macroAdditiveExpr int) (fuel + 1) := by
  intro env ts hfuel
  unfold macroAdditiveExpr
  apply (hprimary env ts (by omega)).bind
  rintro ⟨lhs, env', rest⟩ ⟨hlhs, -⟩
  cases rest with
  | nil => exact yields_exit _
  | cons op rest =>
      dsimp only
      split_ifs
      · exact hadditive.operand hlhs hfuel fun v hv => ⟨hv.1.value _, hv.2⟩
      · apply hadditive.operand hlhs hfuel
        intro v hv
        split_ifs
        · exact yields_exit _
        · exact ⟨hv.1.value _, hv.2⟩
      · apply hadditive.operand hlhs hfuel
        intro v hv
        split_ifs
        · exact yields_exit _
        · exact ⟨hv.1.value _, hv.2⟩
      · exact ⟨hlhs, fun _ => List.cons_ne_nil op rest⟩

theorem macroRelationalExpr_level (hadditive : Level 1 True (macroAdditiveExpr int) fuel)
    (hrelational : Level 2 True (macroRelationalExpr int) fuel) :
    Level 2 True (macroRelationalExpr int) (fuel + 1) := by
  intro env ts hfuel
  unfold macroRelationalExpr
  apply (hadditive.weaken env ts (by omega)).bind
  rintro ⟨lhs, env', rest⟩ ⟨hlhs, hmore⟩
  cases rest with
  | nil => exact absurd rfl hmore
  | cons op rest =>
      dsimp only
      split_ifs
      · exact hrelational.operand hlhs hfuel fun v hv => ⟨hv.1.value _, hv.2⟩
      · exact ⟨hlhs, fun _ => List.cons_ne_nil op rest⟩

theorem macroBitwiseExpr_level (hrelational : Level 2 True (macroRelationalExpr int) fuel)
    (hbitwise : Level 3 True (macroBitwiseExpr int) fuel) :
    Level 3 True (macroBitwiseExpr int) (fuel + 1) := by
  intro env ts hfuel
  unfold macroBitwiseExpr
  apply (hrelational.weaken env ts (by omega)).bind
  rintro ⟨lhs, env', rest⟩ ⟨hlhs, hmore⟩
  cases rest with
  | nil => exact absurd rfl hmore
  | cons op rest =>
      dsimp only
      split_ifs
      · exact hbitwise.operand hlhs hfuel fun v hv => ⟨hv.1.value _, hv.2⟩
      · exact hbitwise.operand hlhs hfuel fun v hv => ⟨hv.1.value _, hv.2⟩
      · exact hbitwise.operand hlhs hfuel fun v hv => ⟨hv.1.value _, hv.2⟩
      · exact ⟨hlhs, fun _ => List.cons_ne_nil op rest⟩

/-- Every level of the grammar, one inside the other. -/
theorem levels (int : IntType) (fuel : ℕ) :
    Level 0 False (macroPrimaryExpr int) fuel ∧ Level 1 True (macroAdditiveExpr int) fuel ∧
      Level 2 True (macroRelationalExpr int) fuel ∧ Level 3 True (macroBitwiseExpr int) fuel := by
  induction fuel with
  | zero =>
      have hnone {below more read} : Level below more read 0 :=
        fun _ _ hfuel => absurd hfuel (Nat.not_lt_zero _)
      exact ⟨hnone, hnone, hnone, hnone⟩
  | succ fuel ih =>
      obtain ⟨hprimary, hadditive, hrelational, hbitwise⟩ := ih
      exact ⟨macroPrimaryExpr_level hprimary hbitwise,
        macroAdditiveExpr_level hprimary hadditive,
        macroRelationalExpr_level hadditive hrelational,
        macroBitwiseExpr_level hrelational hbitwise⟩

end Levels

theorem macroExpression_yields (int : IntType) (env : List Macro) (ts : List Lexeme) :
    Yields (fun v => Reads env ts v ∧ v.2.2 ≠ []) (macroExpression int env ts) :=
  (levels int (4 * ts.length + 4)).2.2.2.weaken env ts (by omega)

end Veron.MicroC
