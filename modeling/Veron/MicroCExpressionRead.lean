/-
What `macro_expression` of micro-c reads: the operators of each rank grouped to the right.
-/
import Veron.MicroCExpression

namespace Veron.MicroC

open SelfAssembler (Byte ch text)

variable {env env' : List Macro} {e l r x : Expr} {o p : BinOp} {t u : Lexeme}
  {rest : List Lexeme}

attribute [local simp] Expr.attach Expr.tokens

theorem BinOp.rank_eq (o : BinOp) :
    o.rank = if 8 ≤ o.level then 2 else if 6 ≤ o.level then 1 else 0 := by
  cases o <;> rfl

theorem BinOp.level_le (o : BinOp) : o.level ≤ 10 := by
  cases o <;> decide

namespace Expr

theorem rank_mono (h : o.level ≤ e.level) : o.rank ≤ e.rank := by
  cases e with
  | binary p u l r =>
      change o.level ≤ p.level at h
      change o.rank ≤ p.rank
      rw [o.rank_eq, p.rank_eq]
      split_ifs <;> omega
  | _ =>
      change o.rank ≤ 3
      rw [o.rank_eq]
      split_ifs <;> omega

theorem rank_of_level (h : e.level = 11) : e.rank = 3 := by
  cases e with
  | binary p u l r =>
      have hle := p.level_le
      change p.level = 11 at h
      omega
  | _ => rfl

theorem attach_tokens (e : Expr) (o : BinOp) (t : Lexeme) (x : Expr) :
    (e.attach o t x).tokens = e.tokens ++ t :: x.tokens := by
  induction e with
  | binary p u l r _ ih =>
      unfold attach
      split_ifs
      · rw [tokens, ih, tokens, List.append_assoc, List.cons_append]
      · rfl
  | _ => rfl

/-- Grouping moves no token. -/
theorem grouped_tokens (e : Expr) : e.grouped.tokens = e.tokens := by
  induction e with
  | paren opening e closing ih => rw [grouped, tokens, ih, tokens]
  | neg t e ih => rw [grouped, tokens, ih, tokens]
  | not t e ih => rw [grouped, tokens, ih, tokens]
  | binary o t l r ihl ihr => rw [grouped, attach_tokens, ihl, ihr, tokens]
  | _ => rfl

theorem attach_rank (e : Expr) (o : BinOp) (t : Lexeme) (x : Expr) :
    (e.attach o t x).rank = o.rank := by
  cases e with
  | binary p u l r =>
      unfold attach
      split_ifs with h
      · exact h
      · rfl
  | _ => rfl

theorem grouped_rank (e : Expr) : e.grouped.rank = e.rank := by
  cases e with
  | binary o t l r => exact attach_rank _ o t _
  | _ => rfl

/-- The grammar of micro-c: operators of one rank group to the right. -/
def RightGrouped : Expr → Prop
  | paren opening e closing =>
      opening.s = text ['('] ∧ e.RightGrouped ∧ closing.s = text [')']
  | neg t e => t.s = text ['-'] ∧ e.RightGrouped ∧ e.rank = 3
  | not t e => t.s = text ['!'] ∧ e.RightGrouped ∧ e.rank = 3
  | binary o t l r =>
      t.s = o.spelling ∧ l.RightGrouped ∧ r.RightGrouped ∧ o.rank < l.rank ∧ o.rank ≤ r.rank
  | e => e.Grammatical

theorem attach_rightGrouped (he : e.RightGrouped) (hx : x.RightGrouped) (ht : t.s = o.spelling)
    (hleft : o.rank ≤ e.rank) (hright : o.rank ≤ x.rank) : (e.attach o t x).RightGrouped := by
  induction e with
  | binary p u l r _ ih =>
      unfold attach
      obtain ⟨hu, hl, hr, hpl, hpr⟩ := he
      split_ifs with h
      · refine ⟨hu, hl, ih hr (h ▸ hpr), hpl, ?_⟩
        rw [attach_rank, h]
      · exact ⟨ht, ⟨hu, hl, hr, hpl, hpr⟩, hx, lt_of_le_of_ne hleft (Ne.symm h), hright⟩
  | _ =>
      refine ⟨ht, he, hx, ?_, hright⟩
      change o.rank < 3
      rw [o.rank_eq]
      split_ifs <;> omega

/-- The tokens of an expression of C are those of one that micro-c reads. -/
theorem grouped_rightGrouped (h : e.Grammatical) : e.grouped.RightGrouped := by
  induction e with
  | paren opening e closing ih => exact ⟨h.1, ih h.2.1, h.2.2⟩
  | neg t e ih => exact ⟨h.1, ih h.2.1, (grouped_rank e).trans (rank_of_level h.2.2)⟩
  | not t e ih => exact ⟨h.1, ih h.2.1, (grouped_rank e).trans (rank_of_level h.2.2)⟩
  | binary o t l r ihl ihr =>
      obtain ⟨ht, hl, hr, hleft, hright⟩ := h
      apply attach_rightGrouped (ihl hl) (ihr hr) ht
      · rw [grouped_rank]
        exact rank_mono hleft
      · rw [grouped_rank]
        exact rank_mono hright.le
  | _ => exact h

end Expr

/-- A reading that comes to a value at `rest`, or stops with a message where there is none. -/
def Comes (env : List Macro) (x : Except Fault Value) (v : Option ℤ) (rest : List Lexeme) : Prop :=
  match v with
  | some v => ∃ e, x = .ok (v, e, rest) ∧ defined e = defined env
  | none => ∃ message, x = .error (.exit message)

theorem Comes.bind {y : Except Fault Value} {v : Option ℤ} {k : ℤ → Option ℤ}
    {f : Value → Except Fault Value} {rest' : List Lexeme} (h : Comes env y v rest)
    (hf : ∀ a e, defined e = defined env → Comes env (f (a, e, rest)) (k a) rest') :
    Comes env (y >>= f) (v >>= k) rest' := by
  cases v with
  | none =>
      obtain ⟨message, rfl⟩ := h
      exact ⟨message, rfl⟩
  | some a =>
      obtain ⟨e, rfl, he⟩ := h
      exact hf a e he

theorem Comes.keep {y : Except Fault Value} {v : Option ℤ} {f : Value → Except Fault Value}
    {rest' : List Lexeme} (h : Comes env y v rest)
    (hf : ∀ a e, defined e = defined env → Comes env (f (a, e, rest)) (some a) rest') :
    Comes env (y >>= f) v rest' := by
  cases v with
  | none =>
      obtain ⟨message, rfl⟩ := h
      exact ⟨message, rfl⟩
  | some a =>
      obtain ⟨e, rfl, he⟩ := h
      exact hf a e he

theorem comes_ok (v : ℤ) (henv : defined env' = defined env) :
    Comes env (.ok (v, env', rest)) (some v) rest := ⟨env', rfl, henv⟩

/-- What is first is no operator of rank `k` or above. -/
def Stops (k : ℕ) (rest : List Lexeme) : Prop :=
  ∃ t ts, rest = t :: ts ∧ ∀ o : BinOp, k ≤ o.rank → t.s ≠ o.spelling

theorem Stops.mono {j k : ℕ} (h : Stops j rest) (hjk : j ≤ k) : Stops k rest := by
  obtain ⟨t, ts, hrest, hno⟩ := h
  exact ⟨t, ts, hrest, fun o ho => hno o (hjk.trans ho)⟩

theorem BinOp.spelling_injective : Function.Injective BinOp.spelling := by
  intro o p h
  cases o <;> cases p <;> first | rfl | exact absurd h (by decide)

theorem stops_operator {k : ℕ} {ts : List Lexeme} (ht : t.s = o.spelling) (hk : o.rank < k) :
    Stops k (t :: ts) := by
  refine ⟨t, ts, rfl, ?_⟩
  rintro p hp h
  cases BinOp.spelling_injective (ht.symm.trans h)
  exact absurd hp (Nat.not_le.mpr hk)

/-- A level of micro-c reads an expression, with the fuel that its tokens need. -/
def ReadBy (read : ℕ → List Macro → List Lexeme → Except Fault Value) (below : ℕ)
    (ends : List Lexeme → Prop) (env : List Macro) (e : Expr) : Prop :=
  ∀ fuel env' rest, defined env' = defined env → ends rest →
    4 * (e.tokens ++ rest).length + below < fuel →
    Comes env (read fuel env' (e.tokens ++ rest)) (e.run env) rest

/-- How each level of micro-c reads an expression that is not below its rank. -/
structure ReadAs (env : List Macro) (e : Expr) : Prop where
  primary : e.rank = 3 → ReadBy (macroPrimaryExpr int32) 0 (fun _ => True) env e
  additive : 2 ≤ e.rank → ReadBy (macroAdditiveExpr int32) 1 (Stops 2) env e
  relational : 1 ≤ e.rank → ReadBy (macroRelationalExpr int32) 2 (Stops 1) env e
  bitwise : ReadBy (macroBitwiseExpr int32) 3 (Stops 0) env e

section Levels

variable {fuel : ℕ} {ts more : List Lexeme} {v : Option ℤ}

theorem additive_of_primary (h : Comes env (macroPrimaryExpr int32 fuel env' ts) v rest)
    (hstop : Stops 2 rest) :
    Comes env (macroAdditiveExpr int32 (fuel + 1) env' ts) v rest := by
  obtain ⟨t, more, rfl, hno⟩ := hstop
  have hadd : t.s ∉ [text ['+'], text ['-'], text ['*'], text ['>', '>'], text ['<', '<']] := by
    simp only [List.mem_cons, List.not_mem_nil, or_false, not_or]
    exact ⟨hno .add le_rfl, hno .sub le_rfl, hno .mul le_rfl, hno .shr le_rfl, hno .shl le_rfl⟩
  have hdiv : t.s ≠ text ['/'] := hno .div le_rfl
  have hrem : t.s ≠ text ['%'] := hno .rem le_rfl
  rw [macroAdditiveExpr]
  apply h.keep
  intro a e he
  dsimp only
  rw [if_neg hadd, if_neg hdiv, if_neg hrem]
  exact comes_ok a he

theorem relation_none {s : Token} (h : ∀ o : BinOp, 1 ≤ o.rank → s ≠ o.spelling) (a b : ℤ) :
    relation? s a b = none := by
  have hlt : s ≠ text ['<'] := h .lt le_rfl
  have hle : s ≠ text ['<', '='] := h .le le_rfl
  have hge : s ≠ text ['>', '='] := h .ge le_rfl
  have hgt : s ≠ text ['>'] := h .gt le_rfl
  have heq : s ≠ text ['=', '='] := h .eq le_rfl
  have hne : s ≠ text ['!', '='] := h .ne le_rfl
  rw [relation?, if_neg hlt, if_neg hle, if_neg hge, if_neg hgt, if_neg heq, if_neg hne]

theorem relational_of_additive (h : Comes env (macroAdditiveExpr int32 fuel env' ts) v rest)
    (hstop : Stops 1 rest) :
    Comes env (macroRelationalExpr int32 (fuel + 1) env' ts) v rest := by
  obtain ⟨t, more, rfl, hno⟩ := hstop
  rw [macroRelationalExpr]
  apply h.keep
  intro a e he
  dsimp only
  rw [relation_none hno, if_neg (by decide)]
  exact comes_ok a he

theorem bitwise_of_relational (h : Comes env (macroRelationalExpr int32 fuel env' ts) v rest)
    (hstop : Stops 0 rest) :
    Comes env (macroBitwiseExpr int32 (fuel + 1) env' ts) v rest := by
  obtain ⟨t, more, rfl, hno⟩ := hstop
  have hbits : t.s ∉ [text ['&'], text ['|'], text ['^']] := by
    simp only [List.mem_cons, List.not_mem_nil, or_false, not_or]
    exact ⟨hno .and le_rfl, hno .or le_rfl, hno .xor le_rfl⟩
  have hland : t.s ≠ text ['&', '&'] := hno .land le_rfl
  have hlor : t.s ≠ text ['|', '|'] := hno .lor le_rfl
  rw [macroBitwiseExpr]
  apply h.keep
  intro a e he
  dsimp only
  rw [if_neg hbits, if_neg hland, if_neg hlor]
  exact comes_ok a he

/-- An operand of arithmetic, and the rest of its expression. -/
theorem additive_operator {w : Option ℤ} (ht : t.s = o.spelling) (hrank : o.rank = 2)
    (hleft : Comes env (macroPrimaryExpr int32 fuel env' ts) v (t :: more))
    (hright : ∀ env', defined env' = defined env →
      Comes env (macroAdditiveExpr int32 fuel env' more) w rest) :
    Comes env (macroAdditiveExpr int32 (fuel + 1) env' ts)
      (v >>= fun a => w >>= fun b => o.run a b) rest := by
  rw [macroAdditiveExpr]
  apply hleft.bind
  intro a e he
  dsimp only
  rw [ht]
  cases o with
  | mul | add | sub | shl | shr =>
      rw [if_pos (by decide)]
      exact (hright e he).bind fun b e' he' => comes_ok _ he'
  | div =>
      rw [if_neg (by decide), if_pos (by decide)]
      apply (hright e he).bind
      intro b e' he'
      by_cases hb : b = 0
      · subst hb
        exact ⟨_, rfl⟩
      · simp only [BinOp.run, hb, if_false]
        exact comes_ok _ he'
  | rem =>
      rw [if_neg (by decide), if_neg (by decide), if_pos (by decide)]
      apply (hright e he).bind
      intro b e' he'
      by_cases hb : b = 0
      · subst hb
        exact ⟨_, rfl⟩
      · simp only [BinOp.run, hb, if_false]
        exact comes_ok _ he'
  | _ => cases hrank

theorem relational_operator {w : Option ℤ} (ht : t.s = o.spelling) (hrank : o.rank = 1)
    (hleft : Comes env (macroAdditiveExpr int32 fuel env' ts) v (t :: more))
    (hright : ∀ env', defined env' = defined env →
      Comes env (macroRelationalExpr int32 fuel env' more) w rest) :
    Comes env (macroRelationalExpr int32 (fuel + 1) env' ts)
      (v >>= fun a => w >>= fun b => o.run a b) rest := by
  rw [macroRelationalExpr]
  apply hleft.bind
  intro a e he
  dsimp only
  rw [ht]
  cases o with
  | lt | le | gt | ge | eq | ne =>
      rw [if_pos (by decide)]
      exact (hright e he).bind fun b e' he' => comes_ok _ he'
  | _ => cases hrank

theorem bitwise_operator {w : Option ℤ} (ht : t.s = o.spelling) (hrank : o.rank = 0)
    (hleft : Comes env (macroRelationalExpr int32 fuel env' ts) v (t :: more))
    (hright : ∀ env', defined env' = defined env →
      Comes env (macroBitwiseExpr int32 fuel env' more) w rest) :
    Comes env (macroBitwiseExpr int32 (fuel + 1) env' ts)
      (v >>= fun a => w >>= fun b => o.run a b) rest := by
  rw [macroBitwiseExpr]
  apply hleft.bind
  intro a e he
  dsimp only
  rw [ht]
  cases o with
  | and | or | xor =>
      rw [if_pos (by decide)]
      exact (hright e he).bind fun b e' he' => comes_ok _ he'
  | land =>
      rw [if_neg (by decide), if_pos (by decide)]
      exact (hright e he).bind fun b e' he' => comes_ok _ he'
  | lor =>
      rw [if_neg (by decide), if_neg (by decide), if_pos (by decide)]
      exact (hright e he).bind fun b e' he' => comes_ok _ he'
  | _ => cases hrank

end Levels

theorem ReadBy.additive (h : ReadBy (macroPrimaryExpr int32) 0 (fun _ => True) env e) :
    ReadBy (macroAdditiveExpr int32) 1 (Stops 2) env e := by
  intro fuel env' rest henv hstop hfuel
  obtain ⟨n, rfl⟩ := Nat.exists_eq_succ_of_ne_zero (Nat.ne_zero_of_lt hfuel)
  exact additive_of_primary (h n env' rest henv trivial (by omega)) hstop

theorem ReadBy.relational (h : ReadBy (macroAdditiveExpr int32) 1 (Stops 2) env e) :
    ReadBy (macroRelationalExpr int32) 2 (Stops 1) env e := by
  intro fuel env' rest henv hstop hfuel
  obtain ⟨n, rfl⟩ := Nat.exists_eq_succ_of_ne_zero (Nat.ne_zero_of_lt hfuel)
  exact relational_of_additive
    (h n env' rest henv (hstop.mono (Nat.le_succ 1)) (by omega)) hstop

theorem ReadBy.bitwise (h : ReadBy (macroRelationalExpr int32) 2 (Stops 1) env e) :
    ReadBy (macroBitwiseExpr int32) 3 (Stops 0) env e := by
  intro fuel env' rest henv hstop hfuel
  obtain ⟨n, rfl⟩ := Nat.exists_eq_succ_of_ne_zero (Nat.ne_zero_of_lt hfuel)
  exact bitwise_of_relational
    (h n env' rest henv (hstop.mono (Nat.zero_le 1)) (by omega)) hstop

theorem ReadAs.of_primary (h : ReadBy (macroPrimaryExpr int32) 0 (fun _ => True) env e) :
    ReadAs env e :=
  ⟨fun _ => h, fun _ => h.additive, fun _ => h.additive.relational, h.additive.relational.bitwise⟩

/-- The left operand of an operator is of a higher rank, the right one of no lower one. -/
theorem ReadAs.binary (hl : ReadAs env l) (hr : ReadAs env r) (ht : t.s = o.spelling)
    (hleft : o.rank < l.rank) (hright : o.rank ≤ r.rank) : ReadAs env (.binary o t l r) := by
  have hshape (rest : List Lexeme) : (Expr.binary o t l r).tokens ++ rest =
      l.tokens ++ t :: (r.tokens ++ rest) := by
    rw [Expr.tokens, List.append_assoc, List.cons_append]
  have hlength (rest : List Lexeme) : ((Expr.binary o t l r).tokens ++ rest).length =
      (l.tokens ++ t :: (r.tokens ++ rest)).length := by rw [hshape]
  have hshorter (rest : List Lexeme) : (r.tokens ++ rest).length <
      (l.tokens ++ t :: (r.tokens ++ rest)).length := by
    simp only [List.length_append, List.length_cons]
    omega
  have hcases : o.rank = 0 ∨ o.rank = 1 ∨ o.rank = 2 := by
    rw [o.rank_eq]
    split_ifs <;> simp
  rcases hcases with hrank | hrank | hrank
  · rw [hrank] at hleft hright
    have h : ReadBy (macroBitwiseExpr int32) 3 (Stops 0) env (.binary o t l r) := by
      intro fuel env' rest henv hstop hfuel
      obtain ⟨n, rfl⟩ := Nat.exists_eq_succ_of_ne_zero (Nat.ne_zero_of_lt hfuel)
      rw [hlength] at hfuel
      have hless := hshorter rest
      rw [hshape]
      exact bitwise_operator ht hrank
        (hl.relational hleft n env' _ henv (stops_operator ht (by omega)) (by omega))
        fun env' henv' => hr.bitwise n env' rest henv' hstop (by omega)
    exact ⟨fun h3 => absurd (hrank.symm.trans h3) (by decide),
      fun h2 => absurd (hrank ▸ h2 : 2 ≤ 0) (by decide),
      fun h1 => absurd (hrank ▸ h1 : 1 ≤ 0) (by decide), h⟩
  · rw [hrank] at hleft hright
    have h : ReadBy (macroRelationalExpr int32) 2 (Stops 1) env (.binary o t l r) := by
      intro fuel env' rest henv hstop hfuel
      obtain ⟨n, rfl⟩ := Nat.exists_eq_succ_of_ne_zero (Nat.ne_zero_of_lt hfuel)
      rw [hlength] at hfuel
      have hless := hshorter rest
      rw [hshape]
      exact relational_operator ht hrank
        (hl.additive hleft n env' _ henv (stops_operator ht (by omega)) (by omega))
        fun env' henv' => hr.relational hright n env' rest henv' hstop (by omega)
    exact ⟨fun h3 => absurd (hrank.symm.trans h3) (by decide),
      fun h2 => absurd (hrank ▸ h2 : 2 ≤ 1) (by decide), fun _ => h, h.bitwise⟩
  · rw [hrank] at hleft hright
    have hprimary : l.rank = 3 := by
      cases l with
      | binary p u l' r' =>
          change 2 < p.rank at hleft
          rw [p.rank_eq] at hleft
          split_ifs at hleft <;> omega
      | _ => rfl
    have h : ReadBy (macroAdditiveExpr int32) 1 (Stops 2) env (.binary o t l r) := by
      intro fuel env' rest henv hstop hfuel
      obtain ⟨n, rfl⟩ := Nat.exists_eq_succ_of_ne_zero (Nat.ne_zero_of_lt hfuel)
      rw [hlength] at hfuel
      have hless := hshorter rest
      rw [hshape]
      exact additive_operator ht hrank (hl.primary hprimary n env' _ henv trivial (by omega))
        fun env' henv' => hr.additive hright n env' rest henv' hstop (by omega)
    exact ⟨fun h3 => absurd (hrank.symm.trans h3) (by decide), fun _ => h,
      fun _ => h.relational, h.relational.bitwise⟩

theorem macroVariable_tokens (int : IntType) (env : List Macro) (t : Lexeme) (ts : List Lexeme) :
    macroVariable int env t ts = (fun v => (v.1, v.2.1, ts)) <$> macroVariable int env t [] := by
  unfold macroVariable
  rcases lookupMacro env t with ⟨e, _ | hold⟩
  · rfl
  · dsimp only
    cases followMacro 64 e hold <;> rfl

theorem comes_variable (henv : defined env' = defined env) :
    Comes env (macroVariable int32 env' t rest) (Expr.variableValue env t) rest := by
  have hsteady : Alike (SameValue (defined env)) (macroVariable int32 env t [])
      (macroVariable int32 env' t []) := macroVariable_steady int32 t [] env env' rfl henv
  have hyields : Yields (Reads env []) (macroVariable int32 env t []) := macroVariable_yields int32
  rw [macroVariable_tokens, Expr.variableValue]
  cases h : macroVariable int32 env t [] with
  | error e =>
      rw [h] at hyields hsteady
      obtain ⟨message, rfl⟩ := hyields
      cases h' : macroVariable int32 env' t [] with
      | error e' =>
          rw [h'] at hsteady
          cases hsteady
          exact ⟨message, rfl⟩
      | ok w =>
          rw [h'] at hsteady
          exact hsteady.elim
  | ok v =>
      rw [h] at hsteady
      obtain ⟨w, hw, hsame⟩ := hsteady.of_ok rfl
      rw [hw]
      exact ⟨w.2.1, by rw [hsame.value]; rfl, hsame.right⟩

/-- A letter is none of the characters that other operands begin with. -/
theorem letter_ne {c : Byte} (h : inSet c letters = true) :
    c ≠ ch '-' ∧ c ≠ ch '!' ∧ c ≠ ch '(' := by
  refine ⟨?_, ?_, ?_⟩ <;> rintro rfl <;> exact absurd h (by decide)

theorem digit_ne {c : Byte} (h : inSet c decimals = true) :
    c ≠ ch '-' ∧ c ≠ ch '!' ∧ c ≠ ch '(' ∧ c ≠ ch 'd' ∧ ¬inSet c letters = true := by
  refine ⟨?_, ?_, ?_, ?_, ?_⟩
  · rintro rfl
    exact absurd h (by decide)
  · rintro rfl
    exact absurd h (by decide)
  · rintro rfl
    exact absurd h (by decide)
  · rintro rfl
    exact absurd h (by decide)
  · have hall : ∀ c ∈ decimals, ¬inSet c letters = true := by decide
    exact hall c (List.contains_iff_mem.mp h)

theorem IsDecimal.digit {s : Token} (h : IsDecimal s) : inSet (at' s 0) decimals = true := by
  rcases h with rfl | ⟨hall, hne, -⟩
  · decide
  · obtain ⟨c, s, rfl⟩ := List.exists_cons_of_ne_nil hne
    exact hall c List.mem_cons_self

theorem read_number (ht : IsDecimal t.s) : ReadAs env (.number t) := by
  apply ReadAs.of_primary
  intro fuel env' rest henv _ hfuel
  obtain ⟨n, rfl⟩ := Nat.exists_eq_succ_of_ne_zero (Nat.ne_zero_of_lt hfuel)
  have hdigit := ht.digit
  obtain ⟨hminus, hbang, hparen, hd, hletter⟩ := digit_ne hdigit
  have hdefined : t.s ≠ text ['d', 'e', 'f', 'i', 'n', 'e', 'd'] := by
    intro h
    rw [h] at hd
    exact hd (by decide)
  change Comes env (macroPrimaryExpr int32 (n + 1) env' (t :: rest)) _ rest
  rw [macroPrimaryExpr, if_neg hminus, if_neg hbang, if_neg hparen, if_neg hdefined,
    if_neg hletter, if_pos hdigit]
  exact comes_ok _ henv

theorem read_identifier (ht : IsIdentifier t.s) : ReadAs env (.identifier t) := by
  apply ReadAs.of_primary
  intro fuel env' rest henv _ hfuel
  obtain ⟨n, rfl⟩ := Nat.exists_eq_succ_of_ne_zero (Nat.ne_zero_of_lt hfuel)
  obtain ⟨hminus, hbang, hparen⟩ := letter_ne ht.letter
  change Comes env (macroPrimaryExpr int32 (n + 1) env' (t :: rest)) _ rest
  rw [macroPrimaryExpr, if_neg hminus, if_neg hbang, if_neg hparen,
    if_neg (show ¬t.s = text ['d', 'e', 'f', 'i', 'n', 'e', 'd'] from ht.keyword),
    if_pos ht.letter]
  exact comes_variable henv

/-- At `defined`. -/
theorem primary_defined {n : ℕ} (ht : t.s = definedName) :
    macroPrimaryExpr int32 (n + 1) env' (t :: rest) = macroDefined env' rest := by
  have hd : at' t.s 0 = ch 'd' := by
    rw [ht]
    decide
  rw [macroPrimaryExpr, hd, if_neg (by decide), if_neg (by decide), if_neg (by decide),
    if_pos (show t.s = text ['d', 'e', 'f', 'i', 'n', 'e', 'd'] from ht)]

theorem read_isDefined {keyword name : Lexeme} (hkeyword : keyword.s = definedName)
    (hname : IsIdentifier name.s) : ReadAs env (.isDefined keyword name) := by
  apply ReadAs.of_primary
  intro fuel env' rest henv _ hfuel
  obtain ⟨n, rfl⟩ := Nat.exists_eq_succ_of_ne_zero (Nat.ne_zero_of_lt hfuel)
  change Comes env (macroPrimaryExpr int32 (n + 1) env' (keyword :: name :: rest)) _ rest
  rw [primary_defined hkeyword, macroDefined]
  simp only [(letter_ne hname.letter).2.2, if_false]
  rw [Expr.run, ← lookupMacro_congr henv]
  exact comes_ok _ ((defined_lookupMacro env' name).trans henv)

theorem read_isDefinedParen {keyword opening name closing : Lexeme}
    (hkeyword : keyword.s = definedName) (hopening : opening.s = text ['('])
    (hclosing : closing.s = text [')']) :
    ReadAs env (.isDefinedParen keyword opening name closing) := by
  apply ReadAs.of_primary
  intro fuel env' rest henv _ hfuel
  obtain ⟨n, rfl⟩ := Nat.exists_eq_succ_of_ne_zero (Nat.ne_zero_of_lt hfuel)
  have hparen : at' opening.s 0 = ch '(' := by
    rw [hopening]
    decide
  have hclose : at' closing.s 0 = ch ')' := by
    rw [hclosing]
    decide
  change Comes env (macroPrimaryExpr int32 (n + 1) env'
    (keyword :: opening :: name :: closing :: rest)) _ rest
  rw [primary_defined hkeyword, macroDefined]
  simp only [hparen, if_true, hclose]
  rw [Expr.run, ← lookupMacro_congr henv]
  exact comes_ok _ ((defined_lookupMacro env' name).trans henv)

theorem read_paren {opening closing : Lexeme} (he : ReadAs env e)
    (hopening : opening.s = text ['('])
    (hclosing : closing.s = text [')']) : ReadAs env (.paren opening e closing) := by
  apply ReadAs.of_primary
  intro fuel env' rest henv _ hfuel
  obtain ⟨n, rfl⟩ := Nat.exists_eq_succ_of_ne_zero (Nat.ne_zero_of_lt hfuel)
  have hparen : at' opening.s 0 = ch '(' := by
    rw [hopening]
    decide
  have hclose : at' closing.s 0 = ch ')' := by
    rw [hclosing]
    decide
  have hstop : Stops 0 (closing :: rest) := by
    refine ⟨closing, rest, rfl, fun o _ => ?_⟩
    rw [hclosing]
    cases o <;> decide
  have hshape : (Expr.paren opening e closing).tokens ++ rest =
      opening :: (e.tokens ++ closing :: rest) := by
    simp [Expr.tokens]
  rw [hshape] at hfuel ⊢
  rw [List.length_cons] at hfuel
  rw [macroPrimaryExpr, hparen, if_neg (by decide), if_neg (by decide), if_pos rfl]
  refine (he.bitwise n env' _ henv hstop (by omega)).keep fun a e he => ?_
  dsimp only
  rw [if_pos hclose]
  exact comes_ok a he

theorem read_neg (he : ReadAs env e) (hrank : e.rank = 3) (ht : t.s = text ['-']) :
    ReadAs env (.neg t e) := by
  apply ReadAs.of_primary
  intro fuel env' rest henv _ hfuel
  obtain ⟨n, rfl⟩ := Nat.exists_eq_succ_of_ne_zero (Nat.ne_zero_of_lt hfuel)
  have hminus : at' t.s 0 = ch '-' := by
    rw [ht]
    decide
  change 4 * (e.tokens ++ rest).length.succ + 0 < n + 1 at hfuel
  change Comes env (macroPrimaryExpr int32 (n + 1) env' (t :: (e.tokens ++ rest))) _ rest
  rw [macroPrimaryExpr, if_pos hminus]
  exact (he.primary hrank n env' rest henv trivial (by omega)).bind fun a e he => comes_ok _ he

theorem read_not (he : ReadAs env e) (hrank : e.rank = 3) (ht : t.s = text ['!']) :
    ReadAs env (.not t e) := by
  apply ReadAs.of_primary
  intro fuel env' rest henv _ hfuel
  obtain ⟨n, rfl⟩ := Nat.exists_eq_succ_of_ne_zero (Nat.ne_zero_of_lt hfuel)
  have hbang : at' t.s 0 = ch '!' := by
    rw [ht]
    decide
  change 4 * (e.tokens ++ rest).length.succ + 0 < n + 1 at hfuel
  change Comes env (macroPrimaryExpr int32 (n + 1) env' (t :: (e.tokens ++ rest))) _ rest
  rw [macroPrimaryExpr, hbang, if_neg (by decide), if_pos rfl]
  exact (he.primary hrank n env' rest henv trivial (by omega)).bind fun a e he => comes_ok _ he

/-- micro-c reads an expression that is grouped to the right as what it is. -/
theorem Expr.RightGrouped.reads (h : e.RightGrouped) : ReadAs env e := by
  induction e with
  | number t => exact read_number h
  | identifier t => exact read_identifier h
  | isDefined keyword name => exact read_isDefined h.1 h.2
  | isDefinedParen keyword opening name closing =>
      exact read_isDefinedParen h.1 h.2.1 h.2.2.2
  | paren opening e closing ih => exact read_paren (ih h.2.1) h.1 h.2.2
  | neg t e ih => exact read_neg (ih h.2.1) h.2.2 h.1
  | not t e ih => exact read_not (ih h.2.1) h.2.2 h.1
  | binary o t l r ihl ihr =>
      obtain ⟨ht, hl, hr, hleft, hright⟩ := h
      exact (ihl hl).binary (ihr hr) ht hleft hright

/-- An expression of C is read with its operators grouped to the right. -/
theorem macroExpression_grouped (h : e.Grammatical) (hstop : Stops 0 rest) :
    Comes env (macroExpression int32 env (e.tokens ++ rest)) (e.grouped.run env) rest := by
  have hreads : ReadAs env e.grouped := (Expr.grouped_rightGrouped h).reads
  have hbitwise := hreads.bitwise (4 * (e.tokens ++ rest).length + 4) env rest rfl hstop
  rw [Expr.grouped_tokens] at hbitwise
  exact hbitwise (by omega)

end Veron.MicroC
