/-
When the value of an `#if` in micro-c is that of C: grouping to the right does no harm where the
operators associate.
-/
import Veron.MicroCExpressionRead

namespace Veron.MicroC

open SelfAssembler (Byte ch text)

variable {env : List Macro} {e x : Expr} {o p : BinOp} {t u : Lexeme} {v : ℤ} {rest : List Lexeme}

theorem wrap32_eq {v : ℤ} (hlow : -2 ^ 31 ≤ v) (hhigh : v < 2 ^ 31) : wrap32 v = v :=
  Int.bmod_eq_of_le (by simpa using hlow) (by simpa using hhigh)

theorem BinOp.of_fits {w : ℤ} (h : fits w = some v) : wrap32 w = v := by
  unfold fits at h
  split_ifs at h with hrange
  rw [wrap32_eq hrange.1 hrange.2]
  exact Option.some.inj h

theorem shiftCount {r : ℤ} (h : 0 ≤ r ∧ r < 32) : r % 32 = r := Int.emod_eq_of_lt h.1 h.2

theorem BinOp.run_relation {a b : ℤ} {c : Bool} (hrank : o.rank = 1)
    (h : relation? o.spelling a b = some c) : o.run a b = some (if c then 1 else 0) := by
  cases o with
  | lt | le | gt | ge | eq | ne =>
      change some (if relation? _ a b = some true then (1 : ℤ) else 0) = _
      rw [h]
      cases c <;> rfl
  | _ => cases hrank

/-- Where no `int` overflows, micro-c computes what C says. -/
theorem BinOp.run_of_eval {a b : ℤ} (h : o.eval a b = some v) : o.run a b = some v := by
  cases o with
  | mul | add | sub => exact congrArg some (of_fits h)
  | div =>
      change (if b = 0 then none else fits (a.tdiv b)) = some v at h
      change (if b = 0 then none else some (wrap32 (a.tdiv b))) = some v
      split_ifs at h ⊢
      exact congrArg some (of_fits h)
  | rem =>
      change (if b = 0 then none else (fits (a.tdiv b)).bind fun _ => fits (a.tmod b)) = some v at h
      change (if b = 0 then none else some (wrap32 (a.tmod b))) = some v
      split_ifs at h ⊢
      obtain ⟨_, -, h⟩ := Option.bind_eq_some_iff.mp h
      exact congrArg some (of_fits h)
  | shl =>
      change (if 0 ≤ b ∧ b < 32 then fits (a * 2 ^ b.toNat) else none) = some v at h
      change some (wrap32 (a * 2 ^ (b % 32).toNat)) = some v
      split_ifs at h with hb
      rw [shiftCount hb]
      exact congrArg some (of_fits h)
  | shr =>
      change (if 0 ≤ b ∧ b < 32 then some (a >>> b.toNat) else none) = some v at h
      change some (a >>> (b % 32).toNat) = some v
      split_ifs at h with hb
      rw [shiftCount hb]
      exact h
  | lt | le | gt | ge | eq | ne =>
      rw [BinOp.run_relation rfl rfl, ← h]
      simp [eval]
  | and | xor | or | land | lor => exact h

/-- Two operators that associate give the same value in either grouping, also where it wraps. -/
theorem BinOp.run_assoc (h : o.associates p = true) (a b c : ℤ) :
    ((p.run b c).bind fun d => o.run a d) = (o.run a b).bind fun d => p.run d c := by
  have hpairs := of_decide_eq_true h
  simp only [List.mem_cons, List.not_mem_nil, or_false, Prod.mk.injEq] at hpairs
  rcases hpairs with ⟨rfl, rfl⟩ | ⟨rfl, rfl⟩ | ⟨rfl, rfl⟩ | ⟨rfl, rfl⟩ | ⟨rfl, rfl⟩ | ⟨rfl, rfl⟩ |
    ⟨rfl, rfl⟩ | ⟨rfl, rfl⟩ | ⟨rfl, rfl⟩
  · change some (wrap32 (a + wrap32 (b + c))) = some (wrap32 (wrap32 (a + b) + c))
    rw [wrap32, wrap32, wrap32, wrap32, Int.add_bmod_bmod, Int.bmod_add_bmod, Int.add_assoc]
  · change some (wrap32 (a + wrap32 (b - c))) = some (wrap32 (wrap32 (a + b) - c))
    rw [wrap32, wrap32, wrap32, wrap32, Int.add_bmod_bmod, Int.bmod_sub_bmod, Int.add_sub_assoc]
  · change some (wrap32 (a * wrap32 (b * c))) = some (wrap32 (wrap32 (a * b) * c))
    rw [wrap32, wrap32, wrap32, wrap32, Int.mul_bmod_bmod, Int.bmod_mul_bmod, Int.mul_assoc]
  · change some (wrap32 (a * wrap32 (b * 2 ^ (c % 32).toNat))) =
      some (wrap32 (wrap32 (a * b) * 2 ^ (c % 32).toNat))
    rw [wrap32, wrap32, wrap32, wrap32, Int.mul_bmod_bmod, Int.bmod_mul_bmod, Int.mul_assoc]
  · change some (BitVec.ofInt 32 a &&& BitVec.ofInt 32 (_ &&& _ : BitVec 32).toInt).toInt =
      some (BitVec.ofInt 32 (_ &&& _ : BitVec 32).toInt &&& BitVec.ofInt 32 c).toInt
    rw [BitVec.ofInt_toInt, BitVec.ofInt_toInt, BitVec.and_assoc]
  · change some (BitVec.ofInt 32 a ^^^ BitVec.ofInt 32 (_ ^^^ _ : BitVec 32).toInt).toInt =
      some (BitVec.ofInt 32 (_ ^^^ _ : BitVec 32).toInt ^^^ BitVec.ofInt 32 c).toInt
    rw [BitVec.ofInt_toInt, BitVec.ofInt_toInt, BitVec.xor_assoc]
  · change some (BitVec.ofInt 32 a ||| BitVec.ofInt 32 (_ ||| _ : BitVec 32).toInt).toInt =
      some (BitVec.ofInt 32 (_ ||| _ : BitVec 32).toInt ||| BitVec.ofInt 32 c).toInt
    rw [BitVec.ofInt_toInt, BitVec.ofInt_toInt, BitVec.or_assoc]
  · change some (if a ≠ 0 ∧ (if b ≠ 0 ∧ c ≠ 0 then (1 : ℤ) else 0) ≠ 0 then (1 : ℤ) else 0) =
      some (if (if a ≠ 0 ∧ b ≠ 0 then (1 : ℤ) else 0) ≠ 0 ∧ c ≠ 0 then 1 else 0)
    by_cases ha : a = 0 <;> by_cases hb : b = 0 <;> simp [ha, hb]
  · change some (if a ≠ 0 ∨ (if b ≠ 0 ∨ c ≠ 0 then (1 : ℤ) else 0) ≠ 0 then (1 : ℤ) else 0) =
      some (if (if a ≠ 0 ∨ b ≠ 0 then (1 : ℤ) else 0) ≠ 0 ∨ c ≠ 0 then 1 else 0)
    by_cases ha : a = 0 <;> by_cases hb : b = 0 <;> simp [ha, hb]

namespace Expr

theorem run_binary (o : BinOp) (t : Lexeme) (l r : Expr) :
    (binary o t l r).run env = (l.run env).bind fun a => (r.run env).bind fun b => o.run a b := rfl

theorem attach_of_ne (h : e.rank ≠ o.rank) : e.attach o t x = binary o t e x := by
  cases e with
  | binary p u l r => exact if_neg h
  | _ => rfl

theorem attach_of_eq {l r : Expr} (h : p.rank = o.rank) :
    (binary p u l r).attach o t x = binary p u l (r.attach o t x) := if_pos h

/-- Of three operands with operators of one rank it does not matter which are joined first. -/
theorem attach_attach (a b : Expr) (h : o.rank = p.rank) :
    (a.attach o t b).attach p u x = a.attach o t (b.attach p u x) := by
  induction a with
  | binary q s l r _ ih =>
      by_cases hq : q.rank = o.rank
      · rw [attach_of_eq hq, attach_of_eq (hq.trans h), ih, attach_of_eq hq]
      · have hne : (binary q s l r).rank ≠ o.rank := hq
        rw [attach_of_ne hne, attach_of_eq h, attach_of_ne hne]
  | _ => exact if_pos h

/-- An operator whose expression ends in operators that associate with it, put behind the
expression grouped to the right. -/
theorem run_attach (e : Expr) (hassociates : e.Associates) :
    e.grouped.run env = e.run env ∧ ∀ o t x, e.Ends o →
      (e.grouped.attach o t x).run env =
        (e.run env).bind fun a => (x.run env).bind fun b => o.run a b := by
  induction e with
  | binary p u l r ihl ihr =>
      obtain ⟨hends, hl, hr⟩ := hassociates
      have hgrouped : (binary p u l r).grouped.run env = (binary p u l r).run env := by
        rw [grouped, (ihl hl).2 p u _ hends, (ihr hr).1, run_binary]
      refine ⟨hgrouped, fun o t x hlast => ?_⟩
      by_cases hrank : p.rank = o.rank
      · obtain ⟨hpo, hrest⟩ := hlast hrank
        rw [grouped, attach_attach _ _ hrank, (ihl hl).2 p u _ hends, (ihr hr).2 o t x hrest,
          run_binary]
        cases l.run env with
        | none => rfl
        | some a =>
            cases r.run env with
            | none => rfl
            | some b =>
                cases x.run env with
                | none =>
                    cases hab : p.run a b <;> simp [hab]
                | some c => exact BinOp.run_assoc hpo a b c
      · rw [attach_of_ne, run_binary, hgrouped]
        rwa [grouped_rank]
  | paren opening e closing ih =>
      have hgrouped : (paren opening e closing).grouped.run env =
          (paren opening e closing).run env := (ih hassociates).1
      refine ⟨hgrouped, fun o t x _ => ?_⟩
      rw [← hgrouped]
      rfl
  | neg t e ih =>
      have hgrouped : (neg t e).grouped.run env = (neg t e).run env := by
        rw [grouped, run, (ih hassociates).1, run]
      refine ⟨hgrouped, fun o t x _ => ?_⟩
      rw [← hgrouped]
      rfl
  | not t e ih =>
      have hgrouped : (not t e).grouped.run env = (not t e).run env := by
        rw [grouped, run, (ih hassociates).1, run]
      refine ⟨hgrouped, fun o t x _ => ?_⟩
      rw [← hgrouped]
      rfl
  | _ => exact ⟨rfl, fun o t x _ => rfl⟩

end Expr

theorem setReader_digits {s : Token} (hdigits : ∀ c ∈ s, inSet c decimals = true) (n : ℕ)
    (hfits : s.foldl (fun n c => n * 10 + (c.toNat - 48)) n < 2 ^ 31) :
    setReader 10 n s = (s.foldl (fun n c => n * 10 + (c.toNat - 48)) n : ℕ) := by
  have hdigit : ∀ c ∈ decimals, c ≠ ch '_' ∧ char2hex c = some (c.toNat - 48) ∧
      c.toNat - 48 < 10 := by decide
  have hgrows (s : Token) (n : ℕ) : n ≤ s.foldl (fun n c => n * 10 + (c.toNat - 48)) n := by
    induction s generalizing n with
    | nil => exact le_rfl
    | cons c s ih =>
        have hstep : n ≤ n * 10 + (c.toNat - 48) := by omega
        exact hstep.trans (ih _)
  induction s generalizing n with
  | nil => rfl
  | cons c s ih =>
      rw [List.foldl_cons] at hfits ⊢
      obtain ⟨hunderscore, hvalue, hless⟩ :=
        hdigit c (List.contains_iff_mem.mp (hdigits c List.mem_cons_self))
      have hsmall := lt_of_le_of_lt (hgrows s _) hfits
      rw [← ih (fun d hd => hdigits d (List.mem_cons_of_mem c hd)) _ hfits]
      rw [setReader, if_neg hunderscore, hvalue]
      dsimp only
      rw [if_pos hless, wrap32_eq (by omega) (by omega)]
      push_cast
      rfl

theorem strtoint_decimal {s : Token} (h : IsDecimal s) (hfits : decimal s < 2 ^ 31) :
    strtoint s = decimal s := by
  rcases h with rfl | ⟨hdigits, hne, hzero⟩
  · rfl
  · obtain ⟨c, s, rfl⟩ := List.exists_cons_of_ne_nil hne
    have hminus : at' (c :: s) 0 ≠ ch '-' := (digit_ne (hdigits c List.mem_cons_self)).1
    have hbase : intBase (c :: s) = (10, c :: s) := by
      rw [intBase, if_neg fun h => hzero h.1, if_neg fun h => hzero h.1, if_neg hzero]
    rw [strtoint, hbase]
    dsimp only
    rw [if_neg hminus]
    exact setReader_digits hdigits 0 hfits

theorem Expands.unique {n m : ℕ} {w : ℤ} (h : Expands env n t v) (h' : Expands env m t w) :
    v = w := by
  induction h generalizing m w with
  | undefined hnone =>
      cases h' with
      | undefined _ => rfl
      | literal hsome => exact absurd (hnone.symm.trans hsome) (Option.some_ne_none _).symm
      | chain hsome => exact absurd (hnone.symm.trans hsome) (Option.some_ne_none _).symm
  | literal hsome _ hexpansion hnone =>
      cases h' with
      | undefined hnone' => exact absurd (hnone'.symm.trans hsome) (Option.some_ne_none _).symm
      | literal hsome' _ hexpansion' =>
          cases Option.some.inj (hsome.symm.trans hsome')
          cases hexpansion.symm.trans hexpansion'
          rfl
      | chain hsome' _ hexpansion' hnext =>
          cases Option.some.inj (hsome.symm.trans hsome')
          cases hexpansion.symm.trans hexpansion'
          exact absurd (hnone.symm.trans hnext) (Option.some_ne_none _).symm
  | chain hsome _ hexpansion hnext _ _ ih =>
      cases h' with
      | undefined hnone' => exact absurd (hnone'.symm.trans hsome) (Option.some_ne_none _).symm
      | literal hsome' _ hexpansion' hnone =>
          cases Option.some.inj (hsome.symm.trans hsome')
          cases hexpansion.symm.trans hexpansion'
          exact absurd (hnone.symm.trans hnext) (Option.some_ne_none _).symm
      | chain hsome' _ hexpansion' _ _ hexpands =>
          cases Option.some.inj (hsome.symm.trans hsome')
          cases hexpansion.symm.trans hexpansion'
          exact ih hexpands

/-- A chain that is not too long is followed to its end. -/
theorem followMacro_expands {n k : ℕ} {hold : Macro} {env' : List Macro}
    (h : Expands env n t v) (hhold : (lookupMacro env t).2 = some hold) (hn : n ≤ k + 1)
    (henv : defined env' = defined env) :
    ∃ e' s, followMacro k env' hold = .ok (e', s) ∧ strtoint s = v := by
  induction h generalizing k hold env' with
  | undefined hnone => exact absurd (hnone.symm.trans hhold) (Option.some_ne_none _).symm
  | @literal t u hold' hsome _ hexpansion hnone hdecimal hfits =>
      cases Option.some.inj (hsome.symm.trans hhold)
      rw [← lookupMacro_congr henv] at hnone
      rcases hlookup : lookupMacro env' u with ⟨e', found⟩
      rw [hlookup] at hnone
      cases hnone
      refine ⟨e', u.s, ?_, strtoint_decimal hdecimal hfits⟩
      cases k <;> rw [followMacro, hexpansion] <;> dsimp only <;> rw [hlookup]
  | @chain n t u hold' next v hsome _ hexpansion hnext hne hexpands ih =>
      cases Option.some.inj (hsome.symm.trans hhold)
      have hnext' := hnext
      rw [← lookupMacro_congr henv] at hnext'
      have he := defined_lookupMacro env' u
      rcases hlookup : lookupMacro env' u with ⟨e', found⟩
      rw [hlookup] at hnext' he
      cases hnext'
      cases k with
      | zero =>
          cases hexpands with
          | undefined hnone => exact absurd (hnone.symm.trans hnext) (Option.some_ne_none _).symm
          | literal => omega
          | chain => omega
      | succ k =>
          have hn' : n ≤ k + 1 := Nat.le_of_succ_le_succ hn
          obtain ⟨e, s, hfollow, hs⟩ := ih hnext hn' (he.trans henv)
          refine ⟨e, s, ?_, hs⟩
          rw [followMacro, hexpansion]
          dsimp only
          rw [hlookup]
          dsimp only
          rw [if_neg hne, hfollow]

theorem variableValue_expands {n : ℕ} (h : Expands env n t v) (hn : n ≤ 65) :
    Expr.variableValue env t = some v := by
  unfold Expr.variableValue macroVariable
  rcases hlookup : lookupMacro env t with ⟨e, _ | hold⟩
  · cases h with
    | undefined _ => rfl
    | literal hsome =>
        rw [hlookup] at hsome
        cases hsome
    | chain hsome =>
        rw [hlookup] at hsome
        cases hsome
  · have hhold : (lookupMacro env t).2 = some hold := by rw [hlookup]
    have he : defined e = defined env := by
      rw [← defined_lookupMacro env t, hlookup]
    obtain ⟨e', s, hfollow, rfl⟩ := followMacro_expands h hhold hn he
    dsimp only
    rw [hfollow]
    rfl

/-- Grouped as in C, an expression has the value of C. -/
theorem Expr.Value.run (h : e.Value env v) (hgrammar : e.Grammatical)
    (hchains : e.ShortChains env) : e.run env = some v := by
  induction h with
  | number hfits => exact congrArg some (strtoint_decimal hgrammar hfits)
  | identifier hexpands =>
      obtain ⟨n, w, hn, hshort⟩ := hchains
      cases hexpands.unique hshort
      exact variableValue_expands hshort hn
  | isDefined => rfl
  | isDefinedParen => rfl
  | paren _ ih => exact ih hgrammar.2.1 hchains
  | @neg t e a w _ hfits ih =>
      rw [Expr.run, ih hgrammar.2.1 hchains]
      change some (wrap32 (0 - a)) = some w
      rw [Int.zero_sub, BinOp.of_fits hfits]
  | not _ ih =>
      rw [Expr.run, ih hgrammar.2.1 hchains]
      rfl
  | binary _ _ heval ihl ihr =>
      obtain ⟨-, hl, hr, -⟩ := hgrammar
      rw [run_binary, ihl hl hchains.1, ihr hr hchains.2]
      exact BinOp.run_of_eval heval

/-- `macro_expression` comes to the value `v` at what follows the expression. -/
def Returns (env : List Macro) (e : Expr) (rest : List Lexeme) (v : ℤ) : Prop :=
  ∃ env', macroExpression int32 env (e.tokens ++ rest) = .ok (v, env', rest)

theorem returns_iff (hgrammar : e.Grammatical) (hstop : Stops 0 rest) :
    Returns env e rest v ↔ e.grouped.run env = some v := by
  have hcomes : Comes env (macroExpression int32 env (e.tokens ++ rest)) (e.grouped.run env) rest :=
    macroExpression_grouped hgrammar hstop
  constructor
  · rintro ⟨env', hreturns⟩
    cases hrun : e.grouped.run env with
    | none =>
        rw [hrun] at hcomes
        obtain ⟨message, herror⟩ := hcomes
        cases hreturns.symm.trans herror
    | some w =>
        rw [hrun] at hcomes
        obtain ⟨e', hok, -⟩ := hcomes
        cases hreturns.symm.trans hok
        rfl
  · intro hrun
    rw [hrun] at hcomes
    obtain ⟨e', hok, -⟩ := hcomes
    exact ⟨e', hok⟩

theorem stops_newline {newline : Lexeme} (h : newline.s = [0x0a]) : Stops 0 (newline :: rest) := by
  refine ⟨newline, rest, rfl, fun o _ => ?_⟩
  rw [h]
  cases o <;> decide

/-- The literal of one digit. -/
def digit (n : ℕ) : Lexeme := ⟨[ch '0' + BitVec.ofNat 8 n], [], 1, false⟩

/-- An operator as it is written. -/
def BinOp.sign (o : BinOp) : Lexeme := ⟨o.spelling, [], 1, false⟩

/-- Three digits with an operator between each two, grouped to the left. -/
def threeDigits (o p : BinOp) (a b c : ℕ) : Expr :=
  .binary p p.sign (.binary o o.sign (.number (digit a)) (.number (digit b))) (.number (digit c))

theorem digit_value (n : ℕ) (hn : n < 10) :
    (Expr.number (digit n)).Grammatical ∧ decimal (digit n).s = n ∧ strtoint (digit n).s = n := by
  have hdecimal : IsDecimal (digit n).s := by
    unfold IsDecimal
    revert n
    decide
  have hvalue : decimal (digit n).s = n := by
    clear hdecimal
    revert n
    decide
  have hstrtoint := strtoint_decimal hdecimal (by omega)
  exact ⟨hdecimal, hvalue, hstrtoint.trans (congrArg Nat.cast hvalue)⟩

theorem threeDigits_grammatical {a b c : ℕ} (hlevel : p.level ≤ o.level) (ha : a < 10)
    (hb : b < 10) (hc : c < 10) : (threeDigits o p a b c).Grammatical := by
  have ho : o.level < 11 := Nat.lt_succ_of_le o.level_le
  have hp : p.level < 11 := Nat.lt_succ_of_le p.level_le
  exact ⟨rfl, ⟨rfl, (digit_value a ha).1, (digit_value b hb).1, ho.le, ho⟩, (digit_value c hc).1,
    hlevel, hp⟩

theorem threeDigits_value {a b c : ℕ} {d : ℤ} (ha : a < 10) (hb : b < 10) (hc : c < 10)
    (hfirst : o.eval a b = some d) (hsecond : p.eval d c = some v) :
    (threeDigits o p a b c).Value env v := by
  have hnumber : ∀ n < 10, (Expr.number (digit n)).Value env n := by
    intro n hn
    have hvalue := (digit_value n hn).2.1
    have hfits : decimal (digit n).s < 2 ^ 31 := by omega
    have hnumber : (Expr.number (digit n)).Value env (decimal (digit n).s) := .number hfits
    rwa [hvalue] at hnumber
  exact .binary (.binary (hnumber a ha) (hnumber b hb) hfirst) (hnumber c hc) hsecond

theorem threeDigits_grouped {a b c : ℕ} (hrank : o.rank = p.rank) (ha : a < 10) (hb : b < 10)
    (hc : c < 10) :
    (threeDigits o p a b c).grouped.run env = (p.run b c).bind fun d => o.run a d := by
  have hnumber : ∀ n < 10, (Expr.number (digit n)).run env = some (n : ℤ) :=
    fun n hn => congrArg some (digit_value n hn).2.2
  have hgrouped : (threeDigits o p a b c).grouped = .binary o o.sign (.number (digit a))
      (.binary p p.sign (.number (digit b)) (.number (digit c))) := by
    cases o <;> cases p <;> first | rfl | cases hrank
  rw [hgrouped, Expr.run_binary, Expr.run_binary, hnumber a ha, hnumber b hb, hnumber c hc]
  rfl

/-- Operators of one rank that do not associate differ on one of three triples. -/
theorem BinOp.told_apart (hrank : o.rank = p.rank) (hlevel : p.level ≤ o.level)
    (h : o.associates p = false) : ∃ t ∈ ([(6, 2, 3), (0, 2, 2), (1, 2, 0)] : List (ℤ × ℤ × ℤ)),
      ((o.eval t.1 t.2.1).bind fun d => p.eval d t.2.2).isSome ∧
        ((o.eval t.1 t.2.1).bind fun d => p.eval d t.2.2) ≠
          ((p.run t.2.1 t.2.2).bind fun d => o.run t.1 d) := by
  revert hrank hlevel h
  cases o <;> cases p <;> decide

/-- The value is that of C where every operator associates with those its left operand ends in.
No pair of operators that does not associate can be spared: some digits between them give another
value. -/
theorem macroExpression_exact {newline : Lexeme} (hgrammar : e.Grammatical)
    (hvalue : e.Value env v) (hnewline : newline.s = [0x0a]) :
    (e.Associates → e.ShortChains env → Returns env e (newline :: rest) v) ∧
      ∀ o p : BinOp, o.rank = p.rank → p.level ≤ o.level → o.associates p = false →
        ∃ a b c w, (threeDigits o p a b c).Grammatical ∧ (threeDigits o p a b c).Value env w ∧
          ¬Returns env (threeDigits o p a b c) (newline :: rest) w := by
  have hstops : Stops 0 (newline :: rest) := stops_newline hnewline
  refine ⟨fun hassociates hchains => (returns_iff hgrammar hstops).mpr ?_,
    fun o p hrank hlevel hapart => ?_⟩
  · rw [(Expr.run_attach e hassociates).1]
    exact hvalue.run hgrammar hchains
  · have hdiffers : ∀ a b c : ℕ, a < 10 → b < 10 → c < 10 →
        ((o.eval a b).bind fun d => p.eval d c).isSome ∧ ((o.eval a b).bind fun d => p.eval d c) ≠
          ((p.run b c).bind fun d => o.run a d) →
        ∃ a b c w, (threeDigits o p a b c).Grammatical ∧ (threeDigits o p a b c).Value env w ∧
          ¬Returns env (threeDigits o p a b c) (newline :: rest) w := by
      rintro a b c ha hb hc ⟨hsome, hne⟩
      obtain ⟨w, hw⟩ := Option.isSome_iff_exists.mp hsome
      obtain ⟨d, hfirst, hsecond⟩ := Option.bind_eq_some_iff.mp hw
      have hthree := threeDigits_grammatical hlevel ha hb hc
      refine ⟨a, b, c, w, hthree, threeDigits_value ha hb hc hfirst hsecond, fun hreturns => ?_⟩
      rw [returns_iff hthree hstops, threeDigits_grouped hrank ha hb hc] at hreturns
      exact hne (hw.trans hreturns.symm)
    obtain ⟨t, ht, hdiffer⟩ := BinOp.told_apart hrank hlevel hapart
    simp only [List.mem_cons, List.not_mem_nil, or_false] at ht
    rcases ht with rfl | rfl | rfl
    · exact hdiffers 6 2 3 (by decide) (by decide) (by decide) hdiffer
    · exact hdiffers 0 2 2 (by decide) (by decide) (by decide) hdiffer
    · exact hdiffers 1 2 0 (by decide) (by decide) (by decide) hdiffer

/-- `9 + 5 - 2`. -/
theorem plus_minus_value :
    ((threeDigits .add .sub 9 5 2).Associates → (threeDigits .add .sub 9 5 2).ShortChains [] →
      Returns [] (threeDigits .add .sub 9 5 2) [⟨text ['\n'], [], 1, false⟩] 12) ∧
      ∀ o p : BinOp, o.rank = p.rank → p.level ≤ o.level → o.associates p = false →
        ∃ a b c w, (threeDigits o p a b c).Grammatical ∧ (threeDigits o p a b c).Value [] w ∧
          ¬Returns [] (threeDigits o p a b c) [⟨text ['\n'], [], 1, false⟩] w :=
  macroExpression_exact
    (threeDigits_grammatical (by decide) (by decide) (by decide) (by decide))
    (threeDigits_value (d := 14) (by decide) (by decide) (by decide) (by decide) (by decide)) rfl

/-- For `9 - 5 - 2` C has 2, but `5 - 2` is grouped first. -/
theorem minus_minus_value : ¬∀ (env : List Macro) (e : Expr) (v : ℤ) (newline : Lexeme)
    (rest : List Lexeme), e.Grammatical → e.Value env v → newline.s = [0x0a] →
    Returns env e (newline :: rest) v := by
  intro h
  have hgrammar : (threeDigits .sub .sub 9 5 2).Grammatical :=
    threeDigits_grammatical le_rfl (by decide) (by decide) (by decide)
  have hfirst : BinOp.sub.eval (9 : ℕ) (5 : ℕ) = some 4 := by decide
  have hvalue : (threeDigits .sub .sub 9 5 2).Value [] 2 :=
    threeDigits_value (by decide) (by decide) (by decide) hfirst (by decide)
  have hreturns := h [] (threeDigits .sub .sub 9 5 2) 2 ⟨text ['\n'], [], 1, false⟩ [] hgrammar
    hvalue rfl
  rw [returns_iff hgrammar (stops_newline rfl)] at hreturns
  exact absurd hreturns (by decide)

end Veron.MicroC
