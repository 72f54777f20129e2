/-
How often each label is emitted by pico-c, by what the program holds: every number that is
taken is defined once.
-/
import Mathlib.Data.List.Count
import Mathlib.Data.List.Nodup
import Veron.PicoCLabels

namespace Veron.PicoC.Labels

/-- The names of the labels for `goto` of a statement. -/
def Stmt.gotos : Stmt → List Name
  | .expr _ => []
  | .label l => [l]
  | .seq a b => a.gotos ++ b.gotos
  | .block s => s.gotos
  | .ifThen _ a => a.gotos
  | .ifElse _ a b => a.gotos ++ b.gotos
  | .while _ s => s.gotos
  | .doWhile s _ => s.gotos
  | .for _ _ _ s => s.gotos
  | .break => []
  | .continue => []

/-- The global variables. -/
def globals : List Definition → List Name
  | [] => []
  | .global x :: ds => x :: globals ds
  | .function _ _ :: ds => globals ds

/-- The labels for `goto` with the numbers of their functions, of which `k` have come before. -/
def gotosFrom : ℕ → List Definition → List (ℕ × Name)
  | _, [] => []
  | k, .global _ :: ds => gotosFrom k ds
  | k, .function _ body :: ds => (body.gotos.map fun l => (k + 1, l)) ++ gotosFrom (k + 1) ds

/-- What decides how often something emits each label; `own` are numbers that were taken before. -/
structure Summary where
  functions : List Name
  globals : List Name
  gotos : List (ℕ × Name)
  own : List ℕ

def Summary.append (σ τ : Summary) : Summary where
  functions := σ.functions ++ τ.functions
  globals := σ.globals ++ τ.globals
  gotos := σ.gotos ++ τ.gotos
  own := σ.own ++ τ.own

/-- How often a label is emitted between two states: a number that `continue` has asked for is
still to be defined. -/
def Summary.times (σ : Summary) (st st' : State) : Label → ℕ
  | .function f => σ.functions.count f
  | .numbered n =>
      (if st.count ≤ n ∧ n < st'.count ∧ st'.loop ≠ .atNeed (some n) then 1 else 0) + σ.own.count n
  | .string n => if st.strings ≤ n ∧ n < st'.strings then 1 else 0
  | .stringSkip n => if st.strings ≤ n ∧ n < st'.strings then 1 else 0
  | .global x => σ.globals.count x
  | .globalSkip x => σ.globals.count x
  | .goto k l => σ.gotos.count (k, l)
  | .routine _ => 0
  | .callocHave => 0
  | .callocPointer => 0

/-- The label that `continue` has asked for has been taken. -/
def State.Good (st : State) : Prop := ∀ n, st.loop = .atNeed (some n) → n < st.count

/-- The loop is as it was, or its label has been taken since. -/
def Asks (st st' : State) : Prop :=
  st'.loop = st.loop ∨
    st.loop = .atNeed none ∧ ∃ n, st.count ≤ n ∧ n < st'.count ∧ st'.loop = .atNeed (some n)

structure Run (σ : Summary) (st : State) (ls : List Label) (st' : State) : Prop where
  count_le : st.count ≤ st'.count
  strings_le : st.strings ≤ st'.strings
  asks : Asks st st'
  count_eq : ∀ l, ls.count l = σ.times st st' l

/-- In the function with the number `k`. -/
def Emits.Does (e : Emits) (k : ℕ) (σ : Summary) : Prop :=
  ∀ st ls st', st.Good → st.function = k → e st = some (ls, st') →
    Run σ st ls st' ∧ st'.function = k

variable {k : ℕ} {σ τ : Summary} {st st' st'' : State} {ls ls' : List Label} {a b : Emits}

/-- Labels for `goto` and numbers that were taken before. -/
def summary (k : ℕ) (gotos : List Name) (own : List ℕ) : Summary :=
  ⟨[], [], gotos.map fun l => (k, l), own⟩

theorem summary_append (gotos gotos' : List Name) (own own' : List ℕ) :
    (summary k gotos own).append (summary k gotos' own') =
      summary k (gotos ++ gotos') (own ++ own') := by
  simp [summary, Summary.append]

theorem Run.good (h : Run σ st ls st') (hgood : st.Good) : st'.Good := by
  intro n hn
  rcases h.asks with hsame | ⟨-, m, -, hlt, hask⟩
  · exact Nat.lt_of_lt_of_le (hgood n (hsame ▸ hn)) h.count_le
  · rw [hn] at hask
    cases hask
    exact hlt

/-- What is counted when no number is taken. -/
theorem Summary.times_same (σ : Summary) (hcount : st'.count = st.count)
    (hstrings : st'.strings = st.strings) (l : Label) : σ.times st st' l =
      match l with
      | .function f => σ.functions.count f
      | .numbered n => σ.own.count n
      | .global x => σ.globals.count x
      | .globalSkip x => σ.globals.count x
      | .goto j l => σ.gotos.count (j, l)
      | _ => 0 := by
  cases l with
  | numbered n =>
      have hnone : ¬ (st.count ≤ n ∧ n < st'.count ∧ st'.loop ≠ .atNeed (some n)) := by omega
      simp only [times]
      rw [if_neg hnone, Nat.zero_add]
  | string n | stringSkip n =>
      simp only [times]
      rw [if_neg (by omega)]
  | _ => rfl

theorem Run.same (hcount : st'.count = st.count) (hstrings : st'.strings = st.strings)
    (hloop : st'.loop = st.loop) (k : ℕ) : Run (summary k [] []) st [] st' where
  count_le := Nat.le_of_eq hcount.symm
  strings_le := Nat.le_of_eq hstrings.symm
  asks := .inl hloop
  count_eq := by
    intro l
    rw [Summary.times_same _ hcount hstrings]
    cases l <;> rfl

/-- What is between the first state and the last one is between two that follow each other. -/
theorem Run.trans (hgood : st.Good) (h : Run σ st ls st') (h' : Run τ st' ls' st'') :
    Run (σ.append τ) st (ls ++ ls') st'' where
  count_le := Nat.le_trans h.count_le h'.count_le
  strings_le := Nat.le_trans h.strings_le h'.strings_le
  asks := by
    have hle := h.count_le
    have hle' := h'.count_le
    rcases h'.asks with hsame | ⟨hnone, n, hlow, hhigh, hask⟩
    · rcases h.asks with hsame' | ⟨hnone, n, hlow, hhigh, hask⟩
      · exact .inl (hsame.trans hsame')
      · exact .inr ⟨hnone, n, hlow, by omega, hsame.trans hask⟩
    · rcases h.asks with hsame' | ⟨-, m, -, -, hask'⟩
      · exact .inr ⟨hsame' ▸ hnone, n, by omega, hhigh, hask⟩
      · rw [hnone] at hask'
        cases hask'
  count_eq := by
    intro l
    have hle := h.count_le
    have hle' := h'.count_le
    have hles := h.strings_le
    have hles' := h'.strings_le
    rw [List.count_append, h.count_eq, h'.count_eq]
    cases l with
    | function f | global x | globalSkip x | goto j l => exact (List.count_append).symm
    | routine r | callocHave | callocPointer => rfl
    | string n | stringSkip n =>
        simp only [Summary.times]
        split_ifs <;> omega
    | numbered n =>
        have hgood' := h.good hgood n
        have hlater : st''.loop = .atNeed (some n) →
            st'.loop = .atNeed (some n) ∨ st'.count ≤ n := by
          intro hn
          rcases h'.asks with hsame | ⟨-, m, hlow, -, hask⟩
          · exact .inl (hsame ▸ hn)
          · rw [hn] at hask
            cases hask
            exact .inr hlow
        have hstays : st'.loop = .atNeed (some n) → st''.loop = .atNeed (some n) := by
          intro hn
          rcases h'.asks with hsame | ⟨hnone, -⟩
          · exact hsame.trans hn
          · rw [hn] at hnone
            cases hnone
        simp only [Summary.times, Summary.append, List.count_append]
        by_cases hask : st'.loop = .atNeed (some n)
        · have hlt := hgood' hask
          rw [if_neg (by simp [hask]), if_neg (by omega), if_neg (by simp [hstays hask])]
          omega
        · by_cases hask' : st''.loop = .atNeed (some n)
          · have hge := (hlater hask').resolve_left hask
            rw [if_neg (by omega), if_neg (by simp [hask']), if_neg (by simp [hask'])]
            omega
          · simp only [hask, hask', ne_eq, not_false_eq_true, and_true]
            split_ifs <;> omega

theorem Emits.Does.then (ha : a.Does k σ) (hb : b.Does k τ) : (a.then b).Does k (σ.append τ) := by
  intro st ls st' hgood hk hrun
  obtain ⟨⟨ls₁, st₁⟩, h₁, hrun⟩ := Option.bind_eq_some_iff.mp hrun
  obtain ⟨⟨ls₂, st₂⟩, h₂, heq⟩ := Option.map_eq_some_iff.mp hrun
  cases heq
  obtain ⟨hrun₁, hk₁⟩ := ha st ls₁ st₁ hgood hk h₁
  obtain ⟨hrun₂, hk₂⟩ := hb st₁ ls₂ st₂ (hrun₁.good hgood) hk₁ h₂
  exact ⟨hrun₁.trans hgood hrun₂, hk₂⟩

/-- A number that is taken, and what defines it. -/
theorem does_newlbl {e : ℕ → Emits} {gotos : List Name} {own : List ℕ} {own' : ℕ → List ℕ}
    (h : ∀ n, (e n).Does k (summary k gotos (own' n))) (hperm : ∀ n, (own' n).Perm (n :: own)) :
    (newlbl e).Does k (summary k gotos own) := by
  intro st ls st' hgood hk hrun
  by_cases hmax : 1000000000 ≤ st.count
  · rw [newlbl, if_pos hmax] at hrun
    cases hrun
  · rw [newlbl, if_neg hmax] at hrun
    have hgood' : State.Good { st with count := st.count + 1 } :=
      fun n hn => Nat.lt_succ_of_lt (hgood n hn)
    obtain ⟨hbody, hk'⟩ := h st.count _ ls st' hgood' hk hrun
    have hle : st.count + 1 ≤ st'.count := hbody.count_le
    refine ⟨⟨by omega, hbody.strings_le, ?_, ?_⟩, hk'⟩
    · rcases hbody.asks with hsame | ⟨hnone, n, hlow, hhigh, hask⟩
      · exact .inl hsame
      · have hlow' : st.count + 1 ≤ n := hlow
        exact .inr ⟨hnone, n, by omega, hhigh, hask⟩
    · intro l
      rw [hbody.count_eq]
      cases l with
      | numbered n =>
          have hnot : st'.loop ≠ .atNeed (some st.count) := by
            intro hask
            rcases hbody.asks with hsame | ⟨-, m, hlow, -, hask'⟩
            · exact Nat.lt_irrefl _ (hgood st.count (hsame ▸ hask))
            · rw [hask] at hask'
              cases hask'
              exact Nat.not_succ_le_self _ hlow
          simp only [Summary.times, summary, (hperm st.count).count_eq, List.count_cons, beq_iff_eq]
          by_cases heq : st.count = n
          · subst heq
            rw [if_neg (by omega), if_pos rfl, if_pos ⟨Nat.le_refl _, by omega, hnot⟩]
            omega
          · rw [if_neg heq]
            by_cases hask : st'.loop = .atNeed (some n)
            · rw [if_neg (fun h => h.2.2 hask), if_neg (fun h => h.2.2 hask)]
              omega
            · simp only [hask, ne_eq, not_false_eq_true, and_true]
              split_ifs <;> omega
      | _ => rfl

theorem does_skip (k : ℕ) : skip.Does k (summary k [] []) := by
  intro st ls st' _ hk hrun
  cases hrun
  exact ⟨.same (by rfl) (by rfl) (by rfl) k, hk⟩

/-- The label of a number that was taken before. -/
theorem does_numbered (k n : ℕ) : (emit (.numbered n)).Does k (summary k [] [n]) := by
  intro st ls st' _ hk hrun
  cases hrun
  refine ⟨⟨Nat.le_refl _, Nat.le_refl _, .inl rfl, fun l => ?_⟩, hk⟩
  rw [Summary.times_same _ rfl rfl]
  cases l with
  | numbered m => simp [summary, List.count_singleton]
  | _ => rfl

theorem does_emitstrlit (k : ℕ) : emitstrlit.Does k (summary k [] []) := by
  intro st ls st' _ hk hrun
  cases hrun
  refine ⟨⟨Nat.le_refl _, Nat.le_succ _, .inl rfl, fun l => ?_⟩, hk⟩
  cases l with
  | numbered m =>
      simp only [Summary.times]
      rw [if_neg (by omega)]
      rfl
  | string m | stringSkip m =>
      simp only [Summary.times, List.count_cons, List.count_nil]
      by_cases hm : st.strings = m
      · subst hm
        simp
      · simp [hm]
        omega
  | _ => rfl

theorem does_goto (k : ℕ) (l : Name) :
    Emits.Does (fun st => some ([.goto st.function l], st)) k (summary k [l] []) := by
  intro st ls st' _ hk hrun
  cases hrun
  subst hk
  refine ⟨⟨Nat.le_refl _, Nat.le_refl _, .inl rfl, fun l' => ?_⟩, rfl⟩
  rw [Summary.times_same _ rfl rfl]
  cases l' with
  | goto j m => simp [summary, List.count_singleton]
  | _ => rfl

theorem Expr.does (k : ℕ) : ∀ e : Expr, e.emits.Does k (summary k [] [])
  | .plain => does_skip k
  | .string => does_emitstrlit k
  | .call f args => by
      have hcall : Emits.Does (fun st => some ([], { st with called := f :: st.called })) k
          (summary k [] []) := by
        intro st ls st' _ hk hrun
        cases hrun
        exact ⟨.same (by rfl) (by rfl) (by rfl) k, hk⟩
      exact (args.does k).then hcall
  | .both a b => (a.does k).then (b.does k)
  | .short a b => by
      have hbody := fun n => (b.does k).then (does_numbered k n)
      exact (a.does k).then (does_newlbl hbody fun _ => .refl _)

theorem does_dobreak (k : ℕ) : dobreak.Does k (summary k [] []) := by
  intro st ls st' _ hk hrun
  by_cases hloop : st.loop = .outside
  · rw [dobreak, if_pos hloop] at hrun
    cases hrun
  · rw [dobreak, if_neg hloop] at hrun
    cases hrun
    exact ⟨.same (by rfl) (by rfl) (by rfl) k, hk⟩

/-- At the first `continue` of a `do` a number is taken that is defined behind the body. -/
theorem does_docontinue (k : ℕ) : docontinue.Does k (summary k [] []) := by
  intro st ls st' _ hk hrun
  rw [docontinue.eq_def] at hrun
  cases hloop : st.loop with
  | outside =>
      rw [hloop] at hrun
      cases hrun
  | given =>
      rw [hloop] at hrun
      cases hrun
      exact ⟨.same (by rfl) (by rfl) (by rfl) k, hk⟩
  | atNeed label =>
      rw [hloop] at hrun
      cases label with
      | some n =>
          cases hrun
          exact ⟨.same (by rfl) (by rfl) (by rfl) k, hk⟩
      | none =>
          by_cases hmax : 1000000000 ≤ st.count
          · rw [newlbl, if_pos hmax] at hrun
            cases hrun
          · rw [newlbl, if_neg hmax] at hrun
            cases hrun
            refine ⟨⟨Nat.le_succ _, Nat.le_refl _, ?_, fun l => ?_⟩, hk⟩
            · exact .inr ⟨hloop, st.count, Nat.le_refl _, Nat.lt_succ_self _, rfl⟩
            · cases l with
              | numbered m =>
                  have hnot : ¬ (st.count ≤ m ∧ m < st.count + 1 ∧
                      Loop.atNeed (some st.count) ≠ .atNeed (some m)) := by
                    rintro ⟨hlow, hhigh, hne⟩
                    exact hne (by rw [Nat.le_antisymm hlow (Nat.le_of_lt_succ hhigh)])
                  simp only [Summary.times]
                  rw [if_neg hnot]
                  rfl
              | string m | stringSkip m =>
                  simp only [Summary.times]
                  rw [if_neg (by omega)]
                  rfl
              | _ => rfl

/-- A loop whose label is there from the start or is defined behind its body. -/
theorem does_inLoop (loop : Loop) {gotos : List Name} {body : Emits}
    (hloop : ∀ n, loop ≠ .atNeed (some n)) (h : body.Does k (summary k gotos [])) :
    (inLoop loop body).Does k (summary k gotos []) := by
  intro st ls st' hgood hk hrun
  obtain ⟨⟨ls₁, st₁⟩, h₁, heq⟩ := Option.map_eq_some_iff.mp hrun
  obtain ⟨hbody, hk₁⟩ := h { st with loop := loop } ls₁ st₁
    (fun n hn => absurd hn (hloop n)) hk h₁
  have hle : st.count ≤ st₁.count := hbody.count_le
  have hnot : ∀ n, st.count ≤ n → st.loop ≠ .atNeed (some n) :=
    fun n hlow hn => Nat.not_lt.mpr hlow (hgood n hn)
  by_cases hasked : ∃ n, st₁.loop = .atNeed (some n)
  · obtain ⟨n, hn⟩ := hasked
    have htaken : st.count ≤ n ∧ n < st₁.count := by
      rcases hbody.asks with hsame | ⟨-, m, hlow, hhigh, hask⟩
      · exact absurd (hsame.symm.trans hn) (hloop n)
      · rw [hn] at hask
        cases hask
        exact ⟨hlow, hhigh⟩
    simp only [hn] at heq
    cases heq
    refine ⟨⟨hle, hbody.strings_le, .inl rfl, fun l => ?_⟩, hk₁⟩
    rw [List.count_append, hbody.count_eq, List.count_singleton]
    cases l with
    | numbered m =>
        simp only [Summary.times, summary, List.count_nil, Nat.add_zero, hn]
        by_cases hm : n = m
        · subst hm
          rw [if_neg (by simp), if_pos (by simp), if_pos ⟨htaken.1, htaken.2, hnot n htaken.1⟩]
        · by_cases hin : st.count ≤ m ∧ m < st₁.count
          · rw [if_pos ⟨hin.1, hin.2, by simp [hm]⟩, if_neg (by simp [hm]),
              if_pos ⟨hin.1, hin.2, hnot m hin.1⟩]
          · rw [if_neg (fun h => hin ⟨h.1, h.2.1⟩), if_neg (by simp [hm]),
              if_neg (fun h => hin ⟨h.1, h.2.1⟩)]
    | _ => rfl
  · have hnone : ∀ n, st₁.loop ≠ .atNeed (some n) := fun n hn => hasked ⟨n, hn⟩
    have hend : ls₁ = ls ∧ { st₁ with loop := st.loop } = st' := by
      cases hl : st₁.loop with
      | atNeed label =>
          cases label with
          | some n => exact absurd hl (hnone n)
          | none =>
              simp only [hl] at heq
              cases heq
              exact ⟨rfl, rfl⟩
      | _ =>
          simp only [hl] at heq
          cases heq
          exact ⟨rfl, rfl⟩
    obtain ⟨rfl, rfl⟩ := hend
    refine ⟨⟨hle, hbody.strings_le, .inl rfl, fun l => ?_⟩, hk₁⟩
    rw [hbody.count_eq]
    cases l with
    | numbered m =>
        simp only [Summary.times, summary, List.count_nil, Nat.add_zero]
        by_cases hin : st.count ≤ m ∧ m < st₁.count
        · rw [if_pos ⟨hin.1, hin.2, hnone m⟩, if_pos ⟨hin.1, hin.2, hnot m hin.1⟩]
        · rw [if_neg (fun h => hin ⟨h.1, h.2.1⟩), if_neg (fun h => hin ⟨h.1, h.2.1⟩)]
    | _ => rfl

theorem Stmt.does (k : ℕ) : ∀ s : Stmt, s.emits.Does k (summary k s.gotos [])
  | .expr e => e.does k
  | .label l => does_goto k l
  | .seq a b => summary_append a.gotos b.gotos [] [] ▸ (a.does k).then (b.does k)
  | .block s => s.does k
  | .ifThen c a => by
      have hbody := fun n => (a.does k).then (does_numbered k n)
      simp only [summary_append, List.append_nil, List.nil_append] at hbody
      have hall := (c.does k).then (does_newlbl hbody fun _ => .refl _)
      rwa [summary_append] at hall
  | .ifElse c a b => by
      have hinner := fun n m => (does_numbered k n).then ((b.does k).then (does_numbered k m))
      simp only [summary_append, List.append_nil, List.nil_append] at hinner
      have helse := fun n => (a.does k).then
        (does_newlbl (hinner n) fun m => List.Perm.swap m n [])
      simp only [summary_append, List.nil_append] at helse
      have hall := (c.does k).then (does_newlbl helse fun _ => .refl _)
      rwa [summary_append] at hall
  | .while c s => by
      have hbody := fun m => (does_inLoop .given nofun (s.does k)).then (does_numbered k m)
      simp only [summary_append, List.append_nil, List.nil_append] at hbody
      have htop := fun n => (does_numbered k n).then
        ((c.does k).then (does_newlbl hbody fun _ => .refl _))
      simp only [summary_append, List.append_nil, List.nil_append] at htop
      exact does_newlbl htop fun _ => .refl _
  | .doWhile s c => by
      have hbody := fun m => (does_inLoop (.atNeed none) nofun (s.does k)).then
        ((c.does k).then (does_numbered k m))
      simp only [summary_append, List.append_nil, List.nil_append] at hbody
      have htop := fun n => (does_numbered k n).then (does_newlbl hbody fun _ => .refl _)
      simp only [summary_append, List.append_nil, List.nil_append] at htop
      exact does_newlbl htop fun _ => .refl _
  | .for init cond step s => by
      have hbody := fun top exit next body => (does_numbered k top).then <| (cond.does k).then <|
        (does_numbered k next).then <| (step.does k).then <| (does_numbered k body).then <|
          (does_inLoop .given nofun (s.does k)).then (does_numbered k exit)
      simp only [summary_append, List.append_nil, List.nil_append, List.cons_append] at hbody
      have hfour := fun top exit next => does_newlbl (hbody top exit next)
        fun body => @List.perm_middle ℕ body [top, next] [exit]
      have hthree := fun top exit => does_newlbl (hfour top exit)
        fun next => @List.perm_middle ℕ next [top] [exit]
      have htwo := fun top => does_newlbl (hthree top) fun exit => @List.perm_middle ℕ exit [top] []
      have hall := (init.does k).then (does_newlbl htwo fun _ => .refl _)
      rwa [summary_append] at hall
  | .break => does_dobreak k
  | .continue => does_docontinue k

theorem State.good_of_outside (h : st.loop = .outside) : st.Good := by
  intro n hn
  rw [h] at hn
  cases hn

/-- The definitions, of which `k` functions have come before. -/
def whole (k : ℕ) (ds : List Definition) : Summary := ⟨functions ds, globals ds, gotosFrom k ds, []⟩

theorem definitions_run : ∀ (ds : List Definition) {st : State} {ls : List Label} {st' : State},
    st.loop = .outside → definitions ds st = some (ls, st') →
      Run (whole st.function ds) st ls st' ∧ st'.loop = .outside
  | [], st, ls, st', hloop, hrun => by
      cases hrun
      exact ⟨.same (by rfl) (by rfl) (by rfl) st.function, hloop⟩
  | .global x :: ds, st, ls, st', hloop, hrun => by
      obtain ⟨⟨ls₂, st₂⟩, h₂, heq⟩ := Option.map_eq_some_iff.mp hrun
      cases heq
      obtain ⟨hrest, hend⟩ := definitions_run ds hloop h₂
      have hfirst : Run ⟨[], [x], [], []⟩ st [.global x, .globalSkip x] st :=
        ⟨Nat.le_refl _, Nat.le_refl _, .inl rfl, fun l => by
          rw [Summary.times_same _ rfl rfl]
          cases l with
          | global y | globalSkip y => simp [List.count_cons]
          | _ => rfl⟩
      exact ⟨hfirst.trans (State.good_of_outside hloop) hrest, hend⟩
  | .function f body :: ds, st, ls, st', hloop, hrun => by
      obtain ⟨⟨ls₁, st₁⟩, h₁, hrun⟩ := Option.bind_eq_some_iff.mp hrun
      obtain ⟨⟨ls₂, st₂⟩, h₂, heq⟩ := Option.map_eq_some_iff.mp hrun
      cases heq
      obtain ⟨⟨ls₃, st₃⟩, h₃, heq⟩ := Option.map_eq_some_iff.mp h₁
      cases heq
      have hloop' : ({ st with function := st.function + 1 } : State).loop = .outside := hloop
      obtain ⟨hbody, hk⟩ := does_inLoop .outside nofun (body.does (st.function + 1))
        _ ls₃ st₃ (State.good_of_outside hloop') rfl h₃
      have hloop₃ : st₃.loop = .outside := by
        rcases hbody.asks with hsame | ⟨hnone, -⟩
        · exact hsame.trans hloop
        · rw [hloop'] at hnone
          cases hnone
      obtain ⟨hrest, hend⟩ := definitions_run ds hloop₃ h₂
      rw [hk] at hrest
      have hfirst : Run ⟨[f], [], body.gotos.map fun l => (st.function + 1, l), []⟩ st
          (.function f :: ls₃) st₃ :=
        ⟨hbody.count_le, hbody.strings_le, hbody.asks, fun l => by
          rw [List.count_cons, hbody.count_eq]
          cases l with
          | function g => simp [Summary.times, summary, List.count_cons]
          | _ => rfl⟩
      exact ⟨hfirst.trans (State.good_of_outside hloop) hrest, hend⟩

end Veron.PicoC.Labels
