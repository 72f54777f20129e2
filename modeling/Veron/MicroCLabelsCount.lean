/-
How often each label is emitted, by what the translation unit holds.
-/
import Mathlib.Data.List.Count
import Mathlib.Data.List.Nodup
import Veron.MicroCLabels

namespace Veron.MicroC.Labels

mutual

/-- The names of the labels of a statement. -/
def Stmt.gotos : Stmt → List Name
  | .expr _ => []
  | .static _ => []
  | .label l => [l]
  | .seq a b => a.gotos ++ b.gotos
  | .ite _ a b => a.gotos ++ b.gotos
  | .switch _ body => body.gotos
  | .doWhile s _ => s.gotos
  | .while _ s => s.gotos
  | .for _ _ _ s => s.gotos

def Items.gotos : Items → List Name
  | .done => []
  | .label l rest => l :: rest.gotos
  | .case _ s rest => s.gotos ++ rest.gotos
  | .default s rest => s.gotos ++ rest.gotos

end

mutual

/-- The static variables of a statement. -/
def Stmt.statics : Stmt → List Variable
  | .expr _ => []
  | .static v => [v]
  | .label _ => []
  | .seq a b => a.statics ++ b.statics
  | .ite _ a b => a.statics ++ b.statics
  | .switch _ body => body.statics
  | .doWhile s _ => s.statics
  | .while _ s => s.statics
  | .for _ _ _ s => s.statics

def Items.statics : Items → List Variable
  | .done => []
  | .label _ rest => rest.statics
  | .case _ s rest => s.statics ++ rest.statics
  | .default s rest => s.statics ++ rest.statics

end

/-- The cases of a `switch` by the low 32 bits of their values, and its defaults. -/
def Items.marks : Items → List (Option ℕ)
  | .done => []
  | .label _ rest => rest.marks
  | .case value _ rest => some (unsigned value) :: rest.marks
  | .default _ rest => none :: rest.marks

mutual

/-- No two cases of a `switch` agree in their low 32 bits, and none has two defaults. -/
def Stmt.Distinct : Stmt → Prop
  | .expr _ => True
  | .static _ => True
  | .label _ => True
  | .seq a b => a.Distinct ∧ b.Distinct
  | .ite _ a b => a.Distinct ∧ b.Distinct
  | .switch _ body => body.marks.Nodup ∧ body.Distinct
  | .doWhile s _ => s.Distinct
  | .while _ s => s.Distinct
  | .for _ _ _ s => s.Distinct

def Items.Distinct : Items → Prop
  | .done => True
  | .label _ rest => rest.Distinct
  | .case _ s rest => s.Distinct ∧ rest.Distinct
  | .default s rest => s.Distinct ∧ rest.Distinct

end

/-- The loops' labels that read like one with a longer name. -/
def longer : List (Part × Name × Part) :=
  [(.forLoop, ['I', 'T', 'E', 'R', '_'], .forIter), (.forLoop, ['T', 'H', 'E', 'N', '_'], .forThen),
    (.forLoop, ['E', 'N', 'D', '_'], .forEnd), (.doLoop, ['T', 'E', 'S', 'T', '_'], .doTest),
    (.doLoop, ['E', 'N', 'D', '_'], .doEnd)]

/-- Each as often as the label of its loop. -/
def Even (c : Part → ℕ) : Prop := ∀ t ∈ longer, c t.2.2 = c t.1

instance (c : Part → ℕ) : Decidable (Even c) :=
  inferInstanceAs (Decidable (∀ t ∈ longer, c t.2.2 = c t.1))

/-- What decides how often something emits each label; `own` are its labels with the number of
what it is part of. -/
structure Summary where
  own : List Part
  gotos : List Name
  objects : List Name
  arrays : List Name
  texts : ℕ
  distinct : Prop

def Summary.empty : Summary := ⟨[], [], [], [], 0, True⟩

def Summary.append (σ τ : Summary) : Summary where
  own := σ.own ++ τ.own
  gotos := σ.gotos ++ τ.gotos
  objects := σ.objects ++ τ.objects
  arrays := σ.arrays ++ τ.arrays
  texts := σ.texts + τ.texts
  distinct := σ.distinct ∧ τ.distinct

/-- The number `n` is not one that is given out from these counters on. -/
def Emits.Spares (e : Emits) (n : ℕ) (st : Counters) : Prop :=
  n < st.count ∨ (e st).2.count ≤ n

/-- In a function `f`, inside of what has the number `n`. -/
structure Emits.Does (e : Emits) (f : Name) (n : ℕ) (σ : Summary) : Prop where
  count_le : ∀ st, st.count ≤ (e st).2.count
  globalCount : ∀ st, (e st).2.globalCount = st.globalCount + σ.texts
  function : ∀ st g, (e st).1.count (.function g) = 0
  goto : ∀ st l g, (e st).1.count (.goto l g) = if g = f then σ.gotos.count l else 0
  global : ∀ st x, (e st).1.count (.global x) = σ.objects.count x
  storage : ∀ st x, (e st).1.count (.storage x) = σ.arrays.count x
  contents : ∀ st k, (e st).1.count (.contents k) =
    if st.globalCount ≤ k ∧ k < st.globalCount + σ.texts then 1 else 0
  string : ∀ st g k, (e st).1.count (.string g k) = 0 ∨
    (e st).1.count (.string g k) = 1 ∧ g = f ∧ st.count ≤ k ∧ k < (e st).2.count
  own : ∀ st, e.Spares n st → ∀ p, (e st).1.count (.part p f n) = σ.own.count p
  other : ∀ st, e.Spares n st → ∀ p g k, (g = f → k ≠ n) → (e st).1.count (.part p g k) = 0 ∨
    g = f ∧ st.count ≤ k ∧ k < (e st).2.count
  distinct : ∀ st, e.Spares n st →
    ((∀ p k, k ≠ n → (e st).1.count (.part p f k) ≤ 1) ↔ σ.distinct)
  even : ∀ st, e.Spares n st → ∀ k, k ≠ n → Even fun p => (e st).1.count (.part p f k)

variable {f : Name} {n : ℕ} {σ τ : Summary} {a b : Emits}

theorem count_singleton_of_ne {l l' : Label} (h : l ≠ l') : [l].count l' = 0 :=
  List.count_eq_zero.mpr fun hin => h (List.mem_singleton.mp hin).symm

/-- A label by itself. -/
theorem does_emit {l : Label} (hown : σ.texts = 0 ∧ σ.distinct)
    (hfunction : ∀ g, l ≠ .function g) (hstring : ∀ g k, l ≠ .string g k)
    (hcontents : ∀ k, l ≠ .contents k)
    (hgoto : ∀ l' g, [l].count (.goto l' g) = if g = f then σ.gotos.count l' else 0)
    (hglobal : ∀ x, [l].count (.global x) = σ.objects.count x)
    (hstorage : ∀ x, [l].count (.storage x) = σ.arrays.count x)
    (hpart : ∀ p g k, [l].count (.part p g k) = if g = f ∧ k = n then σ.own.count p else 0) :
    (emit l).Does f n σ where
  count_le := fun _ => Nat.le_refl _
  globalCount := fun st => by
    rw [hown.1]
    rfl
  function := fun _ g => count_singleton_of_ne (hfunction g)
  goto := fun _ => hgoto
  global := fun _ => hglobal
  storage := fun _ => hstorage
  contents := fun st k => by
    rw [if_neg (by omega)]
    exact count_singleton_of_ne (hcontents k)
  string := fun _ g k => .inl (count_singleton_of_ne (hstring g k))
  own := fun _ _ p => (hpart p f n).trans (if_pos ⟨rfl, rfl⟩)
  other := fun _ _ p g k hne => by
    left
    refine (hpart p g k).trans (if_neg ?_)
    rintro ⟨hg, hk⟩
    exact hne hg hk
  distinct := fun st _ => by
    refine ⟨fun _ => hown.2, fun _ p k hne => ?_⟩
    have hzero : [l].count (.part p f k) = 0 := (hpart p f k).trans (if_neg fun h => hne h.2)
    exact Nat.le_trans (Nat.le_of_eq hzero) (Nat.zero_le 1)
  even := fun _ _ k hne t _ => by
    have hzero (p : Part) := (hpart p f k).trans (if_neg fun h => hne h.2)
    exact (hzero t.2.2).trans (hzero t.1).symm

theorem does_skip (f : Name) (n : ℕ) : skip.Does f n .empty where
  count_le := fun _ => Nat.le_refl _
  globalCount := fun _ => rfl
  function := fun _ _ => rfl
  goto := fun _ _ _ => (ite_self 0).symm
  global := fun _ _ => rfl
  storage := fun _ _ => rfl
  contents := fun st k => by
    have hnone : ¬ (st.globalCount ≤ k ∧ k < st.globalCount + Summary.empty.texts) := by
      rintro ⟨hle, hlt⟩
      exact absurd hlt (Nat.not_lt.mpr hle)
    rw [if_neg hnone]
    rfl
  string := fun _ _ _ => .inl rfl
  own := fun _ _ _ => rfl
  other := fun _ _ _ _ _ _ => .inl rfl
  distinct := fun _ _ => ⟨fun _ => trivial, fun _ _ _ _ => Nat.zero_le 1⟩
  even := fun _ _ _ _ _ _ => rfl

theorem does_goto (f l : Name) (n : ℕ) :
    (emit (.goto l f)).Does f n { Summary.empty with gotos := [l] } := by
  refine does_emit ⟨rfl, trivial⟩ nofun nofun nofun (fun l' g => ?_) (fun _ => rfl) (fun _ => rfl)
    fun _ _ _ => (ite_self 0).symm
  by_cases hg : g = f
  · subst hg
    simp [List.count_singleton]
  · rw [if_neg hg]
    exact count_singleton_of_ne fun heq => hg (Label.goto.inj heq).2.symm

theorem does_part (p : Part) (f : Name) (n : ℕ) :
    (emit (.part p f n)).Does f n { Summary.empty with own := [p] } := by
  refine does_emit ⟨rfl, trivial⟩ nofun nofun nofun (fun _ _ => (ite_self 0).symm) (fun _ => rfl)
    (fun _ => rfl) fun q g k => ?_
  by_cases hplace : g = f ∧ k = n
  · obtain ⟨rfl, rfl⟩ := hplace
    simp [List.count_singleton]
  · rw [if_neg hplace, List.count_singleton]
    simp only [beq_iff_eq, Label.part.injEq, ite_eq_right_iff]
    rintro ⟨-, rfl, rfl⟩
    exact absurd ⟨rfl, rfl⟩ hplace

theorem does_global (f x : Name) (n : ℕ) :
    (emit (.global x)).Does f n { Summary.empty with objects := [x] } := by
  refine does_emit ⟨rfl, trivial⟩ nofun nofun nofun (fun _ _ => (ite_self 0).symm)
    (fun y => ?_) (fun _ => rfl) fun _ _ _ => (ite_self 0).symm
  simp [List.count_singleton]

theorem does_storage (f x : Name) (n : ℕ) :
    (emit (.storage x)).Does f n { Summary.empty with arrays := [x] } := by
  refine does_emit ⟨rfl, trivial⟩ nofun nofun nofun (fun _ _ => (ite_self 0).symm)
    (fun _ => rfl) (fun y => ?_) fun _ _ _ => (ite_self 0).symm
  simp [List.count_singleton]

theorem Emits.Spares.of_then {st : Counters} (ha : a.Does f n σ) (hb : b.Does f n τ)
    (h : (a.then b).Spares n st) : a.Spares n st ∧ b.Spares n (a st).2 := by
  have hle := ha.count_le st
  have hle' := hb.count_le (a st).2
  rcases h with hlow | hhigh
  · exact ⟨.inl hlow, .inl (Nat.lt_of_lt_of_le hlow hle)⟩
  · exact ⟨.inr (Nat.le_trans hle' hhigh), .inr hhigh⟩

/-- One after the other. -/
theorem Emits.Does.then (ha : a.Does f n σ) (hb : b.Does f n τ) :
    (a.then b).Does f n (σ.append τ) where
  count_le := fun st => Nat.le_trans (ha.count_le st) (hb.count_le _)
  globalCount := fun st => by
    change (b (a st).2).2.globalCount = st.globalCount + (σ.texts + τ.texts)
    rw [hb.globalCount, ha.globalCount, Nat.add_assoc]
  function := fun st g => by
    change ((a st).1 ++ (b (a st).2).1).count _ = 0
    rw [List.count_append, ha.function, hb.function]
  goto := fun st l g => by
    change ((a st).1 ++ (b (a st).2).1).count _ =
      if g = f then (σ.gotos ++ τ.gotos).count l else 0
    rw [List.count_append, ha.goto, hb.goto, List.count_append]
    split <;> rfl
  global := fun st x => by
    change ((a st).1 ++ (b (a st).2).1).count _ = (σ.objects ++ τ.objects).count x
    rw [List.count_append, ha.global, hb.global, List.count_append]
  storage := fun st x => by
    change ((a st).1 ++ (b (a st).2).1).count _ = (σ.arrays ++ τ.arrays).count x
    rw [List.count_append, ha.storage, hb.storage, List.count_append]
  contents := fun st k => by
    change ((a st).1 ++ (b (a st).2).1).count _ =
      if st.globalCount ≤ k ∧ k < st.globalCount + (σ.texts + τ.texts) then 1 else 0
    rw [List.count_append, ha.contents, hb.contents, ha.globalCount]
    split_ifs <;> omega
  string := fun st g k => by
    change ((a st).1 ++ (b (a st).2).1).count _ = 0 ∨ ((a st).1 ++ (b (a st).2).1).count _ = 1 ∧
      g = f ∧ st.count ≤ k ∧ k < (b (a st).2).2.count
    rw [List.count_append]
    have hle := ha.count_le st
    have hle' := hb.count_le (a st).2
    rcases ha.string st g k with hza | ⟨hca, hg, hlow, hhigh⟩
    · rcases hb.string (a st).2 g k with hzb | ⟨hcb, hg, hlow, hhigh⟩
      · left
        omega
      · exact .inr ⟨by omega, hg, by omega, hhigh⟩
    · rcases hb.string (a st).2 g k with hzb | ⟨hcb, -, hlow', -⟩
      · exact .inr ⟨by omega, hg, hlow, by omega⟩
      · omega
  own := fun st hn p => by
    change ((a st).1 ++ (b (a st).2).1).count _ = (σ.own ++ τ.own).count p
    obtain ⟨hna, hnb⟩ := hn.of_then ha hb
    rw [List.count_append, ha.own st hna, hb.own _ hnb, List.count_append]
  other := fun st hn p g k hne => by
    change ((a st).1 ++ (b (a st).2).1).count _ = 0 ∨
      g = f ∧ st.count ≤ k ∧ k < (b (a st).2).2.count
    rw [List.count_append]
    have hle := ha.count_le st
    have hle' := hb.count_le (a st).2
    obtain ⟨hna, hnb⟩ := hn.of_then ha hb
    rcases ha.other st hna p g k hne with hza | ⟨hg, hlow, hhigh⟩
    · rcases hb.other (a st).2 hnb p g k hne with hzb | ⟨hg, hlow, hhigh⟩
      · left
        omega
      · exact .inr ⟨hg, by omega, hhigh⟩
    · exact .inr ⟨hg, hlow, by omega⟩
  distinct := fun st hn => by
    obtain ⟨hna, hnb⟩ := hn.of_then ha hb
    change (∀ p k, k ≠ n → ((a st).1 ++ (b (a st).2).1).count _ ≤ 1) ↔ σ.distinct ∧ τ.distinct
    rw [← ha.distinct st hna, ← hb.distinct _ hnb]
    simp only [List.count_append]
    constructor
    · intro h
      exact ⟨fun p k hk => Nat.le_trans (Nat.le_add_right _ _) (h p k hk),
        fun p k hk => Nat.le_trans (Nat.le_add_left _ _) (h p k hk)⟩
    · rintro ⟨h, h'⟩ p k hk
      have hone := h p k hk
      have hone' := h' p k hk
      -- The numbers of the two are apart.
      rcases ha.other st hna p f k fun _ => hk with hza | ⟨-, -, hhigh⟩
      · omega
      · rcases hb.other _ hnb p f k fun _ => hk with hzb | ⟨-, hlow, -⟩
        · omega
        · omega
  even := fun st hn k hk t ht => by
    obtain ⟨hna, hnb⟩ := hn.of_then ha hb
    have hevena := ha.even st hna k hk t ht
    have hevenb := hb.even _ hnb k hk t ht
    change ((a st).1 ++ (b (a st).2).1).count _ = ((a st).1 ++ (b (a st).2).1).count _
    rw [List.count_append, List.count_append]
    exact congrArg₂ (· + ·) hevena hevenb

theorem Emits.Spares.of_numbered {e : ℕ → Emits} {m : ℕ} {st : Counters}
    (hle : st.count + 1 ≤ (numbered e st).2.count) (hm : (numbered e).Spares m st) :
    m ≠ st.count ∧ ¬ (st.count + 1 ≤ m ∧ m < (numbered e st).2.count) := by
  rcases hm with hlow | hhigh
  · exact ⟨Nat.ne_of_lt hlow, fun h => Nat.lt_asymm hlow h.1⟩
  · exact ⟨Nat.ne_of_gt (Nat.lt_of_lt_of_le hle hhigh), fun h => Nat.not_lt.mpr hhigh h.2⟩

/-- What has a number of its own. -/
theorem does_numbered {e : ℕ → Emits} (h : ∀ n, (e n).Does f n σ)
    (heven : Even fun p => σ.own.count p) (m : ℕ) :
    (numbered e).Does f m { σ with own := [], distinct := σ.own.Nodup ∧ σ.distinct } where
  count_le := fun st =>
    Nat.le_of_succ_le ((h st.count).count_le { st with count := st.count + 1 })
  globalCount := fun st => (h st.count).globalCount _
  function := fun st => (h st.count).function _
  goto := fun st => (h st.count).goto _
  global := fun st => (h st.count).global _
  storage := fun st => (h st.count).storage _
  contents := fun st => (h st.count).contents _
  string := fun st g k => by
    rcases (h st.count).string { st with count := st.count + 1 } g k with
      hzero | ⟨hone, hg, hlow, hhigh⟩
    · exact .inl hzero
    · exact .inr ⟨hone, hg, Nat.le_of_succ_le hlow, hhigh⟩
  own := fun st hm p => by
    have hle := (h st.count).count_le { st with count := st.count + 1 }
    obtain ⟨hne, hout⟩ := hm.of_numbered hle
    have hother := (h st.count).other { st with count := st.count + 1 } (.inl (Nat.lt_succ_self _))
      p f m fun _ => hne
    exact hother.resolve_right fun hin => hout hin.2
  other := fun st hm p g k hne => by
    have hle := (h st.count).count_le { st with count := st.count + 1 }
    by_cases hown : g = f → k ≠ st.count
    · rcases (h st.count).other { st with count := st.count + 1 } (.inl (Nat.lt_succ_self _)) p g k
        hown with hzero | ⟨hg, hlow, hhigh⟩
      · exact .inl hzero
      · exact .inr ⟨hg, Nat.le_of_succ_le hlow, hhigh⟩
    · simp only [ne_eq, not_forall, not_not] at hown
      obtain ⟨hg, rfl⟩ := hown
      exact .inr ⟨hg, Nat.le_refl _, Nat.lt_of_succ_le hle⟩
  distinct := fun st hm => by
    have hle := (h st.count).count_le { st with count := st.count + 1 }
    have hlt : (e st.count).Spares st.count { st with count := st.count + 1 } :=
      .inl (Nat.lt_succ_self _)
    obtain ⟨hne, hout⟩ := hm.of_numbered hle
    have hown := (h st.count).own _ hlt
    have hdistinct := (h st.count).distinct _ hlt
    change (∀ p k, k ≠ m → (e st.count { st with count := st.count + 1 }).1.count _ ≤ 1) ↔
      σ.own.Nodup ∧ σ.distinct
    rw [← hdistinct, List.nodup_iff_count_le_one]
    constructor
    · intro hall
      refine ⟨fun p => ?_, fun p k hk => ?_⟩
      · rw [← hown]
        exact hall p st.count hne.symm
      · by_cases hkm : k = m
        · subst hkm
          have hzero := ((h st.count).other _ hlt p f k fun _ => hk).resolve_right
            fun hin => hout hin.2
          exact Nat.le_trans (Nat.le_of_eq hzero) (Nat.zero_le 1)
        · exact hall p k hkm
    · rintro ⟨hnodup, hrest⟩ p k -
      by_cases hk : k = st.count
      · rw [hk, hown]
        exact hnodup p
      · exact hrest p k hk
  even := fun st hm k hk t ht => by
    have hlt : (e st.count).Spares st.count { st with count := st.count + 1 } :=
      .inl (Nat.lt_succ_self _)
    have hown := (h st.count).own _ hlt
    change (e st.count { st with count := st.count + 1 }).1.count _ =
      (e st.count { st with count := st.count + 1 }).1.count _
    by_cases hkn : k = st.count
    · rw [hkn, hown, hown]
      exact heven t ht
    · exact (h st.count).even _ hlt k hkn t ht

theorem Emits.Does.cast (h : a.Does f n σ) (heq : σ = τ) : a.Does f n τ := heq ▸ h

theorem does_addString (f s : Name) (n : ℕ) : (addString f s).Does f n .empty := by
  have hcases (st : Counters) : addString f s st = ([], st) ∨ addString f s st =
      ([.string f st.count], { st with count := st.count + 1, strings := s :: st.strings }) := by
    rw [addString]
    split
    · exact .inl rfl
    · exact .inr rfl
  have hzero (st : Counters) {l : Label} (h : ∀ k, Label.string f k ≠ l) :
      (addString f s st).1.count l = 0 := by
    rcases hcases st with heq | heq <;> rw [heq]
    · rfl
    · exact count_singleton_of_ne (h _)
  refine ⟨fun st => ?_, fun st => ?_, fun st _ => hzero st nofun,
    fun st l g => (hzero st (l := .goto l g) nofun).trans (ite_self 0).symm,
    fun st _ => hzero st nofun, fun st _ => hzero st nofun, fun st k => ?_, fun st g k => ?_,
    fun st _ _ => hzero st nofun,
    fun st _ _ _ _ _ => .inl (hzero st nofun), fun st _ => ⟨fun _ => trivial, fun _ _ _ _ => ?_⟩,
    fun st _ k _ t _ => (hzero st (l := .part t.2.2 f k) nofun).trans
      (hzero st (l := .part t.1 f k) nofun).symm⟩
  · rcases hcases st with heq | heq
    · exact Nat.le_of_eq (by rw [heq])
    · have hcount : (addString f s st).2.count = st.count + 1 := by rw [heq]
      exact Nat.le_of_lt (Nat.lt_of_lt_of_eq (Nat.lt_succ_self _) hcount.symm)
  · rcases hcases st with heq | heq <;> rw [heq] <;> rfl
  · rw [hzero st (l := .contents k) nofun, if_neg]
    rintro ⟨hle, hlt⟩
    exact absurd hlt (Nat.not_lt.mpr hle)
  · rcases hcases st with heq | heq <;> rw [heq]
    · exact .inl rfl
    · by_cases hplace : g = f ∧ k = st.count
      · obtain ⟨rfl, rfl⟩ := hplace
        exact .inr ⟨List.count_singleton_self, rfl, Nat.le_refl _, Nat.lt_succ_self _⟩
      · left
        refine count_singleton_of_ne fun h => hplace ?_
        obtain ⟨hg, hk⟩ := Label.string.inj h
        exact ⟨hg.symm, hk.symm⟩
  · exact Nat.le_trans (Nat.le_of_eq (hzero st nofun)) (Nat.zero_le 1)

theorem Expr.does (f : Name) (e : Expr) (n : ℕ) : (e.emits f).Does f n .empty := by
  induction e generalizing n with
  | plain => exact does_skip f n
  | string s => exact does_addString f s n
  | func => exact does_addString f _ n
  | both a b iha ihb =>
      exact ((iha n).then (ihb n)).cast (by simp [Summary.append, Summary.empty])
  | short a b iha ihb =>
      have hnumbered := does_numbered (fun n => (ihb n).then <|
        (does_part .settled f n).then (does_part .shortEnd f n)) (by decide) n
      exact ((iha n).then hnumbered).cast (by simp [Summary.append, Summary.empty])
  | ternary c a b ihc iha ihb =>
      have hnumbered := does_numbered (fun n => (iha n).then <|
        (does_part .ternaryElse f n).then <| (ihb n).then (does_part .ternaryEnd f n)) (by decide) n
      exact ((ihc n).then hnumbered).cast (by simp [Summary.append, Summary.empty])

theorem does_contents (f : Name) (n : ℕ) :
    Emits.Does (fun st => ([.contents st.globalCount],
      { st with globalCount := st.globalCount + 1 })) f n { Summary.empty with texts := 1 } := by
  have hzero (k : ℕ) {l : Label} (h : ∀ k, Label.contents k ≠ l) : [Label.contents k].count l = 0 :=
    count_singleton_of_ne (h k)
  refine ⟨fun _ => Nat.le_refl _, fun _ => rfl, fun _ _ => hzero _ nofun,
    fun st l g => (hzero _ (l := .goto l g) nofun).trans (ite_self 0).symm,
    fun _ _ => hzero _ nofun, fun _ _ => hzero _ nofun, fun st k => ?_,
    fun _ _ _ => .inl (hzero _ nofun),
    fun _ _ _ => hzero _ nofun, fun _ _ _ _ _ _ => .inl (hzero _ nofun),
    fun _ _ => ⟨fun _ => trivial, fun _ _ _ _ => ?_⟩,
    fun _ _ k _ t _ => (hzero _ (l := .part t.2.2 f k) nofun).trans
      (hzero _ (l := .part t.1 f k) nofun).symm⟩
  · change [Label.contents st.globalCount].count _ =
      if st.globalCount ≤ k ∧ k < st.globalCount + 1 then 1 else 0
    by_cases hk : st.globalCount = k
    · rw [← hk, if_pos ⟨Nat.le_refl _, Nat.lt_succ_self _⟩]
      exact List.count_singleton_self
    · rw [if_neg (by omega)]
      exact count_singleton_of_ne fun h => hk (Label.contents.inj h)
  · exact Nat.le_trans (Nat.le_of_eq (hzero _ nofun)) (Nat.zero_le 1)

theorem does_emitTexts (f : Name) (n k : ℕ) :
    (emitTexts k).Does f n { Summary.empty with texts := k } := by
  induction k with
  | zero => exact does_skip f n
  | succ k ih =>
      exact ((does_contents f n).then ih).cast
        (by simp [Summary.append, Summary.empty, Nat.add_comm])

theorem Variable.does (f x : Name) (v : Variable) (n : ℕ) :
    (v.emits x).Does f n ⟨[], [], [x], if v.isArray then [x] else [], v.texts, True⟩ := by
  have harray : (if v.isArray then emit (.storage x) else skip).Does f n
      { Summary.empty with arrays := if v.isArray then [x] else [] } := by
    cases v.isArray with
    | false => exact does_skip f n
    | true => exact does_storage f x n
  exact ((does_global f x n).then <| harray.then (does_emitTexts f n v.texts)).cast
    (by simp [Summary.append, Summary.empty])

def markPart : Option ℕ → Part
  | none => .switchDefault
  | some value => .switchCase value

theorem markPart_injective : Function.Injective markPart := by
  intro a b h
  cases a <;> cases b <;> cases h <;> rfl

theorem even_marks (marks : List (Option ℕ)) :
    Even fun p => (marks.map markPart ++ [Part.switchTable, Part.switchEnd]).count p := by
  have hzero (p : Part) (hmark : ∀ mark, markPart mark ≠ p)
      (hends : p ∉ [Part.switchTable, Part.switchEnd]) :
      (marks.map markPart ++ [Part.switchTable, Part.switchEnd]).count p = 0 := by
    refine List.count_eq_zero.mpr fun hin => ?_
    rcases List.mem_append.mp hin with hin | hin
    · obtain ⟨mark, -, heq⟩ := List.mem_map.mp hin
      exact hmark mark heq
    · exact hends hin
  have hloop : ∀ t ∈ longer, ∀ mark, markPart mark ≠ t.2.2 ∧ markPart mark ≠ t.1 := by
    intro t ht mark
    simp only [longer, List.mem_cons, List.not_mem_nil, or_false] at ht
    rcases ht with rfl | rfl | rfl | rfl | rfl <;> cases mark <;> simp [markPart]
  have hends : ∀ t ∈ longer, t.2.2 ∉ [Part.switchTable, Part.switchEnd] ∧
      t.1 ∉ [Part.switchTable, Part.switchEnd] := by decide
  intro t ht
  exact (hzero t.2.2 (fun mark => (hloop t ht mark).1) (hends t ht).1).trans
    (hzero t.1 (fun mark => (hloop t ht mark).2) (hends t ht).2).symm

variable (max : ℕ)

/-- What static variables add to a summary. -/
def objectNames (f : Name) (vs : List Variable) : List Name := vs.map (staticName max f)

def arrayNames (f : Name) (vs : List Variable) : List Name :=
  (vs.filter Variable.isArray).map (staticName max f)

def textsOf : List Variable → ℕ
  | [] => 0
  | v :: vs => v.texts + textsOf vs

@[simp]
theorem textsOf_append (vs ws : List Variable) : textsOf (vs ++ ws) = textsOf vs + textsOf ws := by
  induction vs with
  | nil => exact (Nat.zero_add _).symm
  | cons v vs ih => rw [List.cons_append, textsOf, ih, textsOf, Nat.add_assoc]

def Stmt.summary (f : Name) (s : Stmt) : Summary :=
  ⟨[], s.gotos, objectNames max f s.statics, arrayNames max f s.statics, textsOf s.statics,
    s.Distinct⟩

def Items.summary (f : Name) (b : Items) : Summary :=
  ⟨b.marks.map markPart, b.gotos, objectNames max f b.statics, arrayNames max f b.statics,
    textsOf b.statics, b.Distinct⟩

/-- What a `switch`, a loop or an `if` adds is its number. -/
theorem numbered_summary (f : Name) (n : ℕ) (own : List Part) {e : ℕ → Emits} {gotos : List Name}
    {vs : List Variable} {distinct : Prop} (hown : own.Nodup)
    (heven : Even fun p => own.count p)
    (h : ∀ n, (e n).Does f n
      ⟨own, gotos, objectNames max f vs, arrayNames max f vs, textsOf vs, distinct⟩) :
    (numbered e).Does f n ⟨[], gotos, objectNames max f vs, arrayNames max f vs, textsOf vs,
      distinct⟩ :=
  (does_numbered h heven n).cast (by simp [hown])

mutual

theorem Stmt.does (f : Name) (s : Stmt) (n : ℕ) : (s.emits max f).Does f n (s.summary max f) := by
  match s with
  | .expr e => exact e.does f n
  | .static v =>
      refine (v.does f (staticName max f v) n).cast ?_
      cases harray : v.isArray <;>
        simp [Stmt.summary, Stmt.gotos, Stmt.statics, objectNames, arrayNames, textsOf, harray,
          Stmt.Distinct]
  | .label l => exact does_goto f l n
  | .seq a b =>
      refine ((Stmt.does f a n).then (Stmt.does f b n)).cast ?_
      simp [Summary.append, Stmt.summary, Stmt.gotos, Stmt.statics, objectNames, arrayNames,
        Stmt.Distinct]
  | .ite c a b =>
      rw [Stmt.emits]
      refine numbered_summary max f n [.ifElse, .ifEnd] (by decide) (by decide) fun n => ?_
      refine ((c.does f n).then <| (Stmt.does f a n).then <| (does_part .ifElse f n).then <|
        (Stmt.does f b n).then (does_part .ifEnd f n)).cast ?_
      simp [Summary.append, Summary.empty, Stmt.summary, Stmt.gotos, Stmt.statics, objectNames,
        arrayNames, Stmt.Distinct]
  | .switch e body =>
      rw [Stmt.emits]
      have hbody (n : ℕ) := (e.does f n).then <| (Items.does f n body).then <|
        (does_part .switchTable f n).then (does_part .switchEnd f n)
      refine (does_numbered hbody (even_marks body.marks) n).cast ?_
      have hown : (body.marks.map markPart ++ [Part.switchTable, Part.switchEnd]).Nodup ↔
          body.marks.Nodup := by
        have hmap := List.nodup_map_iff (l := body.marks) markPart_injective
        have hends : ∀ p ∈ body.marks.map markPart, p ≠ .switchTable ∧ p ≠ .switchEnd := by
          intro p hp
          obtain ⟨mark, -, rfl⟩ := List.mem_map.mp hp
          cases mark <;> exact ⟨nofun, nofun⟩
        rw [List.nodup_append', hmap]
        refine and_iff_left ⟨by decide, fun p hp hin => ?_⟩
        have hboth := hends p hp
        simp only [List.mem_cons, List.not_mem_nil, or_false] at hin
        rcases hin with rfl | rfl
        · exact hboth.1 rfl
        · exact hboth.2 rfl
      simp only [Summary.append, Summary.empty, Items.summary, Stmt.summary, Stmt.gotos,
        Stmt.statics, Stmt.Distinct, List.nil_append, List.append_nil, List.singleton_append,
        Nat.zero_add, Nat.add_zero, true_and, and_true, hown]
  | .doWhile s c =>
      rw [Stmt.emits]
      refine numbered_summary max f n [.doLoop, .doTest, .doEnd] (by decide) (by decide) fun n => ?_
      refine ((does_part .doLoop f n).then <| (Stmt.does f s n).then <|
        (does_part .doTest f n).then <| (c.does f n).then (does_part .doEnd f n)).cast ?_
      simp [Summary.append, Summary.empty, Stmt.summary, Stmt.gotos, Stmt.statics, Stmt.Distinct]
  | .while c s =>
      rw [Stmt.emits]
      refine numbered_summary max f n [.whileLoop, .whileEnd] (by decide) (by decide) fun n => ?_
      refine ((does_part .whileLoop f n).then <| (c.does f n).then <| (Stmt.does f s n).then
        (does_part .whileEnd f n)).cast ?_
      simp [Summary.append, Summary.empty, Stmt.summary, Stmt.gotos, Stmt.statics, Stmt.Distinct]
  | .for init cond iter s =>
      rw [Stmt.emits]
      refine numbered_summary max f n [.forLoop, .forIter, .forThen, .forEnd] (by decide)
        (by decide)
        fun n => ?_
      refine ((init.does f n).then <| (does_part .forLoop f n).then <| (cond.does f n).then <|
        (does_part .forIter f n).then <| (iter.does f n).then <| (does_part .forThen f n).then <|
          (Stmt.does f s n).then (does_part .forEnd f n)).cast ?_
      simp [Summary.append, Summary.empty, Stmt.summary, Stmt.gotos, Stmt.statics, Stmt.Distinct]

theorem Items.does (f : Name) (n : ℕ) (body : Items) :
    (body.emits max f n).Does f n (body.summary max f) := by
  match body with
  | .done => exact does_skip f n
  | .label l rest =>
      refine ((does_goto f l n).then (Items.does f n rest)).cast ?_
      simp [Summary.append, Summary.empty, Items.summary, Items.gotos, Items.statics, Items.marks,
        Items.Distinct]
  | .case value s rest =>
      refine ((does_part _ f n).then <| (Stmt.does f s n).then (Items.does f n rest)).cast ?_
      simp [Summary.append, Summary.empty, Stmt.summary, Items.summary, Items.gotos,
        Items.statics, Items.marks, objectNames, arrayNames, Items.Distinct, markPart]
  | .default s rest =>
      refine ((does_part _ f n).then <| (Stmt.does f s n).then (Items.does f n rest)).cast ?_
      simp [Summary.append, Summary.empty, Stmt.summary, Items.summary, Items.gotos,
        Items.statics, Items.marks, objectNames, arrayNames, Items.Distinct, markPart]

end

def functions (ds : List Definition) : List Name := ds.flatMap fun
  | .function f _ => [f]
  | _ => []

/-- The labels for `goto`, each with its function. -/
def gotos (ds : List Definition) : List (Name × Name) := ds.flatMap fun
  | .function f body => body.gotos.map (·, f)
  | _ => []

/-- The names of the global and static variables. -/
def objects (ds : List Definition) : List Name := ds.flatMap fun
  | .global v => [v.name]
  | .prototype _ => []
  | .function f body => objectNames max f body.statics

def arrays (ds : List Definition) : List Name := ds.flatMap fun
  | .global v => if v.isArray then [v.name] else []
  | .prototype _ => []
  | .function f body => arrayNames max f body.statics

def texts : List Definition → ℕ
  | [] => 0
  | .global v :: ds => v.texts + texts ds
  | .prototype _ :: ds => texts ds
  | .function _ body :: ds => textsOf body.statics + texts ds

def Definition.Distinct : Definition → Prop
  | .function _ body => body.Distinct
  | _ => True

theorem texts_append (ds es : List Definition) : texts (ds ++ es) = texts ds + texts es := by
  induction ds with
  | nil => exact (Nat.zero_add _).symm
  | cons d ds ih => cases d <;> simp only [List.cons_append, texts, ih, Nat.add_assoc]

/-- What definitions emit, whatever the counters are. -/
structure Emits.Holds (e : Emits) (ds : List Definition) : Prop where
  globalCount : ∀ st, (e st).2.globalCount = st.globalCount + texts ds
  function : ∀ st g, (e st).1.count (.function g) = (functions ds).count g
  goto : ∀ st l g, (e st).1.count (.goto l g) = (gotos ds).count (l, g)
  global : ∀ st x, (e st).1.count (.global x) = (objects max ds).count x
  storage : ∀ st x, (e st).1.count (.storage x) = (arrays max ds).count x
  contents : ∀ st k, (e st).1.count (.contents k) =
    if st.globalCount ≤ k ∧ k < st.globalCount + texts ds then 1 else 0
  string : ∀ st g k, g ∉ functions ds → (e st).1.count (.string g k) = 0
  part : ∀ st p g k, g ∉ functions ds → (e st).1.count (.part p g k) = 0
  stringOnce : (functions ds).Nodup → ∀ st g k, (e st).1.count (.string g k) ≤ 1
  partOnce : (functions ds).Nodup → ∀ st,
    (∀ p g k, (e st).1.count (.part p g k) ≤ 1) ↔ ∀ d ∈ ds, d.Distinct
  even : ∀ st g k, Even fun p => (e st).1.count (.part p g k)

theorem holds_skip : skip.Holds max [] where
  globalCount := fun _ => rfl
  function := fun _ _ => rfl
  goto := fun _ _ _ => rfl
  global := fun _ _ => rfl
  storage := fun _ _ => rfl
  contents := fun st k => by
    rw [if_neg]
    · rfl
    · rintro ⟨hle, hlt⟩
      exact absurd hlt (Nat.not_lt.mpr hle)
  string := fun _ _ _ _ => rfl
  part := fun _ _ _ _ _ => rfl
  stringOnce := fun _ _ _ _ => Nat.zero_le 1
  partOnce := fun _ _ => ⟨fun _ => nofun, fun _ _ _ _ => Nat.zero_le 1⟩
  even := fun _ _ _ _ _ => rfl

theorem Emits.Holds.then {ds es : List Definition} (ha : a.Holds max ds) (hb : b.Holds max es) :
    (a.then b).Holds max (ds ++ es) where
  globalCount := fun st => by
    change (b (a st).2).2.globalCount = _
    rw [hb.globalCount, ha.globalCount, texts_append, Nat.add_assoc]
  function := fun st g => by
    change ((a st).1 ++ (b (a st).2).1).count _ = _
    rw [List.count_append, ha.function, hb.function, functions, functions, functions,
      List.flatMap_append, List.count_append]
  goto := fun st l g => by
    change ((a st).1 ++ (b (a st).2).1).count _ = _
    rw [List.count_append, ha.goto, hb.goto, gotos, gotos, gotos, List.flatMap_append,
      List.count_append]
  global := fun st x => by
    change ((a st).1 ++ (b (a st).2).1).count _ = _
    rw [List.count_append, ha.global, hb.global, objects, objects, objects, List.flatMap_append,
      List.count_append]
  storage := fun st x => by
    change ((a st).1 ++ (b (a st).2).1).count _ = _
    rw [List.count_append, ha.storage, hb.storage, arrays, arrays, arrays, List.flatMap_append,
      List.count_append]
  contents := fun st k => by
    change ((a st).1 ++ (b (a st).2).1).count _ = _
    rw [List.count_append, ha.contents, hb.contents, ha.globalCount, texts_append]
    split_ifs <;> omega
  string := fun st g k hg => by
    change ((a st).1 ++ (b (a st).2).1).count _ = _
    rw [functions, List.flatMap_append, List.mem_append, not_or] at hg
    rw [List.count_append, ha.string st g k hg.1, hb.string _ g k hg.2]
  part := fun st p g k hg => by
    change ((a st).1 ++ (b (a st).2).1).count _ = _
    rw [functions, List.flatMap_append, List.mem_append, not_or] at hg
    rw [List.count_append, ha.part st p g k hg.1, hb.part _ p g k hg.2]
  stringOnce := fun hnodup st g k => by
    change ((a st).1 ++ (b (a st).2).1).count _ ≤ 1
    rw [functions, List.flatMap_append, List.nodup_append'] at hnodup
    obtain ⟨hnodupa, hnodupb, hdisjoint⟩ := hnodup
    rw [List.count_append]
    by_cases hg : g ∈ functions ds
    · rw [hb.string _ g k (hdisjoint hg)]
      exact ha.stringOnce hnodupa st g k
    · rw [ha.string st g k hg, Nat.zero_add]
      exact hb.stringOnce hnodupb _ g k
  partOnce := fun hnodup st => by
    rw [functions, List.flatMap_append, List.nodup_append'] at hnodup
    obtain ⟨hnodupa, hnodupb, hdisjoint⟩ := hnodup
    have hcount (p : Part) (g : Name) (k : ℕ) : ((a.then b) st).1.count (.part p g k) =
        (a st).1.count (.part p g k) + (b (a st).2).1.count (.part p g k) := List.count_append
    simp only [hcount, List.forall_mem_append]
    rw [← ha.partOnce hnodupa st, ← hb.partOnce hnodupb (a st).2]
    constructor
    · intro h
      exact ⟨fun p g k => Nat.le_trans (Nat.le_add_right _ _) (h p g k),
        fun p g k => Nat.le_trans (Nat.le_add_left _ _) (h p g k)⟩
    · rintro ⟨h, h'⟩ p g k
      by_cases hg : g ∈ functions ds
      · rw [hb.part _ p g k (hdisjoint hg)]
        exact h p g k
      · rw [ha.part st p g k hg, Nat.zero_add]
        exact h' p g k
  even := fun st g k t ht => by
    have hevena := ha.even st g k t ht
    have hevenb := hb.even (a st).2 g k t ht
    change ((a st).1 ++ (b (a st).2).1).count _ = ((a st).1 ++ (b (a st).2).1).count _
    rw [List.count_append, List.count_append]
    exact congrArg₂ (· + ·) hevena hevenb

theorem global_holds (v : Variable) : (v.emits v.name).Holds max [.global v] := by
  have hdoes := fun f n => v.does f v.name n
  -- A variable emits nothing for any function, so nothing for this one.
  have hother (g : Name) : g ≠ 'x' :: g := fun h =>
    absurd (congrArg List.length h) (Nat.ne_of_lt (Nat.lt_succ_self _))
  have hstring (st : Counters) (g : Name) (k : ℕ) :
      (v.emits v.name st).1.count (.string g k) = 0 :=
    ((hdoes ('x' :: g) 0).string st g k).resolve_right fun h => hother g h.2.1
  have hpart (st : Counters) (p : Part) (g : Name) (k : ℕ) :
      (v.emits v.name st).1.count (.part p g k) = 0 :=
    ((hdoes ('x' :: g) (v.emits v.name st).2.count).other st (.inr (Nat.le_refl _)) p g k
      fun h => absurd h (hother g)).resolve_right fun h => hother g h.1
  refine ⟨(hdoes [] 0).globalCount, (hdoes [] 0).function, fun st l g => ?_, (hdoes [] 0).global,
    fun st x => ?_, (hdoes [] 0).contents, fun st g k _ => hstring st g k,
    fun st p g k _ => hpart st p g k, fun _ st g k => ?_, fun _ st => ?_,
    fun st g k _ _ => (hpart st _ g k).trans (hpart st _ g k).symm⟩
  · exact ((hdoes [] 0).goto st l g).trans (ite_self 0)
  · rw [(hdoes [] 0).storage, arrays, List.flatMap_singleton]
  · exact Nat.le_trans (Nat.le_of_eq (hstring st g k)) (Nat.zero_le 1)
  · refine ⟨fun _ d hd => ?_, fun _ p g k =>
      Nat.le_trans (Nat.le_of_eq (hpart st p g k)) (Nat.zero_le 1)⟩
    rw [List.mem_singleton] at hd
    subst hd
    trivial

theorem function_holds (f : Name) (body : Stmt) :
    ((Definition.function f body).emits max).Holds max [.function f body] := by
  have hdoes := body.does max f
  have hcount (st : Counters) (l : Label) :
      (((Definition.function f body).emits max) st).1.count l =
      [Label.function f].count l + (body.emits max f { st with count := 0 }).1.count l :=
    List.count_append
  have hbody (st : Counters) (l : Label) (h : ∀ g, Label.function g ≠ l) :
      (((Definition.function f body).emits max) st).1.count l =
        (body.emits max f { st with count := 0 }).1.count l := by
    rw [hcount, count_singleton_of_ne (h f), Nat.zero_add]
  refine ⟨fun st => ?_, fun st g => ?_, fun st l g => ?_, fun st x => ?_, fun st x => ?_,
    fun st k => ?_, fun st g k hg => ?_, fun st p g k hg => ?_, fun _ st g k => ?_, fun _ st => ?_,
    fun st g k t ht => ?_⟩
  · exact (hdoes 0).globalCount _
  · rw [hcount, (hdoes 0).function, functions, List.flatMap_singleton, List.count_singleton,
      List.count_singleton]
    simp
  · refine (hbody st (.goto l g) nofun).trans ?_
    rw [(hdoes 0).goto, gotos, List.flatMap_singleton]
    by_cases hg : g = f
    · subst hg
      rw [if_pos rfl]
      exact (List.count_map_of_injective _ _ (fun _ _ h => (Prod.mk.inj h).1) l).symm
    · rw [if_neg hg]
      refine (List.count_eq_zero.mpr fun hin => hg ?_).symm
      obtain ⟨l', -, heq⟩ := List.mem_map.mp hin
      exact (Prod.mk.inj heq).2.symm
  · refine (hbody st (.global x) nofun).trans ?_
    rw [(hdoes 0).global, objects, List.flatMap_singleton]
    rfl
  · refine (hbody st (.storage x) nofun).trans ?_
    rw [(hdoes 0).storage, arrays, List.flatMap_singleton]
    rfl
  · refine (hbody st (.contents k) nofun).trans ?_
    rw [(hdoes 0).contents]
    rfl
  · refine (hbody st (.string g k) nofun).trans ?_
    refine ((hdoes 0).string _ g k).resolve_right fun h => hg ?_
    exact List.mem_singleton.mpr h.2.1
  · have hne : g ≠ f := fun h => hg (List.mem_singleton.mpr h)
    refine (hbody st (.part p g k) nofun).trans ?_
    exact ((hdoes _).other _ (.inr (Nat.le_refl _)) p g k fun h => absurd h hne).resolve_right
      fun h => hne h.1
  · rw [hbody st (.string g k) nofun]
    rcases (hdoes 0).string { st with count := 0 } g k with hzero | ⟨hone, -⟩
    · exact Nat.le_trans (Nat.le_of_eq hzero) (Nat.zero_le 1)
    · exact Nat.le_of_eq hone
  · have hspares : (body.emits max f).Spares (body.emits max f { st with count := 0 }).2.count
        { st with count := 0 } := .inr (Nat.le_refl _)
    have hdistinct := (hdoes _).distinct _ hspares
    have hparts (p : Part) (g : Name) (k : ℕ) := hbody st (.part p g k) nofun
    rw [List.forall_mem_singleton]
    change _ ↔ body.Distinct
    refine Iff.trans ?_ hdistinct
    simp only [hparts]
    refine ⟨fun h p k _ => h p f k, fun h p g k => ?_⟩
    by_cases hplace : g = f → k ≠ (body.emits max f { st with count := 0 }).2.count
    · by_cases hg : g = f
      · subst hg
        exact h p k (hplace rfl)
      · have hzero := ((hdoes _).other _ hspares p g k fun heq => absurd heq hg).resolve_right
          fun h => hg h.1
        exact Nat.le_trans (Nat.le_of_eq hzero) (Nat.zero_le 1)
    · simp only [ne_eq, not_forall, not_not] at hplace
      obtain ⟨rfl, rfl⟩ := hplace
      exact Nat.le_trans (Nat.le_of_eq ((hdoes _).own _ hspares p)) (Nat.zero_le 1)
  · have heven : Even fun p => (body.emits max f { st with count := 0 }).1.count (.part p g k) := by
      let final := (body.emits max f { st with count := 0 }).2.count
      by_cases hg : g = f
      · subst hg
        have hfinal : final ≤ k + final + 1 := by omega
        exact (hdoes (k + final + 1)).even _ (.inr hfinal) k (by omega)
      · have hzero (p : Part) := ((hdoes final).other { st with count := 0 }
          (.inr (Nat.le_refl _)) p g k fun heq => absurd heq hg).resolve_right fun h => hg h.1
        exact fun t _ => (hzero t.2.2).trans (hzero t.1).symm
    exact (hbody st (.part t.2.2 g k) nofun).trans <|
      (heven t ht).trans (hbody st (.part t.1 g k) nofun).symm

theorem prototype_holds (f : Name) :
    ((Definition.prototype f).emits max).Holds max [.prototype f] where
  globalCount := fun st => (holds_skip max).globalCount { st with count := 0 }
  function := fun st => (holds_skip max).function { st with count := 0 }
  goto := fun st => (holds_skip max).goto { st with count := 0 }
  global := fun st => (holds_skip max).global { st with count := 0 }
  storage := fun st => (holds_skip max).storage { st with count := 0 }
  contents := fun st => (holds_skip max).contents { st with count := 0 }
  string := fun st => (holds_skip max).string { st with count := 0 }
  part := fun st => (holds_skip max).part { st with count := 0 }
  stringOnce := fun h st => (holds_skip max).stringOnce h { st with count := 0 }
  partOnce := fun _ _ =>
    ⟨fun _ => List.forall_mem_singleton.mpr trivial, fun _ _ _ _ => Nat.zero_le 1⟩
  even := fun st => (holds_skip max).even { st with count := 0 }

theorem Definition.holds (d : Definition) : (d.emits max).Holds max [d] := by
  cases d with
  | global v => exact global_holds max v
  | prototype f => exact prototype_holds max f
  | function f body => exact function_holds max f body

theorem program_holds (ds : List Definition) : (program max ds).Holds max ds := by
  induction ds with
  | nil => exact holds_skip max
  | cons d ds ih => exact (d.holds max).then max ih

end Veron.MicroC.Labels
