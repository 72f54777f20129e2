/-
When no two labels of a translation unit read alike.
-/
import Veron.MicroCLabelsCount

namespace Veron.MicroC.Labels

variable {max : ℕ}

/-- What takes a number of its function. -/
inductive Use where
  | string
  | short
  | ternary
  | ite
  | switch (marks : List (Option ℕ))
  | doWhile
  | while
  | for
deriving DecidableEq

/-- What takes numbers one after the other, by the texts met before. -/
abbrev Uses := List Name → List Use × List Name

def unused : Uses := fun seen => ([], seen)

def use (x : Use) : Uses := fun seen => ([x], seen)

def Uses.then (a b : Uses) : Uses := fun seen =>
  ((a seen).1 ++ (b (a seen).2).1, (b (a seen).2).2)

/-- A text takes a number when it is met first. -/
def useText (s : Name) : Uses := fun seen =>
  if seen.contains s then ([], seen) else ([.string], s :: seen)

def Expr.uses (f : Name) : Expr → Uses
  | plain => unused
  | string s => useText s
  | func => useText ('"' :: f)
  | both a b => (a.uses f).then (b.uses f)
  | short a b => (a.uses f).then <| (use .short).then (b.uses f)
  | ternary c a b => (c.uses f).then <| (use .ternary).then <| (a.uses f).then (b.uses f)

mutual

def Stmt.uses (f : Name) : Stmt → Uses
  | .expr e => e.uses f
  | .static _ => unused
  | .label _ => unused
  | .seq a b => (a.uses f).then (b.uses f)
  | .ite c a b => (use .ite).then <| (c.uses f).then <| (a.uses f).then (b.uses f)
  | .switch e body => (use (.switch body.marks)).then <| (e.uses f).then (body.uses f)
  | .doWhile s c => (use .doWhile).then <| (s.uses f).then (c.uses f)
  | .while c s => (use .while).then <| (c.uses f).then (s.uses f)
  | .for init cond iter s => (use .for).then <|
      (init.uses f).then <| (cond.uses f).then <| (iter.uses f).then (s.uses f)

def Items.uses (f : Name) : Items → Uses
  | .done => unused
  | .label _ rest => rest.uses f
  | .case _ s rest => (s.uses f).then (rest.uses f)
  | .default s rest => (s.uses f).then (rest.uses f)

end

/-- What takes the numbers of each function. -/
def usesFrom : List Name → List Definition → List (Name × List Use)
  | _, [] => []
  | seen, .function f body :: ds =>
      (f, (body.uses f seen).1) :: usesFrom (body.uses f seen).2 ds
  | seen, .global _ :: ds => usesFrom seen ds
  | seen, .prototype _ :: ds => usesFrom seen ds

/-- In a function `f` the number `n` goes to `x`. -/
def Numbered (ds : List Definition) (f : Name) (n : ℕ) (x : Use) : Prop :=
  ∃ us, (f, us) ∈ usesFrom [] ds ∧ us[n]? = some x

def Use.parts : Use → List Part
  | .string => []
  | .short => [.settled, .shortEnd]
  | .ternary => [.ternaryElse, .ternaryEnd]
  | .ite => [.ifElse, .ifEnd]
  | .switch marks => marks.map markPart ++ [.switchTable, .switchEnd]
  | .doWhile => [.doLoop, .doTest, .doEnd]
  | .while => [.whileLoop, .whileEnd]
  | .for => [.forLoop, .forIter, .forThen, .forEnd]

def Use.labels (f : Name) (n : ℕ) (x : Use) : List Label :=
  (if x = .string then [.string f n] else []) ++ x.parts.map (.part · f n)

/-- The labels of what takes the numbers from `n` on. -/
def labelsFrom (f : Name) (n : ℕ) (us : List Use) : List Label :=
  (us.zipIdx n).flatMap fun x => x.1.labels f x.2

def Label.HasNumber : Label → Prop
  | part _ _ _ => True
  | string _ _ => True
  | _ => False

/-- In a function `f` something takes these numbers, and emits their labels and, with the number
`n` of what it is part of, those of `own`. -/
structure Emits.Lists (e : Emits) (f : Name) (n : ℕ) (own : List Part) (u : Uses) : Prop where
  count : ∀ st, (e st).2.count = st.count + (u st.strings).1.length
  strings : ∀ st, (e st).2.strings = (u st.strings).2
  mem : ∀ st (l : Label), l.HasNumber → (l ∈ (e st).1 ↔
    l ∈ own.map (.part · f n) ∨ l ∈ labelsFrom f st.count (u st.strings).1)

section

variable {f : Name} {n : ℕ} {own own' : List Part} {a b : Emits} {u v : Uses}

theorem labelsFrom_append (f : Name) (n : ℕ) (us vs : List Use) :
    labelsFrom f n (us ++ vs) = labelsFrom f n us ++ labelsFrom f (n + us.length) vs := by
  rw [labelsFrom, List.zipIdx_append, List.flatMap_append]
  rfl

theorem lists_skip (f : Name) (n : ℕ) : skip.Lists f n [] unused :=
  ⟨fun _ => rfl, fun _ => rfl, fun _ _ _ => ⟨nofun, Or.rec nofun nofun⟩⟩

theorem lists_emit {l : Label} (h : ¬ l.HasNumber) : (emit l).Lists f n [] unused := by
  refine ⟨fun _ => rfl, fun _ => rfl, fun st k hk => ⟨fun hin => ?_, Or.rec nofun nofun⟩⟩
  rw [List.mem_singleton.mp hin] at hk
  exact absurd hk h

theorem lists_part (p : Part) (f : Name) (n : ℕ) : (emit (.part p f n)).Lists f n [p] unused :=
  ⟨fun _ => rfl, fun _ => rfl, fun _ _ _ => ⟨.inl, Or.rec id nofun⟩⟩

theorem lists_addString (f s : Name) (n : ℕ) : (addString f s).Lists f n [] (useText s) := by
  refine ⟨fun st => ?_, fun st => ?_, fun st l _ => ?_⟩ <;> rw [addString, useText] <;>
    by_cases hin : s ∈ st.strings <;> simp [hin, labelsFrom, Use.labels, Use.parts]

theorem Emits.Lists.then (ha : a.Lists f n own u) (hb : b.Lists f n own' v) :
    (a.then b).Lists f n (own ++ own') (u.then v) := by
  refine ⟨fun st => ?_, fun st => ?_, fun st l hl => ?_⟩
  · change (b (a st).2).2.count = st.count + ((u st.strings).1 ++ _).length
    rw [hb.count, ha.count, ha.strings, List.length_append, Nat.add_assoc]
  · change (b (a st).2).2.strings = _
    rw [hb.strings, ha.strings]
    rfl
  · change l ∈ (a st).1 ++ (b (a st).2).1 ↔ _ ∨ l ∈ labelsFrom f st.count ((u st.strings).1 ++ _)
    rw [List.mem_append, ha.mem st l hl, hb.mem _ l hl, ha.count, ha.strings, labelsFrom_append,
      List.map_append, List.mem_append, List.mem_append]
    exact or_or_or_comm

theorem Emits.Lists.cast (h : a.Lists f n own u) (hown : own = own') (huses : u = v) :
    a.Lists f n own' v := hown ▸ huses ▸ h

theorem unused_then (u : Uses) : unused.then u = u := rfl

theorem then_unused (u : Uses) : u.then unused = u := by
  funext seen
  rw [Uses.then, unused, List.append_nil]

/-- What has a number takes it before what it consists of. -/
theorem lists_numbered {e : ℕ → Emits} {x : Use} (hx : x ≠ .string)
    (h : ∀ n, (e n).Lists f n x.parts u) (m : ℕ) :
    (numbered e).Lists f m [] ((use x).then u) := by
  refine ⟨fun st => ?_, fun st => (h st.count).strings _, fun st l hl => ?_⟩
  · have hcount := (h st.count).count { st with count := st.count + 1 }
    change (e st.count _).2.count = st.count + 1 + (u st.strings).1.length at hcount
    change (e st.count _).2.count = st.count + (x :: (u st.strings).1).length
    rw [hcount, List.length_cons]
    omega
  · have hmem := (h st.count).mem { st with count := st.count + 1 } l hl
    have hsplit := labelsFrom_append f st.count [x] (u st.strings).1
    change l ∈ (e st.count _).1 ↔ _ ∨ l ∈ labelsFrom f st.count ([x] ++ (u st.strings).1)
    rw [hmem, hsplit, List.mem_append]
    simp [labelsFrom, Use.labels, hx]

theorem Expr.lists (f : Name) (e : Expr) (n : ℕ) : (e.emits f).Lists f n [] (e.uses f) := by
  induction e generalizing n with
  | plain => exact lists_skip f n
  | string s => exact lists_addString f s n
  | func => exact lists_addString f _ n
  | both a b iha ihb => exact (iha n).then (ihb n)
  | short a b iha ihb =>
      have hnumbered := lists_numbered (x := .short) nofun (fun n => (ihb n).then <|
        (lists_part .settled f n).then (lists_part .shortEnd f n)) n
      exact ((iha n).then hnumbered).cast rfl (by simp only [then_unused, Expr.uses])
  | ternary c a b ihc iha ihb =>
      have hnumbered := lists_numbered (x := .ternary) nofun (fun n => (iha n).then <|
        (lists_part .ternaryElse f n).then <| (ihb n).then (lists_part .ternaryEnd f n)) n
      exact ((ihc n).then hnumbered).cast rfl (by simp only [then_unused, unused_then, Expr.uses])

theorem lists_emitTexts (f : Name) (n k : ℕ) : (emitTexts k).Lists f n [] unused := by
  induction k with
  | zero => exact lists_skip f n
  | succ k ih =>
      have hfirst : Emits.Lists (fun st => ([.contents st.globalCount],
          { st with globalCount := st.globalCount + 1 })) f n [] unused := by
        refine ⟨fun _ => rfl, fun _ => rfl, fun st l hl => ⟨fun hin => ?_, Or.rec nofun nofun⟩⟩
        rw [List.mem_singleton.mp hin] at hl
        exact hl.elim
      exact hfirst.then ih

theorem Variable.lists (f x : Name) (v : Variable) (n : ℕ) : (v.emits x).Lists f n [] unused := by
  have harray : (if v.isArray then emit (.storage x) else skip).Lists f n [] unused := by
    cases v.isArray with
    | false => exact lists_skip f n
    | true => exact lists_emit id
  exact (lists_emit id).then (harray.then (lists_emitTexts f n v.texts))

variable (max) in
mutual

theorem Stmt.lists (f : Name) (s : Stmt) (n : ℕ) : (s.emits max f).Lists f n [] (s.uses f) := by
  match s with
  | .expr e => exact e.lists f n
  | .static v => exact v.lists f _ n
  | .label l => exact lists_emit id
  | .seq a b => exact (Stmt.lists f a n).then (Stmt.lists f b n)
  | .ite c a b =>
      refine (lists_numbered (x := .ite) nofun (fun n => (c.lists f n).then <|
        (Stmt.lists f a n).then <| (lists_part .ifElse f n).then <|
          (Stmt.lists f b n).then (lists_part .ifEnd f n)) n).cast rfl ?_
      simp only [then_unused, unused_then, Stmt.uses]
  | .switch e body =>
      refine (lists_numbered (x := .switch body.marks) nofun (fun n => (e.lists f n).then <|
        (Items.lists f n body).then <|
          (lists_part .switchTable f n).then (lists_part .switchEnd f n)) n).cast rfl ?_
      simp only [then_unused, Stmt.uses]
  | .doWhile s c =>
      refine (lists_numbered (x := .doWhile) nofun (fun n => (lists_part .doLoop f n).then <|
        (Stmt.lists f s n).then <| (lists_part .doTest f n).then <|
          (c.lists f n).then (lists_part .doEnd f n)) n).cast rfl ?_
      simp only [then_unused, unused_then, Stmt.uses]
  | .while c s =>
      refine (lists_numbered (x := .while) nofun (fun n => (lists_part .whileLoop f n).then <|
        (c.lists f n).then <| (Stmt.lists f s n).then (lists_part .whileEnd f n)) n).cast rfl ?_
      simp only [then_unused, unused_then, Stmt.uses]
  | .for init cond iter s =>
      refine (lists_numbered (x := .for) nofun (fun n => (init.lists f n).then <|
        (lists_part .forLoop f n).then <| (cond.lists f n).then <| (lists_part .forIter f n).then <|
          (iter.lists f n).then <| (lists_part .forThen f n).then <|
            (Stmt.lists f s n).then (lists_part .forEnd f n)) n).cast rfl ?_
      simp only [then_unused, unused_then, Stmt.uses]

theorem Items.lists (f : Name) (n : ℕ) (body : Items) :
    (body.emits max f n).Lists f n (body.marks.map markPart) (body.uses f) := by
  match body with
  | .done => exact lists_skip f n
  | .label l rest => exact (lists_emit id).then (Items.lists f n rest)
  | .case value s rest =>
      exact (lists_part _ f n).then ((Stmt.lists f s n).then (Items.lists f n rest))
  | .default s rest =>
      exact (lists_part _ f n).then ((Stmt.lists f s n).then (Items.lists f n rest))

end

end

theorem mem_program {l : Label} (hl : l.HasNumber) {ds : List Definition} (st : Counters) :
    l ∈ (program max ds st).1 ↔
      ∃ f us, (f, us) ∈ usesFrom st.strings ds ∧ l ∈ labelsFrom f 0 us := by
  induction ds generalizing st with
  | nil => exact ⟨nofun, fun ⟨_, _, hin, _⟩ => nomatch hin⟩
  | cons d ds ih =>
      have hsplit : l ∈ (program max (d :: ds) st).1 ↔
          l ∈ (d.emits max st).1 ∨ l ∈ (program max ds (d.emits max st).2).1 := List.mem_append
      rw [hsplit, ih]
      cases d with
      | global v =>
          have hlists := v.lists [] v.name 0
          have hnone : l ∉ (v.emits v.name st).1 := by
            rw [hlists.mem st l hl]
            exact Or.rec nofun nofun
          have hstrings : (v.emits v.name st).2.strings = st.strings := hlists.strings st
          change l ∈ (v.emits v.name st).1 ∨ (∃ f us, (f, us) ∈ usesFrom
            (v.emits v.name st).2.strings ds ∧ _) ↔ _
          rw [hstrings]
          exact or_iff_right hnone
      | prototype f => exact or_iff_right nofun
      | function f body =>
          have hlists := body.lists max f 0
          have hmem := hlists.mem { st with count := 0 } l hl
          have hstrings := hlists.strings { st with count := 0 }
          have hhead : l ∈ ((Definition.function f body).emits max st).1 ↔
              l ∈ labelsFrom f 0 (body.uses f st.strings).1 := by
            change l ∈ Label.function f :: (body.emits max f { st with count := 0 }).1 ↔ _
            rw [List.mem_cons, hmem, or_iff_right, or_iff_right]
            · nofun
            · rintro rfl
              exact hl
          change _ ∨ (∃ g us, (g, us) ∈ usesFrom
            (body.emits max f { st with count := 0 }).2.strings ds ∧ _) ↔ _
          rw [hhead, hstrings, usesFrom]
          simp only [List.mem_cons, Prod.mk.injEq, or_and_right, exists_or]
          simp

theorem mem_labelsFrom {f : Name} {us : List Use} {l : Label} :
    l ∈ labelsFrom f 0 us ↔ ∃ (n : ℕ) (x : Use), us[n]? = some x ∧ l ∈ x.labels f n := by
  rw [labelsFrom, List.mem_flatMap]
  constructor
  · rintro ⟨⟨x, n⟩, hin, hl⟩
    exact ⟨n, x, List.mem_zipIdx_iff_getElem?.mp hin, hl⟩
  · rintro ⟨n, x, hin, hl⟩
    exact ⟨(x, n), List.mem_zipIdx_iff_getElem?.mpr hin, hl⟩

theorem part_mem_iff {ds : List Definition} {p : Part} {g : Name} {n : ℕ} :
    .part p g n ∈ labels max ds ↔ ∃ x, Numbered ds g n x ∧ p ∈ x.parts := by
  have hpart (f : Name) (m : ℕ) (x : Use) :
      .part p g n ∈ x.labels f m ↔ p ∈ x.parts ∧ f = g ∧ m = n := by
    rw [Use.labels, List.mem_append]
    split <;> simp
  rw [labels, mem_program (l := .part p g n) trivial]
  simp only [mem_labelsFrom, hpart, Numbered]
  constructor
  · rintro ⟨f, us, hin, m, x, hx, hp, rfl, rfl⟩
    exact ⟨x, ⟨us, hin, hx⟩, hp⟩
  · rintro ⟨x, ⟨us, hin, hx⟩, hp⟩
    exact ⟨g, us, hin, n, x, hx, hp, rfl, rfl⟩

theorem string_mem_iff {ds : List Definition} {g : Name} {n : ℕ} :
    .string g n ∈ labels max ds ↔ Numbered ds g n .string := by
  have hstring (f : Name) (m : ℕ) (x : Use) :
      .string g n ∈ x.labels f m ↔ x = .string ∧ f = g ∧ m = n := by
    rw [Use.labels, List.mem_append]
    split <;> simp [*, eq_comm]
  rw [labels, mem_program (l := .string g n) trivial]
  simp only [mem_labelsFrom, hstring, Numbered]
  constructor
  · rintro ⟨f, us, hin, m, x, hx, rfl, rfl, rfl⟩
    exact ⟨us, hin, hx⟩
  · rintro ⟨us, hin, hx⟩
    exact ⟨g, us, hin, n, _, hx, rfl, rfl, rfl⟩

/-- A name with a number, whatever the room. -/
def plainId (start s : Name) (n : ℕ) : Name := start ++ (s ++ '_' :: Nat.toDigits 10 n)

def plainGoto (l f : Name) : Name := l ++ (['_', 'L', '_'] ++ f)

/-- What stands in front of the function. -/
def Part.plain : Part → Name
  | switchCase value =>
      ['_', 'S', 'W', 'I', 'T', 'C', 'H', '_', 'C', 'A', 'S', 'E', '_'] ++
        (Nat.toDigits 10 value ++ ['_'])
  | p => p.text

/-- A label whose names are not cut. -/
def Label.plain : Label → Name
  | function f => ['F', 'U', 'N', 'C', 'T', 'I', 'O', 'N', '_'] ++ f
  | part p f n => plainId p.plain f n
  | goto l f => plainGoto l f
  | string f n => plainId ['S', 'T', 'R', 'I', 'N', 'G', '_'] f n
  | contents n => ['G', 'L', 'O', 'B', 'A', 'L', '_'] ++
      (plainId ['S', 'T', 'R', '_'] ['g'] n ++ ['_', 'c', 'o', 'n', 't', 'e', 'n', 't', 's'])
  | global x => ['G', 'L', 'O', 'B', 'A', 'L', '_'] ++ x
  | storage x => ['G', 'L', 'O', 'B', 'A', 'L', '_', 'S', 'T', 'O', 'R', 'A', 'G', 'E', '_'] ++ x

theorem toDigits_injective {m n : ℕ} (h : Nat.toDigits 10 m = Nat.toDigits 10 n) : m = n := by
  rw [← Nat.ofDigitChars_ten_toDigits (n := m), h, Nat.ofDigitChars_ten_toDigits]

/-- What follows the last underscore. -/
theorem underscore_split {a b x y : Name} (hx : '_' ∉ x) (hy : '_' ∉ y)
    (h : a ++ '_' :: x = b ++ '_' :: y) : a = b ∧ x = y := by
  have hone {a b x y : Name} (hx : '_' ∉ x) {c : Name} (hb : b = a ++ c)
      (h : '_' :: x = c ++ '_' :: y) : a = b ∧ x = y := by
    cases c with
    | nil => exact ⟨(hb.trans (List.append_nil a)).symm, (List.cons.inj h).2⟩
    | cons d c =>
        have hin : '_' ∈ x := by
          rw [(List.cons.inj h).2]
          exact List.mem_append_right c (List.mem_cons_self ..)
        exact absurd hin hx
  rcases List.append_eq_append_iff.mp h with ⟨c, hb, hrest⟩ | ⟨c, ha, hrest⟩
  · exact hone hx hb hrest
  · obtain ⟨hba, hyx⟩ := hone hy ha hrest
    exact ⟨hba.symm, hyx.symm⟩

theorem plainId_eq {start start' s s' : Name} {m n : ℕ}
    (h : plainId start s m = plainId start' s' n) :
    start ++ s = start' ++ s' ∧ m = n := by
  rw [plainId, plainId, ← List.append_assoc, ← List.append_assoc] at h
  obtain ⟨hname, hdigits⟩ :=
    underscore_split Nat.underscore_not_in_toDigits Nat.underscore_not_in_toDigits h
  exact ⟨hname, toDigits_injective hdigits⟩

/-- What stands before the first underscore. -/
theorem digits_split {m n : ℕ} {f g : Name}
    (h : Nat.toDigits 10 m ++ '_' :: f = Nat.toDigits 10 n ++ '_' :: g) : m = n ∧ f = g := by
  have hreverse := congrArg List.reverse h
  simp only [List.reverse_append, List.reverse_cons, List.append_assoc, List.singleton_append]
    at hreverse
  have hnone (k : ℕ) : '_' ∉ (Nat.toDigits 10 k).reverse := fun h =>
    Nat.underscore_not_in_toDigits (List.mem_reverse.mp h)
  obtain ⟨hname, hdigits⟩ := underscore_split (hnone m) (hnone n) hreverse
  exact ⟨toDigits_injective (List.reverse_injective hdigits), List.reverse_injective hname⟩

theorem longer_plain : ∀ t ∈ longer, t.2.2.plain = t.1.plain ++ t.2.1 := by decide

/-- Only a loop's label reads like another part's. -/
theorem part_plain_eq {p q : Part} {f g : Name} (h : p.plain ++ f = q.plain ++ g) :
    p = q ∧ f = g ∨ (∃ x, (p, x, q) ∈ longer ∧ f = x ++ g) ∨
      ∃ x, (q, x, p) ∈ longer ∧ g = x ++ f := by
  cases p <;> cases q <;> simp [Part.plain, Part.text] at h <;> simp [longer, h]
  case switchCase.switchCase => exact digits_split h

/-- The name of a variable that reads like the text with this number. -/
def textName (k : ℕ) : Name :=
  plainId ['S', 'T', 'R', '_'] ['g'] k ++ ['_', 'c', 'o', 'n', 't', 'e', 'n', 't', 's']

def storageName (x : Name) : Name := ['S', 'T', 'O', 'R', 'A', 'G', 'E', '_'] ++ x

/-- Different labels with one text. -/
inductive Clash : Label → Label → Prop
  | loop {p x q} (f : Name) (n : ℕ) (h : (p, x, q) ∈ longer) :
      Clash (.part q f n) (.part p (x ++ f) n)
  | storage (x : Name) : Clash (.storage x) (.global (storageName x))
  | contents (k : ℕ) : Clash (.contents k) (.global (textName k))
  | goto {l f b} (htext : b.plain = plainGoto l f) (hne : b ≠ .goto l f) : Clash (.goto l f) b

theorem Clash.ne {a b : Label} (h : Clash a b) : a ≠ b := by
  cases h with
  | loop f n h =>
      have hparts : ∀ t ∈ longer, t.2.2 ≠ t.1 := by decide
      exact fun heq => hparts _ h (Label.part.inj heq).1
  | storage x => exact nofun
  | contents k => exact nofun
  | goto htext hne => exact hne.symm

theorem Clash.plain_eq {a b : Label} (h : Clash a b) : a.plain = b.plain := by
  cases h with
  | loop f n h =>
      change plainId _ _ _ = plainId _ _ _
      rw [plainId, plainId, longer_plain _ h, List.append_assoc, List.append_assoc]
  | storage x => rfl
  | contents k => rfl
  | goto htext hne => exact htext.symm

/-- By its first letters, what a label is that is not for `goto`. -/
def kindOf : Name → ℕ
  | 'F' :: 'U' :: _ => 0
  | 'S' :: 'T' :: _ => 1
  | 'G' :: _ => 2
  | _ => 3

def Label.kind : Label → ℕ
  | function _ => 0
  | part _ _ _ => 3
  | goto _ _ => 4
  | string _ _ => 1
  | contents _ => 2
  | global _ => 2
  | storage _ => 2

theorem kindOf_plain {a : Label} (ha : a.kind ≠ 4) : kindOf a.plain = a.kind := by
  cases a with
  | goto l f => exact absurd rfl ha
  | part p f n => cases p <;> rfl
  | _ => rfl

theorem plain_eq {a b : Label} (h : a.plain = b.plain) : a = b ∨ Clash a b ∨ Clash b a := by
  by_cases hne : a = b
  · exact .inl hne
  right
  by_cases ha : a.kind = 4
  · cases a with
    | goto l f => exact .inl (.goto h.symm (Ne.symm hne))
    | _ => exact nomatch ha
  by_cases hb : b.kind = 4
  · cases b with
    | goto l f => exact .inr (.goto h hne)
    | _ => exact nomatch hb
  have hkind : a.kind = b.kind := by rw [← kindOf_plain ha, ← kindOf_plain hb, h]
  cases a <;> cases b <;> simp [Label.kind] at hkind
  case function.function f g => exact absurd (congrArg _ (List.append_cancel_left h)) hne
  case part.part p f m q g n =>
    obtain ⟨htext, rfl⟩ := plainId_eq h
    rcases part_plain_eq htext with ⟨rfl, rfl⟩ | ⟨x, hin, rfl⟩ | ⟨x, hin, rfl⟩
    · exact absurd rfl hne
    · exact .inr (.loop g m hin)
    · exact .inl (.loop f m hin)
  case goto.goto => exact absurd rfl ha
  case string.string f m g n =>
    obtain ⟨htext, rfl⟩ := plainId_eq h
    exact absurd (congrArg (Label.string · m) (List.append_cancel_left htext)) hne
  case contents.contents m n =>
    have htext := List.append_cancel_right (List.append_cancel_left h)
    exact absurd (congrArg _ (plainId_eq htext).2) hne
  case contents.global k x =>
    obtain rfl := List.append_cancel_left h
    exact .inl (.contents k)
  case contents.storage k x => simp [Label.plain, plainId] at h
  case global.contents x k =>
    obtain rfl := List.append_cancel_left h
    exact .inr (.contents k)
  case global.global x y => exact absurd (congrArg _ (List.append_cancel_left h)) hne
  case global.storage x y =>
    obtain rfl := @List.append_cancel_left _ ['G', 'L', 'O', 'B', 'A', 'L', '_'] _ _ h
    exact .inr (.storage y)
  case storage.contents x k => simp [Label.plain, plainId] at h
  case storage.global x y =>
    obtain rfl := @List.append_cancel_left _ ['G', 'L', 'O', 'B', 'A', 'L', '_'] _ _ h
    exact .inl (.storage x)
  case storage.storage x y => exact absurd (congrArg _ (List.append_cancel_left h)) hne

section

variable {ds : List Definition}

theorem function_mem_iff {g : Name} : .function g ∈ labels max ds ↔ g ∈ functions ds := by
  rw [← List.count_pos_iff, ← List.count_pos_iff, labels, (program_holds max ds).function]

theorem goto_mem_iff {l f : Name} : .goto l f ∈ labels max ds ↔ (l, f) ∈ gotos ds := by
  rw [← List.count_pos_iff, ← List.count_pos_iff, labels, (program_holds max ds).goto]

theorem global_mem_iff {x : Name} : .global x ∈ labels max ds ↔ x ∈ objects max ds := by
  rw [← List.count_pos_iff, ← List.count_pos_iff, labels, (program_holds max ds).global]

theorem storage_mem_iff {x : Name} : .storage x ∈ labels max ds ↔ x ∈ arrays max ds := by
  rw [← List.count_pos_iff, ← List.count_pos_iff, labels, (program_holds max ds).storage]

theorem contents_mem_iff {k : ℕ} : .contents k ∈ labels max ds ↔ k < texts ds := by
  rw [← List.count_pos_iff, labels, (program_holds max ds).contents]
  simp only [Nat.zero_le, Nat.zero_add, true_and]
  split
  · exact iff_of_true Nat.zero_lt_one ‹_›
  · exact iff_of_false (Nat.lt_irrefl 0) ‹_›

variable (max) in
theorem arrays_sublist (ds : List Definition) : (arrays max ds).Sublist (objects max ds) := by
  induction ds with
  | nil => exact .refl []
  | cons d ds ih =>
      rw [arrays, objects, List.flatMap_cons, List.flatMap_cons]
      refine List.Sublist.append ?_ ih
      cases d with
      | global v =>
          change (if v.isArray then [v.name] else []).Sublist [v.name]
          split
          · exact .refl _
          · exact List.nil_sublist _
      | prototype f => exact .refl []
      | function f body => exact List.filter_sublist.map _

theorem labels_nodup_iff (hfunctions : (functions ds).Nodup) (hgotos : (gotos ds).Nodup) :
    (labels max ds).Nodup ↔ (objects max ds).Nodup ∧ ∀ d ∈ ds, d.Distinct := by
  have hholds := program_holds max ds
  rw [← hholds.partOnce hfunctions ⟨0, [], 0⟩, List.nodup_iff_count_le_one]
  constructor
  · intro h
    refine ⟨List.nodup_iff_count_le_one.mpr fun x => ?_, fun p g k => h (.part p g k)⟩
    rw [← hholds.global ⟨0, [], 0⟩]
    exact h (.global x)
  · rintro ⟨hobjects, hparts⟩ l
    rw [labels]
    cases l with
    | function f =>
        rw [hholds.function]
        exact List.nodup_iff_count_le_one.mp hfunctions f
    | part p f n => exact hparts p f n
    | goto l f =>
        rw [hholds.goto]
        exact List.nodup_iff_count_le_one.mp hgotos (l, f)
    | string f n => exact hholds.stringOnce hfunctions _ f n
    | contents n =>
        rw [hholds.contents]
        split
        · exact Nat.le_refl 1
        · exact Nat.zero_le 1
    | global x =>
        rw [hholds.global]
        exact List.nodup_iff_count_le_one.mp hobjects x
    | storage x =>
        rw [hholds.storage]
        exact List.nodup_iff_count_le_one.mp (hobjects.sublist (arrays_sublist max ds)) x

end

/-- The static variables of a function under the names that they should have. -/
def localNames (f : Name) (vs : List Variable) : List Name := vs.map fun v => f ++ '_' :: v.name

/-- The names of the global variables, and `f_x` for a static one of `f`. -/
def variableNames (ds : List Definition) : List Name := ds.flatMap fun
  | .global v => [v.name]
  | .prototype _ => []
  | .function f body => localNames f body.statics

/-- Those of arrays. -/
def arrayVariables (ds : List Definition) : List Name := ds.flatMap fun
  | .global v => if v.isArray then [v.name] else []
  | .prototype _ => []
  | .function f body => localNames f (body.statics.filter Variable.isArray)

/-- What stands in front of the function in the labels of something numbered. -/
def Use.starts : Use → List Name
  | .string => ["STRING_".toList]
  | .short => ["SC_SETTLED_".toList, "_SC_END_".toList]
  | .ternary => ["TERNARY_ELSE_".toList, "_END_TERNARY_".toList]
  | .ite => ["ELSE_".toList, "_END_IF_".toList]
  | .switch marks => marks.map (fun
      | none => "_SWITCH_DEFAULT_".toList
      | some value => "_SWITCH_CASE_".toList ++ (Nat.toDigits 10 value ++ ['_'])) ++
        ["_SWITCH_TABLE_".toList, "_SWITCH_END_".toList]
  | .doWhile => ["DO_".toList, "DO_TEST_".toList, "DO_END_".toList]
  | .while => ["WHILE_".toList, "END_WHILE_".toList]
  | .for => ["FOR_".toList, "FOR_ITER_".toList, "FOR_THEN_".toList, "FOR_END_".toList]

/-- A label `l` for `goto` in `f` that reads like no other. -/
structure Free (ds : List Definition) (l f : Name) : Prop where
  gotos : ∀ l' f', (l', f') ∈ gotos ds →
    l' ++ ("_L_".toList ++ f') = l ++ ("_L_".toList ++ f) → l' = l ∧ f' = f
  functions : ∀ g ∈ functions ds, "FUNCTION_".toList ++ g ≠ l ++ ("_L_".toList ++ f)
  named : ∀ x ∈ variableNames ds, "GLOBAL_".toList ++ x ≠ l ++ ("_L_".toList ++ f)
  arrays : ∀ x ∈ arrayVariables ds, "GLOBAL_STORAGE_".toList ++ x ≠ l ++ ("_L_".toList ++ f)
  texts : ∀ k < texts ds,
    "GLOBAL_STR_g_".toList ++ (Nat.toDigits 10 k ++ "_contents".toList) ≠
      l ++ ("_L_".toList ++ f)
  numbers : ∀ g n x, Numbered ds g n x → ∀ start ∈ x.starts,
    start ++ (g ++ '_' :: Nat.toDigits 10 n) ≠ l ++ ("_L_".toList ++ f)

structure Clear (ds : List Definition) : Prop where
  /-- No two variables have one name, where a static one of `f` is called `f_x`. -/
  names : (variableNames ds).Nodup
  /-- No `switch` has two cases that agree in their low 32 bits, or two defaults. -/
  switches : ∀ d ∈ ds, d.Distinct
  storage : ∀ x ∈ arrayVariables ds, "STORAGE_".toList ++ x ∉ variableNames ds
  texts : ∀ k < texts ds,
    "STR_g_".toList ++ (Nat.toDigits 10 k ++ "_contents".toList) ∉ variableNames ds
  /-- Of a function `f` and one called `ITER_f`, `THEN_f` or `END_f` no two `for`s have one number,
  and of `f` and `TEST_f` or `END_f` no two `do`s. -/
  loops : ∀ f n,
    (Numbered ds f n .for →
      ∀ x ∈ ["ITER_", "THEN_", "END_"], ¬ Numbered ds (x.toList ++ f) n .for) ∧
      (Numbered ds f n .doWhile →
        ∀ x ∈ ["TEST_", "END_"], ¬ Numbered ds (x.toList ++ f) n .doWhile)
  gotos : ∀ l f, (l, f) ∈ gotos ds → Free ds l f

/-- What is joined in front of the function before the label is printed. -/
def Use.joined : Use → List Name
  | .string => ["STRING_".toList]
  | .switch marks => [] :: marks.filterMap fun mark =>
      mark.map fun value => Nat.toDigits 10 value ++ ['_']
  | _ => [[]]

/-- With the byte that ends it, each name that is joined fits into the buffer. -/
structure Short (max : ℕ) (ds : List Definition) : Prop where
  statics : ∀ f body, .function f body ∈ ds → ∀ v ∈ body.statics,
    (f ++ '_' :: v.name).length < max
  gotos : ∀ l f, (l, f) ∈ gotos ds → (l ++ ("_L_".toList ++ f)).length < max
  texts : ∀ k < texts ds, ("STR_g_".toList ++ Nat.toDigits 10 k).length < max
  numbers : ∀ g n x, Numbered ds g n x → ∀ start ∈ x.joined,
    (start ++ (g ++ '_' :: Nat.toDigits 10 n)).length < max

theorem copyString_fits {s : Name} {room : ℤ} (h : (s.length : ℤ) ≤ room) :
    copyString s room = s := by
  rw [copyString]
  split
  · exact List.take_of_length_le (by omega)
  · rfl

theorem concatStrings_fits {room : ℤ} {ss : List Name} (h : (ss.flatten.length : ℤ) ≤ room) :
    concatStrings room ss = ss.flatten := by
  induction ss generalizing room with
  | nil => rfl
  | cons s ss ih =>
      rw [List.flatten_cons, List.length_append, Int.natCast_add] at h
      rw [concatStrings, copyString_fits (by omega), ih (by omega), List.flatten_cons]

theorem createUniqueId_fits {start s : Name} {n : ℕ} (h : (plainId start s n).length ≤ max) :
    createUniqueId max start s n = plainId start s n := by
  have hflat : [start, s, ['_'], Nat.toDigits 10 n].flatten = plainId start s n := by
    simp [plainId]
  rw [createUniqueId, concatStrings_fits, hflat]
  rw [hflat]
  exact Int.ofNat_le.mpr h

section

variable {ds : List Definition}

theorem staticName_fits {f : Name} {v : Variable} (h : (f ++ '_' :: v.name).length < max) :
    staticName max f v = f ++ '_' :: v.name := by
  have hflat : [f, ['_'], v.name].flatten = f ++ '_' :: v.name := by simp
  rw [staticName, concatStrings_fits, hflat]
  rw [hflat]
  exact Int.ofNat_le.mpr (Nat.le_of_lt h)

theorem Short.objects_eq (h : Short max ds) :
    objects max ds = variableNames ds ∧ arrays max ds = arrayVariables ds := by
  constructor <;> refine List.flatMap_congr fun d hd => ?_ <;> cases d with
  | global v => rfl
  | prototype f => rfl
  | function f body =>
      refine List.map_congr_left fun v hv => staticName_fits ?_
      first
        | exact h.statics f body hd v hv
        | exact h.statics f body hd v (List.mem_of_mem_filter hv)

/-- What takes a number with a part is joined to it in no more than `joined` says. -/
theorem nil_mem_joined {p : Part} {x : Use} (hp : p ∈ x.parts) : [] ∈ x.joined := by
  cases x with
  | string => cases hp
  | _ => exact List.mem_cons_self

theorem value_mem_joined {value : ℕ} {x : Use} (hp : .switchCase value ∈ x.parts) :
    Nat.toDigits 10 value ++ ['_'] ∈ x.joined := by
  cases x with
  | switch marks =>
      have hmark : some value ∈ marks := by
        rcases List.mem_append.mp hp with hin | hin
        · obtain ⟨mark, hmark, heq⟩ := List.mem_map.mp hin
          obtain rfl : mark = some value := markPart_injective heq
          exact hmark
        · simp at hin
      exact List.mem_cons_of_mem _ (List.mem_filterMap.mpr ⟨_, hmark, rfl⟩)
  | _ => simp [Use.parts] at hp

/-- Where all names fit, labels are printed in full. -/
theorem Short.text_eq (h : Short max ds) {l : Label} (hl : l ∈ labels max ds) :
    l.text max = l.plain := by
  cases l with
  | part p f n =>
      obtain ⟨x, hx, hp⟩ := part_mem_iff.mp hl
      have hid : createUniqueId max [] f n = plainId [] f n :=
        createUniqueId_fits (Nat.le_of_lt (h.numbers f n x hx _ (nil_mem_joined hp)))
      cases p with
      | switchCase value =>
          have hlong := h.numbers f n x hx _ (value_mem_joined hp)
          have hflat : [Nat.toDigits 10 value, ['_'], plainId [] f n].flatten =
              Nat.toDigits 10 value ++ ['_'] ++ (f ++ '_' :: Nat.toDigits 10 n) := by
            simp [plainId]
          rw [Label.text, Part.id, hid, concatStrings_fits, hflat]
          · simp [Label.plain, Part.plain, Part.text, plainId]
          · rw [hflat]
            exact Int.ofNat_le.mpr (Nat.le_of_lt hlong)
      | _ =>
          change _ ++ createUniqueId max [] f n = _
          rw [hid]
          rfl
  | goto l f =>
      have hlong := h.gotos l f (goto_mem_iff.mp hl)
      have hflat : [l, ['_', 'L', '_'], f].flatten = plainGoto l f := by simp [plainGoto]
      rw [Label.text, gotoLabelName, concatStrings_fits, hflat]
      · rfl
      · rw [hflat]
        exact Int.ofNat_le.mpr (Nat.le_of_lt hlong)
  | string f n =>
      have hlong := h.numbers f n _ (string_mem_iff.mp hl) _ List.mem_cons_self
      exact createUniqueId_fits (Nat.le_of_lt hlong)
  | contents k =>
      have hlong := h.texts k (contents_mem_iff.mp hl)
      have hid : createUniqueId max ['S', 'T', 'R', '_'] ['g'] k =
          plainId ['S', 'T', 'R', '_'] ['g'] k := createUniqueId_fits (Nat.le_of_lt hlong)
      rw [Label.text, hid]
      rfl
  | _ => rfl

/-- The parts of something numbered begin as its labels do. -/
theorem starts_eq {x : Use} (hx : x ≠ .string) : x.starts = x.parts.map Part.plain := by
  cases x with
  | string => exact absurd rfl hx
  | switch marks =>
      rw [Use.starts, Use.parts, List.map_append, List.map_map]
      refine congrArg₂ _ (List.map_congr_left fun mark _ => ?_) rfl
      cases mark <;> rfl
  | _ => rfl

theorem forLoop_mem_parts {x : Use} : .forLoop ∈ x.parts ↔ x = .for := by
  cases x with
  | switch marks =>
      refine iff_of_false (fun hin => ?_) nofun
      simp only [Use.parts, List.mem_append, List.mem_map] at hin
      obtain ⟨mark, -, heq⟩ | hin := hin
      · cases mark <;> cases heq
      · simp at hin
  | _ => simp [Use.parts]

theorem doLoop_mem_parts {x : Use} : .doLoop ∈ x.parts ↔ x = .doWhile := by
  cases x with
  | switch marks =>
      refine iff_of_false (fun hin => ?_) nofun
      simp only [Use.parts, List.mem_append, List.mem_map] at hin
      obtain ⟨mark, -, heq⟩ | hin := hin
      · cases mark <;> cases heq
      · simp at hin
  | _ => simp [Use.parts]

/-- A loop has its labels together. -/
theorem loop_mem_iff {t : Part × Name × Part} (ht : t ∈ longer) {f : Name} {n : ℕ} :
    .part t.2.2 f n ∈ labels max ds ↔ .part t.1 f n ∈ labels max ds := by
  have heven := (program_holds max ds).even ⟨0, [], 0⟩ f n t ht
  rw [← List.count_pos_iff, ← List.count_pos_iff, labels]
  exact iff_of_eq (congrArg (0 < ·) heven)

theorem for_mem_iff {f : Name} {n : ℕ} :
    .part .forLoop f n ∈ labels max ds ↔ Numbered ds f n .for := by
  simp [part_mem_iff, forLoop_mem_parts]

theorem do_mem_iff {f : Name} {n : ℕ} :
    .part .doLoop f n ∈ labels max ds ↔ Numbered ds f n .doWhile := by
  simp [part_mem_iff, doLoop_mem_parts]

theorem Free.not_clash (hshort : Short max ds) {l f : Name} (h : Free ds l f) {b : Label}
    (hb : b ∈ labels max ds) (htext : b.plain = plainGoto l f) : b = .goto l f := by
  cases b with
  | function g => exact absurd htext (h.functions g (function_mem_iff.mp hb))
  | part p g n =>
      obtain ⟨x, hx, hp⟩ := part_mem_iff.mp hb
      have hne : x ≠ .string := by
        rintro rfl
        cases hp
      have hstart : p.plain ∈ x.starts := starts_eq hne ▸ List.mem_map_of_mem hp
      exact absurd htext (h.numbers g n x hx _ hstart)
  | goto l' f' =>
      obtain ⟨rfl, rfl⟩ := h.gotos l' f' (goto_mem_iff.mp hb) htext
      rfl
  | string g n =>
      exact absurd htext (h.numbers g n _ (string_mem_iff.mp hb) _ List.mem_cons_self)
  | contents k => exact absurd htext (h.texts k (contents_mem_iff.mp hb))
  | global x =>
      exact absurd htext (h.named x (hshort.objects_eq.1 ▸ global_mem_iff.mp hb))
  | storage x =>
      exact absurd htext (h.arrays x (hshort.objects_eq.2 ▸ storage_mem_iff.mp hb))

theorem Clear.not_clash (hshort : Short max ds) (h : Clear ds) {a b : Label} (hclash : Clash a b)
    (ha : a ∈ labels max ds) : b ∉ labels max ds := by
  intro hb
  cases hclash with
  | loop f n hin =>
      have hfirst := (loop_mem_iff hin).mp ha
      obtain ⟨hfor, hdo⟩ := h.loops f n
      simp only [longer, List.mem_cons, List.not_mem_nil, or_false, Prod.mk.injEq] at hin
      rcases hin with ⟨rfl, rfl, rfl⟩ | ⟨rfl, rfl, rfl⟩ | ⟨rfl, rfl, rfl⟩ | ⟨rfl, rfl, rfl⟩ |
        ⟨rfl, rfl, rfl⟩
      · exact hfor (for_mem_iff.mp hfirst) "ITER_" (by simp) (for_mem_iff.mp hb)
      · exact hfor (for_mem_iff.mp hfirst) "THEN_" (by simp) (for_mem_iff.mp hb)
      · exact hfor (for_mem_iff.mp hfirst) "END_" (by simp) (for_mem_iff.mp hb)
      · exact hdo (do_mem_iff.mp hfirst) "TEST_" (by simp) (do_mem_iff.mp hb)
      · exact hdo (do_mem_iff.mp hfirst) "END_" (by simp) (do_mem_iff.mp hb)
  | storage x =>
      exact h.storage x (hshort.objects_eq.2 ▸ storage_mem_iff.mp ha)
        (hshort.objects_eq.1 ▸ global_mem_iff.mp hb)
  | contents k =>
      exact h.texts k (contents_mem_iff.mp ha) (hshort.objects_eq.1 ▸ global_mem_iff.mp hb)
  | goto htext hne => exact hne ((h.gotos _ _ (goto_mem_iff.mp ha)).not_clash hshort hb htext)

theorem clear_of_not_clash (hshort : Short max ds) (hobjects : (objects max ds).Nodup)
    (hswitches : ∀ d ∈ ds, d.Distinct)
    (h : ∀ a b, Clash a b → a ∈ labels max ds → b ∉ labels max ds) : Clear ds := by
  obtain ⟨hnames, harrays⟩ := hshort.objects_eq
  have hglobal {x : Name} (hx : x ∈ variableNames ds) : .global x ∈ labels max ds :=
    global_mem_iff.mpr (hnames ▸ hx)
  have hstorage {x : Name} (hx : x ∈ arrayVariables ds) : .storage x ∈ labels max ds :=
    storage_mem_iff.mpr (harrays ▸ hx)
  refine ⟨hnames ▸ hobjects, hswitches, fun x hx hin => ?_, fun k hk hin => ?_,
    fun f n => ⟨fun hf x hx hg => ?_, fun hf x hx hg => ?_⟩, fun l f hgoto => ?_⟩
  · exact h _ _ (.storage x) (hstorage hx) (hglobal hin)
  · exact h _ _ (.contents k) (contents_mem_iff.mpr hk) (hglobal hin)
  · have hloop (p : Part) (hin : (Part.forLoop, x.toList, p) ∈ longer) : False :=
      h _ _ (.loop f n hin) ((loop_mem_iff hin).mpr (for_mem_iff.mpr hf)) (for_mem_iff.mpr hg)
    simp only [List.mem_cons, List.not_mem_nil, or_false] at hx
    rcases hx with rfl | rfl | rfl
    · exact hloop .forIter (by decide)
    · exact hloop .forThen (by decide)
    · exact hloop .forEnd (by decide)
  · have hloop (p : Part) (hin : (Part.doLoop, x.toList, p) ∈ longer) : False :=
      h _ _ (.loop f n hin) ((loop_mem_iff hin).mpr (do_mem_iff.mpr hf)) (do_mem_iff.mpr hg)
    simp only [List.mem_cons, List.not_mem_nil, or_false] at hx
    rcases hx with rfl | rfl
    · exact hloop .doTest (by decide)
    · exact hloop .doEnd (by decide)
  · have hnone (b : Label) (hb : b ∈ labels max ds) (hne : b ≠ .goto l f) :
        b.plain ≠ plainGoto l f := fun htext =>
      h _ b (.goto htext hne) (goto_mem_iff.mpr hgoto) hb
    refine ⟨fun l' f' hin htext => ?_, fun g hg => hnone _ (function_mem_iff.mpr hg) (by simp),
      fun x hx => hnone _ (hglobal hx) (by simp), fun x hx => hnone _ (hstorage hx) (by simp),
      fun k hk => hnone _ (contents_mem_iff.mpr hk) (by simp), fun g n x hx start hstart => ?_⟩
    · by_contra hne
      refine hnone (.goto l' f') (goto_mem_iff.mpr hin) (fun heq => hne ?_) htext
      exact Label.goto.inj heq
    · by_cases hstring : x = .string
      · subst hstring
        obtain rfl := List.mem_singleton.mp hstart
        exact hnone (.string g n) (string_mem_iff.mpr hx) (by simp)
      · rw [starts_eq hstring] at hstart
        obtain ⟨p, hp, rfl⟩ := List.mem_map.mp hstart
        exact hnone (.part p g n) (part_mem_iff.mpr ⟨x, hx, hp⟩) (by simp)

end

/-- `switch (x) { case 0: case 4294967296: }`. -/
def twoCases : List Definition :=
  [.function ['f'] <|
    .switch .plain (.case 0 (.expr .plain) (.case 4294967296 (.expr .plain) .done))]

theorem twoCases_short : Short 4096 twoCases where
  statics := by simp [twoCases, Stmt.statics, Items.statics]
  gotos := by simp [twoCases, gotos, Stmt.gotos, Items.gotos]
  texts := by simp [twoCases, texts, textsOf, Stmt.statics, Items.statics]
  numbers := by
    rintro g n x ⟨us, hin, hx⟩ start hstart
    have huses : usesFrom [] twoCases = [(['f'], [.switch [some 0, some 0]])] := by decide
    rw [huses, List.mem_singleton] at hin
    obtain ⟨rfl, rfl⟩ := Prod.mk.inj hin
    cases n with
    | zero =>
        obtain rfl := Option.some.inj hx
        have hall : ∀ start ∈ (Use.switch [some 0, some 0]).joined,
            (start ++ (['f'] ++ '_' :: Nat.toDigits 10 0)).length < 4096 := by decide
        exact hall start hstart
    | succ n => cases hx

end Veron.MicroC.Labels
