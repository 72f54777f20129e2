/-
Running the self-assembler's line routines: how a run is composed, and that
every line reads at least one character.
-/
import Veron.SelfAssembler

namespace Veron.SelfAssembler

namespace Line

variable {α β : Type} {m : Line α} {f : α → Line β} {c c' : Cursor} {a : α} {e : Fault}

@[simp] theorem run_pure (a : α) (c : Cursor) : (pure a : Line α).run c = .ok (a, c) := rfl

@[simp] theorem run_bind (m : Line α) (f : α → Line β) (c : Cursor) :
    (m >>= f).run c =
      match m.run c with
      | .error e => .error e
      | .ok (a, c') => (f a).run c' := by
  unfold run
  simp only [bind]
  cases m c with
  | error e => rfl
  | ok p =>
      obtain ⟨⟨a, c'⟩, h⟩ := p
      dsimp only [Except.map]
      cases f a c' with
      | error e => rfl
      | ok q => rfl

theorem run_bind_ok (h : m.run c = .ok (a, c')) : (m >>= f).run c = (f a).run c' := by
  rw [run_bind, h]

theorem run_bind_error (h : m.run c = .error e) : (m >>= f).run c = .error e := by
  rw [run_bind, h]

/-- A routine that ends well leaves the cursor where it was or further on. -/
theorem rest_suffix (h : m.run c = .ok (a, c')) : c'.rest <:+ c.rest := by
  unfold run at h
  cases hm : m c with
  | error e =>
      rw [hm] at h
      cases h
  | ok p =>
      rw [hm] at h
      obtain ⟨q, hq⟩ := p
      cases h
      exact hq

/-- A run of a sequence that ends well is a run of its first part, then one of
the second. -/
theorem of_run_bind {b : β} {d : Cursor} (h : (m >>= f).run c = .ok (b, d)) :
    ∃ a c', m.run c = .ok (a, c') ∧ (f a).run c' = .ok (b, d) := by
  cases hm : m.run c with
  | error e =>
      rw [run_bind_error hm] at h
      cases h
  | ok p =>
      obtain ⟨a, c'⟩ := p
      rw [run_bind_ok hm] at h
      exact ⟨a, c', rfl, h⟩

/-- Reading at least one character of an input that is not at its end. -/
def Consumes (m : Line α) : Prop :=
  ∀ c a c', c.rest ≠ [] → m.run c = .ok (a, c') → c'.rest.length < c.rest.length

@[simp] theorem run_getCursor (c : Cursor) : getCursor.run c = .ok (c, c) := rfl

@[simp] theorem run_peek (n : ℕ) (c : Cursor) :
    (peek n).run c = .ok (c.rest.getD n 0, c) := rfl

theorem run_peek_bind (n : ℕ) (f : Byte → Line β) (c : Cursor) :
    (peek n >>= f).run c = (f (c.rest.getD n 0)).run c := run_bind_ok (run_peek n c)

theorem run_ite (p : Prop) [Decidable p] (m n : Line α) (c : Cursor) :
    (if p then m else n).run c = if p then m.run c else n.run c := by
  split <;> rfl

@[simp] theorem run_advance (n : ℕ) (c : Cursor) :
    (advance n).run c = .ok ((), { c with rest := c.rest.drop n }) := rfl

@[simp] theorem run_skipWhile (p : Byte → Bool) (c : Cursor) :
    (skipWhile p).run c = .ok ((), { c with rest := c.rest.dropWhile p }) := rfl

@[simp] theorem run_noteWidth (b : Byte) (c : Cursor) :
    (noteWidth b).run c = .ok ((), { c with narrow := c.narrow || b = ch 'w' }) := rfl

@[simp] theorem run_die (c : Cursor) : (die : Line α).run c = .error .die := rfl

theorem run_restoring (m : Line (Option α)) (c : Cursor) :
    (restoring m).run c =
      match m.run c with
      | .ok (none, _) => .ok (none, c)
      | r => r := by
  unfold run restoring
  cases m c with
  | error e => rfl
  | ok p =>
      obtain ⟨⟨a, c'⟩, h⟩ := p
      cases a with
      | none => rfl
      | some a => rfl

/-- Looking at the input without moving the cursor. -/
def Looks (m : Line α) : Prop := ∀ c, ∃ a, m.run c = .ok (a, c)

theorem looks_peek (n : ℕ) : Looks (peek n) := fun c => ⟨_, run_peek n c⟩

theorem Consumes.look (hm : Looks m) (hf : ∀ a, Consumes (f a)) : Consumes (m >>= f) := by
  intro c b d hc hrun
  obtain ⟨a, ha⟩ := hm c
  rw [run_bind_ok ha] at hrun
  exact hf a c b d hc hrun

theorem consumes_advance (n : ℕ) (f : Unit → Line β) : Consumes (advance (n + 1) >>= f) := by
  intro c b d hc hrun
  rw [run_bind_ok (run_advance (n + 1) c)] at hrun
  have hle := (rest_suffix hrun).length_le
  have hpos := List.length_pos_iff.mpr hc
  rw [List.length_drop] at hle
  omega

theorem Consumes.ite {p : Prop} [Decidable p] {m n : Line α} (hm : Consumes m)
    (hn : Consumes n) : Consumes (if p then m else n) := by
  split
  · exact hm
  · exact hn

theorem consumes_die : Consumes (die : Line α) := by
  intro c a c' _ h
  cases h

end Line

open Line

theorem consumes_peek {n : ℕ} {α : Type} {f : Byte → Line α} (hf : ∀ b, Consumes (f b)) :
    Consumes (peek n >>= f) :=
  .look (looks_peek n) hf

theorem skipLine_consumes : Consumes skipLine := by
  intro c a c' hc hrun
  have hskip : skipLine.run c =
      .ok (.comment, { c with rest := (c.rest.dropWhile (· ≠ 0x0a)).drop 1 }) := rfl
  rw [hskip] at hrun
  cases hrun
  have hle := (List.dropWhile_suffix (l := c.rest) (· ≠ 0x0a)).length_le
  have hpos := List.length_pos_iff.mpr hc
  dsimp only
  rw [List.length_drop]
  omega

theorem hMov_consumes : Consumes hMov := by
  refine consumes_peek fun b => .ite (consumes_advance 2 _) ?_
  refine consumes_peek fun b => .ite (consumes_advance 3 _) ?_
  exact consumes_peek fun b => .ite (consumes_advance 3 _) (consumes_advance 2 _)

theorem hA_consumes : Consumes hA := by
  refine consumes_peek fun b => .ite (consumes_advance 2 _) ?_
  refine consumes_peek fun b => .ite (consumes_advance 2 _) ?_
  refine consumes_peek fun b => .ite (consumes_advance 2 _) ?_
  exact consumes_peek fun b => .ite (consumes_advance 2 _) consumes_die

theorem hBranch_consumes : Consumes hBranch := by
  refine consumes_peek fun b => .ite (consumes_advance 1 _) (.ite ?_ ?_)
  · exact consumes_peek fun b => .ite (consumes_advance 2 _) (consumes_advance 1 _)
  · exact .ite (consumes_advance 1 _) (consumes_advance 0 _)

theorem hL_consumes : Consumes hL := by
  refine consumes_peek fun b => .ite ?_ ?_
  · exact consumes_peek fun b => .ite (consumes_advance 2 _) (consumes_advance 2 _)
  · refine consumes_peek fun b => .ite (consumes_advance 3 _) ?_
    refine consumes_peek fun b => .ite (consumes_advance 3 _) ?_
    refine consumes_peek fun b => .ite ?_ (consumes_advance 2 _)
    exact consumes_peek fun b => consumes_advance 4 _

theorem hS_consumes : Consumes hS := by
  refine consumes_peek fun b => .ite (consumes_advance 2 _) (.ite (consumes_advance 2 _) ?_)
  refine .ite ?_ (.ite (consumes_advance 3 _) consumes_die)
  refine consumes_peek fun b => .ite (consumes_advance 3 _) ?_
  exact consumes_peek fun b => .ite (consumes_advance 3 _) (consumes_advance 2 _)

theorem doDot_consumes : Consumes doDot :=
  consumes_peek fun _ =>
    .ite (consumes_advance 4 _) (.ite (consumes_advance 5 _) consumes_die)

theorem parseCode_consumes (b : Byte) : Consumes (parseCode b) := by
  refine .ite doDot_consumes (.ite hMov_consumes (.ite hA_consumes ?_))
  refine .ite (consumes_advance 2 _) (.ite hBranch_consumes (.ite hL_consumes ?_))
  refine .ite hS_consumes (.ite (consumes_advance 2 _) (.ite (consumes_advance 2 _) ?_))
  exact .ite (consumes_advance 3 _) (.ite (consumes_advance 2 _) consumes_die)

/-- Every line reads at least its first character. -/
theorem parseItem_consumes : Consumes parseItem := by
  refine consumes_peek fun b => .ite skipLine_consumes (.ite (consumes_advance 0 _) ?_)
  intro c a c' hc hrun
  obtain ⟨code, c₁, hcode, hrun⟩ := of_run_bind hrun
  cases hrun
  exact parseCode_consumes b c code _ hc hcode

end Veron.SelfAssembler
