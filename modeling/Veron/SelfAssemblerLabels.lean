/-
The two spellings of a label, one character on a line of its own and a pair of characters,
and the entries of the symbol table that `sym_idx` finds for them.
-/
import Veron.SelfAssemblerText

namespace Veron.SelfAssembler

open Line

/-- A printable character with the newline that ends it, or a pair of printable ones. -/
inductive Spelling where
  | single (c : Byte) (h : Printable c)
  | pair (c₁ c₂ : Byte) (h₁ : Printable c₁) (h₂ : Printable c₂)
deriving DecidableEq

namespace Spelling

variable {l l' : Spelling}

/-- The characters that `sym_idx` takes. -/
def text : Spelling → List Byte
  | single c _ => [c, 0x0a]
  | pair c₁ c₂ _ _ => [c₁, c₂]

/-- `sym_idx` finds different entries for the two labels, both in the table. -/
def Separate (l l' : Spelling) : Prop :=
  ∃ k k' : Slot, k ≠ k' ∧ ∀ rest nw,
    symIdx.run ⟨l.text ++ rest, nw⟩ = .ok (k, ⟨rest, nw⟩) ∧
      symIdx.run ⟨l'.text ++ rest, nw⟩ = .ok (k', ⟨rest, nw⟩)

/-- The single `!`, whose newline leads to before the table. -/
def Astray : Spelling → Prop
  | single c _ => c = 0x21
  | pair _ _ _ _ => False

/-- A single character stands for the one before it and an `h`. -/
def Shares : Spelling → Spelling → Prop
  | single c _, pair c₁ c₂ _ _ => c = c₁ + 1 ∧ c₂ = ch 'h'
  | _, _ => False

instance (l : Spelling) : Decidable l.Astray := by
  cases l <;> unfold Astray <;> infer_instance

instance (l l' : Spelling) : Decidable (l.Shares l') := by
  cases l <;> cases l' <;> unfold Shares <;> infer_instance

/-- The newline borrows from the row before, which is its column of `h`. -/
theorem symOffset_newline : ∀ c : Byte, c ≠ 0 →
    symOffset c 0x0a = symOffset (c - 1) (ch 'h') := by
  decide

theorem printable_sub_one : ∀ c : Byte, Printable c → c ≠ 0x21 → Printable (c - 1) := by
  decide

/-- The pair whose entry a label has, where it has one. -/
def entry : Spelling → Byte × Byte
  | single c _ => (c - 1, ch 'h')
  | pair c₁ c₂ _ _ => (c₁, c₂)

theorem entry_printable (hl : ¬ l.Astray) : Printable l.entry.1 ∧ Printable l.entry.2 := by
  cases l with
  | single c h => exact ⟨printable_sub_one c h hl, (by decide : Printable (ch 'h'))⟩
  | pair c₁ c₂ h₁ h₂ => exact ⟨h₁, h₂⟩

theorem run_entry (hl : ¬ l.Astray) : ∃ k : Slot,
    slotOf (symOffset l.entry.1 l.entry.2) = some k ∧
      ∀ rest nw, symIdx.run ⟨l.text ++ rest, nw⟩ = .ok (k, ⟨rest, nw⟩) := by
  obtain ⟨h₁, h₂⟩ := entry_printable hl
  obtain ⟨k, hk, _⟩ := slotOf_printable h₁ h₂
  refine ⟨k, hk, fun rest nw => ?_⟩
  cases l with
  | single c h =>
      have hne : c ≠ 0 := fun h0 => by
        rw [h0] at h
        exact absurd h (by decide)
      rw [entry, ← symOffset_newline c hne] at hk
      exact symIdx_run hk
  | pair c₁ c₂ _ _ => exact symIdx_run hk

theorem run_astray (hl : l.Astray) (rest : List Byte) (nw : Bool) :
    symIdx.run ⟨l.text ++ rest, nw⟩ = .error .wild := by
  cases l with
  | single c h =>
      obtain rfl : c = 0x21 := hl
      have hnone : slotOf (symOffset 0x21 0x0a) = none := by decide
      simp only [text, List.cons_append, List.nil_append, symIdx, run_bind, run_peek, run_advance,
        List.getD_cons_zero, List.getD_cons_succ, hnone]
      rfl
  | pair _ _ _ _ => exact absurd hl id

theorem sub_one_eq_iff {c d : Byte} : c - 1 = d ↔ c = d + 1 := by
  constructor <;> rintro rfl <;> bv_omega

/-- Two labels have one entry only where one is a single character. -/
theorem entry_eq_iff (hne : l ≠ l') :
    l.entry = l'.entry ↔ l.Shares l' ∨ l'.Shares l := by
  cases l with
  | single c h =>
      cases l' with
      | single d _ =>
          have hcd : c ≠ d := fun heq => hne (by subst heq; rfl)
          simp [entry, Shares, hcd]
      | pair d₁ d₂ _ _ =>
          rw [entry, entry, Prod.mk.injEq, sub_one_eq_iff, eq_comm (a := ch 'h')]
          exact (or_iff_left id).symm
  | pair c₁ c₂ h₁ h₂ =>
      cases l' with
      | single d _ =>
          rw [eq_comm, entry, entry, Prod.mk.injEq, sub_one_eq_iff, eq_comm (a := ch 'h')]
          exact (or_iff_right id).symm
      | pair d₁ d₂ _ _ =>
          have hcd : ¬ (c₁ = d₁ ∧ c₂ = d₂) := fun ⟨heq₁, heq₂⟩ => hne (by subst heq₁ heq₂; rfl)
          simpa [entry, Shares] using hcd

/-- Two labels have entries of their own except for the single `!`, and for a single
character beside the pair of the character before it and `h`. -/
theorem separate_iff (hne : l ≠ l') :
    l.Separate l' ↔ ¬ l.Astray ∧ ¬ l'.Astray ∧ ¬ l.Shares l' ∧ ¬ l'.Shares l := by
  by_cases hl : l.Astray
  · refine iff_of_false ?_ fun h => h.1 hl
    rintro ⟨k, k', _, hrun⟩
    cases (run_astray hl [] false).symm.trans (hrun [] false).1
  by_cases hl' : l'.Astray
  · refine iff_of_false ?_ fun h => h.2.1 hl'
    rintro ⟨k, k', _, hrun⟩
    cases (run_astray hl' [] false).symm.trans (hrun [] false).2
  obtain ⟨k, hk, hrun⟩ := run_entry hl
  obtain ⟨k', hk', hrun'⟩ := run_entry hl'
  have hentry : k = k' ↔ l.entry = l'.entry := by
    constructor
    · rintro rfl
      obtain ⟨h₁, h₂⟩ := entry_printable hl
      obtain ⟨h₁', h₂'⟩ := entry_printable hl'
      obtain ⟨heq₁, heq₂⟩ := slotOf_injective h₁ h₂ h₁' h₂' hk hk'
      exact Prod.ext heq₁ heq₂
    · intro heq
      rw [heq] at hk
      exact Option.some.inj (hk.symm.trans hk')
  rw [← not_or, ← entry_eq_iff hne, ← hentry]
  refine ⟨?_, fun h => ⟨k, k', h.2.2, fun rest nw => ⟨hrun rest nw, hrun' rest nw⟩⟩⟩
  rintro ⟨m, m', hm, hruns⟩
  have hkm := (hrun [] false).symm.trans (hruns [] false).1
  have hkm' := (hrun' [] false).symm.trans (hruns [] false).2
  cases hkm
  cases hkm'
  exact ⟨hl, hl', hm⟩

/-- The labels `A` and `Ah`. -/
theorem separate_pair : Separate (single (ch 'A') (by decide))
    (pair (ch 'A') (ch 'h') (by decide) (by decide)) :=
  (separate_iff (by decide)).mpr (by decide)

/-- The label `B` on a line of its own has the entry of the label `Ah`. -/
theorem not_separate : ¬ Separate (single (ch 'B') (by decide))
    (pair (ch 'A') (ch 'h') (by decide) (by decide)) := by
  intro h
  have hk : slotOf (symOffset (ch 'B') 0x0a) = some ⟨3079, by decide⟩ := by decide +kernel
  have hk' : slotOf (symOffset (ch 'A') (ch 'h')) = some ⟨3079, by decide⟩ := by decide +kernel
  obtain ⟨k, k', hne, hrun⟩ := h
  cases (symIdx_run hk).symm.trans (hrun [] false).1
  cases (symIdx_run hk').symm.trans (hrun [] false).2
  exact hne rfl

end Spelling

end Veron.SelfAssembler
