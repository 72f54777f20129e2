/-
The language of the self-assembler: how an instruction is spelled, field by
field, and what the operand routines read from such a line.
-/
import Veron.SelfAssemblerText

namespace Veron.SelfAssembler

open A64 Line

/-- Operands as they are written: a register, a number, or a position of the
output that a label or `@` and a number stands for. -/
inductive Operand where
  | reg (wd : Width) (n : ℕ)
  | num (v : ℕ)
  | target (p : ℤ)

def letter : Width → Byte
  | .w => ch 'w'
  | .x => ch 'x'

/-- Decimal digits that write a number. -/
def Digits (ds : List Byte) (v : ℕ) : Prop :=
  ds ≠ [] ∧ (∀ b ∈ ds, isDigit b = true) ∧ valueOf ds = v

/-- The text of an operand, given the table of the labels. -/
inductive OperandText (tab : Slot → Word) : Operand → List Byte → Prop where
  | reg {wd : Width} {n : ℕ} {ds : List Byte} (h : Digits ds n) :
      OperandText tab (.reg wd n) (letter wd :: ds)
  | num {v : ℕ} {ds : List Byte} (h : Digits ds v) : OperandText tab (.num v) ds
  | pos {v : ℕ} {ds : List Byte} (h : Digits ds v) : OperandText tab (.target v) (ch '@' :: ds)
  | label {c₁ c₂ : Byte} {k : Slot} (h₁ : Printable c₁) (h₂ : Printable c₂)
      (hat : ¬ (c₁ = ch '@' ∧ isDigit c₂ = true)) (hk : slotOf (symOffset c₁ c₂) = some k) :
      OperandText tab (.target (tab k).toNat) [c₁, c₂]

def Blanks (bl : List Byte) : Prop := bl ≠ [] ∧ ∀ b ∈ bl, isBlank b = true

/-- What may follow the operands: blanks, then the end of the line or of the
input, or a comment. -/
def LineEnd (tail : List Byte) : Prop :=
  Avoids (fun b => b ≠ 0x0a && b ≠ 0x0d && b ≠ ch '#') (tail.dropWhile isBlank)

/-- Operands in order, each after blanks, and what is left after them. -/
inductive Spells (tab : Slot → Word) : List Operand → List Byte → List Byte → Prop where
  | nil {tail : List Byte} (h : LineEnd tail) : Spells tab [] tail tail
  | cons {op : Operand} {ops : List Operand} {bl txt rest tail : List Byte} (hbl : Blanks bl)
      (htxt : OperandText tab op txt) (h : Spells tab ops rest tail) :
      Spells tab (op :: ops) (bl ++ (txt ++ rest)) tail

/-- The width flag after a register of a width. -/
def isNarrow : Width → Bool
  | .w => true
  | .x => false

section Reading

variable {tab : Slot → Word} {ops : List Operand} {t tail ds rest bl : List Byte} {b : Byte}
  {wd : Width} {n v : ℕ} {p : ℤ} {op : Operand}

theorem letter_eq (wd : Width) : decide (letter wd = ch 'w') = isNarrow wd := by
  cases wd <;> rfl

theorem isRegLetter_letter (wd : Width) : isRegLetter (letter wd) = true := by
  cases wd <;> rfl

theorem letter_not_isWs (wd : Width) : isWs (letter wd) = false := by
  cases wd <;> rfl

theorem letter_not_isBlank (wd : Width) : isBlank (letter wd) = false := by
  cases wd <;> rfl

theorem digit_not_isWs (h : isDigit b = true) : isWs b = false := by
  have hrange := isDigit_iff.mp h
  simp only [isWs, Bool.or_eq_false_iff, decide_eq_false_iff_not]
  refine ⟨⟨⟨?_, ?_⟩, ?_⟩, ?_⟩ <;> rintro rfl <;> revert hrange <;> decide

theorem digit_not_isRegLetter (h : isDigit b = true) : isRegLetter b = false := by
  have hrange := isDigit_iff.mp h
  simp only [isRegLetter, Bool.or_eq_false_iff, decide_eq_false_iff_not]
  refine ⟨?_, ?_⟩ <;> rintro rfl <;> revert hrange <;> decide

theorem isBlank_cases (h : isBlank b = true) : b = 0x20 ∨ b = 0x09 := by
  simpa only [isBlank, Bool.or_eq_true, decide_eq_true_eq] using h

theorem isBlank_not_isDigit (h : isBlank b = true) : isDigit b = false := by
  rcases isBlank_cases h with rfl | rfl <;> rfl

theorem not_isBlank_of_not_isWs (h : isWs b = false) : isBlank b = false := by
  rw [← Bool.not_eq_true] at h ⊢
  exact fun hb => h (isWs_of_isBlank hb)

theorem Blanks.isWs (h : Blanks bl) : ∀ b ∈ bl, isWs b = true :=
  fun b hb => isWs_of_isBlank (h.2 b hb)

theorem Digits.cons (h : Digits ds v) : ∃ b ds', ds = b :: ds' ∧ isDigit b = true := by
  obtain ⟨b, ds', rfl⟩ := List.exists_cons_of_ne_nil h.1
  exact ⟨b, ds', rfl, h.2.1 b List.mem_cons_self⟩

/-- Operands other than the first stand after a blank. -/
theorem Spells.head (h : Spells tab (op :: ops) t tail) :
    ∃ b t', t = b :: t' ∧ (b = 0x20 ∨ b = 0x09) := by
  cases h with
  | cons hbl htxt h =>
      obtain ⟨b, bl', rfl⟩ := List.exists_cons_of_ne_nil hbl.1
      exact ⟨b, _, rfl, isBlank_cases (hbl.2 b List.mem_cons_self)⟩

theorem LineEnd.cases (h : LineEnd tail) :
    tail.dropWhile isBlank = [] ∨
      ∃ b t, tail.dropWhile isBlank = b :: t ∧ (b = 0x0a ∨ b = 0x0d ∨ b = ch '#') := by
  unfold LineEnd at h
  match hdrop : tail.dropWhile isBlank with
  | [] => exact .inl rfl
  | b :: t =>
      rw [hdrop] at h
      have hb := h b rfl
      simp only [Bool.and_eq_false_iff, decide_eq_false_iff_not, not_not] at hb
      exact .inr ⟨b, t, rfl, by tauto⟩

/-- The end of a line does not lengthen a number. -/
theorem LineEnd.avoids_digit (h : LineEnd tail) : Avoids isDigit tail := by
  rintro b hb
  obtain ⟨t, rfl⟩ : ∃ t, tail = b :: t := by
    cases tail with
    | nil => cases hb
    | cons a t => exact ⟨t, by rw [Option.some.inj hb]⟩
  by_cases hblank : isBlank b = true
  · exact isBlank_not_isDigit hblank
  · rcases h.cases with hnil | ⟨a, u, hcons, ha⟩
    · rw [List.dropWhile_cons_of_neg hblank] at hnil
      cases hnil
    · rw [List.dropWhile_cons_of_neg hblank] at hcons
      cases hcons
      rcases ha with rfl | rfl | rfl <;> rfl

/-- What follows an operand does not lengthen a number. -/
theorem Spells.avoids_digit (h : Spells tab ops t tail) : Avoids isDigit t := by
  cases ops with
  | nil =>
      cases h with
      | nil h => exact h.avoids_digit
  | cons op ops =>
      obtain ⟨b, t', rfl, hb⟩ := h.head
      rintro a ⟨rfl⟩
      rcases hb with rfl | rfl <;> rfl

/-- A register operand: blanks, its letter and its number. -/
theorem Spells.reg (h : Spells tab (.reg wd n :: ops) t tail) :
    ∃ bl ds rest, t = bl ++ letter wd :: (ds ++ rest) ∧ Blanks bl ∧ Digits ds n ∧
      Spells tab ops rest tail := by
  cases h with
  | cons hbl htxt h =>
      cases htxt with
      | reg hds => exact ⟨_, _, _, rfl, hbl, hds, h⟩

theorem Spells.num (h : Spells tab (.num v :: ops) t tail) :
    ∃ bl ds rest, t = bl ++ (ds ++ rest) ∧ Blanks bl ∧ Digits ds v ∧
      Spells tab ops rest tail := by
  cases h with
  | cons hbl htxt h =>
      cases htxt with
      | num hds => exact ⟨_, _, _, rfl, hbl, hds, h⟩

theorem Digits.parseDec_run (h : Digits ds v) (hrest : Spells tab ops rest tail) (nw : Bool) :
    parseDec.run ⟨ds ++ rest, nw⟩ = .ok (BitVec.ofNat 32 v, ⟨rest, nw⟩) := by
  rw [SelfAssembler.parseDec_run h.2.1 hrest.avoids_digit, h.2.2]

theorem Digits.nextReg_run (h : Digits ds n) (hrest : Spells tab ops rest tail) (wd : Width)
    (nw : Bool) :
    nextReg.run ⟨letter wd :: (ds ++ rest), nw⟩ =
      .ok (BitVec.ofNat 32 n, ⟨rest, nw || isNarrow wd⟩) := by
  have hrun : nextReg.run ⟨[] ++ letter wd :: (ds ++ rest), nw⟩ = _ :=
    SelfAssembler.nextReg_run (fun b hb => absurd hb List.not_mem_nil) (letter_not_isWs wd)
      h.2.1 hrest.avoids_digit
  rwa [h.2.2, letter_eq] at hrun

/-- `next_reg` reads a register operand. -/
theorem Spells.nextReg_run (h : Spells tab (.reg wd n :: ops) t tail) :
    ∃ rest, Spells tab ops rest tail ∧ ∀ nw,
      nextReg.run ⟨t, nw⟩ = .ok (BitVec.ofNat 32 n, ⟨rest, nw || isNarrow wd⟩) := by
  obtain ⟨bl, ds, rest, rfl, hbl, hds, hrest⟩ := h.reg
  refine ⟨rest, hrest, fun nw => ?_⟩
  rw [SelfAssembler.nextReg_run hbl.isWs (letter_not_isWs wd) hds.2.1 hrest.avoids_digit,
    hds.2.2, letter_eq]

/-- `skip_ws` lands on the letter of a register operand, from which it can be
read with or without its letter. -/
theorem Spells.skipWs_run_reg (h : Spells tab (.reg wd n :: ops) t tail) :
    ∃ t' rest, Spells tab ops rest tail ∧
      (∀ nw, skipWs.run ⟨t, nw⟩ = .ok ((), ⟨letter wd :: t', nw⟩)) ∧
      (∀ nw, parseDec.run ⟨t', nw⟩ = .ok (BitVec.ofNat 32 n, ⟨rest, nw⟩)) ∧
      ∀ nw, nextReg.run ⟨letter wd :: t', nw⟩ =
        .ok (BitVec.ofNat 32 n, ⟨rest, nw || isNarrow wd⟩) := by
  obtain ⟨bl, ds, rest, rfl, hbl, hds, hrest⟩ := h.reg
  refine ⟨ds ++ rest, rest, hrest, fun nw => skipWs_run hbl.isWs ?_,
    fun nw => hds.parseDec_run hrest nw, fun nw => ?_⟩
  · rintro b ⟨rfl⟩
    exact letter_not_isWs wd
  · exact hds.nextReg_run hrest wd nw

/-- `skip_ws` lands on the first digit of a number. -/
theorem Spells.skipWs_run_num (h : Spells tab (.num v :: ops) t tail) :
    ∃ b t' rest, Spells tab ops rest tail ∧ isDigit b = true ∧
      (∀ nw, skipWs.run ⟨t, nw⟩ = .ok ((), ⟨b :: t', nw⟩)) ∧
      ∀ nw, parseDec.run ⟨b :: t', nw⟩ = .ok (BitVec.ofNat 32 v, ⟨rest, nw⟩) := by
  obtain ⟨bl, ds, rest, rfl, hbl, hds, hrest⟩ := h.num
  obtain ⟨b, ds', rfl, hb⟩ := hds.cons
  refine ⟨b, ds' ++ rest, rest, hrest, hb, fun nw => skipWs_run hbl.isWs ?_,
    fun nw => hds.parseDec_run hrest nw⟩
  rintro a ⟨rfl⟩
  exact digit_not_isWs hb

theorem skipBlanks_run (hbl : ∀ b ∈ bl, isBlank b = true) (hb : isBlank b = false) (nw : Bool) :
    (skipWhile isBlank).run ⟨bl ++ b :: rest, nw⟩ = .ok ((), ⟨b :: rest, nw⟩) := by
  rw [run_skipWhile, dropWhile_run hbl]
  rintro a ⟨rfl⟩
  exact hb

/-- An optional number that is there. -/
theorem Spells.optDec_run (h : Spells tab (.num v :: ops) t tail) :
    ∃ rest, Spells tab ops rest tail ∧ ∀ nw,
      optDec.run ⟨t, nw⟩ = .ok (BitVec.ofNat 32 v, ⟨rest, nw⟩) := by
  obtain ⟨bl, ds, rest, rfl, hbl, hds, hrest⟩ := h.num
  refine ⟨rest, hrest, fun nw => ?_⟩
  have hparse := hds.parseDec_run hrest nw
  obtain ⟨b, ds', rfl, hb⟩ := hds.cons
  rw [List.cons_append] at hparse ⊢
  have hskip := @skipBlanks_run (ds' ++ rest) bl b hbl.2
    (not_isBlank_of_not_isWs (digit_not_isWs hb)) nw
  have hfound : decAhead.run ⟨bl ++ b :: (ds' ++ rest), nw⟩ =
      .ok (some (BitVec.ofNat 32 v), ⟨rest, nw⟩) := by
    rw [decAhead, run_bind_ok hskip, run_peek_bind, List.getD_cons_zero, if_pos hb,
      run_bind_ok hparse, run_pure]
  have hkeep : (restoring decAhead).run ⟨bl ++ b :: (ds' ++ rest), nw⟩ =
      .ok (some (BitVec.ofNat 32 v), ⟨rest, nw⟩) := by
    rw [run_restoring, hfound]
  rw [optDec, run_bind_ok hkeep]
  rfl

/-- A line that ends here has no number ahead. -/
theorem LineEnd.optDec_run (h : LineEnd tail) (nw : Bool) :
    optDec.run ⟨tail, nw⟩ = .ok (0, ⟨tail, nw⟩) := by
  have hhead : isDigit ((tail.dropWhile isBlank).getD 0 0) = false := by
    rcases h.cases with hnil | ⟨b, t, hcons, rfl | rfl | rfl⟩
    · rw [hnil]
      rfl
    all_goals rw [hcons]; rfl
  have hnone : decAhead.run ⟨tail, nw⟩ = .ok (none, ⟨tail.dropWhile isBlank, nw⟩) := by
    rw [decAhead, run_bind_ok (run_skipWhile _ _), run_peek_bind, hhead,
      if_neg Bool.false_ne_true, run_pure]
  have hback : (restoring decAhead).run ⟨tail, nw⟩ = .ok (none, ⟨tail, nw⟩) := by
    rw [run_restoring, hnone]
  rw [optDec, run_bind_ok hback]
  rfl

/-- An optional register that is there. -/
theorem Spells.optReg_run (h : Spells tab (.reg wd n :: ops) t tail) :
    ∃ rest, Spells tab ops rest tail ∧ ∀ nw,
      optReg.run ⟨t, nw⟩ = .ok (some (BitVec.ofNat 32 n), ⟨rest, nw || isNarrow wd⟩) := by
  obtain ⟨bl, ds, rest, rfl, hbl, hds, hrest⟩ := h.reg
  refine ⟨rest, hrest, fun nw => ?_⟩
  have hskip := @skipBlanks_run (ds ++ rest) bl (letter wd) hbl.2 (letter_not_isBlank wd) nw
  have hread := hds.nextReg_run hrest wd nw
  have hletter : (decide (letter wd = ch 'w') || decide (letter wd = ch 'x')) = true := by
    cases wd <;> rfl
  have hfound : regAhead.run ⟨bl ++ letter wd :: (ds ++ rest), nw⟩ =
      .ok (some (BitVec.ofNat 32 n), ⟨rest, nw || isNarrow wd⟩) := by
    rw [regAhead, run_bind_ok hskip, run_peek_bind, List.getD_cons_zero, if_pos hletter]
    exact (run_bind_ok hread).trans rfl
  rw [optReg, run_restoring, hfound]

theorem optReg_run_none (h : isRegLetter ((t.dropWhile isBlank).getD 0 0) = false) (nw : Bool) :
    optReg.run ⟨t, nw⟩ = .ok (none, ⟨t, nw⟩) := by
  rw [isRegLetter, Bool.or_comm] at h
  have hnone : regAhead.run ⟨t, nw⟩ = .ok (none, ⟨t.dropWhile isBlank, nw⟩) := by
    rw [regAhead, run_bind_ok (run_skipWhile _ _), run_peek_bind, h,
      if_neg Bool.false_ne_true, run_pure]
  rw [optReg, run_restoring, hnone]

/-- A number ahead is no register. -/
theorem Spells.optReg_run_num (h : Spells tab (.num v :: ops) t tail) (nw : Bool) :
    optReg.run ⟨t, nw⟩ = .ok (none, ⟨t, nw⟩) := by
  obtain ⟨bl, ds, rest, rfl, hbl, hds, hrest⟩ := h.num
  obtain ⟨b, ds', rfl, hb⟩ := hds.cons
  apply optReg_run_none
  rw [dropWhile_run hbl.2]
  · exact digit_not_isRegLetter hb
  · rintro a ⟨rfl⟩
    exact not_isBlank_of_not_isWs (digit_not_isWs hb)

theorem LineEnd.optReg_run (h : LineEnd tail) (nw : Bool) :
    optReg.run ⟨tail, nw⟩ = .ok (none, ⟨tail, nw⟩) := by
  apply optReg_run_none
  rcases h.cases with hnil | ⟨b, t, hcons, rfl | rfl | rfl⟩
  · rw [hnil]
    rfl
  all_goals rw [hcons]; rfl

/-- A target is read as something that stands for its position. -/
theorem Spells.target_run (h : Spells tab (.target p :: ops) t tail) :
    ∃ tg rest, Spells tab ops rest tail ∧ (∀ nw, target.run ⟨t, nw⟩ = .ok (tg, ⟨rest, nw⟩)) ∧
      ∀ s : State, s.tab = tab → s.value tg = BitVec.ofInt 32 p := by
  cases h with
  | cons hbl htxt hrest =>
      rename_i bl txt rest
      cases htxt with
      | pos hds =>
          rename_i v ds
          refine ⟨.pos (BitVec.ofNat 32 v), rest, hrest, fun nw => ?_, fun s _ => ?_⟩
          · have hskip : skipWs.run ⟨bl ++ (ch '@' :: ds ++ rest), nw⟩ =
                .ok ((), ⟨ch '@' :: (ds ++ rest), nw⟩) := by
              apply skipWs_run hbl.isWs
              rintro b ⟨rfl⟩
              rfl
            have hparse := hds.parseDec_run hrest nw
            obtain ⟨b, ds', rfl, hb⟩ := hds.cons
            rw [target, run_bind_ok hskip, run_peek_bind, run_peek_bind]
            simp only [List.getD_cons_zero, List.getD_cons_succ, List.cons_append, hb,
              decide_true, Bool.and_self, if_true]
            rw [run_bind_ok (run_advance 1 _), List.drop_succ_cons, List.drop_zero,
              ← List.cons_append, run_bind_ok hparse, run_pure]
          · exact (BitVec.ofInt_natCast 32 v).symm
      | label h₁ h₂ hat hk =>
          rename_i c₁ c₂ k
          refine ⟨.label k, rest, hrest, target_run_slot hbl.isWs h₁ hat hk, fun s hs => ?_⟩
          rw [State.value, hs, BitVec.ofInt_natCast, BitVec.ofNat_toNat, BitVec.setWidth_eq]

end Reading

end Veron.SelfAssembler
