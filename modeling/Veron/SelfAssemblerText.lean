/-
What the self-assembler's routines read from text: white space, numbers,
registers, labels and references to them.
-/
import Veron.SelfAssemblerLine
import Veron.SelfAssemblerWords

namespace Veron.SelfAssembler

open A64 Line

def text (cs : List Char) : List Byte := cs.map ch

/-- The number that a run of digits writes. -/
def valueOf (ds : List Byte) : ℕ := ds.foldl (fun v b => v * 10 + (b.toNat - 0x30)) 0

/-- Text that does not begin with a byte of some kind. -/
def Avoids (p : Byte → Bool) (rest : List Byte) : Prop := ∀ b ∈ rest.head?, p b = false

variable {p : Byte → Bool} {ws ds rest : List Byte} {b c₁ c₂ : Byte} {nw : Bool}

theorem dropWhile_run (hws : ∀ b ∈ ws, p b = true) (hrest : Avoids p rest) :
    (ws ++ rest).dropWhile p = rest := by
  rw [List.dropWhile_append_of_pos hws]
  cases rest with
  | nil => rfl
  | cons b tail => rw [List.dropWhile_cons_of_neg (by simp [hrest b rfl])]

theorem isDigit_iff : isDigit b = true ↔ 0x30 ≤ b.toNat ∧ b.toNat ≤ 0x39 := by
  rw [isDigit, Bool.and_eq_true, decide_eq_true_eq, decide_eq_true_eq, BitVec.le_def,
    BitVec.le_def]
  rfl

theorem isWs_of_isBlank (h : isBlank b = true) : isWs b = true := by
  rw [isWs, Bool.or_assoc]
  rw [isBlank] at h
  rw [h, Bool.true_or]

theorem digit_step (v : ℕ) (hb : isDigit b = true) :
    BitVec.ofNat 32 v * 10 + (b - 0x30).setWidth 32 =
      BitVec.ofNat 32 (v * 10 + (b.toNat - 0x30)) := by
  have hrange := isDigit_iff.mp hb
  have hsub : (b - 0x30).toNat = b.toNat - 0x30 := by
    rw [BitVec.toNat_sub_of_le (show 0x30 ≤ b from BitVec.le_def.mpr hrange.1)]
    rfl
  apply BitVec.eq_of_toNat_eq
  rw [BitVec.toNat_add, BitVec.toNat_mul, BitVec.toNat_setWidth, hsub, BitVec.toNat_ofNat,
    BitVec.toNat_ofNat]
  have hten : (10 : Word).toNat = 10 := rfl
  rw [hten]
  omega

theorem digits_append (hds : ∀ b ∈ ds, isDigit b = true) (hrest : Avoids isDigit rest)
    (v : ℕ) :
    digits (BitVec.ofNat 32 v) (ds ++ rest) =
      BitVec.ofNat 32 (ds.foldl (fun v b => v * 10 + (b.toNat - 0x30)) v) := by
  induction ds generalizing v with
  | nil =>
      rw [List.nil_append, List.foldl_nil]
      cases rest with
      | nil => rfl
      | cons b tail => rw [digits, hrest b rfl, if_neg Bool.false_ne_true]
  | cons b ds ih =>
      have hb := hds b List.mem_cons_self
      rw [List.cons_append, digits, if_pos hb, digit_step v hb, List.foldl_cons]
      exact ih (fun d hd => hds d (List.mem_cons_of_mem b hd)) _

theorem parseDec_run (hds : ∀ b ∈ ds, isDigit b = true) (hrest : Avoids isDigit rest) :
    parseDec.run ⟨ds ++ rest, nw⟩ = .ok (BitVec.ofNat 32 (valueOf ds), ⟨rest, nw⟩) := by
  have hdigits := digits_append hds hrest 0
  simp only [parseDec, run_bind, run_getCursor, run_skipWhile, run_pure,
    dropWhile_run hds hrest]
  rw [show (0 : Word) = BitVec.ofNat 32 0 from rfl, hdigits, valueOf]

theorem skipWs_run (hws : ∀ b ∈ ws, isWs b = true) (hrest : Avoids isWs rest) :
    skipWs.run ⟨ws ++ rest, nw⟩ = .ok ((), ⟨rest, nw⟩) := by
  rw [skipWs, run_skipWhile, dropWhile_run hws hrest]

theorem nextReg_run {letter : Byte} (hws : ∀ b ∈ ws, isWs b = true)
    (hletter : isWs letter = false) (hds : ∀ b ∈ ds, isDigit b = true)
    (hrest : Avoids isDigit rest) :
    nextReg.run ⟨ws ++ letter :: (ds ++ rest), nw⟩ =
      .ok (BitVec.ofNat 32 (valueOf ds), ⟨rest, nw || letter = ch 'w'⟩) := by
  have hskip : Avoids isWs (letter :: (ds ++ rest)) := by
    rintro b ⟨rfl⟩
    exact hletter
  simp only [nextReg, run_bind, skipWs_run hws hskip, run_peek, run_noteWidth, run_advance,
    List.getD_cons_zero, List.drop_succ_cons, List.drop_zero]
  exact parseDec_run hds hrest

/-- Printable characters. -/
def Printable (b : Byte) : Prop := 0x21 ≤ b.toNat ∧ b.toNat ≤ 0x7e

instance (b : Byte) : Decidable (Printable b) := inferInstanceAs (Decidable (_ ∧ _))

theorem Printable.not_isWs (h : Printable b) : isWs b = false := by
  obtain ⟨hlo, -⟩ := h
  simp only [isWs, Bool.or_eq_false_iff, decide_eq_false_iff_not]
  refine ⟨⟨⟨?_, ?_⟩, ?_⟩, ?_⟩ <;> rintro rfl <;> revert hlo <;> decide

/-- The entry of a label of two printable characters. -/
theorem slotOf_printable (h₁ : Printable c₁) (h₂ : Printable c₂) :
    ∃ k : Slot, slotOf (symOffset c₁ c₂) = some k ∧
      k.val = (c₁.toNat - 0x21) * 94 + (c₂.toNat - 0x21) := by
  have hsub (c : Byte) (hc : Printable c) :
      (c.setWidth 32 - 0x21 : Word).toNat = c.toNat - 0x21 := by
    have hlt := c.isLt
    have hwide : (c.setWidth 32).toNat = c.toNat := by
      rw [BitVec.toNat_setWidth]
      omega
    rw [BitVec.toNat_sub_of_le, hwide]
    · rfl
    · rw [BitVec.le_def, hwide]
      exact hc.1
  have hmul : ((c₁.setWidth 32 - 0x21) * 0x5e : Word).toNat = (c₁.toNat - 0x21) * 94 := by
    rw [BitVec.toNat_mul, hsub c₁ h₁]
    exact Nat.mod_eq_of_lt (by have := h₁.2; change _ * 94 < _; omega)
  have hoffset : (symOffset c₁ c₂).toNat =
      ((c₁.toNat - 0x21) * 94 + (c₂.toNat - 0x21)) * 2 ^ 2 := by
    have hsum : ((c₁.setWidth 32 - 0x21) * 0x5e + (c₂.setWidth 32 - 0x21) : Word).toNat =
        (c₁.toNat - 0x21) * 94 + (c₂.toNat - 0x21) := by
      rw [BitVec.toNat_add, hmul, hsub c₂ h₂]
      have := h₁.2
      have := h₂.2
      omega
    rw [symOffset, toNat_shiftLeft_of_lt, hsum]
    rw [hsum]
    have := h₁.2
    have := h₂.2
    omega
  have hlt : (symOffset c₁ c₂).toNat < 35344 := by
    rw [hoffset]
    have := h₁.2
    have := h₂.2
    omega
  refine ⟨⟨(symOffset c₁ c₂).toNat / 4, by omega⟩, ?_, ?_⟩
  · rw [slotOf, dif_pos hlt]
  · dsimp only
    omega

/-- Different labels have different entries. -/
theorem slotOf_injective {e₁ e₂ : Byte} {k : Slot} (h₁ : Printable c₁) (h₂ : Printable c₂)
    (h₁' : Printable e₁) (h₂' : Printable e₂) (hk : slotOf (symOffset c₁ c₂) = some k)
    (hk' : slotOf (symOffset e₁ e₂) = some k) : c₁ = e₁ ∧ c₂ = e₂ := by
  obtain ⟨i, hi, hival⟩ := slotOf_printable h₁ h₂
  obtain ⟨j, hj, hjval⟩ := slotOf_printable h₁' h₂'
  cases hi.symm.trans hk
  cases hj.symm.trans hk'
  obtain ⟨hlo₁, hhi₁⟩ := h₁
  obtain ⟨hlo₂, hhi₂⟩ := h₂
  obtain ⟨hlo₁', hhi₁'⟩ := h₁'
  obtain ⟨hlo₂', hhi₂'⟩ := h₂'
  constructor
  · apply BitVec.eq_of_toNat_eq
    omega
  · apply BitVec.eq_of_toNat_eq
    omega

theorem symIdx_run {k : Slot} (h : slotOf (symOffset c₁ c₂) = some k) :
    symIdx.run ⟨c₁ :: c₂ :: rest, nw⟩ = .ok (k, ⟨rest, nw⟩) := by
  simp only [symIdx, run_bind, run_peek, run_advance, List.getD_cons_zero,
    List.getD_cons_succ, List.drop_succ_cons, List.drop_zero, h, run_pure]

/-- White space and a label, which is two printable characters; `@` and a digit
begin a position instead. -/
def LabelText (rest : List Byte) (c₁ c₂ : Byte) : Prop :=
  ∃ ws tail, rest = ws ++ c₁ :: c₂ :: tail ∧ (∀ b ∈ ws, isWs b = true) ∧
    Printable c₁ ∧ Printable c₂ ∧ ¬ (c₁ = ch '@' ∧ isDigit c₂ = true)

theorem target_run_slot {k : Slot} {tail : List Byte} (hws : ∀ b ∈ ws, isWs b = true)
    (h₁ : Printable c₁) (hat : ¬ (c₁ = ch '@' ∧ isDigit c₂ = true))
    (hk : slotOf (symOffset c₁ c₂) = some k) (nw : Bool) :
    target.run ⟨ws ++ c₁ :: c₂ :: tail, nw⟩ = .ok (.label k, ⟨tail, nw⟩) := by
  have hskip : Avoids isWs (c₁ :: c₂ :: tail) := by
    rintro b ⟨rfl⟩
    exact h₁.not_isWs
  have hcond : (decide (c₁ = ch '@') && isDigit c₂) = false := by
    rw [Bool.and_eq_false_iff, decide_eq_false_iff_not, ← Bool.not_eq_true, ← not_and_or]
    exact hat
  rw [target, run_bind_ok (skipWs_run hws hskip), run_peek_bind, run_peek_bind,
    List.getD_cons_zero, List.getD_cons_succ, List.getD_cons_zero, hcond,
    if_neg Bool.false_ne_true, run_bind_ok (symIdx_run hk), run_pure]

theorem target_run_label (h : LabelText rest c₁ c₂) :
    ∃ k tail, slotOf (symOffset c₁ c₂) = some k ∧
      ∀ nw, target.run ⟨rest, nw⟩ = .ok (.label k, ⟨tail, nw⟩) := by
  obtain ⟨ws, tail, rfl, hws, h₁, h₂, hat⟩ := h
  obtain ⟨k, hk, -⟩ := slotOf_printable h₁ h₂
  exact ⟨k, tail, hk, target_run_slot hws h₁ hat hk⟩

def condChars : Cond → Char × Char
  | .eq => ('e', 'q')
  | .ne => ('n', 'e')
  | .hs => ('h', 's')
  | .lo => ('l', 'o')
  | .hi => ('h', 'i')
  | .ls => ('l', 's')
  | .ge => ('g', 'e')
  | .lt => ('l', 't')
  | .gt => ('g', 't')
  | .le => ('l', 'e')

def condName (c : Cond) : Byte × Byte := (ch (condChars c).1, ch (condChars c).2)

theorem condCode_condName (c : Cond) :
    condCode (condName c).1 (condName c).2 = some (BitVec.ofNat 32 c.code) := by
  cases c <;> rfl

/-- Lines that name a target, by their text up to where the target begins. -/
inductive RefHead : List Byte → Ref → List Byte → Prop where
  | adr {ws ds rest : List Byte} {letter : Byte} (hws : ∀ b ∈ ws, isWs b = true)
      (hletter : isWs letter = false) (hds : ∀ b ∈ ds, isDigit b = true)
      (hreg : valueOf ds < 32) (hend : Avoids isDigit rest) :
      RefHead (text ['a', 'd', 'r'] ++ (ws ++ letter :: (ds ++ rest))) (.adr (valueOf ds)) rest
  | b {rest : List Byte}
      (hother : Avoids (fun b => b = ch '.' || b = ch 'l' || b = ch 'r') rest) :
      RefHead (text ['b'] ++ rest) (.b false) rest
  | bl {rest : List Byte} (hother : Avoids (· = ch 'r') rest) :
      RefHead (text ['b', 'l'] ++ rest) (.b true) rest
  | bcond {rest : List Byte} (c : Cond) :
      RefHead (text ['b', '.'] ++ (condName c).1 :: (condName c).2 :: rest) (.bcond c) rest

/-- A line that names the label `c₁c₂`. -/
def RefersTo (line : List Byte) (form : Ref) (c₁ c₂ : Byte) : Prop :=
  ∃ rest, RefHead line form rest ∧ LabelText rest c₁ c₂

theorem RefHead.reg_lt {line : List Byte} {form : Ref} (h : RefHead line form rest) :
    ∀ d, form = .adr d → d < 32 := by
  cases h with
  | adr hws hletter hds hreg hend =>
      rintro d ⟨rfl⟩
      exact hreg
  | b hother => exact fun d h => nomatch h
  | bl hother => exact fun d h => nomatch h
  | bcond c => exact fun d h => nomatch h

/-- A line that emits is dispatched on its first character. -/
theorem parseItem_code {code : Code} {c : Cursor} (hb : b ≠ ch '#' ∧ b ≠ ch ':')
    (h : (parseCode b).run ⟨b :: rest, nw⟩ = .ok (code, c)) :
    parseItem.run ⟨b :: rest, nw⟩ = .ok (.code code, c) := by
  rw [parseItem, run_bind_ok (run_peek 0 _), List.getD_cons_zero, if_neg hb.1, if_neg hb.2,
    run_bind_ok h, run_pure]

theorem dispatch_adr :
    (parseCode (ch 'a')).run ⟨text ['a', 'd', 'r'] ++ rest, nw⟩ =
      hAdr.run ⟨text ['a', 'd', 'r'] ++ rest, nw⟩ := by
  change hA.run _ = _
  simp only [hA, run_peek_bind, run_ite]
  rfl

theorem dispatch_bcond :
    (parseCode (ch 'b')).run ⟨text ['b', '.'] ++ rest, nw⟩ =
      hBcond.run ⟨text ['b', '.'] ++ rest, nw⟩ := by
  change hBranch.run _ = _
  simp only [hBranch, run_peek_bind, run_ite]
  rfl

section Targets

variable (nw) {t : Target} {tail : List Byte}
  (htarget : ∀ nw, target.run ⟨rest, nw⟩ = .ok (t, ⟨tail, nw⟩))
include htarget

theorem hAdr_run {letter : Byte} (hws : ∀ b ∈ ws, isWs b = true)
    (hletter : isWs letter = false) (hds : ∀ b ∈ ds, isDigit b = true)
    (hend : Avoids isDigit rest) :
    hAdr.run ⟨text ['a', 'd', 'r'] ++ (ws ++ letter :: (ds ++ rest)), nw⟩ =
      .ok (.refer (.adr (BitVec.ofNat 32 (valueOf ds))) t, ⟨tail, nw || letter = ch 'w'⟩) := by
  have hskip : (advance 3).run ⟨text ['a', 'd', 'r'] ++ (ws ++ letter :: (ds ++ rest)), nw⟩ =
      .ok ((), ⟨ws ++ letter :: (ds ++ rest), nw⟩) := rfl
  rw [hAdr, run_bind_ok hskip, run_bind_ok (nextReg_run hws hletter hds hend),
    run_bind_ok (htarget _), run_pure]

theorem hBranch_run_b
    (hother : Avoids (fun b => b = ch '.' || b = ch 'l' || b = ch 'r') rest) :
    hBranch.run ⟨text ['b'] ++ rest, nw⟩ = .ok (.refer .b t, ⟨tail, nw⟩) := by
  have hskip : (advance 1).run ⟨text ['b'] ++ rest, nw⟩ = .ok ((), ⟨rest, nw⟩) := rfl
  have hlast : (do advance 1; return Code.refer .b (← target) : Line Code).run
      ⟨text ['b'] ++ rest, nw⟩ = .ok (.refer .b t, ⟨tail, nw⟩) := by
    rw [run_bind_ok hskip, run_bind_ok (htarget _), run_pure]
  rw [hBranch, run_peek_bind]
  cases rest with
  | nil => exact hlast
  | cons b rest =>
      have hb := hother b rfl
      simp only [Bool.or_eq_false_iff, decide_eq_false_iff_not] at hb
      change Line.run (if b = ch '.' then _ else if b = ch 'l' then _ else
        if b = ch 'r' then _ else _) _ = _
      rw [if_neg hb.1.1, if_neg hb.1.2, if_neg hb.2]
      exact hlast

theorem hBranch_run_bl (hother : Avoids (· = ch 'r') rest) :
    hBranch.run ⟨text ['b', 'l'] ++ rest, nw⟩ = .ok (.refer .bl t, ⟨tail, nw⟩) := by
  have hskip : (advance 2).run ⟨text ['b', 'l'] ++ rest, nw⟩ = .ok ((), ⟨rest, nw⟩) := rfl
  have hlast : (do advance 2; return Code.refer .bl (← target) : Line Code).run
      ⟨text ['b', 'l'] ++ rest, nw⟩ = .ok (.refer .bl t, ⟨tail, nw⟩) := by
    rw [run_bind_ok hskip, run_bind_ok (htarget _), run_pure]
  have hbl : hBranch.run ⟨text ['b', 'l'] ++ rest, nw⟩ =
      hBlOrBlr.run ⟨text ['b', 'l'] ++ rest, nw⟩ := by
    simp only [hBranch, run_peek_bind, run_ite]
    rfl
  rw [hbl, hBlOrBlr, run_peek_bind]
  cases rest with
  | nil => exact hlast
  | cons b rest =>
      have hb : b ≠ ch 'r' := by simpa using hother b rfl
      change Line.run (if b = ch 'r' then _ else _) _ = _
      rw [if_neg hb]
      exact hlast

theorem hBcond_run (c : Cond) :
    hBcond.run ⟨text ['b', '.'] ++ (condName c).1 :: (condName c).2 :: rest, nw⟩ =
      .ok (.refer (.bcond (BitVec.ofNat 32 c.code)) t, ⟨tail, nw⟩) := by
  have hskip : (advance 2).run
      ⟨text ['b', '.'] ++ (condName c).1 :: (condName c).2 :: rest, nw⟩ =
        .ok ((), ⟨(condName c).1 :: (condName c).2 :: rest, nw⟩) := rfl
  have hcond : (advance 2).run ⟨(condName c).1 :: (condName c).2 :: rest, nw⟩ =
      .ok ((), ⟨rest, nw⟩) := rfl
  rw [hBcond, run_bind_ok hskip, run_peek_bind, run_peek_bind, run_bind_ok hcond,
    List.getD_cons_zero, List.getD_cons_succ, List.getD_cons_zero, condCode_condName]
  dsimp only
  rw [run_bind_ok (htarget _), run_pure]

/-- A line that names a target is read as a reference to it. -/
theorem RefHead.parse {line : List Byte} {form : Ref} (h : RefHead line form rest) :
    ∃ nw, parseItem.run ⟨line, false⟩ = .ok (.code (.refer (formOf form) t), ⟨tail, nw⟩) := by
  cases h with
  | adr hws hletter hds hreg hend =>
      have hrun := hAdr_run false htarget hws hletter hds hend
      rw [← dispatch_adr] at hrun
      exact ⟨_, parseItem_code (by decide) hrun⟩
  | b hother =>
      exact ⟨_, parseItem_code (by decide) (hBranch_run_b false htarget hother)⟩
  | bl hother =>
      exact ⟨_, parseItem_code (by decide) (hBranch_run_bl false htarget hother)⟩
  | bcond c =>
      have hrun := hBcond_run false htarget c
      rw [← dispatch_bcond] at hrun
      exact ⟨_, parseItem_code (by decide) hrun⟩

end Targets

/-- Such a line is read as a reference to the entry of its label. -/
theorem RefersTo.parse {line : List Byte} {form : Ref} (h : RefersTo line form c₁ c₂) :
    ∃ k c, slotOf (symOffset c₁ c₂) = some k ∧
      parseItem.run ⟨line, false⟩ = .ok (.code (.refer (formOf form) (.label k)), c) := by
  obtain ⟨rest, hhead, hlabel⟩ := h
  obtain ⟨k, tail, hk, htarget⟩ := target_run_label hlabel
  obtain ⟨nw, hparse⟩ := hhead.parse htarget
  exact ⟨k, _, hk, hparse⟩

end Veron.SelfAssembler
