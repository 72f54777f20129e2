/-
The lines that the self-assembler stops at: which texts its dispatch sends to
`die`, and which name a pair outside the symbol table.
-/
import Veron.SelfAssemblerText

namespace Veron.SelfAssembler

namespace Line

variable {α β : Type} {m n : Line α} {f : α → Line β} {c d : Cursor} {a : α} {e : Fault}

/-- How a routine fails at a cursor, when it does. -/
def fault (m : Line α) (c : Cursor) : Option Fault :=
  match m.run c with
  | .error e => some e
  | .ok _ => none

theorem fault_of_error (h : m.run c = .error e) : m.fault c = some e := by
  rw [fault, h]

theorem fault_bind_ok (h : m.run c = .ok (a, d)) : (m >>= f).fault c = (f a).fault d := by
  rw [fault, run_bind_ok h, fault]

theorem fault_peek_bind (k : ℕ) (f : Byte → Line β) (c : Cursor) :
    (peek k >>= f).fault c = (f (c.rest.getD k 0)).fault c := fault_bind_ok (run_peek k c)

theorem fault_advance_bind (k : ℕ) (f : Unit → Line β) (c : Cursor) :
    (advance k >>= f).fault c = (f ()).fault { c with rest := c.rest.drop k } :=
  fault_bind_ok (run_advance k c)

theorem fault_ite (p : Prop) [Decidable p] (m n : Line α) (c : Cursor) :
    (if p then m else n).fault c = if p then m.fault c else n.fault c := by
  split <;> rfl

/-- Routines that do not fail. -/
def Safe (m : Line α) : Prop := ∀ c, m.fault c = none

theorem Safe.run (h : Safe m) (c : Cursor) : ∃ a d, m.run c = .ok (a, d) := by
  have hc := h c
  rw [fault] at hc
  cases hrun : m.run c with
  | error e =>
      rw [hrun] at hc
      cases hc
  | ok p => exact ⟨p.1, p.2, rfl⟩

theorem Safe.bind (hm : Safe m) (hf : ∀ a, Safe (f a)) : Safe (m >>= f) := by
  intro c
  obtain ⟨a, d, hrun⟩ := hm.run c
  rw [fault_bind_ok hrun]
  exact hf a d

/-- What follows a routine does not add to its faults when it is safe. -/
theorem fault_bind_safe (hf : ∀ a, Safe (f a)) : (m >>= f).fault c = m.fault c := by
  cases hrun : m.run c with
  | error e => rw [fault_of_error (run_bind_error hrun), fault_of_error hrun]
  | ok p =>
      rw [fault_bind_ok hrun, hf p.1 p.2, fault, hrun]

theorem Safe.ite {p : Prop} [Decidable p] (hm : Safe m) (hn : Safe n) :
    Safe (if p then m else n) := by
  split
  · exact hm
  · exact hn

theorem safe_pure (a : α) : Safe (pure a : Line α) := fun _ => rfl

theorem safe_getCursor : Safe getCursor := fun _ => rfl

theorem safe_peek (k : ℕ) : Safe (peek k) := fun _ => rfl

theorem safe_advance (k : ℕ) : Safe (advance k) := fun _ => rfl

theorem safe_skipWhile (p : Byte → Bool) : Safe (skipWhile p) := fun _ => rfl

theorem safe_noteWidth (b : Byte) : Safe (noteWidth b) := fun _ => rfl

theorem Safe.restoring {m : Line (Option α)} (hm : Safe m) : Safe (restoring m) := by
  intro c
  obtain ⟨a, d, hrun⟩ := hm.run c
  rw [fault, run_restoring, hrun]
  cases a <;> rfl

end Line

open Line

theorem safe_skipWs : Safe skipWs := safe_skipWhile isWs

theorem safe_parseDec : Safe parseDec :=
  safe_getCursor.bind fun _ => (safe_skipWhile isDigit).bind fun _ => safe_pure _

theorem safe_nextReg : Safe nextReg :=
  safe_skipWs.bind fun _ => (safe_peek 0).bind fun b => (safe_noteWidth b).bind fun _ =>
    (safe_advance 1).bind fun _ => safe_parseDec

theorem safe_optDec : Safe optDec := by
  have hahead : Safe decAhead :=
    (safe_skipWhile isBlank).bind fun _ => (safe_peek 0).bind fun _ =>
      .ite (safe_parseDec.bind fun _ => safe_pure _) (safe_pure _)
  exact hahead.restoring.bind fun _ => safe_pure _

theorem safe_emit (w : Word) : Safe (emit w) := safe_pure _

theorem safe_emitDp (w : Word) : Safe (emitDp w) := safe_getCursor.bind fun _ => safe_pure _

/-- Skipping a mnemonic and reading registers. -/
theorem safe_regs {k : ℕ} {f : Word → Word → Line Code} (hf : ∀ x y, Safe (f x y)) :
    Safe (do advance k; let x ← nextReg; let y ← nextReg; f x y) :=
  (safe_advance k).bind fun _ => safe_nextReg.bind fun x => safe_nextReg.bind fun y => hf x y

theorem safe_hMov : Safe hMov := by
  have hmul : Safe hMul :=
    safe_regs fun _ _ => safe_nextReg.bind fun _ => safe_emitDp _
  have hmovn : Safe hMovn :=
    (safe_advance 4).bind fun _ => safe_nextReg.bind fun _ => safe_skipWs.bind fun _ =>
      safe_parseDec.bind fun _ => safe_emitDp _
  have hmovk : Safe hMovk :=
    (safe_advance 4).bind fun _ => safe_nextReg.bind fun _ => safe_skipWs.bind fun _ =>
      safe_parseDec.bind fun _ => safe_skipWs.bind fun _ => safe_parseDec.bind fun _ =>
        safe_emitDp _
  have hplain : Safe hMovPlain :=
    (safe_advance 3).bind fun _ => safe_nextReg.bind fun _ => safe_skipWs.bind fun _ =>
      (safe_peek 0).bind fun _ => .ite
        ((safe_advance 1).bind fun _ => safe_parseDec.bind fun _ => safe_emitDp _)
        (safe_parseDec.bind fun _ => safe_emitDp _)
  exact (safe_peek 1).bind fun _ => .ite hmul <| (safe_peek 3).bind fun _ => .ite hmovk <|
    (safe_peek 3).bind fun _ => .ite hmovn hplain

theorem safe_addSub (bi br : Word) : Safe (addSub bi br) :=
  safe_regs fun _ _ => safe_skipWs.bind fun _ => (safe_peek 0).bind fun _ => .ite
    (safe_nextReg.bind fun _ => safe_emitDp _) (safe_parseDec.bind fun _ => safe_emitDp _)

theorem safe_hCmp : Safe hCmp :=
  (safe_advance 3).bind fun _ => safe_nextReg.bind fun _ => safe_skipWs.bind fun _ =>
    (safe_peek 0).bind fun _ => .ite
      ((safe_advance 1).bind fun _ => safe_parseDec.bind fun _ => safe_emitDp _)
      (safe_parseDec.bind fun _ => safe_emitDp _)

theorem safe_andEor (b : Word) : Safe (andEor b) :=
  safe_regs fun _ _ => safe_nextReg.bind fun _ => safe_emitDp _

theorem safe_hOrr : Safe hOrr :=
  safe_regs fun _ _ => safe_nextReg.bind fun _ => safe_optDec.bind fun _ => safe_emitDp _

theorem safe_optReg : Safe optReg := by
  refine Safe.restoring ((safe_skipWhile isBlank).bind fun _ => (safe_peek 0).bind fun b => ?_)
  exact .ite (safe_nextReg.bind fun _ => safe_pure _) (safe_pure _)

theorem safe_hLdrb : Safe hLdrb :=
  safe_regs fun _ _ => safe_nextReg.bind fun _ => safe_emit _

theorem safe_hStrb : Safe hStrb := by
  refine safe_regs fun _ _ => safe_optReg.bind fun m => ?_
  cases m with
  | none => exact safe_emit _
  | some m => exact safe_emit _

theorem safe_ldrStr (bw bx : Word) : Safe (ldrStr bw bx) :=
  (safe_advance 3).bind fun _ => safe_skipWs.bind fun _ => (safe_peek 0).bind fun _ =>
    safe_nextReg.bind fun _ => safe_nextReg.bind fun _ => safe_optDec.bind fun _ =>
      safe_getCursor.bind fun _ => safe_emit _

theorem safe_hLsPlain (b : Word) : Safe (hLsPlain b) :=
  safe_nextReg.bind fun _ => safe_nextReg.bind fun _ => safe_emit _

theorem safe_advance_hLsPlain (k : ℕ) (b : Word) :
    Safe (do advance k; hLsPlain b) :=
  (safe_advance k).bind fun _ => safe_hLsPlain b

theorem safe_advance_emit (k : ℕ) (w : Word) : Safe (do advance k; emit w) :=
  (safe_advance k).bind fun _ => safe_emit w

theorem safe_advance_reg_emit (k : ℕ) (b : Word) :
    Safe (do advance k; let n ← nextReg; emit (b ||| n <<< 5)) :=
  (safe_advance k).bind fun _ => safe_nextReg.bind fun _ => safe_emit _

theorem safe_hSt : Safe hSt :=
  (safe_peek 3).bind fun _ => .ite safe_hStrb <| (safe_peek 3).bind fun _ =>
    .ite (safe_advance_hLsPlain 4 _) (safe_ldrStr _ _)

theorem safe_doByte : Safe doByte :=
  (safe_advance 5).bind fun _ => safe_skipWs.bind fun _ => safe_parseDec.bind fun _ =>
    safe_pure _

theorem safe_ascLoop : Safe ascLoop :=
  safe_getCursor.bind fun _ => (safe_advance _).bind fun _ => safe_pure _

theorem safe_skipLine : Safe skipLine :=
  (safe_skipWhile _).bind fun _ => (safe_advance 1).bind fun _ => safe_pure _

section Texts

variable {t l : List Byte} {nw : Bool}

/-- The letter that `next_reg` takes for that of a register. -/
def regLetter (t : List Byte) : Byte := (t.dropWhile isWs).getD 0 0

/-- What `next_reg` leaves. -/
def afterReg (t : List Byte) : List Byte := ((t.dropWhile isWs).drop 1).dropWhile isDigit

/-- A shift or a division that has no register as its third operand: a division
needs one, a shift may do with a number if one of its registers is a `w`. -/
def NoShift (kind : Kind) (t : List Byte) : Prop :=
  isRegLetter (((afterReg (afterReg t)).dropWhile isBlank).getD 0 0) = false ∧
    (kind = .div ∨ (regLetter t ≠ ch 'w' ∧ regLetter (afterReg t) ≠ ch 'w'))

/-- A pair of characters that names no entry of the symbol table. -/
def PairOutside (t : List Byte) : Prop := slotOf (symOffset (t.getD 0 0) (t.getD 1 0)) = none

/-- A target that is not a position and names no entry. -/
def TargetOutside (t : List Byte) : Prop :=
  let u := t.dropWhile isWs
  ¬ (u.getD 0 0 = ch '@' ∧ isDigit (u.getD 1 0) = true) ∧ PairOutside u

instance (kind : Kind) (t : List Byte) : Decidable (NoShift kind t) :=
  inferInstanceAs (Decidable (_ ∧ _))

instance (t : List Byte) : Decidable (PairOutside t) := inferInstanceAs (Decidable (_ = _))

instance (t : List Byte) : Decidable (TargetOutside t) := inferInstanceAs (Decidable (_ ∧ _))

theorem nextReg_run_any :
    nextReg.run ⟨t, nw⟩ = .ok (digits 0 ((t.dropWhile isWs).drop 1),
      ⟨afterReg t, nw || regLetter t = ch 'w'⟩) := rfl

theorem optReg_run_some (h : isRegLetter ((t.dropWhile isBlank).getD 0 0) = true) :
    ∃ m c, optReg.run ⟨t, nw⟩ = .ok (some m, c) := by
  rw [isRegLetter, Bool.or_comm] at h
  obtain ⟨m, c, hread⟩ := safe_nextReg.run ⟨t.dropWhile isBlank, nw⟩
  have hfound : regAhead.run ⟨t, nw⟩ = .ok (some m, c) := by
    rw [regAhead, run_bind_ok (run_skipWhile _ _), run_peek_bind, if_pos h, run_bind_ok hread,
      run_pure]
  exact ⟨m, c, by rw [optReg, run_restoring, hfound]⟩

theorem optReg_run_other (h : isRegLetter ((t.dropWhile isBlank).getD 0 0) = false) :
    optReg.run ⟨t, nw⟩ = .ok (none, ⟨t, nw⟩) := by
  rw [isRegLetter, Bool.or_comm] at h
  have hnone : regAhead.run ⟨t, nw⟩ = .ok (none, ⟨t.dropWhile isBlank, nw⟩) := by
    rw [regAhead, run_bind_ok (run_skipWhile _ _), run_peek_bind, h,
      if_neg Bool.false_ne_true, run_pure]
  rw [optReg, run_restoring, hnone]

theorem shiftImm_fault (kind : Kind) (x y : Word) :
    (shiftImm kind x y).fault ⟨t, nw⟩ = if nw = false ∨ kind = .div then some .die else none := by
  rw [shiftImm, fault_bind_ok (run_getCursor _), fault_ite]
  cases nw with
  | false => rfl
  | true =>
      obtain ⟨s, c, hnum⟩ := safe_optDec.run ⟨t, true⟩
      rw [if_pos rfl, fault_bind_ok hnum]
      cases kind <;> rfl

theorem shiftCommon_fault (kind : Kind) (select : Word) :
    (shiftCommon kind select).fault ⟨t, false⟩ =
      if NoShift kind t then some .die else none := by
  rw [shiftCommon, fault_bind_ok nextReg_run_any, fault_bind_ok nextReg_run_any]
  by_cases hreg : isRegLetter (((afterReg (afterReg t)).dropWhile isBlank).getD 0 0) = true
  · obtain ⟨m, c, hrun⟩ := optReg_run_some hreg
    rw [fault_bind_ok hrun, if_neg fun h => absurd hreg (by rw [h.1]; exact Bool.false_ne_true)]
    exact safe_emitDp _ c
  · rw [Bool.not_eq_true] at hreg
    rw [fault_bind_ok (optReg_run_other hreg)]
    dsimp only
    rw [shiftImm_fault]
    refine if_congr ?_ rfl rfl
    rw [NoShift, Bool.false_or, Bool.or_eq_false_iff, decide_eq_false_iff_not,
      decide_eq_false_iff_not]
    constructor
    · rintro (hletters | hdiv)
      · exact ⟨hreg, .inr hletters⟩
      · exact ⟨hreg, .inl hdiv⟩
    · rintro ⟨-, hdiv | hletters⟩
      · exact .inr hdiv
      · exact .inl hletters

theorem symIdx_fault :
    symIdx.fault ⟨t, nw⟩ = if PairOutside t then some .wild else none := by
  rw [symIdx, fault_peek_bind, fault_peek_bind, fault_advance_bind]
  dsimp only
  split
  · rename_i k hk
    have hinside : ¬ PairOutside t := by
      intro h
      cases hk.symm.trans h
    exact (if_neg hinside).symm
  · rename_i hk
    exact (if_pos (show PairOutside t from hk)).symm

theorem target_fault :
    target.fault ⟨t, nw⟩ = if TargetOutside t then some .wild else none := by
  rw [target, skipWs, fault_bind_ok (run_skipWhile _ _), fault_peek_bind, fault_peek_bind,
    fault_ite]
  dsimp only
  by_cases hat : (t.dropWhile isWs).getD 0 0 = ch '@' ∧
      isDigit ((t.dropWhile isWs).getD 1 0) = true
  · rw [if_pos (by rw [hat.1, hat.2]; rfl), if_neg fun h : TargetOutside t => h.1 hat]
    exact ((safe_advance 1).bind fun _ => safe_parseDec.bind fun _ => safe_pure _) _
  · rw [if_neg (by rwa [Bool.and_eq_true, decide_eq_true_eq]),
      fault_bind_safe fun _ => safe_pure _, symIdx_fault]
    exact if_congr ⟨fun h => ⟨hat, h⟩, And.right⟩ rfl rfl

end Texts

/-- The first characters that `parse_loop` knows. -/
def starts : List Byte :=
  text ['#', ':', '.', 'm', 'a', 'c', 'b', 'l', 's', 'r', 'o', 'u', 'e']

section Dying

variable (l : List Byte)

/-- A directive that is not `.byte`, nor `.ascii` with a quote. -/
def DotDies : Prop :=
  l.getD 1 0 ≠ ch 'b' ∧
    (l.getD 1 0 = ch 'a' → ((l.drop 6).dropWhile isWs).getD 0 0 ≠ ch '"')

/-- An `a` that begins none of `and`, `asr`, `add` and `adr`, or an `asr` without
its operand. -/
def ADies : Prop :=
  l.getD 1 0 ≠ ch 'n' ∧
    ((l.getD 1 0 = ch 's' ∧ NoShift .asr (l.drop 3)) ∨
      (l.getD 1 0 ≠ ch 's' ∧ l.getD 2 0 ≠ ch 'd' ∧ l.getD 2 0 ≠ ch 'r'))

/-- A conditional branch without a condition. -/
def BranchDies : Prop :=
  l.getD 1 0 = ch '.' ∧ condCode (l.getD 2 0) (l.getD 3 0) = none

/-- An `lsl` or `lsr` without its operand, or an `ldrs` of no size. -/
def LDies : Prop :=
  (l.getD 1 0 = ch 's' ∧ NoShift .lsl (l.drop 3)) ∨
    (l.getD 1 0 ≠ ch 's' ∧ l.getD 3 0 = ch 's' ∧ l.getD 4 0 ≠ ch 'b' ∧ l.getD 4 0 ≠ ch 'h')

/-- An `s` that begins none of `svc`, `sub`, `str` and `sdiv`, or an `sdiv`
without its operand. -/
def SDies : Prop :=
  (l.getD 1 0 = ch 'd' ∧ NoShift .div (l.drop 4)) ∨
    (l.getD 1 0 ≠ ch 'v' ∧ l.getD 1 0 ≠ ch 'u' ∧ l.getD 1 0 ≠ ch 't' ∧ l.getD 1 0 ≠ ch 'd')

/-- The texts at which the dispatch of a line ends in `die`. -/
def Undispatched : Prop :=
  match l with
  | [] => False
  | b :: _ =>
      b ∉ starts ∨ (b = ch '.' ∧ DotDies l) ∨ (b = ch 'a' ∧ ADies l) ∨
        (b = ch 'b' ∧ BranchDies l) ∨ (b = ch 'l' ∧ LDies l) ∨ (b = ch 's' ∧ SDies l) ∨
        (b = ch 'u' ∧ NoShift .div (l.drop 4))

/-- A branch to a pair outside the table. -/
def BranchOutside : Prop :=
  if l.getD 1 0 = ch '.' then
    condCode (l.getD 2 0) (l.getD 3 0) ≠ none ∧ TargetOutside (l.drop 4)
  else if l.getD 1 0 = ch 'l' then l.getD 2 0 ≠ ch 'r' ∧ TargetOutside (l.drop 2)
  else l.getD 1 0 ≠ ch 'r' ∧ TargetOutside (l.drop 1)

/-- The texts that name a pair outside the symbol table. -/
def OutsideTable : Prop :=
  match l with
  | [] => False
  | b :: t =>
      (b = ch ':' ∧ PairOutside t) ∨
        (b = ch 'a' ∧ l.getD 1 0 ≠ ch 'n' ∧ l.getD 1 0 ≠ ch 's' ∧ l.getD 2 0 = ch 'r' ∧
          TargetOutside (afterReg (l.drop 3))) ∨
        (b = ch 'b' ∧ BranchOutside l)

instance : Decidable (BranchOutside l) := inferInstanceAs (Decidable (ite _ _ _))

instance : Decidable (OutsideTable l) :=
  match l with
  | [] => .isFalse id
  | _ :: _ => inferInstanceAs (Decidable (_ ∨ _))

end Dying

section Dispatching

variable {l : List Byte}

theorem advance_shiftCommon_fault (k : ℕ) (kind : Kind) (select : Word) :
    (do advance k; shiftCommon kind select : Line Code).fault ⟨l, false⟩ =
      if NoShift kind (l.drop k) then some .die else none := by
  rw [fault_advance_bind, shiftCommon_fault]

theorem target_bind_fault {α : Type} {nw : Bool} (f : Target → α) :
    (do let t ← target; return f t : Line α).fault ⟨l, nw⟩ =
      if TargetOutside l then some .wild else none := by
  rw [fault_bind_safe fun _ => safe_pure _, target_fault]

theorem hAdr_fault :
    hAdr.fault ⟨l, false⟩ = if TargetOutside (afterReg (l.drop 3)) then some .wild else none := by
  rw [hAdr, fault_advance_bind, fault_bind_ok nextReg_run_any, target_bind_fault]

theorem hA_fault :
    hA.fault ⟨l, false⟩ =
      if l.getD 1 0 = ch 'n' then none
      else if l.getD 1 0 = ch 's' then if NoShift .asr (l.drop 3) then some .die else none
      else if l.getD 2 0 = ch 'd' then none
      else if l.getD 2 0 = ch 'r' then
        if TargetOutside (afterReg (l.drop 3)) then some .wild else none
      else some .die := by
  rw [hA, fault_peek_bind, fault_ite, hAnd, safe_andEor _ _, fault_peek_bind, fault_ite, hAsr,
    advance_shiftCommon_fault, fault_peek_bind, fault_ite, hAdd, safe_addSub _ _ _,
    fault_peek_bind, fault_ite, hAdr_fault]
  rfl

theorem hL_fault :
    hL.fault ⟨l, false⟩ =
      if l.getD 1 0 = ch 's' then if NoShift .lsl (l.drop 3) then some .die else none
      else if l.getD 3 0 = ch 'b' then none
      else if l.getD 3 0 = ch 'h' then none
      else if l.getD 3 0 = ch 's' then
        if l.getD 4 0 = ch 'b' then none
        else if l.getD 4 0 = ch 'h' then none else some .die
      else none := by
  have hls : (do if (← peek 2) = ch 'r' then hLsr else hLsl : Line Code).fault ⟨l, false⟩ =
      if NoShift .lsl (l.drop 3) then some .die else none := by
    have hsame : NoShift .lsr (l.drop 3) ↔ NoShift .lsl (l.drop 3) :=
      and_congr_right' (or_congr_left ⟨nofun, nofun⟩)
    rw [fault_peek_bind, fault_ite, hLsr, hLsl, advance_shiftCommon_fault,
      advance_shiftCommon_fault, if_congr hsame rfl rfl, ite_self]
  have hldrs : hLdrs.fault ⟨l, false⟩ =
      if l.getD 4 0 = ch 'b' then none
      else if l.getD 4 0 = ch 'h' then none else some .die := by
    rw [hLdrs, fault_peek_bind, fault_advance_bind, fault_ite, safe_hLsPlain _ _, fault_ite,
      safe_hLsPlain _ _]
    rfl
  rw [hL, fault_peek_bind, fault_ite, hls, fault_peek_bind, fault_ite, safe_hLdrb _,
    fault_peek_bind, fault_ite, hLdrh, safe_advance_hLsPlain 4 _ _, fault_peek_bind, fault_ite,
    hldrs, hLdr, safe_ldrStr _ _ _]

theorem hS_fault :
    hS.fault ⟨l, false⟩ =
      if l.getD 1 0 = ch 'v' then none
      else if l.getD 1 0 = ch 'u' then none
      else if l.getD 1 0 = ch 't' then none
      else if l.getD 1 0 = ch 'd' then if NoShift .div (l.drop 4) then some .die else none
      else some .die := by
  rw [hS, fault_peek_bind, fault_ite, hSvc, safe_advance_emit 3 _ _, fault_ite, hSub,
    safe_addSub _ _ _, fault_ite, safe_hSt _, fault_ite, hSdiv, advance_shiftCommon_fault]
  rfl

theorem hBcond_fault :
    hBcond.fault ⟨l, false⟩ =
      if condCode (l.getD 2 0) (l.getD 3 0) = none then some .die
      else if TargetOutside (l.drop 4) then some .wild else none := by
  rw [hBcond, fault_advance_bind, fault_peek_bind, fault_peek_bind, fault_advance_bind]
  have hget (k : ℕ) : (l.drop 2).getD k 0 = l.getD (2 + k) 0 := by
    rw [List.getD_eq_getElem?_getD, List.getElem?_drop, ← List.getD_eq_getElem?_getD]
  dsimp only
  rw [hget, hget, List.drop_drop]
  cases condCode (l.getD (2 + 0) 0) (l.getD (2 + 1) 0) with
  | none => rfl
  | some w => exact target_bind_fault _

theorem hBranch_fault :
    hBranch.fault ⟨l, false⟩ =
      if l.getD 1 0 = ch '.' then
        if condCode (l.getD 2 0) (l.getD 3 0) = none then some .die
        else if TargetOutside (l.drop 4) then some .wild else none
      else if l.getD 1 0 = ch 'l' then
        if l.getD 2 0 = ch 'r' then none
        else if TargetOutside (l.drop 2) then some .wild else none
      else if l.getD 1 0 = ch 'r' then none
      else if TargetOutside (l.drop 1) then some .wild else none := by
  rw [hBranch, fault_peek_bind, fault_ite, hBcond_fault, fault_ite, hBlOrBlr, fault_peek_bind,
    fault_ite, hBlr, safe_advance_reg_emit 3 _ _, fault_advance_bind, target_bind_fault,
    fault_ite, hBr, safe_advance_reg_emit 2 _ _, fault_advance_bind, target_bind_fault]

theorem doDot_fault :
    doDot.fault ⟨l, false⟩ =
      if l.getD 1 0 = ch 'b' then none
      else if l.getD 1 0 = ch 'a' then
        if ((l.drop 6).dropWhile isWs).getD 0 0 = ch '"' then none else some .die
      else some .die := by
  have hquote : doAscii.fault ⟨l, false⟩ =
      if ((l.drop 6).dropWhile isWs).getD 0 0 = ch '"' then none else some .die := by
    rw [doAscii, fault_advance_bind, skipWs, fault_bind_ok (run_skipWhile _ _), fault_peek_bind,
      fault_ite, ((safe_advance 1).bind fun _ => safe_ascLoop) _]
    rfl
  rw [doDot, fault_peek_bind, fault_ite, safe_doByte _, fault_ite, hquote]
  rfl

/-- The dispatch on the first character. -/
theorem parseItem_fault {b : Byte} {t : List Byte} :
    parseItem.fault ⟨b :: t, false⟩ =
      if b = ch '#' then none
      else if b = ch ':' then if PairOutside t then some .wild else none
      else if b = ch '.' then doDot.fault ⟨b :: t, false⟩
      else if b = ch 'm' then none
      else if b = ch 'a' then hA.fault ⟨b :: t, false⟩
      else if b = ch 'c' then none
      else if b = ch 'b' then hBranch.fault ⟨b :: t, false⟩
      else if b = ch 'l' then hL.fault ⟨b :: t, false⟩
      else if b = ch 's' then hS.fault ⟨b :: t, false⟩
      else if b = ch 'r' then none
      else if b = ch 'o' then none
      else if b = ch 'u' then
        if NoShift .div ((b :: t).drop 4) then some .die else none
      else if b = ch 'e' then none
      else some .die := by
  have hlabel : doLabel.fault ⟨b :: t, false⟩ = if PairOutside t then some .wild else none := by
    rw [doLabel, fault_advance_bind, fault_bind_safe fun _ => safe_pure _, symIdx_fault]
    rfl
  have hcode : (parseCode b >>= fun code => (return .code code : Line Item)).fault
      ⟨b :: t, false⟩ = (parseCode b).fault ⟨b :: t, false⟩ :=
    fault_bind_safe fun _ => safe_pure _
  rw [parseItem, fault_peek_bind, fault_ite, safe_skipLine _, fault_ite, List.getD_cons_zero,
    hlabel, hcode, parseCode]
  simp only [fault_ite]
  rw [safe_hMov _, safe_hCmp _, hRet, safe_advance_emit 3 _ _, safe_hOrr _, hEor,
    safe_andEor _ _, hUdiv, advance_shiftCommon_fault]
  rfl

theorem doDot_die_iff : doDot.fault ⟨l, false⟩ = some .die ↔ DotDies l := by
  rw [doDot_fault, DotDies]
  split_ifs <;> simp_all [ch]

theorem hA_die_iff : hA.fault ⟨l, false⟩ = some .die ↔ ADies l := by
  rw [hA_fault, ADies]
  split_ifs <;> simp_all [ch]

theorem hBranch_die_iff : hBranch.fault ⟨l, false⟩ = some .die ↔ BranchDies l := by
  rw [hBranch_fault, BranchDies]
  split_ifs <;> simp_all [ch]

theorem hL_die_iff : hL.fault ⟨l, false⟩ = some .die ↔ LDies l := by
  rw [hL_fault, LDies]
  split_ifs <;> simp_all [ch]

theorem hS_die_iff : hS.fault ⟨l, false⟩ = some .die ↔ SDies l := by
  rw [hS_fault, SDies]
  split_ifs <;> simp_all [ch]

theorem hA_wild_iff :
    hA.fault ⟨l, false⟩ = some .wild ↔
      l.getD 1 0 ≠ ch 'n' ∧ l.getD 1 0 ≠ ch 's' ∧ l.getD 2 0 = ch 'r' ∧
        TargetOutside (afterReg (l.drop 3)) := by
  rw [hA_fault]
  split_ifs <;> simp_all [ch]

theorem hBranch_wild_iff : hBranch.fault ⟨l, false⟩ = some .wild ↔ BranchOutside l := by
  rw [hBranch_fault, BranchOutside]
  split_ifs <;> simp_all [ch]

/-- A line whose first character is not known. -/
theorem parseItem_fault_first {b : Byte} {t : List Byte} (hb : b ∉ starts) :
    parseItem.fault ⟨b :: t, false⟩ = some .die := by
  have hne (c : Char) (hc : ch c ∈ starts) : b ≠ ch c := fun h => hb (h ▸ hc)
  rw [parseItem_fault, if_neg (hne '#' (by decide)), if_neg (hne ':' (by decide)),
    if_neg (hne '.' (by decide)), if_neg (hne 'm' (by decide)), if_neg (hne 'a' (by decide)),
    if_neg (hne 'c' (by decide)), if_neg (hne 'b' (by decide)), if_neg (hne 'l' (by decide)),
    if_neg (hne 's' (by decide)), if_neg (hne 'r' (by decide)), if_neg (hne 'o' (by decide)),
    if_neg (hne 'u' (by decide)), if_neg (hne 'e' (by decide))]

theorem starts_cases {b : Byte} (hb : b ∈ starts) :
    b = ch '#' ∨ b = ch ':' ∨ b = ch '.' ∨ b = ch 'm' ∨ b = ch 'a' ∨ b = ch 'c' ∨ b = ch 'b' ∨
      b = ch 'l' ∨ b = ch 's' ∨ b = ch 'r' ∨ b = ch 'o' ∨ b = ch 'u' ∨ b = ch 'e' := by
  simpa only [starts, text, List.map_cons, List.map_nil, List.mem_cons, List.not_mem_nil,
    or_false] using hb

/-- The dispatch of a line dies at the texts listed, and only there. -/
theorem parseItem_die_iff {b : Byte} {t : List Byte} :
    parseItem.fault ⟨b :: t, false⟩ = some .die ↔ Undispatched (b :: t) := by
  by_cases hb : b ∈ starts
  · rcases starts_cases hb with
      rfl | rfl | rfl | rfl | rfl | rfl | rfl | rfl | rfl | rfl | rfl | rfl | rfl
    all_goals
      rw [parseItem_fault]
      simp +decide only [if_true, if_false, Undispatched, doDot_die_iff, hA_die_iff,
        hBranch_die_iff, hL_die_iff, hS_die_iff, false_and, true_and, false_or, or_false,
        reduceCtorEq, Option.ite_none_right_eq_some, and_false, and_true]
  · exact iff_of_true (parseItem_fault_first hb) (.inl hb)

theorem doDot_not_wild : doDot.fault ⟨l, false⟩ ≠ some .wild := by
  rw [doDot_fault]
  split_ifs <;> simp

theorem hL_not_wild : hL.fault ⟨l, false⟩ ≠ some .wild := by
  rw [hL_fault]
  split_ifs <;> simp

theorem hS_not_wild : hS.fault ⟨l, false⟩ ≠ some .wild := by
  rw [hS_fault]
  split_ifs <;> simp

/-- A line leaves the symbol table at the texts listed, and only there. -/
theorem parseItem_wild_iff {b : Byte} {t : List Byte} :
    parseItem.fault ⟨b :: t, false⟩ = some .wild ↔ OutsideTable (b :: t) := by
  by_cases hb : b ∈ starts
  · rcases starts_cases hb with
      rfl | rfl | rfl | rfl | rfl | rfl | rfl | rfl | rfl | rfl | rfl | rfl | rfl
    all_goals
      rw [parseItem_fault]
      simp +decide only [if_true, if_false, OutsideTable, doDot_not_wild, hA_wild_iff,
        hBranch_wild_iff, hL_not_wild, hS_not_wild, false_and, true_and, false_or, or_false,
        reduceCtorEq, Option.ite_none_right_eq_some, and_false, and_true]
  · rw [parseItem_fault_first hb]
    refine iff_of_false nofun ?_
    rintro (⟨rfl, -⟩ | ⟨rfl, -⟩ | ⟨rfl, -⟩) <;> exact hb (by decide)

end Dispatching

end Veron.SelfAssembler
