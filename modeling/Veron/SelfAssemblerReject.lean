/-
What the self-assembler rejects: exit status 2 exactly when a line that the
first pass reaches is one its dispatch does not know, whatever the operands of
the other lines and whether or not their labels are defined.
-/
import Veron.SelfAssemblerEncode
import Veron.SelfAssemblerFaults

namespace Veron.SelfAssembler

open A64 Line

section Turns

variable {second : Bool} {s : State}

theorem turn_of_fault {e : Fault} (hne : s.atLine.rest ≠ [])
    (h : parseItem.fault ⟨s.atLine.rest, false⟩ = some e) :
    turn second s = .error (rejection s.atLine.rest e) := by
  rw [turn, if_neg hne, State.line]
  rw [fault] at h
  cases hrun : parseItem.run ⟨s.atLine.rest, false⟩ with
  | error d =>
      rw [hrun] at h
      cases h
      rfl
  | ok p =>
      rw [hrun] at h
      cases h

/-- A round that fails fails in reading its line. -/
theorem fault_of_turn {x : Exit} (h : turn second s = .error x) :
    s.atLine.rest ≠ [] ∧ ∃ e, parseItem.fault ⟨s.atLine.rest, false⟩ = some e ∧
      x = rejection s.atLine.rest e := by
  unfold turn at h
  split at h
  · cases h
  · rename_i hne
    refine ⟨hne, ?_⟩
    unfold State.line at h
    cases hrun : parseItem.run ⟨s.atLine.rest, false⟩ with
    | error d =>
        rw [hrun] at h
        cases h
        exact ⟨d, fault_of_error hrun, rfl⟩
    | ok p =>
        rw [hrun] at h
        cases h

theorem undispatched_iff :
    Undispatched s.rest ↔ s.rest ≠ [] ∧ parseItem.fault ⟨s.rest, false⟩ = some .die := by
  cases hrest : s.rest with
  | nil => exact iff_of_false (fun h => h) (fun h => h.1 rfl)
  | cons b t => rw [parseItem_die_iff, and_iff_right (List.cons_ne_nil b t)]

theorem outsideTable_iff :
    OutsideTable s.rest ↔ s.rest ≠ [] ∧ parseItem.fault ⟨s.rest, false⟩ = some .wild := by
  cases hrest : s.rest with
  | nil => exact iff_of_false (fun h => h) (fun h => h.1 rfl)
  | cons b t => rw [parseItem_wild_iff, and_iff_right (List.cons_ne_nil b t)]

/-- A round rejects the lines that the dispatch does not know. -/
theorem turn_rejected_iff :
    (∃ l, turn second s = .error (.rejected l)) ↔ Undispatched s.atLine.rest := by
  rw [undispatched_iff]
  constructor
  · rintro ⟨l, h⟩
    obtain ⟨hne, e, hfault, hx⟩ := fault_of_turn h
    cases e with
    | die => exact ⟨hne, hfault⟩
    | wild => cases hx
  · rintro ⟨hne, hfault⟩
    exact ⟨_, turn_of_fault hne hfault⟩

theorem outside_of_turn (h : turn second s = .error .wild) : OutsideTable s.atLine.rest := by
  obtain ⟨hne, e, hfault, hx⟩ := fault_of_turn h
  cases e with
  | die => cases hx
  | wild => exact outsideTable_iff.mpr ⟨hne, hfault⟩

end Turns

section Program

variable {input : List Byte}

theorem pass_rejected_iff {second : Bool} {tab : Slot → Word} :
    (∃ l, pass second input tab = .error (.rejected l)) ↔
      ∃ s ∈ lines second input tab, Undispatched s.rest := by
  constructor
  · rintro ⟨l, h⟩
    obtain ⟨v, hv, hturn⟩ := (Loop.run_error_iff (by rintro ⟨⟩)).mp h
    exact ⟨v.atLine, List.mem_map_of_mem hv, turn_rejected_iff.mp ⟨l, hturn⟩⟩
  · rintro ⟨s, hs, hdies⟩
    obtain ⟨v, hv, rfl⟩ := List.mem_map.mp hs
    have hreject : ∃ l, turn second v = .error (.rejected l) := turn_rejected_iff.mpr hdies
    obtain ⟨l, hturn⟩ := hreject
    exact ⟨l, (Loop.run_error_iff (by rintro ⟨⟩)).mpr ⟨v, hv, hturn⟩⟩

theorem pass_wild {second : Bool} {tab : Slot → Word} (h : pass second input tab = .error .wild) :
    ∃ s ∈ lines second input tab, OutsideTable s.rest := by
  obtain ⟨v, hv, hturn⟩ := (Loop.run_error_iff (by rintro ⟨⟩)).mp h
  exact ⟨v.atLine, List.mem_map_of_mem hv, outside_of_turn hturn⟩

/-- What some line of one pass reads, some line of the other does. -/
theorem lines_rest (tab : Slot → Word) {P : List Byte → Prop} :
    (∃ s ∈ lines true input tab, P s.rest) ↔ ∃ s ∈ lines false input blank, P s.rest := by
  have hsame : List.Forall₂ SamePlace (lines false input blank) (lines true input tab) :=
    lines_samePlace tab
  constructor
  · rintro ⟨s, hs, h⟩
    obtain ⟨r, hr, hplace⟩ := exists_mem_left hsame hs
    exact ⟨r, hr, hplace.1 ▸ h⟩
  · rintro ⟨s, hs, h⟩
    obtain ⟨r, hr, hplace⟩ := exists_mem_left hsame.flip hs
    exact ⟨r, hr, hplace.1 ▸ h⟩

theorem pass_error {second : Bool} {tab : Slot → Word} {x : Exit}
    (h : pass second input tab = .error x) : x = .wild ∨ ∃ l, x = .rejected l := by
  have hx : x ≠ .running := fun hx => pass_ne_running second input tab (hx ▸ h)
  obtain ⟨v, hv, hturn⟩ := (Loop.run_error_iff hx).mp h
  obtain ⟨-, e, -, rfl⟩ := fault_of_turn hturn
  cases e with
  | die => exact .inr ⟨_, rfl⟩
  | wild => exact .inl rfl

/-- How a run on an input that fits ends: as its first pass does, or else as its
second. -/
theorem assemble_cases (hfits : input.length < 0x4000000) :
    (∃ x, pass false input blank = .error x ∧ assemble input = .error x) ∨
      ∃ first, pass false input blank = .ok first ∧
        ((∃ x, pass true input first.tab = .error x ∧ assemble input = .error x) ∨
          ∃ last, pass true input first.tab = .ok last ∧ assemble input = .ok last.out) := by
  rw [assemble, if_pos hfits]
  cases hfirst : pass false input blank with
  | error x => exact .inl ⟨x, rfl, rfl⟩
  | ok first =>
      refine .inr ⟨first, rfl, ?_⟩
      cases hlast : pass true input first.tab with
      | error x => exact .inl ⟨x, rfl, by simp only [bind, Except.bind, hlast]⟩
      | ok last => exact .inr ⟨last, rfl, by simp only [bind, Except.bind, hlast]; rfl⟩

/-- The second pass does not reject what the first did not. -/
theorem second_not_rejected {first : State} {l : List Byte}
    (hfirst : pass false input blank = .ok first) :
    pass true input first.tab ≠ .error (.rejected l) := by
  intro h
  have hdies := (lines_rest first.tab).mp (pass_rejected_iff.mp ⟨l, h⟩)
  obtain ⟨k, hk⟩ := pass_rejected_iff.mpr hdies
  rw [hfirst] at hk
  cases hk

/-- The lines that the dispatch does not know are all that is rejected. -/
theorem assemble_rejected_iff (hfits : input.length < 0x4000000) :
    (∃ l, assemble input = .error (.rejected l)) ↔
      ∃ s ∈ lines false input blank, Undispatched s.rest := by
  rw [← pass_rejected_iff]
  rcases assemble_cases hfits with ⟨x, hfirst, hout⟩ | ⟨first, hfirst, hlast⟩
  · rw [hout, hfirst]
    simp only [Except.error.injEq]
  · rw [hfirst]
    refine iff_of_false ?_ (by rintro ⟨l, ⟨⟩⟩)
    rintro ⟨l, h⟩
    rcases hlast with ⟨x, hlast, hout⟩ | ⟨last, hlast, hout⟩
    · rw [hout] at h
      cases h
      exact second_not_rejected hfirst hlast
    · rw [hout] at h
      cases h

/-- No line names a pair outside the symbol table; what such a pair reads and
writes is the memory behind the table. -/
def InTable (input : List Byte) : Prop :=
  ∀ s ∈ lines false input blank, ¬ OutsideTable s.rest

theorem first_ne_wild (hin : InTable input) : pass false input blank ≠ .error .wild := by
  intro h
  obtain ⟨s, hs, hout⟩ := pass_wild h
  exact hin s hs hout

theorem second_ne_wild (hin : InTable input) {tab : Slot → Word} :
    pass true input tab ≠ .error .wild := by
  intro h
  obtain ⟨s, hs, hout⟩ := (lines_rest tab).mp (pass_wild h)
  exact hin s hs hout

/-- Exit status 2: the input is too long, or a line is rejected. -/
def ExitsTwo (r : Except Exit (List Byte)) : Prop :=
  r = .error .tooLong ∨ ∃ l, r = .error (.rejected l)

/-- The input is too long, or has a line that the dispatch does not know. -/
def Stops (input : List Byte) : Prop :=
  0x4000000 ≤ input.length ∨ ∃ s ∈ lines false input blank, Undispatched s.rest

theorem exitsTwo_of_stops (h : Stops input) : ExitsTwo (assemble input) := by
  by_cases hfits : input.length < 0x4000000
  · rcases h with hlong | hdies
    · omega
    · exact .inr ((assemble_rejected_iff hfits).mpr hdies)
  · rw [ExitsTwo, assemble, if_neg hfits]
    exact .inl rfl

/-- What does not stop the assembler is accepted. -/
theorem accepts_of_not_stops (hin : InTable input) (h : ¬ Stops input) :
    ∃ out, assemble input = .ok out := by
  rw [Stops, not_or, not_le] at h
  obtain ⟨hfits, hdies⟩ := h
  have hrejected := mt (assemble_rejected_iff hfits).mp hdies
  rcases assemble_cases hfits with ⟨x, hfirst, hout⟩ |
    ⟨first, -, ⟨x, hlast, hout⟩ | ⟨last, -, hout⟩⟩
  · rcases pass_error hfirst with rfl | ⟨l, rfl⟩
    · exact absurd hfirst (first_ne_wild hin)
    · exact absurd ⟨l, hout⟩ hrejected
  · rcases pass_error hlast with rfl | ⟨l, rfl⟩
    · exact absurd hlast (second_ne_wild hin)
    · exact absurd ⟨l, hout⟩ hrejected
  · exact ⟨last.out, hout⟩

theorem not_exitsTwo_of_accepts {out : List Byte} (h : assemble input = .ok out) :
    ¬ ExitsTwo (assemble input) := by
  rw [h]
  rintro (hlong | ⟨l, hrejected⟩)
  · cases hlong
  · cases hrejected

theorem exitsTwo_iff (hin : InTable input) : ExitsTwo (assemble input) ↔ Stops input := by
  refine ⟨fun h => ?_, exitsTwo_of_stops⟩
  by_contra hstops
  obtain ⟨out, hout⟩ := accepts_of_not_stops hin hstops
  exact not_exitsTwo_of_accepts hout h

end Program

section Documented

variable {tab : Slot → Word} {op : Operand} {ops : List Operand} {t tail : List Byte}
  {wd : Width} {n : ℕ} {i : Instr} {mnem : List Char}

/-- Where `next_reg` reads a register operand. -/
theorem Spells.afterReg (h : Spells tab (.reg wd n :: ops) t tail) :
    regLetter t = letter wd ∧ Spells tab ops (SelfAssembler.afterReg t) tail := by
  obtain ⟨bl, ds, rest, rfl, hbl, hds, hrest⟩ := h.reg
  have hskip : (bl ++ letter wd :: (ds ++ rest)).dropWhile isWs = letter wd :: (ds ++ rest) := by
    apply dropWhile_run hbl.isWs
    rintro b ⟨rfl⟩
    exact letter_not_isWs wd
  rw [regLetter, SelfAssembler.afterReg, hskip, List.drop_succ_cons, List.drop_zero,
    dropWhile_run hds.2.1 hrest.avoids_digit]
  exact ⟨rfl, hrest⟩

theorem Spells.regAhead (h : Spells tab (.reg wd n :: ops) t tail) :
    isRegLetter ((t.dropWhile isBlank).getD 0 0) = true := by
  obtain ⟨bl, ds, rest, rfl, hbl, hds, hrest⟩ := h.reg
  rw [dropWhile_run hbl.2, List.getD_cons_zero, isRegLetter_letter]
  rintro b ⟨rfl⟩
  exact letter_not_isBlank wd

theorem not_noShift_regs {w₁ w₂ w₃ : Width} {x y z : ℕ}
    (h : Spells tab [.reg w₁ x, .reg w₂ y, .reg w₃ z] t tail) (kind : Kind) :
    ¬ NoShift kind t := by
  rintro ⟨hahead, -⟩
  rw [h.afterReg.2.afterReg.2.regAhead] at hahead
  cases hahead

theorem not_noShift_narrow (h : Spells tab (.reg .w n :: ops) t tail) {kind : Kind}
    (hkind : kind ≠ .div) : ¬ NoShift kind t := by
  rintro ⟨-, hdiv | ⟨hletter, -⟩⟩
  · exact hkind hdiv
  · exact hletter h.afterReg.1

/-- No line in a form of the language is rejected, whatever its operands are. -/
theorem Form.dispatched (h : Form i mnem ops) (ht : Spells tab ops t tail) :
    ¬ Undispatched (text mnem ++ t) := by
  cases h
  case twoSource op wd d n m =>
    have hshift := not_noShift_regs ht
    cases op <;> simp +decide [Undispatched, text, twoSourceName, ADies, LDies, SDies, hshift]
  case shiftImm op d n amount =>
    have hlsl : ¬ NoShift .lsl t := not_noShift_narrow ht (by decide)
    have hasr : ¬ NoShift .asr t := not_noShift_narrow ht (by decide)
    cases op <;> simp +decide [Undispatched, text, shiftName, ADies, LDies, hlsl, hasr]
  case addSubImm op wd d n imm =>
    cases op <;> simp +decide [Undispatched, text, addSubName, ADies, SDies]
  case addSubReg op wd d n m =>
    cases op <;> simp +decide [Undispatched, text, addSubName, ADies, SDies]
  case logical op wd d n m => cases op <;> simp +decide [Undispatched, text, logicalName, ADies]
  case narrow op d n => cases op <;> simp +decide [Undispatched, text, narrowName, LDies, SDies]
  case bcond c p =>
    cases c <;> simp +decide [Undispatched, text, BranchDies, condCode, condChars]
  case loadStore op wd d n =>
    obtain ⟨b, t', rfl, rfl | rfl⟩ := ht.head <;>
      cases op <;> simp +decide [Undispatched, text, loadStoreName, LDies, SDies]
  case loadStoreOffset op wd d n offset =>
    obtain ⟨b, t', rfl, rfl | rfl⟩ := ht.head <;>
      cases op <;> simp +decide [Undispatched, text, loadStoreName, LDies, SDies]
  case b p =>
    obtain ⟨b, t', rfl, rfl | rfl⟩ := ht.head <;>
      simp +decide [Undispatched, text, BranchDies]
  all_goals simp +decide [Undispatched, text, ADies, BranchDies, LDies, SDies]

/-- Operands in order, of which the last one is a label of one character that ends its line. -/
inductive SpellsSingle (tab : Slot → Word) : List Operand → List Byte → Prop where
  | label {bl t : List Byte} {c : Byte} {k : Slot} (hbl : Blanks bl) (hc : Printable c)
      (hk : slotOf (symOffset c 0x0a) = some k) :
      SpellsSingle tab [.target (tab k).toNat] (bl ++ c :: 0x0a :: t)
  | cons {op : Operand} {ops : List Operand} {bl txt rest : List Byte} (hbl : Blanks bl)
      (htxt : OperandText tab op txt) (h : SpellsSingle tab ops rest) :
      SpellsSingle tab (op :: ops) (bl ++ (txt ++ rest))

theorem SpellsSingle.head (h : SpellsSingle tab (op :: ops) t) :
    ∃ b t', t = b :: t' ∧ (b = 0x20 ∨ b = 0x09) := by
  cases h with
  | label hbl _ _ =>
      obtain ⟨b, bl', rfl⟩ := List.exists_cons_of_ne_nil hbl.1
      exact ⟨b, _, rfl, isBlank_cases (hbl.2 b List.mem_cons_self)⟩
  | cons hbl _ _ =>
      obtain ⟨b, bl', rfl⟩ := List.exists_cons_of_ne_nil hbl.1
      exact ⟨b, _, rfl, isBlank_cases (hbl.2 b List.mem_cons_self)⟩

theorem SpellsSingle.target_mem (h : SpellsSingle tab ops t) : ∃ p, .target p ∈ ops := by
  induction h with
  | label _ _ _ => exact ⟨_, List.mem_cons_self⟩
  | cons _ _ _ ih =>
      obtain ⟨p, hp⟩ := ih
      exact ⟨p, List.mem_cons_of_mem _ hp⟩

/-- What begins with a line that can be encoded at a position: an instruction in a form of the
language whose operands fit, or data. -/
inductive Encodable (tab : Slot → Word) (p : ℕ) : List Byte → Prop where
  | instr {i : Instr} {mnem : List Char} {ops : List Operand} {t tail : List Byte}
      (hform : Form i mnem ops) (ht : Spells tab ops t tail) (hfit : i.Fits p) :
      Encodable tab p (text mnem ++ t)
  | single {i : Instr} {mnem : List Char} {ops : List Operand} {t : List Byte}
      (hform : Form i mnem ops) (ht : SpellsSingle tab ops t) (hfit : i.Fits p) :
      Encodable tab p (text mnem ++ t)
  | byte {v : ℕ} {bl ds tail : List Byte} (hbl : Blanks bl) (hds : Digits ds v)
      (hend : LineEnd tail) (hfit : v < 256) :
      Encodable tab p (text ['.', 'b', 'y', 't', 'e'] ++ (bl ++ (ds ++ tail)))
  | ascii {bl t : List Byte} (hbl : Blanks bl) :
      Encodable tab p (text ['.', 'a', 's', 'c', 'i', 'i'] ++ (bl ++ ch '"' :: t))

/-- Neither the end of the input, nor a comment or a label. -/
def IsItem (l : List Byte) : Prop := l ≠ [] ∧ l.head? ≠ some (ch '#') ∧ l.head? ≠ some (ch ':')

/-- What is left of the input where a line of it begins, but for white space. -/
def lineTexts (input : List Byte) : List (List Byte) :=
  (input :: (input.tails.filter fun t => t.head? = some 0x0a).map List.tail).map
    (List.dropWhile isWs)

/-- The table that the first pass leaves. -/
def labelTable (input : List Byte) : Slot → Word :=
  match pass false input blank with
  | .ok first => first.tab
  | .error _ => blank

/-- The input has a line that cannot be encoded: one of its own lines, wherever it is placed, or
one that the assembler begins to read, at the position which it has there. -/
def HasUnencodable (input : List Byte) : Prop :=
  (∃ l ∈ lineTexts input, IsItem l ∧ ∀ p, ¬ Encodable (labelTable input) p l) ∨
    ∃ s ∈ lines false input blank, IsItem s.rest ∧ ¬ Encodable (labelTable input) s.pos s.rest

/-- `mov x0 65537`, which needs two halfwords. -/
def wideMove : List Byte :=
  text ['m', 'o', 'v', ' ', 'x', '0', ' ', '6', '5', '5', '3', '7', '\n']

/-- A number that is written as an operand is the one that `parse_dec` reads, up to 32 bits. -/
theorem Spells.value_eq {v : ℕ} {b : Byte} {u rest : List Byte} {w : Word}
    (h : Spells tab (.num v :: ops) t tail) (hb : t.dropWhile isWs = b :: u)
    (hread : parseDec.run ⟨b :: u, false⟩ = .ok (w, ⟨rest, false⟩)) : BitVec.ofNat 32 v = w := by
  obtain ⟨b', u', rest', -, -, hskip, hparse⟩ := h.skipWs_run_num
  have htext : t.dropWhile isWs = b' :: u' := by
    have hrun := hskip false
    rw [skipWs, run_skipWhile] at hrun
    exact congrArg (fun r => (r.toOption.map fun p => p.2.rest).getD []) hrun
  rw [hb] at htext
  obtain ⟨rfl, rfl⟩ := List.cons.inj htext
  rw [hparse false] at hread
  cases hread
  rfl

/-- The forms that `wideMove` could have. -/
theorem wideMove_form (hform : Form i mnem ops) (hl : wideMove = text mnem ++ t)
    (hhead : ops ≠ [] → ∃ b t', t = b :: t' ∧ (b = 0x20 ∨ b = 0x09)) :
    t = text [' ', 'x', '0', ' ', '6', '5', '5', '3', '7', '\n'] ∧
      ((∃ wd d imm, i = .movWide .movz wd d imm ∧ ops = [.reg wd d, .num imm]) ∨
        ∃ wd d m, ops = [.reg wd d, .reg wd m]) := by
  have hmov : wideMove = text ['m', 'o', 'v'] ++
      text [' ', 'x', '0', ' ', '6', '5', '5', '3', '7', '\n'] := rfl
  cases hform
  case movImm wd d imm =>
    exact ⟨(List.append_cancel_left (hmov.symm.trans hl)).symm, .inl ⟨wd, d, imm, rfl, rfl⟩⟩
  case movReg wd d m =>
    exact ⟨(List.append_cancel_left (hmov.symm.trans hl)).symm, .inr ⟨wd, d, m, rfl⟩⟩
  case addSubImm op _ _ _ _ | addSubReg op _ _ _ _ =>
    cases op <;> exact absurd hl (by simp +decide [wideMove, text, addSubName])
  case logical op _ _ _ _ =>
      cases op <;> exact absurd hl (by simp +decide [wideMove, text, logicalName])
  case twoSource op _ _ _ _ =>
    cases op <;> exact absurd hl (by simp +decide [wideMove, text, twoSourceName])
  case shiftImm op _ _ _ =>
      cases op <;> exact absurd hl (by simp +decide [wideMove, text, shiftName])
  case loadStore op _ _ _ | loadStoreOffset op _ _ _ _ =>
    cases op <;> exact absurd hl (by simp +decide [wideMove, text, loadStoreName])
  case narrow op _ _ => cases op <;> exact absurd hl (by simp +decide [wideMove, text, narrowName])
  all_goals exact absurd hl (by simp +decide [wideMove, text])

theorem wideMove_not_encodable (tab : Slot → Word) (p : ℕ) : ¬ Encodable tab p wideMove := by
  generalize hl : wideMove = l
  intro h
  cases h with
  | instr hform ht hfit =>
      obtain ⟨rfl, ⟨wd, d, imm, rfl, rfl⟩ | ⟨wd, d, m, rfl⟩⟩ := wideMove_form hform hl fun hne => by
        obtain ⟨op, ops', rfl⟩ := List.exists_cons_of_ne_nil hne
        exact ht.head
      · have hnum := ht.afterReg.2.value_eq (b := ch '6') rfl rfl
        have hval := congrArg BitVec.toNat hnum
        rw [BitVec.toNat_ofNat] at hval
        have hread : (65537 : ℕ) = imm % 2 ^ 32 := hval.symm
        obtain ⟨-, hsmall | ⟨v, -, hv⟩⟩ := hfit <;> omega
      · exact absurd ht.afterReg.2.regAhead (by decide)
  | single hform ht hfit =>
      obtain ⟨rfl, ⟨wd, d, imm, rfl, rfl⟩ | ⟨wd, d, m, rfl⟩⟩ := wideMove_form hform hl fun hne => by
        obtain ⟨op, ops', rfl⟩ := List.exists_cons_of_ne_nil hne
        exact ht.head
      · obtain ⟨q, hq⟩ := ht.target_mem
        simp at hq
      · obtain ⟨q, hq⟩ := ht.target_mem
        simp at hq
  | byte _ _ _ _ => cases hl
  | ascii _ => cases hl

theorem wideMove_lines : (lines false wideMove blank).map State.rest = [wideMove, []] := by
  decide

theorem wideMove_inTable : InTable wideMove := by
  intro s hs
  have hrest := List.mem_map_of_mem (f := State.rest) hs
  rw [wideMove_lines] at hrest
  revert hrest
  generalize s.rest = l
  revert l
  decide

/-- The word that begins a line. -/
def mnemonicOf (l : List Byte) : List Byte := l.takeWhile fun b => !isWs b && b ≠ ch '#'

def branchNames : List (List Char) :=
  [['b'], ['b', 'l'], ['b', '.', 'e', 'q'], ['b', '.', 'n', 'e'], ['b', '.', 'h', 's'],
    ['b', '.', 'l', 'o'], ['b', '.', 'h', 'i'], ['b', '.', 'l', 's'], ['b', '.', 'g', 'e'],
    ['b', '.', 'l', 't'], ['b', '.', 'g', 't'], ['b', '.', 'l', 'e']]

/-- The text of the target of a branch or an `adr`, whatever register the `adr` has. -/
inductive TargetText : List Byte → List Byte → Prop where
  | branch {l : List Byte} (h : mnemonicOf l ∈ branchNames.map text) :
      TargetText l ((l.drop (mnemonicOf l).length).dropWhile isWs)
  | adr {l : List Byte} (h : mnemonicOf l = text ['a', 'd', 'r']) :
      TargetText l ((afterReg (l.drop 3)).dropWhile isWs)

/-- A label has one or two characters, up to white space. -/
def labelName (t : List Byte) : List Byte := (t.take 2).takeWhile fun b => !isWs b

/-- A line that names a label as a target. -/
def NamesLabel (l name : List Byte) : Prop :=
  ∃ t, TargetText l t ∧ ¬ (t.getD 0 0 = ch '@' ∧ isDigit (t.getD 1 0) = true) ∧ t ≠ [] ∧
    name = labelName t

def DefinesLabel (l name : List Byte) : Prop := ∃ t, l = ch ':' :: t ∧ name = labelName t

/-- Where the lines of an input begin, and where the assembler begins to read one. -/
def places (input : List Byte) : List (List Byte) :=
  lineTexts input ++ (lines false input blank).map State.rest

/-- The input names a label that it does not define. -/
def NamesUndefined (input : List Byte) : Prop :=
  ∃ l ∈ places input, ∃ name, NamesLabel l name ∧ ∀ d ∈ places input, ¬ DefinesLabel d name

/-- `ret` and `b aa`. -/
def strayBranch : List Byte :=
  text ['r', 'e', 't', '\n', 'b', ' ', 'a', 'a', '\n']

theorem strayBranch_lines :
    (lines false strayBranch blank).map State.rest =
      [strayBranch, text ['b', ' ', 'a', 'a', '\n'], []] := by
  decide

theorem strayBranch_inTable : InTable strayBranch := by
  intro s hs
  have hrest := List.mem_map_of_mem (f := State.rest) hs
  rw [strayBranch_lines] at hrest
  revert hrest
  generalize s.rest = l
  revert l
  decide

end Documented

end Veron.SelfAssembler
