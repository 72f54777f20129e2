/-
Which references the label resolver resolves, and which missing names it refuses, on any
text: every line of the output has a numeric target, but for a `b` with a tab behind it.
-/
import Veron.LabelResolverOver

namespace Veron.LabelResolver

open SelfAssembler (Byte ch isBlank isDigit text)

/-- The first field of a line. -/
def mnemonic (line : List Byte) : List Byte := token (sksp line)

/-- What follows the first field. -/
def operands (line : List Byte) : List Byte := sksp (afterToken (sksp line))

/-- `b`, `bl`, `b.` with a condition, or `adr`. -/
def Refers (line : List Byte) : Prop :=
  mnemonic line = text ['b'] ∨ mnemonic line = text ['b', 'l'] ∨
    text ['b', '.'] <+: mnemonic line ∨ mnemonic line = text ['a', 'd', 'r']

/-- The target of a line that refers: its second field, or its third. -/
def targetOf (line : List Byte) : List Byte :=
  if mnemonic line = text ['a', 'd', 'r'] then mnemonic (operands (operands line))
  else mnemonic (operands line)

/-- A target that is no position. -/
def Symbolic (target : List Byte) : Prop :=
  ∃ b ∈ target.head?, b ≠ ch '@' ∧ isDigit b = false

def SymbolicLine (line : List Byte) : Prop := Refers line ∧ Symbolic (targetOf line)

def lines (t : List Byte) : List (List Byte) := t.splitOn 0x0a

/-- A name has a definition somewhere in the input. -/
def Defined (input name : List Byte) : Prop :=
  ∃ line ∈ lines input, ∃ t, sksp line = ch ':' :: t ∧ token t = name

/-- A name that a line of the input refers to has no definition. -/
def Undefined (input : List Byte) : Prop :=
  ∃ line ∈ lines input, SymbolicLine line ∧ ¬ Defined input (targetOf line)

/-- No symbolic target comes out, and an undefined name is refused. -/
structure Resolved (input : List Byte) : Prop where
  numeric : ∀ out, resolveOver input = .ok out → ∀ line ∈ lines out, ¬ SymbolicLine line
  refused : Undefined input → ∃ names, resolveOver input = .error (.unresolved names)

/-- A `b`, a tab, and a name as the target. -/
def Tabbed (line : List Byte) : Prop :=
  SymbolicLine line ∧ ∃ t, sksp line = ch 'b' :: 0x09 :: t

/-- Nothing, or a text that a newline ends. -/
def Ended (out : List Byte) : Prop := out = [] ∨ ∃ o, out = o ++ [0x0a]

/-- A line as pass 2 meets it, past its blanks and with its newline. -/
def alone (line : List Byte) : Emit := ⟨sksp line ++ [0x0a], [], []⟩

/-- By its first characters pass 2 takes the line for a reference, and its target for a name. -/
def LooksUp (line : List Byte) : Prop :=
  (alone line).Reference [] ∧ ¬ (alone line).atTarget.Numeric []

/-- The name that pass 2 looks for. -/
def sought (line : List Byte) : List Byte := token (alone line).atTarget.rest

/-- A name that pass 2 looks for has no definition. -/
def Refused (input : List Byte) : Prop :=
  ∃ line ∈ lines input, LooksUp line ∧ ¬ Defined input (sought line)

/-- Whole lines without a zero byte, of which none that looks up a name is a `b `, a `b.` or a
`bl` alone. -/
structure Plain (input : List Byte) : Prop where
  ended : Ended input
  nonzero : 0 ∉ input
  long : ∀ line ∈ lines input, LooksUp line → 3 ≤ line.length

/-- A line reached whose target is a name that the table does not have. -/
def Missed (input : List Byte) : Prop :=
  ∃ first, pass1 input = .ok first ∧ ∃ s ∈ emitsOver first.labels input,
    s.sksp.Reference (slackOf input) ∧ ¬ s.sksp.atTarget.Numeric (slackOf input) ∧
      findlabel (s.tables first.labels (4 * region input.length))
        (token s.sksp.atTarget.rest) = none

section Lines

variable {Q : List Byte → Prop} {l line out : List Byte}

theorem lines_append (l m : List Byte) : lines (l ++ 0x0a :: m) = lines l ++ lines m :=
  List.splitOn_append_cons_self l m

theorem lines_of_notMem (h : 0x0a ∉ l) : lines l = [l] := List.splitOn_eq_singleton h

/-- The lines of a text are its first one and those that follow. -/
theorem lines_eq (l : List Byte) :
    lines l = lineOf l :: if lineEnd l = [] then [] else lines (skipnl l) := by
  have hline := line_append l
  rcases lineEnd_cases l with hend | ⟨hend, -, hlast⟩
  · rw [hend, if_neg (List.cons_ne_nil _ _)]
    rw [hend] at hline
    conv_lhs => rw [← hline]
    rw [List.singleton_append, lines_append, lines_of_notMem (newline_notMem_lineOf l)]
    rfl
  · rw [if_pos hend, hlast]
    exact lines_of_notMem (hlast ▸ newline_notMem_lineOf l)

theorem exists_lines_append (hQ : ¬ Q []) (hout : Ended out) (hline : 0x0a ∉ line)
    {newline : List Byte} (hnewline : newline = [0x0a] ∨ newline = []) :
    (∃ x ∈ lines (out ++ (line ++ newline)), Q x) ↔ (∃ x ∈ lines out, Q x) ∨ Q line := by
  have hone : (∃ x ∈ lines (line ++ newline), Q x) ↔ Q line := by
    rcases hnewline with rfl | rfl
    · rw [lines_append, lines_of_notMem hline]
      simp [lines, hQ]
    · rw [List.append_nil, lines_of_notMem hline]
      simp
  rcases hout with rfl | ⟨o, rfl⟩
  · rw [List.nil_append, hone]
    simp [lines, hQ]
  · rw [List.append_assoc, List.singleton_append, lines_append, lines_append]
    simp only [List.mem_append, or_and_right, exists_or, hone]
    simp [lines, hQ]

end Lines

section

variable (slack : List Byte) (labels : Labels) (s : Emit)

/-- The line that a round writes. -/
def Emit.line : List Byte :=
  if s.Reference slack then s.heading ++ s.atTarget.targetText slack labels
  else if s.rest.head? = some 0x0a ∨ s.rest.head? = some (ch ':') then []
  else lineOf s.rest

end

section Rounds

variable {slack : List Byte} {labels : Labels} {room : ℕ} {s t : Emit}

theorem token_no_sep {l : List Byte} : ∀ b ∈ token l, isSep b = false := by
  intro b hb
  simpa using List.mem_takeWhile_imp hb

theorem Emit.targetText_no_sep (s : Emit) : ∀ b ∈ s.targetText slack labels, isSep b = false := by
  intro b hb
  rw [Emit.targetText] at hb
  split at hb
  · exact token_no_sep b hb
  · rcases List.mem_cons.mp hb with rfl | hb
    · rfl
    · exact isDigit_not_isSep ((emitpos_digits 9 _).1 b hb)

theorem Emit.newline_notMem_line (s : Emit) : 0x0a ∉ s.line slack labels := by
  have htoken (l : List Byte) : 0x0a ∉ token l := newline_notMem token_no_sep
  have htext := newline_notMem (@Emit.targetText_no_sep slack labels s.atTarget)
  rw [Emit.line]
  split
  · rw [Emit.heading]
    split
    · simp only [List.mem_append, List.mem_cons, List.not_mem_nil, or_false, not_or]
      exact ⟨⟨htoken _, by decide, htoken _, by decide⟩, htext⟩
    · simp only [List.mem_append, List.mem_cons, List.not_mem_nil, or_false, not_or]
      exact ⟨⟨htoken _, by decide⟩, htext⟩
  · split
    · exact List.not_mem_nil
    · exact newline_notMem_lineOf s.rest

/-- A round writes one line and its newline, unless it writes nothing, or the last line. -/
theorem Emit.written_line (s : Emit) : s.written slack labels = s.line slack labels ++ [0x0a] ∨
    s.written slack labels = s.line slack labels ++ [] ∧
      (s.line slack labels = [] ∨ skipnl s.rest = []) := by
  rw [Emit.written, Emit.line]
  split
  · exact .inl (List.append_assoc _ _ _).symm
  · split
    · exact .inr ⟨rfl, .inl rfl⟩
    · rcases lineEnd_cases s.rest with hend | ⟨hend, hlast, -⟩
      · rw [hend]
        exact .inl rfl
      · rw [hend]
        exact .inr ⟨rfl, .inr hlast⟩

variable {Q : List Byte → Prop} {n : ℕ}

theorem emitOver_none (h : emitOver slack labels room s = .ok none) : sksp s.rest = [] := by
  by_contra hne
  rw [emitOver, emit_eq hne] at h
  cases h

theorem Emit.not_reference_of_stop (s : Emit) (h : LabelResolver.sksp s.rest = []) :
    ¬ s.sksp.Reference slack := by
  have hrest : s.sksp.rest = [] := h
  rw [Emit.Reference, hrest]
  rintro (⟨hhead, -⟩ | ⟨hhead, -⟩) <;> cases hhead

theorem Emit.line_of_stop (s : Emit) (h : LabelResolver.sksp s.rest = []) :
    s.sksp.line slack labels = [] := by
  have hrest : s.sksp.rest = [] := h
  rw [Emit.line, if_neg (s.not_reference_of_stop h), hrest, if_neg (by simp)]
  rfl

/-- At the end of the text a run is over. -/
theorem run_of_stop (hrun : Loop.run .running (emitOver slack labels room) n s = .ok t)
    (hs : sksp s.rest = []) :
    t = s ∧ Loop.visits (emitOver slack labels room) n s = [s] := by
  have hstop : emitOver slack labels room s = .ok none := emit_stops hs
  cases n with
  | zero => cases hrun
  | succ n =>
      rcases Loop.run_cases hrun with ⟨-, rfl⟩ | ⟨r, hmore, -⟩
      · exact ⟨rfl, by simp [Loop.visits, hstop]⟩
      · rw [hstop] at hmore
        cases hmore

/-- A run goes through the lines of its text. -/
theorem exists_lines_visits (hQ : ¬ Q [])
    (hrun : Loop.run .running (emitOver slack labels room) n s = .ok t) :
    (∃ x ∈ lines s.rest, Q x) ↔
      ∃ v ∈ Loop.visits (emitOver slack labels room) n s, Q (lineOf v.rest) := by
  induction n generalizing s with
  | zero => cases hrun
  | succ n ih =>
      rw [lines_eq]
      rcases Loop.run_cases hrun with ⟨hstop, rfl⟩ | ⟨r, hmore, hrest⟩
      · have hend : lineEnd t.rest = [] := by
          rw [← lineEnd_sksp, emitOver_none hstop]
          rfl
        simp [Loop.visits, hstop, hend]
      · have hnext := ih hrest
        obtain ⟨-, hr⟩ := emitOver_some hmore
        have hskip : r.rest = skipnl s.rest := by rw [hr]
        rw [Loop.visits_more hmore, List.exists_mem_cons_iff, List.exists_mem_cons_iff, ← hnext,
          hskip]
        rcases lineEnd_cases s.rest with hend | ⟨hend, hlast, -⟩
        · rw [hend, if_neg (List.cons_ne_nil _ _)]
        · rw [hend, if_pos rfl, hlast]
          simp [lines, hQ]

/-- The lines of the output are those that the rounds write. -/
theorem exists_lines_out (hQ : ¬ Q []) (hout : Ended s.out)
    (hrun : Loop.run .running (emitOver slack labels room) n s = .ok t) :
    (∃ x ∈ lines t.out, Q x) ↔ (∃ x ∈ lines s.out, Q x) ∨
      ∃ v ∈ Loop.visits (emitOver slack labels room) n s,
        Q (v.sksp.line slack (v.tables labels room)) := by
  induction n generalizing s with
  | zero => cases hrun
  | succ n ih =>
      rcases Loop.run_cases hrun with ⟨hstop, -⟩ | ⟨r, hmore, hrest⟩
      · have hs := emitOver_none hstop
        obtain ⟨rfl, hvisits⟩ := run_of_stop hrun hs
        rw [hvisits]
        simp [Emit.line_of_stop t hs, hQ]
      · obtain ⟨-, hr⟩ := emitOver_some hmore
        have hskip : r.rest = skipnl s.rest := by rw [hr]
        have hwritten : r.out = s.out ++ s.sksp.written slack (s.tables labels room) := by rw [hr]
        have hnewline := @Emit.newline_notMem_line slack (s.tables labels room) s.sksp
        rw [Loop.visits_more hmore, List.exists_mem_cons_iff, ← or_assoc]
        rcases @Emit.written_line slack (s.tables labels room) s.sksp with h | ⟨h, hlast⟩
        · rw [h] at hwritten
          have hended : Ended r.out :=
            .inr ⟨s.out ++ s.sksp.line slack (s.tables labels room), by
              rw [hwritten, List.append_assoc]⟩
          rw [ih hended hrest, hwritten, exists_lines_append hQ hout hnewline (.inl rfl)]
        · rw [h] at hwritten
          have hlines := exists_lines_append hQ hout hnewline (.inr rfl)
          rw [← hwritten] at hlines
          rcases hlast with hempty | hlast
          · have hsame : r.out = s.out := by rw [hwritten, hempty]; simp
            rw [ih (hsame ▸ hout) hrest, hlines]
          · have hstop : sksp r.rest = [] := by
              have hskipped : skipnl s.rest = [] := (skipnl_sksp s.rest).symm.trans hlast
              rw [hskip, hskipped]
              rfl
            obtain ⟨rfl, hvisits⟩ := run_of_stop hrest hstop
            rw [hvisits, hlines]
            simp [Emit.line_of_stop t hstop, hQ]

end Rounds

section Fields

variable {l m t : List Byte}

theorem sksp_sksp (l : List Byte) : sksp (sksp l) = sksp l := List.dropWhile_idempotent _ _

@[simp]
theorem mnemonic_sksp (l : List Byte) : mnemonic (sksp l) = mnemonic l := by
  rw [mnemonic, sksp_sksp, mnemonic]

@[simp]
theorem operands_sksp (l : List Byte) : operands (sksp l) = operands l := by
  rw [operands, sksp_sksp, operands]

theorem symbolicLine_sksp (l : List Byte) : SymbolicLine (sksp l) ↔ SymbolicLine l := by
  rw [SymbolicLine, SymbolicLine, Refers, Refers, targetOf, targetOf, mnemonic_sksp, operands_sksp]

theorem not_symbolic_nil : ¬ Symbolic [] := by
  rintro ⟨b, hb, -⟩
  cases hb

theorem sksp_of_no_sep (h : ∀ b ∈ t, isSep b = false) : sksp t = t := by
  cases t with
  | nil => rfl
  | cons b t =>
      have hb := isBlank_of_isSep_false (h b List.mem_cons_self)
      exact List.dropWhile_cons_of_neg (by simp [hb])

theorem mnemonic_of_no_sep (h : ∀ b ∈ t, isSep b = false) : mnemonic t = t ∧ operands t = [] := by
  obtain ⟨htoken, hafter⟩ := token_append h (show ∀ b ∈ ([] : List Byte).head?, _ by simp)
  rw [List.append_nil] at htoken hafter
  rw [mnemonic, operands, sksp_of_no_sep h, htoken, hafter]
  exact ⟨rfl, rfl⟩

theorem mnemonic_append (hm : ∀ b ∈ m, isSep b = false) (hne : m ≠ []) (l : List Byte) :
    mnemonic (m ++ 0x20 :: l) = m ∧ operands (m ++ 0x20 :: l) = sksp l := by
  obtain ⟨b, m, rfl⟩ := List.exists_cons_of_ne_nil hne
  have hb := isBlank_of_isSep_false (hm b List.mem_cons_self)
  have hskip : sksp (b :: m ++ 0x20 :: l) = b :: m ++ 0x20 :: l :=
    List.dropWhile_cons_of_neg (by simp [hb])
  obtain ⟨htoken, hafter⟩ := token_append hm (show ∀ c ∈ (0x20 :: l).head?, isSep c = true by
    rintro c ⟨rfl⟩
    rfl)
  rw [mnemonic, operands, hskip, htoken, hafter]
  exact ⟨rfl, rfl⟩

/-- A line with a target has a blank after its first field. -/
theorem blank_of_symbolic (hl : 0x0a ∉ l) (h : Symbolic (targetOf l)) :
    ∃ c r, sksp l = mnemonic l ++ c :: r ∧ isBlank c = true := by
  have hsplit := token_append_afterToken (sksp l)
  cases hafter : afterToken (sksp l) with
  | nil =>
      have hnone : operands l = [] := by rw [operands, hafter]; rfl
      rw [targetOf, hnone] at h
      split at h
      · exact absurd h not_symbolic_nil
      · exact absurd h not_symbolic_nil
  | cons c r =>
      rw [hafter] at hsplit
      refine ⟨c, r, hsplit.symm, ?_⟩
      have hsep : isSep c = true := by
        have hhead := List.head?_dropWhile_not (fun b => !isSep b) (sksp l)
        rw [← afterToken, hafter] at hhead
        simpa using hhead
      refine isBlank_of_isSep hsep ?_
      rintro rfl
      have hmem : 0x0a ∈ sksp l := hsplit ▸ List.mem_append_right _ List.mem_cons_self
      exact hl ((List.dropWhile_suffix _).subset hmem)

theorem targetOf_branch {b : Byte} (hm : ∀ c ∈ b :: m, isSep c = false) (hb : b ≠ ch 'a')
    (ht : ∀ c ∈ t, isSep c = false) : targetOf (b :: m ++ 0x20 :: t) = t := by
  obtain ⟨hmnemonic, hoperands⟩ := mnemonic_append hm (List.cons_ne_nil b m) t
  have hne : b :: m ≠ text ['a', 'd', 'r'] := fun h => hb (List.cons.inj h).1
  rw [targetOf, hmnemonic, if_neg hne, hoperands, mnemonic_sksp, (mnemonic_of_no_sep ht).1]

/-- The target of an `adr`, which is none where a field is missing before it. -/
theorem targetOf_adr {d : List Byte} (hm : ∀ c ∈ ch 'a' :: m, isSep c = false)
    (hd : ∀ c ∈ d, isSep c = false) (ht : ∀ c ∈ t, isSep c = false)
    (href : Refers (ch 'a' :: m ++ 0x20 :: (d ++ 0x20 :: t))) :
    targetOf (ch 'a' :: m ++ 0x20 :: (d ++ 0x20 :: t)) = t ∨
      targetOf (ch 'a' :: m ++ 0x20 :: (d ++ 0x20 :: t)) = [] := by
  obtain ⟨hmnemonic, hoperands⟩ :=
    mnemonic_append hm (List.cons_ne_nil (ch 'a') m) (d ++ 0x20 :: t)
  obtain ⟨htarget, hnone⟩ := mnemonic_of_no_sep ht
  rw [targetOf, hmnemonic, hoperands, operands_sksp]
  have hadr : ch 'a' :: m = text ['a', 'd', 'r'] := by
    rw [Refers, hmnemonic] at href
    rcases href with h | h | h | h
    · cases (List.cons.inj h).1
    · cases (List.cons.inj h).1
    · obtain ⟨z, hz⟩ := h
      cases (List.cons.inj hz).1
    · exact h
  rw [if_pos hadr]
  by_cases hempty : d = []
  · right
    subst hempty
    have hskip : operands (0x20 :: t) = operands t := by
      rw [← operands_sksp, ← operands_sksp t]
      rfl
    rw [List.nil_append, hskip, hnone]
    rfl
  · left
    rw [(mnemonic_append hd hempty t).2, mnemonic_sksp, htarget]

end Fields

section Kinds

variable {slack : List Byte} {labels : Labels} {s : Emit}

theorem Emit.targetText_not_symbolic (s : Emit) : ¬ Symbolic (s.targetText slack labels) := by
  rintro ⟨b, hb, hat, hdigit⟩
  rw [Emit.targetText] at hb
  split at hb
  · rename_i hnumeric
    cases hrest : s.rest with
    | nil =>
        rw [hrest] at hb
        cases hb
    | cons c r =>
        have hc : s.ahead slack 0 = c := by rw [Emit.ahead, hrest]; rfl
        rw [Emit.Numeric, hc] at hnumeric
        rw [hrest, token] at hb
        cases hsep : isSep c with
        | true =>
            rw [List.takeWhile_cons_of_neg (by simp [hsep])] at hb
            cases hb
        | false =>
            rw [List.takeWhile_cons_of_pos (by simp [hsep])] at hb
            obtain rfl := Option.some.inj hb
            rcases hnumeric with h | h
            · exact hat h
            · rw [h] at hdigit
              cases hdigit
  · exact hat (Option.some.inj hb).symm

/-- A reference comes out without a symbolic target. -/
theorem Emit.reference_not_symbolic (h : s.Reference slack) :
    ¬ SymbolicLine (s.heading ++ s.atTarget.targetText slack labels) := by
  rintro ⟨hrefers, hsymbolic⟩
  have htext := @Emit.targetText_no_sep slack labels s.atTarget
  have hnot := @Emit.targetText_not_symbolic slack labels s.atTarget
  have hm := @token_no_sep s.rest
  by_cases ha : s.rest.head? = some (ch 'a')
  · obtain ⟨m, htoken⟩ := token_of_head rfl ha
    have hline : s.heading ++ s.atTarget.targetText slack labels = ch 'a' :: m ++
        0x20 :: (token (LabelResolver.sksp (afterToken s.rest)) ++
          0x20 :: s.atTarget.targetText slack labels) := by
      rw [Emit.heading, if_pos ha, htoken]
      simp
    rw [hline] at hrefers hsymbolic
    rw [htoken] at hm
    rcases targetOf_adr hm token_no_sep htext hrefers with htarget | htarget
    · rw [htarget] at hsymbolic
      exact hnot hsymbolic
    · rw [htarget] at hsymbolic
      exact not_symbolic_nil hsymbolic
  · have hb : s.rest.head? = some (ch 'b') := (h.resolve_left fun h => ha h.1).1
    obtain ⟨m, htoken⟩ := token_of_head rfl hb
    have hline : s.heading ++ s.atTarget.targetText slack labels = ch 'b' :: m ++
        0x20 :: s.atTarget.targetText slack labels := by
      rw [Emit.heading, if_neg ha, htoken]
      simp
    rw [hline] at hsymbolic
    rw [htoken] at hm
    rw [targetOf_branch hm (by decide) htext] at hsymbolic
    exact hnot hsymbolic

/-- Of the lines that are copied, a symbolic one has a tab after its `b`. -/
theorem Emit.copied_tabbed (h : ¬ s.Reference slack)
    (hline : SymbolicLine (lineOf s.rest)) (hhead : LabelResolver.sksp s.rest = s.rest) :
    ∃ t, lineOf s.rest = ch 'b' :: 0x09 :: t := by
  obtain ⟨hrefers, hsymbolic⟩ := hline
  obtain ⟨c, r, hsplit, hc⟩ := blank_of_symbolic (newline_notMem_lineOf _) hsymbolic
  rw [← lineOf_sksp, hhead] at hsplit
  have hrest : s.rest = lineOf s.rest ++ (lineEnd s.rest ++ skipnl s.rest) :=
    (line_append s.rest).symm
  have hahead (n : ℕ) (hn : n < (lineOf s.rest).length) :
      s.ahead slack n = (lineOf s.rest).getD n 0 := Emit.ahead_append hrest hn
  have hfirst {b : Byte} {x : List Byte} (hx : lineOf s.rest = b :: x) :
      s.rest.head? = some b := by
    rw [hrest, hx]
    rfl
  rw [Emit.Reference, not_or] at h
  rw [Refers] at hrefers
  rcases hrefers with hm | hm | ⟨z, hm⟩ | hm
  · rw [hm] at hsplit
    refine ⟨r, ?_⟩
    have hblank : c = 0x20 ∨ c = 0x09 := by simpa [isBlank] using hc
    rcases hblank with rfl | rfl
    · have hone := hahead 1 (by rw [hsplit]; simp [text])
      rw [hsplit] at hone
      refine absurd ⟨hfirst hsplit, ?_⟩ h.2
      rw [Emit.isBranch, hone]
      rfl
    · exact hsplit
  · rw [hm] at hsplit
    have hone := hahead 1 (by rw [hsplit]; simp [text])
    have htwo := hahead 2 (by rw [hsplit]; simp [text])
    rw [hsplit] at hone htwo
    refine absurd ⟨hfirst hsplit, ?_⟩ h.2
    have hr : c ≠ ch 'r' := by
      rintro rfl
      cases hc
    rw [Emit.isBranch, hone, htwo]
    simpa [text, ch] using hr
  · rw [← hm] at hsplit
    have hone := hahead 1 (by rw [hsplit]; simp [text])
    rw [hsplit] at hone
    refine absurd ⟨hfirst hsplit, ?_⟩ h.2
    rw [Emit.isBranch, hone]
    rfl
  · rw [hm] at hsplit
    have hone := hahead 1 (by rw [hsplit]; simp [text])
    have htwo := hahead 2 (by rw [hsplit]; simp [text])
    rw [hsplit] at hone htwo
    refine absurd ⟨hfirst hsplit, ?_⟩ h.1
    rw [Emit.isAdr, hone, htwo]
    rfl

theorem not_symbolicLine_nil : ¬ SymbolicLine [] := fun h => not_symbolic_nil h.2

/-- A reference has no tab after its `b`. -/
theorem Emit.reference_not_tabbed (h : s.Reference slack) (t : List Byte) :
    lineOf s.rest ≠ ch 'b' :: 0x09 :: t := by
  intro hline
  have hrest : s.rest = ch 'b' :: 0x09 :: t ++ (lineEnd s.rest ++ skipnl s.rest) := by
    rw [← hline, line_append]
  have hone : s.ahead slack 1 = 0x09 := by
    rw [Emit.ahead, hrest]
    rfl
  rw [Emit.Reference, Emit.isBranch, hone, hrest] at h
  rcases h with ⟨h, -⟩ | ⟨-, h⟩
  · cases h
  · cases h

/-- A round writes a symbolic line exactly for a `b` with a tab behind it. -/
theorem Emit.symbolicLine_iff (s : Emit) :
    SymbolicLine (s.sksp.line slack labels) ↔ Tabbed (lineOf s.rest) := by
  have hline : lineOf s.sksp.rest = LabelResolver.sksp (lineOf s.rest) := lineOf_sksp s.rest
  rw [Tabbed, ← hline, Emit.line]
  split
  · rename_i href
    refine iff_of_false (Emit.reference_not_symbolic href) ?_
    rintro ⟨-, t, ht⟩
    exact Emit.reference_not_tabbed href t ht
  · rename_i href
    split
    · rename_i hhead
      refine iff_of_false not_symbolicLine_nil ?_
      rintro ⟨-, t, ht⟩
      have hb : s.sksp.rest.head? = some (ch 'b') := by
        rw [← line_append s.sksp.rest, ht]
        rfl
      rw [hb] at hhead
      rcases hhead with h | h <;> cases h
    · constructor
      · intro h
        refine ⟨?_, Emit.copied_tabbed href h (sksp_sksp s.rest)⟩
        rwa [← symbolicLine_sksp, ← hline]
      · rintro ⟨h, -⟩
        rwa [hline, symbolicLine_sksp]

end Kinds

section Runs

variable {input : List Byte} {first : Scan} {last : Emit}

theorem Emit.misses_ne_nil_iff {slack : List Byte} {labels : Labels} (s : Emit) :
    s.misses slack labels ≠ [] ↔ s.Reference slack ∧ ¬ s.atTarget.Numeric slack ∧
      findlabel labels (token s.atTarget.rest) = none := by
  rw [Emit.misses, Emit.lost]
  split
  · rename_i href
    rw [and_iff_right href]
    split
    · rename_i h
      refine iff_of_false (fun h => h rfl) ?_
      rintro ⟨hnumeric, hnone⟩
      exact h.elim hnumeric fun hsome => hsome hnone
    · rename_i h
      rw [not_or, not_not] at h
      exact iff_of_true (List.cons_ne_nil _ _) h
  · rename_i href
    exact iff_of_false (fun h => h rfl) fun h => href h.1

/-- The missing names are those that a line's lookup does not find. -/
theorem missing_ne_nil_iff {slack : List Byte} {labels : Labels} {room n : ℕ} {s t : Emit}
    (hrun : Loop.run .running (emitOver slack labels room) n s = .ok t) :
    t.missing ≠ [] ↔ s.missing ≠ [] ∨ ∃ v ∈ Loop.visits (emitOver slack labels room) n s,
      v.sksp.Reference slack ∧ ¬ v.sksp.atTarget.Numeric slack ∧
        findlabel (v.tables labels room) (token v.sksp.atTarget.rest) = none := by
  induction n generalizing s with
  | zero => cases hrun
  | succ n ih =>
      rcases Loop.run_cases hrun with ⟨hstop, -⟩ | ⟨r, hmore, hrest⟩
      · have hs := emitOver_none hstop
        obtain ⟨rfl, hvisits⟩ := run_of_stop hrun hs
        rw [hvisits]
        simp [t.not_reference_of_stop hs]
      · obtain ⟨-, hr⟩ := emitOver_some hmore
        have hmissing : r.missing = s.missing ++ s.sksp.misses slack (s.tables labels room) := by
          rw [hr]
        have hne : r.missing ≠ [] ↔
            s.missing ≠ [] ∨ s.sksp.misses slack (s.tables labels room) ≠ [] := by
          rw [hmissing, ne_eq, List.append_eq_nil_iff, not_and_or]
        rw [Loop.visits_more hmore, List.exists_mem_cons_iff, ih hrest, hne,
          Emit.misses_ne_nil_iff, or_assoc]

theorem missed_iff (hfirst : pass1 input = .ok first)
    (hlast : pass2Over first.labels input = .ok last) : Missed input ↔ last.missing ≠ [] := by
  rw [missing_ne_nil_iff hlast]
  constructor
  · rintro ⟨first', hfirst', s, hs⟩
    obtain rfl := Except.ok.inj (hfirst.symm.trans hfirst')
    exact .inr ⟨s, hs⟩
  · rintro (h | ⟨s, hs⟩)
    · exact absurd rfl h
    · exact ⟨first, hfirst, s, hs⟩

theorem exists_symbolic_iff (hlast : pass2Over first.labels input = .ok last) :
    (∃ line ∈ lines last.out, SymbolicLine line) ↔ ∃ line ∈ lines input, Tabbed line := by
  rw [exists_lines_out not_symbolicLine_nil (.inl rfl) hlast,
    exists_lines_visits (fun h => not_symbolicLine_nil h.1) hlast]
  simp only [Emit.symbolicLine_iff]
  simp [lines, not_symbolicLine_nil]

end Runs

section Names

variable {input l m m' name : List Byte} {slack slack' : List Byte} {s t : Emit}

theorem dropWhile_append_stop {p : Byte → Bool} {b : Byte} (hb : p b = false) (l m : List Byte) :
    (l ++ b :: m).dropWhile p = l.dropWhile p ++ b :: m := by
  induction l with
  | nil => exact List.dropWhile_cons_of_neg (by simp [hb])
  | cons c l ih =>
      cases hc : p c with
      | true => rw [List.cons_append, List.dropWhile_cons_of_pos hc, ih,
          List.dropWhile_cons_of_pos hc]
      | false => rw [List.cons_append, List.dropWhile_cons_of_neg (by simp [hc]),
          List.dropWhile_cons_of_neg (by simp [hc]), List.cons_append]

theorem sksp_append_newline (l m : List Byte) : sksp (l ++ 0x0a :: m) = sksp l ++ 0x0a :: m :=
  dropWhile_append_stop rfl l m

theorem afterToken_append_newline (l m : List Byte) :
    afterToken (l ++ 0x0a :: m) = afterToken l ++ 0x0a :: m :=
  dropWhile_append_stop rfl l m

theorem token_append_newline (l m : List Byte) : token (l ++ 0x0a :: m) = token l := by
  have hboth := token_append_afterToken (l ++ 0x0a :: m)
  rw [afterToken_append_newline] at hboth
  conv_rhs at hboth => rw [← token_append_afterToken l]
  rw [List.append_assoc] at hboth
  exact List.append_cancel_right hboth

/-- The first characters of a line tell a reference, whatever stands behind the line. -/
theorem Emit.reference_line (h : s.rest = l ++ 0x0a :: m) (h' : t.rest = l ++ 0x0a :: m') :
    s.Reference slack ↔ t.Reference slack' := by
  rw [Emit.Reference, Emit.Reference, Emit.isAdr, Emit.isAdr, Emit.isBranch, Emit.isBranch,
    Emit.ahead, Emit.ahead, Emit.ahead, Emit.ahead, h, h']
  rcases l with _ | ⟨b, _ | ⟨c, _ | ⟨d, l⟩⟩⟩
  · simp [ch]
  · simp [ch]
  · simp
  · simp

theorem Emit.field_line (h : s.rest = l ++ 0x0a :: m) :
    s.field.rest = LabelResolver.sksp (afterToken l) ++ 0x0a :: m := by
  rw [Emit.field_eq, h, afterToken_append_newline, sksp_append_newline]

/-- Its target lies on the line too. -/
theorem Emit.atTarget_line (h : s.rest = l ++ 0x0a :: m) (h' : t.rest = l ++ 0x0a :: m') :
    ∃ k, s.atTarget.rest = k ++ 0x0a :: m ∧ t.atTarget.rest = k ++ 0x0a :: m' := by
  have hhead : s.rest.head? = t.rest.head? := by
    rw [h, h']
    cases l <;> rfl
  rw [Emit.atTarget, Emit.atTarget, hhead]
  split
  · exact ⟨_, Emit.field_line (Emit.field_line h), Emit.field_line (Emit.field_line h')⟩
  · exact ⟨_, Emit.field_line h, Emit.field_line h'⟩

theorem Emit.looksUp_iff (hend : lineEnd s.rest = [0x0a]) :
    s.sksp.Reference slack ∧ ¬ s.sksp.atTarget.Numeric slack ↔ LooksUp (lineOf s.rest) := by
  have hrest : s.sksp.rest = LabelResolver.sksp (lineOf s.rest) ++ 0x0a :: skipnl s.rest := by
    have hline := line_append s.rest
    rw [hend] at hline
    change LabelResolver.sksp s.rest = _
    conv_lhs => rw [← hline]
    exact sksp_append_newline _ _
  obtain ⟨k, hk, hk'⟩ := Emit.atTarget_line hrest (t := alone (lineOf s.rest)) rfl
  rw [LooksUp, Emit.reference_line hrest (t := alone (lineOf s.rest)) rfl, Emit.Numeric,
    Emit.Numeric, Emit.ahead, Emit.ahead, hk, hk']
  cases k <;> exact Iff.rfl

theorem Emit.sought_line (hend : lineEnd s.rest = [0x0a]) :
    token s.sksp.atTarget.rest = sought (lineOf s.rest) := by
  have hrest : s.sksp.rest = LabelResolver.sksp (lineOf s.rest) ++ 0x0a :: skipnl s.rest := by
    have hline := line_append s.rest
    rw [hend] at hline
    change LabelResolver.sksp s.rest = _
    conv_lhs => rw [← hline]
    exact sksp_append_newline _ _
  obtain ⟨k, hk, hk'⟩ := Emit.atTarget_line hrest (t := alone (lineOf s.rest)) rfl
  rw [sought, hk, hk', token_append_newline, token_append_newline]

/-- The name that a line defines. -/
def definition (line : List Byte) : Option (List Byte) :=
  match sksp line with
  | [] => none
  | b :: t => if b = ch ':' then some (token t) else none

theorem defined_iff : Defined input name ↔ name ∈ (lines input).filterMap definition := by
  rw [List.mem_filterMap]
  refine exists_congr fun line => and_congr_right fun _ => ?_
  rw [definition]
  cases hline : sksp line with
  | nil => simp
  | cons b t =>
      dsimp only
      by_cases hb : b = ch ':'
      · rw [if_pos hb]
        constructor
        · rintro ⟨u, hu, rfl⟩
          rw [(List.cons.inj hu).2]
        · rintro h
          exact ⟨t, hb ▸ rfl, Option.some.inj h⟩
      · rw [if_neg hb]
        refine iff_of_false ?_ nofun
        rintro ⟨u, hu, -⟩
        exact hb (List.cons.inj hu).1

/-- A round of pass 1 enters the name that its line defines. -/
theorem scan_labels {s t : Scan} (h : scan s = .ok (some t)) :
    t.rest = skipnl s.rest ∧ t.labels = match definition (lineOf s.rest) with
      | some name => addlabel s.labels name s.pos
      | none => s.labels := by
  obtain ⟨hne, hrest, -⟩ := scan_some h
  refine ⟨hrest, ?_⟩
  obtain ⟨b, u, hline⟩ := List.exists_cons_of_ne_nil hne
  rw [definition, ← lineOf_sksp, hline]
  unfold scan at h
  rw [hline] at h
  dsimp only at h
  by_cases hnewline : b = 0x0a
  · subst hnewline
    rw [if_pos rfl] at h
    cases h
    rfl
  rw [lineOf_cons hnewline]
  dsimp only
  rw [if_neg hnewline] at h
  by_cases hcolon : b = ch ':'
  · subst hcolon
    rw [if_neg (by decide), if_pos rfl] at h
    cases h
    rw [if_pos rfl, token_lineOf]
  rw [if_neg hcolon] at h
  rw [if_neg hcolon]
  split_ifs at h <;> cases h <;> rfl

/-- Pass 1 enters all names that are defined, in their order. -/
theorem run_scan_labels {n : ℕ} {s t : Scan} (hrun : Loop.run .running scan n s = .ok t) :
    t.labels.names = s.labels.names ++
        ((lines s.rest).filterMap definition).flatMap (fun name => name ++ [0]) ∧
      t.labels.positions.length =
        s.labels.positions.length + ((lines s.rest).filterMap definition).length := by
  induction n generalizing s with
  | zero => cases hrun
  | succ n ih =>
      rw [lines_eq]
      rcases Loop.run_cases hrun with ⟨hstop, rfl⟩ | ⟨r, hmore, hrest⟩
      · have hblank : sksp t.rest = [] := by
          by_contra hne
          obtain ⟨b, u, hline⟩ := List.exists_cons_of_ne_nil hne
          unfold scan at hstop
          rw [hline] at hstop
          dsimp only at hstop
          split_ifs at hstop <;> cases hstop
        have hend : lineEnd t.rest = [] := by
          rw [← lineEnd_sksp, hblank]
          rfl
        have hnone : definition (lineOf t.rest) = none := by
          rw [definition, ← lineOf_sksp, hblank]
          rfl
        simp [hend, hnone]
      · obtain ⟨hskip, hlabels⟩ := scan_labels hmore
        obtain ⟨hnames, hpositions⟩ := ih hrest
        rw [hnames, hpositions, hlabels, hskip]
        have htail : (if lineEnd s.rest = [] then [] else lines (skipnl s.rest)).filterMap
            definition = (lines (skipnl s.rest)).filterMap definition := by
          rcases lineEnd_cases s.rest with hend | ⟨hend, hlast, -⟩
          · rw [hend, if_neg (List.cons_ne_nil _ _)]
          · rw [hend, if_pos rfl, hlast]
            rfl
        rw [List.filterMap_cons, htail]
        cases definition (lineOf s.rest) with
        | none => exact ⟨rfl, rfl⟩
        | some name =>
            simp only [addlabel, List.flatMap_cons, List.append_assoc, List.length_append,
              List.length_cons, List.length_nil, true_and]
            omega

theorem mem_of_mem_lines {line : List Byte} (h : line ∈ lines input) {b : Byte} (hb : b ∈ line) :
    b ∈ input := by
  induction hn : input.length using Nat.strong_induction_on generalizing input with
  | _ n ih =>
      rw [lines_eq, List.mem_cons] at h
      rcases h with rfl | h
      · exact (List.takeWhile_sublist _).subset hb
      · split_ifs at h with hend
        · cases h
        · have hlength := line_length input
          have hpos := List.length_pos_of_ne_nil hend
          have hmem := ih (skipnl input).length (by omega) h rfl
          exact (List.dropWhile_sublist _).subset (List.mem_of_mem_drop hmem)

/-- Without a zero byte in the text the table has exactly the names that are defined. -/
theorem findlabel_eq_none_iff {first : Scan} (hnonzero : 0 ∉ input)
    (hfirst : pass1 input = .ok first) :
    findlabel first.labels name = none ↔ ¬ Defined input name := by
  obtain ⟨hnames, hpositions⟩ := run_scan_labels hfirst
  rw [List.nil_append] at hnames
  rw [List.length_nil, Nat.zero_add] at hpositions
  have hnul : ∀ n ∈ (lines input).filterMap definition, 0 ∉ n := by
    intro n hn hzero
    obtain ⟨line, hline, t, ht, rfl⟩ := defined_iff.mpr hn
    have hmem : (0 : Byte) ∈ sksp line := by
      rw [ht]
      exact List.mem_cons_of_mem _ ((List.takeWhile_sublist _).subset hzero)
    exact hnonzero (mem_of_mem_lines hline ((List.dropWhile_sublist _).subset hmem))
  rw [findlabel, hnames, hpositions, findFrom_names hnul, defined_iff, Option.map_eq_none_iff,
    Option.map_eq_none_iff, List.findIdx?_eq_none_iff]
  simp only [decide_eq_false_iff_not]
  exact ⟨fun h hmem => h name hmem rfl, fun h n hn hname => h (hname ▸ hn)⟩

end Names

section Whole

variable {input : List Byte}

theorem Ended.of_append {l m : List Byte} (h : Ended (l ++ m)) : Ended m := by
  rcases List.eq_nil_or_concat m with rfl | ⟨m, b, rfl⟩
  · exact .inl rfl
  · rcases h with h | ⟨o, h⟩
    · simp at h
    · rw [List.concat_eq_append, ← List.append_assoc] at h
      exact .inr ⟨m, by rw [List.concat_eq_append, (List.append_inj' h rfl).2]⟩

theorem Ended.skipnl {l : List Byte} (h : Ended l) : Ended (skipnl l) := by
  rw [← line_append l, ← List.append_assoc] at h
  exact h.of_append

theorem Ended.lineEnd {l : List Byte} (h : Ended l) (hne : l ≠ []) : lineEnd l = [0x0a] := by
  rcases lineEnd_cases l with hend | ⟨-, -, hlast⟩
  · exact hend
  · obtain ⟨o, rfl⟩ := h.resolve_left hne
    have hnewline := newline_notMem_lineOf (o ++ [0x0a])
    rw [hlast] at hnewline
    simp at hnewline

theorem not_looksUp_nil : ¬ LooksUp [] := by
  rintro ⟨⟨h, -⟩ | ⟨h, -⟩, -⟩ <;> cases h

/-- In a plain text every lookup finds what pass 1 has entered. -/
theorem Plain.tables {first : Scan} {last : Emit} (hplain : Plain input)
    (hlast : pass2Over first.labels input = .ok last) {s : Emit}
    (hs : s ∈ emitsOver first.labels input) (href : s.sksp.Reference (slackOf input)) :
    lineEnd s.rest = [0x0a] ∧ s.tables first.labels (4 * region input.length) = first.labels := by
  have hended : ∀ v ∈ emitsOver first.labels input, Ended v.rest :=
    Loop.visits_invariant (fun v : Emit => Ended v.rest) hplain.ended fun v _ w hv hw => by
      obtain ⟨-, rfl⟩ := emitOver_some hw
      exact hv.skipnl
  have hend : ∀ v ∈ emitsOver first.labels input, v.sksp.Reference (slackOf input) →
      lineEnd v.rest = [0x0a] := by
    intro v hv hvref
    refine (hended v hv).lineEnd fun hnil => ?_
    exact Emit.not_reference_of_stop v (by rw [hnil]; rfl) hvref
  have hlong : ∀ v ∈ emitsOver first.labels input, ¬ v.Short (slackOf input) := by
    rintro v hv ⟨hvref, hnamed, hshort⟩
    have hvend := hend v hv hvref
    have hlooks := (Emit.looksUp_iff hvend).mp ⟨hvref, hnamed⟩
    have hlines := exists_lines_visits (Q := fun l => LooksUp l ∧ l.length < 3)
      (fun h => not_looksUp_nil h.1) hlast
    have hlength : v.lineLength = (lineOf v.rest).length + 1 := by
      rw [Emit.lineLength, hvend]
      rfl
    have hthree : ¬ (lineOf v.rest).length < 3 := by
      intro hless
      obtain ⟨line, hline, hup, hless⟩ := hlines.mpr ⟨v, hv, hlooks, hless⟩
      exact absurd (hplain.long line hline hup) (not_le.mpr hless)
    rcases hshort with hless | ⟨hfour, -, htoken⟩
    · omega
    · have hle := v.sksp.token_le_line
      have hline := v.sksp_lineOf_length
      have hone : (lineEnd v.sksp.rest).length = 1 :=
        congrArg List.length ((lineEnd_sksp v.rest).trans hvend)
      omega
  refine ⟨hend s hs href, ?_⟩
  have hwithin := visits_within hlong
  have hne : LabelResolver.sksp s.rest ≠ [] := fun h => Emit.not_reference_of_stop s h href
  have hnext : emitOver (slackOf input) first.labels (4 * region input.length) s = .ok (some _) :=
    emit_eq hne
  have hout := hwithin _ (Loop.next_mem_visits hlast hs hnext)
  have hregion := le_region input.length
  have hspill : s.sksp.atTarget.out.drop (4 * region input.length) = [] := by
    have hsame : s.sksp.out = s.out := rfl
    rw [Emit.written, if_pos href] at hout
    simp only [List.length_append] at hout
    rw [List.drop_eq_nil_iff, Emit.atTarget_out, hsame, List.length_append]
    omega
  rw [Emit.tables, hspill]
  rfl

theorem Plain.missed_iff {first : Scan} {last : Emit} (hplain : Plain input)
    (hfirst : pass1 input = .ok first) (hlast : pass2Over first.labels input = .ok last) :
    Missed input ↔ Refused input := by
  have hnone (name : List Byte) :
      findlabel first.labels name = none ↔ ¬ Defined input name :=
    findlabel_eq_none_iff hplain.nonzero hfirst
  have hlines := exists_lines_visits (Q := fun l => LooksUp l ∧ ¬ Defined input (sought l))
    (fun h => not_looksUp_nil h.1) hlast
  constructor
  · rintro ⟨first', hfirst', s, hs, href, hnamed, hmissing⟩
    obtain rfl := Except.ok.inj (hfirst.symm.trans hfirst')
    obtain ⟨hend, htables⟩ := hplain.tables hlast hs href
    rw [htables, Emit.sought_line hend, hnone] at hmissing
    exact hlines.mpr ⟨s, hs, (Emit.looksUp_iff hend).mp ⟨href, hnamed⟩, hmissing⟩
  · intro h
    obtain ⟨s, hs, hlooks, hundefined⟩ := hlines.mp h
    have hend : lineEnd s.rest = [0x0a] := by
      have hended : ∀ v ∈ emitsOver first.labels input, Ended v.rest :=
        Loop.visits_invariant (fun v : Emit => Ended v.rest) hplain.ended fun v _ w hv hw => by
          obtain ⟨-, rfl⟩ := emitOver_some hw
          exact hv.skipnl
      refine (hended s hs).lineEnd fun hnil => ?_
      rw [hnil] at hlooks
      exact not_looksUp_nil hlooks
    obtain ⟨href, hnamed⟩ := (Emit.looksUp_iff hend).mpr hlooks
    obtain ⟨-, htables⟩ := hplain.tables hlast hs href
    refine ⟨first, hfirst, s, hs, href, hnamed, ?_⟩
    rwa [htables, Emit.sought_line hend, hnone]

theorem resolved_iff_missed (hlength : input.length < 0x2000000) : Resolved input ↔
    Missed input ∨ (∀ line ∈ lines input, ¬ Tabbed line) ∧ ¬ Undefined input := by
  obtain ⟨first, hfirst⟩ := pass1_ok input
  obtain ⟨last, hlast, -⟩ := pass2Over_ok first.labels input
  have hover := resolveOver_of_passes hlength hfirst hlast
  have hout := exists_symbolic_iff hlast
  rw [LabelResolver.missed_iff hfirst hlast]
  by_cases hmissing : last.missing = []
  · rw [if_pos hmissing] at hover
    constructor
    · refine fun h => .inr ⟨fun line hline htabbed => ?_, fun hundefined => ?_⟩
      · obtain ⟨x, hx, hsymbolic⟩ := hout.mpr ⟨line, hline, htabbed⟩
        exact h.numeric last.out hover x hx hsymbolic
      · obtain ⟨names, hnames⟩ := h.refused hundefined
        rw [hover] at hnames
        cases hnames
    · intro h
      obtain ⟨htabbed, hdefined⟩ := h.resolve_left fun h => h hmissing
      refine ⟨fun out hok line hline hsymbolic => ?_, fun h => absurd h hdefined⟩
      obtain rfl := Except.ok.inj (hover.symm.trans hok)
      obtain ⟨x, hx, hx'⟩ := hout.mp ⟨line, hline, hsymbolic⟩
      exact htabbed x hx hx'
  · rw [if_neg hmissing] at hover
    refine iff_of_true ⟨fun out hok => ?_, fun _ => ⟨last.missing, hover⟩⟩ (.inl hmissing)
    rw [hover] at hok
    cases hok

/-- Too long an input is refused for its length, whatever it refers to. -/
theorem resolved_iff_of_tooLong (hlength : 0x2000000 ≤ input.length) :
    Resolved input ↔ ¬ Undefined input := by
  have htoo : resolveOver input = .error .tooLong := by
    rw [resolveOver, if_neg (not_lt.mpr hlength)]
  constructor
  · intro h hundefined
    obtain ⟨names, hnames⟩ := h.refused hundefined
    rw [htoo] at hnames
    cases hnames
  · refine fun h => ⟨fun out hout => ?_, fun hundefined => absurd hundefined h⟩
    rw [htoo] at hout
    cases hout

end Whole
/-- `b`, a tab and `x`. -/
def tabbedBranch : List Byte := text ['b', '\t', 'x', '\n']

example : Tabbed (text ['b', '\t', 'x']) :=
  ⟨⟨.inl rfl, ch 'x', rfl, by decide, rfl⟩, [ch 'x'], rfl⟩

end Veron.LabelResolver
