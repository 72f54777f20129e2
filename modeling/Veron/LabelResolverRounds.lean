/-
Pass 2 of the label resolver over any text, round by round: what a round reads, and what
it writes.
-/
import Veron.LabelResolverLines

namespace Veron.LabelResolver

open SelfAssembler (Byte ch isBlank isDigit)

section Text

variable {l : List Byte}

/-- The first line of a text. -/
def lineOf (l : List Byte) : List Byte := l.takeWhile (· ≠ 0x0a)

/-- The newline after the first line, where there is one. -/
def lineEnd (l : List Byte) : List Byte := (l.dropWhile (· ≠ 0x0a)).take 1

theorem lineOf_cons {b : Byte} (hb : b ≠ 0x0a) (l : List Byte) :
    lineOf (b :: l) = b :: lineOf l :=
  List.takeWhile_cons_of_pos (by simpa using hb)

theorem newline_notMem_lineOf (l : List Byte) : 0x0a ∉ lineOf l := by
  intro h
  exact absurd (List.mem_takeWhile_imp h) (by decide)

theorem line_append (l : List Byte) : lineOf l ++ (lineEnd l ++ skipnl l) = l := by
  rw [lineEnd, skipnl, List.take_append_drop, lineOf, List.takeWhile_append_dropWhile]

theorem line_length (l : List Byte) :
    (lineOf l).length + (lineEnd l).length + (skipnl l).length = l.length := by
  have h := congrArg List.length (line_append l)
  rw [List.length_append, List.length_append] at h
  omega

theorem lineEnd_cases (l : List Byte) :
    lineEnd l = [0x0a] ∨ lineEnd l = [] ∧ skipnl l = [] ∧ lineOf l = l := by
  cases hrest : l.dropWhile (· ≠ (0x0a : Byte)) with
  | nil =>
      have hline := List.takeWhile_append_dropWhile (p := (· ≠ (0x0a : Byte))) (l := l)
      rw [hrest, List.append_nil] at hline
      exact .inr ⟨by rw [lineEnd, hrest]; rfl, by rw [skipnl, hrest]; rfl, hline⟩
  | cons b rest =>
      have hb : b = 0x0a := by
        have hhead := List.head?_dropWhile_not (· ≠ (0x0a : Byte)) l
        rw [hrest] at hhead
        simpa using hhead
      exact .inl (by rw [lineEnd, hrest, hb]; rfl)

section

variable {p : Byte → Bool} (hp : p 0x0a = false)

include hp

/-- What is skipped within a line does not change where the line ends. -/
theorem dropWhile_newline (l : List Byte) :
    (l.dropWhile p).dropWhile (· ≠ 0x0a) = l.dropWhile (· ≠ 0x0a) := by
  induction l with
  | nil => rfl
  | cons b l ih =>
      cases hb : p b with
      | false => rw [List.dropWhile_cons_of_neg (by simp [hb])]
      | true =>
          have hne : b ≠ 0x0a := by
            rintro rfl
            rw [hp] at hb
            cases hb
          rw [List.dropWhile_cons_of_pos hb, ih, List.dropWhile_cons_of_pos (by simpa using hne)]

theorem skipnl_dropWhile (l : List Byte) : skipnl (l.dropWhile p) = skipnl l := by
  rw [skipnl, skipnl, dropWhile_newline hp]

theorem lineEnd_dropWhile (l : List Byte) : lineEnd (l.dropWhile p) = lineEnd l := by
  rw [lineEnd, lineEnd, dropWhile_newline hp]

theorem lineOf_dropWhile (l : List Byte) : lineOf (l.dropWhile p) = (lineOf l).dropWhile p := by
  induction l with
  | nil => rfl
  | cons b l ih =>
      by_cases hne : b = 0x0a
      · subst hne
        rw [List.dropWhile_cons_of_neg (fun h => absurd (hp.symm.trans h) (by decide))]
        rfl
      · rw [lineOf_cons hne]
        cases hb : p b with
        | true => rw [List.dropWhile_cons_of_pos hb, List.dropWhile_cons_of_pos hb, ih]
        | false =>
            have hneg : ¬ p b = true := by simp [hb]
            rw [List.dropWhile_cons_of_neg hneg, List.dropWhile_cons_of_neg hneg, lineOf_cons hne]

end

theorem skipnl_sksp (l : List Byte) : skipnl (sksp l) = skipnl l := skipnl_dropWhile rfl l

theorem skipnl_afterToken (l : List Byte) : skipnl (afterToken l) = skipnl l :=
  skipnl_dropWhile rfl l

theorem lineEnd_sksp (l : List Byte) : lineEnd (sksp l) = lineEnd l := lineEnd_dropWhile rfl l

theorem lineOf_sksp (l : List Byte) : lineOf (sksp l) = sksp (lineOf l) := lineOf_dropWhile rfl l

theorem lineOf_afterToken (l : List Byte) : lineOf (afterToken l) = afterToken (lineOf l) :=
  lineOf_dropWhile rfl l

theorem token_append_afterToken (l : List Byte) : token l ++ afterToken l = l :=
  List.takeWhile_append_dropWhile

theorem token_of_head {b : Byte} (hb : isSep b = false) (hhead : l.head? = some b) :
    ∃ m, token l = b :: m := by
  cases l with
  | nil => cases hhead
  | cons c l =>
      obtain rfl := Option.some.inj hhead
      exact ⟨token l, List.takeWhile_cons_of_pos (by simp [hb])⟩

/-- A token lies within its line. -/
theorem token_lineOf (l : List Byte) : token (lineOf l) = token l := by
  have hline : token l ++ afterToken (lineOf l) = lineOf l := by
    have hpos : ∀ b ∈ token l, decide (b ≠ (0x0a : Byte)) = true := by
      intro b hb
      rw [decide_eq_true_eq]
      rintro rfl
      exact absurd (List.mem_takeWhile_imp hb) (by decide)
    have hsplit := token_append_afterToken l
    rw [← lineOf_afterToken]
    conv_rhs => rw [← hsplit]
    rw [lineOf, lineOf, List.takeWhile_append_of_pos hpos]
  have hboth := (token_append_afterToken (lineOf l)).trans hline.symm
  exact List.append_cancel_right hboth

end Text

section

variable (slack : List Byte) (labels : Labels) (s : Emit)

/-- A line is a reference by its first characters. -/
def Emit.Reference : Prop :=
  s.rest.head? = some (ch 'a') ∧ s.isAdr slack = true ∨
    s.rest.head? = some (ch 'b') ∧ s.isBranch slack = true

/-- Where the target of a reference is read. -/
def Emit.atTarget : Emit := if s.rest.head? = some (ch 'a') then s.field.field else s.field

/-- A target that is copied. -/
def Emit.Numeric : Prop := s.ahead slack 0 = ch '@' ∨ isDigit (s.ahead slack 0) = true

instance : Decidable (s.Reference slack) := by unfold Emit.Reference; infer_instance

instance : Decidable (s.Numeric slack) := by unfold Emit.Numeric; infer_instance

/-- What is written for a target. -/
def Emit.targetText : List Byte :=
  if s.Numeric slack then token s.rest
  else ch '@' :: emitpos 9 ((findlabel labels (token s.rest)).getD 0)

/-- The name that a target adds to those missing. -/
def Emit.lost : List (List Byte) :=
  if s.Numeric slack ∨ findlabel labels (token s.rest) ≠ none then [] else [token s.rest]

/-- The beginning of a reference, as it is written. -/
def Emit.heading : List Byte :=
  if s.rest.head? = some (ch 'a') then
    token s.rest ++ 0x20 :: (token (LabelResolver.sksp (afterToken s.rest)) ++ [0x20])
  else token s.rest ++ [0x20]

/-- What a round writes that begins with a character. -/
def Emit.written : List Byte :=
  if s.Reference slack then
    s.heading ++ ((s.atTarget).targetText slack labels ++ [0x0a])
  else if s.rest.head? = some 0x0a ∨ s.rest.head? = some (ch ':') then []
  else lineOf s.rest ++ lineEnd s.rest

def Emit.misses : List (List Byte) :=
  if s.Reference slack then (s.atTarget).lost slack labels else []

end

variable {slack : List Byte} {labels : Labels} {s t : Emit}

theorem Emit.field_eq (s : Emit) : s.field =
    ⟨LabelResolver.sksp (afterToken s.rest), s.out ++ (token s.rest ++ [0x20]), s.missing⟩ := by
  simp [Emit.field, Emit.cptok, Emit.put, Emit.sksp]

theorem Emit.skipnl_field (s : Emit) : skipnl s.field.rest = skipnl s.rest := by
  rw [Emit.field_eq, skipnl_sksp, skipnl_afterToken]

theorem Emit.skipnl_atTarget (s : Emit) : skipnl s.atTarget.rest = skipnl s.rest := by
  rw [Emit.atTarget]
  split
  · rw [Emit.skipnl_field, Emit.skipnl_field]
  · rw [Emit.skipnl_field]

theorem Emit.atTarget_out (s : Emit) : s.atTarget.out = s.out ++ s.heading := by
  rw [Emit.atTarget, Emit.heading]
  split
  · rw [Emit.field_eq, Emit.field_eq]
    simp
  · rw [Emit.field_eq]

theorem Emit.atTarget_missing (s : Emit) : s.atTarget.missing = s.missing := by
  rw [Emit.atTarget]
  split
  · rw [Emit.field_eq, Emit.field_eq]
  · rw [Emit.field_eq]

theorem Emit.target_eq (s : Emit) : s.target slack labels =
    ⟨skipnl s.rest, s.out ++ (s.targetText slack labels ++ [0x0a]),
      s.missing ++ s.lost slack labels⟩ := by
  have hskip : skipnl (afterToken s.rest) = skipnl s.rest := skipnl_afterToken s.rest
  by_cases hnumeric : s.Numeric slack
  · have hcond : s.ahead slack 0 = ch '@' ∨ isDigit (s.ahead slack 0) = true := hnumeric
    rw [Emit.target, Emit.targetText, Emit.lost, if_pos hcond, if_pos hnumeric,
      if_pos (.inl hnumeric)]
    simp [Emit.cptok, Emit.emitnl, hskip]
  · have hcond : ¬ (s.ahead slack 0 = ch '@' ∨ isDigit (s.ahead slack 0) = true) := hnumeric
    rw [Emit.target, Emit.targetText, Emit.lost, if_neg hcond, if_neg hnumeric]
    cases hfind : findlabel labels (token s.rest) with
    | none => simp [Emit.put, Emit.emitnl, hskip, hnumeric, hfind]
    | some pos => simp [Emit.put, Emit.emitnl, hskip, hfind]

theorem Emit.cpline_eq (s : Emit) : s.cpline =
    ⟨skipnl s.rest, s.out ++ (lineOf s.rest ++ lineEnd s.rest), s.missing⟩ := by
  have htake : s.rest.take ((lineOf s.rest).length + 1) = lineOf s.rest ++ lineEnd s.rest := by
    have hline := @List.take_length_add_append _ (lineOf s.rest) (s.rest.dropWhile (· ≠ 0x0a)) 1
    rwa [lineOf, List.takeWhile_append_dropWhile] at hline
  rw [Emit.cpline, ← htake]
  rfl

/-- A line of pass 2, past its first blanks: what it reads and what it writes. -/
theorem emitLine_eq (hs : s.rest ≠ []) : emitLine slack labels s =
    .ok (some ⟨skipnl s.rest, s.out ++ s.written slack labels,
      s.missing ++ s.misses slack labels⟩) := by
  obtain ⟨b, u, hrest⟩ := List.exists_cons_of_ne_nil hs
  have hhead : s.rest.head? = some b := by rw [hrest, List.head?_cons]
  by_cases href : s.Reference slack
  · have htarget : emitLine slack labels s = .ok (some (s.atTarget.target slack labels)) := by
      rcases href with ⟨ha, hadr⟩ | ⟨hb, hbranch⟩
      · obtain rfl : b = ch 'a' := Option.some.inj (hhead.symm.trans ha)
        unfold emitLine
        rw [hrest, Emit.atTarget, if_pos ha]
        dsimp only
        rw [if_neg (by decide), if_neg (by decide), if_neg (by decide), if_pos ⟨rfl, hadr⟩]
      · obtain rfl : b = ch 'b' := Option.some.inj (hhead.symm.trans hb)
        unfold emitLine
        rw [hrest, Emit.atTarget, if_neg (by rw [hhead]; decide)]
        dsimp only
        rw [if_neg (by decide), if_neg (by decide), if_neg (by decide), if_neg (by simp [ch]),
          if_pos ⟨rfl, hbranch⟩]
    rw [htarget, Emit.target_eq, Emit.skipnl_atTarget, Emit.atTarget_out, Emit.atTarget_missing,
      Emit.written, if_pos href, Emit.misses, if_pos href, List.append_assoc]
  · rw [Emit.written, if_neg href, Emit.misses, if_neg href, hhead, List.append_nil]
    rw [Emit.Reference, hhead, not_or] at href
    by_cases hline : b = 0x0a
    · subst hline
      unfold emitLine
      rw [hrest, if_pos (.inl rfl)]
      simp [skipnl]
    by_cases hcolon : b = ch ':'
    · subst hcolon
      unfold emitLine
      rw [hrest, if_pos (.inr rfl)]
      simp [ch]
    · have hcopy := @emitLine_copies slack labels s u b hrest hline hcolon
        (fun h => href.1 ⟨congrArg some h.1, h.2⟩) fun h => href.2 ⟨congrArg some h.1, h.2⟩
      have hkept : ¬ (some b = some 0x0a ∨ some b = some (ch ':')) :=
        not_or.mpr ⟨fun h => hline (Option.some.inj h), fun h => hcolon (Option.some.inj h)⟩
      rw [hcopy, Emit.cpline_eq, if_neg hkept]

/-- A round of pass 2. -/
theorem emit_eq (hs : sksp s.rest ≠ []) : emit slack labels s =
    .ok (some ⟨skipnl s.rest, s.out ++ s.sksp.written slack labels,
      s.missing ++ s.sksp.misses slack labels⟩) := by
  have hskip : skipnl s.sksp.rest = skipnl s.rest := skipnl_sksp s.rest
  rw [emit, emitLine_eq hs, hskip]
  rfl

theorem emit_stops (hs : sksp s.rest = []) : emit slack labels s = .ok none := by
  rw [emit, emitLine, Emit.sksp]
  dsimp only
  rw [hs]

/-- All that a round can do. -/
theorem emit_some (h : emit slack labels s = .ok (some t)) : sksp s.rest ≠ [] ∧
    t = ⟨skipnl s.rest, s.out ++ s.sksp.written slack labels,
      s.missing ++ s.sksp.misses slack labels⟩ := by
  by_cases hs : sksp s.rest = []
  · rw [emit_stops hs] at h
    cases h
  · rw [emit_eq hs] at h
    exact ⟨hs, (Option.some.inj (Except.ok.inj h)).symm⟩

end Veron.LabelResolver
