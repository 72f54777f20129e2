/-
The label resolver's regions: how much a round writes for what it reads, and where the
cursors of a run stay.
-/
import Veron.LabelResolverRounds

namespace Veron.LabelResolver

open SelfAssembler (Byte ch isBlank isDigit)

section Lengths

variable {l : List Byte}

theorem token_length (l : List Byte) : (token l).length + (afterToken l).length = l.length := by
  rw [← List.length_append, token_append_afterToken]

theorem sksp_length (l : List Byte) : (sksp l).length ≤ l.length :=
  (List.dropWhile_suffix _).length_le

/-- Between two fields of a line stands a blank. -/
theorem fields_length (hl : 0x0a ∉ l) (hne : sksp (afterToken l) ≠ []) :
    (token l).length + (sksp (afterToken l)).length < l.length := by
  have hsplit := token_append_afterToken l
  rw [← token_length l]
  cases hafter : afterToken l with
  | nil =>
      rw [hafter] at hne
      exact absurd rfl hne
  | cons c r =>
      have hsep : isSep c = true := by
        have hhead := List.head?_dropWhile_not (fun b => !isSep b) l
        rw [← afterToken, hafter] at hhead
        simpa using hhead
      have hc : c ≠ 0x0a := by
        rintro rfl
        rw [hafter] at hsplit
        exact hl (hsplit ▸ List.mem_append_right _ List.mem_cons_self)
      rw [sksp, List.dropWhile_cons_of_pos (isBlank_of_isSep hsep hc), List.length_cons]
      have hle := sksp_length r
      rw [sksp] at hle
      omega

end Lengths

section

variable (slack : List Byte) (s : Emit)

/-- The length of a line, with its newline. -/
def Emit.lineLength : ℕ := (lineOf s.rest).length + (lineEnd s.rest).length

/-- A reference to a name, on a line of less than four characters with its newline, or on
a last line that is a lone `adr` with one more character. -/
def Emit.Short : Prop :=
  s.sksp.Reference slack ∧ ¬ s.sksp.atTarget.Numeric slack ∧
    (s.lineLength < 4 ∨ s.lineLength = 4 ∧ s.sksp.rest.head? = some (ch 'a') ∧
      (token s.sksp.rest).length = 4)

end

variable {slack : List Byte} {labels : Labels} {s t : Emit}

theorem Emit.skipnl_length_add (s : Emit) : s.lineLength + (skipnl s.rest).length = s.rest.length :=
  line_length s.rest

theorem Emit.targetText_length (h : ¬ s.Numeric slack) :
    (s.targetText slack labels).length = 10 := by
  rw [Emit.targetText, if_neg h, List.length_cons, emitpos_length]

theorem Emit.token_pos (h : s.Reference slack) : 0 < (token s.rest).length := by
  have hfirst {b : Byte} (hb : isSep b = false) (hhead : s.rest.head? = some b) :
      0 < (token s.rest).length := by
    obtain ⟨m, hm⟩ := token_of_head hb hhead
    rw [hm]
    exact Nat.succ_pos _
  rcases h with ⟨h, -⟩ | ⟨h, -⟩
  · exact hfirst rfl h
  · exact hfirst rfl h

theorem Emit.lineOf_field (s : Emit) :
    lineOf s.field.rest = LabelResolver.sksp (afterToken (lineOf s.rest)) := by
  rw [Emit.field_eq, lineOf_sksp, lineOf_afterToken]

theorem Emit.token_le_line (s : Emit) :
    (token s.rest).length + (lineOf s.field.rest).length ≤ (lineOf s.rest).length := by
  have hlength := token_length (lineOf s.rest)
  have hle := sksp_length (afterToken (lineOf s.rest))
  rw [Emit.lineOf_field, ← token_lineOf]
  omega

theorem Emit.sksp_lineOf_length (s : Emit) :
    (lineOf s.sksp.rest).length + (lineEnd s.sksp.rest).length ≤ s.lineLength := by
  have hle := sksp_length (lineOf s.rest)
  rw [Emit.sksp, lineOf_sksp, lineEnd_sksp, Emit.lineLength]
  omega

theorem Emit.heading_length (s : Emit) : s.heading.length =
    if s.rest.head? = some (ch 'a') then
      (token s.rest).length + (token s.field.rest).length + 2
    else (token s.rest).length + 1 := by
  rw [Emit.heading, Emit.field_eq]
  split
  · simp
    omega
  · simp

/-- What is written before a target, and what is left of the line. -/
theorem Emit.heading_line (s : Emit) :
    s.heading.length + (lineOf s.atTarget.rest).length ≤
      (lineOf s.rest).length + if s.rest.head? = some (ch 'a') then 2 else 1 := by
  have hfirst := s.token_le_line
  rw [Emit.heading_length, Emit.atTarget]
  split
  · have hsecond := s.field.token_le_line
    omega
  · omega

/-- A reference to a name has room for it. -/
theorem Emit.named_length (h : ¬ s.Short slack) (href : s.sksp.Reference slack)
    (hnamed : ¬ s.sksp.atTarget.Numeric slack) : s.sksp.heading.length + 11 ≤ 4 * s.lineLength := by
  have hline := s.sksp_lineOf_length
  have hfirst := s.sksp.token_le_line
  have hlong : ¬ (s.lineLength < 4 ∨ s.lineLength = 4 ∧ s.sksp.rest.head? = some (ch 'a') ∧
      (token s.sksp.rest).length = 4) := fun hshort => h ⟨href, hnamed, hshort⟩
  rw [not_or] at hlong
  rw [Emit.heading_length]
  split
  · rename_i ha
    have hsecond := s.sksp.field.token_le_line
    have hgap : LabelResolver.sksp (afterToken (lineOf s.sksp.rest)) ≠ [] →
        (token s.sksp.rest).length + (lineOf s.sksp.field.rest).length <
          (lineOf s.sksp.rest).length := by
      intro hne
      rw [Emit.lineOf_field, ← token_lineOf s.sksp.rest]
      exact fields_length (newline_notMem_lineOf _) hne
    by_cases hne : LabelResolver.sksp (afterToken (lineOf s.sksp.rest)) = []
    · have hempty : (lineOf s.sksp.field.rest).length = 0 := by
        rw [Emit.lineOf_field, hne, List.length_nil]
      have hfour : s.lineLength = 4 → (token s.sksp.rest).length ≠ 4 :=
        fun hlength htoken => hlong.2 ⟨hlength, ha, htoken⟩
      omega
    · have hless := hgap hne
      omega
  · omega

/-- A round writes more than four times what it reads exactly on a short line. -/
theorem Emit.short_iff : s.Short slack ↔
    4 * s.lineLength < (s.sksp.written slack labels).length := by
  have hline := s.sksp_lineOf_length
  by_cases href : s.sksp.Reference slack
  · have htext : (s.sksp.written slack labels).length =
        s.sksp.heading.length + ((s.sksp.atTarget.targetText slack labels).length + 1) := by
      rw [Emit.written, if_pos href, List.length_append, List.length_append, List.length_singleton]
    have hpos := Emit.token_pos href
    have hfirst := s.sksp.token_le_line
    rw [htext]
    by_cases hnamed : s.sksp.atTarget.Numeric slack
    · have hheading := s.sksp.heading_line
      have htoken := token_length (lineOf s.sksp.atTarget.rest)
      rw [token_lineOf] at htoken
      rw [Emit.targetText, if_pos hnamed]
      refine iff_of_false (fun h => h.2.1 hnamed) ?_
      split at hheading <;> omega
    · rw [Emit.targetText_length hnamed]
      constructor
      · rintro ⟨-, -, hshort⟩
        rw [Emit.heading_length]
        rcases hshort with hshort | ⟨hlength, ha, htoken⟩
        · split <;> omega
        · rw [if_pos ha]
          omega
      · intro hless
        by_contra hshort
        have hroom := Emit.named_length hshort href hnamed
        omega
  · refine iff_of_false (fun h => href h.1) ?_
    rw [Emit.written, if_neg href]
    split
    · simp
    · rw [List.length_append]
      omega

theorem Emit.reference_length (h : s.Reference slack) (hend : lineEnd s.rest ≠ []) :
    2 ≤ (lineOf s.rest).length ∧
      (s.rest.head? = some (ch 'a') → 3 ≤ (lineOf s.rest).length) := by
  have hnewline := (lineEnd_cases s.rest).resolve_right fun h => hend h.1
  have hrest : s.rest = lineOf s.rest ++ 0x0a :: skipnl s.rest := by
    have hline := line_append s.rest
    rw [hnewline] at hline
    exact hline.symm
  have hlast : s.ahead slack (lineOf s.rest).length = 0x0a := by
    rw [Emit.ahead, hrest, List.append_assoc, ← hrest, List.getD_append_right _ _ _ _ le_rfl]
    simp
  have hpos : 0 < (lineOf s.rest).length := by
    have htoken := Emit.token_pos h
    have hle := s.token_le_line
    omega
  have hne (n : ℕ) (hn : s.ahead slack n ≠ 0x0a) : (lineOf s.rest).length ≠ n := by
    rintro rfl
    exact hn hlast
  rcases h with ⟨-, hadr⟩ | ⟨hb, hbranch⟩
  · simp only [Emit.isAdr, Bool.and_eq_true, decide_eq_true_eq] at hadr
    have hone := hne 1 (by rw [hadr.1]; decide)
    have htwo := hne 2 (by rw [hadr.2]; decide)
    omega
  · have hone : (lineOf s.rest).length ≠ 1 := by
      refine hne 1 fun hahead => ?_
      rw [Emit.isBranch, hahead] at hbranch
      cases hbranch
    refine ⟨by omega, fun ha => ?_⟩
    rw [hb] at ha
    cases ha

/-- A round writes less than five times what it reads, but for the last line. -/
theorem Emit.written_length_le (s : Emit) : 3 * (s.sksp.written slack labels).length ≤
    14 * s.lineLength + if lineEnd s.rest = [] then 42 else 0 := by
  have hline := s.sksp_lineOf_length
  by_cases href : s.sksp.Reference slack
  · have hheading := s.sksp.heading_line
    have htoken := token_length (lineOf s.sksp.atTarget.rest)
    rw [token_lineOf] at htoken
    have htext : (s.sksp.atTarget.targetText slack labels).length ≤
        (lineOf s.sksp.atTarget.rest).length + 10 := by
      by_cases hnamed : s.sksp.atTarget.Numeric slack
      · rw [Emit.targetText, if_pos hnamed]
        omega
      · rw [Emit.targetText_length hnamed]
        omega
    rw [Emit.written, if_pos href, List.length_append, List.length_append, List.length_singleton]
    have hend : lineEnd s.sksp.rest = lineEnd s.rest := lineEnd_sksp s.rest
    split
    · split at hheading <;> omega
    · rename_i hsome
      have hlong := Emit.reference_length href (hend ▸ hsome)
      have hone : (lineEnd s.sksp.rest).length = 1 := by
        rcases lineEnd_cases s.sksp.rest with h | h
        · rw [h, List.length_singleton]
        · exact absurd (hend ▸ h.1) hsome
      split at hheading
      · rename_i ha
        have hthree := hlong.2 ha
        omega
      · omega
  · rw [Emit.written, if_neg href]
    split
    · simp
    · rw [List.length_append]
      omega

/-- x22, from the beginning of the arena. -/
def outbuf (n : ℕ) : ℕ := region n

/-- x24. -/
def nametbl (n : ℕ) : ℕ := outbuf n + 4 * region n

/-- x27. -/
def postbl (n : ℕ) : ℕ := nametbl n + region n

/-- The length that is mapped. -/
def arena : ℕ := 0x10000000

/-- The states between the lines of pass 1. -/
def scans (input : List Byte) : List Scan :=
  Loop.visits scan (rounds input) ⟨input, 0, [], []⟩

/-- The states between the lines of pass 2. -/
def emits (labels : Labels) (input : List Byte) : List Emit :=
  Loop.visits (emit (slackOf input) labels) (rounds input) ⟨input, [], []⟩

theorem le_region (n : ℕ) : n ≤ region n := by
  rw [region]
  omega

theorem region_le {n : ℕ} (h : n < 0x2000000) : region n ≤ 0x2000000 := by
  rw [region]
  omega

/-- All that a round of pass 1 can do to the rest and to the tables. -/
theorem scan_some {s t : Scan} (h : scan s = .ok (some t)) : sksp s.rest ≠ [] ∧
    t.rest = skipnl s.rest ∧ (t.labels = s.labels ∨ ∃ u, sksp s.rest = ch ':' :: u ∧
      t.labels = addlabel s.labels (token u) s.pos) := by
  unfold scan at h
  split at h
  · cases h
  · rename_i b u hline
    have hskip : skipnl (b :: u) = skipnl s.rest := by rw [← hline, skipnl_sksp]
    refine ⟨by rw [hline]; exact List.cons_ne_nil b u, ?_⟩
    rw [← hskip]
    dsimp only at h
    split at h
    · rename_i hb
      cases h
      subst hb
      exact ⟨rfl, .inl rfl⟩
    · split at h
      · cases h
        exact ⟨rfl, .inl rfl⟩
      · split at h
        · rename_i hb
          cases h
          subst hb
          exact ⟨rfl, .inr ⟨u, hline, rfl⟩⟩
        · split at h
          · cases h
            exact ⟨rfl, .inl rfl⟩
          · cases h
            exact ⟨rfl, .inl rfl⟩

/-- Names take no more than what is read, and positions are one for two characters: a
definition has a colon and a newline, but for the last one. -/
structure Scan.Within (n : ℕ) (s : Scan) : Prop where
  names : s.labels.names.length + s.rest.length ≤ n
  positions : 2 * s.labels.positions.length + s.rest.length ≤ n ∨
    s.rest = [] ∧ 2 * s.labels.positions.length ≤ n + 1

theorem Scan.Within.step {n : ℕ} {s t : Scan} (hs : s.Within n) (h : scan s = .ok (some t)) :
    t.Within n := by
  obtain ⟨hne, hrest, hlabels⟩ := scan_some h
  have hsome : s.rest ≠ [] := by
    rintro hnil
    rw [hnil] at hne
    exact hne rfl
  have hpositions : 2 * s.labels.positions.length + s.rest.length ≤ n :=
    hs.positions.resolve_right fun h => hsome h.1
  have hlength := line_length s.rest
  have hnames := hs.names
  rcases hlabels with hlabels | ⟨u, hline, hlabels⟩
  · refine ⟨?_, .inl ?_⟩ <;> rw [hlabels, hrest] <;> omega
  · have htoken : (token u).length + 1 ≤ (lineOf s.rest).length := by
      have hle := sksp_length (lineOf s.rest)
      have hcolon : sksp (lineOf s.rest) = ch ':' :: lineOf u := by
        rw [← lineOf_sksp, hline, lineOf_cons (by decide)]
      have hfields := token_length (lineOf u)
      rw [hcolon, List.length_cons] at hle
      rw [token_lineOf] at hfields
      omega
    have hadd : t.labels.names.length = s.labels.names.length + (token u).length + 1 ∧
        t.labels.positions.length = s.labels.positions.length + 1 := by
      rw [hlabels, addlabel]
      simp [Nat.add_assoc]
    refine ⟨by rw [hadd.1, hrest]; omega, ?_⟩
    rw [hadd.2, hrest]
    rcases lineEnd_cases s.rest with hend | ⟨hend, hlast, -⟩
    · rw [hend, List.length_singleton] at hlength
      exact .inl (by omega)
    · rw [hend, hlast, List.length_nil] at hlength
      exact .inr ⟨hlast, by omega⟩

theorem scans_within (input : List Byte) : ∀ s ∈ scans input, s.Within input.length :=
  Loop.visits_invariant (Scan.Within input.length) ⟨by simp, .inl (by simp)⟩
    fun _ _ _ hs h => hs.step h

/-- Where no line is short, the output is no more than four times what is read, whatever the
lookups find. -/
theorem visits_within {tables : Emit → Labels} {input : List Byte} {n : ℕ}
    (h : ∀ s ∈ Loop.visits (fun s => emit (slackOf input) (tables s) s) n ⟨input, [], []⟩,
      ¬ s.Short (slackOf input)) :
    ∀ s ∈ Loop.visits (fun s => emit (slackOf input) (tables s) s) n ⟨input, [], []⟩,
      s.out.length + 4 * s.rest.length ≤ 4 * input.length := by
  refine Loop.visits_invariant
    (fun s : Emit => s.out.length + 4 * s.rest.length ≤ 4 * input.length) (by simp)
    fun s hs t hout ht => ?_
  obtain ⟨-, rfl⟩ := emit_some ht
  have hwritten := (@Emit.short_iff (slackOf input) (tables s) s).not.mp (h s hs)
  have hlength := s.skipnl_length_add
  dsimp only
  rw [List.length_append]
  omega

theorem emits_within {labels : Labels} {input : List Byte}
    (h : ∀ s ∈ emits labels input, ¬ s.Short (slackOf input)) :
    ∀ s ∈ emits labels input, s.out.length + 4 * s.rest.length ≤ 4 * input.length :=
  visits_within h

theorem pass1_ok (input : List Byte) : ∃ first, pass1 input = .ok first := by
  have hturn (s : Scan) : scan s = .ok none ∨
      ∃ t, scan s = .ok (some t) ∧ True ∧ t.rest.length < s.rest.length := by
    cases h : scan s with
    | error e => exact absurd h (scan_ne_error s e)
    | ok next =>
        cases next with
        | none => exact .inl rfl
        | some t => exact .inr ⟨t, rfl, trivial, scan_less h⟩
  obtain ⟨first, hfirst, -⟩ := Loop.run_total (fun _ => True) (fun s : Scan => s.rest.length)
    (fun s _ => hturn s) trivial (Nat.lt_succ_self _)
  exact ⟨first, hfirst⟩

/-- Names and positions stay in their regions, and so does the output where no line is
short. -/
theorem cursors_in_regions {input : List Byte} (hlength : input.length < 0x2000000) :
    (∀ s ∈ scans input,
      nametbl input.length + s.labels.names.length ≤ postbl input.length ∧
        postbl input.length + 4 * s.labels.positions.length ≤ arena) ∧
    ∃ first, pass1 input = .ok first ∧
      ((∀ s ∈ emits first.labels input, ¬ s.Short (slackOf input)) →
        ∀ s ∈ emits first.labels input,
          outbuf input.length + s.out.length ≤ nametbl input.length) := by
  have hle := le_region input.length
  have hregion := region_le hlength
  refine ⟨fun s hs => ?_, ?_⟩
  · have hwithin := scans_within input s hs
    have hnames := hwithin.names
    rw [postbl, nametbl, outbuf, arena]
    refine ⟨by omega, ?_⟩
    rcases hwithin.positions with hpositions | ⟨-, hpositions⟩ <;> omega
  · obtain ⟨first, hfirst⟩ := pass1_ok input
    refine ⟨first, hfirst, fun h s hs => ?_⟩
    have hout := emits_within h s hs
    rw [nametbl]
    omega

instance (slack : List Byte) (s : Emit) : Decidable (s.Short slack) := by
  unfold Emit.Short
  infer_instance

/-- `b x`, and `:x`. -/
def branchX : List Byte := [ch 'b', ch ' ', ch 'x', 0x0a, ch ':', ch 'x', 0x0a]

/-- No cursor leaves its region for a branch and its definition. -/
theorem cursors_in_regions_branchX : ∃ first, pass1 branchX = .ok first ∧
    ∀ s ∈ emits first.labels branchX,
      outbuf branchX.length + s.out.length ≤ nametbl branchX.length := by
  obtain ⟨-, first, hfirst, h⟩ := @cursors_in_regions branchX (by decide)
  refine ⟨first, hfirst, h ?_⟩
  have hread : pass1 branchX = .ok ⟨[], 4, [ch 'x', 0], [4]⟩ := by rfl
  obtain rfl := Except.ok.inj (hfirst.symm.trans hread)
  decide +kernel

/-- Lines that are a lone `b` and a space. -/
def lone : ℕ → List Byte
  | 0 => []
  | n + 1 => ch 'b' :: ch ' ' :: 0x0a :: lone n

theorem lone_length (n : ℕ) : (lone n).length = 3 * n := by
  induction n with
  | zero => rfl
  | succ n ih =>
      rw [lone, List.length_cons, List.length_cons, List.length_cons, ih]
      omega

theorem lone_emit (n : ℕ) (out : List Byte) (missing : List (List Byte)) :
    ∃ t, emit slack labels ⟨lone (n + 1), out, missing⟩ = .ok (some t) ∧ t.rest = lone n ∧
      t.out.length = out.length + 13 := by
  have href : Emit.Reference slack ⟨lone (n + 1), out, missing⟩ := .inr ⟨rfl, rfl⟩
  have hahead : Emit.ahead slack (Emit.atTarget ⟨lone (n + 1), out, missing⟩) 0 = 0x0a := rfl
  have hnamed : ¬ Emit.Numeric slack (Emit.atTarget ⟨lone (n + 1), out, missing⟩) := by
    rw [Emit.Numeric, hahead]
    decide
  have hwritten : (Emit.written slack labels ⟨lone (n + 1), out, missing⟩).length = 13 := by
    rw [Emit.written, if_pos href, List.length_append, List.length_append,
      Emit.targetText_length hnamed]
    rfl
  refine ⟨_, emit_eq (by exact List.cons_ne_nil _ _), rfl, ?_⟩
  rw [List.length_append]
  exact congrArg (out.length + ·) hwritten

/-- Every such line writes thirteen characters. -/
theorem lone_visits (n : ℕ) {fuel : ℕ} (hfuel : n < fuel) (out : List Byte)
    (missing : List (List Byte)) :
    ∃ s ∈ Loop.visits (emit slack labels) fuel ⟨lone n, out, missing⟩,
      s.out.length = out.length + 13 * n := by
  induction n generalizing fuel out missing with
  | zero =>
      obtain ⟨fuel, rfl⟩ := Nat.exists_eq_succ_of_ne_zero (Nat.ne_of_gt hfuel)
      exact ⟨_, List.mem_cons_self, rfl⟩
  | succ n ih =>
      obtain ⟨fuel, rfl⟩ := Nat.exists_eq_succ_of_ne_zero (Nat.ne_zero_of_lt hfuel)
      obtain ⟨⟨rest, out', missing'⟩, hemit, rfl, hout⟩ := lone_emit n out missing
      obtain ⟨s, hs, hlength⟩ := ih (Nat.lt_of_succ_lt_succ hfuel) out' missing'
      rw [Loop.visits_more hemit]
      refine ⟨s, List.mem_cons_of_mem _ hs, ?_⟩
      dsimp only at hout
      omega

/-- As many of these lines as 64 KiB hold run over the output's region. -/
theorem output_overruns : (lone 21845).length < 0x2000000 ∧
    ∃ first, pass1 (lone 21845) = .ok first ∧ ∃ s ∈ emits first.labels (lone 21845),
      nametbl (lone 21845).length < outbuf (lone 21845).length + s.out.length := by
  obtain ⟨first, hfirst⟩ := pass1_ok (lone 21845)
  have hfuel : 21845 < rounds (lone 21845) := by
    rw [rounds, lone_length]
    decide
  obtain ⟨s, hs, hout⟩ :=
    @lone_visits (slackOf (lone 21845)) first.labels 21845 (rounds (lone 21845)) hfuel [] []
  refine ⟨by rw [lone_length]; omega, first, hfirst, s, hs, ?_⟩
  rw [nametbl, hout, lone_length]
  decide

end Veron.LabelResolver
