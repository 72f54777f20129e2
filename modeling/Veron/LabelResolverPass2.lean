/-
Pass 2 of the label resolver over the text of a program: every line comes out with
its target a position, except the definitions, which are left out.
-/
import Veron.LabelResolverPass1

namespace Veron.LabelResolver

open SelfAssembler (Byte Word ch isBlank isDigit dropWhile_run)

section

variable (labels : Labels)

/-- The beginning of a reference, its blanks made single spaces. -/
def Head.output : Head → List Byte
  | .adr _ letter _ reg _ _ =>
      SelfAssembler.text ['a', 'd', 'r', ' '] ++ letter :: (reg.text ++ [0x20])
  | head => head.text

def Target.output : Target → List Byte
  | .name l => ch '@' :: emitpos 9 ((findlabel labels l.text).getD 0)
  | .pos digits => ch '@' :: digits.text

/-- The names of a target that the table does not have. -/
def Target.missing : Target → List (List Byte)
  | .name l => if findlabel labels l.text = none then [l.text] else []
  | .pos _ => []

/-- What comes out of a line that `newline` ends. -/
def SrcLine.output (newline : List Byte) : SrcLine → List Byte
  | .blank _ => []
  | .comment _ t _ => ch '#' :: t ++ newline
  | .item _ (.define _) _ => []
  | .item _ (.refer head target) _ => head.output ++ (target.output labels ++ [0x0a])
  | .item _ body tail => body.text ++ tail.text ++ newline

def SrcLine.missing : SrcLine → List (List Byte)
  | .item _ (.refer _ target) _ => target.missing labels
  | _ => []

/-- What comes out of a program. -/
def output : List SrcLine → List Byte
  | [] => []
  | l :: ls => l.output labels ((more ls).take 1) ++ output ls

def missing (ls : List SrcLine) : List (List Byte) := ls.flatMap (SrcLine.missing labels)

end

variable {slack : List Byte} {labels : Labels} {s : Emit} {rest t : List Byte}

theorem Emit.ahead_append {n : ℕ} (h : s.rest = t ++ rest) (hn : n < t.length) :
    s.ahead slack n = t.getD n 0 := by
  rw [Emit.ahead, h, List.append_assoc, List.getD_append _ _ _ _ hn]

/-- A line is copied with its newline. -/
theorem Emit.cpline_append (h : s.rest = t ++ rest) (ht : 0x0a ∉ t) (hrest : Ends rest) :
    s.cpline = { s with rest := rest.drop 1, out := s.out ++ (t ++ rest.take 1) } := by
  have hline : ∀ b ∈ t, decide (b ≠ (0x0a : Byte)) = true := by
    intro b hb
    rw [decide_eq_true_eq]
    exact ne_of_mem_of_not_mem hb ht
  have htake : (t ++ rest).takeWhile (· ≠ (0x0a : Byte)) = t := by
    rw [List.takeWhile_append_of_pos hline]
    rcases hrest.cases with rfl | ⟨m, rfl⟩ <;> simp
  have hcopy : (t ++ rest).take (t.length + 1) = t ++ rest.take 1 := by
    rw [List.take_length_add_append]
  rw [Emit.cpline, h, htake, hcopy, skipnl_append ht hrest]

/-- A field is copied, and one space for the blanks after it. -/
theorem Emit.field_append {gap : Gap} (h : s.rest = t ++ (gap.text ++ rest))
    (ht : ∀ b ∈ t, isSep b = false) (hrest : ∀ b ∈ rest.head?, isBlank b = false) :
    s.field = { s with rest := rest, out := s.out ++ (t ++ [0x20]) } := by
  have hsep : ∀ b ∈ (gap.text ++ rest).head?, isSep b = true := by
    obtain ⟨a, g, hg⟩ := List.exists_cons_of_ne_nil gap.ne_nil
    rw [hg]
    rintro b ⟨rfl⟩
    exact isSep_of_isBlank (gap.blank a (hg ▸ List.mem_cons_self))
  obtain ⟨htoken, hafter⟩ := token_append ht hsep
  have hsksp : LabelResolver.sksp (gap.text ++ rest) = rest := dropWhile_run gap.blank hrest
  simp only [Emit.field, Emit.cptok, Emit.put, Emit.sksp, h, htoken, hafter, hsksp,
    List.append_assoc]

theorem Target.head (target : Target) :
    ∃ b t, target.text = b :: t ∧ isSep b = false := by
  cases target with
  | name l =>
      obtain ⟨b, t, ht⟩ := List.exists_cons_of_ne_nil l.ne_nil
      exact ⟨b, t, ht, l.no_sep b (ht ▸ List.mem_cons_self)⟩
  | pos digits => exact ⟨_, _, rfl, rfl⟩

theorem isBlank_of_isSep_false {b : Byte} (h : isSep b = false) : isBlank b = false := by
  rw [← Bool.not_eq_true] at h ⊢
  exact fun hb => h (isSep_of_isBlank hb)

theorem isDigit_not_isSep {b : Byte} (h : isDigit b = true) : isSep b = false := by
  rw [← Bool.not_eq_true]
  intro hb
  simp only [isSep, Bool.or_eq_true, decide_eq_true_eq] at hb
  rcases hb with (rfl | rfl) | rfl <;> cases h

/-- A target comes out as a position. -/
theorem Emit.target_text (target : Target) (tail : Tail) (hrest : Ends rest)
    (h : s.rest = target.text ++ (tail.text ++ rest)) :
    s.target slack labels = { s with
      rest := rest.drop 1
      out := s.out ++ (target.output labels ++ [0x0a])
      missing := s.missing ++ target.missing labels } := by
  obtain ⟨b, t, htext, -⟩ := target.head
  have hahead : s.ahead slack 0 = b := by
    rw [Emit.ahead_append h (by rw [htext]; exact Nat.succ_pos _), htext]
    rfl
  have hskip : skipnl (tail.text ++ rest) = rest.drop 1 := skipnl_append tail.line hrest
  unfold Emit.target
  rw [hahead]
  cases target with
  | name l =>
      obtain ⟨hat, hdigit⟩ := l.start b (by
        rw [show l.text = b :: t from htext]
        rfl)
      obtain ⟨htoken, hafter⟩ : token s.rest = l.text ∧ afterToken s.rest = tail.text ++ rest := by
        rw [h]
        exact l.read tail hrest
      have hcond : ¬ (b = ch '@' ∨ isDigit b = true) := by simp [hat, hdigit]
      rw [if_neg hcond, htoken, hafter]
      cases hfind : findlabel labels l.text with
      | none =>
          simp [Emit.put, Emit.emitnl, hskip, Target.output, Target.missing, hfind]
      | some p =>
          simp [Emit.put, Emit.emitnl, hskip, Target.output, Target.missing, hfind]
  | pos digits =>
      obtain rfl : ch '@' = b := (List.cons.inj htext).1
      have hsep : ∀ b ∈ (Target.pos digits).text, isSep b = false := by
        intro b hb
        rcases List.mem_cons.mp hb with rfl | hb
        · rfl
        · exact isDigit_not_isSep (digits.digit b hb)
      obtain ⟨htoken, hafter⟩ := token_append hsep (tail.sep hrest)
      rw [if_pos (.inl rfl)]
      simp only [Emit.cptok, Emit.emitnl, h, htoken, hafter, hskip, Target.missing,
        List.append_nil, List.append_assoc]
      rfl

/-- Reading the beginning of a reference leaves its target. -/
def Emit.fields (s : Emit) : Head → Emit
  | .adr _ _ _ _ _ _ => s.field.field
  | _ => s.field

def space : Gap := ⟨[0x20], by decide, by decide⟩

theorem Emit.fields_text (head : Head) (hrest : ∀ b ∈ rest.head?, isBlank b = false)
    (h : s.rest = head.text ++ rest) :
    s.fields head = { s with rest := rest, out := s.out ++ head.output } := by
  have hshort {t : List Byte} (ht : ∀ b ∈ t, isSep b = false)
      (hs : s.rest = t ++ (space.text ++ rest)) :
      s.field = { s with rest := rest, out := s.out ++ (t ++ [0x20]) } :=
    Emit.field_append hs ht hrest
  cases head with
  | adr gap letter hletter reg hreg gap' =>
      have hletters : isSep letter = false := by
        simp only [SelfAssembler.isRegLetter, Bool.or_eq_true, decide_eq_true_eq] at hletter
        rcases hletter with rfl | rfl <;> rfl
      have hfirst : s.field = { s with
          rest := letter :: reg.text ++ (gap'.text ++ rest)
          out := s.out ++ (SelfAssembler.text ['a', 'd', 'r'] ++ [0x20]) } := by
        refine @Emit.field_append _ _ _ gap ?_ (by decide) ?_
        · rw [h]
          simp [Head.text]
        · rintro b ⟨rfl⟩
          exact isBlank_of_isSep_false hletters
      have hsep : ∀ b ∈ letter :: reg.text, isSep b = false := by
        intro b hb
        rcases List.mem_cons.mp hb with rfl | hb
        · exact hletters
        · exact isDigit_not_isSep (reg.digit b hb)
      have hsecond := @Emit.field_append { s with
          rest := letter :: reg.text ++ (gap'.text ++ rest)
          out := s.out ++ (SelfAssembler.text ['a', 'd', 'r'] ++ [0x20]) } rest
        (letter :: reg.text) gap' rfl hsep hrest
      change s.field.field = _
      rw [hfirst, hsecond]
      simp [Head.output, SelfAssembler.text, ch]
  | b => exact hshort (t := SelfAssembler.text ['b']) (by decide) h
  | bl => exact hshort (t := SelfAssembler.text ['b', 'l']) (by decide) h
  | bcond c =>
      refine hshort (t := SelfAssembler.text ['b', '.'] ++
        [(SelfAssembler.condName c).1, (SelfAssembler.condName c).2]) ?_ h
      cases c <;> decide

theorem emitLine_copies {b : Byte} (hs : s.rest = b :: t) (hline : b ≠ 0x0a)
    (hcolon : b ≠ ch ':') (hadr : ¬ (b = ch 'a' ∧ s.isAdr slack = true))
    (hbranch : ¬ (b = ch 'b' ∧ s.isBranch slack = true)) :
    emitLine slack labels s = .ok (some s.cpline) := by
  unfold emitLine
  rw [hs]
  dsimp only
  rw [if_neg hline, if_neg hcolon, if_neg hadr, if_neg hbranch, ite_self]

theorem emitLine_adr (hs : s.rest = SelfAssembler.text ['a', 'd', 'r'] ++ t) :
    emitLine slack labels s = .ok (some (s.field.field.target slack labels)) := by
  have hadr : s.isAdr slack = true := by
    rw [Emit.isAdr, Emit.ahead_append hs (by decide), Emit.ahead_append hs (by decide)]
    rfl
  unfold emitLine
  rw [hs]
  change (if ch 'a' = ch 'a' ∧ s.isAdr slack = true then Except.ok (some _) else _) = _
  rw [if_pos ⟨rfl, hadr⟩]

theorem emitLine_branch {u : List Byte} (hs : s.rest = ch 'b' :: u ++ t)
    (hu : u ∈ [[ch ' '], [ch 'l', ch ' '], [ch '.']]) :
    emitLine slack labels s = .ok (some (s.field.target slack labels)) := by
  have hbranch : s.isBranch slack = true := by
    simp only [List.mem_cons, List.not_mem_nil, or_false] at hu
    rcases hu with rfl | rfl | rfl
    · rw [Emit.isBranch, Emit.ahead_append hs (by decide)]
      rfl
    · rw [Emit.isBranch, Emit.ahead_append hs (by decide), Emit.ahead_append hs (by decide)]
      rfl
    · rw [Emit.isBranch, Emit.ahead_append hs (by decide)]
      rfl
  unfold emitLine
  rw [hs]
  change (if ch 'b' = ch 'b' ∧ s.isBranch slack = true then Except.ok (some _) else _) = _
  rw [if_pos ⟨rfl, hbranch⟩]

/-- A reference is told from the other instructions by its first characters. -/
theorem emitLine_refer (head : Head) (hs : s.rest = head.text ++ rest) :
    emitLine slack labels s = .ok (some ((s.fields head).target slack labels)) := by
  cases head with
  | adr gap letter hletter reg hreg gap' =>
      refine emitLine_adr (t := gap.text ++ letter :: (reg.text ++ gap'.text) ++ rest) ?_
      rw [hs, Head.text, List.append_assoc]
  | b => exact emitLine_branch (u := [ch ' ']) hs (by decide)
  | bl => exact emitLine_branch (u := [ch 'l', ch ' ']) hs (by decide)
  | bcond c => exact emitLine_branch (u := [ch '.']) hs (by decide)

section Words

open SelfAssembler Line

variable {w : Word}

theorem refer_yields (n : ℕ) (form : RefForm) :
    Yields (fun code => ∃ form t, code = .refer form t)
      (do advance n; return .refer form (← target)) :=
  .bind fun _ => .bind fun _ => yields_pure ⟨_, _, rfl⟩

theorem hBranch_refers {c d : Cursor} {code : Code} (h : hBranch.run c = .ok (code, d))
    (hr : c.rest.getD 1 0 ≠ ch 'r')
    (hl : c.rest.getD 1 0 = ch 'l' → c.rest.getD 2 0 ≠ ch 'r') :
    ∃ form t, code = .refer form t := by
  rw [hBranch, run_peek_bind, run_ite, run_ite, run_ite, if_neg hr] at h
  split at h
  · exact hBcond_yields _ _ _ h
  · split at h
    · rename_i hl'
      rw [hBlOrBlr, run_peek_bind, run_ite, if_neg (hl hl')] at h
      exact refer_yields _ _ _ _ _ h
    · exact refer_yields _ _ _ _ _ h

/-- An instruction that names no target is not taken for one that does. -/
theorem ReadsWord.copied (h : ReadsWord t w) {rest : List Byte} (hs : s.rest = t ++ rest) :
    emitLine slack labels s = .ok (some s.cpline) := by
  obtain ⟨b, t', nw, rfl, hblank, hline, -, hcolon, -, hrun⟩ := h.head
  have hahead (n : ℕ) (hn : n < (b :: t').length) :=
    @Emit.ahead_append slack _ _ _ n hs hn
  refine emitLine_copies hs hline hcolon ?_ ?_
  · rintro ⟨rfl, hadr⟩
    simp only [Emit.isAdr, Bool.and_eq_true, decide_eq_true_eq] at hadr
    rcases t' with _ | ⟨x, _ | ⟨y, t'⟩⟩
    · cases hrun
    · obtain rfl : x = ch 'd' := (hahead 1 (by simp)).symm.trans hadr.1
      cases hrun
    · obtain rfl : x = ch 'd' := (hahead 1 (by simp)).symm.trans hadr.1
      obtain rfl : y = ch 'r' := (hahead 2 (by simp)).symm.trans hadr.2
      obtain ⟨_, _, hword⟩ := hAdr_yields _ _ _ (dispatch_adr.symm.trans hrun)
      cases hword
  · rintro ⟨rfl, hbranch⟩
    simp only [Emit.isBranch, Bool.or_eq_true, Bool.and_eq_true, decide_eq_true_eq] at hbranch
    have hr : (ch 'b' :: t').getD 1 0 ≠ ch 'r' := by
      rcases t' with _ | ⟨x, t'⟩
      · decide
      · rw [hahead 1 (by simp)] at hbranch
        intro hr
        rw [hr] at hbranch
        rcases hbranch with (h | h) | ⟨h, -⟩ <;> exact absurd h (by decide)
    have hl : (ch 'b' :: t').getD 1 0 = ch 'l' → (ch 'b' :: t').getD 2 0 ≠ ch 'r' := by
      rcases t' with _ | ⟨x, _ | ⟨y, t'⟩⟩
      · exact fun hl => absurd hl (by decide)
      · exact fun _ => (by decide : (0 : Byte) ≠ ch 'r')
      · rw [hahead 1 (by simp), hahead 2 (by simp)] at hbranch
        intro hl
        rw [hl] at hbranch
        rcases hbranch with (h | h) | ⟨-, h⟩
        · exact absurd h (by decide)
        · exact absurd h (by decide)
        · exact h
    have hrefers : ∃ form t, Code.word w = .refer form t := hBranch_refers hrun hr hl
    obtain ⟨_, _, hword⟩ := hrefers
    cases hword

end Words

section Pass

variable {out : List Byte} {lost : List (List Byte)}

theorem emit_item (indent : Indent) (body : Body) (tail : Tail) (hrest : Ends rest) :
    emit slack labels ⟨(SrcLine.item indent body tail).text ++ rest, out, lost⟩ =
      .ok (some ⟨rest.drop 1,
        out ++ (SrcLine.item indent body tail).output labels (rest.take 1),
        lost ++ (SrcLine.item indent body tail).missing labels⟩) := by
  have hsksp : Emit.sksp ⟨(SrcLine.item indent body tail).text ++ rest, out, lost⟩ =
      ⟨body.text ++ (tail.text ++ rest), out, lost⟩ := by
    rw [Emit.sksp, SrcLine.text, List.append_assoc, List.append_assoc, body.sksp indent]
  have hline : 0x0a ∉ body.text ++ tail.text := by
    rw [List.mem_append, not_or]
    exact ⟨body.line, tail.line⟩
  have hcopy : Emit.cpline ⟨body.text ++ (tail.text ++ rest), out, lost⟩ =
      ⟨rest.drop 1, out ++ (body.text ++ tail.text ++ rest.take 1), lost⟩ :=
    Emit.cpline_append (List.append_assoc _ _ _).symm hline hrest
  rw [emit, hsksp]
  cases body with
  | define l =>
      have hskip := (Body.define l).skipnl tail hrest
      unfold emitLine
      change Except.ok (some (Emit.mk (skipnl ((Body.define l).text ++ (tail.text ++ rest)))
        out lost)) = _
      rw [hskip]
      simp [SrcLine.output, SrcLine.missing]
  | byte gap digits =>
      rw [emitLine_copies (b := ch '.') rfl (by decide) (by decide) (by simp [ch]) (by simp [ch]),
        hcopy]
      simp [SrcLine.output, SrcLine.missing]
  | ascii gap s =>
      rw [emitLine_copies (b := ch '.') rfl (by decide) (by decide) (by simp [ch]) (by simp [ch]),
        hcopy]
      simp [SrcLine.output, SrcLine.missing]
  | word t w h =>
      rw [h.copied rfl, hcopy]
      simp [SrcLine.output, SrcLine.missing]
  | refer head target =>
      obtain ⟨b, t, htext, hsep⟩ := target.head
      have hblank : ∀ b ∈ (target.text ++ (tail.text ++ rest)).head?, isBlank b = false := by
        rw [htext]
        rintro a ⟨rfl⟩
        exact isBlank_of_isSep_false hsep
      have hs : (Emit.mk ((Body.refer head target).text ++ (tail.text ++ rest)) out lost).rest =
          head.text ++ (target.text ++ (tail.text ++ rest)) := by
        rw [Body.text, List.append_assoc]
      rw [emitLine_refer head hs, Emit.fields_text head hblank hs,
        Emit.target_text target tail hrest rfl]
      simp [SrcLine.output, SrcLine.missing]

/-- A line that is not blank, or that another one follows, takes one round. -/
theorem emit_line (l : SrcLine) (ls : List SrcLine) (h : ls ≠ [] ∨ sksp l.text ≠ []) :
    emit slack labels ⟨source (l :: ls), out, lost⟩ =
      .ok (some ⟨source ls, out ++ l.output labels ((more ls).take 1),
        lost ++ l.missing labels⟩) := by
  have hends := ends_more ls
  rw [source, ← drop_more]
  cases l with
  | blank indent =>
      have hnil : ∀ t : List Byte, sksp (indent.text ++ t) = sksp t := fun t =>
        List.dropWhile_append_of_pos indent.blank
      cases ls with
      | nil =>
          have hblank : sksp indent.text = [] := by
            rw [← List.append_nil indent.text, hnil]
            rfl
          exact absurd hblank (h.resolve_left fun hne => hne rfl)
      | cons l ls =>
          have hsksp : Emit.sksp ⟨indent.text ++ more (l :: ls), out, lost⟩ =
              ⟨more (l :: ls), out, lost⟩ := by
            rw [Emit.sksp, hnil]
            rfl
          rw [SrcLine.text, emit, hsksp]
          simp [SrcLine.output, SrcLine.missing, emitLine, more_cons]
  | comment indent t ht =>
      have hsksp : Emit.sksp ⟨indent.text ++ ch '#' :: t ++ more ls, out, lost⟩ =
          ⟨ch '#' :: t ++ more ls, out, lost⟩ := by
        rw [Emit.sksp, List.append_assoc, List.cons_append, sksp_append indent.blank rfl]
      have hline : 0x0a ∉ ch '#' :: t := by simpa using ⟨by decide, ht⟩
      have hcopy : Emit.cpline ⟨ch '#' :: t ++ more ls, out, lost⟩ =
          ⟨(more ls).drop 1, out ++ (ch '#' :: t ++ (more ls).take 1), lost⟩ :=
        Emit.cpline_append rfl hline hends
      rw [SrcLine.text, emit, hsksp, emitLine_copies (b := ch '#') rfl (by decide) (by decide)
        (by simp [ch]) (by simp [ch]), hcopy]
      simp [SrcLine.output, SrcLine.missing]
  | item indent body tail => exact emit_item indent body tail hends

theorem Emit.afterToken_length (s : Emit) : (afterToken s.rest).length ≤ s.rest.length :=
  (List.dropWhile_suffix _).length_le

theorem Emit.field_length (s : Emit) : s.field.rest.length ≤ s.rest.length := by
  have hle : (LabelResolver.sksp (afterToken s.rest)).length ≤ (afterToken s.rest).length :=
    (List.dropWhile_suffix _).length_le
  exact hle.trans s.afterToken_length

theorem Emit.target_length (s : Emit) :
    (s.target slack labels).rest.length ≤ s.rest.length - 1 := by
  have hskip := (skipnl_length (afterToken s.rest)).trans
    (Nat.sub_le_sub_right s.afterToken_length 1)
  unfold Emit.target
  dsimp only
  split
  · exact hskip
  · split <;> exact hskip

/-- Every round reads at least one character. -/
theorem emit_less {s t : Emit} (h : emit slack labels s = .ok (some t)) :
    t.rest.length < s.rest.length := by
  have hle : s.sksp.rest.length ≤ s.rest.length := (List.dropWhile_suffix _).length_le
  rw [emit, emitLine] at h
  have hskip := skipnl_length s.sksp.rest
  have hfield := s.sksp.field_length
  have hfields := s.sksp.field.field_length
  have hbranch := @Emit.target_length slack labels s.sksp.field
  have hadr := @Emit.target_length slack labels s.sksp.field.field
  split at h
  · cases h
  · rename_i b line hline
    have hpos : 0 < s.sksp.rest.length := by
      rw [hline]
      exact Nat.succ_pos _
    split_ifs at h
    · cases h
      have hlength := congrArg List.length hline
      rw [List.length_cons] at hlength
      dsimp only
      omega
    all_goals
      cases h
      first
        | exact lt_of_le_of_lt hskip (by omega)
        | omega

theorem emit_ne_error (s : Emit) (e : Exit) : emit slack labels s ≠ .error e := by
  rw [emit, emitLine]
  split
  · intro h
    cases h
  · split_ifs <;> (intro h; cases h)

theorem pass2_ne_running (labels : Labels) (input : List Byte) :
    pass2 labels input ≠ .error .running :=
  Loop.run_ne_stuck (fun s => s.rest.length) (fun s => emit_ne_error s .running)
    (fun _ _ => emit_less) (Nat.lt_succ_self _)

theorem take_more_append {as bs : List SrcLine} (hbs : bs ≠ []) :
    (more (as ++ bs)).take 1 = [0x0a] := by
  cases as with
  | nil =>
      obtain ⟨b, bs, rfl⟩ := List.exists_cons_of_ne_nil hbs
      rfl
  | cons a as => rfl

/-- Lines before others come out one by one. -/
theorem emit_lines (as bs : List SrcLine) (hbs : bs ≠ []) :
    Loop.Steps (emit slack labels) ⟨source (as ++ bs), out, lost⟩
      ⟨source bs, out ++ as.flatMap (SrcLine.output labels [0x0a]), lost ++ missing labels as⟩ := by
  induction as generalizing out lost with
  | nil =>
      simp only [List.flatMap_nil, List.append_nil, missing, List.nil_append]
      exact .refl
  | cons l as ih =>
      have hne : as ++ bs ≠ [] := List.append_ne_nil_of_right_ne_nil as hbs
      have hturn := @emit_line slack labels out lost l (as ++ bs) (.inl hne)
      rw [take_more_append hbs] at hturn
      rw [List.flatMap_cons, ← List.append_assoc, missing, List.flatMap_cons, ← List.append_assoc]
      exact .head hturn ih

theorem output_append {as bs : List SrcLine} (hbs : bs ≠ []) :
    output labels (as ++ bs) = as.flatMap (SrcLine.output labels [0x0a]) ++ output labels bs := by
  induction as with
  | nil => rfl
  | cons l as ih =>
      rw [List.cons_append, output, take_more_append hbs, ih, List.flatMap_cons,
        List.append_assoc]

/-- Pass 2 writes every line and reports every name that it misses. -/
theorem pass2_source (labels : Labels) (ls : List SrcLine) :
    ∃ s, pass2 labels (source ls) = .ok s ∧ s.out = output labels ls ∧
      s.missing = missing labels ls := by
  have hrun (s : Emit)
      (hsteps : Loop.Steps (emit (slackOf (source ls)) labels) ⟨source ls, [], []⟩ s)
      (hstop : emit (slackOf (source ls)) labels s = .ok none) :
      pass2 labels (source ls) = .ok s :=
    Loop.run_of_steps hsteps hstop (pass2_ne_running labels _)
  obtain rfl | ⟨as, l, rfl⟩ := List.eq_nil_or_concat' ls
  · exact ⟨_, hrun _ .refl rfl, rfl, rfl⟩
  · have hsteps := @emit_lines (slackOf (source (as ++ [l]))) labels [] [] as [l]
      (List.cons_ne_nil l [])
    have hout : output labels (as ++ [l]) =
        [] ++ as.flatMap (SrcLine.output labels [0x0a]) ++ l.output labels [] := by
      rw [output_append (List.cons_ne_nil l []), output, output, List.append_nil]
      rfl
    have hmissing : missing labels (as ++ [l]) = [] ++ missing labels as ++ l.missing labels := by
      simp [missing]
    by_cases hblank : sksp l.text = []
    · have hstop (out : List Byte) (lost : List (List Byte)) :
          emit (slackOf (source (as ++ [l]))) labels ⟨source [l], out, lost⟩ = .ok none := by
        rw [emit, emitLine, Emit.sksp, source, more, List.flatMap_nil, List.append_nil]
        dsimp only
        rw [hblank]
      obtain ⟨indent, rfl⟩ := SrcLine.blank_of_sksp hblank
      refine ⟨_, hrun _ hsteps (hstop _ _), ?_, ?_⟩
      · exact hout.symm ▸ (List.append_nil _).symm
      · exact hmissing.symm ▸ (List.append_nil _).symm
    · have hturn := @emit_line (slackOf (source (as ++ [l]))) labels
        ([] ++ as.flatMap (SrcLine.output labels [0x0a])) ([] ++ missing labels as) l []
        (.inr hblank)
      exact ⟨_, hrun _ (hsteps.tail hturn) rfl, hout.symm, hmissing.symm⟩

end Pass

end Veron.LabelResolver
