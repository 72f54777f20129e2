/-
Pass 1 of the label resolver over the text of a program: it counts the bytes that
every line emits, and records where every name is defined.
-/
import Veron.LabelSource
import Veron.SelfAssemblerPasses

namespace Veron.LabelResolver

open SelfAssembler (Byte Word ch isBlank isDigit valueOf LineEnd dropWhile_run)

/-- What follows a line: nothing, or a newline. -/
def Ends (rest : List Byte) : Prop := ∀ b ∈ rest.head?, b = 0x0a

theorem ends_more (ls : List SrcLine) : Ends (more ls) := by
  cases ls with
  | nil => rintro b ⟨⟩
  | cons l ls =>
      rintro b ⟨rfl⟩
      rfl

theorem more_cons (l : SrcLine) (ls : List SrcLine) :
    more (l :: ls) = 0x0a :: (l.text ++ more ls) := rfl

/-- Past the newline begins the next line. -/
theorem drop_more (ls : List SrcLine) : (more ls).drop 1 = source ls := by
  cases ls <;> rfl

section Text

variable {t rest : List Byte} {b : Byte}

theorem Ends.cases (h : Ends rest) : rest = [] ∨ ∃ m, rest = 0x0a :: m := by
  cases rest with
  | nil => exact .inl rfl
  | cons b m => exact .inr ⟨m, by rw [h b rfl]⟩

theorem isSep_of_isBlank (h : isBlank b = true) : isSep b = true := by
  rw [isSep]
  rw [isBlank] at h
  rw [h, Bool.true_or]

theorem isBlank_of_isSep (h : isSep b = true) (hb : b ≠ 0x0a) : isBlank b = true := by
  rw [isSep, decide_eq_false hb, Bool.or_false] at h
  exact h

theorem sksp_append (ht : ∀ b ∈ t, isBlank b = true) (hb : isBlank b = false) :
    sksp (t ++ b :: rest) = b :: rest := by
  refine dropWhile_run ht ?_
  rintro a ⟨rfl⟩
  exact hb

theorem skipnl_append (ht : 0x0a ∉ t) (hrest : Ends rest) : skipnl (t ++ rest) = rest.drop 1 := by
  have hdrop : (t ++ rest).dropWhile (· ≠ (0x0a : Byte)) = rest := by
    refine dropWhile_run (fun b hb => ?_) fun b hb => ?_
    · simpa using ne_of_mem_of_not_mem hb ht
    · simpa using hrest b hb
  rw [skipnl, hdrop]

/-- A token ends at a separator. -/
theorem token_append (ht : ∀ b ∈ t, isSep b = false) (hrest : ∀ b ∈ rest.head?, isSep b = true) :
    token (t ++ rest) = t ∧ afterToken (t ++ rest) = rest := by
  have htext : ∀ b ∈ t, (!isSep b) = true := fun b hb => by rw [ht b hb]; rfl
  constructor
  · rw [token, List.takeWhile_append_of_pos htext]
    cases rest with
    | nil => simp
    | cons b m => rw [List.takeWhile_cons_of_neg (by simp [hrest b rfl]), List.append_nil]
  · refine dropWhile_run htext fun b hb => ?_
    rw [hrest b hb]
    rfl

end Text

section Lines

variable {rest : List Byte}

theorem Tail.sep (tail : Tail) (hrest : Ends rest) :
    ∀ b ∈ (tail.text ++ rest).head?, isSep b = true := by
  intro b hb
  cases htext : tail.text with
  | nil =>
      rw [htext] at hb
      rw [hrest b hb]
      rfl
  | cons a t =>
      rw [htext, List.cons_append, List.head?_cons] at hb
      exact isSep_of_isBlank (tail.blank b (by rw [htext]; exact hb))

theorem Label.read (l : Label) (tail : Tail) (hrest : Ends rest) :
    token (l.text ++ (tail.text ++ rest)) = l.text ∧
      afterToken (l.text ++ (tail.text ++ rest)) = tail.text ++ rest :=
  token_append l.no_sep (tail.sep hrest)

theorem newline_notMem {t : List Byte} (h : ∀ b ∈ t, isSep b = false) : 0x0a ∉ t := by
  intro hmem
  exact absurd (h _ hmem) (by decide)

theorem isBlank_newline_notMem {t : List Byte} (h : ∀ b ∈ t, isBlank b = true) : 0x0a ∉ t := by
  intro hmem
  exact absurd (h _ hmem) (by decide)

theorem isDigit_newline_notMem {t : List Byte} (h : ∀ b ∈ t, isDigit b = true) : 0x0a ∉ t := by
  intro hmem
  exact absurd (h _ hmem) (by decide)

theorem StrChar.line (c : StrChar) : 0x0a ∉ c.text := by
  cases c with
  | plain b h => simpa [StrChar.text] using h.2.2.symm
  | escaped b h => simpa [StrChar.text] using ⟨by decide, h.symm⟩

theorem isRegLetter_ne_newline {b : Byte} (h : SelfAssembler.isRegLetter b = true) :
    b ≠ 0x0a := by
  rintro rfl
  exact absurd h (by decide)

theorem condName_ne_newline (c : A64.Cond) :
    (SelfAssembler.condName c).1 ≠ 0x0a ∧ (SelfAssembler.condName c).2 ≠ 0x0a := by
  cases c <;> decide

theorem Head.line (head : Head) : 0x0a ∉ head.text := by
  cases head with
  | adr gap letter hletter reg hreg gap' =>
      have hgap := isBlank_newline_notMem gap.blank
      have hgap' := isBlank_newline_notMem gap'.blank
      have hdigits := isDigit_newline_notMem reg.digit
      have hne := (isRegLetter_ne_newline hletter).symm
      simp only [Head.text, List.mem_append, List.mem_cons, not_or]
      exact ⟨by decide, hgap, hne, hdigits, hgap'⟩
  | b => decide
  | bl => decide
  | bcond c =>
      obtain ⟨h₁, h₂⟩ := condName_ne_newline c
      simp only [Head.text, List.mem_append, List.mem_cons, List.not_mem_nil, not_or]
      exact ⟨by decide, h₁.symm, h₂.symm, by decide, not_false⟩

theorem Target.line (target : Target) : 0x0a ∉ target.text := by
  cases target with
  | name l => exact newline_notMem l.no_sep
  | pos digits =>
      have hdigits := isDigit_newline_notMem digits.digit
      simp only [Target.text, List.mem_cons, not_or]
      exact ⟨by decide, hdigits⟩

/-- An item stands on one line. -/
theorem Body.line (body : Body) : 0x0a ∉ body.text := by
  cases body with
  | define l =>
      have hname := newline_notMem l.no_sep
      simp only [Body.text, List.mem_cons, not_or]
      exact ⟨by decide, hname⟩
  | byte gap digits =>
      have hgap := isBlank_newline_notMem gap.blank
      have hdigits := isDigit_newline_notMem digits.digit
      simp only [Body.text, List.mem_append, not_or]
      exact ⟨by decide, hgap, hdigits⟩
  | ascii gap s =>
      have hgap := isBlank_newline_notMem gap.blank
      have hs : 0x0a ∉ s.flatMap StrChar.text := by
        simp only [List.mem_flatMap, not_exists, not_and]
        exact fun c _ => c.line
      simp only [Body.text, List.mem_append, List.mem_cons, not_or]
      exact ⟨by decide, hgap, by decide, hs, by decide⟩
  | word t w h => exact h.1
  | refer head target =>
      simp only [Body.text, List.mem_append, not_or]
      exact ⟨head.line, target.line⟩

end Lines

section Words

open SelfAssembler Line

/-- What a routine returns, when it returns. -/
def Yields (P : Code → Prop) (m : Line Code) : Prop :=
  ∀ c code d, m.run c = .ok (code, d) → P code

variable {P : Code → Prop} {t : List Byte} {w : Word}

theorem Yields.bind {α : Type} {m : Line α} {f : α → Line Code} (hf : ∀ a, Yields P (f a)) :
    Yields P (m >>= f) := by
  intro c code d hrun
  obtain ⟨a, c', -, hrest⟩ := of_run_bind hrun
  exact hf a c' code d hrest

theorem Yields.ite {p : Prop} [Decidable p] {m n : Line Code} (hm : Yields P m)
    (hn : Yields P n) : Yields P (if p then m else n) := by
  split
  · exact hm
  · exact hn

theorem yields_pure {code : Code} (h : P code) : Yields P (pure code : Line Code) := by
  intro c code' d hrun
  cases hrun
  exact h

theorem yields_die : Yields P die := by
  intro c code d hrun
  cases hrun

/-- A directive emits bytes. -/
theorem doDot_yields : Yields (fun code => ∃ bs, code = .bytes bs) doDot := by
  refine .bind fun b => .ite ?_ (.ite ?_ yields_die)
  · exact .bind fun _ => .bind fun _ => .bind fun v => yields_pure ⟨_, rfl⟩
  · refine .bind fun _ => .bind fun _ => .bind fun b => .ite ?_ yields_die
    exact .bind fun _ => .bind fun c => .bind fun _ => yields_pure ⟨_, rfl⟩

theorem hAdr_yields : Yields (fun code => ∃ form t, code = .refer form t) hAdr :=
  .bind fun _ => .bind fun _ => .bind fun _ => yields_pure ⟨_, _, rfl⟩

theorem hBcond_yields : Yields (fun code => ∃ form t, code = .refer form t) hBcond := by
  refine .bind fun _ => .bind fun c₁ => .bind fun c₂ => .bind fun _ => ?_
  cases condCode c₁ c₂ with
  | none => exact yields_die
  | some cond => exact .bind fun _ => yields_pure ⟨_, _, rfl⟩

/-- The first character of an instruction is one that both programs take for one. -/
theorem ReadsWord.head (h : ReadsWord t w) :
    ∃ b t' nw, t = b :: t' ∧ isBlank b = false ∧ b ≠ 0x0a ∧ b ≠ ch '#' ∧ b ≠ ch ':' ∧
      b ≠ ch '.' ∧ (parseCode b).run ⟨t, false⟩ = .ok (.word w, ⟨[], nw⟩) := by
  have hend : LineEnd [] := by
    rintro b ⟨⟩
  obtain ⟨nw, hrun⟩ := h.2 [] hend
  rw [List.append_nil] at hrun
  cases t with
  | nil => cases hrun
  | cons b t =>
      have hhash : b ≠ ch '#' := by
        rintro rfl
        cases hrun
      have hcolon : b ≠ ch ':' := by
        rintro rfl
        have hne : ch ':' ≠ ch '#' := by decide
        rw [parseItem, run_peek_bind, List.getD_cons_zero, if_neg hne, if_pos rfl, doLabel]
          at hrun
        obtain ⟨_, _, -, hrest⟩ := of_run_bind hrun
        obtain ⟨_, _, -, hrest⟩ := of_run_bind hrest
        cases hrest
      rw [parseItem, run_peek_bind, List.getD_cons_zero, if_neg hhash, if_neg hcolon] at hrun
      obtain ⟨code, c, hcode, hpure⟩ := of_run_bind hrun
      cases hpure
      refine ⟨b, t, nw, rfl, ?_, ?_, hhash, hcolon, ?_, hcode⟩
      · by_contra hblank
        rcases isBlank_cases (Bool.not_eq_false _ ▸ hblank) with rfl | rfl <;> cases hcode
      · rintro rfl
        cases hcode
      · rintro rfl
        obtain ⟨bs, hbs⟩ := doDot_yields _ _ _ hcode
        cases hbs

end Words

section Strings

theorem quotedLength_text (s : List StrChar) (rest : List Byte) :
    quotedLength (s.flatMap StrChar.text ++ ch '"' :: rest) = s.length := by
  induction s with
  | nil =>
      unfold quotedLength
      rfl
  | cons c s ih =>
      cases c with
      | plain b h =>
          obtain ⟨hquote, hslash, -⟩ := h
          change quotedLength (b :: (s.flatMap StrChar.text ++ ch '"' :: rest)) = s.length + 1
          rw [quotedLength.eq_def]
          dsimp only
          rw [if_neg hquote, if_neg hslash, ih]
      | escaped b h =>
          have hne : ch '\\' ≠ ch '"' := by decide
          change quotedLength (ch '\\' :: b :: (s.flatMap StrChar.text ++ ch '"' :: rest)) =
            s.length + 1
          rw [quotedLength.eq_def]
          dsimp only
          rw [if_neg hne, if_pos rfl, ih]

/-- Pass 1 counts the bytes that the string stands for. -/
theorem asciilen_text (gap : Gap) (s : List StrChar) (rest : List Byte) :
    asciilen (SelfAssembler.text ['.', 'a', 's', 'c', 'i', 'i'] ++
      (gap.text ++ ch '"' :: (s.flatMap StrChar.text ++ ch '"' :: rest))) = s.length := by
  have hgap : ∀ b ∈ gap.text, decide (b ≠ ch '"') = true := by
    intro b hb
    have hblank := gap.blank b hb
    rw [decide_eq_true_eq]
    rintro rfl
    cases hblank
  have hname : ∀ b ∈ SelfAssembler.text ['.', 'a', 's', 'c', 'i', 'i'],
      decide (b ≠ ch '"') = true := by decide
  have hdrop : (SelfAssembler.text ['.', 'a', 's', 'c', 'i', 'i'] ++
      (gap.text ++ ch '"' :: (s.flatMap StrChar.text ++ ch '"' :: rest))).dropWhile
        (· ≠ ch '"') = ch '"' :: (s.flatMap StrChar.text ++ ch '"' :: rest) := by
    rw [List.dropWhile_append_of_pos hname]
    refine dropWhile_run hgap ?_
    rintro b ⟨rfl⟩
    rfl
  rw [asciilen, hdrop]
  exact quotedLength_text s rest

end Strings

section Pass

variable {rest : List Byte} {pos : ℕ} {labels : Labels}

def Labels.add (labels : Labels) (es : List (Label × ℕ)) : Labels :=
  es.foldl (fun t e => addlabel t e.1.text e.2) labels

theorem Head.head (head : Head) :
    ∃ b t, head.text = b :: t ∧ (b = ch 'a' ∨ b = ch 'b') := by
  cases head with
  | adr gap letter hletter reg hreg gap' => exact ⟨_, _, rfl, .inl rfl⟩
  | b => exact ⟨_, _, rfl, .inr rfl⟩
  | bl => exact ⟨_, _, rfl, .inr rfl⟩
  | bcond c => exact ⟨_, _, rfl, .inr rfl⟩

theorem Body.head (body : Body) : ∃ b t, body.text = b :: t ∧ isBlank b = false := by
  cases body with
  | define l => exact ⟨_, _, rfl, rfl⟩
  | byte gap digits => exact ⟨_, _, rfl, rfl⟩
  | ascii gap s => exact ⟨_, _, rfl, rfl⟩
  | word t w h =>
      obtain ⟨b, t', nw, ht, hb, -⟩ := h.head
      exact ⟨b, t', ht, hb⟩
  | refer head target =>
      obtain ⟨b, t, ht, hb⟩ := head.head
      refine ⟨b, t ++ target.text, ?_, ?_⟩
      · rw [Body.text, ht, List.cons_append]
      · rcases hb with rfl | rfl <;> rfl

/-- Indented, an item is found past the blanks. -/
theorem Body.sksp (indent : Indent) (body : Body) (t : List Byte) :
    sksp (indent.text ++ (body.text ++ t)) = body.text ++ t := by
  obtain ⟨b, t', ht, hb⟩ := body.head
  rw [ht, List.cons_append]
  exact sksp_append indent.blank hb

/-- Past an item and what follows it begins the next line. -/
theorem Body.skipnl (body : Body) (tail : Tail) (hrest : Ends rest) :
    skipnl (body.text ++ (tail.text ++ rest)) = rest.drop 1 := by
  rw [← List.append_assoc]
  refine skipnl_append ?_ hrest
  rw [List.mem_append, not_or]
  exact ⟨body.line, tail.line⟩

/-- A line that begins with the first character of an instruction counts four. -/
theorem scan_four {s : Scan} {b : Byte} {line t : List Byte} (h : sksp s.rest = line)
    (hline : line = b :: t) (hb : b ≠ 0x0a ∧ b ≠ ch '#' ∧ b ≠ ch ':' ∧ b ≠ ch '.') :
    scan s = .ok (some { s with rest := LabelResolver.skipnl line, pos := s.pos + 4 }) := by
  unfold scan
  rw [h, hline]
  dsimp only
  rw [if_neg hb.1, if_neg hb.2.1, if_neg hb.2.2.1, if_neg hb.2.2.2]

theorem scan_dot {s : Scan} {line t : List Byte} (h : sksp s.rest = line)
    (hline : line = ch '.' :: t) :
    scan s = .ok (some { s with
      rest := LabelResolver.skipnl line
      pos := s.pos + if t.getD 0 0 = ch 'b' then 1 else asciilen line }) := by
  unfold scan
  rw [h, hline]
  rfl

theorem scan_newline {s : Scan} {t : List Byte} (h : sksp s.rest = 0x0a :: t) :
    scan s = .ok (some { s with rest := t }) := by
  unfold scan
  rw [h]
  rfl

theorem scan_item (indent : Indent) (body : Body) (tail : Tail) (hrest : Ends rest) :
    scan ⟨(SrcLine.item indent body tail).text ++ rest, pos, labels⟩ =
      .ok (some ⟨rest.drop 1, pos + body.size,
        labels.add ((SrcLine.item indent body tail).places pos)⟩) := by
  have hline : (SrcLine.item indent body tail).text ++ rest =
      indent.text ++ (body.text ++ (tail.text ++ rest)) := by
    simp only [SrcLine.text, List.append_assoc]
  have hsksp := body.sksp indent (tail.text ++ rest)
  have hnext := body.skipnl tail hrest
  rw [hline]
  cases body with
  | define l =>
      have hnext' : LabelResolver.skipnl (l.text ++ (tail.text ++ rest)) = rest.drop 1 := by
        rw [← List.append_assoc]
        refine skipnl_append ?_ hrest
        rw [List.mem_append, not_or]
        exact ⟨newline_notMem l.no_sep, tail.line⟩
      unfold scan
      rw [hsksp]
      change Except.ok (some (Scan.mk (LabelResolver.skipnl (l.text ++ (tail.text ++ rest))) pos
        (addlabel labels (token (l.text ++ (tail.text ++ rest))) pos))) = _
      rw [hnext', (l.read tail hrest).1]
      rfl
  | byte gap digits =>
      have hscan := fun t => @scan_dot ⟨_, pos, labels⟩ _ t hsksp
      rw [hscan _ rfl, hnext]
      rfl
  | ascii gap s =>
      have hlength := asciilen_text gap s (tail.text ++ rest)
      have htext : (Body.ascii gap s).text ++ (tail.text ++ rest) =
          SelfAssembler.text ['.', 'a', 's', 'c', 'i', 'i'] ++
            (gap.text ++ ch '"' :: (s.flatMap StrChar.text ++ ch '"' ::
              (tail.text ++ rest))) := by
        simp only [Body.text, List.append_assoc, List.cons_append, List.nil_append]
      rw [← htext] at hlength
      have hscan := fun t => @scan_dot ⟨_, pos, labels⟩ _ t hsksp
      rw [hscan _ rfl, hnext, hlength]
      rfl
  | word t w h =>
      obtain ⟨b, t', nw, rfl, hb, hchars⟩ := h.head
      have hscan := fun u => @scan_four ⟨_, pos, labels⟩ b _ u hsksp
      rw [hscan _ rfl ⟨hchars.1, hchars.2.1, hchars.2.2.1, hchars.2.2.2.1⟩, hnext]
      rfl
  | refer head target =>
      obtain ⟨b, t, ht, hb⟩ := head.head
      have htext : (Body.refer head target).text ++ (tail.text ++ rest) =
          b :: (t ++ target.text ++ (tail.text ++ rest)) := by
        rw [Body.text, ht, List.cons_append, List.cons_append]
      have hchars : b ≠ 0x0a ∧ b ≠ ch '#' ∧ b ≠ ch ':' ∧ b ≠ ch '.' := by
        rcases hb with rfl | rfl <;> decide
      rw [scan_four hsksp htext hchars, hnext]
      rfl

/-- A line that is not blank, or that another one follows, takes one round. -/
theorem scan_line (l : SrcLine) (ls : List SrcLine) (h : ls ≠ [] ∨ sksp l.text ≠ []) :
    scan ⟨source (l :: ls), pos, labels⟩ =
      .ok (some ⟨source ls, pos + l.size, labels.add (l.places pos)⟩) := by
  have hends := ends_more ls
  rw [source, ← drop_more]
  cases l with
  | blank indent =>
      have hnil : ∀ t : List Byte, sksp (indent.text ++ t) = sksp t := fun t =>
        List.dropWhile_append_of_pos indent.blank
      cases ls with
      | nil =>
          have hblank : sksp indent.text = [] := by
            rw [← List.append_nil indent.text, hnil]
            rfl
          exact absurd hblank (h.resolve_left fun hne => hne rfl)
      | cons l ls =>
          rw [scan_newline (hnil (more (l :: ls)))]
          rfl
  | comment indent t ht =>
      have hsksp : sksp (indent.text ++ (ch '#' :: t ++ more ls)) = ch '#' :: (t ++ more ls) :=
        sksp_append indent.blank rfl
      have hskip : LabelResolver.skipnl (ch '#' :: t ++ more ls) = (more ls).drop 1 :=
        skipnl_append (by simpa using ⟨by decide, ht⟩) hends
      unfold scan
      rw [SrcLine.text, List.append_assoc]
      dsimp only
      rw [hsksp]
      change Except.ok (some (Scan.mk (LabelResolver.skipnl (ch '#' :: t ++ more ls)) pos
        labels)) = _
      rw [hskip]
      rfl
  | item indent body tail => exact scan_item indent body tail hends

theorem skipnl_length (l : List Byte) : (LabelResolver.skipnl l).length ≤ l.length - 1 := by
  have hle := (List.dropWhile_suffix (l := l) (· ≠ 0x0a)).length_le
  rw [LabelResolver.skipnl, List.length_drop]
  omega

/-- Every round reads at least one character. -/
theorem scan_less {s t : Scan} (h : scan s = .ok (some t)) : t.rest.length < s.rest.length := by
  have hle : (LabelResolver.sksp s.rest).length ≤ s.rest.length :=
    (List.dropWhile_suffix _).length_le
  unfold scan at h
  split at h
  · cases h
  · rename_i b line hline
    rw [hline, List.length_cons] at hle
    have hskip := skipnl_length (b :: line)
    have hskip' := skipnl_length line
    rw [List.length_cons] at hskip
    dsimp only at h
    split at h
    · cases h
      exact hle
    · split at h
      · cases h
        dsimp only
        omega
      · split at h
        · cases h
          dsimp only
          omega
        · split at h
          · cases h
            dsimp only
            omega
          · cases h
            dsimp only
            omega

theorem scan_ne_error (s : Scan) (e : Exit) : scan s ≠ .error e := by
  unfold scan
  split
  · intro h
    cases h
  · dsimp only
    split_ifs <;> (intro h; cases h)

theorem pass1_ne_running (input : List Byte) : pass1 input ≠ .error .running :=
  Loop.run_ne_stuck (fun s => s.rest.length) (fun s => scan_ne_error s .running)
    (fun _ _ => scan_less) (Nat.lt_succ_self _)

theorem sizes_cons (l : SrcLine) (ls : List SrcLine) : sizes (l :: ls) = l.size + sizes ls := rfl

theorem sizes_append (as bs : List SrcLine) : sizes (as ++ bs) = sizes as + sizes bs := by
  simp [sizes]

theorem places_append (as bs : List SrcLine) (pos : ℕ) :
    places (as ++ bs) pos = places as pos ++ places bs (pos + sizes as) := by
  induction as generalizing pos with
  | nil => rfl
  | cons a as ih =>
      rw [List.cons_append, places, ih, sizes_cons, ← Nat.add_assoc, ← List.append_assoc]
      rfl

theorem Labels.add_append (es fs : List (Label × ℕ)) :
    labels.add (es ++ fs) = (labels.add es).add fs := List.foldl_append

/-- Lines before others are read one by one. -/
theorem scan_lines (as bs : List SrcLine) (hbs : bs ≠ []) :
    Loop.Steps scan ⟨source (as ++ bs), pos, labels⟩
      ⟨source bs, pos + sizes as, labels.add (places as pos)⟩ := by
  induction as generalizing pos labels with
  | nil => exact .refl
  | cons l as ih =>
      have hne : as ++ bs ≠ [] := List.append_ne_nil_of_right_ne_nil as hbs
      have hturn := @scan_line pos labels l (as ++ bs) (.inl hne)
      rw [sizes_cons, ← Nat.add_assoc, places, Labels.add_append]
      exact .head hturn ih

theorem SrcLine.blank_of_sksp {l : SrcLine} (h : LabelResolver.sksp l.text = []) :
    ∃ indent, l = .blank indent := by
  cases l with
  | blank indent => exact ⟨indent, rfl⟩
  | comment indent t ht =>
      have hsksp : LabelResolver.sksp (indent.text ++ ch '#' :: t) = ch '#' :: t :=
        sksp_append indent.blank rfl
      cases hsksp.symm.trans h
  | item indent body tail =>
      obtain ⟨b, t, htext, -⟩ := body.head
      have hsksp := (body.sksp indent tail.text).symm.trans h
      rw [htext] at hsksp
      cases hsksp

/-- Pass 1 counts every byte and places every name. -/
theorem pass1_source (ls : List SrcLine) :
    ∃ s, pass1 (source ls) = .ok s ∧ s.pos = sizes ls ∧
      s.labels = Labels.add ⟨[], []⟩ (places ls 0) := by
  have hrun (s : Scan) (hsteps : Loop.Steps scan ⟨source ls, 0, ⟨[], []⟩⟩ s)
      (hstop : scan s = .ok none) : pass1 (source ls) = .ok s :=
    Loop.run_of_steps hsteps hstop (pass1_ne_running _)
  obtain rfl | ⟨as, l, rfl⟩ := List.eq_nil_or_concat' ls
  · exact ⟨_, hrun _ .refl rfl, rfl, rfl⟩
  · have hsteps := @scan_lines 0 ⟨[], []⟩ as [l] (List.cons_ne_nil l [])
    have hplaces : places (as ++ [l]) 0 = places as 0 ++ l.places (0 + sizes as) := by
      rw [places_append, places, places, List.append_nil]
    have hsizes : sizes (as ++ [l]) = sizes as + l.size := sizes_append as [l]
    by_cases hblank : LabelResolver.sksp l.text = []
    · have hstop : scan ⟨source [l], 0 + sizes as, Labels.add ⟨[], []⟩ (places as 0)⟩ =
          .ok none := by
        unfold scan
        rw [source, more, List.flatMap_nil, List.append_nil, hblank]
      obtain ⟨indent, rfl⟩ := SrcLine.blank_of_sksp hblank
      refine ⟨_, hrun _ hsteps hstop, ?_, ?_⟩
      · rw [hsizes, Nat.zero_add]
        rfl
      · rw [hplaces]
        exact congrArg (Labels.add _) (List.append_nil _).symm
    · have hturn := @scan_line (0 + sizes as) (Labels.add ⟨[], []⟩ (places as 0)) l []
        (.inr hblank)
      refine ⟨_, hrun _ (hsteps.tail hturn) rfl, ?_, ?_⟩
      · rw [hsizes, Nat.zero_add]
      · rw [hplaces, Labels.add_append]

end Pass

section Table

variable {es : List (Label × ℕ)} {name : List Byte}

def namesOf (es : List (Label × ℕ)) : List Byte := es.flatMap fun e => e.1.text ++ [0]

theorem Labels.add_eq (t : Labels) (es : List (Label × ℕ)) :
    t.add es = ⟨t.names ++ namesOf es, t.positions ++ es.map fun e => e.2 % 2 ^ 32⟩ := by
  induction es generalizing t with
  | nil => simp [Labels.add, namesOf]
  | cons e es ih =>
      change (addlabel t e.1.text e.2).add es = _
      rw [ih]
      simp [addlabel, namesOf]

/-- The search compares whole names. -/
theorem findFrom_names {ns : List (List Byte)} (hnul : ∀ n ∈ ns, 0 ∉ n) (i : ℕ) :
    findFrom name ns.length i (ns.flatMap fun n => n ++ [0]) =
      (ns.findIdx? fun n => n = name).map (· + i) := by
  induction ns generalizing i with
  | nil => rfl
  | cons n ns ih =>
      have hne : ∀ b ∈ n, decide (b ≠ 0) = true := by
        intro b hb
        rw [decide_eq_true_eq]
        exact ne_of_mem_of_not_mem hb (hnul n List.mem_cons_self)
      rw [List.length_cons, findFrom, List.flatMap_cons, List.append_assoc, List.singleton_append,
        List.takeWhile_append_of_pos hne, List.takeWhile_cons_of_neg (by simp), List.append_nil,
        List.dropWhile_append_of_pos hne, List.dropWhile_cons_of_neg (by simp), List.findIdx?_cons]
      by_cases hname : n = name
      · simp [hname]
      · rw [if_neg hname, if_neg (by simpa using hname), List.drop_succ_cons, List.drop_zero,
          ih fun m hm => hnul m (List.mem_cons_of_mem n hm), Option.map_map]
        congr 1
        funext j
        simp only [Function.comp_apply]
        omega

theorem findFrom_namesOf (hnul : ∀ e ∈ es, 0 ∉ e.1.text) (i : ℕ) :
    findFrom name es.length i (namesOf es) =
      (es.findIdx? fun e => e.1.text = name).map (· + i) := by
  have hnames : ∀ n ∈ es.map (fun e => e.1.text), 0 ∉ n := by
    intro n hn
    obtain ⟨e, he, rfl⟩ := List.mem_map.mp hn
    exact hnul e he
  have hfind := @findFrom_names name _ hnames i
  rwa [List.length_map, List.flatMap_map, List.findIdx?_map] at hfind

theorem Label.ext {l n : Label} (h : l.text = n.text) : l = n := by
  cases l
  cases n
  cases h
  rfl

/-- What is found is the position of the first definition of the name. -/
theorem findlabel_add (hnul : ∀ e ∈ es, 0 ∉ e.1.text) (l : Label) :
    findlabel (Labels.add ⟨[], []⟩ es) l.text =
      (es.find? fun e => e.1 = l).map fun e => e.2 % 2 ^ 32 := by
  have hsame : (fun e : Label × ℕ => decide (e.1.text = l.text)) = fun e => decide (e.1 = l) := by
    funext e
    exact decide_eq_decide.mpr ⟨Label.ext, fun h => h ▸ rfl⟩
  rw [findlabel, Labels.add_eq]
  simp only [List.nil_append, List.length_map]
  rw [findFrom_namesOf hnul, hsame, Option.map_map, List.find?_eq_bind_findIdx?_getElem?]
  cases hidx : es.findIdx? (fun e : Label × ℕ => decide (e.1 = l)) with
  | none => rfl
  | some i =>
      obtain ⟨hi, -⟩ := List.findIdx?_eq_some_iff_getElem.mp hidx
      simp [hi]

end Table

end Veron.LabelResolver
