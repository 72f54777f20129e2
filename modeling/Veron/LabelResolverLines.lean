/-
The self-assembler on what the label resolver writes: it reads there, line by line,
the bytes that the lines of the input stand for.
-/
import Veron.LabelResolverPass2

namespace Veron.LabelResolver

open SelfAssembler Line

section Reaching

variable {second : Bool} {s t u : State}

/-- Lines are read from a state, up to one that differs in white space at most. -/
def Reaches (second : Bool) (s t : State) : Prop :=
  ∃ u, Loop.Steps (turn second) s u ∧ u.atLine = t.atLine

theorem turn_atLine (h : s.atLine = t.atLine) : turn second s = turn second t := by
  rw [turn, turn, h]

theorem Reaches.refl (h : s.atLine = t.atLine) : Reaches second s t := ⟨s, .refl, h⟩

theorem Reaches.trans (hst : Reaches second s t) (htu : Reaches second t u) :
    Reaches second s u := by
  obtain ⟨v, hsv, hv⟩ := hst
  obtain ⟨w, htw, hw⟩ := htu
  cases htw using Relation.ReflTransGen.head_induction_on with
  | refl => exact ⟨v, hsv, hv.trans hw⟩
  | head hturn hrest =>
      rw [← turn_atLine hv] at hturn
      exact ⟨w, (hsv.tail hturn).trans hrest, hw⟩

theorem Reaches.turn (h : turn second s = .ok (some t)) : Reaches second s t :=
  ⟨t, .single h, rfl⟩

/-- What ends a line, and what follows it. -/
def Closes (newline rest : List Byte) : Prop := newline = [0x0a] ∨ newline = [] ∧ rest = []

variable {newline rest : List Byte}

theorem atLine_append {ws : List Byte} (hws : ∀ b ∈ ws, isWs b = true)
    (h : s.rest = ws ++ rest) : s.atLine = ({ s with rest := rest } : State).atLine := by
  rw [State.atLine, h, List.dropWhile_append_of_pos hws]
  rfl

theorem Closes.isWs (h : Closes newline rest) : ∀ b ∈ newline, isWs b = true := by
  rcases h with rfl | ⟨rfl, -⟩ <;> decide

theorem skipLine_run {t : List Byte} (ht : 0x0a ∉ t) (h : Closes newline rest) :
    parseItem.run ⟨ch '#' :: (t ++ (newline ++ rest)), false⟩ =
      .ok (.comment, ⟨rest, false⟩) := by
  have hline : 0x0a ∉ ch '#' :: t := by simpa using ⟨by decide, ht⟩
  have hends : Ends (newline ++ rest) := by
    rcases h with rfl | ⟨rfl, rfl⟩
    · rintro b ⟨rfl⟩
      rfl
    · rintro b ⟨⟩
  have hnext : skipnl (ch '#' :: t ++ (newline ++ rest)) = rest := by
    rw [skipnl_append hline hends]
    rcases h with rfl | ⟨rfl, rfl⟩ <;> rfl
  change Except.ok (Item.comment, Cursor.mk (skipnl (ch '#' :: t ++ (newline ++ rest))) false) = _
  rw [hnext]

theorem comment_reaches {t : List Byte} (ht : 0x0a ∉ t) (h : Closes newline rest)
    (hs : s.atLine.rest = ch '#' :: (t ++ (newline ++ rest))) :
    Reaches second s { s with rest := rest } := by
  refine .turn ?_
  have hparse := skipLine_run ht h
  rw [← hs] at hparse
  exact turn_more (by rw [hs]; exact List.cons_ne_nil _ _) hparse

/-- What follows an item on its line emits nothing. -/
theorem Tail.reaches (tail : Tail) (h : Closes newline rest)
    (hs : s.rest = tail.text ++ (newline ++ rest)) : Reaches second s { s with rest := rest } := by
  have hsplit := List.takeWhile_append_dropWhile (p := isBlank) (l := tail.text)
  have hblank : ∀ b ∈ tail.text.takeWhile isBlank, isWs b = true :=
    fun b hb => isWs_of_isBlank (List.mem_takeWhile_imp hb)
  cases hdrop : tail.text.dropWhile isBlank with
  | nil =>
      rw [hdrop, List.append_nil] at hsplit
      refine .refl (@atLine_append _ _ (tail.text ++ newline) ?_ ?_)
      · intro b hb
        rcases List.mem_append.mp hb with hb | hb
        · exact hblank b (hsplit.symm ▸ hb)
        · exact h.isWs b hb
      · rw [hs, List.append_assoc]
  | cons b t =>
      obtain rfl : b = ch '#' := tail.comment b (by rw [hdrop]; rfl)
      rw [hdrop] at hsplit
      have ht : 0x0a ∉ t := by
        intro hmem
        refine tail.line ?_
        rw [← hsplit]
        exact List.mem_append_right _ (List.mem_cons_of_mem _ hmem)
      refine comment_reaches ht h ?_
      rw [State.atLine, hs, ← hsplit, List.append_assoc, List.dropWhile_append_of_pos hblank]
      rfl

theorem Tail.lineEnd (tail : Tail) (h : Closes newline rest) :
    LineEnd (tail.text ++ (newline ++ rest)) := by
  have hsplit := List.takeWhile_append_dropWhile (p := isBlank) (l := tail.text)
  have hblank : ∀ b ∈ tail.text.takeWhile isBlank, isBlank b = true :=
    fun b hb => List.mem_takeWhile_imp hb
  unfold LineEnd
  rw [← hsplit, List.append_assoc, List.dropWhile_append_of_pos hblank]
  cases hdrop : tail.text.dropWhile isBlank with
  | nil =>
      rcases h with rfl | ⟨rfl, rfl⟩
      · rintro b ⟨rfl⟩
        rfl
      · rintro b ⟨⟩
  | cons b t =>
      obtain rfl : b = ch '#' := tail.comment b (by rw [hdrop]; rfl)
      rintro a ⟨rfl⟩
      rfl

theorem parseItem_ws {b : Byte} {t : List Byte} (h : isWs b = true) :
    parseItem.run ⟨b :: t, false⟩ = .error .die := by
  simp only [isWs, Bool.or_eq_true, decide_eq_true_eq] at h
  rcases h with ((rfl | rfl) | rfl) | rfl <;> rfl

/-- An item emits its bytes, and the rest of its line none. -/
theorem item_reaches {bs : List Byte} {code : Code} {nw : Bool} (tail : Tail)
    (h : Closes newline rest)
    (hparse : parseItem.run ⟨s.rest, false⟩ =
      .ok (.code code, ⟨tail.text ++ (newline ++ rest), nw⟩))
    (hcode : s.emitted code = bs) :
    Reaches second s (({ s with rest := rest } : State).write second bs) := by
  have hatLine : s.atLine = s := by
    cases hrest : s.rest with
    | nil =>
        rw [hrest] at hparse
        cases hparse
    | cons b u =>
        have hws : isWs b ≠ true := by
          intro hws
          rw [hrest, parseItem_ws hws] at hparse
          cases hparse
        rw [State.atLine, hrest, List.dropWhile_cons_of_neg hws, ← hrest]
  have hne : s.atLine.rest ≠ [] := by
    intro hnil
    rw [hatLine] at hnil
    rw [hnil] at hparse
    cases hparse
  have hturn := @turn_more second _ _ _ hne (by rw [hatLine]; exact hparse)
  rw [hatLine] at hturn
  have hperform : State.perform second { s with rest := tail.text ++ (newline ++ rest) }
      (.code code) =
        ({ s with rest := tail.text ++ (newline ++ rest) } : State).write second bs := by
    rw [State.perform, emit_eq, ← hcode]
    cases code <;> rfl
  rw [hperform] at hturn
  exact (Reaches.turn hturn).trans (tail.reaches h rfl)

end Reaching

section Items

variable {rest : List Byte}

theorem ascBytes_text (s : List StrChar) (rest : List Byte) :
    ascBytes (s.flatMap StrChar.text ++ ch '"' :: rest) = s.map StrChar.value ∧
      (s.flatMap StrChar.text ++ ch '"' :: rest).drop
        (ascLength (s.flatMap StrChar.text ++ ch '"' :: rest)) = rest := by
  induction s with
  | nil =>
      unfold ascBytes ascLength
      exact ⟨rfl, rfl⟩
  | cons c s ih =>
      obtain ⟨hbytes, hdrop⟩ := ih
      cases c with
      | plain b h =>
          obtain ⟨hquote, hslash, -⟩ := h
          change ascBytes (b :: (s.flatMap StrChar.text ++ ch '"' :: rest)) = b :: _ ∧
            (b :: (s.flatMap StrChar.text ++ ch '"' :: rest)).drop (ascLength (b :: _)) = rest
          rw [ascBytes.eq_def, ascLength.eq_def]
          dsimp only
          rw [if_neg hquote, if_neg hslash, if_neg hquote, if_neg hslash, hbytes,
            List.drop_succ_cons]
          exact ⟨rfl, hdrop⟩
      | escaped b h =>
          have hne : ch '\\' ≠ ch '"' := by decide
          change ascBytes (ch '\\' :: b :: (s.flatMap StrChar.text ++ ch '"' :: rest)) =
              (if b = ch 'n' then 0x0a else b) :: _ ∧
            (ch '\\' :: b :: (s.flatMap StrChar.text ++ ch '"' :: rest)).drop
              (ascLength (ch '\\' :: b :: _)) = rest
          rw [ascBytes.eq_def, ascLength.eq_def]
          dsimp only
          rw [if_neg hne, if_pos rfl, if_neg hne, if_pos rfl, hbytes, List.drop_succ_cons,
            List.drop_succ_cons]
          exact ⟨rfl, hdrop⟩

theorem byte_parse (gap : Gap) (digits : Digits) (hrest : LineEnd rest) :
    parseItem.run ⟨(Body.byte gap digits).text ++ rest, false⟩ =
      .ok (.code (.bytes [BitVec.ofNat 8 (valueOf digits.text)]), ⟨rest, false⟩) := by
  obtain ⟨d, ds, hds⟩ := List.exists_cons_of_ne_nil digits.ne_nil
  have hws : ∀ b ∈ gap.text, isWs b = true := fun b hb => isWs_of_isBlank (gap.blank b hb)
  have hdigit : Avoids isWs (digits.text ++ rest) := by
    rw [hds]
    rintro b ⟨rfl⟩
    exact digit_not_isWs (digits.digit d (hds ▸ List.mem_cons_self))
  have hskip : skipWs.run ⟨gap.text ++ (digits.text ++ rest), false⟩ = _ :=
    skipWs_run hws hdigit
  have hparse : parseDec.run ⟨digits.text ++ rest, false⟩ = _ :=
    parseDec_run digits.digit hrest.avoids_digit
  have hadvance : (advance 5).run ⟨(Body.byte gap digits).text ++ rest, false⟩ =
      .ok ((), ⟨gap.text ++ (digits.text ++ rest), false⟩) := by
    rw [← List.append_assoc gap.text]
    rfl
  have hbyte : doByte.run ⟨(Body.byte gap digits).text ++ rest, false⟩ =
      .ok (.bytes [BitVec.ofNat 8 (valueOf digits.text)], ⟨rest, false⟩) := by
    rw [doByte, run_bind_ok hadvance, run_bind_ok hskip, run_bind_ok hparse, run_pure,
      BitVec.setWidth_ofNat_of_le (by decide)]
  exact parseItem_code (by decide) hbyte

theorem ascii_parse (gap : Gap) (s : List StrChar) (rest : List Byte) :
    parseItem.run ⟨(Body.ascii gap s).text ++ rest, false⟩ =
      .ok (.code (.bytes (s.map StrChar.value)), ⟨rest, false⟩) := by
  have hws : ∀ b ∈ gap.text, isWs b = true := fun b hb => isWs_of_isBlank (gap.blank b hb)
  have hquote : Avoids isWs (ch '"' :: (s.flatMap StrChar.text ++ ch '"' :: rest)) := by
    rintro b ⟨rfl⟩
    rfl
  have hskip : skipWs.run
      ⟨gap.text ++ ch '"' :: (s.flatMap StrChar.text ++ ch '"' :: rest), false⟩ = _ :=
    skipWs_run hws hquote
  have hadvance : (advance 6).run ⟨(Body.ascii gap s).text ++ rest, false⟩ =
      .ok ((), ⟨gap.text ++ ch '"' :: (s.flatMap StrChar.text ++ ch '"' :: rest), false⟩) := by
    simp [Body.text, SelfAssembler.text]
  obtain ⟨hbytes, hdrop⟩ := ascBytes_text s rest
  have hloop : ascLoop.run ⟨s.flatMap StrChar.text ++ ch '"' :: rest, false⟩ =
      .ok (.bytes (s.map StrChar.value), ⟨rest, false⟩) := by
    rw [ascLoop, run_bind_ok (run_getCursor _), run_bind_ok (run_advance _ _), run_pure, hbytes]
    dsimp only
    rw [hdrop]
  have hascii : doAscii.run ⟨(Body.ascii gap s).text ++ rest, false⟩ =
      .ok (.bytes (s.map StrChar.value), ⟨rest, false⟩) := by
    rw [doAscii, run_bind_ok hadvance, run_bind_ok hskip, run_peek_bind, List.getD_cons_zero,
      if_pos rfl, run_bind_ok (run_advance 1 _)]
    exact hloop
  have hdot : (parseCode (ch '.')).run ⟨(Body.ascii gap s).text ++ rest, false⟩ =
      .ok (.bytes (s.map StrChar.value), ⟨rest, false⟩) := by
    change doDot.run _ = _
    rw [doDot, run_peek_bind, run_ite]
    exact hascii
  exact parseItem_code (by decide) hdot

/-- A reference comes out in a form that the self-assembler reads. -/
theorem refer_parse (head : Head) {ds : List Byte} {v : ℕ} (hds : SelfAssembler.Digits ds v)
    (hrest : LineEnd rest) (s : State) :
    ∃ tg nw, parseItem.run ⟨head.output ++ (ch '@' :: ds ++ rest), false⟩ =
        .ok (.code (.refer head.form tg), ⟨rest, nw⟩) ∧ s.value tg = BitVec.ofNat 32 v := by
  have hspells : Spells s.tab [.target v] ([0x20] ++ (ch '@' :: ds ++ rest)) rest :=
    .cons ⟨by decide, by decide⟩ (.pos hds) (.nil hrest)
  obtain ⟨tg, rest', hnil, htarget, hvalue⟩ := hspells.target_run
  cases hnil
  have hhead : ∃ ref, formOf ref = head.form ∧
      RefHead (head.output ++ (ch '@' :: ds ++ rest)) ref ([0x20] ++ (ch '@' :: ds ++ rest)) := by
    cases head with
    | adr gap letter hletter reg hreg gap' =>
        have hws : isWs letter = false := by
          simp only [isRegLetter, Bool.or_eq_true, decide_eq_true_eq] at hletter
          rcases hletter with rfl | rfl <;> rfl
        have hend : Avoids isDigit ([0x20] ++ (ch '@' :: ds ++ rest)) := by
          rintro b ⟨rfl⟩
          rfl
        have hline := @RefHead.adr [0x20] reg.text _ letter (by decide) hws reg.digit hreg hend
        refine ⟨.adr (valueOf reg.text), rfl, ?_⟩
        have hspace : ch ' ' = 0x20 := rfl
        simpa [Head.output, text, hspace] using hline
    | b => exact ⟨.b false, rfl, .b (by rintro b ⟨rfl⟩; rfl)⟩
    | bl => exact ⟨.b true, rfl, .bl (by rintro b ⟨rfl⟩; rfl)⟩
    | bcond c => exact ⟨.bcond c, rfl, .bcond c⟩
  obtain ⟨ref, hform, hhead⟩ := hhead
  obtain ⟨nw, hparse⟩ := hhead.parse htarget
  refine ⟨tg, nw, ?_, ?_⟩
  · rw [hparse, hform]
  · rw [hvalue s rfl, BitVec.ofInt_natCast]

theorem valueOf_concat (ds : List Byte) (b : Byte) :
    valueOf (ds ++ [b]) = valueOf ds * 10 + (b.toNat - 0x30) := by
  rw [valueOf, List.foldl_append]
  rfl

theorem emitpos_length (n v : ℕ) : (emitpos n v).length = n := by
  induction n generalizing v with
  | zero => rfl
  | succ n ih => rw [emitpos, List.length_append, ih, List.length_singleton]

/-- `emitpos` writes a number in decimal. -/
theorem emitpos_digits (n v : ℕ) :
    (∀ b ∈ emitpos n v, isDigit b = true) ∧ valueOf (emitpos n v) = v % 10 ^ n := by
  induction n generalizing v with
  | zero =>
      refine ⟨fun b hb => absurd hb List.not_mem_nil, ?_⟩
      rw [pow_zero, Nat.mod_one]
      rfl
  | succ n ih =>
      obtain ⟨hdigits, hvalue⟩ := ih (v / 10)
      have hlast : (BitVec.ofNat 8 (v % 10 + 0x30)).toNat = v % 10 + 0x30 :=
        Nat.mod_eq_of_lt (by omega)
      constructor
      · intro b hb
        rcases List.mem_append.mp hb with hb | hb
        · exact hdigits b hb
        · rw [List.mem_singleton.mp hb, isDigit_iff, hlast]
          omega
      · have hmod : v % 10 ^ (n + 1) = v % 10 + 10 * (v / 10 % 10 ^ n) := by
          rw [pow_succ', Nat.mod_mul]
        rw [emitpos, valueOf_concat, hvalue, hlast, hmod]
        omega

end Items

section Lines

variable {labels : Labels} {bind : Label → Option ℕ} {second : Bool} {s : State}
  {newline rest bs : List Byte} {pos : ℕ}

/-- A table of names gives every bound name its position, in nine digits. -/
def Resolves (labels : Labels) (bind : Label → Option ℕ) : Prop :=
  ∀ n p, bind n = some p → findlabel labels n.text = some p ∧ p < 10 ^ 9

/-- A target comes out as the digits of the position that it stands for. -/
theorem Resolves.digits (h : Resolves labels bind) {target : Target} {p : Word}
    (hp : target.value bind = some p) :
    ∃ ds v, target.output labels = ch '@' :: ds ∧ SelfAssembler.Digits ds v ∧
      p = BitVec.ofNat 32 v := by
  cases target with
  | name n =>
      obtain ⟨v, hv, rfl⟩ := Option.map_eq_some_iff.mp hp
      obtain ⟨hfind, hlt⟩ := h n v hv
      obtain ⟨hdigits, hvalue⟩ := emitpos_digits 9 v
      rw [Nat.mod_eq_of_lt hlt] at hvalue
      refine ⟨emitpos 9 v, v, ?_, ⟨?_, hdigits, hvalue⟩, rfl⟩
      · rw [Target.output, hfind, Option.getD_some]
      · exact List.append_ne_nil_of_right_ne_nil _ (List.cons_ne_nil _ _)
  | pos digits =>
      cases hp
      exact ⟨digits.text, valueOf digits.text, rfl, ⟨digits.ne_nil, digits.digit, rfl⟩, rfl⟩

theorem write_nil (s : State) : s.write second [] = s := by
  cases second <;> simp [State.write]

def Tail.none : Tail := ⟨[], by decide, by decide, by decide⟩

/-- What comes out of a line is assembled to the bytes that the line stands for. -/
theorem line_reaches (hbind : Resolves labels bind) (l : SrcLine) (h : Closes newline rest)
    (hs : s.rest = l.output labels newline ++ rest) (hbytes : l.bytes bind s.pos = some bs) :
    Reaches second s (({ s with rest := rest } : State).write second bs) := by
  have hblank (hrest : s.rest = rest) (hnil : bs = []) :
      Reaches second s (({ s with rest := rest } : State).write second bs) := by
    rw [hnil, write_nil, ← hrest]
    exact .refl rfl
  cases l with
  | blank indent => exact hblank hs (Option.some.inj hbytes).symm
  | comment indent t ht =>
      cases hbytes
      rw [write_nil]
      refine comment_reaches ht h ?_
      rw [State.atLine, hs]
      simp [SrcLine.output, SelfAssembler.isWs, ch]
  | item indent body tail =>
      have hline := tail.lineEnd h
      have hcopied {code : Code} {nw : Bool}
          (hrest : s.rest = body.text ++ (tail.text ++ (newline ++ rest)))
          (hparse : parseItem.run ⟨body.text ++ (tail.text ++ (newline ++ rest)), false⟩ =
            .ok (.code code, ⟨tail.text ++ (newline ++ rest), nw⟩))
          (hcode : s.emitted code = bs) :
          Reaches second s (({ s with rest := rest } : State).write second bs) := by
        rw [← hrest] at hparse
        exact item_reaches tail h hparse hcode
      have houtput {t : List Byte} (ht : s.rest = t ++ tail.text ++ newline ++ rest) :
          s.rest = t ++ (tail.text ++ (newline ++ rest)) := by
        rw [ht, List.append_assoc, List.append_assoc]
      cases body with
      | define l => exact hblank hs (Option.some.inj hbytes).symm
      | byte gap digits =>
          cases hbytes
          exact hcopied (houtput hs) (byte_parse gap digits hline) rfl
      | ascii gap str =>
          cases hbytes
          exact hcopied (houtput hs) (ascii_parse gap str _) rfl
      | word t w hw =>
          cases hbytes
          obtain ⟨nw, hparse⟩ := hw.2 _ hline
          exact hcopied (houtput hs) hparse rfl
      | refer head target =>
          obtain ⟨p, hp, rfl⟩ := Option.map_eq_some_iff.mp hbytes
          obtain ⟨ds, v, houtput, hds, rfl⟩ := hbind.digits hp
          have hrest : s.rest = head.output ++ (ch '@' :: ds ++ ([0x0a] ++ rest)) := by
            rw [hs, SrcLine.output, houtput]
            simp
          have hnew : LineEnd ([0x0a] ++ rest) := by
            rintro b ⟨rfl⟩
            rfl
          obtain ⟨tg, nw, hparse, hvalue⟩ := refer_parse head hds hnew s
          rw [← hrest] at hparse
          refine item_reaches Tail.none (.inl rfl) hparse ?_
          rw [State.emitted, hvalue]

theorem SrcLine.bytes_length {l : SrcLine} (h : l.bytes bind pos = some bs) :
    bs.length = l.size := by
  cases l with
  | blank indent => cases h; rfl
  | comment indent t ht => cases h; rfl
  | item indent body tail =>
      cases body with
      | define n => cases h; rfl
      | byte gap digits => cases h; rfl
      | ascii gap str => cases h; exact List.length_map _
      | word t w hw => cases h; rfl
      | refer head target =>
          obtain ⟨p, -, rfl⟩ := Option.map_eq_some_iff.mp h
          rfl

theorem bytesFrom_cons {l : SrcLine} {ls : List SrcLine}
    (h : bytesFrom bind (l :: ls) pos = some bs) :
    ∃ first more, l.bytes bind pos = some first ∧
      bytesFrom bind ls (pos + l.size) = some more ∧ bs = first ++ more := by
  simp only [bytesFrom, Option.bind_eq_bind, Option.bind_eq_some_iff, Option.pure_def,
    Option.some.injEq] at h
  obtain ⟨first, hfirst, more, hmore, rfl⟩ := h
  exact ⟨first, more, hfirst, hmore, rfl⟩

theorem bytesFrom_length {ls : List SrcLine} (h : bytesFrom bind ls pos = some bs) :
    bs.length = sizes ls := by
  induction ls generalizing pos bs with
  | nil => cases h; rfl
  | cons l ls ih =>
      obtain ⟨first, more, hfirst, hmore, rfl⟩ := bytesFrom_cons h
      rw [List.length_append, SrcLine.bytes_length hfirst, ih hmore, sizes_cons]

theorem closes_more (ls : List SrcLine) : Closes ((more ls).take 1) (output labels ls) := by
  cases ls with
  | nil => exact .inr ⟨rfl, rfl⟩
  | cons l ls => exact .inl rfl

theorem write_append (s : State) (bs cs : List Byte) (rest' : List Byte) :
    ({ ({ s with rest := rest } : State).write second bs with rest := rest' } : State).write
      second cs = ({ s with rest := rest' } : State).write second (bs ++ cs) := by
  cases second <;> simp [State.write, Nat.add_assoc]

/-- What comes out of lines before others is assembled line by line. -/
theorem lines_reach (hbind : Resolves labels bind) (as : List SrcLine) {ls : List SrcLine}
    (hs : s.rest = output labels (as ++ ls)) (hbytes : bytesFrom bind as s.pos = some bs) :
    Reaches second s (({ s with rest := output labels ls } : State).write second bs) := by
  induction as generalizing s bs with
  | nil =>
      cases hbytes
      rw [write_nil, show output labels ls = s.rest from hs.symm]
      exact .refl rfl
  | cons l as ih =>
      obtain ⟨first, more, hfirst, hmore, rfl⟩ := bytesFrom_cons hbytes
      have hline := @line_reaches labels bind second s _ _ first hbind l (closes_more (as ++ ls))
        hs hfirst
      refine hline.trans ?_
      rw [← write_append]
      refine ih rfl ?_
      rw [← SrcLine.bytes_length hfirst] at hmore
      exact hmore

end Lines

end Veron.LabelResolver
