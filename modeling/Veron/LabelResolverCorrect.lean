/-
What the label resolver writes is assembled to the bytes of its input: the
self-assembler stands at the same position at every line, and reads there the word
that the line stands for.
-/
import Veron.LabelResolverLines
import Veron.SelfAssemblerEncode

namespace Veron.LabelResolver

open SelfAssembler Line

section Instructions

variable {tab : Slot → Word} {ops : List Operand} {t rest : List Byte} {mnem : List Char}
  {i : A64.Instr}

theorem Spells.extend (h : Spells tab ops t []) (hrest : LineEnd rest) :
    Spells tab ops (t ++ rest) rest := by
  generalize htail : ([] : List Byte) = tail at h
  induction h with
  | nil h =>
      subst htail
      exact .nil hrest
  | cons hbl htxt h ih =>
      rw [List.append_assoc, List.append_assoc]
      exact .cons hbl htxt (ih htail)

theorem newline_notMem_digits {ds : List Byte} (h : ∀ b ∈ ds, isDigit b = true) : 0x0a ∉ ds :=
  fun hmem => absurd (h _ hmem) (by decide)

theorem OperandText.line {op : Operand} (h : OperandText tab op t) : 0x0a ∉ t := by
  cases h with
  | reg hds =>
      rename_i wd n ds
      have hletter : 0x0a ≠ letter wd := by cases wd <;> decide
      rw [List.mem_cons, not_or]
      exact ⟨hletter, newline_notMem_digits hds.2.1⟩
  | num hds => exact newline_notMem_digits hds.2.1
  | pos hds =>
      rw [List.mem_cons, not_or]
      exact ⟨by decide, newline_notMem_digits hds.2.1⟩
  | label h₁ h₂ hat hk =>
      have hne {b : Byte} (hb : Printable b) : 0x0a ≠ b := by
        rintro rfl
        exact absurd hb (by unfold Printable; decide)
      simpa using ⟨hne h₁, hne h₂⟩

theorem Spells.line (h : Spells tab ops t []) : 0x0a ∉ t := by
  generalize htail : ([] : List Byte) = tail at h
  induction h with
  | nil h =>
      subst htail
      exact List.not_mem_nil
  | cons hbl htxt h ih =>
      rw [List.mem_append, List.mem_append, not_or, not_or]
      refine ⟨fun hmem => ?_, OperandText.line htxt, ih htail⟩
      have hblank : isBlank 0x0a = true := hbl.2 _ hmem
      cases hblank

/-- The lines of the assembler's language that name no target are such instructions. -/
theorem Form.readsWord (hform : Form i mnem ops) (hno : ∀ form p, i ≠ .refer form p)
    (hfit : i.Fits 0) (h : Spells tab ops t []) :
    ∃ w, ReadsWord (text mnem ++ t) w ∧ w.toNat = i.number 0 := by
  have hmnem : 0x0a ∉ text mnem := by
    cases hform with
    | @addSubImm op | @addSubReg op | @logical op | @twoSource op | @shiftImm op | @loadStore op
    | @loadStoreOffset op | @narrow op => cases op <;> decide
    | adr | b | bl | bcond => exact absurd rfl (hno _ _)
    | _ => decide
  obtain ⟨w, -, -, hw⟩ := hform.assembles hno hfit h
  refine ⟨w, ⟨?_, fun rest hrest => ?_⟩, hw⟩
  · rw [List.mem_append, not_or]
    exact ⟨hmnem, Spells.line h⟩
  · obtain ⟨w', nw, hparse, hw'⟩ := hform.assembles hno hfit (Spells.extend h hrest)
    obtain rfl : w' = w := BitVec.eq_of_toNat_eq (hw'.trans hw.symm)
    exact ⟨nw, by rw [List.append_assoc]; exact hparse⟩

end Instructions

section Program

variable {labels : Labels} {second : Bool} {bs : List Byte} {ls : List SrcLine} {pos : ℕ}

theorem Body.size_le (body : Body) : body.size ≤ 4 * body.text.length := by
  cases body with
  | define l => exact Nat.zero_le _
  | byte gap digits =>
      simp only [Body.size, Body.text, SelfAssembler.text, List.length_append, List.length_map,
        List.length_cons]
      omega
  | ascii gap str =>
      have hlength : str.length ≤ (str.flatMap StrChar.text).length := by
        induction str with
        | nil => exact Nat.zero_le _
        | cons c str ih =>
            have hpos : 1 ≤ c.text.length := by
              cases c <;> simp [StrChar.text]
            rw [List.flatMap_cons, List.length_append, List.length_cons]
            omega
      simp only [Body.size, Body.text, List.length_append, List.length_cons]
      omega
  | word t w h =>
      obtain ⟨b, t', ht, -⟩ := (Body.word t w h).head
      rw [ht, List.length_cons, Body.size]
      omega
  | refer head target =>
      obtain ⟨b, t', ht, -⟩ := (Body.refer head target).head
      rw [ht, List.length_cons, Body.size]
      omega

theorem SrcLine.size_le (l : SrcLine) : l.size ≤ 4 * l.text.length := by
  cases l with
  | blank indent => exact Nat.zero_le _
  | comment indent t ht => exact Nat.zero_le _
  | item indent body tail =>
      have hbody := body.size_le
      rw [SrcLine.size, SrcLine.text, List.length_append, List.length_append]
      omega

/-- No line emits more than four bytes for each of its characters. -/
theorem sizes_le (ls : List SrcLine) : sizes ls ≤ 4 * (source ls).length := by
  have hmore (ls : List SrcLine) : sizes ls ≤ 4 * (more ls).length := by
    induction ls with
    | nil => exact Nat.zero_le _
    | cons l ls ih =>
        have hl := l.size_le
        rw [sizes_cons, more_cons, List.length_cons, List.length_append]
        omega
  cases ls with
  | nil => exact Nat.zero_le _
  | cons l ls =>
      have hl := l.size_le
      have hls := hmore ls
      rw [sizes_cons, source, List.length_append]
      omega

theorem places_le {e : Label × ℕ} (he : e ∈ places ls pos) : e.2 ≤ pos + sizes ls := by
  induction ls generalizing pos with
  | nil => cases he
  | cons l ls ih =>
      rw [sizes_cons]
      rcases List.mem_append.mp he with he | he
      · rw [SrcLine.places, Option.mem_toList, Option.map_eq_some_iff] at he
        obtain ⟨n, -, rfl⟩ := he
        exact Nat.le_add_right _ _
      · have hle := ih he
        omega

theorem places_fst (ls : List SrcLine) (pos : ℕ) : (places ls pos).map Prod.fst = defined ls := by
  induction ls generalizing pos with
  | nil => rfl
  | cons l ls ih =>
      rw [places, List.map_append, ih]
      cases hl : l.defines <;> simp [SrcLine.places, hl, defined]

/-- The names of a program that the resolver reads are bound as the program has them. -/
theorem resolves_place (hnul : ∀ n ∈ defined ls, 0 ∉ n.text)
    (hlength : (source ls).length < 0x2000000) :
    (∀ n : Label, findlabel (Labels.add ⟨[], []⟩ (places ls 0)) n.text = place ls n) ∧
      Resolves (Labels.add ⟨[], []⟩ (places ls 0)) (place ls) := by
  have hbound : ∀ e ∈ places ls 0, e.2 < 10 ^ 9 := by
    intro e he
    have hplace := places_le he
    have hsizes := sizes_le ls
    omega
  have hnames : ∀ e ∈ places ls 0, 0 ∉ e.1.text := by
    intro e he
    refine hnul e.1 ?_
    rw [← places_fst ls 0]
    exact List.mem_map_of_mem he
  have hfind (n : Label) : findlabel (Labels.add ⟨[], []⟩ (places ls 0)) n.text = place ls n := by
    rw [findlabel_add hnames, place]
    cases he : (places ls 0).find? fun e => e.1 = n with
    | none => rfl
    | some e =>
        have hlt := hbound e (List.mem_of_find?_eq_some he)
        exact congrArg some (Nat.mod_eq_of_lt (by omega))
  refine ⟨hfind, fun n p hp => ⟨(hfind n).trans hp, ?_⟩⟩
  obtain ⟨e, he, rfl⟩ := Option.map_eq_some_iff.mp hp
  exact hbound e (List.mem_of_find?_eq_some he)

/-- With no name missing, every line stands for its bytes. -/
theorem bytesFrom_of_missing {bind : Label → Option ℕ}
    (hfind : ∀ n : Label, findlabel labels n.text = bind n) (h : missing labels ls = []) :
    ∃ bs, bytesFrom bind ls pos = some bs := by
  induction ls generalizing pos with
  | nil => exact ⟨[], rfl⟩
  | cons l ls ih =>
      rw [missing, List.flatMap_cons, List.append_eq_nil_iff] at h
      obtain ⟨hl, hls⟩ := h
      have hfirst : ∃ first, l.bytes bind pos = some first := by
        cases l with
        | blank indent => exact ⟨_, rfl⟩
        | comment indent t ht => exact ⟨_, rfl⟩
        | item indent body tail =>
            cases body with
            | define n => exact ⟨_, rfl⟩
            | byte gap digits => exact ⟨_, rfl⟩
            | ascii gap str => exact ⟨_, rfl⟩
            | word t w hw => exact ⟨_, rfl⟩
            | refer head target =>
                cases target with
                | pos digits => exact ⟨_, rfl⟩
                | name n =>
                    cases hn : bind n with
                    | none =>
                        rw [← hfind n] at hn
                        rw [SrcLine.missing, Target.missing, if_pos hn] at hl
                        cases hl
                    | some p =>
                        simp [SrcLine.bytes, Body.bytes, Target.value, hn]
      obtain ⟨first, hfirst⟩ := hfirst
      obtain ⟨more, hmore⟩ := @ih (pos + l.size) hls
      exact ⟨first ++ more, by simp [bytesFrom, hfirst, hmore]⟩

theorem bytesFrom_left {bind : Label → Option ℕ} {as : List SrcLine}
    (h : bytesFrom bind (as ++ ls) pos = some bs) :
    ∃ first, bytesFrom bind as pos = some first := by
  induction as generalizing pos bs with
  | nil => exact ⟨[], rfl⟩
  | cons l as ih =>
      obtain ⟨first, more, hfirst, hmore, -⟩ := bytesFrom_cons h
      obtain ⟨second, hsecond⟩ := ih hmore
      exact ⟨first ++ second, by simp [bytesFrom, hfirst, hsecond]⟩

/-- A pass of the self-assembler over what comes out of a program. -/
theorem pass_output {bind : Label → Option ℕ} (hbind : Resolves labels bind)
    (hbytes : bytesFrom bind ls 0 = some bs) (tab : Slot → Word) :
    ∃ u, pass second (output labels ls) tab = .ok u ∧ u.tab = tab ∧
      u.out = if second then bs else [] := by
  have hreach := @lines_reach labels bind second (start (output labels ls) tab) bs hbind ls []
    (by rw [List.append_nil]; rfl) hbytes
  obtain ⟨u, hsteps, hu⟩ := hreach
  have hstop : turn second u = .ok none := by
    rw [turn, hu]
    rfl
  refine ⟨u, Loop.run_of_steps hsteps hstop (pass_ne_running second _ tab), ?_, ?_⟩
  · exact congrArg State.tab hu
  · exact congrArg State.out hu

/-- The table that pass 1 leaves. -/
def table (ls : List SrcLine) : Labels := Labels.add ⟨[], []⟩ (places ls 0)

/-- What the resolver does with the text of a program. -/
theorem resolve_source (hlength : (source ls).length < 0x2000000) :
    resolve (source ls) =
      if 4 * region (source ls).length < (output (table ls) ls).length then .error .wild
      else if missing (table ls) ls = [] then .ok (output (table ls) ls)
      else .error (.unresolved (missing (table ls) ls)) := by
  obtain ⟨s, hpass1, -, hlabels⟩ := pass1_source ls
  obtain ⟨e, hpass2, hout, hmissing⟩ := pass2_source (table ls) ls
  have hlast : pass2 s.labels (source ls) = .ok e := by
    rw [hlabels]
    exact hpass2
  rw [resolve, if_pos hlength, hpass1]
  change (pass2 s.labels (source ls) >>= _) = _
  rw [hlast]
  change (if _ then _ else _) = _
  rw [hout, hmissing]

theorem resolve_ok {out : List Byte} (h : resolve (source ls) = .ok out) :
    (source ls).length < 0x2000000 ∧ missing (table ls) ls = [] ∧ out = output (table ls) ls := by
  by_cases hlength : (source ls).length < 0x2000000
  · rw [resolve_source hlength] at h
    split at h
    · cases h
    · split at h
      · rename_i hmissing
        exact ⟨hlength, hmissing, (Except.ok.inj h).symm⟩
      · cases h
  · rw [resolve, if_neg hlength] at h
    cases h

/-- A pass of the self-assembler stands at every line where pass 1 of the resolver
stands, before what comes out of the line. -/
theorem pass_reaches {bind : Label → Option ℕ} (hbind : Resolves labels bind)
    {A B : List SrcLine} {l : SrcLine} (hbytes : bytesFrom bind (A ++ l :: B) 0 = some bs)
    (tab : Slot → Word) :
    ∃ u ∈ Loop.visits (turn second) (SelfAssembler.rounds (output labels (A ++ l :: B)))
        (start (output labels (A ++ l :: B)) tab),
      u.atLine.rest = (output labels (l :: B)).dropWhile isWs ∧ u.pos = sizes A := by
  obtain ⟨first, hfirst⟩ := bytesFrom_left hbytes
  obtain ⟨v, hrun, -⟩ := @pass_output labels second bs (A ++ l :: B) bind hbind hbytes tab
  obtain ⟨u, hsteps, hu⟩ := @lines_reach labels bind second
    (start (output labels (A ++ l :: B)) tab) first hbind A (l :: B) rfl hfirst
  refine ⟨u, Loop.mem_visits_of_steps hrun hsteps, ?_, ?_⟩
  · exact congrArg State.rest hu
  · rw [← bytesFrom_length hfirst, ← Nat.zero_add first.length]
    exact congrArg State.pos hu

/-- What the resolver writes is assembled to the bytes of the program as it stands, and
both programs count the same bytes before every line. -/
theorem resolve_assembles (P : List SrcLine) {out : List Byte}
    (hnul : ∀ n ∈ defined P, 0 ∉ n.text) (h : resolve (source P) = .ok out)
    (hfits : out.length < 0x4000000) :
    ∃ bytes, direct P = some bytes ∧ assemble out = .ok bytes ∧
      ∀ A l B, P = A ++ l :: B →
        ∃ s ∈ Loop.visits scan (rounds (source P)) ⟨source P, 0, [], []⟩,
          s.rest = source (l :: B) ∧ s.pos = sizes A ∧
          ∀ second tab, ∃ u ∈ Loop.visits (turn second) (SelfAssembler.rounds out) (start out tab),
            u.atLine.rest = (output (table P) (l :: B)).dropWhile isWs ∧ u.pos = s.pos := by
  obtain ⟨hlength, hmissing, rfl⟩ := resolve_ok h
  obtain ⟨hfind, hbind⟩ := resolves_place hnul hlength
  obtain ⟨bytes, hbytes⟩ := @bytesFrom_of_missing _ P 0 _ hfind hmissing
  obtain ⟨u, hfirst, hu, -⟩ := @pass_output _ false bytes P _ hbind hbytes blank
  obtain ⟨v, hlast, -, hv⟩ := @pass_output _ true bytes P _ hbind hbytes u.tab
  refine ⟨bytes, hbytes, ?_, ?_⟩
  · rw [assemble, if_pos hfits]
    rw [show pass false (output (table P) P) blank = .ok u from hfirst]
    change (pass true (output (table P) P) u.tab >>= _) = _
    rw [show pass true (output (table P) P) u.tab = .ok v from hlast]
    exact congrArg Except.ok hv
  · rintro A l B rfl
    obtain ⟨e, hpass1, -⟩ := pass1_source (A ++ l :: B)
    have hsteps := @scan_lines 0 ⟨[], []⟩ A (l :: B) (List.cons_ne_nil l B)
    refine ⟨_, Loop.mem_visits_of_steps hpass1 hsteps, rfl, Nat.zero_add _, fun second tab => ?_⟩
    rw [Nat.zero_add]
    exact pass_reaches hbind hbytes tab

end Program

section Instances

def plain (body : Body) : SrcLine := .item ⟨[], by decide⟩ body Tail.none

def nameB : Label := ⟨text ['b'], by decide, by decide, by decide⟩

def nameC : Label := ⟨text ['c'], by decide, by decide, by decide⟩

/-- A name with a zero in. -/
def zeroB : Label := ⟨[ch 'a', 0, ch 'b'], by decide, by decide, by decide⟩

theorem ret_readsWord : ReadsWord (text ['r', 'e', 't']) 0xd65f03c0 :=
  ⟨by decide, fun _ _ => ⟨false, rfl⟩⟩

def ret : SrcLine := plain (.word (text ['r', 'e', 't']) 0xd65f03c0 ret_readsWord)

def branchB : SrcLine := plain (.refer .b (.name nameB))

/-- `b b`, `ret` and `:b`. -/
def skipping : List SrcLine := [branchB, ret, plain (.define nameB)]

theorem resolve_skipping :
    resolve (source skipping) =
      .ok (text ['b', ' ', '@', '0', '0', '0', '0', '0', '0', '0', '0', '8', '\n', 'r', 'e', 't',
        '\n']) := by
  decide

theorem resolve_assembles_skipping :
    ∃ bytes, direct skipping = some bytes ∧
      assemble (text ['b', ' ', '@', '0', '0', '0', '0', '0', '0', '0', '0', '8', '\n',
        'r', 'e', 't', '\n']) = .ok bytes :=
  have ⟨bytes, hdirect, hassemble, _⟩ :=
    resolve_assembles skipping (by decide) resolve_skipping (by decide)
  ⟨bytes, hdirect, hassemble⟩

/-- The resolver's output, where there is one, is assembled to the bytes of the program. -/
def Faithful (P : List SrcLine) : Prop :=
  ∀ out, resolve (source P) = .ok out → ∃ bytes, direct P = some bytes ∧ assemble out = .ok bytes

/-- `:a␀b`, `:c`, `ret`, `:b` and `b b`: the search for `b` stops within the first name. -/
def zeroed : List SrcLine :=
  [plain (.define zeroB), plain (.define nameC), ret, plain (.define nameB), branchB]

theorem zeroed_not_faithful : ¬ Faithful zeroed := by
  have hresolve : resolve (source zeroed) =
      .ok (text ['r', 'e', 't', '\n', 'b', ' ', '@', '0', '0', '0', '0', '0', '0', '0', '0', '0',
        '\n']) := by
    decide
  have hassemble : assemble (text ['r', 'e', 't', '\n', 'b', ' ', '@', '0', '0', '0', '0', '0',
      '0', '0', '0', '0', '\n']) = .ok (wordBytes 0xd65f03c0 ++ wordBytes 0x17ffffff) := by
    rfl
  have hdirect : direct zeroed = some (wordBytes 0xd65f03c0 ++ wordBytes 0x14000000) := by
    rfl
  intro h
  obtain ⟨bytes, hbytes, hout⟩ := h _ hresolve
  rw [hdirect] at hbytes
  rw [hassemble] at hout
  cases hbytes
  cases hout

/-- `:b`, and `n` lines `b b`. -/
def branches (n : ℕ) : List SrcLine := plain (.define nameB) :: List.replicate n branchB

theorem branches_source (n : ℕ) : (source (branches n)).length = 2 + 4 * n := by
  have hmore : (more (List.replicate n branchB)).length = 4 * n := by
    induction n with
    | zero => rfl
    | succ n ih =>
        rw [List.replicate_succ, more_cons, List.length_cons, List.length_append, ih]
        change 3 + 4 * n + 1 = 4 * (n + 1)
        omega
  rw [branches, source, List.length_append, hmore]
  rfl

theorem branches_output (labels : Labels) (n : ℕ) :
    (output labels (branches n)).length = 13 * n := by
  have hlines : (output labels (List.replicate n branchB)).length = 13 * n := by
    induction n with
    | zero => rfl
    | succ n ih =>
        have hline (newline : List Byte) : (branchB.output labels newline).length = 13 := by
          change (Head.b.output ++ (ch '@' :: emitpos 9 _ ++ [0x0a])).length = 13
          rw [List.length_append, List.length_append, List.length_cons, emitpos_length]
          rfl
        rw [List.replicate_succ, output, List.length_append, hline, ih]
        omega
  rw [branches, output, List.length_append, hlines]
  exact Nat.zero_add _

theorem branches_defined (n : ℕ) : defined (branches n) = [nameB] := by
  have hlines : (List.replicate n branchB).filterMap SrcLine.defines = [] := by
    rw [List.filterMap_eq_nil_iff]
    intro l hl
    rw [List.eq_of_mem_replicate hl]
    rfl
  change nameB :: (List.replicate n branchB).filterMap SrcLine.defines = _
  rw [hlines]

theorem branches_missing {n : ℕ} (hn : 2 + 4 * n < 0x2000000) :
    missing (table (branches n)) (branches n) = [] := by
  obtain ⟨hfind, -⟩ := @resolves_place (branches n)
    (by rw [branches_defined]; decide) (by rw [branches_source]; exact hn)
  have hplace : place (branches n) nameB = some 0 := by
    rw [place, branches, places]
    rfl
  have hfound : findlabel (table (branches n)) nameB.text ≠ none := by
    rw [table, hfind, hplace]
    exact Option.some_ne_none 0
  rw [missing, List.flatMap_eq_nil_iff]
  intro l hl
  rcases List.mem_cons.mp hl with rfl | hl
  · rfl
  · rw [List.eq_of_mem_replicate hl]
    exact if_neg hfound

/-- More than 64 MiB come out, which the self-assembler does not take. -/
theorem branches_not_faithful {n : ℕ} (hn : 2 + 4 * n < 0x2000000) (hlong : 0x4000000 ≤ 13 * n) :
    ¬ Faithful (branches n) := by
  have hregion : ¬ 4 * region (source (branches n)).length <
      (output (table (branches n)) (branches n)).length := by
    rw [branches_source, branches_output, region]
    omega
  have hresolve :
      resolve (source (branches n)) = .ok (output (table (branches n)) (branches n)) := by
    rw [resolve_source (by rw [branches_source]; exact hn), if_neg hregion,
      if_pos (branches_missing hn)]
  intro h
  obtain ⟨bytes, -, hout⟩ := h _ hresolve
  rw [assemble, if_neg (by rw [branches_output]; omega)] at hout
  cases hout

/-- The resolver is not faithful to names with a zero in, nor to long programs. -/
theorem resolve_differs :
    ((defined zeroed).Nodup ∧ ¬ Faithful zeroed) ∧
      (defined (branches 5162221)).Nodup ∧ ¬ Faithful (branches 5162221) := by
  refine ⟨⟨by decide, zeroed_not_faithful⟩, ?_, branches_not_faithful (by omega) (by omega)⟩
  rw [branches_defined]
  exact List.nodup_singleton nameB

end Instances

end Veron.LabelResolver
