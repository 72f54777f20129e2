/-
The two passes of the self-assembler.  They read the same lines at the same
positions, the second writes what the first counts, and every reference to a
label is encoded over the distance to where the label is defined.
-/
import Mathlib.Data.List.Nodup
import Veron.SelfAssemblerText

namespace Veron.SelfAssembler

open A64 Line

section Emitting

variable {second : Bool} {s : State}

@[simp] theorem write_rest (bs : List Byte) : (s.write second bs).rest = s.rest := rfl

@[simp] theorem write_tab (bs : List Byte) : (s.write second bs).tab = s.tab := rfl

@[simp] theorem write_pos (bs : List Byte) :
    (s.write second bs).pos = s.pos + bs.length := rfl

/-- Writing bytes one by one is writing them all. -/
theorem write_foldl (bs : List Byte) (s : State) :
    bs.foldl (fun s b => s.write second [b]) s = s.write second bs := by
  induction bs generalizing s with
  | nil => cases second <;> simp [State.write]
  | cons b bs ih =>
      rw [List.foldl_cons, ih]
      cases second <;> simp [State.write, Nat.add_assoc, Nat.add_comm 1]

/-- The bytes that a piece of code emits. -/
def State.emitted (s : State) : Code → List Byte
  | .bytes bs => bs
  | .word w => wordBytes w
  | .refer form t => wordBytes (form.word (s.value t - BitVec.ofNat 32 s.pos))

def Code.size : Code → ℕ
  | .bytes bs => bs.length
  | .word _ => 4
  | .refer _ _ => 4

theorem emit_eq (code : Code) : s.emit second code = s.write second (s.emitted code) := by
  cases code with
  | bytes bs => exact write_foldl bs s
  | word w => rfl
  | refer form t => rfl

theorem emitted_length (code : Code) : (s.emitted code).length = code.size := by
  cases code <;> rfl

def Item.size : Item → ℕ
  | .comment => 0
  | .label _ => 0
  | .code e => e.size

@[simp] theorem perform_rest (item : Item) : (s.perform second item).rest = s.rest := by
  cases item with
  | comment => rfl
  | label k => rfl
  | code code => rw [State.perform, emit_eq, write_rest]

/-- The position does not depend on the pass or on the symbol table. -/
@[simp] theorem perform_pos (item : Item) :
    (s.perform second item).pos = s.pos + item.size := by
  cases item with
  | comment => rfl
  | label k => rfl
  | code code => rw [State.perform, emit_eq, write_pos, emitted_length, Item.size]

theorem perform_tab_of_ne {item : Item} {k : Slot} (h : item ≠ .label k) :
    (s.perform second item).tab k = s.tab k := by
  cases item with
  | comment => rfl
  | label j => exact Function.update_of_ne (fun hj => h (congrArg Item.label hj.symm)) _ _
  | code code => rw [State.perform, emit_eq, write_tab]

theorem perform_out (item : Item) :
    s.out <+: (s.perform true item).out ∧
      (s.perform true item).out.length = s.out.length + item.size := by
  cases item with
  | comment => exact ⟨List.prefix_rfl, rfl⟩
  | label k => exact ⟨List.prefix_rfl, rfl⟩
  | code code =>
      rw [State.perform, emit_eq, Item.size, ← emitted_length (s := s)]
      exact ⟨List.prefix_append _ _, List.length_append⟩

theorem perform_code_out (code : Code) :
    (s.perform true (.code code)).out = s.out ++ s.emitted code := by
  rw [State.perform, emit_eq]
  rfl

end Emitting

section Turns

variable {second : Bool} {s t : State}

theorem parseItem_nil (nw : Bool) : parseItem.run ⟨[], nw⟩ = .error .die := rfl

/-- A round that goes on reads an item and performs it. -/
theorem turn_cases (h : turn second s = .ok (some t)) :
    s.atLine.rest ≠ [] ∧ ∃ item c,
      parseItem.run ⟨s.atLine.rest, false⟩ = .ok (item, c) ∧
        t = { s.atLine with rest := c.rest }.perform second item := by
  unfold turn at h
  split at h
  · cases h
  · rename_i hrest
    refine ⟨hrest, ?_⟩
    unfold State.line at h
    cases hparse : parseItem.run ⟨s.atLine.rest, false⟩ with
    | error e =>
        rw [hparse] at h
        cases h
    | ok p =>
        rw [hparse] at h
        cases h
        exact ⟨p.1, p.2, rfl, rfl⟩

theorem turn_more {item : Item} {c : Cursor} (hrest : s.atLine.rest ≠ [])
    (hparse : parseItem.run ⟨s.atLine.rest, false⟩ = .ok (item, c)) :
    turn second s = .ok (some ({ s.atLine with rest := c.rest }.perform second item)) := by
  rw [turn, if_neg hrest, State.line, hparse]
  rfl

theorem turn_ne_running (s : State) : turn second s ≠ .error .running := by
  intro h
  unfold turn at h
  split at h
  · cases h
  · unfold State.line at h
    cases hparse : parseItem.run ⟨s.atLine.rest, false⟩ with
    | error e =>
        rw [hparse] at h
        cases e <;> cases h
    | ok p =>
        rw [hparse] at h
        cases h

theorem turn_less (h : turn second s = .ok (some t)) : t.rest.length < s.rest.length := by
  obtain ⟨hrest, item, c, hparse, rfl⟩ := turn_cases h
  have hless := parseItem_consumes _ _ _ hrest hparse
  have hskip := (List.dropWhile_suffix (l := s.rest) isWs).length_le
  rw [perform_rest]
  exact Nat.lt_of_lt_of_le hless hskip

/-- Both passes terminate. -/
theorem pass_ne_running (second : Bool) (input : List Byte) (tab : Slot → Word) :
    pass second input tab ≠ .error .running :=
  Loop.run_ne_stuck (fun s => s.rest.length) turn_ne_running (fun _ _ => turn_less)
    (Nat.lt_succ_self _)

/-- States of the two passes at the same place. -/
def SamePlace (s t : State) : Prop := s.rest = t.rest ∧ s.pos = t.pos

theorem SamePlace.atLine (h : SamePlace s t) : SamePlace s.atLine t.atLine :=
  ⟨congrArg (List.dropWhile isWs) h.1, h.2⟩

theorem turn_lockstep (h : SamePlace s t) :
    Loop.Lockstep SamePlace (turn false s) (turn true t) := by
  obtain ⟨hrest, hpos⟩ := h.atLine
  by_cases hend : s.atLine.rest = []
  · rw [turn, turn, if_pos hend, if_pos (hrest ▸ hend)]
    trivial
  · cases hparse : parseItem.run ⟨s.atLine.rest, false⟩ with
    | error e =>
        rw [turn, turn, if_neg hend, if_neg (hrest ▸ hend), State.line, State.line, ← hrest,
          hparse]
        trivial
    | ok p =>
        rw [turn_more hend hparse, turn_more (hrest ▸ hend) (hrest ▸ hparse)]
        refine ⟨?_, ?_⟩
        · rw [perform_rest, perform_rest]
        · rw [perform_pos, perform_pos]
          exact congrArg (· + p.1.size) hpos

theorem turn_out (h : turn true s = .ok (some t)) :
    s.out <+: t.out ∧ (s.out.length = s.pos → t.out.length = t.pos) := by
  obtain ⟨-, item, c, -, rfl⟩ := turn_cases h
  obtain ⟨hpre, hlen⟩ := perform_out (s := { s.atLine with rest := c.rest }) item
  refine ⟨hpre, fun hs => ?_⟩
  rw [hlen, perform_pos]
  exact congrArg (· + item.size) hs

/-- A round that defines the label of a table entry. -/
def DefinesSlot (k : Slot) (s : State) : Prop :=
  s.atLine.rest ≠ [] ∧ ∃ c, parseItem.run ⟨s.atLine.rest, false⟩ = .ok (.label k, c)

theorem turn_tab {k : Slot} (h : turn second s = .ok (some t)) (hk : ¬ DefinesSlot k s) :
    t.tab k = s.tab k := by
  obtain ⟨hrest, item, c, hparse, rfl⟩ := turn_cases h
  refine perform_tab_of_ne ?_
  rintro rfl
  exact hk ⟨hrest, c, hparse⟩

theorem turn_defines {k : Slot} (h : turn second s = .ok (some t)) (hk : DefinesSlot k s) :
    t.tab = Function.update s.tab k (BitVec.ofNat 32 s.pos) := by
  obtain ⟨-, item, c, hparse, rfl⟩ := turn_cases h
  obtain ⟨-, c', hlabel⟩ := hk
  rw [hlabel] at hparse
  cases hparse
  rfl

/-- After a pass, an entry defined once holds the position of its label. -/
theorem run_tab {n : ℕ} {k : Slot}
    (honce : (Loop.visits (turn second) n s).Pairwise
      fun u v => ∀ k, DefinesSlot k u → ¬ DefinesSlot k v)
    (hrun : Loop.run .running (turn second) n s = .ok t) {d : State}
    (hd : d ∈ Loop.visits (turn second) n s) (hk : DefinesSlot k d) :
    t.tab k = BitVec.ofNat 32 d.pos := by
  induction n generalizing s with
  | zero => cases hrun
  | succ n ih =>
      rcases Loop.run_cases hrun with ⟨hstop, rfl⟩ | ⟨r, hmore, hrest⟩
      · simp only [Loop.visits, hstop, List.mem_singleton] at hd
        cases hd
        rw [turn_more hk.1 hk.2.choose_spec] at hstop
        cases hstop
      · rw [Loop.visits_more hmore] at hd honce
        obtain ⟨hfirst, hrest'⟩ := List.pairwise_cons.mp honce
        rcases List.mem_cons.mp hd with rfl | hd
        · have hkeep := Loop.run_unchanged (fun s => s.tab k) (DefinesSlot k)
            (fun _ _ => turn_tab) hrest fun v hv => hfirst v hv k hk
          rw [hkeep, turn_defines hmore hk, Function.update_self]
        · exact ih hrest' hrest hd

end Turns

/-- The states in which the lines of a pass begin, and the one at the end. -/
def lines (second : Bool) (input : List Byte) (tab : Slot → Word) : List State :=
  (Loop.visits (turn second) (rounds input) (start input tab)).map State.atLine

/-- The two characters after the `:` of a label line. -/
def State.label? (s : State) : Option (List Byte) :=
  match s.rest with
  | b :: rest => if b = ch ':' then some (rest.take 2) else none
  | [] => none

/-- The labels that the lines of an input define, in order. -/
def labels (input : List Byte) : List (List Byte) :=
  (lines false input blank).filterMap State.label?

/-- Every label is a pair of printable characters and is defined once. -/
structure LabelsOnce (input : List Byte) : Prop where
  pairs : ∀ l ∈ labels input, ∃ c₁ c₂, l = [c₁, c₂] ∧ Printable c₁ ∧ Printable c₂
  once : (labels input).Nodup

/-- A round that defines an entry stands at a label line. -/
theorem DefinesSlot.line {k : Slot} {s : State} (h : DefinesSlot k s) :
    ∃ rest, s.atLine.rest = ch ':' :: rest ∧
      slotOf (symOffset (rest.getD 0 0) (rest.getD 1 0)) = some k := by
  obtain ⟨hne, c, hparse⟩ := h
  obtain ⟨b, rest, hrest⟩ := List.exists_cons_of_ne_nil hne
  rw [hrest, parseItem, run_peek_bind, List.getD_cons_zero] at hparse
  by_cases hcomment : b = ch '#'
  · rw [if_pos hcomment, skipLine, run_bind_ok (run_skipWhile _ _),
      run_bind_ok (run_advance 1 _), run_pure] at hparse
    cases hparse
  · rw [if_neg hcomment] at hparse
    by_cases hlabel : b = ch ':'
    · rw [if_pos hlabel, doLabel, run_bind_ok (run_advance 1 _), List.drop_succ_cons,
        List.drop_zero] at hparse
      obtain ⟨j, c', hslot, hpure⟩ := of_run_bind hparse
      cases hpure
      rw [symIdx, run_peek_bind, run_peek_bind, run_bind_ok (run_advance 2 _)] at hslot
      refine ⟨rest, by rw [hrest, hlabel], ?_⟩
      dsimp only at hslot
      cases hk : slotOf (symOffset (rest.getD 0 0) (rest.getD 1 0)) with
      | none =>
          rw [hk] at hslot
          cases hslot
      | some i =>
          rw [hk] at hslot
          cases hslot
          rfl
    · rw [if_neg hlabel] at hparse
      obtain ⟨code, c', -, hpure⟩ := of_run_bind hparse
      cases hpure

theorem definesSlot_of_label {c₁ c₂ : Byte} {k : Slot} {s : State}
    (h : s.atLine.label? = some [c₁, c₂]) (hk : slotOf (symOffset c₁ c₂) = some k) :
    DefinesSlot k s := by
  unfold State.label? at h
  split at h
  · rename_i b rest hrest
    split at h
    · rename_i hb
      obtain ⟨tail, htail⟩ : ∃ tail, rest = c₁ :: c₂ :: tail := by
        match rest, h with
        | d₁ :: d₂ :: tail, h =>
            simp only [List.take_succ_cons, List.take_zero, Option.some.injEq,
              List.cons.injEq, and_true] at h
            exact ⟨tail, by rw [h.1, h.2]⟩
      rw [hb, htail] at hrest
      refine ⟨by rw [hrest]; exact List.cons_ne_nil _ _, ⟨tail, false⟩, ?_⟩
      rw [hrest, parseItem, run_peek_bind, List.getD_cons_zero, if_neg (by decide),
        if_pos rfl, doLabel, run_bind_ok (run_advance 1 _), List.drop_succ_cons,
        List.drop_zero, run_bind_ok (symIdx_run hk), run_pure]
    · cases h
  · cases h

section Program

variable {input : List Byte}

theorem LabelsOnce.single {c₁ c₂ : Byte} (h : labels input = [[c₁, c₂]])
    (h₁ : Printable c₁) (h₂ : Printable c₂) : LabelsOnce input := by
  constructor
  · rw [h]
    intro l hl
    exact ⟨c₁, c₂, List.mem_singleton.mp hl, h₁, h₂⟩
  · rw [h]
    exact List.nodup_singleton _

theorem LabelsOnce.label (h : LabelsOnce input) {k : Slot} {u : State}
    (hu : u ∈ Loop.visits (turn false) (rounds input) (start input blank))
    (hk : DefinesSlot k u) :
    ∃ c₁ c₂, u.atLine.label? = some [c₁, c₂] ∧ Printable c₁ ∧ Printable c₂ ∧
      slotOf (symOffset c₁ c₂) = some k := by
  obtain ⟨rest, hrest, hslot⟩ := hk.line
  have hlabel : u.atLine.label? = some (rest.take 2) := by
    rw [State.label?, hrest]
    exact if_pos rfl
  have hmem : rest.take 2 ∈ labels input :=
    List.mem_filterMap.mpr ⟨u.atLine, List.mem_map_of_mem hu, hlabel⟩
  obtain ⟨c₁, c₂, hpair, h₁, h₂⟩ := h.pairs _ hmem
  rw [hpair] at hlabel
  refine ⟨c₁, c₂, hlabel, h₁, h₂, ?_⟩
  match rest, hpair with
  | e₁ :: e₂ :: tail, hpair =>
      simp only [List.take_succ_cons, List.take_zero, List.cons.injEq, and_true] at hpair
      rw [← hpair.1, ← hpair.2]
      exact hslot

/-- Two lines of a program with good labels do not define the same entry. -/
theorem LabelsOnce.slots (h : LabelsOnce input) :
    (Loop.visits (turn false) (rounds input) (start input blank)).Pairwise
      fun u v => ∀ k, DefinesSlot k u → ¬ DefinesSlot k v := by
  have hpair := List.pairwise_filterMap.mp (List.nodup_iff_pairwise_ne.mp h.once)
  rw [lines, List.pairwise_map] at hpair
  refine hpair.imp_of_mem ?_
  intro u v hu hv hne k hku hkv
  obtain ⟨c₁, c₂, hlabel, h₁, h₂, hslot⟩ := h.label hu hku
  obtain ⟨e₁, e₂, hlabel', h₁', h₂', hslot'⟩ := h.label hv hkv
  obtain ⟨rfl, rfl⟩ := slotOf_injective h₁ h₂ h₁' h₂' hslot hslot'
  exact hne _ hlabel _ hlabel' rfl

theorem visits_samePlace (tab : Slot → Word) :
    List.Forall₂ SamePlace (Loop.visits (turn false) (rounds input) (start input blank))
      (Loop.visits (turn true) (rounds input) (start input tab)) :=
  Loop.visits_lockstep (fun _ _ => turn_lockstep) ⟨rfl, rfl⟩

/-- The lines of the two passes begin at the same places. -/
theorem lines_samePlace (tab : Slot → Word) :
    List.Forall₂ SamePlace (lines false input blank) (lines true input tab) := by
  rw [lines, lines, List.forall₂_map_left_iff, List.forall₂_map_right_iff]
  exact (visits_samePlace tab).imp fun _ _ => SamePlace.atLine

theorem SamePlace.definesSlot {k : Slot} {s t : State} (h : SamePlace s t)
    (hk : DefinesSlot k t) : DefinesSlot k s := by
  obtain ⟨hne, c, hparse⟩ := hk
  rw [← h.atLine.1] at hne hparse
  exact ⟨hne, c, hparse⟩

theorem exists_mem_left {α β : Type} {R : α → β → Prop} {as : List α} {bs : List β} {b : β}
    (h : List.Forall₂ R as bs) (hb : b ∈ bs) : ∃ a ∈ as, R a b := by
  induction h with
  | nil => cases hb
  | cons hab _ ih =>
      rcases List.mem_cons.mp hb with rfl | hb
      · exact ⟨_, List.mem_cons_self, hab⟩
      · obtain ⟨a, ha, hr⟩ := ih hb
        exact ⟨a, List.mem_cons_of_mem _ ha, hr⟩

variable {first last : State} {out : List Byte}

/-- The second pass leaves the symbol table as the first made it. -/
theorem second_tab (h : LabelsOnce input) (hfirst : pass false input blank = .ok first) :
    ∀ v ∈ Loop.visits (turn true) (rounds input) (start input first.tab),
      v.tab = first.tab := by
  refine Loop.visits_invariant _ rfl ?_
  intro v hv v' hkeep hturn
  funext k
  by_cases hk : DefinesSlot k v
  · obtain ⟨u, hu, hplace⟩ := exists_mem_left (visits_samePlace first.tab) hv
    have htab := run_tab h.slots hfirst hu (hplace.definesSlot hk)
    rw [turn_defines hturn hk, Function.update_self, htab, hplace.2]
  · rw [turn_tab hturn hk, hkeep]

/-- What the second pass has written at a line is a prefix of its output, as long
as the position says. -/
theorem second_out (hlast : pass true input first.tab = .ok last) :
    ∀ v ∈ Loop.visits (turn true) (rounds input) (start input first.tab),
      v.out <+: last.out ∧ v.out.length = v.pos := by
  have hbelow := Loop.visits_below (R := fun s t => s.out <+: t.out)
    (fun _ => List.prefix_rfl) (fun _ _ _ => List.IsPrefix.trans)
    (fun _ _ h => (turn_out h).1) hlast
  have hlength : ∀ v ∈ Loop.visits (turn true) (rounds input) (start input first.tab),
      v.out.length = v.pos :=
    Loop.visits_invariant _ rfl fun _ _ _ hs hturn => (turn_out hturn).2 hs
  exact fun v hv => ⟨hbelow v hv, hlength v hv⟩

theorem take_drop_middle {α : Type} (a b c : List α) :
    ((a ++ b ++ c).drop a.length).take b.length = b := by
  rw [List.append_assoc, List.drop_left, List.take_left]

/-- The word that the second pass writes for a reference to a table entry. -/
theorem second_refer (hlast : pass true input first.tab = .ok last) {v : State}
    (hv : v ∈ Loop.visits (turn true) (rounds input) (start input first.tab))
    {form : RefForm} {k : Slot} {c : Cursor}
    (hparse : parseItem.run ⟨v.atLine.rest, false⟩ = .ok (.code (.refer form (.label k)), c)) :
    (last.out.drop v.pos).take 4 =
      wordBytes (form.word (v.tab k - BitVec.ofNat 32 v.pos)) := by
  have hne : v.atLine.rest ≠ [] := by
    intro hnil
    rw [hnil, parseItem_nil] at hparse
    cases hparse
  have hnext := Loop.next_mem_visits hlast hv (turn_more hne hparse)
  obtain ⟨suffix, hsuffix⟩ := (second_out hlast _ hnext).1
  have hlength := (second_out hlast v hv).2
  have hmid := take_drop_middle v.out
    (wordBytes (form.word (v.tab k - BitVec.ofNat 32 v.pos))) suffix
  rw [hlength] at hmid
  rw [← hsuffix, perform_code_out]
  exact hmid

theorem of_bind_ok {ε α β : Type} {m : Except ε α} {f : α → Except ε β} {b : β}
    (h : (m >>= f) = .ok b) : ∃ a, m = .ok a ∧ f a = .ok b := by
  cases m with
  | error e => cases h
  | ok a => exact ⟨a, rfl, h⟩

theorem assemble_passes (h : assemble input = .ok out) :
    ∃ first last, pass false input blank = .ok first ∧
      pass true input first.tab = .ok last ∧ last.out = out := by
  by_cases hfits : input.length < 0x4000000
  · rw [assemble, if_pos hfits] at h
    obtain ⟨first, hfirst, h⟩ := of_bind_ok h
    obtain ⟨last, hlast, h⟩ := of_bind_ok h
    cases h
    exact ⟨first, last, hfirst, hlast, rfl⟩
  · rw [assemble, if_neg hfits] at h
    cases h

/-- The lines of the two passes begin at the same places, the position at a line
of the second is the number of bytes written before it, and a reference to a
label is encoded with the distance to the definition, as far as the field of the
instruction reaches. -/
def PassesAgree (input out : List Byte) : Prop :=
  ∃ first last, pass false input blank = .ok first ∧
    pass true input first.tab = .ok last ∧ last.out = out ∧
    List.Forall₂ SamePlace (lines false input blank) (lines true input first.tab) ∧
    (∀ s ∈ lines true input first.tab, s.out <+: out ∧ s.out.length = s.pos) ∧
    ∀ d ∈ lines false input blank, ∀ s ∈ lines true input first.tab, ∀ c₁ c₂ form,
      d.label? = some [c₁, c₂] → RefersTo s.rest form c₁ c₂ →
        ∃ w, (out.drop s.pos).take 4 = wordBytes w ∧
          decode s.pos w form.cls =
            some (.refer form (s.pos + form.reach (d.pos - s.pos))) ∧
          (form.InReach (d.pos - s.pos) → decode s.pos w form.cls = some (.refer form d.pos))

/-- Both passes end, and on a program with good labels that is accepted they
agree. -/
theorem assemble_displacements (hlabels : LabelsOnce input) (h : assemble input = .ok out) :
    (∀ second tab, pass second input tab ≠ .error .running) ∧ PassesAgree input out := by
  refine ⟨fun second tab => pass_ne_running second input tab, ?_⟩
  obtain ⟨first, last, hfirst, hlast, rfl⟩ := assemble_passes h
  refine ⟨first, last, hfirst, hlast, rfl, lines_samePlace first.tab, ?_, ?_⟩
  · intro s hs
    obtain ⟨v, hv, rfl⟩ := List.mem_map.mp hs
    exact second_out hlast v hv
  · intro d hd s hs c₁ c₂ form hlabel hrefer
    obtain ⟨u, hu, rfl⟩ := List.mem_map.mp hd
    obtain ⟨v, hv, rfl⟩ := List.mem_map.mp hs
    obtain ⟨k, c, hslot, hparse⟩ := hrefer.parse
    -- The entry of the label holds where it was defined.
    have htab : v.tab k = BitVec.ofNat 32 u.pos := by
      rw [second_tab hlabels hfirst v hv]
      exact run_tab hlabels.slots hfirst hu (definesSlot_of_label hlabel hslot)
    have hdistance : BitVec.ofNat 32 u.pos - BitVec.ofNat 32 v.pos =
        BitVec.ofInt 32 (u.pos - v.pos) := by
      rw [ofInt_distance, BitVec.ofInt_natCast]
    obtain ⟨rest, hhead, -⟩ := hrefer
    have hword := refer_toNat hhead.reg_lt ((u.pos : ℤ) - v.pos)
    have hdecode : decode (v.pos : ℤ) _ form.cls = _ := decode_refer hhead.reg_lt hword
    refine ⟨_, second_refer hlast hv hparse, ?_⟩
    rw [htab, hdistance]
    refine ⟨hdecode, fun hreach => hdecode.trans ?_⟩
    have hreach : form.InReach ((u.pos : ℤ) - v.pos) := hreach
    rw [A64.Ref.reach_of_inReach hreach, add_sub_cancel]
    rfl

/-- `b aa`, `.byte 7`, `adr x1 aa` and `:aa`. -/
def crossing : List Byte :=
  text ['b', ' ', 'a', 'a', '\n', '.', 'b', 'y', 't', 'e', ' ', '7', '\n',
    'a', 'd', 'r', ' ', 'x', '1', ' ', 'a', 'a', '\n', ':', 'a', 'a', '\n']

def crossingCode : List Byte := [0x02, 0x00, 0x00, 0x14, 0x07, 0x21, 0x00, 0x00, 0x10]

theorem assemble_displacements_crossing :
    LabelsOnce crossing ∧ assemble crossing = .ok crossingCode ∧
      (∀ second tab, pass second crossing tab ≠ .error .running) ∧
      PassesAgree crossing crossingCode := by
  have hlabels : LabelsOnce crossing :=
    .single (show labels crossing = [[ch 'a', ch 'a']] by decide) (by decide) (by decide)
  have hacc : assemble crossing = .ok crossingCode := by decide
  exact ⟨hlabels, hacc, assemble_displacements hlabels hacc⟩

/-- `:@5` and `b @5`: the reference reads as the position 5. -/
def atDigit : List Byte := text [':', '@', '5', '\n', 'b', ' ', '@', '5', '\n']

/-- `b aa`, `.byte 0` and `:aa`: the label is not at a word. -/
def oddLabel : List Byte :=
  text ['b', ' ', 'a', 'a', '\n', '.', 'b', 'y', 't', 'e', ' ', '0', '\n', ':', 'a', 'a', '\n']

/-- Programs with good labels in which a reference to the label defined at `d`
is encoded with another target. -/
def Misses (input line label : List Byte) (target : ℤ) : Prop :=
  LabelsOnce input ∧ ∃ d ∈ lines false input blank, ∃ s ∈ lines false input blank,
    d.label? = some label ∧ s.rest = line ∧ (d.pos : ℤ) ≠ target ∧
      ∃ w out, assemble input = .ok out ∧ (out.drop s.pos).take 4 = wordBytes w ∧
        decode s.pos w (.b false) = some (.refer (.b false) target)

theorem references_miss :
    Misses atDigit (text ['b', ' ', '@', '5', '\n']) (text ['@', '5']) 4 ∧
      Misses oddLabel oddLabel (text ['a', 'a']) 4 := by
  have hat : labels atDigit = [[ch '@', ch '5']] := by decide
  have hodd : labels oddLabel = [[ch 'a', ch 'a']] := by decide
  refine ⟨⟨.single hat (by decide) (by decide), ?_⟩, ⟨.single hodd (by decide) (by decide), ?_⟩⟩
  · refine ⟨(lines false atDigit blank).get ⟨0, by decide⟩, List.get_mem _ _,
      (lines false atDigit blank).get ⟨1, by decide⟩, List.get_mem _ _, by decide, by decide,
      by decide, 0x14000001, wordBytes 0x14000001, by decide, by decide,
      by decide⟩
  · refine ⟨(lines false oddLabel blank).get ⟨2, by decide⟩, List.get_mem _ _,
      (lines false oddLabel blank).get ⟨0, by decide⟩, List.get_mem _ _, by decide, by decide,
      by decide, 0x14000001, wordBytes 0x14000001 ++ [0], by decide, by decide,
      by decide⟩

end Program

end Veron.SelfAssembler
