/-
Whatever the compositor sends, every request veron-lock makes while it runs is in
order; what is left is the one with which it ends.
-/
import Veron.SessionLockSafe

namespace Veron.SessionLock

open History

variable {st : State}

/-- An output for a slot that is free. -/
theorem Slots.place {outputs : Fin MAX_OUTPUTS → LockOutput} {n n' k : ℕ} {past : List Item}
    (h : Slots outputs n k past) {i : Fin MAX_OUTPUTS} {name : UInt32}
    (hfree : (outputs i).output = false) (hi : i.val < n') (hn : n ≤ n')
    (hname : ∀ j, (outputs j).output = true → (outputs j).name ≠ name) :
    Slots (Function.update outputs i { outputs i with name := name, output := true }) n' k
      past := by
  have hsurface := update_field outputs i { outputs i with name := name, output := true }
    LockOutput.lockSurface rfl
  have hbuffer := update_field outputs i { outputs i with name := name, output := true }
    LockOutput.buffer rfl
  have hwidth := update_field outputs i { outputs i with name := name, output := true }
    LockOutput.width rfl
  have hheight := update_field outputs i { outputs i with name := name, output := true }
    LockOutput.height rfl
  have hcairo := update_field outputs i { outputs i with name := name, output := true }
    LockOutput.cairo rfl
  have hother : ∀ j, j ≠ i → Function.update outputs i
      { outputs i with name := name, output := true } j = outputs j :=
    fun j hj => Function.update_of_ne hj _ _
  have hself := Function.update_self i { outputs i with name := name, output := true } outputs
  generalize Function.update outputs i { outputs i with name := name, output := true } = placed
    at *
  refine ⟨?_, ?_, ?_, ?_, ?_, ?_, ?_, ?_⟩
  · intro j hj
    have hji : j ≠ i := fun hji => by rw [hji, hself] at hj; cases hj
    rw [hother j hji] at hj ⊢
    exact h.unused j hj
  · intro j hj
    have hji : j ≠ i := fun hji => by rw [hji] at hj; omega
    rw [hother j hji]
    exact h.beyond j (hn.trans hj)
  · intro a b ha hb hab
    by_cases hai : a = i
    · by_cases hbi : b = i
      · exact hai.trans hbi.symm
      · rw [hother b hbi] at hb hab
        rw [hai, hself] at hab
        exact absurd hab.symm (hname b hb)
    · rw [hother a hai] at ha hab
      by_cases hbi : b = i
      · rw [hbi, hself] at hab
        exact absurd hab (hname a ha)
      · rw [hother b hbi] at hb hab
        exact h.names a b ha hb hab
  · simpa only [hsurface] using h.older
  · simpa only [hsurface] using h.apart
  · intro p hp
    obtain ⟨j, hoj, hnj, hsj⟩ := h.held p hp
    have hji : j ≠ i := fun hji => by rw [hji, hfree] at hoj; cases hoj
    exact ⟨j, by rw [hother j hji]; exact ⟨hoj, hnj, hsj⟩⟩
  · intro j hj
    have hshows := h.shows j (hcairo j ▸ hj)
    rw [Shows] at hshows ⊢
    rw [hbuffer, hsurface]
    exact hshows
  · simpa only [hbuffer, hwidth, hheight] using h.sized

/-- A slot that is given out is free, and counts as in use from then on. -/
theorem slotFor_free (h : Good st) {i : Fin MAX_OUTPUTS} {n : ℕ}
    (hslot : slotFor st = some (i, n)) :
    (st.outputs i).output = false ∧ i.val < n ∧ st.nOutputs ≤ n := by
  rw [slotFor] at hslot
  split at hslot
  · rename_i k hfind
    cases hslot
    have hk := List.find?_some hfind
    simp only [Bool.and_eq_true, decide_eq_true_eq, Bool.not_eq_true'] at hk
    exact ⟨hk.2, hk.1, le_rfl⟩
  · split at hslot
    · cases hslot
      exact ⟨h.slots.beyond _ le_rfl, Nat.lt_succ_self _, Nat.le_succ _⟩
    · cases hslot

/-- The names of outputs that are there are not given out again. -/
theorem regGlobal_good (h : Good st) (hlive : Live st) (g : Global)
    (hfresh : ∀ name, g = .output name → name ∉ liveOutputs st.past) :
    Good (regGlobal st g) ∧ Live (regGlobal st g) := by
  cases g with
  | compositor => exact ⟨⟨h.slots, h.tells, h.lawful⟩, hlive⟩
  | shm => exact ⟨⟨h.slots, h.tells, h.lawful⟩, hlive⟩
  | seat => exact ⟨h, hlive⟩
  | lockManager => exact ⟨⟨h.slots, h.tells, h.lawful⟩, hlive⟩
  | other => exact ⟨h, hlive⟩
  | output name =>
      have hheard : Good (st.emit (.output name)) :=
        ⟨h.slots.mono rfl fun _ => rfl, h.tells.mono rfl (by simp), trivial, h.lawful⟩
      have hthere : Live (st.emit (.output name)) := fun i hi =>
        List.mem_cons_of_mem name (hlive i hi)
      rw [regGlobal]
      dsimp only
      split
      · exact ⟨hheard, hthere⟩
      · rename_i i n hslot
        obtain ⟨hfree, hi, hn⟩ := slotFor_free hheard hslot
        have hother : ∀ j, (st.outputs j).output = true → (st.outputs j).name ≠ name := by
          rintro j hj rfl
          exact hfresh _ rfl (hlive j hj)
        have hplaced : Good { (st.emit (.output name)).setOutput i
            { (st.emit (.output name)).outputs i with name := name, output := true } with
              nOutputs := n } :=
          ⟨hheard.slots.place hfree hi hn hother, hheard.tells, hheard.lawful⟩
        have hnow : Live { (st.emit (.output name)).setOutput i
            { (st.emit (.output name)).outputs i with name := name, output := true } with
              nOutputs := n } := by
          intro j hj
          by_cases hji : j = i
          · subst hji
            simp [State.setOutput, State.emit, liveOutputs]
          · simp only [State.setOutput, Function.update_of_ne hji] at hj ⊢
            exact hthere j hj
        exact ⟨outputAttach_good hplaced hnow i, outputAttach_live hnow i⟩

section Removal

variable (name : UInt32)

/-- One turn of `reg_remove`. -/
def removeAt (st : State) (i : Fin MAX_OUTPUTS) : State :=
  if i.val < st.nOutputs ∧ (st.outputs i).output ∧ (st.outputs i).name = name then
    outputTeardown st i
  else st

theorem regRemove_eq (st : State) :
    regRemove st name =
      (List.finRange MAX_OUTPUTS).foldl (removeAt name) (st.emit (.removed name)) := rfl

theorem removeAt_nOutputs (st : State) (i : Fin MAX_OUTPUTS) :
    (removeAt name st i).nOutputs = st.nOutputs := by
  rw [removeAt]
  split
  · exact outputTeardown_nOutputs st i
  · rfl

theorem removeAt_live (st : State) (i : Fin MAX_OUTPUTS) :
    liveOutputs (removeAt name st i).past = liveOutputs st.past := by
  rw [removeAt]
  split
  · exact outputTeardown_live st i
  · rfl

/-- A slot is left alone or emptied. -/
theorem removeAt_kept (st : State) (i j : Fin MAX_OUTPUTS)
    (hj : ((removeAt name st i).outputs j).output = true) :
    (removeAt name st i).outputs j = st.outputs j := by
  rw [removeAt] at hj ⊢
  split
  · rename_i hcond
    rw [if_pos hcond, outputTeardown_outputs] at hj
    rw [outputTeardown_outputs]
    by_cases hji : j = i
    · subst hji
      rw [Function.update_self] at hj
      cases hj
    · exact Function.update_of_ne hji _ _
  · rfl

/-- No slot that has had its turn is in use for the output any more. -/
theorem removeAt_gone (st : State) (i : Fin MAX_OUTPUTS) (hi : i.val < st.nOutputs)
    (ho : ((removeAt name st i).outputs i).output = true) :
    ((removeAt name st i).outputs i).name ≠ name := by
  have hkept := removeAt_kept name st i i ho
  intro hname
  rw [hkept] at hname
  have hout : (st.outputs i).output = true := hkept ▸ ho
  rw [removeAt, if_pos ⟨hi, hout, hname⟩, outputTeardown_outputs, Function.update_self] at ho
  cases ho

theorem removeAt_good (h : Good st) (i : Fin MAX_OUTPUTS) : Good (removeAt name st i) := by
  rw [removeAt]
  split
  · exact outputTeardown_good h i
  · exact h

/-- What the turns for some slots leave. -/
structure Removed (l : List (Fin MAX_OUTPUTS)) (st st' : State) : Prop where
  good : Good st'
  nOutputs : st'.nOutputs = st.nOutputs
  live : liveOutputs st'.past = liveOutputs st.past
  kept : ∀ j, (st'.outputs j).output = true → st'.outputs j = st.outputs j
  gone : ∀ i ∈ l, i.val < st.nOutputs → (st'.outputs i).output = true →
    (st'.outputs i).name ≠ name

theorem removed (h : Good st) (l : List (Fin MAX_OUTPUTS)) :
    Removed name l st (l.foldl (removeAt name) st) := by
  induction l generalizing st with
  | nil => exact ⟨h, rfl, rfl, fun _ _ => rfl, by simp⟩
  | cons i l ih =>
      have hrest := ih (removeAt_good name h i)
      rw [List.foldl_cons]
      refine ⟨hrest.good, hrest.nOutputs.trans (removeAt_nOutputs name st i),
        hrest.live.trans (removeAt_live name st i), fun j hj => ?_, fun j hj hjn ho => ?_⟩
      · have hkept := hrest.kept j hj
        rw [hkept] at hj ⊢
        exact removeAt_kept name st i j hj
      · rcases List.mem_cons.mp hj with rfl | hj
        · have hkept := hrest.kept j ho
          rw [hkept] at ho ⊢
          exact removeAt_gone name st j hjn ho
        · exact hrest.gone j hj (by rwa [removeAt_nOutputs]) ho

/-- With every slot done, the ones in use are for outputs that are still there. -/
theorem Removed.live_all {st' : State} (hlive : Live st) (h : Good st)
    (hremoved : Removed name (List.finRange MAX_OUTPUTS) (st.emit (.removed name)) st') :
    Live st' := by
  intro i hi
  have hkept := hremoved.kept i hi
  have hlt : i.val < st.nOutputs := by
    by_contra hge
    have hbeyond : (st.outputs i).output = false := h.slots.beyond i (not_lt.mp hge)
    rw [hkept] at hi
    exact absurd hi (by simp [State.emit, hbeyond])
  have hne := hremoved.gone i (List.mem_finRange i) hlt hi
  rw [hremoved.live]
  rw [hkept] at hi hne ⊢
  exact List.mem_filter.mpr ⟨hlive i hi, by simpa using hne⟩

theorem regRemove_good (h : Good st) (hlive : Live st) :
    Good (regRemove st name) ∧ Live (regRemove st name) := by
  have hheard : Good (st.emit (.removed name)) :=
    ⟨h.slots.mono rfl fun _ => rfl, h.tells.mono rfl (by simp), trivial, h.lawful⟩
  have hremoved := removed name hheard (List.finRange MAX_OUTPUTS)
  rw [← regRemove_eq] at hremoved
  exact ⟨hremoved.good, hremoved.live_all name hlive h⟩

end Removal

section Keys

/-- A key that is pressed adds to what has been typed as the entry does. -/
theorem Good.pressed (h : Good st) (press : Press) {entry : List UInt8}
    (hentry : typed (.pressed press :: st.past) = entry) (failedAttempt : Bool) :
    Good { st.emit (.pressed press) with entry := entry, failedAttempt := failedAttempt } := by
  refine ⟨h.slots.mono rfl fun _ => rfl, ⟨hentry, ?_, fun hu => ?_⟩, trivial, h.lawful⟩
  · show st.lockedOk = true ↔ .locked ∈ .pressed press :: st.past
    simpa using h.tells.locked
  · obtain ⟨x, hx, haccepts⟩ := h.tells.accepted hu
    exact ⟨x, List.mem_cons_of_mem _ hx, haccepts⟩

/-- Verification takes what has been typed. -/
theorem Good.verified (h : Good st) (ok unlocking running failedAttempt : Bool)
    (hu : unlocking = true → st.unlocking = true ∨ ok = true) :
    Good { st.emit (.verify st.entry ok) with
      entry := [], checking := false, unlocking := unlocking, running := running,
      failedAttempt := failedAttempt } := by
  refine ⟨h.slots.mono rfl fun _ => rfl, ⟨rfl, ?_, fun hunlocking => ?_⟩, h.tells.entry.symm,
    h.lawful⟩
  · show st.lockedOk = true ↔ .locked ∈ .verify st.entry ok :: st.past
    simpa using h.tells.locked
  · rcases hu hunlocking with hbefore | rfl
    · obtain ⟨x, hx, haccepts⟩ := h.tells.accepted hbefore
      exact ⟨x, List.mem_cons_of_mem _ hx, haccepts⟩
    · exact ⟨_, List.mem_cons_self, rfl⟩

theorem tryUnlock_good (h : Good st) (ok : Bool) : Good (tryUnlock st ok) := by
  have hchecking : Good { st with checking := true } := ⟨h.slots, h.tells, h.lawful⟩
  have hdrawn := drawAll_good hchecking
  rw [tryUnlock]
  dsimp only
  generalize drawAll { st with checking := true } = drawn at hdrawn ⊢
  split
  · rename_i hok
    exact hdrawn.verified ok true false drawn.failedAttempt fun _ => .inr hok
  · exact drawAll_good (hdrawn.verified ok drawn.unlocking drawn.running true .inl)

theorem kbKey_good (h : Good st) (down : Bool) (press : Press) : Good (kbKey st down press) := by
  rw [kbKey]
  split
  · exact h
  · cases press with
    | enter ok =>
        exact tryUnlock_good (h.pressed (.enter ok) h.tells.entry st.failedAttempt) ok
    | backspace =>
        exact drawAll_good (h.pressed .backspace (congrArg List.dropLast h.tells.entry) false)
    | escape => exact drawAll_good (h.pressed .escape rfl false)
    | text utf8 =>
        have htyped : typed (.pressed (.text utf8) :: st.past) =
            if 0 < utf8.length ∧ st.entry.length + utf8.length < MAX_ENTRY - 1 then
              st.entry ++ utf8
            else st.entry := by rw [typed, h.tells.entry]
        dsimp only
        split
        · rename_i hroom
          exact drawAll_good (h.pressed (.text utf8) (htyped.trans (if_pos hroom)) false)
        · rename_i hroom
          exact h.pressed (.text utf8) (htyped.trans (if_neg hroom)) st.failedAttempt

theorem kbEnter_good (h : Good st) : Good (kbEnter st) := by
  rw [kbEnter]
  split
  · exact drawAll_good ⟨h.slots, h.tells, h.lawful⟩
  · exact h

end Keys

section Frames

/-- The slots stand for the same outputs as before, and so they should. -/
structure Keeps (st st' : State) : Prop where
  output : ∀ j, (st'.outputs j).output = (st.outputs j).output
  name : ∀ j, (st'.outputs j).name = (st.outputs j).name
  live : liveOutputs st'.past = liveOutputs st.past

theorem Keeps.trans {a b c : State} (hab : Keeps a b) (hbc : Keeps b c) : Keeps a c :=
  ⟨fun j => (hbc.output j).trans (hab.output j), fun j => (hbc.name j).trans (hab.name j),
    hbc.live.trans hab.live⟩

theorem Keeps.same {a b : State} (houtputs : b.outputs = a.outputs) (hpast : b.past = a.past) :
    Keeps a b :=
  ⟨fun j => by rw [houtputs], fun j => by rw [houtputs], by rw [hpast]⟩

theorem Live.keeps {st' : State} (h : Live st) (hkeeps : Keeps st st') : Live st' := by
  intro j hj
  rw [hkeeps.name, hkeeps.live]
  exact h j (hkeeps.output j ▸ hj)

theorem after_keeps (st : State) {recent : List Item}
    (hrecent : ∀ x ∈ recent, Draws st.outputs x) : Keeps st (st.after recent) :=
  ⟨fun _ => rfl, fun _ => rfl, liveOutputs_commits fun x hx => (hrecent x hx).isCommit⟩

theorem drawAll_keeps (st : State) : Keeps st (drawAll st) := by
  obtain ⟨recent, heq, hrecent⟩ := drawAll_eq st
  exact heq ▸ after_keeps st hrecent

theorem surfaceConfigure_keeps (st : State) (i : Fin MAX_OUTPUTS) (s : ℕ)
    (serial width height : UInt32) (memory : Memory) :
    Keeps st (surfaceConfigure st i s serial width height memory) := by
  obtain ⟨hname, houtput, -⟩ :=
    outputAlloc_same (st.outputs i) width.toInt32 height.toInt32 memory
  have hset : ∀ configured, Keeps st ((st.emit (.ackConfigure s serial width height)).setOutput i
      { (outputAlloc (st.outputs i) width.toInt32 height.toInt32 memory).1 with
        configured := configured }) := fun configured =>
    ⟨update_field st.outputs i _ LockOutput.output houtput,
      update_field st.outputs i _ LockOutput.name hname, rfl⟩
  have hdraw := draw_eq ((st.emit (.ackConfigure s serial width height)).setOutput i
    { (outputAlloc (st.outputs i) width.toInt32 height.toInt32 memory).1 with
      configured := true }) i
  obtain ⟨recent, hdraw, hrecent⟩ := hdraw
  have hdrawn := (hset true).trans (after_keeps _ hrecent)
  rw [← hdraw, State.setOutput_outputs, Function.update_self] at hdrawn
  rw [surfaceConfigure]
  dsimp only
  split
  · exact hdrawn
  · exact hset _

theorem tryUnlock_keeps (st : State) (ok : Bool) : Keeps st (tryUnlock st ok) := by
  have hchecking : Keeps st { st with checking := true } := .same rfl rfl
  have hdrawn := hchecking.trans (drawAll_keeps _)
  rw [tryUnlock]
  dsimp only
  generalize drawAll { st with checking := true } = drawn at hdrawn ⊢
  split
  · exact ⟨hdrawn.output, hdrawn.name, hdrawn.live⟩
  · refine Keeps.trans ?_ (drawAll_keeps _)
    exact ⟨hdrawn.output, hdrawn.name, hdrawn.live⟩

theorem kbKey_keeps (st : State) (down : Bool) (press : Press) :
    Keeps st (kbKey st down press) := by
  have hpressed : ∀ entry failedAttempt, Keeps st { st.emit (.pressed press) with
      entry := entry, failedAttempt := failedAttempt } := fun _ _ =>
    ⟨fun _ => rfl, fun _ => rfl, rfl⟩
  rw [kbKey]
  split
  · exact .same rfl rfl
  · cases press with
    | enter ok => exact (hpressed st.entry st.failedAttempt).trans (tryUnlock_keeps _ ok)
    | backspace => exact (hpressed st.entry.dropLast false).trans (drawAll_keeps _)
    | escape => exact (hpressed [] false).trans (drawAll_keeps _)
    | text utf8 =>
        dsimp only
        split
        · exact (hpressed (st.entry ++ utf8) false).trans (drawAll_keeps _)
        · exact hpressed st.entry st.failedAttempt

theorem kbEnter_keeps (st : State) : Keeps st (kbEnter st) := by
  rw [kbEnter]
  split
  · have hcleared : Keeps st { st with failedAttempt := false } := .same rfl rfl
    exact hcleared.trans (drawAll_keeps _)
  · exact .same rfl rfl

end Frames

/-- An announced output is not one that is there already. -/
def Event.Fresh (st : State) (e : Event) : Prop :=
  ∀ name, e = .global (.output name) → name ∉ liveOutputs st.past

theorem find_surface {st : State} {s : ℕ} {i : Fin MAX_OUTPUTS}
    (h : (List.finRange MAX_OUTPUTS).find? (fun i => (st.outputs i).lockSurface = some s) =
      some i) :
    (st.outputs i).lockSurface = some s := by
  simpa using List.find?_some h

theorem handle_good (h : Good st) (hlive : Live st) (e : Event) (hfresh : e.Fresh st) :
    Good (handle st e) ∧ Live (handle st e) := by
  cases e with
  | global g => exact regGlobal_good h hlive g fun name hg => hfresh name (by rw [hg])
  | globalRemove name => exact regRemove_good name h hlive
  | capabilities keyboard => exact ⟨⟨h.slots, h.tells, h.lawful⟩, hlive⟩
  | keymap readable compiled =>
      rw [handle]
      split
      · rw [kbKeymap]
        split
        · exact ⟨⟨h.slots, h.tells, h.lawful⟩, hlive⟩
        · exact ⟨h, hlive⟩
      · exact ⟨h, hlive⟩
  | focus =>
      rw [handle]
      split
      · exact ⟨kbEnter_good h, hlive.keeps (kbEnter_keeps st)⟩
      · exact ⟨h, hlive⟩
  | key down press =>
      rw [handle]
      split
      · exact ⟨kbKey_good h down press, hlive.keeps (kbKey_keeps st down press)⟩
      · exact ⟨h, hlive⟩
  | configure s serial width height memory =>
      rw [handle]
      split
      · rename_i i hfind
        exact ⟨surfaceConfigure_good h (find_surface hfind) serial width height memory,
          hlive.keeps (surfaceConfigure_keeps st i s serial width height memory)⟩
      · exact ⟨h, hlive⟩
  | locked =>
      rw [handle]
      split
      · refine ⟨⟨h.slots.mono rfl fun _ => rfl, ⟨h.tells.entry, ?_, fun hu => ?_⟩, trivial,
          h.lawful⟩, hlive⟩
        · exact iff_of_true rfl List.mem_cons_self
        · obtain ⟨x, hx, haccepts⟩ := h.tells.accepted hu
          exact ⟨x, List.mem_cons_of_mem _ hx, haccepts⟩
      · exact ⟨h, hlive⟩
  | finished =>
      rw [handle]
      split
      · exact ⟨⟨h.slots.mono rfl fun _ => rfl, h.tells.mono rfl (by simp), trivial, h.lawful⟩,
          hlive⟩
      · exact ⟨h, hlive⟩

end Veron.SessionLock
