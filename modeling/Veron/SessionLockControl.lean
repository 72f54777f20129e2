/-
What decides how long the loop of veron-lock runs and how the process ends, and
what whole runs keep.
-/
import Veron.SessionLockRun

namespace Veron.SessionLock

open History

variable {st : State}

attribute [local simp] Item.closes

/-- Whether there is a keyboard, and whether there is a keymap. -/
structure Keys where
  keyboard : Bool
  xkbSt : Bool
deriving DecidableEq

def Keys.after (k : Keys) : Event → Keys
  | .capabilities keyboard => { k with keyboard := keyboard }
  | .keymap true compiled => if k.keyboard then { k with xkbSt := compiled } else k
  | _ => k

/-- An Enter that reaches the process, and to which `veron_verify` says yes. -/
def Keys.accepts (k : Keys) : Event → Bool
  | .key true (.enter true) => k.keyboard && k.xkbSt
  | _ => false

def Keys.acceptsIn : Keys → List Event → Bool
  | _, [] => false
  | k, e :: es => k.accepts e || (k.after e).acceptsIn es

def Event.announces : Event → Bool
  | .global (.output _) => true
  | _ => false

/-- The variables that decide how long the loop runs and how the process ends. -/
structure Control where
  compositor : Bool
  shm : Bool
  lockManager : Bool
  hasOutputs : Bool
  sessionLock : Bool
  keys : Keys
  lockedOk : Bool
  finished : Bool
  running : Bool
  unlocking : Bool
deriving DecidableEq

def State.control (st : State) : Control where
  compositor := st.compositor
  shm := st.shm
  lockManager := st.lockManager
  hasOutputs := 0 < st.nOutputs
  sessionLock := st.sessionLock
  keys := ⟨st.keyboard, st.xkbSt⟩
  lockedOk := st.lockedOk
  finished := st.finished
  running := st.running
  unlocking := st.unlocking

def Control.after (c : Control) (e : Event) : Control where
  compositor := c.compositor || e = .global .compositor
  shm := c.shm || e = .global .shm
  lockManager := c.lockManager || e = .global .lockManager
  hasOutputs := c.hasOutputs || e.announces
  sessionLock := c.sessionLock
  keys := c.keys.after e
  lockedOk := c.lockedOk || (c.sessionLock && e = .locked)
  finished := c.finished || (c.sessionLock && e = .finished)
  running := c.running && !(c.sessionLock && e = .finished) && !c.keys.accepts e
  unlocking := c.unlocking || c.keys.accepts e

/-- Events that are none of these change none of this. -/
theorem Control.after_other (c : Control) {e : Event} (hglobal : ∀ g, e ≠ .global g)
    (hkeys : c.keys.after e = c.keys) (haccepts : c.keys.accepts e = false)
    (hlocked : e ≠ .locked) (hfinished : e ≠ .finished) : c.after e = c := by
  have hannounces : e.announces = false := by
    cases e with
    | global g => exact absurd rfl (hglobal g)
    | _ => rfl
  simp [Control.after, hglobal, hkeys, haccepts, hlocked, hfinished, hannounces]

/-- The history grows, and not by the last request. -/
structure Extends (st st' : State) : Prop where
  suffix : st.past <:+ st'.past
  closes : ∀ x ∈ st'.past, x.closes = true → x ∈ st.past

theorem Extends.refl (st : State) : Extends st st := ⟨List.suffix_refl _, fun _ hx _ => hx⟩

theorem Extends.trans {a b c : State} (hab : Extends a b) (hbc : Extends b c) : Extends a c :=
  ⟨hab.suffix.trans hbc.suffix, fun x hx hcloses => hab.closes x (hbc.closes x hx hcloses) hcloses⟩

theorem Extends.append {st' : State} (recent : List Item) (hpast : st'.past = recent ++ st.past)
    (hrecent : ∀ x ∈ recent, x.closes = false) : Extends st st' := by
  refine ⟨⟨recent, hpast.symm⟩, fun x hx hcloses => ?_⟩
  rw [hpast] at hx
  rcases List.mem_append.mp hx with hx | hx
  · rw [hrecent x hx] at hcloses
    cases hcloses
  · exact hx

theorem after_extends (st : State) {recent : List Item} {outputs : Fin MAX_OUTPUTS → LockOutput}
    (hrecent : ∀ x ∈ recent, Draws outputs x) : Extends st (st.after recent) := by
  refine .append recent rfl fun x hx => ?_
  obtain ⟨i, picture, -, rfl⟩ := hrecent x hx
  rfl

/-- A part of a handler that leaves the loop and its end alone. -/
structure Quiet (st st' : State) : Prop where
  control : st'.control = st.control
  extends_past : Extends st st'

theorem Quiet.trans {a b c : State} (hab : Quiet a b) (hbc : Quiet b c) : Quiet a c :=
  ⟨hbc.control.trans hab.control, hab.extends_past.trans hbc.extends_past⟩

theorem drawAll_quiet (st : State) : Quiet st (drawAll st) := by
  obtain ⟨recent, heq, hrecent⟩ := drawAll_eq st
  rw [heq]
  exact ⟨rfl, after_extends st hrecent⟩

theorem outputTeardown_quiet (st : State) (i : Fin MAX_OUTPUTS) :
    Quiet st (outputTeardown st i) := by
  rw [outputTeardown]
  cases (st.outputs i).lockSurface with
  | none => exact ⟨rfl, .append [] rfl (by simp)⟩
  | some s => exact ⟨rfl, .append [.destroyLockSurface s] rfl (by simp [Item.closes])⟩

theorem outputAttach_quiet (st : State) (i : Fin MAX_OUTPUTS) : Quiet st (outputAttach st i) := by
  rw [outputAttach]
  dsimp only
  split
  · exact ⟨rfl, .refl st⟩
  · exact ⟨rfl, .append [.getLockSurface _ _] rfl (by simp [Item.closes])⟩

theorem draw_quiet (st : State) (o : LockOutput) : Quiet st (draw st o) := by
  rw [draw]
  split
  · exact ⟨rfl, .append [.commit _ _ _] rfl (by simp [Item.closes])⟩
  · exact ⟨rfl, .refl st⟩

theorem surfaceConfigure_quiet (st : State) (i : Fin MAX_OUTPUTS) (s : ℕ)
    (serial width height : UInt32) (memory : Memory) :
    Quiet st (surfaceConfigure st i s serial width height memory) := by
  have hset : ∀ o, Quiet st ((st.emit (.ackConfigure s serial width height)).setOutput i o) :=
    fun o => ⟨rfl, .append [.ackConfigure s serial width height] rfl (by simp [Item.closes])⟩
  rw [surfaceConfigure]
  dsimp only
  split
  · exact (hset _).trans (draw_quiet _ _)
  · exact hset _

theorem regRemove_quiet (st : State) (name : UInt32) : Quiet st (regRemove st name) := by
  have hheard : Quiet st (st.emit (.removed name)) :=
    ⟨rfl, .append [.removed name] rfl (by simp [Item.closes])⟩
  rw [regRemove_eq]
  refine hheard.trans ?_
  generalize st.emit (.removed name) = st'
  induction List.finRange MAX_OUTPUTS generalizing st' with
  | nil => exact ⟨rfl, .refl st'⟩
  | cons i l ih =>
      rw [List.foldl_cons]
      refine Quiet.trans ?_ (ih _)
      rw [removeAt]
      split
      · exact outputTeardown_quiet st' i
      · exact ⟨rfl, .refl st'⟩

theorem regGlobal_extends (st : State) (g : Global) : Extends st (regGlobal st g) := by
  cases g with
  | output name =>
      have hheard : Extends st (st.emit (.output name)) :=
        .append [.output name] rfl (by simp [Item.closes])
      rw [regGlobal]
      dsimp only
      split
      · exact hheard
      · refine (hheard.trans ?_).trans (outputAttach_quiet _ _).extends_past
        exact .append [] rfl (by simp)
  | _ => exact .append [] rfl (by simp)

theorem slotFor_pos {i : Fin MAX_OUTPUTS} {n : ℕ} (h : slotFor st = some (i, n)) : 0 < n := by
  rw [slotFor] at h
  split at h
  · rename_i k hfind
    cases h
    have hk := List.find?_some hfind
    simp only [Bool.and_eq_true, decide_eq_true_eq] at hk
    exact Nat.zero_lt_of_lt hk.1
  · split at h
    · cases h
      exact Nat.succ_pos _
    · cases h

/-- Only a full table has no slot to give. -/
theorem slotFor_full (h : slotFor st = none) : 0 < st.nOutputs := by
  rw [slotFor] at h
  split at h
  · cases h
  · split at h
    · cases h
    · rename_i hfull
      exact Nat.lt_of_lt_of_le (by decide) (not_lt.mp hfull)

theorem regGlobal_control (st : State) (g : Global) :
    (regGlobal st g).control = st.control.after (.global g) := by
  cases g with
  | output name =>
      rw [regGlobal]
      dsimp only
      split
      · rename_i hfull
        have hpos : 0 < st.nOutputs := slotFor_full hfull
        simp [State.control, Control.after, Keys.after, Keys.accepts, Event.announces, State.emit,
          hpos]
      · rename_i i n hslot
        rw [(outputAttach_quiet _ _).control]
        simp [State.control, Control.after, Keys.after, Keys.accepts, Event.announces,
          State.setOutput, State.emit, slotFor_pos hslot]
  | _ =>
      simp [State.control, Control.after, Keys.after, Keys.accepts, Event.announces, regGlobal]
      rfl

/-- Verification ends the loop when the answer is yes. -/
theorem tryUnlock_control (st : State) (ok : Bool) :
    (tryUnlock st ok).control =
      if ok then { st.control with unlocking := true, running := false } else st.control := by
  have hdrawn : (drawAll { st with checking := true }).control = st.control :=
    (drawAll_quiet { st with checking := true }).control
  rw [tryUnlock]
  dsimp only
  generalize drawAll { st with checking := true } = drawn at hdrawn ⊢
  split
  · rw [← hdrawn]
    rfl
  · rw [(drawAll_quiet _).control, ← hdrawn]
    rfl

theorem tryUnlock_extends (st : State) (ok : Bool) : Extends st (tryUnlock st ok) := by
  have hdrawn : Extends st (drawAll { st with checking := true }) :=
    ⟨(drawAll_quiet { st with checking := true }).extends_past.suffix,
      (drawAll_quiet { st with checking := true }).extends_past.closes⟩
  rw [tryUnlock]
  dsimp only
  generalize drawAll { st with checking := true } = drawn at hdrawn ⊢
  split
  · exact hdrawn.trans (.append [.verify drawn.entry ok] rfl (by simp [Item.closes]))
  · refine (hdrawn.trans ?_).trans (drawAll_quiet _).extends_past
    exact .append [.verify drawn.entry ok] rfl (by simp [Item.closes])

/-- A key that is not an Enter to be accepted. -/
theorem Control.after_key (c : Control) {down : Bool} {press : Press}
    (h : c.keys.accepts (.key down press) = false) : c.after (.key down press) = c :=
  c.after_other (by simp) rfl h (by simp) (by simp)

theorem kbKey_control (st : State) (down : Bool) (press : Press) (hk : st.keyboard = true) :
    (kbKey st down press).control = st.control.after (.key down press) := by
  rw [kbKey]
  split
  · rename_i hdead
    rw [Control.after_key]
    cases down with
    | false => rfl
    | true =>
        have hxkb : st.xkbSt = false := by simpa using hdead
        cases press with
        | enter ok => cases ok <;> simp [Keys.accepts, State.control, hxkb]
        | _ => rfl
  · rename_i hlive
    have hboth : down = true ∧ st.xkbSt = true := by simpa using hlive
    obtain ⟨rfl, hxkb⟩ := hboth
    cases press with
    | enter ok =>
        refine (tryUnlock_control (st.emit (.pressed (.enter ok))) ok).trans ?_
        cases ok with
        | false => exact (Control.after_key _ rfl).symm
        | true =>
            simp [Control.after, Keys.after, Keys.accepts, Event.announces, State.control,
              State.emit, hk, hxkb]
    | backspace => exact (drawAll_quiet _).control.trans (Control.after_key _ rfl).symm
    | escape => exact (drawAll_quiet _).control.trans (Control.after_key _ rfl).symm
    | text utf8 =>
        refine Eq.trans ?_ (Control.after_key _ rfl).symm
        dsimp only
        split
        · exact (drawAll_quiet _).control
        · rfl

theorem kbKey_extends (st : State) (down : Bool) (press : Press) :
    Extends st (kbKey st down press) := by
  have hpressed : ∀ entry failedAttempt, Extends st { st.emit (.pressed press) with
      entry := entry, failedAttempt := failedAttempt } := fun _ _ =>
    .append [.pressed press] rfl (by simp [Item.closes])
  rw [kbKey]
  split
  · exact .refl st
  · cases press with
    | enter ok => exact (hpressed st.entry st.failedAttempt).trans (tryUnlock_extends _ ok)
    | backspace =>
        exact (hpressed st.entry.dropLast false).trans (drawAll_quiet _).extends_past
    | escape => exact (hpressed [] false).trans (drawAll_quiet _).extends_past
    | text utf8 =>
        dsimp only
        split
        · exact (hpressed (st.entry ++ utf8) false).trans (drawAll_quiet _).extends_past
        · exact hpressed st.entry st.failedAttempt

theorem handle_extends (st : State) (e : Event) : Extends st (handle st e) := by
  cases e with
  | global g => exact regGlobal_extends st g
  | globalRemove name => exact (regRemove_quiet st name).extends_past
  | capabilities keyboard => exact .append [] rfl (by simp)
  | keymap readable compiled =>
      rw [handle, kbKeymap]
      split
      · split
        · exact .append [] rfl (by simp)
        · exact .refl st
      · exact .refl st
  | focus =>
      rw [handle, kbEnter]
      split
      · split
        · have hcleared : Extends st { st with failedAttempt := false } :=
            .append [] rfl (by simp)
          exact hcleared.trans (drawAll_quiet _).extends_past
        · exact .refl st
      · exact .refl st
  | key down press =>
      rw [handle]
      split
      · exact kbKey_extends st down press
      · exact .refl st
  | configure s serial width height memory =>
      rw [handle]
      split
      · exact (surfaceConfigure_quiet st _ s serial width height memory).extends_past
      · exact .refl st
  | locked =>
      rw [handle]
      split
      · exact .append [.locked] rfl (by simp [Item.closes])
      · exact .refl st
  | finished =>
      rw [handle]
      split
      · exact .append [.finished] rfl (by simp [Item.closes])
      · exact .refl st

theorem handle_control (st : State) (e : Event) :
    (handle st e).control = st.control.after e := by
  cases e with
  | global g => exact regGlobal_control st g
  | globalRemove name =>
      rw [handle, (regRemove_quiet st name).control]
      exact (Control.after_other _ (by simp) rfl rfl (by simp) (by simp)).symm
  | capabilities keyboard =>
      simp [handle, seatCaps, State.control, Control.after, Keys.after, Keys.accepts,
        Event.announces]
      rfl
  | keymap readable compiled =>
      rw [handle, kbKeymap]
      cases hk : st.keyboard <;> cases readable <;>
        simp [State.control, Control.after, Keys.after, Keys.accepts, Event.announces, hk]
  | focus =>
      rw [Control.after_other _ (by simp) rfl rfl (by simp) (by simp), handle, kbEnter]
      split
      · split
        · exact (drawAll_quiet { st with failedAttempt := false }).control
        · rfl
      · rfl
  | key down press =>
      rw [handle]
      split
      · rename_i hk
        exact kbKey_control st down press hk
      · rename_i hk
        refine (Control.after_key _ ?_).symm
        have hdead : st.keyboard = false := by simpa using hk
        cases down with
        | false => rfl
        | true =>
            cases press with
            | enter ok => cases ok <;> simp [Keys.accepts, State.control, hdead]
            | _ => rfl
  | configure s serial width height memory =>
      rw [Control.after_other _ (by simp) rfl rfl (by simp) (by simp), handle]
      split
      · exact (surfaceConfigure_quiet st _ s serial width height memory).control
      · rfl
  | locked =>
      rw [handle]
      cases hlock : st.sessionLock <;>
        simp [State.control, Control.after, Keys.after, Keys.accepts, Event.announces, hlock,
          lockLocked, State.emit]
  | finished =>
      rw [handle]
      cases hlock : st.sessionLock <;>
        simp [State.control, Control.after, Keys.after, Keys.accepts, Event.announces, hlock,
          lockFinished, State.emit]

/-- The outputs there are after an event. -/
def Event.outputs (live : List UInt32) : Event → List UInt32
  | .global (.output name) => name :: live
  | .globalRemove name => live.filter fun n => n ≠ name
  | _ => live

theorem handle_live (st : State) (e : Event) :
    liveOutputs (handle st e).past = e.outputs (liveOutputs st.past) := by
  cases e with
  | global g =>
      cases g with
      | output name =>
          have hattach : ∀ (st : State) i,
              liveOutputs (outputAttach st i).past = liveOutputs st.past := by
            intro st i
            rw [outputAttach]
            dsimp only
            split <;> rfl
          rw [handle, regGlobal]
          dsimp only
          split
          · rfl
          · rw [hattach]
            rfl
      | _ => rfl
  | globalRemove name =>
      rw [handle, regRemove_eq]
      have hfold : ∀ (l : List (Fin MAX_OUTPUTS)) (st : State),
          liveOutputs (l.foldl (removeAt name) st).past = liveOutputs st.past := by
        intro l
        induction l with
        | nil => exact fun _ => rfl
        | cons i l ih => exact fun st => (ih _).trans (removeAt_live name st i)
      rw [hfold]
      rfl
  | capabilities keyboard => rfl
  | keymap readable compiled =>
      rw [handle, kbKeymap]
      split
      · split <;> rfl
      · rfl
  | focus =>
      rw [handle]
      split
      · exact (kbEnter_keeps st).live
      · rfl
  | key down press =>
      rw [handle]
      split
      · exact (kbKey_keeps st down press).live
      · rfl
  | configure s serial width height memory =>
      rw [handle]
      split
      · exact (surfaceConfigure_keeps st _ s serial width height memory).live
      · rfl
  | locked =>
      rw [handle]
      split <;> rfl
  | finished =>
      rw [handle]
      split <;> rfl

/-- No output is announced under the name of one that is there. -/
def Fresh : List UInt32 → List Event → Prop
  | _, [] => True
  | live, e :: es =>
      (∀ name, e = .global (.output name) → name ∉ live) ∧ Fresh (e.outputs live) es

theorem Fresh.filter {live : List UInt32} {es : List Event} (h : Fresh live es) :
    Fresh live (es.filter fun e => e ≠ .locked ∧ e ≠ .finished) := by
  induction es generalizing live with
  | nil => exact h
  | cons e es ih =>
      have hrest := ih h.2
      by_cases hkeep : e ≠ .locked ∧ e ≠ .finished
      · rw [List.filter_cons_of_pos (by simpa using hkeep)]
        exact ⟨h.1, hrest⟩
      · rw [List.filter_cons_of_neg (by simpa using hkeep)]
        have hsame : e.outputs live = live := by
          rcases not_and_or.mp hkeep with he | he
          · rw [not_not.mp he]; rfl
          · rw [not_not.mp he]; rfl
        exact hsame ▸ hrest

/-- A state in order, with the events still to come. -/
structure Ready (st : State) (es : List Event) : Prop where
  good : Good st
  live : Live st
  fresh : Fresh (liveOutputs st.past) es

theorem dispatch_ready {batch es : List Event} (h : Ready st (batch ++ es)) :
    Ready (dispatch st batch) es := by
  induction batch generalizing st with
  | nil => exact h
  | cons e batch ih =>
      obtain ⟨hgood, hlive⟩ := handle_good h.good h.live e h.fresh.1
      exact ih ⟨hgood, hlive, handle_live st e ▸ h.fresh.2⟩

theorem dispatch_extends (st : State) (batch : List Event) : Extends st (dispatch st batch) := by
  induction batch generalizing st with
  | nil => exact .refl st
  | cons e batch ih => exact (handle_extends st e).trans (ih _)

theorem dispatch_control (st : State) (batch : List Event) :
    (dispatch st batch).control = batch.foldl Control.after st.control := by
  induction batch generalizing st with
  | nil => rfl
  | cons e batch ih => exact (ih _).trans (by rw [handle_control]; rfl)

theorem eventLoop_ready (batches : List (List Event)) (h : Ready st batches.flatten) :
    Ready (eventLoop st batches).1 (eventLoop st batches).2.flatten := by
  induction batches generalizing st with
  | nil => exact h
  | cons batch rest ih =>
      rw [eventLoop]
      split
      · exact ih (dispatch_ready h)
      · exact h

theorem eventLoop_extends (st : State) (batches : List (List Event)) :
    Extends st (eventLoop st batches).1 := by
  induction batches generalizing st with
  | nil => exact .refl st
  | cons batch rest ih =>
      rw [eventLoop]
      split
      · exact (dispatch_extends st batch).trans (ih _)
      · exact .refl st

/-- One turn of the loop in which `main` attaches the outputs. -/
def attachAt (st : State) (i : Fin MAX_OUTPUTS) : State :=
  if i.val < st.nOutputs then outputAttach st i else st

theorem takeLock_eq (st : State) :
    takeLock st = (List.finRange MAX_OUTPUTS).foldl attachAt { st with sessionLock := true } := rfl

theorem attachAll_ready {es : List Event} (l : List (Fin MAX_OUTPUTS)) (h : Ready st es) :
    Ready (l.foldl attachAt st) es := by
  induction l generalizing st with
  | nil => exact h
  | cons i l ih =>
      refine ih ?_
      rw [attachAt]
      split
      · refine ⟨outputAttach_good h.good h.live i, outputAttach_live h.live i, ?_⟩
        have hsame : liveOutputs (outputAttach st i).past = liveOutputs st.past := by
          rw [outputAttach]
          dsimp only
          split <;> rfl
        rw [hsame]
        exact h.fresh
      · exact h

theorem attachAll_quiet (st : State) (l : List (Fin MAX_OUTPUTS)) :
    Quiet st (l.foldl attachAt st) := by
  induction l generalizing st with
  | nil => exact ⟨rfl, .refl st⟩
  | cons i l ih =>
      refine Quiet.trans ?_ (ih _)
      rw [attachAt]
      split
      · exact outputAttach_quiet st i
      · exact ⟨rfl, .refl st⟩

end Veron.SessionLock
