/-
How a run of veron-lock ends: when the last request it makes of the lock is the
one that ext-session-lock-v1 asks for.
-/
import Veron.SessionLockControl

namespace Veron.SessionLock

open History

variable {st : State}

def Keys.afterAll (k : Keys) (es : List Event) : Keys := es.foldl Keys.after k

/-- The loop stops with a batch in which the lock is refused or an Enter accepted. -/
def Keys.stops (k : Keys) (batch : List Event) : Bool :=
  batch.contains .finished || k.acceptsIn batch

/-- The events of the loop: every batch up to the one it stops with. -/
def Keys.heard : Keys → List (List Event) → List Event
  | _, [] => []
  | k, batch :: rest =>
      if k.stops batch then batch else batch ++ (k.afterAll batch).heard rest

/-- The lock comes to be asked for. -/
def Locks (startup : List Event) : Prop :=
  .global .compositor ∈ startup ∧ .global .shm ∈ startup ∧ .global .lockManager ∈ startup ∧
    ∃ e ∈ startup, e.announces = true

/-- `finished` comes instead of `locked`, and an Enter is accepted no earlier than in
the batch that brings `locked`. -/
def Orderly (startup : List Event) (batches : List (List Event)) : Prop :=
  Keys.acceptsIn ⟨false, false⟩ startup = false ∧
    let k := Keys.afterAll ⟨false, false⟩ startup
    if .finished ∈ k.heard batches then .locked ∉ k.heard batches
    else k.acceptsIn (k.heard batches) = true → .locked ∈ k.heard batches

instance (startup : List Event) (batches : List (List Event)) :
    Decidable (Orderly startup batches) := by
  unfold Orderly
  infer_instance

section Fold

variable (c : Control) (es : List Event)

theorem foldl_sessionLock : (es.foldl Control.after c).sessionLock = c.sessionLock := by
  induction es generalizing c with
  | nil => rfl
  | cons e es ih => exact ih (c.after e)

theorem foldl_keys : (es.foldl Control.after c).keys = c.keys.afterAll es := by
  induction es generalizing c with
  | nil => rfl
  | cons e es ih => exact ih (c.after e)

theorem foldl_unlocking :
    (es.foldl Control.after c).unlocking = (c.unlocking || c.keys.acceptsIn es) := by
  induction es generalizing c with
  | nil => simp [Keys.acceptsIn]
  | cons e es ih => rw [List.foldl_cons, ih, Keys.acceptsIn, ← Bool.or_assoc]; rfl

/-- A flag that some events set while the lock is held. -/
theorem foldl_flag (f : Control → Bool) (e : Event)
    (hf : ∀ c d, f (c.after d) = (f c || (c.sessionLock && d = e))) :
    f (es.foldl Control.after c) = (f c || (c.sessionLock && es.contains e)) := by
  induction es generalizing c with
  | nil => simp
  | cons d es ih =>
      rw [List.foldl_cons, ih, hf, List.contains_cons, Bool.or_assoc]
      have hlock : (c.after d).sessionLock = c.sessionLock := rfl
      rw [hlock]
      cases c.sessionLock <;> simp [Bool.beq_eq_decide_eq, eq_comm]

/-- The loop runs until the lock is refused or an Enter accepted. -/
theorem foldl_running (h : c.running = (!c.finished && !c.unlocking)) :
    (es.foldl Control.after c).running =
      (!(es.foldl Control.after c).finished && !(es.foldl Control.after c).unlocking) := by
  induction es generalizing c with
  | nil => exact h
  | cons e es ih =>
      refine ih (c.after e) ?_
      simp only [Control.after, h, Bool.not_or]
      ac_rfl

/-- A flag that some events set. -/
theorem foldl_seen (f : Control → Bool) (p : Event → Bool)
    (hf : ∀ c d, f (c.after d) = (f c || p d)) :
    f (es.foldl Control.after c) = (f c || es.any p) := by
  induction es generalizing c with
  | nil => simp
  | cons d es ih => rw [List.foldl_cons, ih, hf, List.any_cons, Bool.or_assoc]

end Fold

/-- What the loop hears settles how it ends. -/
theorem eventLoop_control (batches : List (List Event))
    (hrunning : st.running = true) (hlock : st.sessionLock = true)
    (hfinished : st.finished = false) (hunlocking : st.unlocking = false) :
    (eventLoop st batches).1.control =
      ((Keys.mk st.keyboard st.xkbSt).heard batches).foldl Control.after st.control := by
  induction batches generalizing st with
  | nil => rfl
  | cons batch rest ih =>
      have hcontrol := dispatch_control st batch
      rw [eventLoop, if_pos hrunning, Keys.heard]
      have hends : (dispatch st batch).finished = batch.contains .finished ∧
          (dispatch st batch).unlocking = (Keys.mk st.keyboard st.xkbSt).acceptsIn batch := by
        refine ⟨?_, ?_⟩
        · have h := congrArg Control.finished hcontrol
          rw [foldl_flag _ _ Control.finished .finished fun _ _ => rfl] at h
          simpa [State.control, hfinished, hlock] using h
        · have h := congrArg Control.unlocking hcontrol
          rw [foldl_unlocking] at h
          simpa [State.control, hunlocking] using h
      have hruns : (dispatch st batch).running =
          (!(dispatch st batch).finished && !(dispatch st batch).unlocking) := by
        have h := foldl_running st.control batch
          (by simp [State.control, hrunning, hfinished, hunlocking])
        rw [← hcontrol] at h
        exact h
      by_cases hstops : (Keys.mk st.keyboard st.xkbSt).stops batch = true
      · have hstopped : (dispatch st batch).running = false := by
          rw [hruns, hends.1, hends.2, ← Bool.not_or]
          rw [Keys.stops] at hstops
          rw [hstops]
          rfl
        rw [if_pos hstops]
        cases rest with
        | nil => exact hcontrol
        | cons next rest =>
            rw [eventLoop, if_neg (by simp [hstopped])]
            exact hcontrol
      · have hgoes : batch.contains .finished = false ∧
            (Keys.mk st.keyboard st.xkbSt).acceptsIn batch = false := by
          simpa [Keys.stops] using hstops
        have hkeys : Keys.mk (dispatch st batch).keyboard (dispatch st batch).xkbSt =
            (Keys.mk st.keyboard st.xkbSt).afterAll batch :=
          (congrArg Control.keys hcontrol).trans (foldl_keys _ _)
        have hheld : (dispatch st batch).sessionLock = true := by
          have h := congrArg Control.sessionLock hcontrol
          rw [foldl_sessionLock] at h
          exact h.trans hlock
        rw [if_neg hstops, List.foldl_append, ← hkeys, ← hcontrol]
        apply ih
        · rw [hruns, hends.1, hends.2, hgoes.1, hgoes.2]
          rfl
        · exact hheld
        · exact hends.1.trans hgoes.1
        · exact hends.2.trans hgoes.2

theorem start_ready {es : List Event} (h : Fresh [] es) : Ready .start es := by
  refine ⟨⟨⟨?_, ?_, ?_, ?_, ?_, ?_, ?_, ?_⟩, ⟨rfl, ?_, ?_⟩, trivial⟩, ?_, h⟩ <;>
    simp [State.start, LockOutput.unused, lockSurfaces]
  exact fun i hi => by cases hi

section Closing

variable {x : Item} {rest : List (List Event)}

/-- Once the last request is in order the last roundtrip keeps everything so. -/
theorem closing_lawful (hx : x.closes = true) (h : Ready st rest.flatten) :
    Lawful Allowed (lastRoundtrip (st.emit x) rest).past ↔ Allowed st.past x := by
  have hextends := dispatch_extends (st.emit x)
    (rest.flatten.filter fun e => e ≠ .locked ∧ e ≠ .finished)
  refine ⟨fun hlawful => (hlawful.of_suffix hextends.suffix).1, fun hallowed => ?_⟩
  have hlocked : x ≠ .locked := by
    rintro rfl
    cases hx
  have hlast : Ready (st.emit x)
      ((rest.flatten.filter fun e => e ≠ .locked ∧ e ≠ .finished) ++ []) := by
    have hfresh := h.fresh.filter
    rw [← List.append_nil (List.filter _ _)] at hfresh
    cases x with
    | unlockAndDestroy =>
        exact ⟨⟨h.good.slots.mono rfl fun _ => rfl, h.good.tells.mono rfl hlocked, hallowed,
          h.good.lawful⟩, h.live, hfresh⟩
    | destroy =>
        exact ⟨⟨h.good.slots.mono rfl fun _ => rfl, h.good.tells.mono rfl hlocked, hallowed,
          h.good.lawful⟩, h.live, hfresh⟩
    | _ => cases hx
  exact (dispatch_ready hlast).good.lawful

/-- And there is no other last request. -/
theorem closing_unlocks (hx : x.closes = true) (hnone : ∀ y ∈ st.past, y.closes = false) :
    .unlockAndDestroy ∈ (lastRoundtrip (st.emit x) rest).past ↔ x = .unlockAndDestroy := by
  have hextends := dispatch_extends (st.emit x)
    (rest.flatten.filter fun e => e ≠ .locked ∧ e ≠ .finished)
  constructor
  · intro hmem
    have hmem' : .unlockAndDestroy ∈ x :: st.past := hextends.closes _ hmem rfl
    rcases List.mem_cons.mp hmem' with heq | hpast
    · exact heq.symm
    · cases hnone _ hpast
  · rintro rfl
    exact hextends.suffix.subset List.mem_cons_self

end Closing

/-- When the loop ends, the process ends as the protocol asks exactly when the events
came in order. -/
theorem ended_obeys_iff {rest : List (List Event)} (h : Ready st rest.flatten)
    (hnone : ∀ y ∈ st.past, y.closes = false) :
    Obeys (if st.finished then ⟨(lastRoundtrip (st.emit .destroy) rest).past, 1⟩
        else if st.unlocking then ⟨(lastRoundtrip (st.emit .unlockAndDestroy) rest).past, 0⟩
        else ⟨st.past, 2⟩) ↔
      if st.finished then st.lockedOk = false else st.unlocking = true → st.lockedOk = true := by
  cases hfinished : st.finished with
  | true =>
      have hlast : Item.destroy.closes = true := rfl
      simp only [if_true, Obeys, closing_lawful hlast h, closing_unlocks hlast hnone]
      simp [Allowed, ← h.good.tells.locked]
  | false =>
      cases hunlocking : st.unlocking with
      | true =>
          have haccepted := h.good.tells.accepted hunlocking
          have hlast : Item.unlockAndDestroy.closes = true := rfl
          simp only [Bool.false_eq_true, if_false, if_true, Obeys, closing_lawful hlast h,
            closing_unlocks hlast hnone]
          simp [Allowed, ← h.good.tells.locked, haccepted]
      | false =>
          have hno : Item.unlockAndDestroy ∉ st.past := fun hmem => by cases hnone _ hmem
          simp [Obeys, h.good.lawful, hno]

/-- The two roundtrips find what is announced in them. -/
theorem startup_control (startup : List Event) :
    (dispatch .start startup).control =
      { compositor := startup.any fun e => e = .global .compositor
        shm := startup.any fun e => e = .global .shm
        lockManager := startup.any fun e => e = .global .lockManager
        hasOutputs := startup.any Event.announces
        sessionLock := false
        keys := Keys.afterAll ⟨false, false⟩ startup
        lockedOk := false
        finished := false
        running := !Keys.acceptsIn ⟨false, false⟩ startup
        unlocking := Keys.acceptsIn ⟨false, false⟩ startup } := by
  rw [dispatch_control]
  generalize hc : startup.foldl Control.after State.start.control = c
  have hcompositor := foldl_seen State.start.control startup Control.compositor _ fun _ _ => rfl
  have hshm := foldl_seen State.start.control startup Control.shm _ fun _ _ => rfl
  have hmanager := foldl_seen State.start.control startup Control.lockManager _ fun _ _ => rfl
  have houtputs := foldl_seen State.start.control startup Control.hasOutputs _ fun _ _ => rfl
  have hlock := foldl_sessionLock State.start.control startup
  have hkeys := foldl_keys State.start.control startup
  have hlocked := foldl_flag State.start.control startup Control.lockedOk .locked fun _ _ => rfl
  have hfinished :=
    foldl_flag State.start.control startup Control.finished .finished fun _ _ => rfl
  have hunlocking := foldl_unlocking State.start.control startup
  have hrunning := foldl_running State.start.control startup rfl
  rw [hc] at *
  cases c
  simp_all [State.control, State.start]

theorem locks_iff (startup : List Event) :
    Locks startup ↔ (dispatch .start startup).compositor = true ∧
      (dispatch .start startup).shm = true ∧ (dispatch .start startup).lockManager = true ∧
      0 < (dispatch .start startup).nOutputs := by
  have hcontrol := startup_control startup
  have hcompositor := congrArg Control.compositor hcontrol
  have hshm := congrArg Control.shm hcontrol
  have hmanager := congrArg Control.lockManager hcontrol
  have houtputs := congrArg Control.hasOutputs hcontrol
  simp only [State.control] at hcompositor hshm hmanager houtputs
  rw [hcompositor, hshm, hmanager, ← decide_eq_true_iff (p := 0 < _), houtputs]
  simp [Locks]

theorem takeLock_ready {es : List Event} (h : Ready st es) : Ready (takeLock st) es := by
  rw [takeLock_eq]
  exact attachAll_ready _ ⟨⟨h.good.slots, h.good.tells, h.good.lawful⟩, h.live, h.fresh⟩

theorem takeLock_control (st : State) :
    (takeLock st).control = { st.control with sessionLock := true } := by
  rw [takeLock_eq]
  exact (attachAll_quiet _ _).control

theorem takeLock_extends (st : State) : Extends st (takeLock st) := by
  rw [takeLock_eq]
  have hheld : Extends st { st with sessionLock := true } := .append [] rfl (by simp)
  exact hheld.trans (attachAll_quiet _ _).extends_past

/-- The loop, and what comes after it, in the words of the events. -/
theorem locked_run_iff {startup : List Event} {batches : List (List Event)}
    (h : Ready (dispatch .start startup) batches.flatten)
    (hnone : ∀ y ∈ (dispatch .start startup).past, y.closes = false) :
    Obeys (if (eventLoop (takeLock (dispatch .start startup)) batches).1.finished then
          ⟨(lastRoundtrip ((eventLoop (takeLock (dispatch .start startup)) batches).1.emit .destroy)
            (eventLoop (takeLock (dispatch .start startup)) batches).2).past, 1⟩
        else if (eventLoop (takeLock (dispatch .start startup)) batches).1.unlocking then
          ⟨(lastRoundtrip
            ((eventLoop (takeLock (dispatch .start startup)) batches).1.emit .unlockAndDestroy)
            (eventLoop (takeLock (dispatch .start startup)) batches).2).past, 0⟩
        else ⟨(eventLoop (takeLock (dispatch .start startup)) batches).1.past, 2⟩) ↔
      Orderly startup batches := by
  have hheld := takeLock_ready h
  have hcontrol := takeLock_control (dispatch .start startup)
  have hextends := takeLock_extends (dispatch .start startup)
  rw [startup_control] at hcontrol
  generalize takeLock (dispatch .start startup) = st at *
  have hends := ended_obeys_iff (eventLoop_ready batches hheld) fun y hy => by
    by_contra hcloses
    have hmem := hextends.closes y ((eventLoop_extends st batches).closes y hy
      (by simpa using hcloses)) (by simpa using hcloses)
    exact hcloses (hnone y hmem)
  rw [hends, Orderly]
  dsimp only
  have hrunning := congrArg Control.running hcontrol
  have hunlocking := congrArg Control.unlocking hcontrol
  have hfinished := congrArg Control.finished hcontrol
  have hlocked := congrArg Control.lockedOk hcontrol
  have hlock := congrArg Control.sessionLock hcontrol
  have hkeys := congrArg Control.keys hcontrol
  simp only [State.control] at hrunning hunlocking hfinished hlocked hlock hkeys
  cases haccepts : Keys.acceptsIn ⟨false, false⟩ startup with
  | true =>
      -- the loop is not entered
      have hstopped : st.running = false := by rw [hrunning, haccepts]; rfl
      have hloop : (eventLoop st batches).1 = st := by
        cases batches with
        | nil => rfl
        | cons batch rest => rw [eventLoop, if_neg (by simp [hstopped])]
      simp [hloop, hfinished, hunlocking, hlocked, haccepts]
  | false =>
      have hruns : st.running = true := by rw [hrunning, haccepts]; rfl
      have hloop := eventLoop_control batches hruns hlock hfinished (hunlocking.trans haccepts)
      rw [hkeys] at hloop
      generalize (eventLoop st batches).1 = ended at hloop ⊢
      generalize (Keys.afterAll ⟨false, false⟩ startup).heard batches = es at hloop ⊢
      have hfin := congrArg Control.finished hloop
      have hunl := congrArg Control.unlocking hloop
      have hloc := congrArg Control.lockedOk hloop
      rw [foldl_flag _ _ Control.finished .finished fun _ _ => rfl] at hfin
      rw [foldl_flag _ _ Control.lockedOk .locked fun _ _ => rfl] at hloc
      rw [foldl_unlocking] at hunl
      simp only [State.control, hfinished, hlocked, hunlocking, hlock, hkeys, haccepts,
        Bool.false_or, Bool.true_and] at hfin hunl hloc
      simp [hfin, hunl, hloc]

/-- The whole run keeps to ext-session-lock-v1 exactly when the lock is never asked for
or the events come in order. -/
theorem main_obeys_iff (xkbContext : Bool) (startup : List Event) (batches : List (List Event))
    (hfresh : Fresh [] (startup ++ batches.flatten)) :
    Obeys (main xkbContext startup batches) ↔
      (Locks startup → xkbContext = true → Orderly startup batches) := by
  have hready : Ready (dispatch .start startup) batches.flatten :=
    dispatch_ready (start_ready hfresh)
  have hnone : ∀ y ∈ (dispatch .start startup).past, y.closes = false := by
    intro y hy
    by_contra hcloses
    have hmem := (dispatch_extends .start startup).closes y hy (by simpa using hcloses)
    cases hmem
  have hearly : Obeys ⟨(dispatch .start startup).past, 1⟩ := by
    have hno : Item.unlockAndDestroy ∉ (dispatch .start startup).past :=
      fun hmem => by cases hnone _ hmem
    simp [Obeys, hready.good.lawful, hno]
  rw [main, locks_iff]
  dsimp only
  split
  · rename_i hmissing
    refine iff_of_true hearly fun hlocks => ?_
    simp [hlocks] at hmissing
  · rename_i hoffered
    have hoffers : (dispatch .start startup).compositor = true ∧
        (dispatch .start startup).shm = true ∧ (dispatch .start startup).lockManager = true := by
      simpa [and_assoc] using hoffered
    split
    · rename_i houtputs
      refine iff_of_true hearly fun hlocks => ?_
      omega
    · rename_i houtputs
      cases xkbContext with
      | false => simp [hearly]
      | true =>
          have hlocks := locked_run_iff hready hnone
          simp only [Bool.not_true, Bool.false_eq_true, if_false]
          refine hlocks.trans ⟨fun h _ _ => h, fun h => h ?_ trivial⟩
          exact ⟨hoffers.1, hoffers.2.1, hoffers.2.2, Nat.pos_of_ne_zero houtputs⟩

/-- A compositor with one output, and a keyboard. -/
def sampleStartup : List Event :=
  [.global .compositor, .global .shm, .global .lockManager, .global (.output 3),
    .capabilities true]

theorem main_obeys_sample :
    Fresh [] (sampleStartup ++ [[Event.keymap true true, .locked, .key true (.text [0x61])],
        [.key true (.enter true)]].flatten) ∧
      Obeys (main true sampleStartup
        [[.keymap true true, .locked, .key true (.text [0x61])], [.key true (.enter true)]]) := by
  have hfresh : Fresh [] (sampleStartup ++
      [[Event.keymap true true, .locked, .key true (.text [0x61])],
        [.key true (.enter true)]].flatten) := by
    simp [Fresh, Event.outputs, sampleStartup]
  exact ⟨hfresh, (main_obeys_iff true sampleStartup _ hfresh).mpr fun _ _ => by decide⟩

/-- Enter before `locked`: the session is unlocked all the same. -/
theorem unlocks_before_locked :
    ¬ Obeys (main true sampleStartup
      [[.keymap true true, .key true (.text [0x61]), .key true (.enter true)], [.locked]]) := by
  decide

/-- `finished` after `locked`: the lock is destroyed and not unlocked. -/
theorem destroys_after_locked :
    ¬ Obeys (main true sampleStartup [[.locked], [.finished]]) := by
  decide

end Veron.SessionLock
