/-
What ext-session-lock-v1 asks of a client, as a rule for each of its requests, and
what the handlers of veron-lock keep of it.
-/
import Veron.SessionLock

namespace Veron.SessionLock

open History

/-- The outputs announced and not removed since. -/
def liveOutputs : List Item → List UInt32
  | [] => []
  | .output name :: past => name :: liveOutputs past
  | .removed name :: past => (liveOutputs past).filter fun n => n ≠ name
  | _ :: past => liveOutputs past

/-- The lock surfaces there are, each with its output. -/
def lockSurfaces : List Item → List (ℕ × UInt32)
  | [] => []
  | .getLockSurface name s :: past => (s, name) :: lockSurfaces past
  | .destroyLockSurface s :: past => (lockSurfaces past).filter fun p => p.1 ≠ s
  | _ :: past => lockSurfaces past

/-- The size last acknowledged for a lock surface, while it is there. -/
def acked (s : ℕ) : List Item → Option (UInt32 × UInt32)
  | [] => none
  | .ackConfigure t _ width height :: past => if t = s then some (width, height) else acked s past
  | .destroyLockSurface t :: past => if t = s then none else acked s past
  | _ :: past => acked s past

/-- What has been typed since the last verification; the entry takes 254 bytes. -/
def typed : List Item → List UInt8
  | [] => []
  | .verify _ _ :: _ => []
  | .pressed .backspace :: past => (typed past).dropLast
  | .pressed .escape :: _ => []
  | .pressed (.text utf8) :: past =>
      if 0 < utf8.length ∧ (typed past).length + utf8.length < MAX_ENTRY - 1 then
        typed past ++ utf8
      else typed past
  | _ :: past => typed past

/-- `veron_verify` returned 1. -/
def Item.accepts : Item → Bool
  | .verify _ ok => ok
  | _ => false

/-- The last request made of the lock. -/
def Item.closes : Item → Bool
  | .unlockAndDestroy => true
  | .destroy => true
  | _ => false

def Item.isCommit : Item → Bool
  | .commit _ _ _ => true
  | _ => false

/-- A buffer's size is given in signed numbers. -/
def bufferSize (p : UInt32 × UInt32) : Int32 × Int32 := (p.1.toInt32, p.2.toInt32)

def Allowed (past : List Item) : Item → Prop
  | .getLockSurface name _ => name ∈ liveOutputs past ∧ ∀ p ∈ lockSurfaces past, p.2 ≠ name
  | .commit surface buffer _ =>
      buffer ≠ none ∧ buffer = (surface.bind fun s => acked s past).map bufferSize
  | .verify entry _ => entry = typed past
  | .unlockAndDestroy => .locked ∈ past ∧ ∃ x ∈ past, x.accepts = true
  | .destroy => .locked ∉ past
  | _ => True

instance decidableAllowed (past : List Item) : DecidablePred (Allowed past)
  | .getLockSurface name _ =>
      inferInstanceAs (Decidable (name ∈ liveOutputs past ∧ ∀ p ∈ lockSurfaces past, p.2 ≠ name))
  | .commit surface buffer _ =>
      inferInstanceAs (Decidable (buffer ≠ none ∧
        buffer = (surface.bind fun s => acked s past).map bufferSize))
  | .verify entry _ => inferInstanceAs (Decidable (entry = typed past))
  | .unlockAndDestroy =>
      inferInstanceAs (Decidable (.locked ∈ past ∧ ∃ x ∈ past, x.accepts = true))
  | .destroy => inferInstanceAs (Decidable (.locked ∉ past))
  | .output _ | .removed _ | .locked | .finished | .pressed _ | .ackConfigure _ _ _ _
  | .destroyLockSurface _ => isTrue trivial

/-- Every request was in order, and the exit code tells whether the session was
unlocked. -/
def Obeys (e : Ended) : Prop :=
  Lawful Allowed e.past ∧ (e.exit = 0 ↔ .unlockAndDestroy ∈ e.past)

instance : DecidablePred Obeys := fun e =>
  inferInstanceAs (Decidable (Lawful Allowed e.past ∧ (e.exit = 0 ↔ .unlockAndDestroy ∈ e.past)))

section Commits

variable {recent past : List Item} (h : ∀ x ∈ recent, x.isCommit = true)

include h

/-- Drawing is no news to any of this. -/
theorem append_commits {α : Type*} (f : List Item → α)
    (hf : ∀ surface buffer picture past, f (.commit surface buffer picture :: past) = f past) :
    f (recent ++ past) = f past := by
  induction recent with
  | nil => rfl
  | cons x recent ih =>
      have hx := h x List.mem_cons_self
      cases x with
      | commit surface buffer picture =>
          rw [List.cons_append, hf, ih fun y hy => h y (List.mem_cons_of_mem _ hy)]
      | _ => cases hx

theorem liveOutputs_commits : liveOutputs (recent ++ past) = liveOutputs past :=
  append_commits h liveOutputs fun _ _ _ _ => rfl

theorem lockSurfaces_commits : lockSurfaces (recent ++ past) = lockSurfaces past :=
  append_commits h lockSurfaces fun _ _ _ _ => rfl

theorem acked_commits (s : ℕ) : acked s (recent ++ past) = acked s past :=
  append_commits h (acked s) fun _ _ _ _ => rfl

theorem typed_commits : typed (recent ++ past) = typed past :=
  append_commits h typed fun _ _ _ _ => rfl

theorem locked_commits : (.locked ∈ recent ++ past) = (.locked ∈ past) :=
  append_commits h (fun l => Item.locked ∈ l) fun _ _ _ _ => by simp

theorem accepts_commits :
    (∃ x ∈ recent ++ past, x.accepts = true) = ∃ x ∈ past, x.accepts = true :=
  append_commits h (fun l => ∃ x ∈ l, Item.accepts x = true) fun _ _ _ _ => by
    simp [Item.accepts]

end Commits

/-- What is in a slot can be shown. -/
def Shows (past : List Item) (o : LockOutput) : Prop :=
  o.buffer ≠ none ∧ o.buffer = (o.lockSurface.bind fun s => acked s past).map bufferSize

/-- What holds of the slots, whatever arrives. -/
structure Slots (outputs : Fin MAX_OUTPUTS → LockOutput) (nOutputs nextSurface : ℕ)
    (past : List Item) : Prop where
  unused : ∀ i, (outputs i).output = false → (outputs i).lockSurface = none
  beyond : ∀ i : Fin MAX_OUTPUTS, nOutputs ≤ i.val → (outputs i).output = false
  names : ∀ i j, (outputs i).output = true → (outputs j).output = true →
    (outputs i).name = (outputs j).name → i = j
  older : ∀ i s, (outputs i).lockSurface = some s → s < nextSurface
  apart : ∀ i j s, (outputs i).lockSurface = some s → (outputs j).lockSurface = some s → i = j
  held : ∀ p ∈ lockSurfaces past, ∃ i, (outputs i).output = true ∧
    (outputs i).name = p.2 ∧ (outputs i).lockSurface = some p.1
  shows : ∀ i, (outputs i).cairo = true → Shows past (outputs i)
  sized : ∀ i b, (outputs i).buffer = some b → b = ((outputs i).width, (outputs i).height)

/-- What holds of the entry and the flags. -/
structure Tells (entry : List UInt8) (lockedOk unlocking : Bool) (past : List Item) : Prop where
  entry : typed past = entry
  locked : lockedOk = true ↔ .locked ∈ past
  accepted : unlocking = true → ∃ x ∈ past, x.accepts = true

structure Good (st : State) : Prop where
  slots : Slots st.outputs st.nOutputs st.nextSurface st.past
  tells : Tells st.entry st.lockedOk st.unlocking st.past
  lawful : Lawful Allowed st.past

/-- Every slot in use is for an output that is there. -/
def Live (st : State) : Prop :=
  ∀ i, (st.outputs i).output = true → (st.outputs i).name ∈ liveOutputs st.past

variable {st : State}

theorem Slots.mono {outputs : Fin MAX_OUTPUTS → LockOutput} {n k : ℕ} {past past' : List Item}
    (h : Slots outputs n k past) (hsurfaces : lockSurfaces past' = lockSurfaces past)
    (hacked : ∀ s, acked s past' = acked s past) : Slots outputs n k past' := by
  refine ⟨h.unused, h.beyond, h.names, h.older, h.apart, ?_, ?_, h.sized⟩
  · rw [hsurfaces]
    exact h.held
  · intro i hi
    have hshows := h.shows i hi
    simp only [Shows, hacked] at hshows ⊢
    exact hshows

theorem Tells.mono {entry : List UInt8} {lockedOk unlocking : Bool} {past : List Item} {x : Item}
    (h : Tells entry lockedOk unlocking past) (htyped : typed (x :: past) = typed past)
    (hlocked : x ≠ .locked) : Tells entry lockedOk unlocking (x :: past) := by
  refine ⟨htyped.trans h.entry, ?_, fun hu => ?_⟩
  · rw [h.locked, List.mem_cons]
    exact ⟨.inr, fun hmem => hmem.resolve_left hlocked.symm⟩
  · obtain ⟨y, hy, haccepts⟩ := h.accepted hu
    exact ⟨y, List.mem_cons_of_mem x hy, haccepts⟩

/-- A slot without a lock surface has nothing to show. -/
theorem Slots.blank {outputs : Fin MAX_OUTPUTS → LockOutput} {n k : ℕ} {past : List Item}
    (h : Slots outputs n k past) {i : Fin MAX_OUTPUTS} (hi : (outputs i).lockSurface = none) :
    (outputs i).cairo = false := by
  by_contra hcairo
  obtain ⟨hbuffer, hsize⟩ := h.shows i (by simpa using hcairo)
  rw [hi] at hsize
  exact hbuffer hsize

/-- The commit that draws a slot. -/
def Draws (outputs : Fin MAX_OUTPUTS → LockOutput) (x : Item) : Prop :=
  ∃ i picture, (outputs i).cairo = true ∧
    x = .commit (outputs i).lockSurface (outputs i).buffer picture

theorem Draws.isCommit {outputs : Fin MAX_OUTPUTS → LockOutput} {x : Item}
    (h : Draws outputs x) : x.isCommit = true := by
  obtain ⟨i, picture, -, rfl⟩ := h
  rfl

/-- More history and nothing else. -/
def State.after (st : State) (recent : List Item) : State :=
  { st with past := recent ++ st.past }

theorem State.after_after (st : State) (recent more : List Item) :
    (st.after recent).after more = st.after (more ++ recent) := by
  simp only [State.after, List.append_assoc]

theorem Good.draws (h : Good st) {recent : List Item}
    (hrecent : ∀ x ∈ recent, Draws st.outputs x) :
    Good (st.after recent) := by
  have hcommits : ∀ x ∈ recent, x.isCommit = true := fun x hx => (hrecent x hx).isCommit
  refine ⟨h.slots.mono (lockSurfaces_commits hcommits) (acked_commits hcommits), ?_, ?_⟩
  · refine ⟨(typed_commits hcommits).trans h.tells.entry, ?_, ?_⟩
    · exact h.tells.locked.trans (Iff.of_eq (locked_commits hcommits).symm)
    · intro hu
      exact (accepts_commits hcommits).mpr (h.tells.accepted hu)
  · show Lawful Allowed (recent ++ st.past)
    induction recent with
    | nil => exact h.lawful
    | cons x recent ih =>
        have htail : ∀ y ∈ recent, Draws st.outputs y := fun y hy =>
          hrecent y (List.mem_cons_of_mem x hy)
        have hquiet : ∀ y ∈ recent, y.isCommit = true := fun y hy => (htail y hy).isCommit
        obtain ⟨i, picture, hcairo, rfl⟩ := hrecent x List.mem_cons_self
        refine ⟨?_, ih htail hquiet⟩
        have hshows := h.slots.shows i hcairo
        show Shows (recent ++ st.past) (st.outputs i)
        simp only [Shows, acked_commits hquiet]
        exact hshows

theorem draw_eq (st : State) (i : Fin MAX_OUTPUTS) :
    ∃ recent, draw st (st.outputs i) = st.after recent ∧ ∀ x ∈ recent, Draws st.outputs x := by
  rw [draw]
  split
  · rename_i hcairo
    exact ⟨[_], rfl, fun x hx => ⟨i, picture st, hcairo, List.mem_singleton.mp hx⟩⟩
  · exact ⟨[], rfl, by simp⟩

/-- `draw_all` draws, and does nothing else. -/
theorem drawAll_eq (st : State) :
    ∃ recent, drawAll st = st.after recent ∧ ∀ x ∈ recent, Draws st.outputs x := by
  rw [drawAll]
  induction List.finRange MAX_OUTPUTS generalizing st with
  | nil => exact ⟨[], rfl, by simp⟩
  | cons i l ih =>
      rw [List.foldl_cons]
      split
      · obtain ⟨recent, hdraw, hrecent⟩ := draw_eq st i
        obtain ⟨more, hfold, hmore⟩ := ih (st.after recent)
        refine ⟨more ++ recent, ?_, ?_⟩
        · rw [hdraw, hfold, State.after_after]
        · intro x hx
          rcases List.mem_append.mp hx with hx | hx
          · exact hmore x hx
          · exact hrecent x hx
      · exact ih st

theorem drawAll_good (h : Good st) : Good (drawAll st) := by
  obtain ⟨recent, heq, hdraws⟩ := drawAll_eq st
  rw [heq]
  exact h.draws hdraws

theorem State.setOutput_outputs (st : State) (i : Fin MAX_OUTPUTS) (o : LockOutput) :
    (st.setOutput i o).outputs = Function.update st.outputs i o := rfl

section Slot

variable {outputs : Fin MAX_OUTPUTS → LockOutput} {n k : ℕ} {past past' : List Item}
variable {i : Fin MAX_OUTPUTS} {o : LockOutput}

/-- A field that a new slot has in common with the old one. -/
theorem update_field (outputs : Fin MAX_OUTPUTS → LockOutput) (i : Fin MAX_OUTPUTS)
    (o : LockOutput) {α : Type*} (f : LockOutput → α) (hf : f o = f (outputs i))
    (j : Fin MAX_OUTPUTS) : f (Function.update outputs i o j) = f (outputs j) := by
  by_cases hj : j = i
  · rw [hj, Function.update_self, hf]
  · rw [Function.update_of_ne hj]

/-- A slot may be redrawn while it stands for the same output and lock surface. -/
theorem Slots.redraw (h : Slots outputs n k past) (hname : o.name = (outputs i).name)
    (houtput : o.output = (outputs i).output) (hsurface : o.lockSurface = (outputs i).lockSurface)
    (hshows : o.cairo = true → Shows past' o)
    (hsized : ∀ b, o.buffer = some b → b = (o.width, o.height))
    (hsurfaces : lockSurfaces past' = lockSurfaces past)
    (hacked : ∀ j ≠ i, ∀ s, (outputs j).lockSurface = some s → acked s past' = acked s past) :
    Slots (Function.update outputs i o) n k past' := by
  have hn := update_field outputs i o LockOutput.name hname
  have ho := update_field outputs i o LockOutput.output houtput
  have hs := update_field outputs i o LockOutput.lockSurface hsurface
  refine ⟨?_, ?_, ?_, ?_, ?_, ?_, ?_, ?_⟩
  · simpa only [ho, hs] using h.unused
  · simpa only [ho] using h.beyond
  · simpa only [ho, hn] using h.names
  · simpa only [hs] using h.older
  · simpa only [hs] using h.apart
  · simpa only [ho, hn, hs, hsurfaces] using h.held
  · intro j hj
    by_cases hji : j = i
    · subst hji
      rw [Function.update_self] at hj ⊢
      exact hshows hj
    · rw [Function.update_of_ne hji] at hj ⊢
      obtain ⟨hbuffer, hsize⟩ := h.shows j hj
      refine ⟨hbuffer, ?_⟩
      cases hsj : (outputs j).lockSurface with
      | none => rw [h.blank hsj] at hj; cases hj
      | some s =>
          rw [hsj] at hsize
          rw [hsize, Option.bind_some, Option.bind_some, hacked j hji s hsj]
  · intro j b hj
    by_cases hji : j = i
    · subst hji
      rw [Function.update_self] at hj ⊢
      exact hsized b hj
    · rw [Function.update_of_ne hji] at hj ⊢
      exact h.sized j b hj

end Slot

theorem outputAlloc_same (o : LockOutput) (w h : Int32) (memory : Memory) :
    (outputAlloc o w h memory).1.name = o.name ∧
      (outputAlloc o w h memory).1.output = o.output ∧
      (outputAlloc o w h memory).1.lockSurface = o.lockSurface := by
  rw [outputAlloc]
  split
  · exact ⟨rfl, rfl, rfl⟩
  · cases memory <;> exact ⟨rfl, rfl, rfl⟩

/-- Whatever there is to draw on has the size asked for. -/
theorem outputAlloc_size {o : LockOutput} (w h : Int32) (memory : Memory)
    (ho : ∀ b, o.buffer = some b → b = (o.width, o.height)) :
    (∀ b, (outputAlloc o w h memory).1.buffer = some b →
      b = ((outputAlloc o w h memory).1.width, (outputAlloc o w h memory).1.height)) ∧
    ((outputAlloc o w h memory).1.cairo = true →
      (outputAlloc o w h memory).1.buffer = some (w, h)) := by
  rw [outputAlloc]
  split
  · rename_i hkeep
    obtain ⟨hbuffer, rfl, rfl⟩ := hkeep
    refine ⟨ho, fun _ => ?_⟩
    obtain ⟨b, hb⟩ := Option.ne_none_iff_exists'.mp hbuffer
    rw [hb, ho b hb]
  · cases memory <;> simp

theorem surfaceConfigure_good (h : Good st) {i : Fin MAX_OUTPUTS} {s : ℕ}
    (hi : (st.outputs i).lockSurface = some s) (serial width height : UInt32) (memory : Memory) :
    Good (surfaceConfigure st i s serial width height memory) := by
  obtain ⟨hname, houtput, hsurface⟩ :=
    outputAlloc_same (st.outputs i) width.toInt32 height.toInt32 memory
  obtain ⟨hsized, hdrawn⟩ :=
    outputAlloc_size width.toInt32 height.toInt32 memory (h.slots.sized i)
  set o := (outputAlloc (st.outputs i) width.toInt32 height.toInt32 memory).1 with ho
  have hset : ∀ configured, Good ((st.emit (.ackConfigure s serial width height)).setOutput i
      { o with configured := configured }) := by
    intro configured
    have hslots : Slots (Function.update st.outputs i { o with configured := configured })
        st.nOutputs st.nextSurface (.ackConfigure s serial width height :: st.past) := by
      refine h.slots.redraw hname houtput hsurface ?_ hsized rfl ?_
      · intro hcairo
        rw [Shows, hdrawn hcairo, hsurface, hi]
        simp [acked, bufferSize]
      · intro j hj t ht
        have hts : s ≠ t := fun hst => hj (h.slots.apart j i t ht (hst ▸ hi))
        rw [acked, if_neg hts]
    exact ⟨hslots, h.tells.mono rfl (by simp), trivial, h.lawful⟩
  have hdraw := draw_eq ((st.emit (.ackConfigure s serial width height)).setOutput i
    { o with configured := true }) i
  rw [State.setOutput_outputs, Function.update_self] at hdraw
  obtain ⟨recent, hdraw, hrecent⟩ := hdraw
  have hdrawn := (hset true).draws hrecent
  rw [← hdraw] at hdrawn
  rw [surfaceConfigure]
  dsimp only
  split
  · exact hdrawn
  · exact hset o.configured

/-- What a slot's fields become when the slot is emptied. -/
theorem Slots.clear {outputs : Fin MAX_OUTPUTS → LockOutput} {n k : ℕ} {past past' : List Item}
    (h : Slots outputs n k past) (i : Fin MAX_OUTPUTS) (name : UInt32)
    (hheld : ∀ p ∈ lockSurfaces past', p ∈ lockSurfaces past ∧
      (outputs i).lockSurface ≠ some p.1)
    (hacked : ∀ s, (outputs i).lockSurface ≠ some s → acked s past' = acked s past) :
    Slots (Function.update outputs i { LockOutput.unused with name := name }) n k past' := by
  have hother : ∀ j, j ≠ i →
      Function.update outputs i { LockOutput.unused with name := name } j = outputs j :=
    fun j hj => Function.update_of_ne hj _ _
  have hself := Function.update_self i { LockOutput.unused with name := name } outputs
  generalize Function.update outputs i { LockOutput.unused with name := name } = cleared at *
  refine ⟨?_, ?_, ?_, ?_, ?_, ?_, ?_, ?_⟩
  · intro j hj
    by_cases hji : j = i
    · rw [hji, hself]; rfl
    · rw [hother j hji] at hj ⊢
      exact h.unused j hj
  · intro j hj
    by_cases hji : j = i
    · rw [hji, hself]; rfl
    · rw [hother j hji]
      exact h.beyond j hj
  · intro a b ha hb hab
    have hai : a ≠ i := fun hai => by rw [hai, hself] at ha; cases ha
    have hbi : b ≠ i := fun hbi => by rw [hbi, hself] at hb; cases hb
    rw [hother a hai] at ha hab
    rw [hother b hbi] at hb hab
    exact h.names a b ha hb hab
  · intro j s hj
    have hji : j ≠ i := fun hji => by rw [hji, hself] at hj; cases hj
    exact h.older j s (hother j hji ▸ hj)
  · intro a b s ha hb
    have hai : a ≠ i := fun hai => by rw [hai, hself] at ha; cases ha
    have hbi : b ≠ i := fun hbi => by rw [hbi, hself] at hb; cases hb
    exact h.apart a b s (hother a hai ▸ ha) (hother b hbi ▸ hb)
  · intro p hp
    obtain ⟨hold, hne⟩ := hheld p hp
    obtain ⟨j, hoj, hnj, hsj⟩ := h.held p hold
    have hji : j ≠ i := fun hji => hne (hji ▸ hsj)
    exact ⟨j, by rw [hother j hji]; exact ⟨hoj, hnj, hsj⟩⟩
  · intro j hj
    have hji : j ≠ i := fun hji => by rw [hji, hself] at hj; cases hj
    rw [hother j hji] at hj ⊢
    obtain ⟨hbuffer, hsize⟩ := h.shows j hj
    refine ⟨hbuffer, ?_⟩
    cases hsj : (outputs j).lockSurface with
    | none => rw [h.blank hsj] at hj; cases hj
    | some s =>
        rw [hsj] at hsize
        rw [hsize, Option.bind_some, Option.bind_some,
          hacked s fun his => hji (h.apart j i s hsj his)]
  · intro j b hj
    have hji : j ≠ i := fun hji => by rw [hji, hself] at hj; cases hj
    rw [hother j hji] at hj ⊢
    exact h.sized j b hj

theorem outputTeardown_good (h : Good st) (i : Fin MAX_OUTPUTS) : Good (outputTeardown st i) := by
  rw [outputTeardown]
  cases hi : (st.outputs i).lockSurface with
  | none =>
      refine ⟨h.slots.clear i _ (fun p hp => ⟨hp, ?_⟩) fun _ _ => rfl, h.tells, h.lawful⟩
      rw [hi]
      exact Option.some_ne_none _ |>.symm
  | some s =>
      have hslots : Slots
          (Function.update st.outputs i
            { LockOutput.unused with name := (st.outputs i).name })
          st.nOutputs st.nextSurface (.destroyLockSurface s :: st.past) := by
        refine h.slots.clear i _ (fun p hp => ?_) fun t ht => ?_
        · rw [lockSurfaces, List.mem_filter, decide_eq_true_eq] at hp
          refine ⟨hp.1, ?_⟩
          rw [hi]
          exact fun hps => hp.2 (Option.some.inj hps).symm
        · have hst : s ≠ t := fun hst => ht (hst ▸ hi)
          rw [acked, if_neg hst]
      exact ⟨hslots, h.tells.mono rfl (by simp), trivial, h.lawful⟩

theorem outputTeardown_outputs (st : State) (i : Fin MAX_OUTPUTS) :
    (outputTeardown st i).outputs =
      Function.update st.outputs i { LockOutput.unused with name := (st.outputs i).name } := by
  rw [outputTeardown]
  cases (st.outputs i).lockSurface <;> rfl

/-- A lock surface for a slot that has none. -/
theorem Slots.attach {outputs : Fin MAX_OUTPUTS → LockOutput} {n k : ℕ} {past : List Item}
    (h : Slots outputs n k past) {i : Fin MAX_OUTPUTS} (houtput : (outputs i).output = true)
    (hnone : (outputs i).lockSurface = none) :
    Slots (Function.update outputs i { outputs i with lockSurface := some k }) n (k + 1)
      (.getLockSurface (outputs i).name k :: past) := by
  have hname := update_field outputs i { outputs i with lockSurface := some k }
    LockOutput.name rfl
  have hout := update_field outputs i { outputs i with lockSurface := some k }
    LockOutput.output rfl
  have hother : ∀ j, j ≠ i →
      Function.update outputs i { outputs i with lockSurface := some k } j = outputs j :=
    fun j hj => Function.update_of_ne hj _ _
  have hself := Function.update_self i { outputs i with lockSurface := some k } outputs
  generalize Function.update outputs i { outputs i with lockSurface := some k } = attached at *
  have hsurface : ∀ j s, (attached j).lockSurface = some s →
      (j = i ∧ s = k) ∨ (j ≠ i ∧ (outputs j).lockSurface = some s) := by
    intro j s hj
    by_cases hji : j = i
    · rw [hji, hself] at hj
      exact .inl ⟨hji, (Option.some.inj hj).symm⟩
    · rw [hother j hji] at hj
      exact .inr ⟨hji, hj⟩
  refine ⟨?_, ?_, ?_, ?_, ?_, ?_, ?_, ?_⟩
  · intro j hj
    rw [hout] at hj
    have hji : j ≠ i := fun hji => by rw [hji, houtput] at hj; cases hj
    rw [hother j hji]
    exact h.unused j hj
  · simpa only [hout] using h.beyond
  · simpa only [hout, hname] using h.names
  · intro j s hj
    rcases hsurface j s hj with ⟨-, rfl⟩ | ⟨-, hold⟩
    · exact Nat.lt_succ_self s
    · exact Nat.lt_succ_of_lt (h.older j s hold)
  · intro a b s ha hb
    rcases hsurface a s ha with ⟨rfl, rfl⟩ | ⟨-, hold⟩
    · rcases hsurface b s hb with ⟨rfl, -⟩ | ⟨-, hold⟩
      · rfl
      · exact absurd (h.older b s hold) (Nat.lt_irrefl s)
    · rcases hsurface b s hb with ⟨-, rfl⟩ | ⟨-, hold'⟩
      · exact absurd (h.older a s hold) (Nat.lt_irrefl s)
      · exact h.apart a b s hold hold'
  · intro p hp
    rcases List.mem_cons.mp hp with rfl | hp
    · exact ⟨i, by rw [hself]; exact ⟨houtput, rfl, rfl⟩⟩
    · obtain ⟨j, hoj, hnj, hsj⟩ := h.held p hp
      have hji : j ≠ i := fun hji => by rw [hji, hnone] at hsj; cases hsj
      exact ⟨j, by rw [hother j hji]; exact ⟨hoj, hnj, hsj⟩⟩
  · intro j hj
    by_cases hji : j = i
    · have hblank := h.blank hnone
      rw [hji, hself] at hj
      rw [hblank] at hj
      cases hj
    · rw [hother j hji] at hj ⊢
      exact h.shows j hj
  · intro j b hj
    by_cases hji : j = i
    · rw [hji, hself] at hj ⊢
      exact h.sized i b hj
    · rw [hother j hji] at hj ⊢
      exact h.sized j b hj

theorem outputAttach_good (h : Good st) (hlive : Live st) (i : Fin MAX_OUTPUTS) :
    Good (outputAttach st i) := by
  rw [outputAttach]
  dsimp only
  split
  · exact h
  · rename_i hneeds
    simp only [Bool.not_eq_true, Bool.or_eq_false_iff, Bool.not_eq_false',
      Option.isSome_eq_false_iff,
      Option.isNone_iff_eq_none] at hneeds
    obtain ⟨⟨-, houtput⟩, hnone⟩ := hneeds
    refine ⟨h.slots.attach houtput hnone, h.tells.mono rfl (by simp), ⟨hlive i houtput, ?_⟩,
      h.lawful⟩
    intro p hp hpname
    obtain ⟨j, hoj, hnj, hsj⟩ := h.slots.held p hp
    have hji : j = i := h.slots.names j i hoj houtput (hnj.trans hpname)
    rw [hji, hnone] at hsj
    cases hsj

theorem outputAttach_live (hlive : Live st) (i : Fin MAX_OUTPUTS) : Live (outputAttach st i) := by
  rw [outputAttach]
  dsimp only
  split
  · exact hlive
  · intro j hj
    have hname := update_field st.outputs i { st.outputs i with lockSurface := some st.nextSurface }
      LockOutput.name rfl j
    have hout := update_field st.outputs i { st.outputs i with lockSurface := some st.nextSurface }
      LockOutput.output rfl j
    exact hname ▸ hlive j (hout ▸ hj)

theorem outputTeardown_nOutputs (st : State) (i : Fin MAX_OUTPUTS) :
    (outputTeardown st i).nOutputs = st.nOutputs := by
  rw [outputTeardown]
  cases (st.outputs i).lockSurface <;> rfl

theorem outputTeardown_live (st : State) (i : Fin MAX_OUTPUTS) :
    liveOutputs (outputTeardown st i).past = liveOutputs st.past := by
  rw [outputTeardown]
  cases (st.outputs i).lockSurface <;> rfl

end Veron.SessionLock
