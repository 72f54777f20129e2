/-
veron-lock: the client of ext-session-lock-v1 that covers every output, takes what
is typed and unlocks the session, from its connection to the display on.
-/
import Mathlib.Data.List.FinRange
import Mathlib.Logic.Function.Basic
import Veron.History

namespace Veron.SessionLock

abbrev MAX_OUTPUTS : ℕ := 8

def MAX_ENTRY : ℕ := 256

/-- One slot of the output table.  Its lock surface and the wl_surface under it
come and go together and have one number. -/
structure LockOutput where
  name : UInt32
  output : Bool
  lockSurface : Option ℕ
  /-- the size it was created with -/
  buffer : Option (Int32 × Int32)
  cairo : Bool
  width : Int32
  height : Int32
  configured : Bool
deriving DecidableEq

/-- A slot as the program starts with it. -/
def LockOutput.unused : LockOutput := ⟨0, false, none, none, false, 0, 0, false⟩

/-- What a lock surface shows: the message, and a dot for each byte typed. -/
structure Picture where
  message : String
  dots : ℕ
deriving DecidableEq

/-- What xkb makes of a key that is pressed. -/
inductive Press where
  /-- Return or KP_Enter; `veron_verify` answers `ok` if it comes to be asked -/
  | enter (ok : Bool)
  | backspace
  | escape
  /-- any other key, and the bytes of its text -/
  | text (utf8 : List UInt8)
deriving DecidableEq

/-- What the process hears and what it asks for. -/
inductive Item where
  | output (name : UInt32)
  | removed (name : UInt32)
  | locked
  | finished
  | pressed (press : Press)
  | getLockSurface (name : UInt32) (surface : ℕ)
  | ackConfigure (surface : ℕ) (serial width height : UInt32)
  | commit (surface : Option ℕ) (buffer : Option (Int32 × Int32)) (picture : Picture)
  | destroyLockSurface (surface : ℕ)
  | verify (entry : List UInt8) (ok : Bool)
  | unlockAndDestroy
  | destroy
deriving DecidableEq

/-- The static variables, and the history, newest item first. -/
structure State where
  compositor : Bool
  shm : Bool
  lockManager : Bool
  sessionLock : Bool
  keyboard : Bool
  xkbSt : Bool
  outputs : Fin MAX_OUTPUTS → LockOutput
  nOutputs : ℕ
  entry : List UInt8
  lockedOk : Bool
  finished : Bool
  running : Bool
  unlocking : Bool
  failedAttempt : Bool
  checking : Bool
  /-- the number of the next lock surface -/
  nextSurface : ℕ
  past : List Item

def State.start : State where
  compositor := false
  shm := false
  lockManager := false
  sessionLock := false
  keyboard := false
  xkbSt := false
  outputs := fun _ => .unused
  nOutputs := 0
  entry := []
  lockedOk := false
  finished := false
  running := true
  unlocking := false
  failedAttempt := false
  checking := false
  nextSurface := 0
  past := []

def State.emit (st : State) (x : Item) : State := { st with past := x :: st.past }

def State.setOutput (st : State) (i : Fin MAX_OUTPUTS) (o : LockOutput) : State :=
  { st with outputs := Function.update st.outputs i o }

/-- How far `output_alloc` gets when it needs a new buffer. -/
inductive Memory where
  | noMapping
  | noCairo
  | all
deriving DecidableEq

/-- Whether the slot can be drawn to afterwards, and the slot. -/
def outputAlloc (o : LockOutput) (w h : Int32) (memory : Memory) : LockOutput × Bool :=
  if o.buffer ≠ none ∧ o.width = w ∧ o.height = h then (o, true)
  else
    let o := { o with cairo := false, buffer := none, width := w, height := h }
    match memory with
    | .noMapping => (o, false)
    | .noCairo => ({ o with buffer := some (w, h) }, false)
    | .all => ({ o with buffer := some (w, h), cairo := true }, true)

def picture (st : State) : Picture where
  message :=
    if st.checking then "Checking..." else if st.failedAttempt then "Not accepted" else "Locked"
  dots := if 20 < st.entry.length then 20 else st.entry.length

def draw (st : State) (o : LockOutput) : State :=
  if o.cairo then st.emit (.commit o.lockSurface o.buffer (picture st)) else st

def drawAll (st : State) : State :=
  (List.finRange MAX_OUTPUTS).foldl
    (fun st i =>
      if i.val < st.nOutputs ∧ (st.outputs i).configured then draw st (st.outputs i) else st) st

/-- `surface_configure`, for the lock surface of a slot. -/
def surfaceConfigure (st : State) (i : Fin MAX_OUTPUTS) (s : ℕ) (serial width height : UInt32)
    (memory : Memory) : State :=
  let st := st.emit (.ackConfigure s serial width height)
  let (o, ok) := outputAlloc (st.outputs i) width.toInt32 height.toInt32 memory
  if ok then
    let o := { o with configured := true }
    draw (st.setOutput i o) o
  else st.setOutput i o

def outputTeardown (st : State) (i : Fin MAX_OUTPUTS) : State :=
  let o := st.outputs i
  let st := match o.lockSurface with
    | some s => st.emit (.destroyLockSurface s)
    | none => st
  st.setOutput i { LockOutput.unused with name := o.name }

def outputAttach (st : State) (i : Fin MAX_OUTPUTS) : State :=
  let o := st.outputs i
  if !st.sessionLock || !o.output || o.lockSurface.isSome then st
  else
    let s := st.nextSurface
    { (st.emit (.getLockSurface o.name s)).setOutput i { o with lockSurface := some s } with
      nextSurface := s + 1 }

def lockLocked (st : State) : State := { st.emit .locked with lockedOk := true }

def lockFinished (st : State) : State :=
  { st.emit .finished with finished := true, running := false }

def tryUnlock (st : State) (ok : Bool) : State :=
  let st := drawAll { st with checking := true }
  let st := { st.emit (.verify st.entry ok) with entry := [], checking := false }
  if ok then { st with unlocking := true, running := false }
  else drawAll { st with failedAttempt := true }

/-- A keymap that cannot be read leaves the old one. -/
def kbKeymap (st : State) (readable compiled : Bool) : State :=
  if readable then { st with xkbSt := compiled } else st

def kbKey (st : State) (down : Bool) (press : Press) : State :=
  if !down || !st.xkbSt then st
  else
    let st := st.emit (.pressed press)
    match press with
    | .enter ok => tryUnlock st ok
    | .backspace => drawAll { st with entry := st.entry.dropLast, failedAttempt := false }
    | .escape => drawAll { st with entry := [], failedAttempt := false }
    | .text utf8 =>
        if 0 < utf8.length ∧ st.entry.length + utf8.length < MAX_ENTRY - 1 then
          drawAll { st with entry := st.entry ++ utf8, failedAttempt := false }
        else st

def kbEnter (st : State) : State :=
  if st.failedAttempt then drawAll { st with failedAttempt := false } else st

/-- Released when the capability goes, bound again when it comes back. -/
def seatCaps (st : State) (keyboard : Bool) : State := { st with keyboard := keyboard }

/-- What the registry offers, by the name of its interface. -/
inductive Global where
  | compositor
  | shm
  | seat
  | lockManager
  | output (name : UInt32)
  | other
deriving DecidableEq

/-- The slot for a new output and the number of slots in use with it: one that an
earlier removal emptied, or the next. -/
def slotFor (st : State) : Option (Fin MAX_OUTPUTS × ℕ) :=
  match (List.finRange MAX_OUTPUTS).find?
      fun k => k.val < st.nOutputs && !(st.outputs k).output with
  | some i => some (i, st.nOutputs)
  | none =>
      if h : st.nOutputs < MAX_OUTPUTS then some (⟨st.nOutputs, h⟩, st.nOutputs + 1) else none

def regGlobal (st : State) : Global → State
  | .compositor => { st with compositor := true }
  | .shm => { st with shm := true }
  | .seat => st
  | .lockManager => { st with lockManager := true }
  | .output name =>
      let st := st.emit (.output name)
      match slotFor st with
      | none => st
      | some (i, n) =>
          outputAttach
            { st.setOutput i { st.outputs i with name := name, output := true } with
              nOutputs := n } i
  | .other => st

def regRemove (st : State) (name : UInt32) : State :=
  (List.finRange MAX_OUTPUTS).foldl
    (fun st i =>
      if i.val < st.nOutputs ∧ (st.outputs i).output ∧ (st.outputs i).name = name then
        outputTeardown st i
      else st) (st.emit (.removed name))

/-- What the compositor sends. -/
inductive Event where
  | global (g : Global)
  | globalRemove (name : UInt32)
  | capabilities (keyboard : Bool)
  | keymap (readable compiled : Bool)
  | focus
  | key (down : Bool) (press : Press)
  | configure (surface : ℕ) (serial width height : UInt32) (memory : Memory)
  | locked
  | finished
deriving DecidableEq

/-- An event for an object the process does not have goes nowhere. -/
def handle (st : State) : Event → State
  | .global g => regGlobal st g
  | .globalRemove name => regRemove st name
  | .capabilities keyboard => seatCaps st keyboard
  | .keymap readable compiled => if st.keyboard then kbKeymap st readable compiled else st
  | .focus => if st.keyboard then kbEnter st else st
  | .key down press => if st.keyboard then kbKey st down press else st
  | .configure s serial width height memory =>
      match (List.finRange MAX_OUTPUTS).find? fun i => (st.outputs i).lockSurface = some s with
      | some i => surfaceConfigure st i s serial width height memory
      | none => st
  | .locked => if st.sessionLock then lockLocked st else st
  | .finished => if st.sessionLock then lockFinished st else st

/-- Dispatch one batch of events: all of it, whatever becomes of `running`. -/
def dispatch (st : State) (batch : List Event) : State := batch.foldl handle st

/-- The event loop, and the batches it leaves.  When there are no more, the display
is gone and dispatching fails. -/
def eventLoop : State → List (List Event) → State × List (List Event)
  | st, [] => (st, [])
  | st, batch :: rest =>
      if st.running then eventLoop (dispatch st batch) rest else (st, batch :: rest)

/-- The last roundtrip, in which nothing reaches the lock any more. -/
def lastRoundtrip (st : State) (rest : List (List Event)) : State :=
  dispatch st (rest.flatten.filter fun e => e ≠ .locked ∧ e ≠ .finished)

def takeLock (st : State) : State :=
  (List.finRange MAX_OUTPUTS).foldl
    (fun st i => if i.val < st.nOutputs then outputAttach st i else st)
    { st with sessionLock := true }

structure Ended where
  past : List Item
  exit : ℕ
deriving DecidableEq

/-- `main`, once connected: the events of the first two roundtrips, and then one
batch after another. -/
def main (xkbContext : Bool) (startup : List Event) (batches : List (List Event)) : Ended :=
  let st := dispatch .start startup
  if !st.compositor || !st.shm || !st.lockManager then ⟨st.past, 1⟩
  else if st.nOutputs = 0 then ⟨st.past, 1⟩
  else if !xkbContext then ⟨st.past, 1⟩
  else
    let (st, rest) := eventLoop (takeLock st) batches
    if st.finished then ⟨(lastRoundtrip (st.emit .destroy) rest).past, 1⟩
    else if st.unlocking then ⟨(lastRoundtrip (st.emit .unlockAndDestroy) rest).past, 0⟩
    else ⟨st.past, 2⟩

end Veron.SessionLock
