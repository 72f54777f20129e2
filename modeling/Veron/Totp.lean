/-
Checking a one-time code against a seed and the state file that remembers the
last step accepted.  What a run of checks accepts is a list of time steps.
-/
import Veron.DecimalText

namespace Veron.Totp

/-- The state file: its text, `none` while there is no such file. -/
abbrev StateFile := Option (List UInt8)

/-- The value of a base32 digit. -/
def base32Digit (c : UInt8) : Option UInt32 :=
  if 0x41 ≤ c ∧ c ≤ 0x5a then some (c - 0x41).toUInt32
  else if 0x61 ≤ c ∧ c ≤ 0x7a then some (c - 0x61).toUInt32
  else if 0x32 ≤ c ∧ c ≤ 0x37 then some ((c - 0x32).toUInt32 + 26)
  else none

/-- `'='`, a blank and `'-'` are passed over. -/
def base32Skipped (c : UInt8) : Bool := c = 0x3d ∨ c = 0x20 ∨ c = 0x2d

/-- The loop of `base32_decode`; `none` is its -1. -/
def base32Loop (outlen : ℕ) : List UInt8 → UInt32 → ℕ → List UInt8 → Option (List UInt8)
  | [], _, _, out => some out
  | c :: p, buf, bits, out =>
      match base32Digit c with
      | none => if base32Skipped c then base32Loop outlen p buf bits out else none
      | some v =>
          let buf := buf <<< 5 ||| v
          let bits := bits + 5
          if 8 ≤ bits then
            if outlen ≤ out.length then none
            else
              let byte := (buf >>> UInt32.ofNat (bits - 8) &&& 0xff).toUInt8
              base32Loop outlen p buf (bits - 8) (out ++ [byte])
          else base32Loop outlen p buf bits out

/-- The key of a seed text, of which `b32[512]` keeps 511 characters. -/
def keyOf (seed : List UInt8) : Option (List UInt8) :=
  match base32Loop 128 (seed.take 511) 0 0 [] with
  | none => none
  | some key => if key = [] then none else some key

/-- `%06d` of a number below a million. -/
def sixDigits (v : ℕ) : List UInt8 :=
  [100000, 10000, 1000, 100, 10, 1].map fun p => digitByte (v / p % 10)

/-- All bytes are compared before the verdict. -/
def ctEqual (a b : List UInt8) : Bool := (List.zipWith (· ^^^ ·) a b).foldl (· ||| ·) 0 = 0

section

-- the keyed hash of the time step, truncated; negative when it fails
variable (totpAt : List UInt8 → UInt64 → ℤ)

def accepts (key code : List UInt8) (s : UInt64) : Bool :=
  let v := totpAt key s
  if v < 0 ∨ 999999 < v then false else ctEqual (sixDigits v.toNat) code

/-- The loop over `d = -1, 0, 1`; the first step goes around below zero. -/
def matchStep (key code : List UInt8) (step last : UInt64) : Option UInt64 :=
  [step - 1, step, step + 1].find? fun s => !decide (s ≤ last) && accepts totpAt key code s

/-- What a call is given: the code typed and the clock. -/
structure Entry where
  code : List UInt8
  now : UInt64

/-- The step the code of an entry belongs to, with `last` already spent. -/
def candidate (seed : List UInt8) (e : Entry) (last : UInt64) : Option UInt64 :=
  if e.code.length ≠ 6 then none
  else
    match keyOf seed with
    | none => none
    | some key => matchStep totpAt key e.code (e.now / 30) last

theorem lt_of_candidate {seed : List UInt8} {e : Entry} {last s : UInt64}
    (h : candidate totpAt seed e last = some s) : last < s := by
  rw [candidate] at h
  split at h
  · cases h
  · split at h
    · cases h
    · have hfound := List.find?_some h
      simp only [Bool.and_eq_true, Bool.not_eq_true', decide_eq_false_iff_not] at hfound
      exact UInt64.not_le.mp hfound.1

end

/-- How the operations on the state file go in one call.  Printing and flushing
fail after so many bytes. -/
structure Io where
  readOpens : Bool
  writeOpens : Bool
  printFails : Option ℕ
  flushFails : Option ℕ

/-- Every operation succeeds. -/
def Io.sound : Io := ⟨true, true, none, none⟩

/-- The step a state file holds, 0 where it holds none. -/
def stored (file : StateFile) : UInt64 := (file.bind scanULL).getD 0

/-- The last step as it is read: 0 where the file does not open. -/
def readLast (io : Io) (file : StateFile) : UInt64 := if io.readOpens then stored file else 0

def stateText (used : UInt64) : List UInt8 := printDecimal used.toNat ++ [0x0a]

/-- The first bytes of a text, all of them unless the writing failed. -/
def upTo (fails : Option ℕ) (text : List UInt8) : List UInt8 :=
  match fails with
  | none => text
  | some k => text.take k

/-- What the file holds once it was opened for writing: the open empties it. -/
def Io.left (io : Io) (used : UInt64) : List UInt8 :=
  upTo io.flushFails (upTo io.printFails (stateText used))

/-- Recording a step, and whether that is reported as done: only the open and
the flush are looked at. -/
def record (io : Io) (file : StateFile) (used : UInt64) : StateFile × Bool :=
  if io.writeOpens then (some (io.left used), io.flushFails = none) else (file, false)

/-- One call: the state file it leaves, and the step its code was accepted for. -/
def checkSeed (totpAt : List UInt8 → UInt64 → ℤ) (seed : List UInt8) (e : Entry) (io : Io)
    (file : StateFile) : StateFile × Option UInt64 :=
  if e.code.length ≠ 6 then (file, none)
  else
    match keyOf seed with
    | none => (file, none)
    | some key =>
        let last := readLast io file
        match matchStep totpAt key e.code (e.now / 30) last with
        | none => (file, none)
        | some used =>
            let (file', ok) := record io file used
            (file', if ok then some used else none)

@[simp] theorem stored_stateText (s : UInt64) : stored (some (stateText s)) = s := by
  rw [stored, stateText, Option.bind_some, scanULL_printDecimal s (by decide) [], Option.getD_some]

/-- A call is decided by the candidate step and what recording it does. -/
theorem checkSeed_eq (totpAt : List UInt8 → UInt64 → ℤ) (seed : List UInt8) (e : Entry) (io : Io)
    (file : StateFile) :
    checkSeed totpAt seed e io file =
      match candidate totpAt seed e (readLast io file) with
      | none => (file, none)
      | some used => ((record io file used).1,
          if (record io file used).2 then some used else none) := by
  rw [checkSeed, candidate]
  split
  · rfl
  · cases keyOf seed with
    | none => rfl
    | some key => rfl

end Veron.Totp
