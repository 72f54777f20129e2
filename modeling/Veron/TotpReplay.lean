/-
Runs of one-time code checks on one state file, whatever its operations do:
when no time step is accepted twice.
-/
import Veron.Totp

namespace Veron.Totp

variable (totpAt : List UInt8 → UInt64 → ℤ) (seed : List UInt8)

/-- A call with its luck. -/
structure Call where
  entry : Entry
  io : Io

/-- The steps a sequence of calls accepts, in order. -/
def acceptedSteps : StateFile → List Call → List UInt64
  | _, [] => []
  | file, c :: calls =>
      let (file', used) := checkSeed totpAt seed c.entry c.io file
      used.toList ++ acceptedSteps file' calls

/-- The call keeps what the state file is for.  A failed read makes no
difference to the step the code is taken for; and what is left in a file opened
for writing still rules out the steps ruled out before, and the step accepted
now if the write is taken for done. -/
def Call.Keeps (c : Call) (file : StateFile) : Prop :=
  (c.io.readOpens = true ∨
    candidate totpAt seed c.entry 0 = candidate totpAt seed c.entry (stored file)) ∧
  ∀ used, candidate totpAt seed c.entry (stored file) = some used → c.io.writeOpens = true →
    stored file ≤ stored (some (c.io.left used)) ∧
      (c.io.flushFails = none → used ≤ stored (some (c.io.left used)))

/-- Every call keeps the file it finds. -/
def KeepsAll : StateFile → List Call → Prop
  | _, [] => True
  | file, c :: calls =>
      c.Keeps totpAt seed file ∧ KeepsAll (checkSeed totpAt seed c.entry c.io file).1 calls

variable {totpAt seed}

/-- A readable file is kept when it cannot be opened for writing, and when the
whole line gets written. -/
theorem keeps_of_written {c : Call} {file : StateFile} (hread : c.io.readOpens = true)
    (hwrite : c.io.writeOpens = true → c.io.printFails = none ∧ c.io.flushFails = none) :
    c.Keeps totpAt seed file := by
  refine ⟨.inl hread, fun used hused hopen => ?_⟩
  obtain ⟨hprint, hflush⟩ := hwrite hopen
  have hleft : c.io.left used = stateText used := by rw [Io.left, hprint, hflush, upTo, upTo]
  rw [hleft, stored_stateText]
  exact ⟨UInt64.le_of_lt (lt_of_candidate totpAt hused), fun _ => UInt64.le_refl used⟩

/-- What one call does to the steps ruled out. -/
theorem checkSeed_step {c : Call} {file : StateFile} (h : c.Keeps totpAt seed file) :
    stored file ≤ stored (checkSeed totpAt seed c.entry c.io file).1 ∧
      ∀ used, (checkSeed totpAt seed c.entry c.io file).2 = some used →
        stored file < used ∧ used ≤ stored (checkSeed totpAt seed c.entry c.io file).1 := by
  obtain ⟨hread, hwrite⟩ := h
  have hsame : candidate totpAt seed c.entry (readLast c.io file) =
      candidate totpAt seed c.entry (stored file) := by
    rw [readLast]
    split
    · rfl
    · exact hread.resolve_left ‹_›
  rw [checkSeed_eq, hsame]
  cases hused : candidate totpAt seed c.entry (stored file) with
  | none => exact ⟨UInt64.le_refl _, fun used h => by cases h⟩
  | some used =>
      have hlt := lt_of_candidate totpAt hused
      by_cases hopen : c.io.writeOpens = true
      · obtain ⟨hold, hnew⟩ := hwrite used hused hopen
        simp only [record, if_pos hopen]
        refine ⟨hold, fun used' h => ?_⟩
        split at h
        · obtain rfl := Option.some.inj h
          exact ⟨hlt, hnew (of_decide_eq_true ‹_›)⟩
        · cases h
      · simp only [record, if_neg hopen]
        exact ⟨UInt64.le_refl _, fun used' h => by cases h⟩

theorem acceptedSteps_above {file : StateFile} {calls : List Call}
    (h : KeepsAll totpAt seed file calls) :
    (∀ s ∈ acceptedSteps totpAt seed file calls, stored file < s) ∧
      (acceptedSteps totpAt seed file calls).Pairwise (· < ·) := by
  induction calls generalizing file with
  | nil => simp [acceptedSteps]
  | cons c calls ih =>
      obtain ⟨hc, hcalls⟩ := h
      obtain ⟨hold, hnew⟩ := checkSeed_step hc
      obtain ⟨habove, hpairs⟩ := ih hcalls
      rw [acceptedSteps]
      cases hused : (checkSeed totpAt seed c.entry c.io file).2 with
      | none =>
          simp only [hused, Option.toList_none, List.nil_append]
          exact ⟨fun s hs => UInt64.lt_of_le_of_lt hold (habove s hs), hpairs⟩
      | some used =>
          obtain ⟨hlt, hle⟩ := hnew used hused
          simp only [hused, Option.toList_some, List.singleton_append, List.mem_cons,
            List.pairwise_cons]
          refine ⟨?_, fun s hs => UInt64.lt_of_le_of_lt hle (habove s hs), hpairs⟩
          rintro s (rfl | hs)
          · exact hlt
          · exact UInt64.lt_of_le_of_lt hold (habove s hs)

/-- As long as every call keeps the state file, the steps accepted increase
strictly. -/
theorem acceptedSteps_increasing (file : StateFile) (calls : List Call)
    (h : KeepsAll totpAt seed file calls) :
    (acceptedSteps totpAt seed file calls).Pairwise (· < ·) :=
  (acceptedSteps_above h).2

/-- The secret `12345678901234567890`. -/
def sampleSeed : List UInt8 := "GEZDGNBVGY3TQOJQGEZDGNBVGY3TQOJQ".toList.map (·.toNat.toUInt8)

/-- The codes of that secret for the first counters. -/
def sampleTotp (key : List UInt8) (s : UInt64) : ℤ :=
  if key ≠ (List.range 20).map fun i => digitByte ((i + 1) % 10) then -1
  else if s = 0 then 755224
  else if s = 1 then 287082
  else if s = 2 then 359152
  else if s = 3 then 969429
  else -1

def code (v : ℕ) (now : UInt64) : Entry := ⟨sixDigits v, now⟩

theorem acceptedSteps_increasing_sample :
    (acceptedSteps sampleTotp sampleSeed none
      [⟨code 287082 59, Io.sound⟩, ⟨code 287082 59, Io.sound⟩,
        ⟨code 359152 70, ⟨true, false, none, none⟩⟩, ⟨code 359152 75, Io.sound⟩]).Pairwise
      (· < ·) := by
  apply acceptedSteps_increasing
  refine ⟨?_, ?_, ?_, ?_, trivial⟩
  all_goals exact keeps_of_written rfl (by decide)

/-- The second call empties the file for the next step and fails to write it, so
the third is accepted for the step of the first. -/
theorem acceptedSteps_repeat :
    ¬ (acceptedSteps sampleTotp sampleSeed none
      [⟨code 287082 59, Io.sound⟩, ⟨code 359152 59, ⟨true, true, none, some 0⟩⟩,
        ⟨code 287082 59, Io.sound⟩]).Pairwise (· < ·) := by
  decide

end Veron.Totp
