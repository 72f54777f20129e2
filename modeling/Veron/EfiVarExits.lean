/-
What `write_var` leaves behind on each of its exits: what the variable holds,
whether it was written, and whether a flag that was cleared was set again.
-/
import Veron.EfiVar

namespace Veron.EfiVar

/-- The flag ioctls among some calls: what they ask for, and whether they succeed. -/
def flagCalls (calls : List Call) : List (Flags × Bool) :=
  calls.filterMap fun
    | .setFlags want succeeds => some (want, succeeds)
    | _ => none

/-- Once the flag has been cleared, a call to set it follows. -/
def Restored (flagCalls : List (Flags × Bool)) : Prop :=
  ∀ before want after, flagCalls = before ++ (want, true) :: after →
    want &&& FS_IMMUTABLE_FL = 0 → ∃ call ∈ after, call.1 &&& FS_IMMUTABLE_FL ≠ 0

def Writes (calls : List Call) : Prop := ∃ msg, .write msg ∈ calls

/-- What `write_var` is to do with a variable, on whatever path it ends. -/
structure Honoured (data : List UInt8) (file : Option (List UInt8)) (run : Run) : Prop where
  stored : run.outcome = .returned → run.file = some (message data)
  spared : file = some (message data) → ¬ Writes run.calls
  restored : Restored (flagCalls run.calls)

/-- The flag cannot be cleared. -/
def FlagResults.Refused (noChattr : Bool) (r : FlagResults) : Prop :=
  noChattr = false ∧ ((∃ e, r.opened = .error e ∧ e ≠ .ENOENT) ∨
    r.opened = .ok () ∧ ((∃ e, r.flags = .error e) ∨
      ∃ flags e, r.flags = .ok flags ∧ flags &&& FS_IMMUTABLE_FL ≠ 0 ∧ r.set = .error e))

/-- The flag was set and is cleared. -/
def FlagResults.Cleared (noChattr : Bool) (r : FlagResults) : Prop :=
  noChattr = false ∧ r.opened = .ok () ∧
    (∃ flags, r.flags = .ok flags ∧ flags &&& FS_IMMUTABLE_FL ≠ 0) ∧ r.set = .ok ()

/-- The file can be opened and is found without the flag. -/
def FlagResults.Unset (r : FlagResults) : Prop :=
  r.opened = .ok () ∧ ∃ flags, r.flags = .ok flags ∧ flags &&& FS_IMMUTABLE_FL = 0

/-- The file cannot be opened, or the write fails for good. -/
def Attempt.Fatal (a : Attempt) : Prop :=
  (∃ e, a.opened = .error e) ∨ ∃ e, a.written = .error e ∧ e ≠ .EINTR ∧ e ≠ .EBUSY

/-- A short write, or one to be tried again. -/
def Attempt.Retried (total : ℕ) (a : Attempt) : Prop :=
  a.opened = .ok () ∧ ((∃ n, a.written = .ok n ∧ n ≠ total) ∨
    a.written = .error .EINTR ∨ a.written = .error .EBUSY)

/-- None of so many attempts from this one on is fatal behind attempts that were
all to be tried again. -/
def Survives (total : ℕ) (attempts : ℕ → Attempt) (rounds attempt : ℕ) : Prop :=
  ∀ n < rounds, (∀ m < n, (attempts (attempt + m)).Retried total) →
    ¬ (attempts (attempt + n)).Fatal

/-- The answers under which `write_var` does what it is to do: where the variable
holds the message already, it can be read, or else nothing gets as far as a write;
where a flag is cleared, the loop does not die and the file is found without it. -/
structure Harmless (noChattr : Bool) (data : List UInt8) (r : Results)
    (file : Option (List UInt8)) : Prop where
  spared : file = some (message data) → r.first.Whole (message data).length ∨
    r.clear.Refused noChattr ∨ ∃ e, (r.attempts 0).opened = .error e
  restored : ¬ (file = some (message data) ∧ r.first.Whole (message data).length) →
    r.clear.Cleared noChattr →
      Survives (message data).length r.attempts RETRIES 0 ∧ r.restore.Unset

theorem cleared_and (flags : Flags) : (flags &&& ~~~FS_IMMUTABLE_FL) &&& FS_IMMUTABLE_FL = 0 := by
  rw [UInt64.and_assoc]
  simp

theorem set_and (flags : Flags) :
    (flags ||| FS_IMMUTABLE_FL) &&& FS_IMMUTABLE_FL = FS_IMMUTABLE_FL := by
  apply UInt64.toBitVec_inj.mp
  apply BitVec.eq_of_getLsbD_eq
  intro i _
  simp only [UInt64.toBitVec_and, UInt64.toBitVec_or, BitVec.getLsbD_and, BitVec.getLsbD_or]
  cases FS_IMMUTABLE_FL.toBitVec.getLsbD i <;> simp

/-- The mask is a single bit. -/
theorem and_eq (flags : Flags) :
    flags &&& FS_IMMUTABLE_FL = 0 ∨ flags &&& FS_IMMUTABLE_FL = FS_IMMUTABLE_FL := by
  have h := BitVec.and_twoPow flags.toBitVec 4
  split at h
  · right
    exact UInt64.toBitVec_inj.mp h
  · left
    exact UInt64.toBitVec_inj.mp h

theorem clear_eq_iff (flags : Flags) :
    flags &&& ~~~FS_IMMUTABLE_FL = flags ↔ flags &&& FS_IMMUTABLE_FL = 0 := by
  constructor
  · intro h
    rw [← h]
    exact cleared_and flags
  · intro h
    apply UInt64.toBitVec_inj.mp
    apply BitVec.eq_of_getLsbD_eq
    intro i hi
    have hbit := congrArg (fun x : Flags => x.toBitVec.getLsbD i) h
    simp only [UInt64.toBitVec_and, UInt64.toBitVec_not, BitVec.getLsbD_and, BitVec.getLsbD_not,
      hi] at hbit ⊢
    cases hmask : FS_IMMUTABLE_FL.toBitVec.getLsbD i
    · simp
    · rw [hmask] at hbit
      simpa using hbit

theorem set_eq_iff (flags : Flags) :
    flags ||| FS_IMMUTABLE_FL = flags ↔ flags &&& FS_IMMUTABLE_FL ≠ 0 := by
  constructor
  · intro h
    rw [← h, set_and]
    decide
  · intro h
    have hmask := (and_eq flags).resolve_left h
    apply UInt64.toBitVec_inj.mp
    apply BitVec.eq_of_getLsbD_eq
    intro i _
    have hbit := congrArg (fun x : Flags => x.toBitVec.getLsbD i) hmask
    simp only [UInt64.toBitVec_and, UInt64.toBitVec_or, BitVec.getLsbD_and,
      BitVec.getLsbD_or] at hbit ⊢
    rw [← hbit]
    cases flags.toBitVec.getLsbD i <;> simp

@[simp] theorem flagCalls_append (p q : List Call) :
    flagCalls (p ++ q) = flagCalls p ++ flagCalls q :=
  List.filterMap_append

theorem writes_append {p q : List Call} : Writes (p ++ q) ↔ Writes p ∨ Writes q := by
  simp [Writes, exists_or]

/-- Calls that neither write nor touch the flags. -/
def Quiet (calls : List Call) : Prop := flagCalls calls = [] ∧ ¬ Writes calls

theorem readVar_quiet (r : ReadResults) (file : Option (List UInt8)) :
    Quiet (readVar r file).1 := by
  rcases r with ⟨opened, fstat, read⟩
  rw [readVar.eq_def]
  repeat' split
  all_goals exact ⟨rfl, by simp [Writes]⟩

theorem chattr_not_writes (noChattr set : Bool) (r : FlagResults) :
    ¬ Writes (chattrImmutable noChattr set r).calls := by
  rw [chattrImmutable]
  dsimp only
  repeat' split
  all_goals simp [Writes]

/-- Clearing the flag: refused; nothing to do; or a flag that was set is cleared. -/
theorem chattr_clear (noChattr : Bool) (r : FlagResults) :
    (chattrImmutable noChattr false r).ok = false ∧ r.Refused noChattr ∧ ¬ r.Cleared noChattr ∧
        (∀ call ∈ flagCalls (chattrImmutable noChattr false r).calls, call.2 = false) ∨
      (chattrImmutable noChattr false r).ok = true ∧ ¬ r.Refused noChattr ∧ ¬ r.Cleared noChattr ∧
        flagCalls (chattrImmutable noChattr false r).calls = [] ∨
      (chattrImmutable noChattr false r).ok = true ∧ ¬ r.Refused noChattr ∧ r.Cleared noChattr ∧
        ∃ want, want &&& FS_IMMUTABLE_FL = 0 ∧
          flagCalls (chattrImmutable noChattr false r).calls = [(want, true)] := by
  rcases r with ⟨opened, flags, set⟩
  cases noChattr with
  | true =>
      right; left
      simp [chattrImmutable, FlagResults.Refused, FlagResults.Cleared, flagCalls]
  | false =>
      cases opened with
      | error e =>
          by_cases he : e = .ENOENT
          · right; left
            simp [chattrImmutable, FlagResults.Refused, FlagResults.Cleared, flagCalls, he]
          · left
            simp [chattrImmutable, FlagResults.Refused, FlagResults.Cleared, flagCalls, he]
      | ok _ =>
          cases flags with
          | error e =>
              left
              simp [chattrImmutable, FlagResults.Refused, FlagResults.Cleared, flagCalls]
          | ok flags =>
              by_cases hflag : flags &&& FS_IMMUTABLE_FL = 0
              · right; left
                have hwant := (clear_eq_iff flags).mpr hflag
                simp [chattrImmutable, FlagResults.Refused, FlagResults.Cleared, flagCalls, hflag,
                  hwant]
              · have hwant := mt (clear_eq_iff flags).mp hflag
                cases set with
                | error e =>
                    left
                    simp [chattrImmutable, FlagResults.Refused, FlagResults.Cleared, flagCalls,
                      hflag, hwant, Except.toBool]
                | ok _ =>
                    right; right
                    have hclear := cleared_and flags
                    simp [chattrImmutable, FlagResults.Refused, FlagResults.Cleared, flagCalls,
                      hflag, hwant, hclear, Except.toBool]

/-- Setting the flag again: called for only where the file is found without it. -/
theorem chattr_set (r : FlagResults) :
    r.Unset ∧ (∃ call, call.1 &&& FS_IMMUTABLE_FL ≠ 0 ∧
        flagCalls (chattrImmutable false true r).calls = [call]) ∨
      ¬ r.Unset ∧ flagCalls (chattrImmutable false true r).calls = [] := by
  rcases r with ⟨opened, flags, set⟩
  cases opened with
  | error e =>
      right
      simp [chattrImmutable, FlagResults.Unset, flagCalls]
  | ok _ =>
      cases flags with
      | error e =>
          right
          simp [chattrImmutable, FlagResults.Unset, flagCalls]
      | ok flags =>
          by_cases hflag : flags &&& FS_IMMUTABLE_FL = 0
          · left
            have hwant : flags ||| FS_IMMUTABLE_FL ≠ flags :=
              fun h => (set_eq_iff flags).mp h hflag
            have hset : (flags ||| FS_IMMUTABLE_FL) &&& FS_IMMUTABLE_FL ≠ 0 := by
              rw [set_and]
              decide
            simp [chattrImmutable, FlagResults.Unset, flagCalls, hflag, hwant, hset]
          · right
            have hwant := (set_eq_iff flags).mpr hflag
            simp [chattrImmutable, FlagResults.Unset, flagCalls, hflag, hwant]

variable {msg : List UInt8} {attempts : ℕ → Attempt}

/-- A round either ends the loop or, with an attempt to be tried again, goes on. -/
theorem writeLoop_cases (msg : List UInt8) (attempts : ℕ → Attempt) (file : Option (List UInt8))
    (rounds attempt : ℕ) :
    (attempts attempt).Retried msg.length ∧ ¬ (attempts attempt).Fatal ∧
        writeLoop msg attempts file (rounds + 1) attempt =
          { writeLoop msg attempts (attempts attempt).after rounds (attempt + 1) with
            calls := [.openWrite, .write msg, .close, .usleep] ++
              (writeLoop msg attempts (attempts attempt).after rounds (attempt + 1)).calls } ∨
      ¬ (attempts attempt).Retried msg.length ∧
        flagCalls (writeLoop msg attempts file (rounds + 1) attempt).calls = [] ∧
        ((attempts attempt).Fatal ∧
            (∃ m, (writeLoop msg attempts file (rounds + 1) attempt).result = .died m) ∨
          ¬ (attempts attempt).Fatal ∧
            (writeLoop msg attempts file (rounds + 1) attempt).result = .ok) := by
  rw [writeLoop]
  rcases attempts attempt with ⟨opened, written, after⟩
  cases opened with
  | error e =>
      right
      simp [Attempt.Retried, Attempt.Fatal, flagCalls]
  | ok _ =>
      cases written with
      | ok n =>
          by_cases hn : n = msg.length
          · right
            simp [Attempt.Retried, Attempt.Fatal, flagCalls, hn]
          · left
            simp [Attempt.Retried, Attempt.Fatal, hn]
      | error e =>
          by_cases he : e = .EINTR ∨ e = .EBUSY
          · left
            rcases he with rfl | rfl
            · simp [Attempt.Retried, Attempt.Fatal]
            · simp [Attempt.Retried, Attempt.Fatal]
          · right
            have hnot := not_or.mp he
            simp [Attempt.Retried, Attempt.Fatal, flagCalls, hnot.1, hnot.2]

theorem writeLoop_flagCalls (msg : List UInt8) (attempts : ℕ → Attempt)
    (file : Option (List UInt8)) (rounds attempt : ℕ) :
    flagCalls (writeLoop msg attempts file rounds attempt).calls = [] := by
  induction rounds generalizing file attempt with
  | zero => rfl
  | succ rounds ih =>
      rcases writeLoop_cases msg attempts file rounds attempt with ⟨-, -, heq⟩ | ⟨-, hnil, -⟩
      · rw [heq, flagCalls_append, ih]
        rfl
      · exact hnil

theorem writeLoop_died_iff (msg : List UInt8) (attempts : ℕ → Attempt)
    (file : Option (List UInt8)) (rounds attempt : ℕ) :
    (∃ m, (writeLoop msg attempts file rounds attempt).result = .died m) ↔
      ¬ Survives msg.length attempts rounds attempt := by
  induction rounds generalizing file attempt with
  | zero => simp [writeLoop, Survives]
  | succ rounds ih =>
      rcases writeLoop_cases msg attempts file rounds attempt with
        ⟨hretried, hnot, heq⟩ | ⟨hretried, -, ⟨hfatal, hdied⟩ | ⟨hnot, hok⟩⟩
      · rw [heq, ih, not_iff_not]
        constructor
        · intro h n hn hm
          match n with
          | 0 => exact hnot
          | n + 1 =>
              have hlater := h n (by omega) fun m hm' => by
                have := hm (m + 1) (by omega)
                rwa [← Nat.add_assoc, Nat.add_right_comm] at this
              rwa [← Nat.add_assoc, Nat.add_right_comm]
        · intro h n hn hm
          have hlater := h (n + 1) (by omega) fun m hm' => by
            match m with
            | 0 => exact hretried
            | m + 1 =>
                have := hm m (by omega)
                rwa [Nat.add_right_comm, Nat.add_assoc] at this
          rwa [← Nat.add_assoc, Nat.add_right_comm] at hlater
      · exact iff_of_true hdied fun h => h 0 (by omega) (by simp) hfatal
      · refine iff_of_false (by simp [hok]) (not_not.mpr fun n hn hm => ?_)
        match n with
        | 0 => exact hnot
        | n + 1 => exact absurd (hm 0 (by omega)) hretried

/-- The first round writes if the file can be opened for it. -/
theorem writeLoop_writes (msg : List UInt8) (attempts : ℕ → Attempt)
    (file : Option (List UInt8)) (rounds attempt : ℕ) :
    Writes (writeLoop msg attempts file (rounds + 1) attempt).calls ↔
      (attempts attempt).opened = .ok () := by
  rw [writeLoop]
  cases hopened : (attempts attempt).opened with
  | error e => simp [Writes]
  | ok _ =>
      dsimp only
      repeat' split
      all_goals simp [Writes]

variable {noChattr : Bool} {data : List UInt8} {r : Results} {file : Option (List UInt8)}

theorem readBack_spec (data : List UInt8) (r : ReadResults) (file : Option (List UInt8)) :
    Quiet (readBack data r file).calls ∧
      ((readBack data r file).outcome = .returned →
        (readBack data r file).file = some (message data)) := by
  have hquiet := readVar_quiet r file
  rw [readBack]
  rcases hread : readVar r file with ⟨calls, chk⟩
  rw [hread] at hquiet
  cases chk with
  | none => exact ⟨hquiet, fun h => by cases h⟩
  | some chk =>
      dsimp only
      by_cases hchk : chk = message data
      · rw [if_neg (not_not.mpr hchk)]
        have hsnd : (readVar r file).2 = some chk := by rw [hread]
        exact ⟨hquiet, fun _ => hchk ▸ (readVar_eq_some_iff.mp hsnd).1⟩
      · rw [if_pos hchk]
        exact ⟨hquiet, fun h => by cases h⟩

/-- The calls of `write_var` where there is something to do, exit by exit. -/
theorem writeChanged_calls (noChattr : Bool) (data : List UInt8) (r : Results)
    (file : Option (List UInt8)) :
    (r.clear.Refused noChattr ∧
        (writeChanged noChattr data r file).calls =
          (chattrImmutable noChattr false r.clear).calls) ∨
      (¬ r.clear.Refused noChattr ∧ ¬ Survives (message data).length r.attempts RETRIES 0 ∧
        (writeChanged noChattr data r file).calls =
          (chattrImmutable noChattr false r.clear).calls ++
            (writeLoop (message data) r.attempts file RETRIES 0).calls) ∨
      (¬ r.clear.Refused noChattr ∧ Survives (message data).length r.attempts RETRIES 0 ∧
        ∃ rest, Quiet rest ∧
          (writeChanged noChattr data r file).calls =
            (chattrImmutable noChattr false r.clear).calls ++
              (writeLoop (message data) r.attempts file RETRIES 0).calls ++
              (chattrImmutable noChattr true r.restore).calls ++ rest) := by
  rw [writeChanged]
  rcases chattr_clear noChattr r.clear with ⟨hok, href, -⟩ | ⟨hok, href, -⟩ | ⟨hok, href, -⟩
  · left
    rw [if_pos hok]
    exact ⟨href, rfl⟩
  all_goals
    right
    have hdied := writeLoop_died_iff (message data) r.attempts file RETRIES 0
    rw [if_neg (by simp [hok])]
    cases hresult : (writeLoop (message data) r.attempts file RETRIES 0).result with
    | died m =>
        left
        exact ⟨href, hdied.mp ⟨m, hresult⟩, by simp only [hresult]⟩
    | exhausted =>
        right
        have hsurvives := not_not.mp (mt hdied.mpr (by simp [hresult]))
        refine ⟨href, hsurvives, [], ⟨rfl, by simp [Writes]⟩, ?_⟩
        simp only [hresult, List.append_nil]
    | ok =>
        right
        have hsurvives := not_not.mp (mt hdied.mpr (by simp [hresult]))
        have hquiet := (readBack_spec data r.back
          (writeLoop (message data) r.attempts file RETRIES 0).file).1
        refine ⟨href, hsurvives, _, hquiet, ?_⟩
        simp only [hresult, Run.behind]

theorem writeChanged_stored (h : (writeChanged noChattr data r file).outcome = .returned) :
    (writeChanged noChattr data r file).file = some (message data) := by
  rw [writeChanged] at h ⊢
  dsimp only at h ⊢
  split at h
  · cases h
  · rw [if_neg ‹_›]
    split at h
    · cases h
    · cases h
    · exact (readBack_spec data r.back _).2 h

theorem writeChanged_writes :
    Writes (writeChanged noChattr data r file).calls ↔
      ¬ r.clear.Refused noChattr ∧ (r.attempts 0).opened = .ok () := by
  have hclear := chattr_not_writes noChattr false r.clear
  have hrestore := chattr_not_writes noChattr true r.restore
  have hloop := writeLoop_writes (message data) r.attempts file 24 0
  rcases writeChanged_calls noChattr data r file with
    ⟨href, hcalls⟩ | ⟨href, -, hcalls⟩ | ⟨href, -, rest, hrest, hcalls⟩
  · rw [hcalls]
    exact iff_of_false hclear fun h => h.1 href
  · rw [hcalls, writes_append, or_iff_right hclear, and_iff_right href]
    exact hloop
  · rw [hcalls, writes_append, writes_append, writes_append, or_iff_left hrest.2,
      or_iff_left hrestore, or_iff_right hclear, and_iff_right href]
    exact hloop

theorem restored_of_failed {calls : List (Flags × Bool)}
    (h : ∀ call ∈ calls, call.2 = true → call.1 &&& FS_IMMUTABLE_FL ≠ 0) : Restored calls := by
  intro before want after heq hwant
  have hmem : (want, true) ∈ calls := by simp [heq]
  exact absurd hwant (h _ hmem rfl)

theorem not_restored_singleton {want : Flags} (h : want &&& FS_IMMUTABLE_FL = 0) :
    ¬ Restored [(want, true)] := by
  intro hrestored
  obtain ⟨call, hcall, -⟩ := hrestored [] want [] rfl h
  cases hcall

theorem restored_pair {want : Flags} {call : Flags × Bool}
    (hcall : call.1 &&& FS_IMMUTABLE_FL ≠ 0) : Restored [(want, true), call] := by
  intro before want' after heq hwant
  match before with
  | [] =>
      obtain ⟨-, rfl⟩ := List.cons.inj heq
      exact ⟨call, List.mem_singleton_self call, hcall⟩
  | _ :: before =>
      obtain ⟨-, htail⟩ := List.cons.inj heq
      have hmem : (want', true) ∈ [call] := by rw [htail]; simp
      rw [← List.mem_singleton.mp hmem] at hcall
      exact absurd hwant hcall

theorem writeChanged_restored :
    Restored (flagCalls (writeChanged noChattr data r file).calls) ↔
      (r.clear.Cleared noChattr →
        Survives (message data).length r.attempts RETRIES 0 ∧ r.restore.Unset) := by
  have hloop := writeLoop_flagCalls (message data) r.attempts file RETRIES 0
  rcases chattr_clear noChattr r.clear with
    ⟨-, href, hnot, hfailed⟩ | ⟨-, href, hnot, hnone⟩ | ⟨-, href, hcleared, want, hwant, hone⟩
  · -- refused: nothing has been cleared
    refine iff_of_true ?_ fun h => absurd h hnot
    rcases writeChanged_calls noChattr data r file with ⟨-, hcalls⟩ | ⟨h, -⟩ | ⟨h, -⟩
    · rw [hcalls]
      exact restored_of_failed fun call hcall htrue => by
        rw [hfailed call hcall] at htrue
        cases htrue
    · exact absurd href h
    · exact absurd href h
  · -- nothing to clear: what is set at the end does no harm
    refine iff_of_true ?_ fun h => absurd h hnot
    rcases writeChanged_calls noChattr data r file with
      ⟨h, -⟩ | ⟨-, -, hcalls⟩ | ⟨-, -, rest, hrest, hcalls⟩
    · exact absurd h href
    · rw [hcalls, flagCalls_append, hnone, hloop]
      exact restored_of_failed nofun
    · rw [hcalls, flagCalls_append, flagCalls_append, flagCalls_append, hnone, hloop, hrest.1]
      cases noChattr with
      | true => exact restored_of_failed nofun
      | false =>
          rcases chattr_set r.restore with ⟨-, call, hset, heq⟩ | ⟨-, heq⟩
          · rw [heq]
            refine restored_of_failed fun call' hcall _ => ?_
            rwa [List.mem_singleton.mp hcall]
          · rw [heq]
            exact restored_of_failed nofun
  · -- cleared: only the end of the function sets the flag again
    rw [forall_prop_of_true hcleared]
    rcases writeChanged_calls noChattr data r file with
      ⟨h, -⟩ | ⟨-, hdies, hcalls⟩ | ⟨-, hsurvives, rest, hrest, hcalls⟩
    · exact absurd h href
    · rw [hcalls, flagCalls_append, hone, hloop]
      exact iff_of_false (not_restored_singleton hwant) fun h => hdies h.1
    · obtain rfl : noChattr = false := hcleared.1
      rw [hcalls, flagCalls_append, flagCalls_append, flagCalls_append, hone, hloop, hrest.1,
        and_iff_right hsurvives]
      rcases chattr_set r.restore with ⟨hunset, call, hset, heq⟩ | ⟨hnot, heq⟩
      · rw [heq]
        exact iff_of_true (restored_pair hset) hunset
      · rw [heq]
        exact iff_of_false (not_restored_singleton hwant) hnot

/-- The check that finds nothing to do. -/
theorem found_iff :
    (readVar r.first file).2.any (inWantedState · data) = true ↔
      file = some (message data) ∧ r.first.Whole (message data).length := by
  rw [Option.any_eq_true]
  constructor
  · rintro ⟨cur, hcur, hwanted⟩
    obtain ⟨hfile, hlen, hwhole⟩ := readVar_eq_some_iff.mp hcur
    obtain rfl := (inWantedState_iff hlen).mp hwanted
    exact ⟨hfile, hwhole⟩
  · rintro ⟨hfile, hwhole⟩
    have hlen : 4 ≤ (message data).length := by
      rw [message_length]
      omega
    exact ⟨_, readVar_eq_some_iff.mpr ⟨hfile, hlen, hwhole⟩, (inWantedState_iff hlen).mpr rfl⟩

theorem writeVar_of_found (h : file = some (message data) ∧ r.first.Whole (message data).length) :
    writeVar noChattr data r file = ⟨(readVar r.first file).1, file, .returned⟩ := by
  rw [writeVar]
  exact if_pos (found_iff.mpr h)

theorem writeVar_of_not_found
    (h : ¬ (file = some (message data) ∧ r.first.Whole (message data).length)) :
    writeVar noChattr data r file =
      (writeChanged noChattr data r file).behind (readVar r.first file).1 := by
  rw [writeVar]
  exact if_neg (mt found_iff.mp h)

theorem writeVar_stored (h : (writeVar noChattr data r file).outcome = .returned) :
    (writeVar noChattr data r file).file = some (message data) := by
  by_cases hfound : file = some (message data) ∧ r.first.Whole (message data).length
  · rw [writeVar_of_found hfound]
    exact hfound.1
  · rw [writeVar_of_not_found hfound] at h ⊢
    exact writeChanged_stored h

/-- Nothing is ever written but the message. -/
theorem writeLoop_message {m : List UInt8} (file : Option (List UInt8)) (rounds attempt : ℕ)
    (h : .write m ∈ (writeLoop msg attempts file rounds attempt).calls) : m = msg := by
  induction rounds generalizing file attempt with
  | zero => cases h
  | succ rounds ih =>
      rw [writeLoop] at h
      dsimp only at h
      repeat' split at h
      all_goals simp only [List.mem_append, List.mem_cons, List.not_mem_nil, reduceCtorEq,
        Call.write.injEq, or_false, false_or] at h
      all_goals grind

theorem writeVar_message {m : List UInt8}
    (h : .write m ∈ (writeVar noChattr data r file).calls) : m = message data := by
  have hfirst : .write m ∉ (readVar r.first file).1 := fun hm =>
    (readVar_quiet r.first file).2 ⟨m, hm⟩
  have hclear : .write m ∉ (chattrImmutable noChattr false r.clear).calls := fun hm =>
    chattr_not_writes _ _ _ ⟨m, hm⟩
  have hrestore : .write m ∉ (chattrImmutable noChattr true r.restore).calls := fun hm =>
    chattr_not_writes _ _ _ ⟨m, hm⟩
  by_cases hfound : file = some (message data) ∧ r.first.Whole (message data).length
  · rw [writeVar_of_found hfound] at h
    exact absurd h hfirst
  · rw [writeVar_of_not_found hfound, Run.behind] at h
    have hchanged := (List.mem_append.mp h).resolve_left hfirst
    rcases writeChanged_calls noChattr data r file with
      ⟨-, hcalls⟩ | ⟨-, -, hcalls⟩ | ⟨-, -, rest, hrest, hcalls⟩
    · rw [hcalls] at hchanged
      exact absurd hchanged hclear
    · rw [hcalls] at hchanged
      exact writeLoop_message _ _ _ ((List.mem_append.mp hchanged).resolve_left hclear)
    · rw [hcalls, List.append_assoc, List.append_assoc] at hchanged
      have hbehind := (List.mem_append.mp hchanged).resolve_left hclear
      rcases List.mem_append.mp hbehind with hloop | hend
      · exact writeLoop_message _ _ _ hloop
      · rcases List.mem_append.mp hend with hm | hm
        · exact absurd hm hrestore
        · exact absurd ⟨m, hm⟩ hrest.2

/-- Answers under which the message is stored at the first attempt. -/
structure Results.Obliging (data : List UInt8) (r : Results) : Prop where
  opened : r.clear.opened = .ok ()
  flags : ∃ flags, r.clear.flags = .ok flags
  set : r.clear.set = .ok ()
  attempt : r.attempts 0 = ⟨.ok (), .ok (message data).length, some (message data)⟩
  back : r.back.Whole (message data).length

theorem writeVar_of_obliging (h : r.Obliging data) :
    (writeVar noChattr data r file).outcome = .returned := by
  by_cases hfound : file = some (message data) ∧ r.first.Whole (message data).length
  · rw [writeVar_of_found hfound]
  · rw [writeVar_of_not_found hfound]
    have hok : (chattrImmutable noChattr false r.clear).ok = true := by
      rcases chattr_clear noChattr r.clear with ⟨-, href, -⟩ | ⟨hok, -⟩ | ⟨hok, -⟩
      · obtain ⟨flags, hflags⟩ := h.flags
        rcases href with ⟨-, ⟨e, he, -⟩ | ⟨-, ⟨e, he⟩ | ⟨_, e, -, -, he⟩⟩⟩
        · rw [h.opened] at he
          cases he
        · rw [hflags] at he
          cases he
        · rw [h.set] at he
          cases he
      · exact hok
      · exact hok
    have hloop : writeLoop (message data) r.attempts file RETRIES 0 =
        ⟨[.openWrite, .write (message data), .close], some (message data), .ok⟩ := by
      rw [RETRIES, writeLoop, h.attempt]
      simp
    have hlen : 4 ≤ (message data).length := by
      rw [message_length]
      omega
    have hback := readVar_eq_some_iff.mpr ⟨rfl, hlen, h.back⟩
    rcases hread : readVar r.back (some (message data)) with ⟨calls, chk⟩
    rw [hread] at hback
    obtain rfl : chk = some (message data) := hback
    simp [writeChanged, hok, hloop, readBack, hread, Run.behind]

/-- `write_var` does what it is to do with the variable exactly when the system
calls answer harmlessly. -/
theorem writeVar_honoured_iff (noChattr : Bool) (data : List UInt8) (r : Results)
    (file : Option (List UInt8)) :
    Honoured data file (writeVar noChattr data r file) ↔ Harmless noChattr data r file := by
  have hquiet := readVar_quiet r.first file
  by_cases hfound : file = some (message data) ∧ r.first.Whole (message data).length
  · rw [writeVar_of_found hfound]
    constructor
    · exact fun _ => ⟨fun _ => Or.inl hfound.2, fun h => absurd hfound h⟩
    · intro _
      refine ⟨fun _ => hfound.1, fun _ => hquiet.2, ?_⟩
      rw [hquiet.1]
      exact restored_of_failed nofun
  · rw [writeVar_of_not_found hfound]
    have hwrites : Writes ((writeChanged noChattr data r file).behind
        (readVar r.first file).1).calls ↔ _ :=
      writes_append.trans ((or_iff_right hquiet.2).trans writeChanged_writes)
    have hflags : flagCalls ((writeChanged noChattr data r file).behind
        (readVar r.first file).1).calls = flagCalls (writeChanged noChattr data r file).calls := by
      rw [Run.behind, flagCalls_append, hquiet.1, List.nil_append]
    have hopened : (r.attempts 0).opened = .ok () ↔ ¬ ∃ e, (r.attempts 0).opened = .error e := by
      cases (r.attempts 0).opened <;> simp
    constructor
    · intro h
      refine ⟨fun hfile => Or.inr ?_, fun _ => ?_⟩
      · have hspared := h.spared hfile
        rw [hwrites, hopened] at hspared
        tauto
      · have hrestored := h.restored
        rwa [hflags, writeChanged_restored] at hrestored
    · intro h
      refine ⟨writeChanged_stored, fun hfile => ?_, ?_⟩
      · rw [hwrites, hopened]
        have hspared := (h.spared hfile).resolve_left fun hwhole => hfound ⟨hfile, hwhole⟩
        tauto
      · rw [hflags, writeChanged_restored]
        exact h.restored hfound

/-- A variable that can be read and whose flag can be cleared and set, but which
cannot be opened for writing. -/
def notWritable : Results where
  first := ⟨.ok (), .ok (), .ok 5⟩
  clear := ⟨.ok (), .ok FS_IMMUTABLE_FL, .ok ()⟩
  attempts _ := ⟨.error (.other 30), .ok 0, some [7, 0, 0, 0, 1]⟩
  restore := ⟨.ok (), .ok 0, .ok ()⟩
  back := ⟨.ok (), .ok (), .ok 5⟩

/-- The process dies in the loop, and the flag stays cleared. -/
theorem writeVar_not_honoured :
    ¬ Honoured [2] (some [7, 0, 0, 0, 1])
      (writeVar false [2] notWritable (some [7, 0, 0, 0, 1])) := by
  intro h
  have hflags : flagCalls (writeVar false [2] notWritable (some [7, 0, 0, 0, 1])).calls =
      [(0, true)] := by decide
  have hrestored := h.restored
  rw [hflags] at hrestored
  exact not_restored_singleton rfl hrestored

end Veron.EfiVar
