/-
veron-efiboot: a variable read and written through its file in efivarfs, whatever
the system calls answer.
-/
import Veron.Bytes

namespace Veron.EfiVar

inductive Errno where
  | ENOENT
  | EINTR
  | EBUSY
  | other (code : ℕ)
deriving DecidableEq

/-- The flags of a file, as FS_IOC_GETFLAGS gives them. -/
abbrev Flags := UInt64

def FS_IMMUTABLE_FL : Flags := 0x10

/-- NV, BOOTSERVICE and RUNTIME. -/
def ATTRS : UInt32 := 0x00000007

def RETRIES : ℕ := 25

/-- The system calls, the ones that change something with what they ask for. -/
inductive Call where
  | openRead
  | fstat
  | read
  | getFlags
  | setFlags (want : Flags) (succeeds : Bool)
  | openWrite
  | write (msg : List UInt8)
  | close
  | usleep
deriving DecidableEq

/-- What the calls of `read_var` answer; a read brings so many bytes at most. -/
structure ReadResults where
  opened : Except Errno Unit
  fstat : Except Errno Unit
  read : Except Errno ℕ

/-- What the calls of `chattr_immutable` answer. -/
structure FlagResults where
  opened : Except Errno Unit
  flags : Except Errno Flags
  set : Except Errno Unit

/-- What the calls of one round of the write loop answer, and what the variable
holds after them. -/
structure Attempt where
  opened : Except Errno Unit
  written : Except Errno ℕ
  after : Option (List UInt8)

structure Results where
  first : ReadResults
  clear : FlagResults
  attempts : ℕ → Attempt
  restore : FlagResults
  back : ReadResults

/-- `read_var` of a variable that is absent or holds these bytes. -/
def readVar (r : ReadResults) : Option (List UInt8) → List Call × Option (List UInt8)
  | none => ([.openRead], none)
  | some bytes =>
      match r.opened, r.fstat, r.read with
      | .error _, _, _ => ([.openRead], none)
      | .ok _, .error _, _ => ([.openRead, .fstat, .close], none)
      | .ok _, .ok _, n =>
          if bytes.length < 4 then ([.openRead, .fstat, .close], none)
          else
            match n with
            | .error _ => ([.openRead, .fstat, .read, .close], none)
            | .ok n =>
                if (bytes.take n).length ≠ bytes.length then
                  ([.openRead, .fstat, .read, .close], none)
                else ([.openRead, .fstat, .read, .close], some (bytes.take n))

structure Chattr where
  calls : List Call
  /-- whether it returns 0 -/
  ok : Bool
  /-- `*had` -/
  had : Bool

def chattrImmutable (noChattr set : Bool) (r : FlagResults) : Chattr :=
  if noChattr then ⟨[], true, false⟩
  else
    match r.opened with
    -- a new variable has no flag yet
    | .error e => ⟨[.openRead], e = .ENOENT, false⟩
    | .ok _ =>
        match r.flags with
        | .error _ => ⟨[.openRead, .getFlags, .close], false, false⟩
        | .ok flags =>
            let had := flags &&& FS_IMMUTABLE_FL ≠ 0
            let want := if set then flags ||| FS_IMMUTABLE_FL else flags &&& ~~~FS_IMMUTABLE_FL
            if want = flags then ⟨[.openRead, .getFlags, .close], true, had⟩
            else ⟨[.openRead, .getFlags, .setFlags want r.set.toBool, .close], r.set.toBool, had⟩

inductive LoopEnd where
  | ok
  | exhausted
  | died (message : String)
deriving DecidableEq

structure Loop where
  calls : List Call
  file : Option (List UInt8)
  result : LoopEnd

/-- The retry loop from this attempt on, with so many rounds left. -/
def writeLoop (msg : List UInt8) (attempts : ℕ → Attempt) (file : Option (List UInt8)) :
    ℕ → ℕ → Loop
  | 0, _ => ⟨[], file, .exhausted⟩
  | rounds + 1, attempt =>
      let a := attempts attempt
      match a.opened with
      | .error _ => ⟨[.openWrite], a.after, .died "open for write"⟩
      | .ok _ =>
          let again :=
            let rest := writeLoop msg attempts a.after rounds (attempt + 1)
            { rest with calls := [.openWrite, .write msg, .close, .usleep] ++ rest.calls }
          match a.written with
          | .ok n =>
              if n = msg.length then ⟨[.openWrite, .write msg, .close], a.after, .ok⟩ else again
          | .error e =>
              if e = .EINTR ∨ e = .EBUSY then again
              else ⟨[.openWrite, .write msg, .close], a.after, .died "write"⟩

/-- The attributes in front of what a variable holds. -/
def attributes : List UInt8 → UInt32
  | a :: b :: c :: d :: _ =>
      a.toUInt32 ||| b.toUInt32 <<< 8 ||| c.toUInt32 <<< 16 ||| d.toUInt32 <<< 24
  | _ => 0

def inWantedState (cur data : List UInt8) : Bool :=
  attributes cur = ATTRS && cur.length - 4 = data.length && (cur.drop 4).take data.length = data

/-- What a write sends: the attributes and the data. -/
def message (data : List UInt8) : List UInt8 := [(ATTRS &&& 0xff).toUInt8, 0, 0, 0] ++ data

inductive Outcome where
  | returned
  | died (message : String)
deriving DecidableEq

structure Run where
  calls : List Call
  file : Option (List UInt8)
  outcome : Outcome

/-- The end of `write_var`, what was written being read back. -/
def readBack (data : List UInt8) (r : ReadResults) (file : Option (List UInt8)) : Run :=
  let (calls, chk) := readVar r file
  match chk with
  | none => ⟨calls, file, .died "read-back failed: variable absent after write"⟩
  | some chk =>
      if chk ≠ message data then
        ⟨calls, file, .died "read-back mismatch: firmware did not store what was written"⟩
      else ⟨calls, file, .returned⟩

/-- A run that has made these calls before. -/
def Run.behind (calls : List Call) (run : Run) : Run := { run with calls := calls ++ run.calls }

/-- `write_var` behind the check that finds nothing to do. -/
def writeChanged (noChattr : Bool) (data : List UInt8) (r : Results) (file : Option (List UInt8)) :
    Run :=
  let clear := chattrImmutable noChattr false r.clear
  if clear.ok = false then ⟨clear.calls, file, .died "clearing immutable flag"⟩
  else
    let loop := writeLoop (message data) r.attempts file RETRIES 0
    let restore := chattrImmutable noChattr true r.restore
    match loop.result with
    | .died m => ⟨clear.calls ++ loop.calls, loop.file, .died m⟩
    | .exhausted =>
        ⟨clear.calls ++ loop.calls ++ restore.calls, loop.file,
          .died "write did not complete after retries (firmware busy or store full)"⟩
    | .ok => (readBack data r.back loop.file).behind (clear.calls ++ loop.calls ++ restore.calls)

def writeVar (noChattr : Bool) (data : List UInt8) (r : Results) (file : Option (List UInt8)) :
    Run :=
  let (calls, cur) := readVar r.first file
  if cur.any (inWantedState · data) then ⟨calls, file, .returned⟩
  else (writeChanged noChattr data r file).behind calls

/-- Every call answers well, and a read of so many bytes brings them all. -/
def ReadResults.Whole (r : ReadResults) (length : ℕ) : Prop :=
  r.opened = .ok () ∧ r.fstat = .ok () ∧ ∃ n, r.read = .ok n ∧ length ≤ n

theorem readVar_eq_some_iff {r : ReadResults} {file : Option (List UInt8)} {cur : List UInt8} :
    (readVar r file).2 = some cur ↔ file = some cur ∧ 4 ≤ cur.length ∧ r.Whole cur.length := by
  rcases r with ⟨opened, fstat, read⟩
  cases file with
  | none => simp [readVar]
  | some bytes =>
      cases opened with
      | error e => simp [readVar, ReadResults.Whole]
      | ok _ =>
          cases fstat with
          | error e => simp [readVar, ReadResults.Whole]
          | ok _ =>
              by_cases hshort : bytes.length < 4
              · simp only [readVar, if_pos hshort, reduceCtorEq, Option.some.injEq, false_iff]
                rintro ⟨rfl, hlen, -⟩
                omega
              · cases read with
                | error e => simp [readVar, ReadResults.Whole, hshort]
                | ok n =>
                    by_cases hn : bytes.length ≤ n
                    · rw [readVar]
                      simp only [hshort, List.take_of_length_le hn, ne_eq, not_true, if_false,
                        Option.some.injEq, ReadResults.Whole, Except.ok.injEq,
                        exists_eq_left', true_and]
                      constructor
                      · rintro rfl
                        exact ⟨rfl, Nat.le_of_not_lt hshort, hn⟩
                      · exact fun h => h.1
                    · have hne : (bytes.take n).length ≠ bytes.length := by
                        rw [List.length_take]
                        omega
                      rw [readVar]
                      simp only [hshort, if_pos hne, if_false, reduceCtorEq, Option.some.injEq,
                        ReadResults.Whole, Except.ok.injEq, exists_eq_left', true_and, false_iff]
                      rintro ⟨rfl, -, hle⟩
                      exact hn hle

theorem message_length (data : List UInt8) : (message data).length = 4 + data.length := by
  simp [message]
  omega

theorem or_shift {n v k : ℕ} (h : v < 2 ^ k) : v ||| n <<< k = v + 2 ^ k * n := by
  rw [Nat.shiftLeft_eq, Nat.mul_comm, Nat.or_comm, ← Nat.two_pow_add_eq_or_of_lt h, Nat.add_comm]

theorem attributes_toNat (a b c d : UInt8) (rest : List UInt8) :
    (attributes (a :: b :: c :: d :: rest)).toNat = leValue [a, b, c, d] := by
  have ha : a.toNat < 2 ^ 8 := a.toNat_lt
  have hb := b.toNat_lt
  have hc := c.toNat_lt
  have hd := d.toNat_lt
  have hshift : ∀ (x : UInt8) (k : UInt32), k.toNat ≤ 24 →
      (x.toUInt32 <<< k).toNat = x.toNat <<< k.toNat := by
    intro x k hk
    have hx := x.toNat_lt
    have hpow : 2 ^ k.toNat ≤ 2 ^ 24 := Nat.pow_le_pow_right (by decide) hk
    have hmul : x.toNat * 2 ^ k.toNat ≤ 255 * 2 ^ 24 := Nat.mul_le_mul (by omega) hpow
    rw [UInt32.toNat_shiftLeft, UInt8.toNat_toUInt32, Nat.shiftLeft_eq, Nat.shiftLeft_eq,
      Nat.mod_eq_of_lt (a := k.toNat) (by omega), Nat.mod_eq_of_lt (by omega)]
  rw [attributes, UInt32.toNat_or, UInt32.toNat_or, UInt32.toNat_or, hshift b 8 (by decide),
    hshift c 16 (by decide), hshift d 24 (by decide), UInt8.toNat_toUInt32]
  rw [show (8 : UInt32).toNat = 8 from rfl, show (16 : UInt32).toNat = 16 from rfl,
    show (24 : UInt32).toNat = 24 from rfl]
  rw [or_shift ha, or_shift (k := 16) (by omega), or_shift (k := 24) (by omega)]
  simp only [leValue]
  omega

theorem leValue_inj {p q : List UInt8} (hlen : p.length = q.length)
    (h : leValue p = leValue q) : p = q := by
  induction p generalizing q with
  | nil => exact (List.eq_nil_of_length_eq_zero hlen.symm).symm
  | cons a p ih =>
      cases q with
      | nil => cases hlen
      | cons b q =>
          rw [leValue, leValue] at h
          have ha := a.toNat_lt
          have hb := b.toNat_lt
          have hhead : a.toNat = b.toNat := by omega
          rw [UInt8.toNat_inj.mp hhead, ih (Nat.succ.inj hlen) (by omega)]

theorem attributes_eq_iff {a b c d : UInt8} {rest : List UInt8} :
    attributes (a :: b :: c :: d :: rest) = ATTRS ↔ [a, b, c, d] = [7, 0, 0, 0] := by
  rw [← UInt32.toNat_inj, attributes_toNat]
  constructor
  · intro h
    exact leValue_inj rfl h
  · intro h
    rw [h]
    rfl

theorem inWantedState_iff {cur data : List UInt8} (hlen : 4 ≤ cur.length) :
    inWantedState cur data ↔ cur = message data := by
  match cur, hlen with
  | a :: b :: c :: d :: rest, _ =>
      have hmessage : message data = [7, 0, 0, 0] ++ data := rfl
      have hsplit : a :: b :: c :: d :: rest = [a, b, c, d] ++ rest := rfl
      have htake : rest.length = data.length ∧ rest.take data.length = data ↔ rest = data := by
        constructor
        · rintro ⟨hlen, htake⟩
          rwa [← hlen, List.take_length] at htake
        · rintro rfl
          exact ⟨rfl, List.take_length⟩
      rw [inWantedState, Bool.and_eq_true, Bool.and_eq_true, decide_eq_true_iff,
        decide_eq_true_iff, decide_eq_true_iff, attributes_eq_iff, and_assoc, hmessage, hsplit]
      constructor
      · rintro ⟨hattrs, hdata⟩
        rw [hattrs, htake.mp hdata]
      · intro h
        obtain ⟨hattrs, hdata⟩ := List.append_inj h rfl
        exact ⟨hattrs, htake.mpr hdata⟩

end Veron.EfiVar
