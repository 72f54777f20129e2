/-
Two verifiers on one seed and one state file.  Each reads the last step, matches
its code and writes the step it accepts, and the three moves of the one come
between those of the other in any order.
-/
import Veron.TotpReplay

namespace Veron.Totp

variable (totpAt : List UInt8 → UInt64 → ℤ) (seed : List UInt8)

/-- Where a verifier stands in `veron_totp_check_seed`. -/
inductive Phase where
  | start
  | haveLast (last : UInt64)
  | matched (used : UInt64)
  | done (accepted : Option UInt64)
deriving DecidableEq

/-- One move of a verifier while every file operation succeeds. -/
def advance (e : Entry) (file : StateFile) : Phase → StateFile × Phase
  | .start => (file, .haveLast (stored file))
  | .haveLast last =>
      match candidate totpAt seed e last with
      | none => (file, .done none)
      | some used => (file, .matched used)
  | .matched used => (some (stateText used), .done (some used))
  | .done accepted => (file, .done accepted)

/-- So many moves of a verifier left alone. -/
def alone (e : Entry) : ℕ → StateFile × Phase → StateFile × Phase
  | 0, s => s
  | n + 1, s => alone e n (advance totpAt seed e s.1 s.2)

/-- Three of them do what the call does. -/
theorem alone_three (e : Entry) (file : StateFile) :
    alone totpAt seed e 3 (file, .start) =
      ((checkSeed totpAt seed e Io.sound file).1,
        .done (checkSeed totpAt seed e Io.sound file).2) := by
  have hread : readLast Io.sound file = stored file := rfl
  rw [checkSeed_eq, hread]
  simp only [alone, advance]
  cases candidate totpAt seed e (stored file) with
  | none => rfl
  | some used => rfl

/-- Which of the two moves next. -/
inductive Turn where
  | one
  | two
deriving DecidableEq

structure Race where
  file : StateFile
  one : Phase
  two : Phase
deriving DecidableEq

/-- What becomes of a verifier that has read the last step, in so many moves. -/
def settle (e : Entry) : ℕ → Phase → Phase
  | 0, p => p
  | n + 1, p => settle e n (advance totpAt seed e none p).2

variable (e₁ e₂ : Entry)

def Race.move (r : Race) : Turn → Race
  | .one =>
      let (file, p) := advance totpAt seed e₁ r.file r.one
      { r with file, one := p }
  | .two =>
      let (file, p) := advance totpAt seed e₂ r.file r.two
      { r with file, two := p }

/-- The moves of both verifiers in the order of a schedule. -/
def race (file : StateFile) (schedule : List Turn) : Race :=
  schedule.foldl (Race.move totpAt seed e₁ e₂) ⟨file, .start, .start⟩

/-- Both verifiers are answered as if the other were not there. -/
def Unaware (file : StateFile) (schedule : List Turn) : Prop :=
  (race totpAt seed e₁ e₂ file schedule).one = .done (candidate totpAt seed e₁ (stored file)) ∧
    (race totpAt seed e₁ e₂ file schedule).two = .done (candidate totpAt seed e₂ (stored file))

/-- Both verifiers accept one step. -/
def BothAccept (file : StateFile) (schedule : List Turn) : Prop :=
  ∃ s, (race totpAt seed e₁ e₂ file schedule).one = .done (some s) ∧
    (race totpAt seed e₁ e₂ file schedule).two = .done (some s)

/-- The two calls come one after the other. -/
def Serial (schedule : List Turn) : Prop :=
  schedule = List.replicate 3 .one ++ List.replicate 3 .two ∨
    schedule = List.replicate 3 .two ++ List.replicate 3 .one

/-- Only the first move looks at the file. -/
theorem advance_phase {e : Entry} {p : Phase} (hp : p ≠ .start) (file file' : StateFile) :
    (advance totpAt seed e file p).2 = (advance totpAt seed e file' p).2 := by
  cases p with
  | start => exact absurd rfl hp
  | haveLast last =>
      simp only [advance]
      split <;> rfl
  | matched used => rfl
  | done accepted => rfl

theorem advance_ne_start {e : Entry} {file : StateFile} {p : Phase} :
    (advance totpAt seed e file p).2 ≠ .start := by
  cases p with
  | haveLast last =>
      simp only [advance]
      split <;> simp
  | start | matched used | done accepted => simp [advance]

theorem settle_haveLast (e : Entry) (last : UInt64) :
    settle totpAt seed e 2 (.haveLast last) =
      .done (candidate totpAt seed e last) := by
  rw [settle, settle, settle, advance]
  cases candidate totpAt seed e last with
  | none => rfl
  | some used => rfl

/-- Once both have read the last step, the order of the moves left makes no
difference to either. -/
theorem foldl_move_settle (schedule : List Turn) {r : Race} (hone : r.one ≠ .start)
    (htwo : r.two ≠ .start) :
    (schedule.foldl (Race.move totpAt seed e₁ e₂) r).one =
        settle totpAt seed e₁ (schedule.count .one) r.one ∧
      (schedule.foldl (Race.move totpAt seed e₁ e₂) r).two =
        settle totpAt seed e₂ (schedule.count .two) r.two := by
  induction schedule generalizing r with
  | nil => exact ⟨rfl, rfl⟩
  | cons t schedule ih =>
      cases t with
      | one =>
          have hnext := ih (r := r.move totpAt seed e₁ e₂ .one) (advance_ne_start totpAt seed) htwo
          have hphase : (advance totpAt seed e₁ none r.one).2 =
              (advance totpAt seed e₁ r.file r.one).2 := advance_phase totpAt seed hone none r.file
          simp only [List.foldl_cons, List.count_cons_self, settle, hphase]
          exact hnext
      | two =>
          have hnext := ih (r := r.move totpAt seed e₁ e₂ .two) hone (advance_ne_start totpAt seed)
          have hphase : (advance totpAt seed e₂ none r.two).2 =
              (advance totpAt seed e₂ r.file r.two).2 := advance_phase totpAt seed htwo none r.file
          simp only [List.foldl_cons, List.count_cons_self, settle, hphase]
          exact hnext

def Turn.other : Turn → Turn
  | .one => .two
  | .two => .one

def Race.swap (r : Race) : Race := ⟨r.file, r.two, r.one⟩

theorem Race.move_swap (r : Race) (t : Turn) :
    (r.move totpAt seed e₁ e₂ t).swap = r.swap.move totpAt seed e₂ e₁ t.other := by
  cases t <;> rfl

theorem race_swap (file : StateFile) (schedule : List Turn) :
    (race totpAt seed e₁ e₂ file schedule).swap =
      race totpAt seed e₂ e₁ file (schedule.map Turn.other) := by
  have hall : ∀ r : Race, (schedule.foldl (Race.move totpAt seed e₁ e₂) r).swap =
      (schedule.map Turn.other).foldl (Race.move totpAt seed e₂ e₁) r.swap := by
    induction schedule with
    | nil => exact fun r => rfl
    | cons t schedule ih =>
        intro r
        rw [List.foldl_cons, ih, Race.move_swap, List.map_cons, List.foldl_cons]
  exact hall ⟨file, .start, .start⟩

theorem count_map_other (schedule : List Turn) (t : Turn) :
    (schedule.map Turn.other).count t = schedule.count t.other := by
  induction schedule with
  | nil => rfl
  | cons u schedule ih =>
      rw [List.map_cons, List.count_cons, List.count_cons, ih]
      cases t <;> cases u <;> rfl

variable {file : StateFile} {schedule : List Turn}

/-- Matching a code leaves the file alone. -/
theorem advance_haveLast (e : Entry) (last : UInt64) :
    (advance totpAt seed e file (.haveLast last)).1 = file := by
  rw [advance]
  split <;> rfl

/-- The second verifier reads after the first move of the first. -/
theorem unaware_of_one_two (hone : schedule.count .one = 2) (htwo : schedule.count .two = 2) :
    Unaware totpAt seed e₁ e₂ file (.one :: .two :: schedule) := by
  have hsettle := foldl_move_settle totpAt seed e₁ e₂ schedule
    (r := ⟨file, .haveLast (stored file), .haveLast (stored file)⟩) (by simp) (by simp)
  rw [hone, htwo, settle_haveLast, settle_haveLast] at hsettle
  exact hsettle

/-- It reads after the second. -/
theorem unaware_of_one_one_two (hone : schedule.count .one = 1) (htwo : schedule.count .two = 2) :
    Unaware totpAt seed e₁ e₂ file (.one :: .one :: .two :: schedule) := by
  have hfile : (advance totpAt seed e₁ file (.haveLast (stored file))).1 = file :=
    advance_haveLast totpAt seed e₁ (stored file)
  have hphase := advance_phase totpAt seed (e := e₁) (p := .haveLast (stored file)) (by simp) none
    file
  have hlast : settle totpAt seed e₁ 1 (advance totpAt seed e₁ file (.haveLast (stored file))).2 =
      .done (candidate totpAt seed e₁ (stored file)) := by
    rw [← hphase]
    exact settle_haveLast totpAt seed e₁ (stored file)
  have hsettle := foldl_move_settle totpAt seed e₁ e₂ schedule
    (r := ⟨file, (advance totpAt seed e₁ file (.haveLast (stored file))).2,
      .haveLast (stored file)⟩) (advance_ne_start totpAt seed) (by simp)
  rw [hone, htwo, settle_haveLast, hlast] at hsettle
  have hmoves : [Turn.one, .one, .two].foldl (Race.move totpAt seed e₁ e₂) ⟨file, .start, .start⟩ =
      ⟨file, (advance totpAt seed e₁ file (.haveLast (stored file))).2,
        .haveLast (stored file)⟩ := by
    simp only [List.foldl_cons, List.foldl_nil, Race.move, advance.eq_1, hfile]
  have hsplit : (Turn.one :: .one :: .two :: schedule) = [.one, .one, .two] ++ schedule := rfl
  rw [Unaware, race, hsplit, List.foldl_append, hmoves]
  exact hsettle

theorem unaware_swap (h : Unaware totpAt seed e₂ e₁ file (schedule.map Turn.other)) :
    Unaware totpAt seed e₁ e₂ file schedule := by
  rw [Unaware, ← race_swap] at h
  exact ⟨h.2, h.1⟩

/-- Either the first verifier finishes before the second starts, or the second
reads before the first writes. -/
theorem serial_or_unaware (hone : schedule.count .one = 3) (htwo : schedule.count .two = 3)
    (hfirst : schedule.head? = some .one) :
    schedule = List.replicate 3 .one ++ List.replicate 3 .two ∨
      Unaware totpAt seed e₁ e₂ file schedule := by
  obtain ⟨rest, rfl⟩ : ∃ rest, schedule = .one :: rest := by
    cases schedule with
    | nil => cases hfirst
    | cons t rest => exact ⟨rest, by rw [Option.some.inj hfirst]⟩
  cases rest with
  | nil => simp at hone
  | cons t rest =>
      cases t with
      | two =>
          right
          apply unaware_of_one_two
          · simpa using hone
          · simpa using htwo
      | one =>
          cases rest with
          | nil => simp at hone
          | cons t rest =>
              cases t with
              | two =>
                  right
                  apply unaware_of_one_one_two
                  · simpa using hone
                  · simpa using htwo
              | one =>
                  left
                  have hnone : Turn.one ∉ rest := by
                    apply List.count_eq_zero.mp
                    simpa using hone
                  have hall : ∀ t ∈ rest, t = Turn.two := by
                    intro t ht
                    cases t with
                    | one => exact absurd ht hnone
                    | two => rfl
                  have hrest := List.eq_replicate_of_mem hall
                  have hlen : rest.length = 3 := by
                    rw [hrest, List.count_cons_of_ne (by simp), List.count_cons_of_ne (by simp),
                      List.count_cons_of_ne (by simp), List.count_replicate_self] at htwo
                    exact htwo
                  rw [hrest, hlen]
                  rfl

theorem foldl_replicate_one (n : ℕ) (r : Race) :
    (List.replicate n .one).foldl (Race.move totpAt seed e₁ e₂) r =
      ⟨(alone totpAt seed e₁ n (r.file, r.one)).1, (alone totpAt seed e₁ n (r.file, r.one)).2,
        r.two⟩ := by
  induction n generalizing r with
  | zero => rfl
  | succ n ih =>
      rw [List.replicate_succ, List.foldl_cons, ih]
      rfl

theorem foldl_replicate_two (n : ℕ) (r : Race) :
    (List.replicate n .two).foldl (Race.move totpAt seed e₁ e₂) r =
      ⟨(alone totpAt seed e₂ n (r.file, r.two)).1, r.one,
        (alone totpAt seed e₂ n (r.file, r.two)).2⟩ := by
  induction n generalizing r with
  | zero => rfl
  | succ n ih =>
      rw [List.replicate_succ, List.foldl_cons, ih]
      rfl

theorem race_serial (file : StateFile) :
    race totpAt seed e₁ e₂ file (List.replicate 3 .one ++ List.replicate 3 .two) =
      let first := checkSeed totpAt seed e₁ Io.sound file
      let second := checkSeed totpAt seed e₂ Io.sound first.1
      ⟨second.1, .done first.2, .done second.2⟩ := by
  rw [race, List.foldl_append, foldl_replicate_one, foldl_replicate_two, alone_three, alone_three]

/-- The second call refuses the step the first has taken. -/
theorem not_bothAccept_serial :
    ¬ BothAccept totpAt seed e₁ e₂ file (List.replicate 3 .one ++ List.replicate 3 .two) := by
  rintro ⟨s, hone, htwo⟩
  rw [race_serial] at hone htwo
  have hfirst := Phase.done.inj hone
  have hsecond := Phase.done.inj htwo
  have hkeeps : ∀ e file, (Call.mk e Io.sound).Keeps totpAt seed file := fun e file =>
    keeps_of_written rfl fun _ => ⟨rfl, rfl⟩
  have hle := (checkSeed_step (hkeeps e₁ file)).2 s hfirst
  have hlt := (checkSeed_step (hkeeps e₂ _)).2 s hsecond
  exact UInt64.lt_irrefl _ (UInt64.lt_of_lt_of_le hlt.1 hle.2)

theorem bothAccept_swap :
    BothAccept totpAt seed e₂ e₁ file (schedule.map Turn.other) ↔
      BothAccept totpAt seed e₁ e₂ file schedule := by
  rw [BothAccept, ← race_swap]
  exact exists_congr fun s => and_comm

theorem serial_or_unaware_of_counts (hone : schedule.count .one = 3)
    (htwo : schedule.count .two = 3) :
    Serial schedule ∨ Unaware totpAt seed e₁ e₂ file schedule := by
  cases hfirst : schedule.head? with
  | none =>
      rw [List.head?_eq_none_iff] at hfirst
      rw [hfirst] at hone
      cases hone
  | some t =>
      cases t with
      | one => exact (serial_or_unaware totpAt seed e₁ e₂ hone htwo hfirst).imp_left .inl
      | two =>
          have hother : (schedule.map Turn.other).head? = some .one := by
            rw [List.head?_map, hfirst]
            rfl
          have hswapped : _ ∨ Unaware totpAt seed e₂ e₁ file (schedule.map Turn.other) :=
            serial_or_unaware totpAt seed e₂ e₁ (by rw [count_map_other]; exact htwo)
              (by rw [count_map_other]; exact hone) hother
          refine hswapped.imp (fun h => .inr ?_) (unaware_swap totpAt seed e₁ e₂)
          have hback : (schedule.map Turn.other).map Turn.other = schedule := by
            rw [List.map_map]
            exact (List.map_congr_left fun t _ => by cases t <;> rfl).trans (List.map_id schedule)
          rw [← hback, h]
          rfl

theorem not_bothAccept_of_serial (h : Serial schedule) :
    ¬ BothAccept totpAt seed e₁ e₂ file schedule := by
  rcases h with rfl | rfl
  · exact not_bothAccept_serial totpAt seed e₁ e₂
  · rw [← bothAccept_swap]
    exact not_bothAccept_serial totpAt seed e₂ e₁

/-- Two verifiers never accept the same step exactly when one is done before the
other starts or their codes do not belong to one step still unspent. -/
theorem bothAccept_iff (hone : schedule.count .one = 3) (htwo : schedule.count .two = 3) :
    ¬ BothAccept totpAt seed e₁ e₂ file schedule ↔
      Serial schedule ∨
        ∀ s, ¬ (candidate totpAt seed e₁ (stored file) = some s ∧
          candidate totpAt seed e₂ (stored file) = some s) := by
  have hcases : Serial schedule ∨ Unaware totpAt seed e₁ e₂ file schedule :=
    serial_or_unaware_of_counts totpAt seed e₁ e₂ hone htwo
  constructor
  · intro hnot
    apply hcases.imp_right
    rintro ⟨h₁, h₂⟩ s ⟨hs₁, hs₂⟩
    exact hnot ⟨s, by rw [h₁, hs₁], by rw [h₂, hs₂]⟩
  · rintro (hserial | hdiffer)
    · exact not_bothAccept_of_serial totpAt seed e₁ e₂ hserial
    · rcases hcases with hserial | ⟨h₁, h₂⟩
      · exact not_bothAccept_of_serial totpAt seed e₁ e₂ hserial
      · rintro ⟨s, hs₁, hs₂⟩
        rw [h₁] at hs₁
        rw [h₂] at hs₂
        exact hdiffer s ⟨Phase.done.inj hs₁, Phase.done.inj hs₂⟩

theorem bothAccept_iff_sample :
    ¬ BothAccept sampleTotp sampleSeed (code 287082 59) (code 287082 59) none
        [.one, .one, .one, .two, .two, .two] := by
  rw [bothAccept_iff _ _ _ _ (by decide) (by decide)]
  exact .inl (.inl rfl)

/-- Both read before either writes. -/
theorem bothAccept_overlap :
    BothAccept sampleTotp sampleSeed (code 287082 59) (code 287082 59) none
      [.one, .two, .one, .two, .one, .two] := by
  exact ⟨1, by decide, by decide⟩

end Veron.Totp
