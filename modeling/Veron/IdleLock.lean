/-
Three readers of auth.conf: the verifier and the locker open the system store,
veron-idle opens a file of the same name under the home directory, with a line
buffer a quarter as long.
-/
import Veron.Enroll

namespace Veron.IdleLock

open AuthConf (Text newline equals chunks chunks_short cut hasKey hasKey_iff drop_line render)
open Enroll (ascii autologin)

/-- The lines as a reader with a buffer of `size` bytes has them. -/
def lines (size : ℕ) (t : Text) : List Text := (chunks size (size - 1) [] t).map cut

/-- The value of a key, through a line buffer of `size` bytes into one of `n`;
an empty value is none. -/
def confGet (size n : ℕ) (key t : Text) : Option Text :=
  match (lines size t).find? (hasKey key) with
  | none => none
  | some line =>
      let v := (line.drop (key.length + 1)).take (n - 1)
      if v = [] then none else some v

def ENOENT : ℕ := 2

/-- What the three programs ask of the system. -/
structure System where
  passwdHome : Option Text
  envHome : Option Text
  /-- The device a directory lies on, where asking succeeds. -/
  device : Text → Option ℕ
  /-- The contents of a file opened for reading, or the error number. -/
  fopen : Text → Except ℕ Text

def idleKey : Text := ascii "idle"

def off : Text := ascii "off"

def zero : Text := ascii "0"

/-- The passwd entry defines the home directory, the environment is hearsay. -/
def homeDir (s : System) : Option Text :=
  (s.passwdHome.filter (· ≠ [])).or (s.envHome.filter (· ≠ []))

def storePath : Text := ascii "/persist/veron-auth/auth.conf"

/-- The path veron-idle writes into 1024 bytes. -/
def ownPath (home : Text) : Text := (home ++ ascii "/.config/veron/auth.conf").take 1023

/-- The verifier's reader. -/
def confGetPub (s : System) (n : ℕ) (key : Text) : Option Text :=
  match s.fopen storePath with
  | .ok t => confGet 1024 n key t
  | .error _ => none

/-- veron-idle's reader. -/
def confGetOwn (s : System) (key : Text) : Option Text :=
  match homeDir s with
  | none => none
  | some home =>
      match s.fopen (ownPath home) with
      | .ok t => confGet 256 64 key t
      | .error _ => none

/-- Does an idle event start the locker? -/
def notifIdled (s : System) : Bool :=
  if confGetOwn s autologin ≠ some off then false
  else if confGetOwn s idleKey = some zero then false
  else true

/-- Every uncertain state counts as armed. -/
def lockIsArmed (s : System) : Bool :=
  match s.device (ascii "/"), s.device (ascii "/persist") with
  | some root, some persist =>
      if root = persist then true
      else
        match s.fopen storePath with
        | .ok _ => true
        | .error errno => errno ≠ ENOENT
  | _, _ => true

/-- The verifier's line buffer is the one its store is written for. -/
theorem confGet_pub (n : ℕ) (key t : Text) : confGet 1024 n key t = AuthConf.get n key t :=
  rfl

/-- The first line with the key has the value. -/
def Says (size : ℕ) (key value t : Text) : Prop :=
  ∃ before after, lines size t = before ++ (key ++ equals :: value) :: after ∧
    ∀ line ∈ before, hasKey key line = false

/-- The file asks for the lock. -/
def Armed (size : ℕ) (t : Text) : Prop :=
  Says size autologin off t ∧ ¬ Says size idleKey zero t

/-- A short value is read as it stands. -/
theorem confGet_eq_some {size n : ℕ} {key v t : Text} (hne : v ≠ []) (hlen : v.length < n - 1) :
    confGet size n key t = some v ↔ Says size key v t := by
  have hshort : ∀ w : Text, w.take (n - 1) = v ↔ w = v := by
    intro w
    constructor
    · intro h
      have hcut := congrArg List.length h
      rw [List.length_take] at hcut
      rw [← h, List.take_of_length_le (by omega)]
    · rintro rfl
      exact List.take_of_length_le (by omega)
  constructor
  · intro h
    rw [confGet] at h
    split at h
    · cases h
    case h_2 line hfind =>
      obtain ⟨hkey, before, after, hlines, hbefore⟩ := List.find?_eq_some_iff_append.mp hfind
      obtain ⟨w, rfl⟩ := hasKey_iff.mp hkey
      simp only [drop_line] at h
      split at h
      · cases h
      · have hw := (hshort w).mp (Option.some.inj h)
        rw [hw] at hlines
        exact ⟨before, after, hlines, by simpa using hbefore⟩
  · rintro ⟨before, after, hlines, hbefore⟩
    have hfind : (lines size t).find? (hasKey key) = some (key ++ equals :: v) :=
      List.find?_eq_some_iff_append.mpr
        ⟨hasKey_iff.mpr ⟨v, rfl⟩, before, after, hlines, by simpa using hbefore⟩
    simp only [confGet, hfind, drop_line, (hshort v).mpr rfl, if_neg hne]

/-- The system store, where it opens. -/
def store (s : System) : Option Text := (s.fopen storePath).toOption

/-- The file under the home directory, where there is one and it opens. -/
def own (s : System) : Option Text := (homeDir s).bind fun home => (s.fopen (ownPath home)).toOption

/-- The file under the home directory asks for the lock where the store does,
and nowhere but under a store with autologin off. -/
def Agree (s : System) : Prop :=
  (∀ t, store s = some t → Armed 1024 t → ∃ u, own s = some u ∧ Armed 256 u) ∧
    ∀ u, own s = some u → Armed 256 u → ∃ t, store s = some t ∧ Says 1024 autologin off t

theorem confGetPub_eq (s : System) (n : ℕ) (key : Text) :
    confGetPub s n key = (store s).bind (confGet 1024 n key) := by
  rw [confGetPub, store]
  cases s.fopen storePath <;> rfl

theorem confGetOwn_eq (s : System) (key : Text) :
    confGetOwn s key = (own s).bind (confGet 256 64 key) := by
  rw [confGetOwn, own]
  cases homeDir s with
  | none => rfl
  | some home =>
      dsimp only [Option.bind_some]
      cases s.fopen (ownPath home) <;> rfl

theorem confGetPub_off {n : ℕ} (hn : 5 ≤ n) (s : System) :
    confGetPub s n autologin = some off ↔ ∃ t, store s = some t ∧ Says 1024 autologin off t := by
  have hlen : off.length = 3 := by decide
  rw [confGetPub_eq, Option.bind_eq_some_iff]
  simp only [confGet_eq_some (by decide : off ≠ []) (show off.length < n - 1 by omega)]

theorem confGetPub_zero {n : ℕ} (hn : 5 ≤ n) {s : System} {t : Text} (ht : store s = some t) :
    confGetPub s n idleKey = some zero ↔ Says 1024 idleKey zero t := by
  have hlen : zero.length = 1 := by decide
  rw [confGetPub_eq, ht, Option.bind_some,
    confGet_eq_some (by decide) (show zero.length < n - 1 by omega)]

theorem notifIdled_iff (s : System) :
    notifIdled s = true ↔ ∃ u, own s = some u ∧ Armed 256 u := by
  have hoff : ∀ u, confGet 256 64 autologin u = some off ↔ Says 256 autologin off u := fun u =>
    confGet_eq_some (by decide) (by decide)
  have hzero : ∀ u, confGet 256 64 idleKey u = some zero ↔ Says 256 idleKey zero u := fun u =>
    confGet_eq_some (by decide) (by decide)
  rw [notifIdled, confGetOwn_eq, confGetOwn_eq]
  cases own s with
  | none => simp
  | some u => simp [Armed, hoff, hzero]

/-- The locker finds a store that was read to be there. -/
theorem lockIsArmed_of_store {s : System} {t : Text} (ht : store s = some t) :
    lockIsArmed s = true := by
  have hopen : s.fopen storePath = .ok t := by
    rw [store] at ht
    cases hs : s.fopen storePath with
    | error e => simp [hs, Except.toOption] at ht
    | ok t' =>
        rw [hs] at ht
        exact congrArg Except.ok (Option.some.inj ht)
  rw [lockIsArmed]
  split
  · split
    · rfl
    · rw [hopen]
  · rfl

/-- An idle event locks as the verifier's store says exactly where the two
files agree. -/
theorem idle_event_exact {n : ℕ} (hn : 5 ≤ n) (s : System) :
    ((confGetPub s n autologin = some off → confGetPub s n idleKey ≠ some zero →
        notifIdled s = true ∧ lockIsArmed s = true) ∧
      (confGetPub s n autologin ≠ some off → notifIdled s = false)) ↔ Agree s := by
  rw [Ne, Ne, confGetPub_off hn, ← Bool.not_eq_true, notifIdled_iff]
  constructor
  · rintro ⟨hlock, hstill⟩
    constructor
    · intro t ht harmed
      have hzero : confGetPub s n idleKey ≠ some zero := fun h =>
        harmed.2 ((confGetPub_zero hn ht).mp h)
      exact (hlock ⟨t, ht, harmed.1⟩ hzero).1
    · intro u hu harmed
      by_contra hoff
      exact hstill hoff ⟨u, hu, harmed⟩
  · rintro ⟨hlock, hstill⟩
    constructor
    · rintro ⟨t, ht, hoff⟩ hzero
      have harmed : Armed 1024 t := ⟨hoff, fun h => hzero ((confGetPub_zero hn ht).mpr h)⟩
      exact ⟨hlock t ht harmed, lockIsArmed_of_store ht⟩
    · rintro hoff ⟨u, hu, harmed⟩
      exact hoff (hstill u hu harmed)

theorem lines_render {size : ℕ} {ls : List Text}
    (h : ∀ l ∈ ls, newline ∉ l ∧ l.length + 1 < size) :
    lines size (render ls) = ls.map fun l => cut (l ++ [newline]) := by
  induction ls with
  | nil => rfl
  | cons l ls ih =>
      obtain ⟨hl, hlen⟩ := h l List.mem_cons_self
      have htail := ih fun l' hl' => h l' (List.mem_cons_of_mem l hl')
      rw [lines, render] at htail
      rw [lines, render, List.flatMap_cons, List.append_assoc, List.singleton_append,
        chunks_short hl (by omega), List.map_cons, htail]
      rfl

/-- The two files agree where they are the same and their lines are short. -/
theorem agree_of_same {s : System} {ls : List Text} (hstore : store s = some (render ls))
    (hown : own s = some (render ls)) (h : ∀ l ∈ ls, newline ∉ l ∧ l.length + 1 < 256) :
    Agree s := by
  have hlong : ∀ l ∈ ls, newline ∉ l ∧ l.length + 1 < 1024 := fun l hl =>
    ⟨(h l hl).1, Nat.lt_trans (h l hl).2 (by decide)⟩
  have hsame : lines 256 (render ls) = lines 1024 (render ls) := by
    rw [lines_render h, lines_render hlong]
  have htold : ∀ key v, Says 256 key v (render ls) ↔ Says 1024 key v (render ls) := by
    intro key v
    rw [Says, Says, hsame]
  constructor
  · intro t ht harmed
    obtain rfl := Option.some.inj (hstore.symm.trans ht)
    refine ⟨render ls, hown, (htold _ _).mpr harmed.1, ?_⟩
    rw [htold]
    exact harmed.2
  · intro u hu harmed
    obtain rfl := Option.some.inj (hown.symm.trans hu)
    exact ⟨render ls, hstore, (htold _ _).mp harmed.1⟩

/-- A store with autologin off on a mounted `/persist`, and no other file. -/
def armedMachine : System where
  passwdHome := some (ascii "/home/veron")
  envHome := none
  device path := if path = ascii "/persist" then some 2 else some 1
  fopen path := if path = storePath then .ok (ascii "autologin=off\n") else .error ENOENT

/-- The store is armed and the event starts nothing. -/
theorem armedMachine_unlocked :
    ¬ ((confGetPub armedMachine 64 autologin = some off →
          confGetPub armedMachine 64 idleKey ≠ some zero →
          notifIdled armedMachine = true ∧ lockIsArmed armedMachine = true) ∧
        (confGetPub armedMachine 64 autologin ≠ some off → notifIdled armedMachine = false)) := by
  decide

/-- The same store, copied under the home directory. -/
def copiedMachine : System :=
  { armedMachine with
    fopen := fun path =>
      if path = storePath ∨ path = ownPath (ascii "/home/veron") then
        .ok (ascii "autologin=off\n")
      else .error ENOENT }

theorem copiedMachine_agree : Agree copiedMachine :=
  (idle_event_exact (n := 64) (by decide) copiedMachine).mp (by decide)

end Veron.IdleLock
