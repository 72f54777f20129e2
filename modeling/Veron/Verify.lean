/-
`veron_verify`: the verdict on what is plugged in and what was typed, and when it
is the one the enrolment asks for.
-/
import Veron.EnrollConf
import Veron.Totp

namespace Veron.Verify

open AuthConf (Text)
open Enroll (Bytes Store Wrap ascii findMaster masterFromKeyfile totpKey)
open Totp (StateFile)

def yes : Text := ascii "yes"

def cardKey : Text := ascii "card"

def requireKey : Text := ascii "require"

def all : Text := ascii "all"

/-- What a call meets besides the store. -/
structure Machine where
  media : Text → Option Bytes
  cardPresent : Bool
  now : UInt64

-- the key derivation, the hash the key of the TOTP seed is made with, and the code of
-- a time step
variable (kdf : Bytes → Bytes → Option Bytes) (hmac : Bytes → Bytes)
  (totpAt : Bytes → UInt64 → ℤ)

/-- `veron_totp_seed_read`: the string in the 64 bytes that were sealed. -/
def seedRead (master : Bytes) (seed : Option Wrap) : Option Bytes := do
  let w ← seed
  let out ← w.box.unseal (hmac master)
  return (out.take 64).takeWhile (· != 0)

/-- The state file a call leaves, and whether it returns 1. -/
def verify (io : Totp.Io) (env : Machine) (input : Bytes) (st : Store) (state : StateFile) :
    StateFile × Bool :=
  if 4096 ≤ input.length then (state, false)
  else
    let haveMaster := findMaster kdf env.media st
    let cardOk := st.setting cardKey = some yes && env.cardPresent
    match haveMaster with
    | none => (state, false)
    | some master =>
        let (state, ok) :=
          if st.setting totpKey = some yes then
            match seedRead hmac master st.seed with
            | none => (state, false)
            | some seed =>
                let (state, used) := Totp.checkSeed totpAt seed ⟨input, env.now⟩ io state
                (state, used.isSome)
          else (state, true)
        if st.setting cardKey = some yes && !cardOk then (state, false) else (state, ok)

/-- The code of a time step, as it is typed. -/
def IsCode (key code : Bytes) (s : UInt64) : Prop :=
  ∃ v : ℕ, totpAt key s = v ∧ v ≤ 999999 ∧ code = Totp.sixDigits v

/-- One step of drift either side. -/
def Adjacent (s step : UInt64) : Prop :=
  s.toNat + 1 = step.toNat ∨ s = step ∨ s.toNat = step.toNat + 1

def UnspentCode (seed code : Bytes) (now : UInt64) (state : StateFile) : Prop :=
  ∃ key s, Totp.keyOf seed = some key ∧ Adjacent s (now / 30) ∧ Totp.stored state < s ∧
    IsCode totpAt key code s

/-- What a master secret has to give where TOTP is enrolled. -/
def TotpPasses (env : Machine) (input : Bytes) (st : Store) (state : StateFile)
    (master : Bytes) : Prop :=
  st.setting totpKey = some yes →
    ∃ seed, seedRead hmac master st.seed = some seed ∧
      UnspentCode totpAt seed input env.now state

def CardPasses (env : Machine) (st : Store) : Prop :=
  st.setting cardKey = some yes → env.cardPresent

/-- A configured slot whose key file is plugged in, with the master secret it gives. -/
def Unwraps (env : Machine) (st : Store) (i : Fin 8) (master : Bytes) : Prop :=
  ∃ path, st.slotPath i = some path ∧
    masterFromKeyfile kdf env.media path (st.wraps i) = some master

/-- Some slot unwraps, to a master secret that passes. -/
def SlotPasses (env : Machine) (input : Bytes) (st : Store) (state : StateFile) : Prop :=
  ∃ i master, Unwraps kdf env st i master ∧ TotpPasses hmac totpAt env input st state master

def RequireMet (env : Machine) (st : Store) : Prop :=
  st.setting requireKey = some all → ∀ i path, st.slotPath i = some path →
    (masterFromKeyfile kdf env.media path (st.wraps i)).isSome

/-- Every factor that is enrolled is there. -/
def Unlocks (env : Machine) (input : Bytes) (st : Store) (state : StateFile) : Prop :=
  SlotPasses kdf hmac totpAt env input st state ∧ CardPasses env st ∧ RequireMet kdf env st

theorem foldl_or_eq_zero {l : List UInt8} {acc : UInt8} :
    l.foldl (· ||| ·) acc = 0 ↔ acc = 0 ∧ ∀ b ∈ l, b = 0 := by
  induction l generalizing acc with
  | nil => simp
  | cons b l ih =>
      rw [List.foldl_cons, ih, UInt8.or_eq_zero_iff, List.forall_mem_cons, and_assoc]

theorem ctEqual_iff {a b : List UInt8} (h : a.length = b.length) :
    Totp.ctEqual a b = true ↔ a = b := by
  rw [Totp.ctEqual, decide_eq_true_iff, foldl_or_eq_zero, eq_self, true_and]
  induction a generalizing b with
  | nil => simp [List.length_eq_zero_iff.mp h.symm]
  | cons x a ih =>
      cases b with
      | nil => cases h
      | cons y b =>
          rw [List.zipWith_cons_cons, List.forall_mem_cons, ih (Nat.succ.inj h),
            UInt8.xor_eq_zero_iff, List.cons.injEq]

theorem accepts_iff {key code : Bytes} (hlen : code.length = 6) (s : UInt64) :
    Totp.accepts totpAt key code s = true ↔ IsCode totpAt key code s := by
  rw [Totp.accepts, IsCode]
  split_ifs with hrange
  · refine iff_of_false id ?_
    rintro ⟨v, hv, hle, -⟩
    omega
  · rw [ctEqual_iff (by rw [hlen]; rfl)]
    constructor
    · intro h
      exact ⟨(totpAt key s).toNat, by omega, by omega, h.symm⟩
    · rintro ⟨v, hv, -, hcode⟩
      rw [hcode, hv, Int.toNat_natCast]

/-- The code of the step before the first one, for which the loop goes around. -/
def AroundCode (seed code : Bytes) (now : UInt64) (state : StateFile) : Prop :=
  now < 30 ∧ ∃ key, Totp.keyOf seed = some key ∧ Totp.stored state < (-1 : UInt64) ∧
    IsCode totpAt key code (-1)

theorem mem_steps_iff (s now : UInt64) :
    s ∈ [now / 30 - 1, now / 30, now / 30 + 1] ↔ Adjacent s (now / 30) ∨ now < 30 ∧ s = -1 := by
  have hstep : (now / 30).toNat = now.toNat / 30 := UInt64.toNat_div now 30
  have hnow := now.toNat_lt
  have hs := s.toNat_lt
  have hup : (now / 30 + 1).toNat = now.toNat / 30 + 1 := by
    rw [UInt64.toNat_add, hstep, UInt64.toNat_one]
    exact Nat.mod_eq_of_lt (by omega)
  have hsmall : now < 30 ↔ now.toNat < 30 := UInt64.lt_iff_toNat_lt
  have hlast : s = -1 ↔ s.toNat = 2 ^ 64 - 1 := UInt64.toNat_inj.symm
  have hdown : s = now / 30 - 1 ↔ s.toNat + 1 = now.toNat / 30 ∨
      now.toNat < 30 ∧ s.toNat = 2 ^ 64 - 1 := by
    rw [← UInt64.toNat_inj, UInt64.toNat_sub, hstep, UInt64.toNat_one]
    omega
  have hsame : s = now / 30 ↔ s.toNat = now.toNat / 30 := by rw [← UInt64.toNat_inj, hstep]
  have hnext : s = now / 30 + 1 ↔ s.toNat = now.toNat / 30 + 1 := by rw [← UInt64.toNat_inj, hup]
  simp only [List.mem_cons, List.not_mem_nil, or_false, Adjacent, hstep, hdown, hsame, hnext,
    hsmall, hlast]
  omega

theorem candidate_isSome_iff (seed : Bytes) (e : Totp.Entry) (state : StateFile) :
    (Totp.candidate totpAt seed e (Totp.stored state)).isSome ↔
      UnspentCode totpAt seed e.code e.now state ∨ AroundCode totpAt seed e.code e.now state := by
  rw [Totp.candidate]
  split_ifs with hlen
  · have hno : ∀ key s, ¬ IsCode totpAt key e.code s := by
      rintro key s ⟨v, -, -, hcode⟩
      exact hlen (by rw [hcode]; rfl)
    simp only [Option.isSome_none, Bool.false_eq_true, UnspentCode, AroundCode, hno, and_false,
      exists_const, or_self]
  · cases hkey : Totp.keyOf seed with
    | none => simp [UnspentCode, AroundCode, hkey]
    | some key =>
        have hfound : ∀ s, (!decide (s ≤ Totp.stored state) && Totp.accepts totpAt key e.code s) =
            true ↔ Totp.stored state < s ∧ IsCode totpAt key e.code s := by
          intro s
          rw [Bool.and_eq_true, accepts_iff totpAt (not_not.mp hlen)]
          simp
        dsimp only
        rw [Totp.matchStep, List.find?_isSome]
        simp only [hfound, mem_steps_iff, UnspentCode, AroundCode, hkey, Option.some.injEq,
          exists_and_left, exists_eq_left']
        constructor
        · rintro ⟨s, hadjacent | ⟨hsmall, rfl⟩, hlast, hcode⟩
          · exact .inl ⟨s, hadjacent, hlast, hcode⟩
          · exact .inr ⟨hsmall, hlast, hcode⟩
        · rintro (⟨s, hadjacent, hlast, hcode⟩ | ⟨hsmall, hlast, hcode⟩)
          · exact ⟨s, .inl hadjacent, hlast, hcode⟩
          · exact ⟨-1, .inr ⟨hsmall, rfl⟩, hlast, hcode⟩

section

variable (env : Machine) (input : Bytes) (st : Store) (state : StateFile)

/-- No slot before it unwraps. -/
def First (i : Fin 8) (master : Bytes) : Prop :=
  Unwraps kdf env st i master ∧ ∀ j < i, ∀ other, ¬Unwraps kdf env st j other

/-- In the first half minute after 1970 a master secret's seed gives the code that was typed
for the step before the first one. -/
def GoesAround (master : Bytes) : Prop :=
  st.setting totpKey = some yes ∧ ∃ seed, seedRead hmac master st.seed = some seed ∧
    AroundCode totpAt seed input env.now state

/-- The kinds of calls in which the verdict is not the one asked for. -/
inductive Misjudged : Prop where
  /-- a slot that is required does not unwrap, and the first one that does is enough -/
  | required (i : Fin 8) (master : Bytes) : CardPasses env st → ¬RequireMet kdf env st →
      First kdf env st i master → TotpPasses hmac totpAt env input st state master ∨
        GoesAround hmac totpAt env input st state master → Misjudged
  /-- the first slot that unwraps does not pass, and one behind it does -/
  | spare (i j : Fin 8) (master other : Bytes) : CardPasses env st → RequireMet kdf env st →
      First kdf env st i master → ¬TotpPasses hmac totpAt env input st state master →
      ¬GoesAround hmac totpAt env input st state master → i < j → Unwraps kdf env st j other →
      TotpPasses hmac totpAt env input st state other → Misjudged
  /-- nothing but the step before the first one passes -/
  | around (i : Fin 8) (master : Bytes) : CardPasses env st → RequireMet kdf env st →
      First kdf env st i master → GoesAround hmac totpAt env input st state master →
      ¬SlotPasses kdf hmac totpAt env input st state → Misjudged

end

variable {kdf hmac totpAt} {env : Machine} {input : Bytes} {st : Store} {state : StateFile}

theorem checkSeed_isSome_iff (seed : Bytes) :
    (Totp.checkSeed totpAt seed ⟨input, env.now⟩ Totp.Io.sound state).2.isSome ↔
      UnspentCode totpAt seed input env.now state ∨ AroundCode totpAt seed input env.now state := by
  have hcandidate := candidate_isSome_iff totpAt seed ⟨input, env.now⟩ state
  rw [← hcandidate, Totp.checkSeed_eq]
  have hread : Totp.readLast Totp.Io.sound state = Totp.stored state := rfl
  rw [hread]
  cases Totp.candidate totpAt seed ⟨input, env.now⟩ (Totp.stored state) <;> rfl

/-- What is asked of a master secret, as the call checks it. -/
def TotpChecked (hmac : Bytes → Bytes) (totpAt : Bytes → UInt64 → ℤ) (io : Totp.Io) (env : Machine)
    (input : Bytes) (st : Store) (state : StateFile) (master : Bytes) : Prop :=
  st.setting totpKey = some yes → ∃ seed, seedRead hmac master st.seed = some seed ∧
    (Totp.checkSeed totpAt seed ⟨input, env.now⟩ io state).2.isSome

theorem verify_eq {io : Totp.Io} {master : Bytes} (hlen : input.length < 4096)
    (hmaster : findMaster kdf env.media st = some master) :
    (verify kdf hmac totpAt io env input st state).2 = true ↔
      CardPasses env st ∧ TotpChecked hmac totpAt io env input st state master := by
  have hcard : (st.setting cardKey = some yes && !(st.setting cardKey = some yes &&
      env.cardPresent)) = true ↔ ¬ CardPasses env st := by
    rw [CardPasses]
    by_cases h : st.setting cardKey = some yes <;> simp [h]
  rw [verify, if_neg (Nat.not_le.mpr hlen), hmaster, TotpChecked]
  dsimp only
  by_cases hpasses : CardPasses env st
  · rw [if_neg (hcard.not.mpr (not_not.mpr hpasses)), and_iff_right hpasses]
    split_ifs with htotp
    · rw [imp_iff_right htotp]
      cases seedRead hmac master st.seed with
      | none => simp
      | some seed => simp
    · exact iff_of_true rfl fun h => absurd h htotp
  · rw [if_pos (hcard.mpr hpasses)]
    simp [hpasses]

/-- Of an ordered list `findSome?` takes the least element that has a value. -/
theorem findSome?_sorted {α β : Type} [LinearOrder α] {f : α → Option β} {l : List α} {b : β}
    (h : l.Pairwise (· < ·)) :
    l.findSome? f = some b ↔ ∃ a ∈ l, f a = some b ∧ ∀ c ∈ l, c < a → f c = none := by
  induction l with
  | nil => simp
  | cons p l ih =>
      obtain ⟨hp, hl⟩ := List.pairwise_cons.mp h
      rw [List.findSome?_cons]
      cases hvalue : f p with
      | some v =>
          constructor
          · intro hv
            refine ⟨p, List.mem_cons_self, hvalue.trans hv, fun c hc hlt => ?_⟩
            rcases List.mem_cons.mp hc with rfl | hc
            · exact absurd hlt (lt_irrefl c)
            · exact absurd hlt (hp c hc).asymm
          · rintro ⟨a, ha, hab, hleast⟩
            rcases List.mem_cons.mp ha with rfl | ha
            · exact hvalue.symm.trans hab
            · have hnone := hleast p List.mem_cons_self (hp a ha)
              cases hvalue.symm.trans hnone
      | none =>
          rw [ih hl]
          constructor
          · rintro ⟨a, ha, hab, hleast⟩
            refine ⟨a, List.mem_cons_of_mem p ha, hab, fun c hc hlt => ?_⟩
            rcases List.mem_cons.mp hc with rfl | hc
            · exact hvalue
            · exact hleast c hc hlt
          · rintro ⟨a, ha, hab, hleast⟩
            rcases List.mem_cons.mp ha with rfl | ha
            · cases hvalue.symm.trans hab
            · exact ⟨a, ha, hab, fun c hc => hleast c (List.mem_cons_of_mem p hc)⟩

theorem findMaster_iff {master : Bytes} :
    findMaster kdf env.media st = some master ↔ ∃ i, First kdf env st i master := by
  rw [findMaster, findSome?_sorted (by decide)]
  simp only [List.mem_finRange, true_and, true_imp_iff, First, Unwraps, Option.bind_eq_some_iff,
    Option.eq_none_iff_forall_ne_some, ne_eq]

theorem First.unique {i j : Fin 8} {master other : Bytes} (hi : First kdf env st i master)
    (hj : First kdf env st j other) : i = j ∧ master = other := by
  have hsome : some master = some other := by
    rw [← findMaster_iff.mpr ⟨i, hi⟩, findMaster_iff.mpr ⟨j, hj⟩]
  refine ⟨le_antisymm (not_lt.mp fun hlt => ?_) (not_lt.mp fun hlt => ?_), Option.some.inj hsome⟩
  · exact hi.2 j hlt other hj.1
  · exact hj.2 i hlt master hi.1

theorem exists_first {j : Fin 8} {other : Bytes} (h : Unwraps kdf env st j other) :
    ∃ i master, First kdf env st i master := by
  cases hmaster : findMaster kdf env.media st with
  | some master =>
      obtain ⟨i, hi⟩ := findMaster_iff.mp hmaster
      exact ⟨i, master, hi⟩
  | none =>
      obtain ⟨path, hpath, hunwraps⟩ := h
      have hnone := List.findSome?_eq_none_iff.mp hmaster j (List.mem_finRange j)
      rw [hpath, Option.bind_some, hunwraps] at hnone
      cases hnone

theorem verify_iff (hlen : input.length < 4096) :
    (verify kdf hmac totpAt Totp.Io.sound env input st state).2 = true ↔ CardPasses env st ∧
      ∃ i master, First kdf env st i master ∧
        (TotpPasses hmac totpAt env input st state master ∨
          GoesAround hmac totpAt env input st state master) := by
  cases hmaster : findMaster kdf env.media st with
  | none =>
      have hno : ∀ i master, ¬First kdf env st i master := by
        intro i master hfirst
        rw [findMaster_iff.mpr ⟨i, hfirst⟩] at hmaster
        cases hmaster
      rw [verify, if_neg (Nat.not_le.mpr hlen)]
      simp [hmaster, hno]
  | some master =>
      obtain ⟨i, hi⟩ := findMaster_iff.mp hmaster
      have honly : (∃ i other, First kdf env st i other ∧
          (TotpPasses hmac totpAt env input st state other ∨
            GoesAround hmac totpAt env input st state other)) ↔
          (TotpPasses hmac totpAt env input st state master ∨
            GoesAround hmac totpAt env input st state master) := by
        constructor
        · rintro ⟨j, other, hj, hpasses⟩
          rwa [(hi.unique hj).2]
        · exact fun hpasses => ⟨i, master, hi, hpasses⟩
      rw [verify_eq hlen hmaster, honly, TotpChecked]
      simp only [TotpPasses, GoesAround, checkSeed_isSome_iff]
      apply and_congr_right
      intro _
      by_cases htotp : st.setting totpKey = some yes
      · rw [imp_iff_right htotp, imp_iff_right htotp, and_iff_right htotp]
        simp only [and_or_left, exists_or]
      · exact iff_of_true (fun h => absurd h htotp) (.inl fun h => absurd h htotp)

/-- The key file of slot 0 is plugged in. -/
def oneStick : Machine where
  media path := if path = ascii "/a" then some [1] else none
  cardPresent := false
  now := 0

/-- Two key files are enrolled, and both are required. -/
def twoRequired : Store where
  conf := ascii "keyfile0=/a\nkeyfile1=/b\nrequire=all\n"
  wraps i := some ⟨[], ⟨[if i = 0 then 1 else 2], [9]⟩⟩
  seed := none

/-- The bytes of the file are the key. -/
def plainKdf (content _ : Bytes) : Option Bytes := some content

/-- A key file and a code are enrolled. -/
def codeRequired : Store where
  conf := ascii "keyfile0=/a\ntotp=yes\n"
  wraps _ := some ⟨[], ⟨[1], [9]⟩⟩
  seed := some ⟨[], ⟨[9], ascii "MFRA"⟩⟩

example : verify plainKdf id (fun _ s => s.toNat) Totp.Io.sound { oneStick with now := 60 }
    (ascii "000002") codeRequired none = (some (ascii "2\n"), true) := by decide

end Veron.Verify
