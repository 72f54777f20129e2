/-
The session gate: as long as no command loses a wrap or writes a line that reads
back as something else, an armed gate has a factor that can open it.
-/
import Veron.EnrollConf

namespace Veron.Enroll

open AuthConf (Text equals)

variable (kdf : Bytes → Bytes → Option Bytes) (hmac : Bytes → Bytes)

def off : Text := ascii "off"

/-- Every enrolled slot has its wrap, and the gate is only armed with one. -/
structure Guarded (st : Store) : Prop where
  conf : IsConf st.conf
  wrapped : ∀ i, (st.slotPath i).isSome → (st.wraps i).isSome
  armed : st.setting autologin = some off → ∃ i, (st.slotPath i).isSome

/-- Enrolling a path writes a line that is read back as written, and removing a
slot leaves its wrap when it leaves its line. -/
def Careful (env : Env) (argv : List Text) (st : Store) : Prop :=
  (∀ path rest, argv = ascii "keyfile" :: path :: rest → (readFile env.media path).isSome →
    CleanPath path) ∧
  ∀ which rest range, argv = ascii "remove" :: ascii "keyfile" :: which :: rest →
    slotRange which = some range → ∀ i ∈ range, (st.slotPath i).isSome →
      env.confSets (slotKey i) = false → env.unlinks i = false

/-- Every run of the program is careful on the store it finds. -/
def AllCareful : List (Env × List Text) → Store → Prop
  | [], _ => True
  | c :: cmds, st => Careful c.1 c.2 st ∧ AllCareful cmds (enroll kdf hmac c.1 c.2 st).1

variable {kdf hmac} {env : Env} {st st' : Store} {key : Text} {val : Option Text}

theorem guarded_empty : Guarded Store.empty where
  conf := isConf_nil
  wrapped i h := by
    have hnone : Store.empty.slotPath i = none := rfl
    rw [hnone] at h
    cases h
  armed h := by
    have hnone : Store.empty.setting autologin = none := rfl
    rw [hnone] at h
    cases h

theorem autologin_facts : equals ∉ autologin ∧ ∀ i, autologin ≠ slotKey i := by decide

/-- Writing a setting, the gate only where a slot is enrolled. -/
theorem Guarded.wrote (hst : Guarded st) (hw : Wrote key val st st') (hkey : ∀ i, key ≠ slotKey i)
    (hgate : key = autologin → val = some off → ∃ i, (st.slotPath i).isSome) : Guarded st' := by
  have hslot : ∀ i, st'.slotPath i = st.slotPath i := fun i => by
    rw [hw.slotPath, if_neg fun h => hkey i h.symm]
  refine ⟨hw.conf, fun i hi => ?_, fun hoff => ?_⟩
  · rw [hw.wraps]
    exact hst.wrapped i (hslot i ▸ hi)
  · rw [hw.setting autologin autologin_facts.1 autologin_facts.2] at hoff
    have hsome : ∃ i, (st.slotPath i).isSome := by
      split at hoff
      · exact hgate (by rename_i h; exact h.symm) hoff
      · exact hst.armed hoff
    obtain ⟨i, hi⟩ := hsome
    exact ⟨i, (hslot i).symm ▸ hi⟩

theorem Guarded.trySet (hst : Guarded st) (hw : Write key val) (hkey : ∀ i, key ≠ slotKey i)
    (hgate : key = autologin → val = some off → ∃ i, (st.slotPath i).isSome) :
    Guarded (trySet env key val st) := by
  rcases trySet_cases env hst.conf hw with ⟨-, hsame⟩ | ⟨-, hwrote⟩
  · rw [hsame]
    exact hst
  · exact hst.wrote hwrote hkey hgate

theorem write_fixed {key v : Text} (h : (key, v) ∈ fixedEntries) :
    Write key (some v) ∧ ∀ i, key ≠ slotKey i := by
  obtain ⟨heq, -, -, -, hslot⟩ := fixedEntries_facts _ h
  exact ⟨⟨heq, fun w hw => by cases hw; exact .fixed h⟩, hslot⟩

/-- A command that writes one setting. -/
theorem Guarded.setting (hst : Guarded st) {v : Text} (h : (key, v) ∈ fixedEntries)
    (hgate : key = autologin → v = off → ∃ i, (st.slotPath i).isSome) :
    Guarded (Enroll.setting env key v st).1 := by
  obtain ⟨hw, hslot⟩ := write_fixed h
  rw [Enroll.setting]
  cases hset : confSet env key (some v) st with
  | none => exact hst
  | some st' =>
      exact hst.wrote (wrote_of_confSet hst.conf hw hset) hslot fun hk hv =>
        hgate hk (Option.some.inj hv)

theorem Guarded.withWrap (hst : Guarded st) (i : Fin 8) (w : Wrap) :
    Guarded (st.withWrap i (some w)) := by
  refine ⟨hst.conf, fun j hj => ?_, hst.armed⟩
  by_cases h : j = i
  · subst h
    simp [Store.withWrap]
  · simp only [Store.withWrap, Function.update_of_ne h]
    exact hst.wrapped j hj

theorem write_slot (i : Fin 8) {path : Text} (h : CleanPath path) :
    Write (slotKey i) (some path) :=
  ⟨(slotKey_facts i).2.1, fun v hv => by cases hv; exact .slot i h⟩

/-- Arming comes after a slot is enrolled. -/
theorem Guarded.arm (hst : Guarded st) (h : ∃ i, (st.slotPath i).isSome) :
    Guarded (arm env st) := by
  have hoff : (autologin, off) ∈ fixedEntries := by decide
  obtain ⟨hw, hslot⟩ := write_fixed hoff
  rw [Enroll.arm]
  split
  · exact hst.trySet hw hslot fun _ _ => h
  · exact hst

theorem guarded_keyfile (hst : Guarded st) {args : List Text}
    (hclean : ∀ path rest, args = path :: rest → (readFile env.media path).isSome →
      CleanPath path) : Guarded (keyfile kdf env args st).1 := by
  rcases keyfile_cases kdf env args st with hsame | ⟨path, rest, i, w, hargs, henrols, h⟩
  · rw [hsame]
    exact hst
  · have hwrap := hst.withWrap i w
    rcases h with hfailed | ⟨st₁, hset, harm⟩
    · rw [hfailed]
      exact hwrap
    · have hpath := hclean path rest hargs henrols.readable
      have hwrote := wrote_of_confSet hwrap.conf (write_slot i hpath) hset
      have hslot : st₁.slotPath i = some path := by rw [hwrote.slotPath, if_pos rfl]
      have hsome : ∃ i, (st₁.slotPath i).isSome := ⟨i, by rw [hslot]; rfl⟩
      rw [harm]
      refine Guarded.arm ⟨hwrote.conf, fun j hj => ?_, fun _ => hsome⟩ hsome
      rw [hwrote.wraps]
      by_cases hji : j = i
      · subst hji
        simp [Store.withWrap]
      · rw [hwrote.slotPath, if_neg fun h => hji (slotKey_injective h)] at hj
        exact hwrap.wrapped j hj

theorem guarded_totp (hst : Guarded st) : Guarded (totp kdf hmac env st).1 := by
  rcases totp_cases kdf hmac env st with hsame | ⟨master, seed, -, h⟩
  · rw [hsame]
    exact hst
  · have hsealed : Guarded { st with seed := some ⟨env.salt, hmac master, padSeed seed⟩ } :=
      ⟨hst.conf, hst.wrapped, hst.armed⟩
    rcases h with hfailed | hset
    · rw [hfailed]
      exact hsealed
    · have hyes : (totpKey, ascii "yes") ∈ fixedEntries := by decide
      obtain ⟨hw, hslot⟩ := write_fixed hyes
      refine hsealed.wrote (wrote_of_confSet hst.conf hw hset) hslot fun hkey => ?_
      exact absurd hkey (by decide)

theorem guarded_autologin (hst : Guarded st) (args : List Text) :
    Guarded (autologinCommand kdf env args st).1 := by
  cases args with
  | nil => exact hst
  | cons val rest =>
      rw [autologinCommand]
      split
      · rename_i hval
        cases hmaster : findMaster kdf env.media st with
        | none => exact hst
        | some m =>
            obtain ⟨i, path, hpath, -⟩ := findMaster_spec hmaster
            subst hval
            exact hst.setting (by decide) fun _ _ => ⟨i, by rw [hpath]; rfl⟩
      · split
        · rename_i hval
          subst hval
          exact hst.setting (by decide) fun _ h => absurd h (by decide)
        · exact hst

theorem guarded_require (hst : Guarded st) (args : List Text) :
    Guarded (requireCommand env args st).1 := by
  cases args with
  | nil => exact hst
  | cons val rest =>
      rw [requireCommand]
      split
      · rename_i hval
        have hmem : (ascii "require", val) ∈ fixedEntries := by
          rcases hval with rfl | rfl
          · decide
          · decide
        exact hst.setting hmem fun h => absurd h (by decide)
      · exact hst

/-- What the removal loop keeps: wraps of what is still enrolled, the other slots
and the gate. -/
structure Removing (st : Store) (range : List (Fin 8)) (st' : Store) : Prop where
  conf : IsConf st'.conf
  wrapped : ∀ i, (st'.slotPath i).isSome → (st'.wraps i).isSome
  others : ∀ i, i ∉ range → st'.slotPath i = st.slotPath i
  gate : st'.setting autologin = st.setting autologin
  only : ∀ i, (st'.slotPath i).isSome → (st.slotPath i).isSome

theorem Removing.step {range : List (Fin 8)} (h : Removing st range st') {i : Fin 8}
    (hi : i ∈ range)
    (hcareful : (st.slotPath i).isSome → env.confSets (slotKey i) = false → env.unlinks i = false) :
    Removing st range (removeSlot env st' i) := by
  rw [removeSlot]
  split
  · exact h
  · rename_i hsome
    have henrolled : (st.slotPath i).isSome := by
      apply h.only
      rw [Option.isNone_iff_eq_none] at hsome
      exact Option.isSome_iff_ne_none.mpr hsome
    have hw : Write (slotKey i) none := Write.drop (slotKey_facts i).2.1
    rcases trySet_cases env h.conf hw with ⟨hfails, hsame⟩ | ⟨-, hwrote⟩
    · -- the line stays, and with it the wrap
      rw [hsame, hcareful henrolled hfails]
      exact h
    · have hslot : ∀ j, (trySet env (slotKey i) none st').slotPath j =
          if j = i then none else st'.slotPath j := by
        intro j
        rw [hwrote.slotPath]
        by_cases hji : j = i
        · rw [if_pos (congrArg slotKey hji), if_pos hji]
        · rw [if_neg fun hkey => hji (slotKey_injective hkey), if_neg hji]
      have hgone : Removing st range (trySet env (slotKey i) none st') := by
        refine ⟨hwrote.conf, fun j hj => ?_, fun j hj => ?_, ?_, fun j hj => ?_⟩
        · rw [hwrote.wraps]
          rw [hslot] at hj
          split at hj
          · cases hj
          · exact h.wrapped j hj
        · have hji : j ≠ i := by
            rintro rfl
            exact hj hi
          rw [hslot, if_neg hji]
          exact h.others j hj
        · rw [hwrote.setting autologin autologin_facts.1 autologin_facts.2,
            if_neg (autologin_facts.2 i)]
          exact h.gate
        · rw [hslot] at hj
          split at hj
          · cases hj
          · exact h.only j hj
      split
      · refine ⟨hgone.conf, fun j hj => ?_, hgone.others, hgone.gate, hgone.only⟩
        have hji : j ≠ i := by
          rintro rfl
          have hnone : (trySet env (slotKey j) none st').slotPath j = none := by
            rw [hslot, if_pos rfl]
          rw [Store.slotPath] at hj hnone
          rw [hnone] at hj
          cases hj
        simp only [Function.update_of_ne hji]
        exact hgone.wrapped j hj
      · exact hgone

theorem Removing.foldl {range todo : List (Fin 8)} (h : Removing st range st')
    (htodo : ∀ i ∈ todo, i ∈ range)
    (hcareful : ∀ i ∈ range, (st.slotPath i).isSome → env.confSets (slotKey i) = false →
      env.unlinks i = false) : Removing st range (todo.foldl (removeSlot env) st') := by
  induction todo generalizing st' with
  | nil => exact h
  | cons i todo ih =>
      have hi := htodo i List.mem_cons_self
      exact ih (h.step hi (hcareful i hi)) fun j hj => htodo j (List.mem_cons_of_mem i hj)

/-- Where the gate is armed, a removal that is not refused leaves a slot. -/
theorem exists_other (hst : Guarded st) (range : List (Fin 8)) (h : st.locksOut range = false)
    (hoff : st.setting autologin = some off) : ∃ i, i ∉ range ∧ (st.slotPath i).isSome := by
  obtain ⟨i, hi⟩ := hst.armed hoff
  have hmem : i ∈ st.enrolled := List.mem_filter.mpr ⟨List.mem_finRange i, hi⟩
  have hpos : 0 < st.enrolled.length := List.length_pos_of_mem hmem
  have hless : (st.enrolled.filter (· ∈ range)).length < st.enrolled.length := by
    rw [Store.locksOut] at h
    simp only [hoff, off, decide_true, Bool.true_and, hpos, Bool.and_true,
      decide_eq_false_iff_not, Nat.not_le] at h
    exact h
  obtain ⟨j, hj, hnot⟩ := List.length_filter_lt_length_iff_exists.mp hless
  exact ⟨j, by simpa using hnot, (List.mem_filter.mp hj).2⟩

/-- The keys of an older layout, dropped at the end of a removal. -/
def oldKeys : List Text := [ascii "keyfile", ascii "keyfile-salt", ascii "keyfile-hash"]

theorem oldKeys_facts :
    ∀ key ∈ oldKeys, equals ∉ key ∧ (∀ i, key ≠ slotKey i) ∧ key ≠ autologin := by decide

theorem guarded_removeKeyfile (hst : Guarded st) {args : List Text}
    (hcareful : ∀ which rest range, args = which :: rest → slotRange which = some range →
      ∀ i ∈ range, (st.slotPath i).isSome → env.confSets (slotKey i) = false →
        env.unlinks i = false) : Guarded (removeKeyfile env args st).1 := by
  cases args with
  | nil => exact hst
  | cons which rest =>
      rw [removeKeyfile]
      cases hrange : slotRange which with
      | none => exact hst
      | some range =>
          dsimp only
          split
          · exact hst
          · rename_i hlocks
            have hstart : Removing st range st :=
              ⟨hst.conf, hst.wrapped, fun _ _ => rfl, rfl, fun _ h => h⟩
            have hloop := hstart.foldl (fun _ h => h) (hcareful which rest range rfl hrange)
            have hguard : Guarded (range.foldl (removeSlot env) st) := by
              refine ⟨hloop.conf, hloop.wrapped, fun hoff => ?_⟩
              rw [hloop.gate] at hoff
              obtain ⟨i, hout, hi⟩ := exists_other hst range (by simpa using hlocks) hoff
              exact ⟨i, by rw [hloop.others i hout]; exact hi⟩
            have hold : ∀ {key : Text} {st : Store}, key ∈ oldKeys → Guarded st →
                Guarded (Enroll.trySet env key none st) := by
              intro key st hkey hst
              obtain ⟨heq, hslot, hgate⟩ := oldKeys_facts key hkey
              exact hst.trySet (.drop heq) hslot fun h => absurd h hgate
            apply hold (by decide)
            apply hold (by decide)
            exact hold (by decide) hguard

theorem guarded_remove (hst : Guarded st) {args : List Text}
    (hcareful : ∀ which rest range, args = ascii "keyfile" :: which :: rest →
      slotRange which = some range → ∀ i ∈ range, (st.slotPath i).isSome →
        env.confSets (slotKey i) = false → env.unlinks i = false) :
    Guarded (remove env args st).1 := by
  cases args with
  | nil => exact hst
  | cons what rest =>
      rw [remove]
      split
      · rename_i hwhat
        apply guarded_removeKeyfile hst
        intro which rest' range hrest
        exact hcareful which rest' range (by rw [hwhat, hrest])
      · split
        · exact hst.trySet (.drop (by decide)) (by decide) fun h => absurd h (by decide)
        · split
          · exact hst.trySet (.drop (by decide)) (by decide) fun h => absurd h (by decide)
          · exact hst

theorem guarded_enroll (hst : Guarded st) {argv : List Text} (h : Careful env argv st) :
    Guarded (enroll kdf hmac env argv st).1 := by
  cases argv with
  | nil => exact hst
  | cons cmd args =>
      obtain ⟨hkeyfile, hremove⟩ := h
      rw [enroll]
      split
      · exact hst
      split
      · exact hst
      split
      · exact hst
      split
      · rename_i hcmd
        apply guarded_keyfile hst
        intro path rest hargs
        exact hkeyfile path rest (by rw [hcmd, hargs])
      split
      · exact guarded_totp hst
      split
      · exact hst.setting (by decide) fun h => absurd h (by decide)
      split
      · exact guarded_require hst args
      split
      · exact guarded_autologin hst args
      split
      · rename_i hcmd
        apply guarded_remove hst
        intro which rest range hargs
        exact hremove which rest range (by rw [hcmd, hargs])
      split
      · exact hst
      · exact hst

theorem guarded_runs (cmds : List (Env × List Text)) (hst : Guarded st)
    (h : AllCareful kdf hmac cmds st) : Guarded (runs kdf hmac cmds st) := by
  induction cmds generalizing st with
  | nil => exact hst
  | cons c cmds ih => exact ih (guarded_enroll hst h.1) h.2

/-- After any careful runs an armed gate comes with a slot that has its wrap. -/
theorem gate_has_factor (cmds : List (Env × List Text))
    (h : AllCareful kdf hmac cmds Store.empty)
    (hoff : (runs kdf hmac cmds Store.empty).setting autologin = some off) :
    ∃ i, ((runs kdf hmac cmds Store.empty).slotPath i).isSome ∧
      ((runs kdf hmac cmds Store.empty).wraps i).isSome := by
  have hguard := guarded_runs cmds guarded_empty h
  obtain ⟨i, hi⟩ := hguard.armed hoff
  exact ⟨i, hi, hguard.wrapped i hi⟩

/-- Two key files are plugged in and everything succeeds. -/
def sampleEnv : Env where
  mkconfdir := true
  media path := if path = ascii "/a" then some [1] else if path = ascii "/b" then some [2] else none
  accepted _ := true
  salt := List.replicate 16 7
  fresh := List.replicate 64 9
  totpSeed := some (List.replicate 32 0x41)
  confSets _ := true
  wrapWrites := true
  seedWrites := true
  unlinks _ := true

def sampleKdf (content salt : Bytes) : Option Bytes := some (content ++ salt)

def command (s : List String) : List Text := s.map ascii

theorem gate_has_factor_sample :
    ∃ i, ((runs sampleKdf id [(sampleEnv, command ["keyfile", "/a"])]
        Store.empty).slotPath i).isSome ∧
      ((runs sampleKdf id [(sampleEnv, command ["keyfile", "/a"])]
        Store.empty).wraps i).isSome := by
  apply gate_has_factor
  · refine ⟨⟨?_, ?_⟩, trivial⟩
    · intro path rest h _
      obtain ⟨-, h⟩ := List.cons.inj h
      obtain ⟨rfl, -⟩ := List.cons.inj h
      exact ⟨by decide, by decide, by decide, by decide⟩
    · intro which rest range h
      exact absurd (List.cons.inj h).1 (by decide)
  · decide

/-- The line of slot 0 cannot be dropped, but its wrap is, and then slot 1 may
go. -/
theorem gate_without_factor :
    let st := runs sampleKdf id
      [(sampleEnv, command ["keyfile", "/a"]), (sampleEnv, command ["keyfile", "/b"]),
        ({ sampleEnv with confSets := fun key => key != slotKey 0 },
          command ["remove", "keyfile", "0"]),
        (sampleEnv, command ["remove", "keyfile", "1"])] Store.empty
    st.setting autologin = some off ∧
      ¬ ∃ i, (st.slotPath i).isSome ∧ (st.wraps i).isSome := by
  decide

end Veron.Enroll
