/-
One master secret behind all factors: what enrolment, removal and TOTP keep as
long as enrolling a factor meets one that is enrolled already.
-/
import Veron.EnrollGate

namespace Veron.Enroll

open AuthConf (Text equals)

variable (kdf : Bytes → Bytes → Option Bytes) (hmac : Bytes → Bytes)
  (contents : Text → Option Bytes)

def yes : Text := ascii "yes"

/-- Some of the key files are plugged in, and every file operation succeeds. -/
structure Succeeds (env : Env) : Prop where
  media : ∀ path content, env.media path = some content → contents path = some content
  confSets : ∀ key, env.confSets key = true
  wrapWrites : env.wrapWrites = true
  seedWrites : env.seedWrites = true
  unlinks : ∀ i, env.unlinks i = true

/-- Every enrolled slot's wrap gives the secret to that slot's key file, and the
secret opens the TOTP seed. -/
structure Shares (m : Bytes) (st : Store) : Prop where
  conf : IsConf st.conf
  wraps : ∀ i path, st.slotPath i = some path →
    masterFromKeyfile kdf contents path (st.wraps i) = some m
  seed : st.setting totpKey = some yes → ∃ w s, st.seed = some w ∧ w.box.unseal (hmac m) = some s

/-- Enrolling a key file comes with one that is enrolled, or is the first thing
to depend on a master secret. -/
def Single (env : Env) (argv : List Text) (st : Store) : Prop :=
  ∀ path rest, argv = ascii "keyfile" :: path :: rest → (readFile env.media path).isSome →
    CleanPath path ∧
      ((∃ i p, st.slotPath i = some p ∧ (readFile env.media p).isSome) ∨
        (∀ i, st.slotPath i = none) ∧ st.setting totpKey ≠ some yes)

/-- Every run of the program, on the store it finds. -/
def AllSingle : List (Env × List Text) → Store → Prop
  | [], _ => True
  | c :: cmds, st => Single c.1 c.2 st ∧ AllSingle cmds (enroll kdf hmac c.1 c.2 st).1

variable {kdf hmac contents} {env : Env} {st st' : Store} {key : Text} {val : Option Text}
  {m : Bytes}

theorem Succeeds.readFile (h : Succeeds contents env) {path : Text} {content : Bytes}
    (hread : readFile env.media path = some content) :
    Enroll.readFile contents path = some content := by
  rw [Enroll.readFile] at hread ⊢
  split at hread
  · cases hread
  · rw [if_neg ‹_›]
    exact h.media path content hread

theorem Succeeds.deriveKey (h : Succeeds contents env) {path salt key : Bytes}
    (hkey : deriveKey kdf env.media path salt = some key) :
    Enroll.deriveKey kdf contents path salt = some key := by
  obtain ⟨content, hread, hbuf⟩ := Option.bind_eq_some_iff.mp hkey
  rw [Enroll.deriveKey, h.readFile hread]
  exact hbuf

theorem Succeeds.masterFromKeyfile (h : Succeeds contents env) {path : Text} {wrap : Option Wrap}
    (hm : masterFromKeyfile kdf env.media path wrap = some m) :
    Enroll.masterFromKeyfile kdf contents path wrap = some m := by
  obtain ⟨w, rfl, hm⟩ := Option.bind_eq_some_iff.mp hm
  obtain ⟨key, hkey, hbox⟩ := Option.bind_eq_some_iff.mp hm
  simp only [Enroll.masterFromKeyfile, Option.bind_eq_bind, Option.bind_some, h.deriveKey hkey,
    hbox]

/-- A key file that is plugged in unwraps what it is enrolled for. -/
theorem masterFromKeyfile_of_readable (h : Succeeds contents env) {path : Text}
    {wrap : Option Wrap} (hread : (Enroll.readFile env.media path).isSome)
    (hm : Enroll.masterFromKeyfile kdf contents path wrap = some m) :
    Enroll.masterFromKeyfile kdf env.media path wrap = some m := by
  obtain ⟨content, hcontent⟩ := Option.isSome_iff_exists.mp hread
  obtain ⟨w, rfl, hm⟩ := Option.bind_eq_some_iff.mp hm
  obtain ⟨key, hkey, hbox⟩ := Option.bind_eq_some_iff.mp hm
  have hsame : Enroll.deriveKey kdf env.media path w.salt =
      Enroll.deriveKey kdf contents path w.salt := by
    rw [Enroll.deriveKey, Enroll.deriveKey, hcontent, h.readFile hcontent]
  simp only [Enroll.masterFromKeyfile, Option.bind_eq_bind, Option.bind_some, hsame, hkey, hbox]

/-- A wrap written gives its master secret back. -/
theorem masterFromKeyfile_wrapToKeyfile (h : Succeeds contents env) {path : Text} {w : Wrap}
    (hw : wrapToKeyfile kdf env path m = some w) :
    Enroll.masterFromKeyfile kdf contents path (some w) = some m := by
  obtain ⟨key, hkey, hw⟩ := Option.bind_eq_some_iff.mp hw
  split at hw
  · obtain rfl := Option.some.inj hw
    simp only [Enroll.masterFromKeyfile, Option.bind_eq_bind, Option.bind_some, h.deriveKey hkey,
      Sealed.unseal, ↓reduceIte]
  · cases hw

theorem findMaster_eq (h : Succeeds contents env) (hst : Shares kdf hmac contents m st) {m' : Bytes}
    (hfound : findMaster kdf env.media st = some m') : m' = m := by
  obtain ⟨i, path, hpath, hm⟩ := findMaster_spec hfound
  have hall := hst.wraps i path hpath
  rw [h.masterFromKeyfile hm] at hall
  exact Option.some.inj hall

theorem findMaster_isSome (h : Succeeds contents env) (hst : Shares kdf hmac contents m st)
    {i : Fin 8} {path : Text} (hpath : st.slotPath i = some path)
    (hread : (Enroll.readFile env.media path).isSome) :
    findMaster kdf env.media st = some m := by
  have hm := masterFromKeyfile_of_readable h hread (hst.wraps i path hpath)
  have hsome : (findMaster kdf env.media st).isSome := by
    rw [findMaster, List.findSome?_isSome_iff]
    exact ⟨i, List.mem_finRange i, by rw [hpath, Option.bind_some, hm]; rfl⟩
  obtain ⟨m', hm'⟩ := Option.isSome_iff_exists.mp hsome
  rw [hm', findMaster_eq h hst hm']

theorem totpKey_facts : equals ∉ totpKey ∧ ∀ i, totpKey ≠ slotKey i := by decide

theorem shares_empty : Shares kdf hmac contents m Store.empty where
  conf := isConf_nil
  wraps i path h := by
    have hnone : Store.empty.slotPath i = none := rfl
    rw [hnone] at h
    cases h
  seed h := by
    have hnone : Store.empty.setting totpKey = none := rfl
    rw [hnone] at h
    cases h

/-- A setting other than TOTP leaves everything the secret is behind of. -/
theorem Shares.wrote (hst : Shares kdf hmac contents m st) (hw : Wrote key val st st')
    (hkey : ∀ i, key ≠ slotKey i) (htotp : key = totpKey → val = some yes →
      ∃ w s, st.seed = some w ∧ w.box.unseal (hmac m) = some s) :
    Shares kdf hmac contents m st' := by
  refine ⟨hw.conf, fun i path hpath => ?_, fun hyes => ?_⟩
  · rw [hw.slotPath, if_neg fun h => hkey i h.symm] at hpath
    rw [hw.wraps]
    exact hst.wraps i path hpath
  · rw [hw.seed]
    rw [hw.setting totpKey totpKey_facts.1 totpKey_facts.2] at hyes
    split at hyes
    · exact htotp (by rename_i h; exact h.symm) hyes
    · exact hst.seed hyes

theorem Shares.trySet (hst : Shares kdf hmac contents m st) (hw : Write key val)
    (hkey : ∀ i, key ≠ slotKey i) (htotp : key = totpKey → val = none) :
    Shares kdf hmac contents m (trySet env key val st) := by
  rcases trySet_cases env hst.conf hw with ⟨-, hsame⟩ | ⟨-, hwrote⟩
  · rw [hsame]
    exact hst
  · exact hst.wrote hwrote hkey fun hk hv => by rw [htotp hk] at hv; cases hv

theorem Shares.setting (hst : Shares kdf hmac contents m st) {v : Text}
    (h : (key, v) ∈ fixedEntries) (htotp : key ≠ totpKey) :
    Shares kdf hmac contents m (Enroll.setting env key v st).1 := by
  obtain ⟨hw, hslot⟩ := write_fixed h
  rw [Enroll.setting]
  cases hset : confSet env key (some v) st with
  | none => exact hst
  | some st' =>
      exact hst.wrote (wrote_of_confSet hst.conf hw hset) hslot fun hk => absurd hk htotp

/-- The secret a new factor is enrolled for: the one there is, or a fresh one
that nothing else depends on. -/
theorem shares_for_enrolment (h : Succeeds contents env) (hst : Shares kdf hmac contents m st)
    (hsource : (∃ i p, st.slotPath i = some p ∧ (readFile env.media p).isSome) ∨
      (∀ i, st.slotPath i = none) ∧ st.setting totpKey ≠ some yes) :
    Shares kdf hmac contents ((findMaster kdf env.media st).getD env.fresh) st := by
  rcases hsource with ⟨i, path, hpath, hread⟩ | ⟨hnone, htotp⟩
  · rw [findMaster_isSome h hst hpath hread]
    exact hst
  · refine ⟨hst.conf, fun i path hpath => ?_, fun hyes => absurd hyes htotp⟩
    rw [hnone i] at hpath
    cases hpath

theorem Shares.withWrap (hst : Shares kdf hmac contents m st) {i : Fin 8} {path : Text} {w : Wrap}
    (hslot : st.slotPath i = none ∨ st.slotPath i = some path)
    (hw : masterFromKeyfile kdf contents path (some w) = some m) :
    Shares kdf hmac contents m (st.withWrap i (some w)) := by
  refine ⟨hst.conf, fun j p hp => ?_, hst.seed⟩
  have hold : st.slotPath j = some p := hp
  by_cases hji : j = i
  · subst hji
    rcases hslot with hfree | hsame
    · rw [hfree] at hold
      cases hold
    · rw [hsame] at hold
      obtain rfl := Option.some.inj hold
      simp only [Store.withWrap, Function.update_self]
      exact hw
  · simp only [Store.withWrap, Function.update_of_ne hji]
    exact hst.wraps j p hold

/-- A slot whose wrap gives the secret is enrolled. -/
theorem Shares.enrolled (hst : Shares kdf hmac contents m st) {i : Fin 8} {path : Text}
    (hw : Wrote (slotKey i) (some path) st st')
    (hwrap : masterFromKeyfile kdf contents path (st.wraps i) = some m) :
    Shares kdf hmac contents m st' := by
  refine ⟨hw.conf, fun j p hp => ?_, fun hyes => ?_⟩
  · rw [hw.wraps]
    by_cases hji : j = i
    · subst hji
      rw [hw.slotPath, if_pos rfl] at hp
      obtain rfl := Option.some.inj hp
      exact hwrap
    · rw [hw.slotPath, if_neg fun hkey => hji (slotKey_injective hkey)] at hp
      exact hst.wraps j p hp
  · rw [hw.setting totpKey totpKey_facts.1 totpKey_facts.2, if_neg (totpKey_facts.2 i)] at hyes
    rw [hw.seed]
    exact hst.seed hyes

theorem shares_keyfile (h : Succeeds contents env) (hst : Shares kdf hmac contents m st)
    {args : List Text} (hsingle : ∀ path rest, args = path :: rest →
      (readFile env.media path).isSome → CleanPath path ∧
        ((∃ i p, st.slotPath i = some p ∧ (readFile env.media p).isSome) ∨
          (∀ i, st.slotPath i = none) ∧ st.setting totpKey ≠ some yes)) :
    ∃ m, Shares kdf hmac contents m (keyfile kdf env args st).1 := by
  rcases keyfile_cases kdf env args st with hsame | ⟨path, rest, i, w, hargs, henrols, hresult⟩
  · rw [hsame]
    exact ⟨m, hst⟩
  · obtain ⟨hclean, hsource⟩ := hsingle path rest hargs henrols.readable
    have hnew := shares_for_enrolment h hst hsource
    have hunwrap := masterFromKeyfile_wrapToKeyfile h henrols.wrap
    have hwrap := hnew.withWrap (freeSlot_spec henrols.slot) hunwrap
    refine ⟨(findMaster kdf env.media st).getD env.fresh, ?_⟩
    rcases hresult with hfailed | ⟨st₁, hset, harm⟩
    · rw [hfailed]
      exact hwrap
    · have hwrote := wrote_of_confSet hwrap.conf (write_slot i hclean) hset
      have hone := hwrap.enrolled hwrote (by simpa [Store.withWrap] using hunwrap)
      rw [harm, arm]
      split
      · obtain ⟨hw, hslot⟩ := write_fixed (show (autologin, off) ∈ fixedEntries by decide)
        exact hone.trySet hw hslot fun hk => absurd hk (by decide)
      · exact hone

/-- A new seed is sealed for the secret of the slots. -/
theorem shares_totp (h : Succeeds contents env) (hst : Shares kdf hmac contents m st) :
    Shares kdf hmac contents m (totp kdf hmac env st).1 := by
  rcases totp_cases kdf hmac env st with hsame | ⟨master, seed, hmaster, hresult⟩
  · rw [hsame]
    exact hst
  · obtain rfl := findMaster_eq h hst hmaster
    have hopens : ∃ w s, (some (Wrap.mk env.salt ⟨hmac master, padSeed seed⟩)) = some w ∧
        w.box.unseal (hmac master) = some s := ⟨_, padSeed seed, rfl, if_pos rfl⟩
    have hsealed : Shares kdf hmac contents master
        { st with seed := some ⟨env.salt, hmac master, padSeed seed⟩ } :=
      ⟨hst.conf, hst.wraps, fun _ => hopens⟩
    rcases hresult with hfailed | hset
    · rw [hfailed]
      exact hsealed
    · obtain ⟨hw, hslot⟩ := write_fixed (show (totpKey, yes) ∈ fixedEntries by decide)
      exact hsealed.wrote (wrote_of_confSet hst.conf hw hset) hslot fun _ _ => hopens

theorem shares_autologin (hst : Shares kdf hmac contents m st) (args : List Text) :
    Shares kdf hmac contents m (autologinCommand kdf env args st).1 := by
  cases args with
  | nil => exact hst
  | cons val rest =>
      rw [autologinCommand]
      split
      · rename_i hval
        subst hval
        split
        · exact hst
        · exact hst.setting (by decide) (by decide)
      · split
        · rename_i hval
          subst hval
          exact hst.setting (by decide) (by decide)
        · exact hst

theorem shares_require (hst : Shares kdf hmac contents m st) (args : List Text) :
    Shares kdf hmac contents m (requireCommand env args st).1 := by
  cases args with
  | nil => exact hst
  | cons val rest =>
      rw [requireCommand]
      split
      · rename_i hval
        have hmem : (ascii "require", val) ∈ fixedEntries := by
          rcases hval with rfl | rfl
          · decide
          · decide
        exact hst.setting hmem (by decide)
      · exact hst

/-- A slot removed leaves the others their wraps. -/
theorem Shares.removeSlot (h : Succeeds contents env) (hst : Shares kdf hmac contents m st)
    (i : Fin 8) : Shares kdf hmac contents m (removeSlot env st i) := by
  rw [Enroll.removeSlot]
  split
  · exact hst
  · have hw : Write (slotKey i) none := Write.drop (slotKey_facts i).2.1
    rcases trySet_cases env hst.conf hw with ⟨hfails, -⟩ | ⟨-, hwrote⟩
    · rw [h.confSets] at hfails
      cases hfails
    · rw [if_pos (h.unlinks i)]
      refine ⟨hwrote.conf, fun j p hp => ?_, fun hyes => ?_⟩
      · have hp : (Enroll.trySet env (slotKey i) none st).slotPath j = some p := hp
        rw [hwrote.slotPath] at hp
        split at hp
        · cases hp
        · have hji : j ≠ i := by
            rintro rfl
            exact absurd rfl ‹_›
          simp only [Function.update_of_ne hji, hwrote.wraps]
          exact hst.wraps j p hp
      · have hyes : (Enroll.trySet env (slotKey i) none st).setting totpKey = some yes := hyes
        rw [hwrote.setting totpKey totpKey_facts.1 totpKey_facts.2,
          if_neg (totpKey_facts.2 i)] at hyes
        have hseed := hst.seed hyes
        rw [← hwrote.seed] at hseed
        exact hseed

theorem shares_removeKeyfile (h : Succeeds contents env) (hst : Shares kdf hmac contents m st)
    (args : List Text) : Shares kdf hmac contents m (removeKeyfile env args st).1 := by
  cases args with
  | nil => exact hst
  | cons which rest =>
      rw [removeKeyfile]
      cases slotRange which with
      | none => exact hst
      | some range =>
          dsimp only
          split
          · exact hst
          · have hloop : ∀ (todo : List (Fin 8)) (st : Store), Shares kdf hmac contents m st →
                Shares kdf hmac contents m (todo.foldl (Enroll.removeSlot env) st) := by
              intro todo
              induction todo with
              | nil => exact fun st hst => hst
              | cons i todo ih => exact fun st hst => ih _ (hst.removeSlot h i)
            have hold : ∀ {key : Text} {st : Store}, key ∈ oldKeys → Shares kdf hmac contents m st →
                Shares kdf hmac contents m (Enroll.trySet env key none st) := by
              intro key st hkey hst
              obtain ⟨heq, hslot, -⟩ := oldKeys_facts key hkey
              exact hst.trySet (.drop heq) hslot fun _ => rfl
            apply hold (by decide)
            apply hold (by decide)
            exact hold (by decide) (hloop range st hst)

theorem shares_remove (h : Succeeds contents env) (hst : Shares kdf hmac contents m st)
    (args : List Text) : Shares kdf hmac contents m (remove env args st).1 := by
  cases args with
  | nil => exact hst
  | cons what rest =>
      rw [remove]
      split
      · exact shares_removeKeyfile h hst rest
      · split
        · exact hst.trySet (.drop (by decide)) (by decide) fun _ => rfl
        · split
          · exact hst.trySet (.drop (by decide)) (by decide) fun _ => rfl
          · exact hst

theorem shares_enroll (h : Succeeds contents env) (hst : Shares kdf hmac contents m st)
    {argv : List Text} (hsingle : Single env argv st) :
    ∃ m, Shares kdf hmac contents m (enroll kdf hmac env argv st).1 := by
  cases argv with
  | nil => exact ⟨m, hst⟩
  | cons cmd args =>
      rw [enroll]
      split
      · exact ⟨m, hst⟩
      split
      · exact ⟨m, hst⟩
      split
      · exact ⟨m, hst⟩
      split
      · rename_i hcmd
        apply shares_keyfile h hst
        intro path rest hargs
        exact hsingle path rest (by rw [hcmd, hargs])
      split
      · exact ⟨m, shares_totp h hst⟩
      split
      · exact ⟨m, hst.setting (by decide) (by decide)⟩
      split
      · exact ⟨m, shares_require hst args⟩
      split
      · exact ⟨m, shares_autologin hst args⟩
      split
      · exact ⟨m, shares_remove h hst args⟩
      split
      · exact ⟨m, hst⟩
      · exact ⟨m, hst⟩

theorem shares_runs (cmds : List (Env × List Text)) (hst : ∃ m, Shares kdf hmac contents m st)
    (hsucceeds : ∀ c ∈ cmds, Succeeds contents c.1) (h : AllSingle kdf hmac cmds st) :
    ∃ m, Shares kdf hmac contents m (runs kdf hmac cmds st) := by
  induction cmds generalizing st with
  | nil => exact hst
  | cons c cmds ih =>
      obtain ⟨m, hst⟩ := hst
      apply ih _ (fun c' hc' => hsucceeds c' (List.mem_cons_of_mem c hc')) h.2
      exact shares_enroll (hsucceeds c List.mem_cons_self) hst h.1

/-- Every wrap gives its key file one and the same secret, and the secret opens
the TOTP seed. -/
def OneMaster (kdf : Bytes → Bytes → Option Bytes) (hmac : Bytes → Bytes)
    (contents : Text → Option Bytes) (st : Store) : Prop :=
  ∃ m, (∀ i path, st.slotPath i = some path →
      ∃ w, st.wraps i = some w ∧ masterFromKeyfile kdf contents path (some w) = some m) ∧
    (st.setting totpKey = some yes → ∃ w s, st.seed = some w ∧ w.box.unseal (hmac m) = some s)

theorem one_master (cmds : List (Env × List Text))
    (hsucceeds : ∀ c ∈ cmds, Succeeds contents c.1)
    (h : AllSingle kdf hmac cmds Store.empty) :
    OneMaster kdf hmac contents (runs kdf hmac cmds Store.empty) := by
  obtain ⟨m, hst⟩ := shares_runs cmds ⟨[], shares_empty⟩ hsucceeds h
  refine ⟨m, fun i path hpath => ?_, hst.seed⟩
  have hm := hst.wraps i path hpath
  obtain ⟨w, hw, -⟩ := Option.bind_eq_some_iff.mp hm
  rw [hw] at hm
  exact ⟨w, hw, hm⟩

theorem succeeds_sample : Succeeds sampleEnv.media sampleEnv :=
  ⟨fun _ _ h => h, fun _ => rfl, rfl, rfl, fun _ => rfl⟩

theorem one_master_sample :
    OneMaster sampleKdf id sampleEnv.media
      (runs sampleKdf id [(sampleEnv, command ["keyfile", "/a"]),
        (sampleEnv, command ["keyfile", "/b"])] Store.empty) := by
  apply one_master
  · intro c hc
    simp only [List.mem_cons, List.not_mem_nil, or_false] at hc
    rcases hc with rfl | rfl
    · exact succeeds_sample
    · exact succeeds_sample
  · refine ⟨?_, ?_, trivial⟩
    · intro path rest h _
      obtain ⟨-, h⟩ := List.cons.inj h
      obtain ⟨rfl, -⟩ := List.cons.inj h
      exact ⟨⟨by decide, by decide, by decide, by decide⟩, .inr ⟨by decide, by decide⟩⟩
    · -- the first stick is still there
      intro path rest h _
      obtain ⟨-, h⟩ := List.cons.inj h
      obtain ⟨rfl, -⟩ := List.cons.inj h
      exact ⟨⟨by decide, by decide, by decide, by decide⟩,
        .inl ⟨0, ascii "/a", by decide, by decide⟩⟩

/-- The second stick alone: the first key file is not there to unwrap. -/
def otherStick : Env :=
  { sampleEnv with
    media := fun path => if path = ascii "/b" then some [2] else none
    fresh := List.replicate 64 8 }

/-- A key file enrolled while the other one is not plugged in gets a secret of
its own. -/
theorem two_masters :
    ¬ OneMaster sampleKdf id sampleEnv.media
      (runs sampleKdf id [(sampleEnv, command ["keyfile", "/a"]),
        (otherStick, command ["keyfile", "/b"])] Store.empty) := by
  rintro ⟨m, hwraps, -⟩
  obtain ⟨w, hw, hm⟩ := hwraps 0 (ascii "/a") (by decide)
  obtain ⟨w', hw', hm'⟩ := hwraps 1 (ascii "/b") (by decide)
  rw [← hw] at hm
  rw [← hw'] at hm'
  have hfirst : some m = some (List.replicate 64 9) := hm.symm.trans (by decide)
  have hsecond : some m = some (List.replicate 64 8) := hm'.symm.trans (by decide)
  rw [hfirst] at hsecond
  exact absurd hsecond (by decide)

end Veron.Enroll
