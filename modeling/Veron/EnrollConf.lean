/-
The configuration veron-enroll writes: which entries there are, and what one
write does to the slots and the settings.
-/
import Veron.Enroll

namespace Veron.Enroll

open AuthConf (Text Entry WellFormed IsLine equals newline)

/-- A path whose line is read back as it was written; as an argument of the program
it has no zero byte. -/
def CleanPath (path : Text) : Prop :=
  path ≠ [] ∧ path.length ≤ 1014 ∧ newline ∉ path ∧ 0x0d ∉ path ∧ 0 ∉ path

/-- The entries with fixed values. -/
def fixedEntries : List Entry :=
  [(autologin, ascii "on"), (autologin, ascii "off"), (totpKey, ascii "yes"),
    (ascii "card", ascii "yes"), (ascii "require", ascii "any"), (ascii "require", ascii "all")]

inductive Known : Entry → Prop where
  | slot (i : Fin 8) {path : Text} (h : CleanPath path) : Known (slotKey i, path)
  | fixed {e : Entry} (h : e ∈ fixedEntries) : Known e

def knownKeys : List Text := (List.finRange 8).map slotKey ++ fixedEntries.map Prod.fst

theorem slotKey_injective {i j : Fin 8} (h : slotKey i = slotKey j) : i = j := by
  revert i j
  decide

theorem slotKey_facts (i : Fin 8) :
    (slotKey i).length = 8 ∧ equals ∉ slotKey i ∧ newline ∉ slotKey i ∧ 0x0d ∉ slotKey i ∧
      0 ∉ slotKey i := by
  revert i
  decide

theorem fixedEntries_facts :
    ∀ e ∈ fixedEntries, equals ∉ e.1 ∧ e.2 ≠ [] ∧ IsLine e.line ∧ e.2.length ≤ 3 ∧
      ∀ i, e.1 ≠ slotKey i := by
  simp only [IsLine]
  decide

theorem Known.facts {e : Entry} (h : Known e) :
    e.1 ∈ knownKeys ∧ equals ∉ e.1 ∧ e.2 ≠ [] ∧ IsLine e.line := by
  cases h with
  | slot i hpath =>
      obtain ⟨hne, hlen, hnl, hcr, hz⟩ := hpath
      obtain ⟨hkey, heq, hknl, hkcr, hkz⟩ := slotKey_facts i
      refine ⟨?_, heq, hne, ?_, ?_, ?_, ?_, ?_⟩
      · exact List.mem_append_left _ (List.mem_map_of_mem (List.mem_finRange i))
      · simp [Entry.line]
      · simp [Entry.line, hkey]
        omega
      · simp only [Entry.line, List.mem_append, List.mem_cons, hknl, hnl]
        decide
      · simp only [Entry.line, List.mem_append, List.mem_cons, hkcr, hcr]
        decide
      · simp only [Entry.line, List.mem_append, List.mem_cons, hkz, hz]
        decide
  | fixed h =>
      obtain ⟨heq, hne, hline, -⟩ := fixedEntries_facts e h
      exact ⟨List.mem_append_right _ (List.mem_map_of_mem h), heq, hne, hline⟩

/-- What auth.conf holds: known entries, one a key. -/
def IsConf (t : Text) : Prop :=
  ∃ es, t = AuthConf.text es ∧ (es.map Prod.fst).Nodup ∧ ∀ e ∈ es, Known e

theorem length_lt_of_known {es : List Entry} (hnodup : (es.map Prod.fst).Nodup)
    (hes : ∀ e ∈ es, Known e) : es.length < 64 := by
  have hsub : es.map Prod.fst ⊆ knownKeys := by
    intro k hk
    obtain ⟨e, he, rfl⟩ := List.mem_map.mp hk
    exact (hes e he).facts.1
  have hle := List.Nodup.length_le_of_subset hnodup hsub
  rw [List.length_map] at hle
  have hkeys : knownKeys.length = 14 := rfl
  omega

theorem wellFormed_of_known {es : List Entry} (hnodup : (es.map Prod.fst).Nodup)
    (hes : ∀ e ∈ es, Known e) : WellFormed es where
  nodup := hnodup
  keys e he := (hes e he).facts.2.1
  values e he := (hes e he).facts.2.2.1
  lines e he := (hes e he).facts.2.2.2
  length := Nat.le_of_lt (length_lt_of_known hnodup hes)

theorem isConf_nil : IsConf [] := ⟨[], rfl, List.nodup_nil, by simp⟩

/-- A write keeps the file one of known entries. -/
theorem isConf_set {t key : Text} {val : Option Text} (ht : IsConf t) (hkey : equals ∉ key)
    (hval : ∀ v, val = some v → Known (key, v)) : IsConf (AuthConf.set key val t) := by
  obtain ⟨es, rfl, hnodup, hes⟩ := ht
  have hwf := wellFormed_of_known hnodup hes
  have hrest : ∀ e ∈ AuthConf.without key es, Known e := fun e he =>
    hes e (List.mem_filter.mp he).1
  refine ⟨_, AuthConf.set_text hwf hkey val, ?_, ?_⟩
  · cases val with
    | none =>
        rw [Option.map_none, Option.toList_none, List.append_nil]
        exact (hwf.without key).nodup
    | some v =>
        obtain ⟨-, -, hne, hline⟩ := (hval v rfl).facts
        exact (hwf.append hkey hne hline (length_lt_of_known hnodup hes)).nodup
  · cases val with
    | none => simpa using hrest
    | some v =>
        intro e he
        rcases List.mem_append.mp he with he | he
        · exact hrest e he
        · obtain rfl : e = (key, v) := by simpa using he
          exact hval v rfl

/-- Reading a key after a write. -/
theorem get_set {t key key' : Text} {val : Option Text} {n : ℕ} (ht : IsConf t)
    (hkey : equals ∉ key) (hval : ∀ v, val = some v → Known (key, v)) (hkey' : equals ∉ key')
    (hn : 2 ≤ n) :
    AuthConf.get n key' (AuthConf.set key val t) =
      if key' = key then val.map (List.take (n - 1)) else AuthConf.get n key' t := by
  obtain ⟨es, rfl, hnodup, hes⟩ := ht
  have hwf := wellFormed_of_known hnodup hes
  rw [AuthConf.set_text hwf hkey, AuthConf.get_text hwf hkey' hn]
  cases val with
  | none =>
      rw [Option.map_none, Option.toList_none, List.append_nil,
        AuthConf.get_text (hwf.without key) hkey' hn]
      by_cases hsame : key' = key
      · rw [if_pos hsame, hsame, AuthConf.lookup_without_self]
      · rw [if_neg hsame, AuthConf.lookup_without_ne hsame]
  | some v =>
      obtain ⟨-, -, hne, hline⟩ := (hval v rfl).facts
      have hnew := hwf.append hkey hne hline (length_lt_of_known hnodup hes)
      rw [Option.map_some, Option.toList_some, AuthConf.get_text hnew hkey' hn, List.lookup_append]
      by_cases hsame : key' = key
      · rw [if_pos hsame, hsame, AuthConf.lookup_without_self, List.lookup_cons_self]
        rfl
      · rw [if_neg hsame, AuthConf.lookup_without_ne hsame, lookup_cons_ne hsame, List.lookup_nil,
          Option.or_none]

theorem Known.cleanPath {i : Fin 8} {v : Text} (h : Known (slotKey i, v)) : CleanPath v := by
  generalize he : (slotKey i, v) = e at h
  cases h with
  | slot j hpath =>
      obtain ⟨-, rfl⟩ := Prod.mk.inj he
      exact hpath
  | fixed hfixed =>
      obtain ⟨-, -, -, -, hne⟩ := fixedEntries_facts e hfixed
      exact absurd (congrArg Prod.fst he).symm (hne i)

theorem Known.short {key v : Text} (h : Known (key, v)) (hkey : ∀ i, key ≠ slotKey i) :
    v.length ≤ 3 := by
  generalize he : (key, v) = e at h
  cases h with
  | slot j hpath => exact absurd (congrArg Prod.fst he) (hkey j)
  | fixed hfixed =>
      obtain ⟨-, -, -, hlen, -⟩ := fixedEntries_facts e hfixed
      rw [← he] at hlen
      exact hlen

theorem map_take_of_short {val : Option Text} {n : ℕ} (h : ∀ v, val = some v → v.length ≤ n) :
    val.map (List.take n) = val := by
  cases val with
  | none => rfl
  | some v => rw [Option.map_some, List.take_of_length_le (h v rfl)]

/-- The write is one of those the program makes. -/
structure Write (key : Text) (val : Option Text) : Prop where
  noEquals : equals ∉ key
  known : ∀ v, val = some v → Known (key, v)

theorem Write.drop {key : Text} (h : equals ∉ key) : Write key none :=
  ⟨h, fun v hv => by cases hv⟩

variable {env : Env} {st st' : Store} {key : Text} {val : Option Text}

/-- A write that succeeds changes one key, one that fails nothing. -/
structure Wrote (key : Text) (val : Option Text) (st st' : Store) : Prop where
  conf : IsConf st'.conf
  wraps : st'.wraps = st.wraps
  seed : st'.seed = st.seed
  slotPath : ∀ i, st'.slotPath i = if slotKey i = key then val else st.slotPath i
  setting : ∀ k, equals ∉ k → (∀ i, k ≠ slotKey i) →
    st'.setting k = if k = key then val else st.setting k

theorem wrote_of_confSet (ht : IsConf st.conf) (hw : Write key val)
    (h : confSet env key val st = some st') : Wrote key val st st' := by
  rw [confSet] at h
  split at h
  · obtain rfl := Option.some.inj h
    refine ⟨isConf_set ht hw.noEquals hw.known, rfl, rfl, ?_, ?_⟩
    · intro i
      rw [Store.slotPath, get_set ht hw.noEquals hw.known (slotKey_facts i).2.1 (by decide)]
      split
      · rename_i hsame
        apply map_take_of_short
        intro v hv
        have hclean := (hsame ▸ hw.known v hv).cleanPath
        exact Nat.le_trans hclean.2.1 (by decide)
      · rfl
    · intro k hk hslot
      rw [Store.setting, get_set ht hw.noEquals hw.known hk (by decide)]
      split
      · rename_i hsame
        apply map_take_of_short
        intro v hv
        exact Nat.le_trans ((hw.known v hv).short (hsame ▸ hslot)) (by decide)
      · rfl
  · cases h

theorem trySet_cases (env : Env) (ht : IsConf st.conf) (hw : Write key val) :
    (env.confSets key = false ∧ trySet env key val st = st) ∨
      (env.confSets key = true ∧ Wrote key val st (trySet env key val st)) := by
  cases hset : env.confSets key with
  | false => exact .inl ⟨rfl, by simp [trySet, confSet, hset]⟩
  | true =>
      have hwrites : confSet env key val st = some (trySet env key val st) := by
        simp [trySet, confSet, hset]
      exact .inr ⟨rfl, wrote_of_confSet ht hw hwrites⟩

variable (kdf : Bytes → Bytes → Option Bytes) (hmac : Bytes → Bytes)

/-- The store with one wrap written. -/
def Store.withWrap (st : Store) (i : Fin 8) (w : Option Wrap) : Store :=
  { st with wraps := Function.update st.wraps i w }

/-- Enrolment gets as far as wrapping the master secret for a slot. -/
structure Enrols (kdf : Bytes → Bytes → Option Bytes) (env : Env) (path : Text) (st : Store)
    (i : Fin 8) (w : Wrap) : Prop where
  readable : (readFile env.media path).isSome
  slot : freeSlot path st = some i
  wrap : wrapToKeyfile kdf env path ((findMaster kdf env.media st).getD env.fresh) = some w

theorem keyfile_cases (env : Env) (args : List Text) (st : Store) :
    (keyfile kdf env args st).1 = st ∨
      ∃ path rest i w, args = path :: rest ∧ Enrols kdf env path st i w ∧
        ((keyfile kdf env args st).1 = st.withWrap i (some w) ∨
          ∃ st₁, confSet env (slotKey i) (some path) (st.withWrap i (some w)) = some st₁ ∧
            (keyfile kdf env args st).1 = arm env st₁) := by
  cases args with
  | nil => exact .inl rfl
  | cons path rest =>
      by_cases hopen : (!env.accepted path || (readFile env.media path).isNone) = true
      · left
        simp only [keyfile, if_pos hopen]
      · have hread : (readFile env.media path).isSome := by
          simp only [Bool.or_eq_true, not_or, Option.isNone_iff_eq_none] at hopen
          exact Option.isSome_iff_ne_none.mpr hopen.2
        cases hslot : freeSlot path st with
        | none =>
            left
            simp only [keyfile, if_neg hopen, hslot]
        | some i =>
            cases hwrap : wrapToKeyfile kdf env path
                ((findMaster kdf env.media st).getD env.fresh) with
            | none =>
                left
                simp only [keyfile, if_neg hopen, hslot, hwrap]
            | some w =>
                refine .inr ⟨path, rest, i, w, rfl, ⟨hread, hslot, hwrap⟩, ?_⟩
                cases hset : confSet env (slotKey i) (some path) (st.withWrap i (some w)) with
                | none =>
                    left
                    simp only [Store.withWrap] at hset ⊢
                    simp only [keyfile, if_neg hopen, hslot, hwrap, hset]
                | some st₁ =>
                    refine .inr ⟨st₁, rfl, ?_⟩
                    simp only [Store.withWrap] at hset
                    simp only [keyfile, if_neg hopen, hslot, hwrap, hset]

theorem totp_cases (env : Env) (st : Store) :
    (totp kdf hmac env st).1 = st ∨
      ∃ master seed, findMaster kdf env.media st = some master ∧
        let sealed : Store := { st with seed := some ⟨env.salt, hmac master, padSeed seed⟩ }
        (totp kdf hmac env st).1 = sealed ∨
          confSet env totpKey (some (ascii "yes")) sealed = some (totp kdf hmac env st).1 := by
  cases hmaster : findMaster kdf env.media st with
  | none =>
      left
      simp only [totp, hmaster]
  | some master =>
      cases hseed : env.totpSeed with
      | none =>
          left
          simp only [totp, hmaster, hseed]
      | some seed =>
          by_cases hwrites : (!env.seedWrites) = true
          · left
            simp only [totp, hmaster, hseed, if_pos hwrites]
          · refine .inr ⟨master, seed, rfl, ?_⟩
            simp only [totp, hmaster, hseed, if_neg hwrites]
            cases hset : confSet env totpKey (some (ascii "yes"))
                { st with seed := some ⟨env.salt, hmac master, padSeed seed⟩ } with
            | none => exact .inl rfl
            | some st' => exact .inr rfl

theorem freeSlot_spec {path : Text} {i : Fin 8} (h : freeSlot path st = some i) :
    st.slotPath i = none ∨ st.slotPath i = some path := by
  have hfound := List.find?_some h
  cases hpath : st.slotPath i with
  | none => exact .inl rfl
  | some v =>
      rw [hpath] at hfound
      exact .inr (congrArg some (of_decide_eq_true hfound))

variable {kdf} in
theorem findMaster_spec {media : Text → Option Bytes} {m : Bytes}
    (h : findMaster kdf media st = some m) :
    ∃ i path, st.slotPath i = some path ∧
      masterFromKeyfile kdf media path (st.wraps i) = some m := by
  obtain ⟨i, -, hi⟩ := List.exists_of_findSome?_eq_some h
  obtain ⟨path, hpath, hm⟩ := Option.bind_eq_some_iff.mp hi
  exact ⟨i, path, hpath, hm⟩

end Veron.Enroll
