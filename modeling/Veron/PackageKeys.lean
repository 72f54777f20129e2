/-
Two packages have one key exactly when they, and all they are built from, are
the same, as long as no two of the texts hashed collide.
-/
import Mathlib.Data.Set.Function
import Veron.CutText
import Veron.DependencyOrder
import Veron.Utf8

namespace Veron.Driver

/-- What the key of a package hashes, given the keys of its dependencies. -/
def body (sha : List UInt8 → Digest) (root : Digest) (r : Recipe) (order : List Name)
    (keys : Name → Digest) : List Char :=
  root.text ++ (r.sha256 sha).text ++ order.flatMap fun x => x.toList ++ '=' :: (keys x).text

/-- `k` is the key of `n`, by the recursion alone. -/
inductive HasKey (sha : List UInt8 → Digest) (R : Recipes) (root : Digest) : Name → Digest → Prop
  | intro {n : Name} {r : Recipe} {order : List Name} (keys : Name → Digest) :
      R.get n = some r → r.order = .ok order → (∀ x ∈ order, HasKey sha R root x (keys x)) →
      HasKey sha R root n (sha (encode (body sha root r order keys)))

/-- The texts that loading the recipes and `package_keys` hash. -/
inductive Hashed (sha : List UInt8 → Digest) (R : Recipes) (policy : Policy) (base : String) :
    List UInt8 → Prop
  | recipe {n : Name} {r : Recipe} : R.get n = some r → Hashed sha R policy base r.message
  | root : Hashed sha R policy base (rootMessage policy base)
  | body {n : Name} {r : Recipe} {order : List Name} (keys : Name → Digest) :
      R.get n = some r → r.order = .ok order →
      (∀ x ∈ order, HasKey sha R (sha (rootMessage policy base)) x (keys x)) →
      Hashed sha R policy base
        (encode (Driver.body sha (sha (rootMessage policy base)) r order keys))

theorem Digest.ext {a b : Digest} (h : a.text = b.text) : a = b := by
  cases a
  cases b
  simpa using h

theorem encode_inj {s t : List Char} (h : encode s = encode t) : s = t := by
  have hs := List.utf8Decode?_utf8Encode (l := s)
  have ht := List.utf8Decode?_utf8Encode (l := t)
  have hbytes : s.utf8Encode = t.utf8Encode := by
    rw [List.utf8Encode, List.utf8Encode]
    exact congrArg List.toByteArray h
  rw [hbytes, ht] at hs
  simpa using (Option.some.inj hs).symm

/-- Only the zero character is encoded with a zero byte. -/
theorem zero_not_mem_encode {t : List Char} (h : '\x00' ∉ t) : 0 ∉ encode t := by
  intro hmem
  obtain ⟨c, hc, hzero⟩ := List.mem_flatMap.mp hmem
  by_cases hlt : c.toNat < 0x80
  · rw [Utf8.utf8EncodeChar_of_lt hlt, List.mem_singleton] at hzero
    have hval := congrArg UInt8.toNat hzero
    rw [Nat.toUInt8, UInt8.toNat_ofNat_of_lt' (by rw [UInt8.size]; omega)] at hval
    have heq : c = '\x00' := Char.toNat_inj.mp hval.symm
    exact h (heq ▸ hc)
  · exact absurd (Utf8.high_of_mem_utf8EncodeChar (Nat.le_of_not_lt hlt) hzero) (by decide)

theorem encode_ne_zero {t : List Char} (ht : ∀ c ∈ t, Json.Printable c) : 0 ∉ encode t :=
  zero_not_mem_encode fun hmem => absurd (ht _ hmem).1 (by decide)

theorem Recipe.inputs_eq {r q : Recipe} (h : r.message = q.message) : r.inputs = q.inputs := by
  have htail : ∀ p : Recipe, ∀ c w,
      ((p.files.flatMap fun e => 0 :: (e.1 ++ 0 :: e.2.bytes)) ++
        p.patches.flatMap fun e => 0 :: 0x50 :: (e.1 ++ 0 :: e.2)) = c :: w → c = 0 := by
    intro p c w hw
    cases hfiles : p.files with
    | cons e es => simp [hfiles] at hw; exact hw.1.symm
    | nil => cases hpatches : p.patches with
      | cons e es => simp [hfiles, hpatches] at hw; exact hw.1.symm
      | nil => simp [hfiles, hpatches] at hw
  rw [Recipe.message, Recipe.message, List.append_assoc, List.append_assoc] at h
  have hbytes := CutText.append_inj_of_notMem
    (encode_ne_zero (Json.Value.table r.inputs).printable)
    (encode_ne_zero (Json.Value.table q.inputs).printable) (htail r) (htail q) h
  simpa using Json.Value.dumps_inj (encode_inj hbytes)

theorem Recipe.deps_eq {r q : Recipe} (h : r.inputs = q.inputs) (kind : String) :
    r.deps kind = q.deps kind := by
  have hfilter : ∀ p : Recipe, p.inputs.lookup "deps" = p.document.lookup "deps" := by
    intro p
    exact lookup_filter fun _ => by simp [notInputs]
  rw [Recipe.deps, Recipe.deps, ← hfilter, ← hfilter, h]

theorem Recipe.order_eq {r q : Recipe} (h : r.message = q.message) : r.order = q.order := by
  rw [Recipe.order, Recipe.order, Recipe.deps_eq (Recipe.inputs_eq h),
    Recipe.deps_eq (Recipe.inputs_eq h)]

/-- The three tables of the policy that the root key covers. -/
def Policy.Agree (P Q : Policy) : Prop :=
  P.get "build" = Q.get "build" ∧ P.get "env" = Q.get "env" ∧ P.get "tool_env" = Q.get "tool_env"

theorem Policy.agree_iff {P Q : Policy} : P.Agree Q ↔ P.text = Q.text := by
  constructor
  · rintro ⟨hbuild, henv, htool⟩
    rw [Policy.text, Policy.text, hbuild, henv, htool]
  · intro h
    have htable := Json.Value.dumps_inj h
    simpa [Policy.Agree] using htable

theorem rootMessage_inj {P Q : Policy} {b c : String} (h : rootMessage P b = rootMessage Q c) :
    b = c ∧ P.Agree Q := by
  have hnewline : ∀ p : Policy, '\n' ∉ p.text := by
    intro p hmem
    exact absurd ((Json.Value.printable _) _ hmem) (by decide)
  obtain ⟨hbase, htext⟩ :=
    CutText.append_cons_inj_of_notMem_right (hnewline P) (hnewline Q) (encode_inj h)
  exact ⟨String.toList_inj.mp hbase, Policy.agree_iff.mpr htext⟩

theorem body_inj {sha : List UInt8 → Digest} {root root' : Digest} {r r' : Recipe}
    {order order' : List Name} {keys keys' : Name → Digest}
    (h : body sha root r order keys = body sha root' r' order' keys') :
    root = root' ∧ r.sha256 sha = r'.sha256 sha ∧
      (order.flatMap fun x => x.toList ++ '=' :: (keys x).text) =
        order'.flatMap fun x => x.toList ++ '=' :: (keys' x).text := by
  rw [body, body, List.append_assoc, List.append_assoc] at h
  obtain ⟨hroot, h⟩ := List.append_inj h (by rw [root.length, root'.length])
  obtain ⟨hr, h⟩ := List.append_inj h (by rw [(r.sha256 sha).length, (r'.sha256 sha).length])
  exact ⟨Digest.ext hroot, Digest.ext hr, h⟩

theorem keys_eq_of_flatMap {order : List Name} {keys keys' : Name → Digest}
    (h : (order.flatMap fun x => x.toList ++ '=' :: (keys x).text) =
      order.flatMap fun x => x.toList ++ '=' :: (keys' x).text) :
    ∀ x ∈ order, keys x = keys' x := by
  induction order with
  | nil => simp
  | cons n order ih =>
      simp only [List.flatMap_cons, List.append_assoc, List.cons_append] at h
      have hrest := List.append_cancel_left h
      simp only [List.cons.injEq, true_and] at hrest
      obtain ⟨hn, hrest⟩ := List.append_inj hrest (by rw [(keys n).length, (keys' n).length])
      intro x hx
      rcases List.mem_cons.mp hx with rfl | hx
      · exact Digest.ext hn
      · exact ih hrest x hx

theorem HasKey.unique {sha : List UInt8 → Digest} {R : Recipes} {root : Digest} {n : Name}
    {k k' : Digest} (h : HasKey sha R root n k) (h' : HasKey sha R root n k') : k = k' := by
  induction h generalizing k' with
  | @intro n r order keys hr horder _ ih =>
      cases h' with
      | @intro _ r' order' keys' hr' horder' hkeys' =>
          obtain rfl : r = r' := Option.some.inj (hr.symm.trans hr')
          obtain rfl : order = order' := Except.ok.inj (horder.symm.trans horder')
          have hflat : (order.flatMap fun x => x.toList ++ '=' :: (keys x).text) =
              order.flatMap fun x => x.toList ++ '=' :: (keys' x).text :=
            List.flatMap_congr fun x hx => by rw [ih x hx (hkeys' x hx)]
          rw [body, body, hflat]

/-- `package_keys` has memoised only keys of the recursion. -/
def MemoOk (sha : List UInt8 → Digest) (R : Recipes) (root : Digest) (memo : Memo) : Prop :=
  ∀ n k, memo.lookup n = some k → HasKey sha R root n k

section

variable {sha : List UInt8 → Digest} {R : Recipes} {root : Digest}

theorem Recipes.key_hit {fuel : ℕ} {n : Name} {k : Digest} {memo : Memo}
    (h : memo.lookup n = some k) : R.key sha root (fuel + 1) n memo = .ok (k, memo) := by
  rw [Recipes.key, h]

/-- Where every dependency is memoised, the loop over them only reads. -/
theorem Recipes.key_foldlM (sha : List UInt8 → Digest) (R : Recipes) (root : Digest) (fuel : ℕ)
    {memo : Memo} {keys : Name → Digest} {order : List Name}
    (hkeys : ∀ x ∈ order, memo.lookup x = some (keys x)) (start : List Char) :
    order.foldlM (fun (p : List Char × Memo) x => (do
        let (k, memo) ← R.key sha root (fuel + 1) x p.2
        pure (p.1 ++ x.toList ++ '=' :: k.text, memo) : Except Stop (List Char × Memo)))
      (start, memo) =
      .ok (start ++ order.flatMap fun x => x.toList ++ '=' :: (keys x).text, memo) := by
  induction order generalizing start with
  | nil => simp [pure, Except.pure]
  | cons x order ih =>
      rw [List.foldlM_cons]
      simp only [Recipes.key_hit (hkeys x List.mem_cons_self), bind, Except.bind, pure,
        Except.pure]
      refine (ih (fun y hy => hkeys y (List.mem_cons_of_mem _ hy)) _).trans ?_
      simp [List.append_assoc]

/-- A new package whose dependencies are memoised gets its key, and the memo
one more entry. -/
theorem Recipes.key_new (fuel : ℕ) {n : Name} {r : Recipe} {order : List Name} {memo : Memo}
    (hmemo : MemoOk sha R root memo) (hnew : memo.lookup n = none) (hr : R.get n = some r)
    (horder : r.order = .ok order) (hhas : ∀ x ∈ order, R.has x)
    (hdeps : ∀ x ∈ order, ∃ k, memo.lookup x = some k) :
    ∃ k, R.key sha root (fuel + 2) n memo = .ok (k, (n, k) :: memo) ∧
      HasKey sha R root n k := by
  have hdigest : Nonempty Digest := ⟨sha []⟩
  choose! keys hkeys using hdeps
  refine ⟨sha (encode (body sha root r order keys)), ?_,
    .intro keys hr horder fun x hx => hmemo x _ (hkeys x hx)⟩
  rw [Recipes.key, hnew, hr]
  simp only [horder, bind, Except.bind]
  rw [List.filter_eq_self.mpr hhas]
  have hfold := Recipes.key_foldlM sha R root fuel hkeys (root.text ++ (r.sha256 sha).text)
  simp only [bind, Except.bind] at hfold
  rw [hfold]
  rfl

theorem MemoOk.cons {memo : Memo} {n : Name} {k : Digest} (hmemo : MemoOk sha R root memo)
    (hk : HasKey sha R root n k) : MemoOk sha R root ((n, k) :: memo) := by
  intro m d hm
  by_cases hmn : m = n
  · subst hmn
    rw [List.lookup_cons_self] at hm
    exact Option.some.inj hm ▸ hk
  · rw [lookup_cons_ne hmn] at hm
    exact hmemo m d hm

/-- Going through names in dependency order, `package_keys` lists the key of
every one. -/
theorem Recipes.keys_foldlM (sha : List UInt8 → Digest) (root : Digest) (hnamed : R.Named)
    {l : List Name} (hl : Topological R l) (fuel : ℕ) :
    ∃ keys memo, l.foldlM (fun (p : List (Name × Digest) × Memo) n => (do
        let (k, memo) ← R.key sha root (fuel + 2) n p.2
        pure (p.1 ++ [(n, k)], memo) : Except Stop (List (Name × Digest) × Memo))) ([], []) =
        .ok (keys, memo) ∧
      MemoOk sha R root memo ∧ (∀ n, (∃ k, memo.lookup n = some k) ↔ n ∈ l) ∧
      keys.map Prod.fst = l ∧ ∀ e ∈ keys, HasKey sha R root e.1 e.2 := by
  induction hl with
  | nil => exact ⟨[], [], rfl, by simp [MemoOk], by simp, rfl, by simp⟩
  | @snoc l n _ hn hname hdeps ih =>
      obtain ⟨keys, memo, hfold, hmemo, hdom, hnames, hkeys⟩ := ih
      obtain ⟨r, hr⟩ := Option.isSome_iff_exists.mp (Dict.has_iff.mpr hname)
      obtain ⟨order, runtime, horder, -, hall⟩ := hnamed n r hr
      rw [Recipes.depsOf_eq hr horder] at hdeps
      have hnew : memo.lookup n = none := by
        rw [Option.eq_none_iff_forall_ne_some]
        exact fun k hk => hn ((hdom n).mp ⟨k, hk⟩)
      obtain ⟨k, hkey, hk⟩ := Recipes.key_new fuel hmemo hnew hr horder
        (fun x hx => hall x (List.mem_append_left _ hx)) fun x hx => (hdom x).mpr (hdeps x hx)
      refine ⟨keys ++ [(n, k)], (n, k) :: memo, ?_, hmemo.cons hk, ?_, by simp [hnames], ?_⟩
      · rw [List.foldlM_append, hfold]
        simp [bind, Except.bind, hkey, pure, Except.pure]
      · intro m
        by_cases hmn : m = n
        · subst hmn
          simp [List.lookup_cons_self]
        · rw [lookup_cons_ne hmn, hdom m]
          simp [hmn]
      · intro e he
        rcases List.mem_append.mp he with he | he
        · exact hkeys e he
        · rw [List.mem_singleton.mp he]
          exact hk

theorem Recipes.packageKeys_ok (sha : List UInt8 → Digest) (hnamed : R.Named)
    (hacyclic : R.Acyclic) (policy : Policy) (base : String) :
    ∃ keys, R.packageKeys sha policy base = .ok keys ∧
      ∀ n ∈ R.keys, ∃ k, keys.lookup n = some k ∧
        HasKey sha R (sha (rootMessage policy base)) n k := by
  obtain ⟨ordered, horder, htop, hall⟩ := Recipes.topoOrder_topological hnamed hacyclic
  by_cases hempty : R.items = []
  · refine ⟨[], ?_, by simp [Dict.keys, hempty]⟩
    have hnil : ordered = [] := by
      rw [List.eq_nil_iff_forall_not_mem]
      intro n hn
      simpa [Dict.keys, hempty] using (hall n).mp hn
    simp [Recipes.packageKeys, horder, hnil, bind, Except.bind, pure, Except.pure]
  · obtain ⟨fuel, hfuel⟩ : ∃ fuel, R.items.length = fuel + 1 :=
      Nat.exists_eq_succ_of_ne_zero (by simpa using hempty)
    obtain ⟨keys, memo, hfold, -, -, hnames, hkeys⟩ :=
      Recipes.keys_foldlM sha (sha (rootMessage policy base)) hnamed htop fuel
    refine ⟨keys, ?_, ?_⟩
    · simp only [bind, Except.bind] at hfold
      simp only [Recipes.packageKeys, horder, bind, Except.bind, hfuel, hfold]
      rfl
    · intro n hn
      have hmem : n ∈ keys.map Prod.fst := hnames ▸ (hall n).mpr hn
      obtain ⟨e, he, rfl⟩ := List.mem_map.mp hmem
      exact ⟨e.2, lookup_of_mem (hnames ▸ htop.nodup) he, hkeys e he⟩

end

/-- The two sets agree on `q`: its hash and its dependencies. -/
def AgreeAt (sha : List UInt8 → Digest) (R S : Recipes) (q : Name) : Prop :=
  (R.get q).map (Recipe.sha256 sha) = (S.get q).map (Recipe.sha256 sha) ∧
    ∀ x, R.Edge q x ↔ S.Edge q x

section

variable {sha : List UInt8 → Digest} {R S : Recipes} {P Q : Policy} {b c : String}

/-- One step down from equal keys: the roots, the hashes and the edges are equal,
and so are the keys of the dependencies. -/
theorem HasKey.inv_eq
    (hinj : Set.InjOn sha {m | Hashed sha R P b m ∨ Hashed sha S Q c m}) {n : Name} {k : Digest}
    (hR : HasKey sha R (sha (rootMessage P b)) n k)
    (hS : HasKey sha S (sha (rootMessage Q c)) n k) :
    rootMessage P b = rootMessage Q c ∧ AgreeAt sha R S n ∧
      ∀ x, R.Edge n x → ∃ d, HasKey sha R (sha (rootMessage P b)) x d ∧
        HasKey sha S (sha (rootMessage Q c)) x d := by
  generalize hk : k = k' at hS
  cases hR with
  | @intro _ r order keys hr horder hkeys =>
      cases hS with
      | @intro _ q order' keys' hq horder' hkeys' =>
          have hbody := encode_inj (hinj (Or.inl (Hashed.body keys hr horder hkeys))
            (Or.inr (Hashed.body keys' hq horder' hkeys')) hk)
          obtain ⟨hroot, hsha, hflat⟩ := body_inj hbody
          have hmessage : r.message = q.message :=
            hinj (Or.inl (Hashed.recipe hr)) (Or.inr (Hashed.recipe hq)) hsha
          have hsame : order = order' := by
            rw [Recipe.order_eq hmessage, horder'] at horder
            exact (Except.ok.inj horder).symm
          subst hsame
          have heq := keys_eq_of_flatMap hflat
          have hdeps : R.depsOf n = order := Recipes.depsOf_eq hr horder
          have hdeps' : S.depsOf n = order := Recipes.depsOf_eq hq horder'
          refine ⟨hinj (Or.inl Hashed.root) (Or.inr Hashed.root) hroot, ⟨?_, ?_⟩, ?_⟩
          · rw [hr, hq, Option.map_some, Option.map_some, hsha]
          · intro x
            rw [Recipes.Edge, Recipes.Edge, hdeps, hdeps']
          · intro x hx
            rw [Recipes.Edge, hdeps] at hx
            exact ⟨keys x, hkeys x hx, heq x hx ▸ hkeys' x hx⟩

theorem HasKey.agree_of_eq
    (hinj : Set.InjOn sha {m | Hashed sha R P b m ∨ Hashed sha S Q c m}) {n q : Name}
    (hreach : R.Reach n q) {k : Digest} (hR : HasKey sha R (sha (rootMessage P b)) n k)
    (hS : HasKey sha S (sha (rootMessage Q c)) n k) : AgreeAt sha R S q ∧ S.Reach n q := by
  induction hreach using Relation.ReflTransGen.head_induction_on generalizing k with
  | refl => exact ⟨(hR.inv_eq hinj hS).2.1, .refl⟩
  | @head a x hax _ ih =>
      obtain ⟨-, hagree, hnext⟩ := hR.inv_eq hinj hS
      obtain ⟨d, hRx, hSx⟩ := hnext x hax
      obtain ⟨hq, hreach⟩ := ih hRx hSx
      exact ⟨hq, hreach.head ((hagree.2 x).mp hax)⟩

theorem HasKey.eq_of_agree (hroot : rootMessage P b = rootMessage Q c)
    (hmessage : ∀ n r q, R.get n = some r → S.get n = some q → r.sha256 sha = q.sha256 sha →
      r.message = q.message)
    {n : Name} {k k' : Digest} (hR : HasKey sha R (sha (rootMessage P b)) n k)
    (hS : HasKey sha S (sha (rootMessage Q c)) n k')
    (hagree : ∀ q, R.Reach n q →
      (R.get q).map (Recipe.sha256 sha) = (S.get q).map (Recipe.sha256 sha)) : k = k' := by
  induction hR generalizing k' with
  | @intro n r order keys hr horder _ ih =>
      cases hS with
      | @intro _ q order' keys' hq horder' hkeys' =>
          have hsha : r.sha256 sha = q.sha256 sha := by
            simpa [hr, hq] using hagree n .refl
          have hsame : order = order' := by
            rw [Recipe.order_eq (hmessage n r q hr hq hsha), horder'] at horder
            exact (Except.ok.inj horder).symm
          subst hsame
          have hedge : ∀ x ∈ order, R.Edge n x := by
            intro x hx
            rw [Recipes.Edge, Recipes.depsOf_eq hr horder]
            exact hx
          have hflat : (order.flatMap fun x => x.toList ++ '=' :: (keys x).text) =
              order.flatMap fun x => x.toList ++ '=' :: (keys' x).text :=
            List.flatMap_congr fun x hx => by
              rw [ih x hx (hkeys' x hx) fun q hq => hagree q (hq.head (hedge x hx))]
          rw [body, body, hroot, hsha, hflat]

end

/-- Two runs of `package_keys` give a package one key exactly when the base, the
policy's tables and the package's closure are the same; what they do not reach
from it does not matter. -/
theorem packageKeys_eq_iff {sha : List UInt8 → Digest} {R S : Recipes} {P Q : Policy}
    {b c : String} (hR : R.Named) (hRacyclic : R.Acyclic) (hS : S.Named) (hSacyclic : S.Acyclic)
    (hinj : Set.InjOn sha {m | Hashed sha R P b m ∨ Hashed sha S Q c m})
    {p : Name} (hpR : p ∈ R.keys) (hpS : p ∈ S.keys) :
    ∃ keysR keysS k d, R.packageKeys sha P b = .ok keysR ∧ S.packageKeys sha Q c = .ok keysS ∧
      keysR.lookup p = some k ∧ keysS.lookup p = some d ∧
      (k = d ↔ b = c ∧ P.Agree Q ∧ (∀ q, R.Reach p q ↔ S.Reach p q) ∧
        (∀ q, R.Reach p q → ∀ x, R.Edge q x ↔ S.Edge q x) ∧
        ∀ q, R.Reach p q →
          (R.get q).map (Recipe.sha256 sha) = (S.get q).map (Recipe.sha256 sha)) ∧
      (b = c → P.Agree Q → (∀ q, R.Reach p q → R.get q = S.get q) → k = d) := by
  obtain ⟨keysR, hrunR, hallR⟩ := Recipes.packageKeys_ok sha hR hRacyclic P b
  obtain ⟨keysS, hrunS, hallS⟩ := Recipes.packageKeys_ok sha hS hSacyclic Q c
  obtain ⟨k, hlookR, hkeyR⟩ := hallR p hpR
  obtain ⟨d, hlookS, hkeyS⟩ := hallS p hpS
  have hmessage : ∀ n r q, R.get n = some r → S.get n = some q →
      r.sha256 sha = q.sha256 sha → r.message = q.message := by
    intro n r q hr hq hsha
    exact hinj (Or.inl (Hashed.recipe hr)) (Or.inr (Hashed.recipe hq)) hsha
  have hroot : b = c → P.Agree Q → rootMessage P b = rootMessage Q c := by
    rintro rfl hagree
    rw [rootMessage, rootMessage, Policy.agree_iff.mp hagree]
  refine ⟨keysR, keysS, k, d, hrunR, hrunS, hlookR, hlookS, ⟨?_, ?_⟩, ?_⟩
  · rintro rfl
    obtain ⟨hbase, hpolicy⟩ := rootMessage_inj (hkeyR.inv_eq hinj hkeyS).1
    have hagree := fun q hq => HasKey.agree_of_eq (q := q) hinj hq hkeyR hkeyS
    refine ⟨hbase, hpolicy, fun q => ⟨fun hq => (hagree q hq).2, ?_⟩,
      fun q hq => (hagree q hq).1.2, fun q hq => (hagree q hq).1.1⟩
    have hback : Set.InjOn sha {m | Hashed sha S Q c m ∨ Hashed sha R P b m} :=
      hinj.mono fun m hm => Or.symm hm
    exact fun hq => (HasKey.agree_of_eq hback hq hkeyS hkeyR).2
  · rintro ⟨hbase, hpolicy, -, -, hsha⟩
    exact HasKey.eq_of_agree (hroot hbase hpolicy) hmessage hkeyR hkeyS hsha
  · intro hbase hpolicy hsame
    refine HasKey.eq_of_agree (hroot hbase hpolicy) hmessage hkeyR hkeyS fun q hq => ?_
    rw [hsame q hq]

section Sample

def sampleRecipe (name : Name) (build : List Name) : Recipe where
  document := [("deps", .table [("build", .arr (build.map .str))]), ("name", .str name)]
  files := []
  patches := []

/-- `b` is built from `a`. -/
def sampleBefore : Recipes where
  items := [("a", sampleRecipe "a" []), ("b", sampleRecipe "b" ["a"])]
  nodup := by decide

/-- The same in another order, with a recipe more. -/
def sampleAfter : Recipes where
  items := [("c", sampleRecipe "c" []), ("b", sampleRecipe "b" ["a"]), ("a", sampleRecipe "a" [])]
  nodup := by decide

/-- The digest of a number of 256 bits. -/
def hexdigest (n : ℕ) : Digest where
  text := (List.range 64).map fun i => Json.hexDigit (n / 16 ^ (63 - i) % 16)
  length := by simp

def sampleRoot : ℕ :=
  0x2b3be9f14201e3f8c078fc931b7e007305267cbf89d1e146cc3119bd2d9702fa

def sampleA : ℕ :=
  0x598f7cee9d9d5aca68e8574bfcc4d0e4afa105d46af36b218279e49169f7fe45

def sampleB : ℕ :=
  0x003786b1dc3bb662cdc51ac95acce22954ecfeeea2ff192d98a805c73141c238

def sampleC : ℕ :=
  0x0bf4b29e102f26b09590dd527a223c3b02ddd1e61fd6ff11f8c997ae48c41538

def sampleKeyA : ℕ :=
  0xd241f8b58da4ab81c72c583d5b3d6d163c3486ec721b31b73a9d184772c6fd2f

def sampleKeyB : ℕ :=
  0x3a19b8b6495a0e551a0432153eee9c17a57a0c7fed253848effa4c1ffd0c1f6e

def sampleKeyC : ℕ :=
  0xbb3552706058572dac3234f566641caee4a92cd5a48cbe88e6abb7a1b88ff7f9

/-- What is hashed for the two, with its SHA-256. -/
def sampleTable : List (List UInt8 × ℕ) :=
  [((sampleRecipe "a" []).message, sampleA), ((sampleRecipe "b" ["a"]).message, sampleB),
    ((sampleRecipe "c" []).message, sampleC), (rootMessage [] "base", sampleRoot),
    (encode ((hexdigest sampleRoot).text ++ (hexdigest sampleA).text), sampleKeyA),
    (encode ((hexdigest sampleRoot).text ++ ((hexdigest sampleB).text ++
      "a".toList ++ '=' :: (hexdigest sampleKeyA).text)), sampleKeyB),
    (encode ((hexdigest sampleRoot).text ++ (hexdigest sampleC).text), sampleKeyC)]

def sampleSha (m : List UInt8) : Digest := hexdigest ((sampleTable.lookup m).getD 0)

theorem sampleTable_keys_nodup : (sampleTable.map Prod.fst).Nodup := by
  decide

theorem sampleTable_digests_nodup : (sampleTable.map fun e => hexdigest e.2).Nodup := by
  decide

theorem sampleSha_of_mem {m : List UInt8} {k : ℕ} (h : (m, k) ∈ sampleTable) :
    sampleSha m = hexdigest k := by
  have hlookup : sampleTable.lookup m = some k := lookup_of_mem sampleTable_keys_nodup h
  rw [sampleSha, hlookup]
  rfl

theorem sampleSha_inj : Set.InjOn sampleSha {m | m ∈ sampleTable.map Prod.fst} := by
  intro m hm m' hm' h
  obtain ⟨e, he, rfl⟩ := List.mem_map.mp hm
  obtain ⟨f, hf, rfl⟩ := List.mem_map.mp hm'
  have hdigest : hexdigest e.2 = hexdigest f.2 := by
    rw [← sampleSha_of_mem he, ← sampleSha_of_mem hf, h]
  rw [List.inj_on_of_nodup_map sampleTable_digests_nodup he hf hdigest]

/-- All recipes of `R` are the sample's. -/
def Sampled (R : Recipes) : Prop :=
  ∀ n r, R.get n = some r → (n = "a" ∧ r = sampleRecipe "a" []) ∨
    (n = "b" ∧ r = sampleRecipe "b" ["a"]) ∨ (n = "c" ∧ r = sampleRecipe "c" [])

theorem sampleBefore_sampled : Sampled sampleBefore := by
  intro n r h
  have hmem := mem_of_lookup h
  simp only [sampleBefore, List.mem_cons, Prod.mk.injEq, List.not_mem_nil, or_false] at hmem
  tauto

theorem sampleAfter_sampled : Sampled sampleAfter := by
  intro n r h
  have hmem := mem_of_lookup h
  simp only [sampleAfter, List.mem_cons, Prod.mk.injEq, List.not_mem_nil, or_false] at hmem
  tauto

theorem sample_order_nil (n : Name) : (sampleRecipe n []).order = .ok [] := rfl

theorem sample_order_b : (sampleRecipe "b" ["a"]).order = .ok ["a"] := rfl

theorem Sampled.named {R : Recipes} (h : Sampled R) (ha : R.has "a") : R.Named := by
  intro n r hr
  rcases h n r hr with ⟨-, rfl⟩ | ⟨-, rfl⟩ | ⟨-, rfl⟩
  · exact ⟨[], [], rfl, rfl, by simp⟩
  · exact ⟨["a"], [], rfl, rfl, by simpa using ha⟩
  · exact ⟨[], [], rfl, rfl, by simp⟩

theorem Sampled.edge {R : Recipes} (h : Sampled R) {n m : Name} (he : R.Edge n m) :
    n = "b" ∧ m = "a" := by
  unfold Recipes.Edge at he
  cases hr : R.get n with
  | none => simp [Recipes.depsOf, hr] at he
  | some r =>
      rcases h n r hr with ⟨rfl, rfl⟩ | ⟨rfl, rfl⟩ | ⟨rfl, rfl⟩
      · simp [Recipes.depsOf_eq hr (sample_order_nil _)] at he
      · simpa [Recipes.depsOf_eq hr sample_order_b] using he
      · simp [Recipes.depsOf_eq hr (sample_order_nil _)] at he

theorem Sampled.acyclic {R : Recipes} (h : Sampled R) : R.Acyclic := by
  intro n hn
  obtain ⟨m, hnm, -⟩ := Relation.TransGen.head'_iff.mp hn
  obtain ⟨k, -, hkn⟩ := Relation.TransGen.tail'_iff.mp hn
  rw [(h.edge hnm).1] at hkn
  exact absurd (h.edge hkn).2 (by decide)

theorem sample_body_nil {n : Name} {d : ℕ} (keys : Name → Digest)
    (h : ((sampleRecipe n []).message, d) ∈ sampleTable) :
    body sampleSha (sampleSha (rootMessage [] "base")) (sampleRecipe n []) [] keys =
      (hexdigest sampleRoot).text ++ (hexdigest d).text := by
  have hroot : sampleSha (rootMessage [] "base") = hexdigest sampleRoot :=
    sampleSha_of_mem (by simp [sampleTable])
  have hsha : (sampleRecipe n []).sha256 sampleSha = hexdigest d := sampleSha_of_mem h
  rw [body, hroot, hsha, List.flatMap_nil, List.append_nil]

theorem sample_body_b {keys : Name → Digest} (h : keys "a" = hexdigest sampleKeyA) :
    body sampleSha (sampleSha (rootMessage [] "base")) (sampleRecipe "b" ["a"]) ["a"] keys =
      (hexdigest sampleRoot).text ++ ((hexdigest sampleB).text ++ "a".toList ++
        '=' :: (hexdigest sampleKeyA).text) := by
  have hroot : sampleSha (rootMessage [] "base") = hexdigest sampleRoot :=
    sampleSha_of_mem (by simp [sampleTable])
  have hsha : (sampleRecipe "b" ["a"]).sha256 sampleSha = hexdigest sampleB :=
    sampleSha_of_mem (by simp [sampleTable])
  rw [body, hroot, hsha, List.flatMap_cons, List.flatMap_nil, List.append_nil, h,
    List.append_assoc, List.append_assoc]

theorem Sampled.key_a {R : Recipes} (h : Sampled R) {k : Digest}
    (hk : HasKey sampleSha R (sampleSha (rootMessage [] "base")) "a" k) :
    k = hexdigest sampleKeyA := by
  cases hk with
  | @intro _ r order keys hr horder _ =>
      obtain ⟨-, rfl⟩ | ⟨hne, -⟩ | ⟨hne, -⟩ := h _ _ hr
      · obtain rfl : [] = order := Except.ok.inj ((sample_order_nil _).symm.trans horder)
        rw [sample_body_nil keys (d := sampleA) (by simp [sampleTable])]
        exact sampleSha_of_mem (by simp [sampleTable])
      · exact absurd hne (by decide)
      · exact absurd hne (by decide)

theorem Sampled.hashed {R : Recipes} (h : Sampled R) {m : List UInt8}
    (hm : Hashed sampleSha R [] "base" m) : m ∈ sampleTable.map Prod.fst := by
  cases hm with
  | @recipe n r hr =>
      rcases h n r hr with ⟨-, rfl⟩ | ⟨-, rfl⟩ | ⟨-, rfl⟩ <;> simp [sampleTable]
  | root => simp [sampleTable]
  | @body n r order keys hr horder hkeys =>
      rcases h n r hr with ⟨-, rfl⟩ | ⟨-, rfl⟩ | ⟨-, rfl⟩
      · obtain rfl : [] = order := Except.ok.inj ((sample_order_nil _).symm.trans horder)
        rw [sample_body_nil keys (d := sampleA) (by simp [sampleTable])]
        simp [sampleTable]
      · obtain rfl : ["a"] = order := Except.ok.inj (sample_order_b.symm.trans horder)
        rw [sample_body_b (h.key_a (hkeys "a" List.mem_cons_self))]
        simp [sampleTable]
      · obtain rfl : [] = order := Except.ok.inj ((sample_order_nil _).symm.trans horder)
        rw [sample_body_nil keys (d := sampleC) (by simp [sampleTable])]
        simp [sampleTable]

/-- A recipe added, and the others reordered, leave the key of `b`. -/
theorem packageKeys_eq_iff_sample :
    ∃ k, (∃ keys, sampleBefore.packageKeys sampleSha [] "base" = .ok keys ∧
        keys.lookup "b" = some k) ∧
      ∃ keys, sampleAfter.packageKeys sampleSha [] "base" = .ok keys ∧
        keys.lookup "b" = some k := by
  have hbefore := sampleBefore_sampled
  have hafter := sampleAfter_sampled
  have hinj : Set.InjOn sampleSha {m | Hashed sampleSha sampleBefore [] "base" m ∨
      Hashed sampleSha sampleAfter [] "base" m} := by
    intro m hm m' hm' heq
    exact sampleSha_inj (hm.elim hbefore.hashed hafter.hashed)
      (hm'.elim hbefore.hashed hafter.hashed) heq
  obtain ⟨keysR, keysS, k, d, hR, hS, hk, hd, -, hsame⟩ :=
    packageKeys_eq_iff (hbefore.named rfl) hbefore.acyclic (hafter.named rfl) hafter.acyclic
      hinj (p := "b") (by decide) (by decide)
  have hfind : ∀ q, sampleBefore.Reach "b" q → sampleBefore.get q = sampleAfter.get q := by
    intro q hq
    cases hq using Relation.ReflTransGen.casesOn with
    | refl => rfl
    | tail _ he =>
        rw [(hbefore.edge he).2]
        rfl
  obtain rfl := hsame rfl ⟨rfl, rfl, rfl⟩ hfind
  exact ⟨k, ⟨keysR, hR, hk⟩, keysS, hS, hd⟩

end Sample

end Veron.Driver
