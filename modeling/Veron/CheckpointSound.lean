/-
What a resumed build takes over: in a history that stamps only what is complete,
it was made under the key that the marker has for it.
-/
import Veron.Checkpoint
import Veron.PackageKeys

namespace Veron.Driver

section

variable (sha : List UInt8 → Digest) (base : String)

/-- The world that a history of events leads to, where each of them can happen. -/
def history : World → List Event → Option World
  | w, [] => some w
  | w, e :: es => (step sha base w e).bind fun w' => history w' es

/-- If dest/n is stamped with its key now, then rightly so. -/
def stampable (r : Repo) (dest : Name → Option DestEntry) (n : Name) : Bool :=
  match dest n, r.key sha base n with
  | some d, some k => d.madeBy = some k
  | _, _ => true

/-- What the marker says of dest/n is so. -/
def Settled (w : World) (n : Name) : Prop :=
  ∀ m k d, w.marker = some m → m.keys n = some k → w.dest n = some d → d.madeBy = some k

/-- The package is not under way, or has none but optional steps left. -/
def Session.done (s : Session) (n : Name) : Bool :=
  match s.steps with
  | some left => s.plan.head?.map Prod.fst ≠ some n || left.all BuildStep.optional
  | none => true

/-- Of the packages that the build began, those that the marker names are done, and
under the key that it has for them. -/
def Session.leaves (s : Session) (w : World) : Bool :=
  s.begun.all fun n =>
    match w.marker.bind fun m => m.keys n with
    | some k => s.done n && (s.repo.key sha base n = some k)
    | none => true

/-- An event after which the marker is right: a checkpoint stamps what was made under
the key, and so does a bank of what its build has neither made nor taken over; a
build that ends leaves nothing half made that the marker names. -/
def careful (w : World) (e : Event) : Bool :=
  match w.session, e with
  | none, .checkpoint =>
      (w.repo.keys sha base).all fun e => stampable sha base w.repo w.dest e.1
  | some s, .finish =>
      !s.banks || (s.repo.keys sha base).all fun e =>
        e.1 ∈ s.begun || (s.resumed e.1).isSome || stampable sha base s.repo w.dest e.1
  | some s, .next => !s.plan.isEmpty || s.leaves sha base w
  | some s, .run ok _ => ok || s.leaves sha base w
  | some s, .kill => s.leaves sha base w
  | _, _ => true

attribute [local simp] careful

/-- All events of a history are careful. -/
def carefulAlong : World → List Event → Bool
  | _, [] => true
  | w, e :: es =>
      careful sha base w e &&
        match step sha base w e with
        | some w' => carefulAlong w' es
        | none => true

/-- What holds while a build is under way. -/
structure Underway (w : World) (s : Session) : Prop where
  head : ∀ n, s.steps.isSome → s.plan.head?.map Prod.fst = some n → n ∈ s.begun
  settled : ∀ n, n ∉ s.begun → Settled w n
  made : ∀ n ∈ s.begun, s.done n →
    ∃ d, w.dest n = some d ∧ d.madeBy = s.repo.key sha base n
  resumed : ∀ n k, s.resumed n = some k → n ∉ s.begun ∧ s.repo.key sha base n = some k ∧
    (∃ m, w.marker = some m ∧ m.keys n = some k) ∧ (w.dest n).isSome

def Sound (w : World) : Prop :=
  match w.session with
  | none => ∀ n, Settled w n
  | some s => Underway sha base w s

end

variable {sha : List UInt8 → Digest} {base : String} {w w' : World} {s : Session}

theorem Repo.mem_keys {r : Repo} {n : Name} {k : Digest} (h : r.key sha base n = some k) :
    (n, k) ∈ r.keys sha base :=
  mem_of_lookup h

theorem madeBy_of_stampable {r : Repo} {dest : Name → Option DestEntry} {n : Name}
    {d : DestEntry} {k : Digest} (h : stampable sha base r dest n) (hd : dest n = some d)
    (hk : r.key sha base n = some k) : d.madeBy = some k := by
  simpa [stampable, hd, hk] using h

theorem Session.done_of_none (h : s.steps = none) (n : Name) : s.done n := by
  simp [Session.done, h]

theorem Session.done_of_head_ne {n : Name} (h : s.plan.head?.map Prod.fst ≠ some n) :
    s.done n := by
  unfold Session.done
  split
  · simp [h]
  · rfl

theorem Session.optional_of_done {n : Name} {left : List BuildStep} (h : s.done n)
    (hsteps : s.steps = some left) (hhead : s.plan.head?.map Prod.fst = some n) :
    left.all BuildStep.optional := by
  simpa [Session.done, hsteps, hhead] using h

theorem Session.done_of_leaves {n : Name} {m : Marker} {k : Digest}
    (h : s.leaves sha base w) (hn : n ∈ s.begun) (hm : w.marker = some m)
    (hk : m.keys n = some k) : s.done n ∧ s.repo.key sha base n = some k := by
  have hone := List.all_eq_true.mp h n hn
  simpa [hm, hk] using hone

/-- The marker's word on what a build restores. -/
theorem Underway.restored (h : Underway sha base w s) {n : Name} {k : Digest}
    (hk : s.resumed n = some k) :
    ∃ m d, w.marker = some m ∧ m.keys n = some k ∧ w.dest n = some d ∧ d.madeBy = some k := by
  obtain ⟨hbegun, -, ⟨m, hm, hkey⟩, hdest⟩ := h.resumed n k hk
  obtain ⟨d, hd⟩ := Option.isSome_iff_exists.mp hdest
  exact ⟨m, d, hm, hkey, hd, h.settled n hbegun m k d hm hkey hd⟩

/-- The two ways a build starts: with nothing taken over, or from a marker. -/
theorem startBuild_cases {args : BuildArgs} (h : startBuild sha base w args = .ok w') :
    ∃ plan, (w' = { w with
        dest := if args.clean && !args.resume then fun _ => none else w.dest
        marker := if args.clean && !args.resume then none else w.marker
        session := some ⟨w.repo, args, plan, fun _ => none, none, 0, []⟩ }) ∨
      ∃ m, w.marker = some m ∧ w' = { w with
        dest := fun n =>
          if (m.keys n).isSome ∧ reusable sha base w.repo w.dest m n = none then none
          else w.dest n
        session := some
          ⟨w.repo, args, plan, reusable sha base w.repo w.dest m, none, 0, []⟩ } := by
  unfold startBuild at h
  cases hexpand : w.repo.expand with
  | error e => simp [hexpand, bind, Except.bind] at h
  | ok all =>
      cases hplan : selectPlan args all with
      | error e => simp [hexpand, hplan, bind, Except.bind] at h
      | ok plan =>
          refine ⟨plan, ?_⟩
          simp only [hexpand, hplan, bind, Except.bind] at h
          split at h
          · rename_i m hresume hm
            simp only [hresume, Bool.not_true, Bool.and_false, Bool.false_eq_true, if_false] at h hm
            split at h
            · cases h
            · split at h
              · cases h
              · exact Or.inr ⟨m, hm, (Except.ok.inj h).symm⟩
          · exact Or.inl (Except.ok.inj h).symm

theorem reusable_eq_some {r : Repo} {dest : Name → Option DestEntry} {m : Marker} {n : Name}
    {k : Digest} (h : reusable sha base r dest m n = some k) :
    m.keys n = some k ∧ r.key sha base n = some k ∧ (dest n).isSome := by
  unfold reusable at h
  split at h
  · rename_i k' hk'
    split at h
    · rename_i hcond
      obtain rfl := Option.some.inj h
      exact ⟨hk', hcond⟩
    · cases h
  · cases h

/-- A build starts with what the marker says being so. -/
theorem startBuild_underway {args : BuildArgs} (hsettled : ∀ n, Settled w n)
    (h : startBuild sha base w args = .ok w') : Sound sha base w' := by
  obtain ⟨plan, rfl | ⟨m, hm, rfl⟩⟩ := startBuild_cases h
  · refine ⟨by simp, ?_, by simp, by simp⟩
    intro n _ m k d hm hk hd
    by_cases hwiped : args.clean && !args.resume
    · simp [hwiped] at hm
    · simp only [hwiped] at hm hd
      exact hsettled n m k d hm hk hd
  · refine ⟨by simp, ?_, by simp, ?_⟩
    · intro n _ m' k d hm' hk hd
      simp only at hd
      split at hd
      · cases hd
      · exact hsettled n m' k d hm' hk hd
    · intro n k hk
      obtain ⟨hkey, hrepo, hdest⟩ := reusable_eq_some hk
      have hkept : reusable sha base w.repo w.dest m n ≠ none :=
        Option.ne_none_iff_exists'.mpr ⟨k, hk⟩
      refine ⟨by simp, hrepo, ⟨m, hm, hkey⟩, ?_⟩
      simpa [hkept] using hdest

/-- What a checkpoint leaves: the marker of before, or a key for every directory
that has one. -/
theorem writeCheckpoint_cases (sha : List UInt8 → Digest) (base : String) (r : Repo)
    (dest : Name → Option DestEntry) (marker : Option Marker) :
    writeCheckpoint sha base r dest marker = marker ∨
      writeCheckpoint sha base r dest marker =
        some ⟨base, fun n => if (dest n).isSome then r.key sha base n else none⟩ := by
  unfold writeCheckpoint
  split
  · exact Or.inr rfl
  · exact Or.inl rfl

theorem Settled.writeCheckpoint {r : Repo} {n : Name} (hsettled : Settled w n)
    (hstamp : ∀ d k, w.dest n = some d → r.key sha base n = some k → d.madeBy = some k) :
    Settled { w with marker := writeCheckpoint sha base r w.dest w.marker } n := by
  intro m k d hm hk hd
  cases writeCheckpoint_cases sha base r w.dest w.marker with
  | inl hsame =>
      simp only [hsame] at hm
      exact hsettled m k d hm hk hd
  | inr hnew =>
      simp only [hnew, Option.some.injEq] at hm
      subst hm
      have hdest : w.dest n = some d := hd
      simp only [hdest, Option.isSome_some, if_true] at hk
      exact hstamp d k hdest hk

/-- An update of dest/p does not touch the marker's word on another package. -/
theorem Settled.update {n p : Name} {entry : Option DestEntry} {session : Option Session}
    (h : Settled w n) (hne : n ≠ p) :
    Settled { w with dest := Function.update w.dest p entry, session := session } n := by
  intro m k d hm hk hd
  simp only [Function.update_of_ne hne] at hd
  exact h m k d hm hk hd

theorem destAfter_madeBy {r : Repo} {n : Name} {left : List BuildStep} {paths : List String}
    (h : left.all BuildStep.optional) :
    (destAfter sha base r n left paths).madeBy = r.key sha base n := by
  simp [destAfter, h]

/-- A build that ends with its packages done leaves the marker right. -/
theorem Underway.leaves (h : Underway sha base w s) (hleaves : s.leaves sha base w) :
    ∀ n, Settled w n := by
  intro n m k d hm hk hd
  by_cases hbegun : n ∈ s.begun
  · obtain ⟨hdone, hkey⟩ := Session.done_of_leaves hleaves hbegun hm hk
    obtain ⟨d', hd', hmade⟩ := h.made n hbegun hdone
    obtain rfl : d' = d := Option.some.inj (hd'.symm.trans hd)
    rw [hmade, hkey]
  · exact h.settled n hbegun m k d hm hk hd

theorem Underway.nextPackage (h : Underway sha base w s) (hsteps : s.steps = none)
    (hcareful : s.plan = [] → s.leaves sha base w) :
    Sound sha base (nextPackage sha base w s) := by
  unfold Driver.nextPackage
  split
  · rename_i hplan
    exact h.leaves (hcareful hplan)
  · rename_i n steps rest hplan
    split
    · exact ⟨by simp [hsteps], h.settled,
        fun m hm _ => h.made m hm (Session.done_of_none hsteps m), h.resumed⟩
    · refine ⟨?_, ?_, ?_, ?_⟩
      · intro m _ hm
        simp only [hplan, List.head?_cons, Option.map_some, Option.some.injEq] at hm
        simp [hm]
      · intro m hm
        obtain ⟨hne, hbegun⟩ := not_or.mp fun hor => hm (List.mem_cons.mpr hor)
        exact (h.settled m hbegun).update hne
      · intro m hm hdone
        by_cases hmn : m = n
        · subst hmn
          have hleft := Session.optional_of_done hdone rfl (by simp [hplan])
          exact ⟨_, Function.update_self .., destAfter_madeBy hleft⟩
        · have hbegun := (List.mem_cons.mp hm).resolve_left hmn
          obtain ⟨d, hd, hmade⟩ := h.made m hbegun (Session.done_of_none hsteps m)
          exact ⟨d, by simpa [hmn] using hd, hmade⟩
      · intro m k hk
        by_cases hmn : m = n
        · simp [hmn] at hk
        · simp only [Function.update_of_ne hmn] at hk
          obtain ⟨hbegun, hkey, hmarker, hdest⟩ := h.resumed m k hk
          exact ⟨by simp [hmn, hbegun], hkey, hmarker, by simpa [hmn] using hdest⟩

theorem Underway.afterStep_true (h : Underway sha base w s) {n : Name} {todo : List BuildStep}
    (hsteps : s.steps.isSome) (hhead : s.plan.head?.map Prod.fst = some n) (paths : List String) :
    Sound sha base (afterStep sha base w s n todo true paths) := by
  have hbegun : n ∈ s.begun := h.head n hsteps hhead
  refine ⟨fun m _ hm => h.head m hsteps hm, ?_, ?_, ?_⟩
  · intro m hm
    exact (h.settled m hm).update (ne_of_mem_of_not_mem hbegun hm).symm
  · intro m hm hdone
    by_cases hmn : m = n
    · subst hmn
      have hleft := Session.optional_of_done hdone rfl hhead
      exact ⟨_, Function.update_self .., destAfter_madeBy hleft⟩
    · have hother : s.done m := Session.done_of_head_ne fun hm' =>
        hmn (Option.some.inj (hm'.symm.trans hhead))
      obtain ⟨d, hd, hmade⟩ := h.made m hm hother
      exact ⟨d, by simpa [afterStep, hmn] using hd, hmade⟩
  · intro m k hk
    obtain ⟨hm, hkey, hmarker, hdest⟩ := h.resumed m k hk
    have hmn : m ≠ n := (ne_of_mem_of_not_mem hbegun hm).symm
    exact ⟨hm, hkey, hmarker, by simpa [afterStep, hmn] using hdest⟩

theorem Underway.afterStep_false (h : Underway sha base w s) {n : Name}
    {todo : List BuildStep} (hsteps : s.steps = some todo)
    (hhead : s.plan.head?.map Prod.fst = some n) (hleaves : s.leaves sha base w)
    (paths : List String) : Sound sha base (afterStep sha base w s n todo false paths) := by
  intro m
  by_cases hmn : m = n
  · subst hmn
    intro marker k d hmarker hk hd
    have hbegun : m ∈ s.begun := h.head m (by simp [hsteps]) hhead
    obtain ⟨hdone, hkey⟩ := Session.done_of_leaves hleaves hbegun hmarker hk
    have hleft := Session.optional_of_done hdone hsteps hhead
    obtain rfl : destAfter sha base s.repo m todo paths = d := by
      simpa [afterStep] using hd
    rw [destAfter_madeBy hleft, hkey]
  · exact (h.leaves hleaves m).update hmn

theorem Underway.finish (h : Underway sha base w s) (hsteps : s.steps = some [])
    (hcareful : s.banks → (s.repo.keys sha base).all fun e =>
      e.1 ∈ s.begun || (s.resumed e.1).isSome || stampable sha base s.repo w.dest e.1) :
    Underway sha base
      { w with
        marker := if s.banks then writeCheckpoint sha base s.repo w.dest w.marker else w.marker
        session := some { s with plan := s.plan.tail, steps := none, built := s.built + 1 } }
      { s with plan := s.plan.tail, steps := none, built := s.built + 1 } := by
  have hdone (n : Name) : s.done n := by simp [Session.done, hsteps]
  refine ⟨by simp, ?_, fun n hn _ => h.made n hn (hdone n), ?_⟩
  · intro n hn
    by_cases hbanks : s.banks
    · have hstamp (d : DestEntry) (k : Digest) (hd : w.dest n = some d)
          (hk : s.repo.key sha base n = some k) : d.madeBy = some k := by
        cases hresumed : s.resumed n with
        | none =>
            have hone := List.all_eq_true.mp (hcareful hbanks) _ (Repo.mem_keys hk)
            exact madeBy_of_stampable (by simpa [hn, hresumed] using hone) hd hk
        | some k' =>
            obtain ⟨m, d', -, -, hd', hmade⟩ := h.restored hresumed
            obtain rfl : d' = d := Option.some.inj (hd'.symm.trans hd)
            rw [hmade, ← (h.resumed n k' hresumed).2.1, hk]
      simpa [hbanks, Settled] using (h.settled n hn).writeCheckpoint hstamp
    · simpa [hbanks, Settled] using h.settled n hn
  · intro n k hk
    obtain ⟨hbegun, hkey, hmarker, hdest⟩ := h.resumed n k hk
    refine ⟨hbegun, hkey, ?_, hdest⟩
    by_cases hbanks : s.banks
    · simp only [hbanks, if_true]
      cases writeCheckpoint_cases sha base s.repo w.dest w.marker with
      | inl hsame => rwa [hsame]
      | inr hnew => exact ⟨_, hnew, by simp [hdest, hkey]⟩
    · simpa [hbanks] using hmarker

/-- A careful event keeps what the marker says so. -/
theorem step_sound {e : Event} (hsound : Sound sha base w) (hcareful : careful sha base w e)
    (hstep : step sha base w e = some w') : Sound sha base w' := by
  obtain ⟨repo, dest, marker, session⟩ := w
  cases session with
  | none =>
      cases e with
      | edit r =>
          obtain rfl := Option.some.inj hstep
          exact hsound
      | build args =>
          simp only [step] at hstep
          split at hstep
          · cases hstep
          · rename_i w'' _ hstart
            obtain rfl := Option.some.inj hstep
            exact startBuild_underway hsound hstart
          · obtain rfl := Option.some.inj hstep
            exact hsound
      | next => cases hstep
      | run ok paths => cases hstep
      | finish => cases hstep
      | kill => cases hstep
      | checkpoint =>
          obtain rfl := Option.some.inj hstep
          exact fun n => (hsound n).writeCheckpoint fun d k hd hk =>
            madeBy_of_stampable (List.all_eq_true.mp hcareful _ (Repo.mem_keys hk)) hd hk
  | some s =>
      have hunder : Underway sha base ⟨repo, dest, marker, some s⟩ s := hsound
      cases e with
      | edit r =>
          obtain rfl := Option.some.inj hstep
          exact ⟨hunder.head, hunder.settled, hunder.made, hunder.resumed⟩
      | build args =>
          simp only [step] at hstep
          cases hstep
      | next =>
          simp only [step] at hstep
          split at hstep
          · rename_i hsteps
            obtain rfl := Option.some.inj hstep
            refine hunder.nextPackage hsteps fun hplan => ?_
            simpa [careful, hplan] using hcareful
          · cases hstep
      | run ok paths =>
          simp only [step] at hstep
          split at hstep
          · rename_i todo st left n steps rest hsteps hplan
            obtain rfl := Option.some.inj hstep
            have hhead : s.plan.head?.map Prod.fst = some n := by simp [hplan]
            cases ok with
            | true => exact hunder.afterStep_true (by simp [hsteps]) hhead paths
            | false => exact hunder.afterStep_false hsteps hhead hcareful paths
          · cases hstep
      | finish =>
          simp only [step] at hstep
          split at hstep
          · rename_i hsteps
            obtain rfl := Option.some.inj hstep
            refine hunder.finish hsteps fun hbanks => ?_
            simpa [careful, hbanks] using hcareful
          · cases hstep
      | kill =>
          simp only [step, Option.isSome_some, if_true] at hstep
          obtain rfl := Option.some.inj hstep
          exact hunder.leaves hcareful
      | checkpoint =>
          simp [step] at hstep

theorem history_sound {es : List Event} (hsound : Sound sha base w)
    (hcareful : carefulAlong sha base w es) (hrun : history sha base w es = some w') :
    Sound sha base w' := by
  induction es generalizing w with
  | nil =>
      obtain rfl := Option.some.inj hrun
      exact hsound
  | cons e es ih =>
      obtain ⟨w₁, hstep, hrest⟩ := Option.bind_eq_some_iff.mp hrun
      simp only [carefulAlong, hstep, Bool.and_eq_true] at hcareful
      exact ih (step_sound hsound hcareful.1 hstep) hcareful.2 hrest

theorem World.initial_sound (repo : Repo) : Sound sha base (World.initial repo) := by
  intro n m k d hm
  cases hm

/-- In a careful history, what a resumed build restores was made under the key
that the marker has for it. -/
theorem restored_of_careful {repo : Repo} {es : List Event} {n : Name}
    (hcareful : carefulAlong sha base (World.initial repo) es)
    (hrun : history sha base (World.initial repo) es = some w) (hs : w.session = some s)
    (hrestores : Restores w s n) :
    ∃ m k d, w.marker = some m ∧ m.keys n = some k ∧ w.dest n = some d ∧ d.madeBy = some k := by
  have hsound := history_sound (World.initial_sound repo) hcareful hrun
  have hunder : Underway sha base w s := by simpa [Sound, hs] using hsound
  obtain ⟨k, hk⟩ := Option.isSome_iff_exists.mp hrestores.2.2.1
  obtain ⟨m, d, hm, hkey, hd, hmade⟩ := hunder.restored hk
  exact ⟨m, k, d, hm, hkey, hd, hmade⟩

section Sample

def makeStep (name : String) (argv : List String) : Json.Value :=
  .table [("name", .str name), ("run", .arr [.arr (argv.map .str)])]

/-- A package that is made and then installed. -/
def madeRecipe : Recipe where
  document := [("name", .str "p"), ("steps", .arr [makeStep "build" ["make"],
    makeStep "install" ["make", "install"]])]
  files := []
  patches := []

def madeRepo : Repo where
  recipes := ⟨[("p", madeRecipe)], by decide⟩
  policy := []
  installedPaths := fun _ => []

def madeSha256 : ℕ :=
  0xdb12a5a3b929385247b867f119c7235033c5d69802b709c258451c94abed2833

def madeKey : ℕ :=
  0xed643730cc53097072d065f94e63e0f620ae5bfcc9d4c919816de75e9605b1c2

/-- What is hashed for it, with its SHA-256. -/
def madeTable : List (List UInt8 × ℕ) :=
  [(madeRecipe.message, madeSha256), (rootMessage [] "base", sampleRoot),
    (encode ((hexdigest sampleRoot).text ++ (hexdigest madeSha256).text), madeKey)]

def madeSha (m : List UInt8) : Digest := hexdigest ((madeTable.lookup m).getD 0)

/-- A build that banks after every package. -/
def banking : BuildArgs := ⟨false, false, false, 1, "", []⟩

def resuming : BuildArgs := ⟨true, true, false, 0, "", []⟩

theorem exists_of_any {o : Option World} {P : World → Session → Prop}
    [∀ w s, Decidable (P w s)] (h : o.any fun w => w.session.any fun s => P w s) :
    ∃ w s, o = some w ∧ w.session = some s ∧ P w s := by
  cases o with
  | none => cases h
  | some w =>
      rw [Option.any_some] at h
      cases hs : w.session with
      | none => simp [hs] at h
      | some s => exact ⟨w, s, rfl, hs, by simpa [hs] using h⟩

/-- A step fails, and a checkpoint takes what it left for the package. -/
def partialHistory : List Event :=
  [.build banking, .next, .run true [], .run false ["usr/bin/p"], .checkpoint, .build resuming]

/-- The half-installed package is restored. -/
theorem restored_partial :
    ∃ w s, history madeSha "base" (World.initial madeRepo) partialHistory = some w ∧
      w.session = some s ∧ Restores w s "p" ∧
      w.marker.bind (fun m => m.keys "p") = some (hexdigest madeKey) ∧
      w.dest "p" = some ⟨["usr/bin/p"], none⟩ :=
  exists_of_any (by decide +kernel)

/-- The package is built, banked and restored. -/
def bankedHistory : List Event :=
  [.build banking, .next, .run true [], .run true ["usr/bin/p"], .finish, .kill, .build resuming]

theorem restored_banked :
    ∃ w s m k d, history madeSha "base" (World.initial madeRepo) bankedHistory = some w ∧
      w.session = some s ∧ Restores w s "p" ∧ w.marker = some m ∧ m.keys "p" = some k ∧
      w.dest "p" = some d ∧ d.madeBy = some k := by
  have hrun : ∃ w s, history madeSha "base" (World.initial madeRepo) bankedHistory = some w ∧
      w.session = some s ∧ Restores w s "p" := exists_of_any (by decide +kernel)
  obtain ⟨w, s, hrun, hs, hrestores⟩ := hrun
  obtain ⟨m, k, d, h⟩ := restored_of_careful (by decide +kernel) hrun hs hrestores
  exact ⟨w, s, m, k, d, hrun, hs, hrestores, h⟩

end Sample

end Veron.Driver
