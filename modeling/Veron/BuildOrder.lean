/-
The order of the build: the only one by height of the packages, the names
ascending where the height is the same.
-/
import Veron.Checkpoint
import Veron.DependencyOrder
import Veron.Height

namespace Veron.Driver

/-- The dependencies whose names are checked. -/
def depKinds : List String := ["build", "link", "runtime"]

def Recipes.Readable (R : Recipes) : Prop :=
  ∀ n r, R.get n = some r → ∀ kind ∈ depKinds, ∃ names, r.deps kind = .ok names

/-- A dependency has no recipe. -/
def Recipes.Missing (R : Recipes) : Prop :=
  ∃ n r kind names m, R.get n = some r ∧ kind ∈ depKinds ∧ r.deps kind = .ok names ∧
    m ∈ names ∧ ¬ R.has m

/-- With a package, all its build and link dependencies. -/
def Recipes.Closed (R : Recipes) (names : List Name) : Prop :=
  ∀ n ∈ names, ∀ m, R.Edge n m → m ∈ names

/-- An order to build in. -/
structure Recipes.BuildOrder (R : Recipes) (ordered : List Name) : Prop where
  perm : ordered.Perm R.keys
  depsFirst : ∀ l n l', ordered = l ++ n :: l' → ∀ m, R.Edge n m → m ∈ l
  byHeight : ordered.Pairwise (HeightLt R.Edge)

theorem Recipe.order_eq_ok {r : Recipe} {order : List Name} (h : r.order = .ok order) :
    ∃ build link, r.deps "build" = .ok build ∧ r.deps "link" = .ok link ∧
      order = sortedSet (build ++ link) := by
  unfold Recipe.order at h
  cases hbuild : r.deps "build" with
  | error stop => simp [hbuild, bind, Except.bind] at h
  | ok build =>
      cases hlink : r.deps "link" with
      | error stop => simp [hbuild, hlink, bind, Except.bind] at h
      | ok link =>
          simp only [hbuild, hlink, bind, Except.bind, pure, Except.pure, Except.ok.injEq] at h
          exact ⟨build, link, rfl, rfl, h.symm⟩

theorem Recipe.order_of_deps {r : Recipe} {build link : List Name}
    (hbuild : r.deps "build" = .ok build) (hlink : r.deps "link" = .ok link) :
    r.order = .ok (sortedSet (build ++ link)) := by
  simp [Recipe.order, hbuild, hlink, bind, Except.bind, pure, Except.pure]

theorem Recipes.named_iff {R : Recipes} : R.Named ↔ R.Readable ∧ ¬ R.Missing := by
  constructor
  · intro hnamed
    constructor
    · intro n r hr kind hkind
      obtain ⟨order, runtime, horder, hruntime, -⟩ := hnamed n r hr
      obtain ⟨build, link, hbuild, hlink, -⟩ := Recipe.order_eq_ok horder
      simp only [depKinds, List.mem_cons, List.not_mem_nil, or_false] at hkind
      rcases hkind with rfl | rfl | rfl
      · exact ⟨build, hbuild⟩
      · exact ⟨link, hlink⟩
      · exact ⟨runtime, hruntime⟩
    · rintro ⟨n, r, kind, names, m, hr, hkind, hnames, hm, hmissing⟩
      obtain ⟨order, runtime, horder, hruntime, hall⟩ := hnamed n r hr
      obtain ⟨build, link, hbuild, hlink, rfl⟩ := Recipe.order_eq_ok horder
      refine hmissing (hall m ?_)
      simp only [List.mem_append, mem_sortedSet]
      simp only [depKinds, List.mem_cons, List.not_mem_nil, or_false] at hkind
      rcases hkind with rfl | rfl | rfl
      · rw [hbuild, Except.ok.injEq] at hnames
        exact Or.inl (Or.inl (hnames ▸ hm))
      · rw [hlink, Except.ok.injEq] at hnames
        exact Or.inl (Or.inr (hnames ▸ hm))
      · rw [hruntime, Except.ok.injEq] at hnames
        exact Or.inr (hnames ▸ hm)
  · rintro ⟨hreadable, hmissing⟩ n r hr
    obtain ⟨build, hbuild⟩ := hreadable n r hr "build" (by simp [depKinds])
    obtain ⟨link, hlink⟩ := hreadable n r hr "link" (by simp [depKinds])
    obtain ⟨runtime, hruntime⟩ := hreadable n r hr "runtime" (by simp [depKinds])
    refine ⟨_, runtime, Recipe.order_of_deps hbuild hlink, hruntime, fun m hm => ?_⟩
    by_contra hno
    simp only [List.mem_append, mem_sortedSet] at hm
    rcases hm with (hm | hm) | hm
    · exact hmissing ⟨n, r, "build", build, m, hr, by simp [depKinds], hbuild, hm, hno⟩
    · exact hmissing ⟨n, r, "link", link, m, hr, by simp [depKinds], hlink, hm, hno⟩
    · exact hmissing ⟨n, r, "runtime", runtime, m, hr, by simp [depKinds], hruntime, hm, hno⟩

theorem Recipes.checkDeps_named {R : Recipes} {n : Name} {r : Recipe} {order : List Name}
    (h : R.checkDeps n r = .ok order) : ∃ order runtime, r.order = .ok order ∧
      r.deps "runtime" = .ok runtime ∧ ∀ m ∈ order ++ runtime, R.has m := by
  unfold Recipes.checkDeps at h
  cases horder : r.order with
  | error stop => simp [horder, bind, Except.bind] at h
  | ok order =>
      cases hruntime : r.deps "runtime" with
      | error stop => simp [horder, hruntime, bind, Except.bind] at h
      | ok runtime =>
          simp only [horder, hruntime, bind, Except.bind] at h
          split at h
          · cases h
          · rename_i hnone
            refine ⟨order, runtime, rfl, rfl, fun m hm => ?_⟩
            rw [List.find?_eq_none] at hnone
            simpa using hnone m (mem_sortedSet.mpr hm)

theorem Recipes.checkDeps_stop {R : Recipes} {n : Name} {r : Recipe} {stop : Stop}
    {order runtime : List Name} (horder : r.order = .ok order)
    (hruntime : r.deps "runtime" = .ok runtime) (h : R.checkDeps n r = .error stop) :
    ∃ message, stop = .die message := by
  simp only [Recipes.checkDeps, horder, hruntime, bind, Except.bind] at h
  split at h
  · exact ⟨_, (Except.error.inj h).symm⟩
  · cases h

theorem mapM_eq_ok {α β ε : Type} {f : α → Except ε β} {l : List α} {l' : List β}
    (h : l.mapM f = .ok l') : List.Forall₂ (fun a b => f a = .ok b) l l' := by
  induction l generalizing l' with
  | nil =>
      simp only [List.mapM_nil, pure, Except.pure, Except.ok.injEq] at h
      subst h
      exact List.Forall₂.nil
  | cons a l ih =>
      rw [List.mapM_cons] at h
      cases ha : f a with
      | error e => simp [ha, bind, Except.bind] at h
      | ok b =>
          cases hl : l.mapM f with
          | error e => simp [ha, hl, bind, Except.bind] at h
          | ok bs =>
              simp only [ha, hl, bind, Except.bind, pure, Except.pure, Except.ok.injEq] at h
              subst h
              exact List.Forall₂.cons ha (ih hl)

theorem mapM_eq_error {α β ε : Type} {f : α → Except ε β} {l : List α} {e : ε}
    (h : l.mapM f = .error e) : ∃ a ∈ l, f a = .error e := by
  induction l with
  | nil => cases h
  | cons a l ih =>
      rw [List.mapM_cons] at h
      cases ha : f a with
      | error e' =>
          simp only [ha, bind, Except.bind, Except.error.injEq] at h
          exact ⟨a, List.mem_cons_self, h ▸ ha⟩
      | ok b =>
          cases hl : l.mapM f with
          | error e' =>
              simp only [ha, hl, bind, Except.bind, Except.error.injEq] at h
              obtain ⟨a', ha', he⟩ := ih (h ▸ hl)
              exact ⟨a', List.mem_cons_of_mem _ ha', he⟩
          | ok bs => simp [ha, hl, bind, Except.bind, pure, Except.pure] at h

theorem Recipes.named_of_depsTable {R : Recipes} {table : List (Name × List Name)}
    (h : R.depsTable = .ok table) : R.Named := by
  intro n r hr
  have hone := List.forall₂_iff_get.mp (mapM_eq_ok h)
  obtain ⟨i, hi, hget⟩ := List.mem_iff_getElem.mp (Dict.get_eq_some.mp hr)
  have hstep := hone.2 i hi (hone.1 ▸ hi)
  simp only [List.get_eq_getElem, hget] at hstep
  cases hcheck : R.checkDeps n r with
  | error stop => simp [hcheck, bind, Except.bind] at hstep
  | ok order =>
      obtain ⟨order, runtime, hfound⟩ := Recipes.checkDeps_named hcheck
      exact ⟨order, runtime, hfound⟩

theorem Recipes.depsTable_stop {R : Recipes} (hreadable : R.Readable) {stop : Stop}
    (h : R.depsTable = .error stop) : ∃ message, stop = .die message := by
  obtain ⟨⟨n, r⟩, hmem, hone⟩ := mapM_eq_error h
  have hr : R.get n = some r := Dict.get_eq_some.mpr hmem
  obtain ⟨build, hbuild⟩ := hreadable n r hr "build" (by simp [depKinds])
  obtain ⟨link, hlink⟩ := hreadable n r hr "link" (by simp [depKinds])
  obtain ⟨runtime, hruntime⟩ := hreadable n r hr "runtime" (by simp [depKinds])
  cases hcheck : R.checkDeps n r with
  | error stop' =>
      simp only [hcheck, bind, Except.bind, Except.error.injEq] at hone
      subst hone
      exact Recipes.checkDeps_stop (Recipe.order_of_deps hbuild hlink) hruntime hcheck
  | ok order => simp [hcheck, bind, Except.bind, pure, Except.pure] at hone

theorem rounds_stop {table : List (Name × List Name)} {fuel : ℕ} {done : List Name} {stop : Stop}
    (h : rounds table fuel done = .error stop) : ∃ message, stop = .die message := by
  induction fuel generalizing done with
  | zero => cases h
  | succ fuel ih =>
      rw [rounds] at h
      split at h
      · split at h
        · exact ⟨_, (Except.error.inj h).symm⟩
        · exact ih h
      · cases h

/-- What is done after `k` rounds: all packages lower than `k`, in their order. -/
structure Recipes.Layered (R : Recipes) (k : ℕ) (done : List Name) : Prop where
  mem_iff : ∀ n, n ∈ done ↔ n ∈ R.keys ∧ ∃ i < k, IsHeight R.Edge n i
  sorted : done.Pairwise (HeightLt R.Edge)

/-- The packages that round `k` adds are those of height `k`. -/
theorem Recipes.Layered.mem_ready {R : Recipes} (hnamed : R.Named) {k : ℕ} {done : List Name}
    (hdone : R.Layered k done) (n : Name) :
    n ∈ ready R.table done ↔ n ∈ R.keys ∧ IsHeight R.Edge n k := by
  rw [R.mem_ready]
  constructor
  · rintro ⟨hn, hnew, hdeps⟩
    obtain ⟨i, hi, hheight⟩ :=
      exists_isHeight_of_forall fun m hm => ((hdone.mem_iff m).mp (hdeps m hm)).2
    rcases hi.lt_or_eq with hlt | rfl
    · exact absurd ((hdone.mem_iff n).mpr ⟨hn, i, hlt, hheight⟩) hnew
    · exact ⟨hn, hheight⟩
  · rintro ⟨hn, hheight⟩
    refine ⟨hn, fun hold => ?_, fun m hm => ?_⟩
    · obtain ⟨i, hi, hheight'⟩ := ((hdone.mem_iff n).mp hold).2
      exact absurd (hheight.unique hheight') hi.ne'
    · exact (hdone.mem_iff m).mpr ⟨hnamed.mem_names hm, hheight.below hm⟩

theorem Recipes.ready_sorted (R : Recipes) (done : List Name) :
    (ready R.table done).Pairwise (· < ·) := by
  have hle : (ready R.table done).Pairwise (· ≤ ·) := List.pairwise_insertionSort _ _
  exact (hle.and (R.ready_nodup done)).imp fun h => lt_of_le_of_ne h.1 h.2

theorem Recipes.Layered.step {R : Recipes} (hnamed : R.Named) {k : ℕ} {done : List Name}
    (hdone : R.Layered k done) : R.Layered (k + 1) (done ++ ready R.table done) := by
  have hready := hdone.mem_ready hnamed
  constructor
  · intro n
    rw [List.mem_append, hdone.mem_iff, hready]
    constructor
    · rintro (⟨hn, i, hi, hheight⟩ | ⟨hn, hheight⟩)
      · exact ⟨hn, i, Nat.lt_succ_of_lt hi, hheight⟩
      · exact ⟨hn, k, Nat.lt_succ_self k, hheight⟩
    · rintro ⟨hn, i, hi, hheight⟩
      rcases (Nat.lt_succ_iff.mp hi).lt_or_eq with hlt | rfl
      · exact Or.inl ⟨hn, i, hlt, hheight⟩
      · exact Or.inr ⟨hn, hheight⟩
  · rw [List.pairwise_append]
    refine ⟨hdone.sorted, ?_, ?_⟩
    · refine (R.ready_sorted done).imp_of_mem fun hn hm hlt => ?_
      exact ⟨k, k, ((hready _).mp hn).2, ((hready _).mp hm).2, Or.inr ⟨rfl, hlt⟩⟩
    · intro n hn m hm
      obtain ⟨i, hi, hheight⟩ := ((hdone.mem_iff n).mp hn).2
      exact ⟨i, k, hheight, ((hready m).mp hm).2, Or.inl hi⟩

theorem Recipes.rounds_layered {R : Recipes} (hnamed : R.Named) {fuel k : ℕ}
    {done ordered : List Name} (hdone : R.Layered k done)
    (hfuel : R.keys.length ≤ done.length + fuel)
    (h : rounds R.table fuel done = .ok ordered) :
    ∃ k, R.Layered k ordered ∧ R.keys.length ≤ ordered.length := by
  have htable : R.table.length = R.keys.length := by simp [Recipes.table, Dict.keys]
  induction fuel generalizing k done with
  | zero =>
      cases h
      exact ⟨k, hdone, hfuel⟩
  | succ fuel ih =>
      rw [rounds, htable] at h
      by_cases hshort : done.length < R.keys.length
      · have hstep := hdone.step hnamed
        rw [if_pos hshort] at h
        cases hready : ready R.table done with
        | nil => simp [hready] at h
        | cons n ns =>
            rw [hready] at h hstep
            refine ih hstep ?_ h
            simp only [List.length_append, List.length_cons]
            omega
      · rw [if_neg hshort] at h
        cases h
        exact ⟨k, hdone, not_lt.mp hshort⟩

theorem Recipes.layered_zero (R : Recipes) : R.Layered 0 [] :=
  ⟨fun n => by simp, List.Pairwise.nil⟩

theorem Recipes.Layered.nodup {R : Recipes} {k : ℕ} {done : List Name}
    (hdone : R.Layered k done) : done.Nodup := by
  refine hdone.sorted.imp fun {n m} hlt heq => ?_
  subst heq
  exact hlt.asymm hlt

theorem Recipes.topoOrder_eq_ok {R : Recipes} {ordered : List Name}
    (h : R.topoOrder = .ok ordered) :
    R.Named ∧ ∃ k, R.Layered k ordered ∧ ordered.Perm R.keys := by
  unfold Recipes.topoOrder at h
  cases htable : R.depsTable with
  | error stop => simp [htable, bind, Except.bind] at h
  | ok table =>
      have hnamed := Recipes.named_of_depsTable htable
      rw [Recipes.depsTable_eq hnamed] at h
      obtain ⟨k, hlayered, hlength⟩ := Recipes.rounds_layered hnamed R.layered_zero
        (by simp [Recipes.table, Dict.keys]) h
      have hsub := List.Nodup.subperm hlayered.nodup fun n hn => ((hlayered.mem_iff n).mp hn).1
      exact ⟨hnamed, k, hlayered, hsub.perm_of_length_le hlength⟩

theorem Recipes.Edge.mem_keys {R : Recipes} {n m : Name} (h : R.Edge n m) : n ∈ R.keys := by
  rw [← Dict.has_iff, Dict.has, Option.isSome_iff_exists]
  cases hr : R.get n with
  | none => simp [Recipes.Edge, Recipes.depsOf, hr] at h
  | some r => exact ⟨r, rfl⟩

theorem Recipes.acyclic_of_topoOrder {R : Recipes} {ordered : List Name}
    (h : R.topoOrder = .ok ordered) : R.Acyclic := by
  intro n hcycle
  obtain ⟨-, k, hlayered, hperm⟩ := Recipes.topoOrder_eq_ok h
  obtain ⟨m, hfirst, -⟩ := Relation.TransGen.head'_iff.mp hcycle
  have hn : n ∈ ordered := hperm.mem_iff.mpr (Recipes.Edge.mem_keys hfirst)
  obtain ⟨i, -, hheight⟩ := ((hlayered.mem_iff n).mp hn).2
  exact hheight.acyclic hcycle

/-- What goes through gives an order to build in. -/
theorem Recipes.buildOrder_of_topoOrder {R : Recipes} {ordered : List Name}
    (h : R.topoOrder = .ok ordered) : R.BuildOrder ordered := by
  obtain ⟨hnamed, k, hlayered, hperm⟩ := Recipes.topoOrder_eq_ok h
  refine ⟨hperm, ?_, hlayered.sorted⟩
  rintro l n l' rfl m hm
  have hmem : m ∈ l ++ n :: l' := hperm.mem_iff.mpr (hnamed.mem_names hm)
  rcases List.mem_append.mp hmem with hl | hl
  · exact hl
  · -- after `n` stands only what is no lower than `n`
    have hn : n ∈ l ++ n :: l' := List.mem_append_right _ List.mem_cons_self
    obtain ⟨i, -, hi⟩ := ((hlayered.mem_iff n).mp hn).2
    obtain ⟨j, hji, hj⟩ := hi.below hm
    rcases List.mem_cons.mp hl with rfl | hl
    · exact absurd (hi.unique hj) hji.ne'
    · have hlt := List.rel_of_pairwise_cons (List.pairwise_append.mp hlayered.sorted).2.1 hl
      obtain ⟨i', j', hi', hj', hle⟩ := hlt
      obtain rfl := hi.unique hi'
      obtain rfl := hj.unique hj'
      omega

theorem Recipes.topoOrder_stop {R : Recipes} (hreadable : R.Readable) {stop : Stop}
    (h : R.topoOrder = .error stop) : ∃ message, stop = .die message := by
  unfold Recipes.topoOrder at h
  cases htable : R.depsTable with
  | error stop' =>
      simp only [htable, bind, Except.bind, Except.error.injEq] at h
      subst h
      exact Recipes.depsTable_stop hreadable htable
  | ok table =>
      simp only [htable, bind, Except.bind] at h
      exact rounds_stop h

theorem Recipes.topoOrder_ok_iff {R : Recipes} :
    (∃ ordered, R.topoOrder = .ok ordered) ↔ R.Readable ∧ ¬ R.Missing ∧ R.Acyclic := by
  constructor
  · rintro ⟨ordered, h⟩
    obtain ⟨hreadable, hmissing⟩ := Recipes.named_iff.mp (Recipes.topoOrder_eq_ok h).1
    exact ⟨hreadable, hmissing, Recipes.acyclic_of_topoOrder h⟩
  · rintro ⟨hreadable, hmissing, hacyclic⟩
    obtain ⟨ordered, h, -⟩ :=
      Recipes.topoOrder_topological (Recipes.named_iff.mpr ⟨hreadable, hmissing⟩) hacyclic
    exact ⟨ordered, h⟩

section Iteration

variable {R R' : Recipes} (hitems : R'.items.Perm R.items)

include hitems

theorem Recipes.get_of_perm : R'.get = R.get := by
  funext n
  refine Option.ext fun r => ?_
  rw [Dict.get_eq_some, Dict.get_eq_some, hitems.mem_iff]

theorem Recipes.edge_of_perm : R'.Edge = R.Edge := by
  funext n m
  simp only [Recipes.Edge, Recipes.depsOf, Recipes.get_of_perm hitems]

/-- The order in which a dictionary is read through is of no account. -/
theorem Recipes.topoOrder_of_perm {ordered : List Name} (h : R.topoOrder = .ok ordered) :
    R'.topoOrder = .ok ordered := by
  have hget := Recipes.get_of_perm hitems
  have hedge := Recipes.edge_of_perm hitems
  have hok : R'.Readable ∧ ¬ R'.Missing ∧ R'.Acyclic := by
    have hR := Recipes.topoOrder_ok_iff.mp ⟨ordered, h⟩
    simpa only [Recipes.Readable, Recipes.Missing, Recipes.Acyclic, Dict.has, hget, hedge] using hR
  obtain ⟨ordered', h'⟩ := Recipes.topoOrder_ok_iff.mpr hok
  have horder := Recipes.buildOrder_of_topoOrder h
  have horder' := Recipes.buildOrder_of_topoOrder h'
  have hsorted' := horder'.byHeight
  rw [hedge] at hsorted'
  have hkeys : R'.keys.Perm R.keys := hitems.map Prod.fst
  have hperm : ordered'.Perm ordered := horder'.perm.trans (hkeys.trans horder.perm.symm)
  rw [h', eq_of_heightLt hsorted' horder.byHeight hperm]

end Iteration

/-- Every beginning of a build order is closed. -/
theorem Recipes.BuildOrder.closed_take {R : Recipes} {ordered : List Name}
    (h : R.BuildOrder ordered) (cut : ℕ) : R.Closed (ordered.take cut) := by
  intro n hn m hm
  obtain ⟨i, hi, rfl⟩ := List.mem_iff_getElem.mp hn
  rw [List.length_take] at hi
  have hsplit : ordered = ordered.take i ++ ordered[i] :: ordered.drop (i + 1) := by
    rw [List.getElem_cons_drop, List.take_append_drop]
  rw [List.getElem_take] at hm
  have hbefore := h.depsFirst _ _ _ hsplit m hm
  exact List.take_subset_take_left _ (by omega) hbefore

theorem Repo.expand_names {r : Repo} {plan : List (Name × List BuildStep)}
    (h : r.expand = .ok plan) : r.recipes.topoOrder = .ok (plan.map Prod.fst) := by
  unfold Repo.expand at h
  cases hordered : r.recipes.topoOrder with
  | error stop => simp [hordered, bind, Except.bind] at h
  | ok names =>
      simp only [hordered, bind, Except.bind] at h
      have hone := mapM_eq_ok h
      have hnames : List.Forall₂ (fun n (e : Name × List BuildStep) => n = e.1) names plan := by
        refine hone.imp fun n e he => ?_
        cases hr : r.recipes.get n with
        | none => simp [hr] at he
        | some recipe =>
            cases hsteps : expandSteps n recipe with
            | error stop => simp [hr, hsteps] at he
            | ok steps =>
                simp only [hr, hsteps, pure, Except.pure, Except.ok.injEq] at he
                exact (congrArg Prod.fst he)
      rw [← List.forall₂_map_right_iff, List.forall₂_eq_eq_eq] at hnames
      rw [hnames]

theorem selectPlan_upto {args : BuildArgs} {plan chosen : List (Name × List BuildStep)}
    (hupto : args.upto ≠ "") (h : selectPlan args plan = .ok chosen) :
    chosen = plan.take ((plan.map Prod.fst).idxOf args.upto + 1) ∧
      args.upto ∈ plan.map Prod.fst := by
  unfold selectPlan at h
  rw [if_pos hupto] at h
  by_cases hmem : args.upto ∈ plan.map Prod.fst
  · rw [if_neg (not_not.mpr hmem)] at h
    split at h
    · cases h
    · exact ⟨(Except.ok.inj h).symm, hmem⟩
  · rw [if_pos hmem] at h
    cases h

/-- `topo_order` stops where a dependency has no recipe or packages build on each
other in a circle.  Everywhere else it gives the one order by height, and what
`--upto` leaves of it is closed. -/
theorem Recipes.topoOrder_canonical (R : Recipes) :
    (¬ R.Readable → ∃ stop, R.topoOrder = .error stop) ∧
    (R.Readable → R.Missing ∨ ¬ R.Acyclic → ∃ message, R.topoOrder = .error (.die message)) ∧
    (R.Readable → ¬ (R.Missing ∨ ¬ R.Acyclic) → ∃ ordered, R.topoOrder = .ok ordered ∧
      R.BuildOrder ordered ∧
      (∀ R' : Recipes, R'.items.Perm R.items → R'.topoOrder = .ok ordered) ∧
      ∀ (r : Repo) (args : BuildArgs) (plan chosen : List (Name × List BuildStep)),
        r.recipes = R → r.expand = .ok plan → args.upto ≠ "" →
        selectPlan args plan = .ok chosen →
        chosen.map Prod.fst <+: ordered ∧ R.Closed (chosen.map Prod.fst)) := by
  refine ⟨?_, ?_, ?_⟩
  · intro hunreadable
    cases h : R.topoOrder with
    | error stop => exact ⟨stop, rfl⟩
    | ok ordered => exact absurd (Recipes.topoOrder_ok_iff.mp ⟨ordered, h⟩).1 hunreadable
  · intro hreadable hbad
    cases h : R.topoOrder with
    | error stop =>
        obtain ⟨message, rfl⟩ := Recipes.topoOrder_stop hreadable h
        exact ⟨message, rfl⟩
    | ok ordered =>
        obtain ⟨-, hmissing, hacyclic⟩ := Recipes.topoOrder_ok_iff.mp ⟨ordered, h⟩
        exact absurd hbad (not_or.mpr ⟨hmissing, not_not.mpr hacyclic⟩)
  · intro hreadable hgood
    obtain ⟨hmissing, hacyclic⟩ := not_or.mp hgood
    obtain ⟨ordered, h⟩ :=
      Recipes.topoOrder_ok_iff.mpr ⟨hreadable, hmissing, not_not.mp hacyclic⟩
    have horder := Recipes.buildOrder_of_topoOrder h
    refine ⟨ordered, h, horder, fun R' hitems => Recipes.topoOrder_of_perm hitems h, ?_⟩
    rintro r args plan chosen rfl hplan hupto hchosen
    have hnames := Repo.expand_names hplan
    rw [h, Except.ok.injEq] at hnames
    obtain ⟨rfl, -⟩ := selectPlan_upto hupto hchosen
    rw [List.map_take, ← hnames]
    exact ⟨List.take_prefix _ _, horder.closed_take _⟩

/-- Two packages that run with each other, one of which is built with the other. -/
def fontRecipes : Recipes where
  items :=
    [("harfbuzz", ⟨[("deps", .table [("build", .arr [.str "freetype"])])], [], []⟩),
      ("freetype", ⟨[("deps", .table [("runtime", .arr [.str "harfbuzz"])])], [], []⟩)]
  nodup := by decide

theorem fontRecipes_topoOrder : ∃ ordered, fontRecipes.topoOrder = .ok ordered ∧
    fontRecipes.BuildOrder ordered := by
  have hrun : fontRecipes.topoOrder = .ok ["freetype", "harfbuzz"] := by decide +kernel
  obtain ⟨hreadable, hmissing, hacyclic⟩ := Recipes.topoOrder_ok_iff.mp ⟨_, hrun⟩
  obtain ⟨ordered, h, horder, -⟩ := (Recipes.topoOrder_canonical fontRecipes).2.2 hreadable
    (not_or.mpr ⟨hmissing, not_not.mpr hacyclic⟩)
  exact ⟨ordered, h, horder⟩

end Veron.Driver
