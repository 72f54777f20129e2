/-
The order of an acyclic set of recipes: `topo_order` ends well and puts every
package after what it depends on.
-/
import Mathlib.Data.Fintype.Card
import Mathlib.Data.List.Perm.Subperm
import Mathlib.Data.Set.Finite.List
import Mathlib.Logic.Relation
import Mathlib.Order.WellFounded
import Veron.Recipes

namespace Veron.Driver

/-- The build and link dependencies of a recipe's name, none where it has none. -/
def Recipes.depsOf (R : Recipes) (n : Name) : List Name :=
  match (R.get n).map Recipe.order with
  | some (.ok order) => order
  | _ => []

/-- `n` depends on `m`. -/
def Recipes.Edge (R : Recipes) (n m : Name) : Prop := m ∈ R.depsOf n

/-- `m` is `n` or a package it depends on, however indirectly. -/
def Recipes.Reach (R : Recipes) : Name → Name → Prop := Relation.ReflTransGen R.Edge

def Recipes.Acyclic (R : Recipes) : Prop := ∀ n, ¬ Relation.TransGen R.Edge n n

/-- Every dependency named has a recipe. -/
def Recipes.Named (R : Recipes) : Prop :=
  ∀ n r, R.get n = some r → ∃ order runtime, r.order = .ok order ∧
    r.deps "runtime" = .ok runtime ∧ ∀ m ∈ order ++ runtime, R.has m

def Recipes.table (R : Recipes) : List (Name × List Name) :=
  R.items.map fun e => (e.1, R.depsOf e.1)

theorem mem_sortedSet {m : Name} {names : List Name} : m ∈ sortedSet names ↔ m ∈ names := by
  rw [sortedSet, List.mem_insertionSort, List.mem_dedup]

theorem Recipes.depsOf_eq {R : Recipes} {n : Name} {r : Recipe} {order : List Name}
    (hr : R.get n = some r) (horder : r.order = .ok order) : R.depsOf n = order := by
  simp [Recipes.depsOf, hr, horder]

/-- The first loop of `topo_order` goes through. -/
theorem Recipes.depsTable_eq {R : Recipes} (hnamed : R.Named) :
    R.depsTable = .ok R.table := by
  have hone : ∀ e ∈ R.items,
      (do let order ← R.checkDeps e.1 e.2; pure (e.1, order) : Except Stop _) =
        .ok (e.1, R.depsOf e.1) := by
    intro e he
    have hfind : R.get e.1 = some e.2 := lookup_of_mem R.nodup he
    obtain ⟨order, runtime, horder, hruntime, hall⟩ := hnamed _ _ hfind
    have hnone : (sortedSet (order ++ runtime)).find? (fun m => !R.has m) = none := by
      rw [List.find?_eq_none]
      intro m hm
      simpa using hall m (mem_sortedSet.mp hm)
    simp only [Recipes.checkDeps, horder, hruntime, bind, Except.bind, hnone, pure, Except.pure,
      Recipes.depsOf_eq hfind horder]
  have hmapM : ∀ l : List (Name × Recipe), (∀ e ∈ l, e ∈ R.items) →
      (l.mapM fun e => do let order ← R.checkDeps e.1 e.2; pure (e.1, order) : Except Stop _) =
        .ok (l.map fun e => (e.1, R.depsOf e.1)) := by
    intro l
    induction l with
    | nil => intro _; rfl
    | cons e l ih =>
        intro hl
        rw [List.mapM_cons, hone e (hl e List.mem_cons_self),
          ih fun f hf => hl f (List.mem_cons_of_mem _ hf)]
        rfl
  exact hmapM R.items fun _ he => he

/-- Every name of the list stands after its dependencies. -/
inductive Topological (R : Recipes) : List Name → Prop
  | nil : Topological R []
  | snoc {l : List Name} {n : Name} : Topological R l → n ∉ l → n ∈ R.keys →
      (∀ m ∈ R.depsOf n, m ∈ l) → Topological R (l ++ [n])

theorem Topological.nodup {R : Recipes} {l : List Name} (h : Topological R l) : l.Nodup := by
  induction h with
  | nil => exact List.nodup_nil
  | snoc _ hn _ _ ih =>
      rw [List.nodup_append]
      refine ⟨ih, List.nodup_singleton _, ?_⟩
      rintro a ha b hb rfl
      rw [List.mem_singleton] at hb
      exact hn (hb ▸ ha)

theorem Topological.subset {R : Recipes} {l : List Name} (h : Topological R l) :
    ∀ n ∈ l, n ∈ R.keys := by
  induction h with
  | nil => simp
  | snoc _ _ hn _ ih =>
      intro m hm
      rcases List.mem_append.mp hm with hm | hm
      · exact ih m hm
      · rw [List.mem_singleton.mp hm]
        exact hn

theorem Topological.append {R : Recipes} {l ns : List Name} (hl : Topological R l)
    (hnodup : ns.Nodup) (hnames : ∀ n ∈ ns, n ∈ R.keys) (hnew : ∀ n ∈ ns, n ∉ l)
    (hdeps : ∀ n ∈ ns, ∀ m ∈ R.depsOf n, m ∈ l) : Topological R (l ++ ns) := by
  induction ns generalizing l with
  | nil => simpa using hl
  | cons n ns ih =>
      rw [List.nodup_cons] at hnodup
      have hstep : Topological R (l ++ [n]) :=
        hl.snoc (hnew n List.mem_cons_self) (hnames n List.mem_cons_self)
          (hdeps n List.mem_cons_self)
      rw [List.append_cons]
      refine ih hstep hnodup.2 (fun m hm => hnames m (List.mem_cons_of_mem _ hm)) ?_ ?_
      · intro m hm hmem
        rcases List.mem_append.mp hmem with hmem | hmem
        · exact hnew m (List.mem_cons_of_mem _ hm) hmem
        · exact hnodup.1 (List.mem_singleton.mp hmem ▸ hm)
      · intro m hm d hd
        exact List.mem_append_left _ (hdeps m (List.mem_cons_of_mem _ hm) d hd)

theorem Recipes.mem_ready (R : Recipes) (n : Name) (done : List Name) :
    n ∈ ready R.table done ↔ n ∈ R.keys ∧ n ∉ done ∧ ∀ m ∈ R.depsOf n, m ∈ done := by
  simp only [ready, sortedNames, List.mem_insertionSort, List.mem_map, List.mem_filter,
    Recipes.table, Dict.keys, decide_eq_true_eq]
  constructor
  · rintro ⟨-, ⟨⟨e, he, rfl⟩, hnew, hdeps⟩, rfl⟩
    exact ⟨⟨e, he, rfl⟩, hnew, hdeps⟩
  · rintro ⟨⟨e, he, rfl⟩, hnew, hdeps⟩
    exact ⟨_, ⟨⟨e, he, rfl⟩, hnew, hdeps⟩, rfl⟩

theorem Recipes.ready_nodup (R : Recipes) (done : List Name) : (ready R.table done).Nodup := by
  refine (List.perm_insertionSort _ _).nodup_iff.mpr ?_
  have hsub := (List.filter_sublist (l := R.table)
    (p := fun e => decide (e.1 ∉ done ∧ ∀ m ∈ e.2, m ∈ done))).map Prod.fst
  refine hsub.nodup ?_
  simpa [Recipes.table, List.map_map, Function.comp_def] using R.nodup

theorem Recipes.Named.mem_names {R : Recipes} (hnamed : R.Named) {n m : Name}
    (h : R.Edge n m) : m ∈ R.keys := by
  unfold Recipes.Edge at h
  cases hr : R.get n with
  | none => simp [Recipes.depsOf, hr] at h
  | some r =>
      obtain ⟨order, runtime, horder, -, hall⟩ := hnamed n r hr
      rw [Recipes.depsOf_eq hr horder] at h
      exact Dict.has_iff.mp (hall m (List.mem_append_left _ h))

/-- While a name is left, one of those left is ready. -/
theorem Recipes.exists_ready {R : Recipes} (hnamed : R.Named) (hacyclic : R.Acyclic)
    {done : List Name} (hleft : ∃ n ∈ R.keys, n ∉ done) : ∃ n, n ∈ ready R.table done := by
  let below : {n // n ∈ R.keys} → {n // n ∈ R.keys} → Prop :=
    fun m n => Relation.TransGen R.Edge n.1 m.1
  have htrans : IsTrans _ below := ⟨fun a b c hab hbc => hbc.trans hab⟩
  have hirrefl : Std.Irrefl below := ⟨fun a => hacyclic a.1⟩
  have hfinite : Finite {n // n ∈ R.keys} := List.finite_toSet R.keys
  have hwf : WellFounded below := Finite.wellFounded_of_trans_of_irrefl below
  obtain ⟨n, hn, hnew⟩ := hleft
  obtain ⟨⟨k, hk⟩, hknew, hmin⟩ := hwf.has_min {a | a.1 ∉ done} ⟨⟨n, hn⟩, hnew⟩
  refine ⟨k, (R.mem_ready k done).mpr ⟨hk, hknew, ?_⟩⟩
  intro m hm
  by_contra hmnew
  exact hmin ⟨m, hnamed.mem_names hm⟩ hmnew (Relation.TransGen.single hm)

theorem Recipes.exists_left {R : Recipes} {done : List Name}
    (hshort : done.length < R.keys.length) : ∃ n ∈ R.keys, n ∉ done := by
  by_contra hnone
  push Not at hnone
  have hle := (List.Nodup.subperm (R.nodup) hnone).length_le
  exact absurd hle (by simpa [Dict.keys] using hshort)

theorem Recipes.rounds_topological {R : Recipes} (hnamed : R.Named) (hacyclic : R.Acyclic)
    (fuel : ℕ) {done : List Name} (hdone : Topological R done)
    (hfuel : R.keys.length ≤ done.length + fuel) :
    ∃ ordered, rounds R.table fuel done = .ok ordered ∧ Topological R ordered ∧
      R.keys.length ≤ ordered.length := by
  have htable : R.table.length = R.keys.length := by simp [Recipes.table, Dict.keys]
  induction fuel generalizing done with
  | zero => exact ⟨done, rfl, hdone, hfuel⟩
  | succ fuel ih =>
      rw [rounds, htable]
      by_cases hshort : done.length < R.keys.length
      · rw [if_pos hshort]
        obtain ⟨k, hk⟩ := Recipes.exists_ready hnamed hacyclic (Recipes.exists_left hshort)
        have hnodup := R.ready_nodup done
        have hspec := fun n => R.mem_ready n done
        cases hready : ready R.table done with
        | nil => simp [hready] at hk
        | cons n ns =>
            rw [hready] at hnodup hspec
            refine ih (hdone.append hnodup (fun m hm => ((hspec m).mp hm).1)
              (fun m hm => ((hspec m).mp hm).2.1) fun m hm => ((hspec m).mp hm).2.2) ?_
            simp only [List.length_append, List.length_cons]
            omega
      · rw [if_neg hshort]
        exact ⟨done, rfl, hdone, not_lt.mp hshort⟩

/-- Every package of an acyclic set is ordered, after its dependencies. -/
theorem Recipes.topoOrder_topological {R : Recipes} (hnamed : R.Named) (hacyclic : R.Acyclic) :
    ∃ ordered, R.topoOrder = .ok ordered ∧ Topological R ordered ∧
      ∀ n, n ∈ ordered ↔ n ∈ R.keys := by
  obtain ⟨ordered, hrounds, htop, hlength⟩ :=
    Recipes.rounds_topological hnamed hacyclic R.table.length Topological.nil
      (by simp [Recipes.table, Dict.keys])
  refine ⟨ordered, ?_, htop, fun n => ⟨htop.subset n, fun hn => ?_⟩⟩
  · simp only [Recipes.topoOrder, Recipes.depsTable_eq hnamed, bind, Except.bind]
    exact hrounds
  · have hperm : List.Perm ordered R.keys :=
      (List.Nodup.subperm htop.nodup htop.subset).perm_of_length_le hlength
    exact hperm.mem_iff.mpr hn

end Veron.Driver
