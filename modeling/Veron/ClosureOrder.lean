/-
`order` is right: the components are taken after those they need, and none is left, so
every package stands once and after what it depends on outside its own component.
-/
import Mathlib.Data.Finset.Max
import Veron.ClosureScc

namespace Veron.Closure

variable {α : Type*}

/-- `d` stands before `p`. -/
def Precedes (l : List α) (d p : α) : Prop := ∃ front back, l = front ++ p :: back ∧ d ∈ front

/-- Every number stands after those it needs. -/
inductive AfterNeeds (need : ℕ → Finset ℕ) : List ℕ → Prop
  | nil : AfterNeeds need []
  | snoc {l : List ℕ} {i : ℕ} : AfterNeeds need l → (∀ j ∈ need i, j ∈ l) →
      AfterNeeds need (l ++ [i])

namespace AfterNeeds

variable {need : ℕ → Finset ℕ} {l : List ℕ} {i j : ℕ}

theorem precedes (h : AfterNeeds need l) (hi : i ∈ l) (hj : j ∈ need i) : Precedes l j i := by
  induction h with
  | nil => cases hi
  | @snoc l k _ hneeds ih =>
      rcases List.mem_append.mp hi with hi | hi
      · obtain ⟨front, back, rfl, hfront⟩ := ih hi
        exact ⟨front, back ++ [k], by simp, hfront⟩
      · obtain rfl := List.mem_singleton.mp hi
        exact ⟨l, [], rfl, hneeds j hj⟩

/-- A whole layer is put behind. -/
theorem append (h : AfterNeeds need l) {next : List ℕ}
    (hnext : ∀ i ∈ next, ∀ j ∈ need i, j ∈ l) : AfterNeeds need (l ++ next) := by
  induction next using List.reverseRecOn with
  | nil =>
      rw [List.append_nil]
      exact h
  | append_singleton next k ih =>
      rw [← List.append_assoc]
      refine (ih fun i hi => hnext i (List.mem_append_left _ hi)).snoc fun j hj => ?_
      exact List.mem_append_left _ (hnext k (by simp) j hj)

end AfterNeeds

section Layers

variable [LinearOrder α] {comps : List (List α)} {need : ℕ → Finset ℕ} {n : ℕ}

/-- Where each number needs smaller ones only, something is ready until nothing is left. -/
theorem ready_ne_nil (hneed : ∀ i, ∀ j ∈ need i, j < i) {taken remaining : List ℕ}
    (hperm : (taken ++ remaining).Perm (List.range n)) (hne : remaining ≠ []) :
    ready comps need taken.toFinset remaining ≠ [] := by
  obtain ⟨k, hk⟩ := List.exists_mem_of_ne_nil _ hne
  obtain ⟨i, hi, hmin⟩ :=
    Finset.exists_min_image remaining.toFinset id ⟨k, List.mem_toFinset.mpr hk⟩
  rw [List.mem_toFinset] at hi
  have hlt : i < n := List.mem_range.mp (hperm.mem_iff.mp (List.mem_append_right _ hi))
  refine List.ne_nil_of_mem (mem_ready.mpr ⟨hi, fun j hj => ?_⟩)
  have hsmall := hneed i j hj
  have hmem : j ∈ taken ++ remaining := hperm.mem_iff.mpr (List.mem_range.mpr (by omega))
  rcases List.mem_append.mp hmem with hmem | hmem
  · exact List.mem_toFinset.mpr hmem
  · exact absurd hsmall (Nat.not_lt.mpr (hmin j (List.mem_toFinset.mpr hmem)))

/-- One round takes the components ready from those remaining. -/
theorem popAll_perm {taken remaining : List ℕ}
    (hperm : (taken ++ remaining).Perm (List.range n)) :
    ((taken ++ ready comps need taken.toFinset remaining) ++
      popAll remaining (ready comps need taken.toFinset remaining)).Perm (List.range n) := by
  have hnodup := (List.nodup_append'.mp (hperm.nodup_iff.mpr List.nodup_range)).2.1
  refine List.Perm.trans ?_ hperm
  rw [List.append_assoc]
  refine List.Perm.append_left taken ?_
  have hpop : popAll remaining (ready comps need taken.toFinset remaining) =
      remaining.filter fun i => !decide (need i ⊆ taken.toFinset) := by
    refine List.filter_congr fun i hi => ?_
    simp [mem_ready, hi]
  rw [hpop]
  exact ((List.mergeSort_perm _ _).append_right _).trans (List.filter_append_perm _ remaining)

/-- The `while` loop takes every component once, after those it needs. -/
theorem layers_spec (hneed : ∀ i, ∀ j ∈ need i, j < i) (taken remaining : List ℕ)
    (hperm : (taken ++ remaining).Perm (List.range n)) (htaken : AfterNeeds need taken) :
    ∃ all, layers comps need taken.toFinset (taken.flatMap (component comps)) remaining =
      all.flatMap (component comps) ∧ all.Perm (List.range n) ∧ AfterNeeds need all := by
  rw [layers]
  by_cases hnext : ready comps need taken.toFinset remaining = []
  · rw [dif_pos hnext]
    obtain rfl : remaining = [] := by
      by_contra hne
      exact ready_ne_nil hneed hperm hne hnext
    rw [List.append_nil] at hperm
    exact ⟨taken, rfl, hperm, htaken⟩
  · rw [dif_neg hnext, ← List.toFinset_append, ← List.flatMap_append]
    refine layers_spec hneed _ _ (popAll_perm hperm) (htaken.append fun i hi j hj => ?_)
    exact List.mem_toFinset.mp ((mem_ready.mp hi).2 hj)
termination_by remaining.length
decreasing_by exact length_popAll hnext fun i hi => (mem_ready.mp hi).1

end Layers

/-- The components as `sccs` is to list them: each node in one, those it reaches and is
reached from beside it. -/
structure Components (nodes : Finset α) (edges : α → List α) (comps : List (List α)) : Prop where
  nodup : comps.flatten.Nodup
  mem : ∀ p, p ∈ comps.flatten ↔ p ∈ nodes
  ne_nil : ∀ C ∈ comps, C ≠ []
  classes : ∀ C ∈ comps, ∀ u ∈ C, ∀ w, w ∈ C ↔ Mutual (Edge nodes edges) u w

/-- What `order` is to return: each node once, behind its dependencies in other components,
and the components of more than one node. -/
structure Ordered (nodes : Finset α) (edges : α → List α) (comps : List (List α))
    (ordered : List α) (cyclic : List (List α)) : Prop where
  nodup : ordered.Nodup
  mem : ∀ p, p ∈ ordered ↔ p ∈ nodes
  deps : ∀ p d, Edge nodes edges p d → ¬ Mutual (Edge nodes edges) p d → Precedes ordered d p
  cyclic : ∀ C, C ∈ cyclic ↔ C ∈ comps ∧ 1 < C.length

section Taken

variable {comps : List (List α)}

theorem component_eq {i : ℕ} {C : List α} (hC : comps[i]? = some C) : component comps i = C := by
  rw [component, List.getD_eq_getElem?_getD, hC, Option.getD_some]

theorem flatMap_component :
    (List.range comps.length).flatMap (component comps) = comps.flatten := by
  rw [List.flatMap_def]
  congr 1
  refine List.ext_getElem (by simp) fun i _ hi => ?_
  rw [List.getElem_map, List.getElem_range]
  exact component_eq (List.getElem?_eq_getElem hi)

/-- Whole components taken one after another keep the order of the components. -/
theorem precedes_flatMap {all : List ℕ} {i j : ℕ} {p d : α} (h : Precedes all j i)
    (hp : p ∈ component comps i) (hd : d ∈ component comps j) :
    Precedes (all.flatMap (component comps)) d p := by
  obtain ⟨front, back, rfl, hj⟩ := h
  obtain ⟨before, behind, hsplit⟩ := List.append_of_mem hp
  refine ⟨front.flatMap (component comps) ++ before,
    behind ++ back.flatMap (component comps), ?_, ?_⟩
  · rw [List.flatMap_append, List.flatMap_cons, hsplit]
    simp
  · exact List.mem_append_left _ (List.mem_flatMap.mpr ⟨j, hj, hd⟩)

end Taken

section Order

variable [LinearOrder α] {nodes : Finset α} {edges : α → List α} {comps : List (List α)}

theorem member_eq_some (h : Condensed (Edge nodes edges) comps) {p : α} {i : ℕ} :
    member comps p = some i ↔ ∃ C, comps[i]? = some C ∧ p ∈ C := by
  have hsound : ∀ {j}, member comps p = some j → ∃ C, comps[j]? = some C ∧ p ∈ C := by
    intro j hj
    obtain ⟨⟨C, k⟩, hfind, rfl⟩ := Option.map_eq_some_iff.mp hj
    have hmem := List.mem_reverse.mp (List.mem_of_find?_eq_some hfind)
    exact ⟨C, List.mem_zipIdx_iff_getElem?.mp hmem, by simpa using List.find?_some hfind⟩
  refine ⟨hsound, fun ⟨C, hC, hp⟩ => ?_⟩
  have hsome : (member comps p).isSome := by
    rw [member, Option.isSome_map, List.find?_isSome]
    exact ⟨(C, i), List.mem_reverse.mpr (List.mem_zipIdx_iff_getElem?.mpr hC), by simpa using hp⟩
  obtain ⟨j, hj⟩ := Option.isSome_iff_exists.mp hsome
  obtain ⟨D, hD, hpD⟩ := hsound hj
  rw [hj, h.unique hD hC hpD hp]

theorem mem_cedges {i j : ℕ} : j ∈ cedges nodes edges comps i ↔
    j ≠ i ∧ ∃ p ∈ nodes, member comps p = some i ∧ ∃ d ∈ edges p, member comps d = some j := by
  simp only [cedges, Finset.mem_erase, Finset.mem_biUnion, Finset.mem_filter, List.mem_toFinset,
    List.mem_filterMap, and_assoc]

/-- A component needs only those listed before it. -/
theorem cedges_lt (h : Condensed (Edge nodes edges) comps)
    (hmem : ∀ p, p ∈ comps.flatten ↔ p ∈ nodes) (i : ℕ) :
    ∀ j ∈ cedges nodes edges comps i, j < i := by
  intro j hj
  obtain ⟨hne, p, hp, hi, d, hd, hdj⟩ := mem_cedges.mp hj
  obtain ⟨B, hB, hpB⟩ := (member_eq_some h).mp hi
  obtain ⟨C, hC, hdC⟩ := (member_eq_some h).mp hdj
  have hnode : d ∈ nodes :=
    (hmem d).mp (List.mem_flatten.mpr ⟨C, List.mem_of_getElem? hC, hdC⟩)
  exact lt_of_le_of_ne (h.le_of_edge hB hC hpB hdC ⟨hp, hd, hnode⟩) hne

theorem components_of_sccs {frames : ℕ} (h : sccs frames nodes edges = some comps) :
    Components nodes edges comps := by
  obtain ⟨hcond, hmem⟩ := sccs_condensed h
  exact ⟨hcond.nodup, hmem, hcond.ne_nil, fun C hC u hu w => hcond.mem_iff hC hu⟩

theorem ordered_of_order {frames : ℕ} {ordered : List α} {cyclic : List (List α)}
    (h : order frames nodes edges = some (ordered, cyclic)) :
    ∃ comps, sccs (frames + 1) nodes edges = some comps ∧
      Ordered nodes edges comps ordered cyclic := by
  obtain ⟨comps, hsccs, hresult⟩ := Option.bind_eq_some_iff.mp h
  obtain ⟨hordered, rfl⟩ := Prod.mk.inj (Option.some.inj hresult)
  obtain ⟨hcond, hmem⟩ := sccs_condensed hsccs
  obtain ⟨all, hall, hperm, hafter⟩ :=
    @layers_spec _ _ comps _ comps.length (cedges_lt hcond hmem) [] (List.range comps.length)
      (by simp) .nil
  obtain rfl : all.flatMap (component comps) = ordered := hall.symm.trans hordered
  have hflat : (all.flatMap (component comps)).Perm comps.flatten := by
    rw [← flatMap_component]
    exact hperm.flatMap_right _
  refine ⟨comps, hsccs, hflat.nodup_iff.mpr hcond.nodup, fun p => hflat.mem_iff.trans (hmem p),
    fun p d hedge hmutual => ?deps, fun C => ?cyclic⟩
  case deps =>
    obtain ⟨B, hB, hpB⟩ := List.mem_flatten.mp ((hmem p).mpr hedge.1)
    obtain ⟨C, hC, hdC⟩ := List.mem_flatten.mp ((hmem d).mpr hedge.2.2)
    obtain ⟨i, hi⟩ := List.mem_iff_getElem?.mp hB
    obtain ⟨j, hj⟩ := List.mem_iff_getElem?.mp hC
    have hne : j ≠ i := by
      rintro rfl
      obtain rfl : C = B := Option.some.inj (hj.symm.trans hi)
      exact hmutual ((hcond.mem_iff hC hpB).mp hdC)
    have hneed : j ∈ cedges nodes edges comps i :=
      mem_cedges.mpr ⟨hne, p, hedge.1, (member_eq_some hcond).mpr ⟨B, hi, hpB⟩, d, hedge.2.1,
        (member_eq_some hcond).mpr ⟨C, hj, hdC⟩⟩
    have htaken : i ∈ all :=
      hperm.mem_iff.mpr (List.mem_range.mpr (List.getElem?_eq_some_iff.mp hi).1)
    refine precedes_flatMap (hafter.precedes htaken hneed) ?_ ?_
    · rw [component_eq hi]
      exact hpB
    · rw [component_eq hj]
      exact hdC
  case cyclic => simp

/-- `sccs` and `order` return wherever the recursion limit leaves a call for each node, and
what they return is right. -/
theorem closure_correct (frames : ℕ) (nodes : Finset α) (edges : α → List α) :
    (frames + nodes.card < recursionLimit →
      (sccs (frames + 1) nodes edges).isSome ∧ (order frames nodes edges).isSome) ∧
    (∀ comps, sccs frames nodes edges = some comps → Components nodes edges comps) ∧
    ∀ ordered cyclic, order frames nodes edges = some (ordered, cyclic) →
      ∃ comps, sccs (frames + 1) nodes edges = some comps ∧
        Ordered nodes edges comps ordered cyclic := by
  refine ⟨fun hroom => ?_, fun _ => components_of_sccs, fun _ _ => ordered_of_order⟩
  have hsccs : (sccs (frames + 1) nodes edges).isSome := sccs_isSome (by omega)
  obtain ⟨comps, hcomps⟩ := Option.isSome_iff_exists.mp hsccs
  refine ⟨hsccs, ?_⟩
  rw [order, hcomps]
  rfl

end Order

/-- Two packages that need one another, a third that needs the first, and one outside. -/
def twoPass (p : ℕ) : List ℕ :=
  if p = 1 then [2] else if p = 2 then [1, 9] else if p = 3 then [1] else []

theorem closure_twoPass : ∃ comps ordered cyclic,
    sccs 4 ({1, 2, 3} : Finset ℕ) twoPass = some comps ∧
    order 3 ({1, 2, 3} : Finset ℕ) twoPass = some (ordered, cyclic) ∧
    Components {1, 2, 3} twoPass comps ∧ Ordered {1, 2, 3} twoPass comps ordered cyclic := by
  have hall := closure_correct 3 ({1, 2, 3} : Finset ℕ) twoPass
  obtain ⟨hsccs, horder⟩ := hall.1 (by decide)
  obtain ⟨⟨ordered, cyclic⟩, hresult⟩ := Option.isSome_iff_exists.mp horder
  obtain ⟨comps, hcomps, hordered⟩ := hall.2.2 ordered cyclic hresult
  exact ⟨comps, ordered, cyclic, hcomps, hresult,
    (closure_correct 4 ({1, 2, 3} : Finset ℕ) twoPass).2.1 comps hcomps, hordered⟩

/-- Each package depends on the next one. -/
def chain (i : ℕ) : List ℕ := [i + 1]

/-- A chain longer than the room there is for calls. -/
theorem strong_chain {n room i : ℕ} {s : Tarjan ℕ} (hlen : i + room < n)
    (hnew : ∀ j, i < j → ¬ s.Visited j) :
    strong (Finset.range n) chain room i s = none := by
  induction room generalizing i s with
  | zero => rfl
  | succ room ih =>
      have hnode : i + 1 ∈ Finset.range n := Finset.mem_range.mpr (by omega)
      have hunvisited : ∀ j, i < j → ¬ (s.enter i).Visited j := by
        intro j hj hvisited
        rcases visited_enter.mp hvisited with heq | hold
        · omega
        · exact hnew j hj hold
      have hnext : strong (Finset.range n) chain room (i + 1) (s.enter i) = none :=
        ih (by omega) fun j hj => hunvisited j (by omega)
      rw [strong, chain, List.foldlM_cons, look, if_neg (not_not.mpr hnode),
        if_pos (hunvisited (i + 1) (by omega)), hnext]
      rfl

theorem sccs_chain {n frames : ℕ} (hlen : recursionLimit < n + frames) (hn : 0 < n) :
    sccs frames (Finset.range n) chain = none := by
  obtain ⟨k, rfl⟩ := Nat.exists_eq_add_one.mpr hn
  have hroom : strong (Finset.range (k + 1)) chain (recursionLimit - frames) 0 {} = none :=
    strong_chain (by omega) fun _ _ => by simp [Tarjan.Visited]
  rw [sccs, Finset.sort_range, List.range_succ_eq_map, List.foldlM_cons, visit,
    if_neg (by simp [Tarjan.Visited]), hroom]
  rfl

/-- A chain of as many packages as the recursion limit: `sccs` raises `RecursionError`. -/
theorem chain_raises : ¬ ∃ comps, sccs 4 (Finset.range 10000) chain = some comps ∧
    Components (Finset.range 10000) chain comps := by
  rintro ⟨comps, hcomps, _⟩
  rw [sccs_chain (by decide) (by decide)] at hcomps
  cases hcomps

end Veron.Closure
