/-
Depth-first search over a graph that is met edge by edge: the nodes in the order in which they
are left, the nodes at which a cycle closed, and the notes taken on the way.
-/
import Mathlib.Data.List.Nodup
import Mathlib.Data.Set.Basic
import Mathlib.Logic.Relation
import Mathlib.Tactic.Common

namespace Veron.DepthFirst

variable {α ν : Type*}

/-- The stack has its top first; the nodes left are those of `order`. -/
structure State (α ν : Type*) where
  order : List α := []
  onstack : List α := []
  cycles : List α := []
  notes : List ν := []

/-- A node met for the first time goes on the stack. -/
def State.enter (note : α → List ν) (s : State α ν) (v : α) : State α ν :=
  { s with onstack := v :: s.onstack, notes := s.notes ++ note v }

/-- It is left when all that its edges lead to has been visited. -/
def State.leave [DecidableEq α] (s : State α ν) (v : α) : State α ν :=
  { s with onstack := s.onstack.erase v, order := s.order ++ [v] }

/-- One node, with room for so many calls inside one another. -/
def visit [DecidableEq α] (edges : α → List α) (note : α → List ν) :
    ℕ → State α ν → α → Option (State α ν)
  | 0, _, _ => none
  | room + 1, s, v =>
      if v ∈ s.order then some s
      else if v ∈ s.onstack then some { s with cycles := s.cycles ++ [v] }
      else ((edges v).foldlM (visit edges note room) (s.enter note v)).map (State.leave · v)

def search [DecidableEq α] (edges : α → List α) (note : α → List ν) (room : ℕ) (seeds : List α) :
    Option (State α ν) :=
  seeds.foldlM (visit edges note room) {}

/-- A path of edges from the first node to the second. -/
def Leads (edges : α → List α) : α → α → Prop := Relation.ReflTransGen fun p q => q ∈ edges p

def Reached (edges : α → List α) (seeds : List α) (p : α) : Prop :=
  ∃ s ∈ seeds, Leads edges s p

/-- A path from the first node to the second that comes by none of those given. -/
def Around (edges : α → List α) (stack : List α) (p q : α) : Prop :=
  p ∉ stack ∧ Relation.ReflTransGen (fun x y => y ∈ edges x ∧ y ∉ stack) p q

/-- The calls of a search: which nodes have been left, which are on the stack, and which is
visited.  Before an edge is followed, all that the edges in front of it lead to round the stack
has been left. -/
inductive Call (edges : α → List α) (seeds : List α) : Set α → List α → α → Prop
  | seed {front back : List α} {v : α} (hsplit : seeds = front ++ v :: back) :
      Call edges seeds {p | ∃ x ∈ front, Around edges [] x p} [] v
  | edge {done : Set α} {stack front back : List α} {v q : α}
      (hcall : Call edges seeds done stack v) (hdone : v ∉ done) (hstack : v ∉ stack)
      (hsplit : edges v = front ++ q :: back) :
      Call edges seeds {p | p ∈ done ∨ ∃ x ∈ front, Around edges (v :: stack) x p} (v :: stack) q

variable {edges : α → List α} {note : α → List ν} {seeds ps : List α} {s t u : State α ν}
  {p q v : α} {n : ν} {room : ℕ}

theorem Around.leads {stack : List α} (h : Around edges stack p q) : Leads edges p q :=
  Relation.ReflTransGen.mono (fun _ _ hstep => hstep.1) _ _ h.2

theorem Around.edge {stack : List α} (hv : v ∉ stack) (hq : q ∈ edges v)
    (h : Around edges (v :: stack) q p) : Around edges stack v p := by
  have hless : ∀ x, x ∉ v :: stack → x ∉ stack := fun x hx hmem =>
    hx (List.mem_cons_of_mem v hmem)
  exact ⟨hv, .head ⟨hq, hless q h.1⟩
    (Relation.ReflTransGen.mono (fun x y hstep => ⟨hstep.1, hless y hstep.2⟩) _ _ h.2)⟩

/-- What leads to the node at the top leads on along its edges. -/
theorem leads_edges {stack : List α} (hpath : ∀ p ∈ stack, Leads edges p v) :
    ∀ q ∈ edges v, ∀ p ∈ v :: stack, Leads edges p q := by
  intro q hq p hp
  rcases List.mem_cons.mp hp with rfl | hp
  · exact .single hq
  · exact (hpath p hp).tail hq

structure State.Inv (edges : α → List α) (note : α → List ν) (s : State α ν) : Prop where
  nodup : (s.order ++ s.onstack).Nodup
  after : ∀ p ∈ s.order, ∀ q ∈ edges p,
    [q, p].Sublist s.order ∨ q ∈ s.cycles ∧ q ∈ s.order ++ s.onstack ∧ Leads edges q p
  noted : ∀ n, n ∈ s.notes ↔ ∃ p ∈ s.order ++ s.onstack, n ∈ note p

/-- What the visits of some nodes, one after the other, make of a state. -/
structure Visits (edges : α → List α) (note : α → List ν) (s t : State α ν) (ps : List α) :
    Prop where
  inv : t.Inv edges note
  onstack : t.onstack = s.onstack
  order : s.order.Sublist t.order
  cycles : s.cycles ⊆ t.cycles
  met : ∀ p ∈ ps, p ∈ t.order ∨ p ∈ t.cycles ∧ p ∈ s.onstack
  found : ∀ p ∈ t.order, p ∈ s.order ∨ ∃ q ∈ ps, Around edges s.onstack q p

theorem State.Inv.init : State.Inv edges note {} :=
  ⟨List.nodup_nil, nofun, fun n => by simp⟩

theorem Visits.nil (hs : s.Inv edges note) : Visits edges note s s [] :=
  ⟨hs, rfl, List.Sublist.refl _, List.Subset.refl _, nofun, fun _ hp => .inl hp⟩

theorem Visits.trans {qs : List α} (hst : Visits edges note s t ps)
    (htu : Visits edges note t u qs) : Visits edges note s u (ps ++ qs) where
  inv := htu.inv
  onstack := htu.onstack.trans hst.onstack
  order := hst.order.trans htu.order
  cycles := fun _ hp => htu.cycles (hst.cycles hp)
  met := by
    intro p hp
    rcases List.mem_append.mp hp with hp | hp
    · rcases hst.met p hp with hdone | ⟨hcycle, hstack⟩
      · exact .inl (htu.order.subset hdone)
      · exact .inr ⟨htu.cycles hcycle, hstack⟩
    · rw [← hst.onstack]
      exact htu.met p hp
  found := by
    intro p hp
    rcases htu.found p hp with hp | ⟨q, hq, hpath⟩
    · exact (hst.found p hp).imp_right
        fun ⟨q, hq, hpath⟩ => ⟨q, List.mem_append_left _ hq, hpath⟩
    · exact .inr ⟨q, List.mem_append_right _ hq, hst.onstack ▸ hpath⟩

/-- What has been left is what had been, and what the nodes visited lead to round the stack. -/
theorem Visits.mem_order (h : Visits edges note s t ps) (p : α) :
    p ∈ t.order ↔ p ∈ s.order ∨ ∃ q ∈ ps, Around edges s.onstack q p := by
  constructor
  · exact h.found p
  · rintro (hp | ⟨q, hq, hfree, hpath⟩)
    · exact h.order.subset hp
    · induction hpath with
      | refl => exact (h.met q hq).resolve_right fun hon => hfree hon.2
      | @tail x y _ hstep ih =>
          rcases h.inv.after x ih y hstep.1 with hbefore | ⟨_, hmet, _⟩
          · exact hbefore.subset List.mem_cons_self
          · rw [List.mem_append, h.onstack] at hmet
            exact hmet.resolve_right hstep.2

theorem State.Inv.enter (hs : s.Inv edges note) (hdone : v ∉ s.order) (hstack : v ∉ s.onstack) :
    (s.enter note v).Inv edges note where
  nodup := by
    have hfresh : v ∉ s.order ++ s.onstack := by simp [hdone, hstack]
    exact List.nodup_middle.mpr (List.nodup_cons.mpr ⟨hfresh, hs.nodup⟩)
  after := by
    intro p hp q hq
    refine (hs.after p hp q hq).imp_right fun ⟨hcycle, hmet, hpath⟩ => ⟨hcycle, ?_, hpath⟩
    rcases List.mem_append.mp hmet with hmet | hmet
    · exact List.mem_append_left _ hmet
    · exact List.mem_append_right _ (List.mem_cons_of_mem v hmet)
  noted := by
    intro n
    rw [State.enter, List.mem_append, hs.noted n]
    simp only [List.mem_append, List.mem_cons]
    constructor
    · rintro (⟨p, hp, hn⟩ | hn)
      · exact ⟨p, hp.imp_right .inr, hn⟩
      · exact ⟨v, .inr (.inl rfl), hn⟩
    · rintro ⟨p, hp | rfl | hp, hn⟩
      · exact .inl ⟨p, .inl hp, hn⟩
      · exact .inr hn
      · exact .inl ⟨p, .inr hp, hn⟩

variable [DecidableEq α]

/-- The node at the top is left. -/
theorem Visits.leave (hfree : v ∉ s.onstack) (hpath : ∀ p ∈ s.onstack, Leads edges p v)
    (hvisits : Visits edges note (s.enter note v) t (edges v)) :
    Visits edges note s (t.leave v) [v] := by
  have hstack' : t.onstack = v :: s.onstack := hvisits.onstack
  have herase : t.onstack.erase v = s.onstack := by rw [hstack', List.erase_cons_head]
  have hperm : ∀ p, p ∈ t.order ++ [v] ++ s.onstack ↔ p ∈ t.order ++ t.onstack := by
    intro p
    rw [hstack', List.append_assoc, List.singleton_append]
  refine ⟨⟨?_, ?_, ?_⟩, herase, hvisits.order.trans (List.sublist_append_left _ _),
    hvisits.cycles, ?_, ?_⟩
  · change (t.order ++ [v] ++ t.onstack.erase v).Nodup
    rw [herase, List.append_assoc, List.singleton_append, ← hstack']
    exact hvisits.inv.nodup
  · intro p hp q hq
    change [q, p].Sublist (t.order ++ [v]) ∨
      q ∈ t.cycles ∧ q ∈ t.order ++ [v] ++ t.onstack.erase v ∧ Leads edges q p
    rw [herase, hperm]
    rcases List.mem_append.mp hp with hp | hp
    · exact (hvisits.inv.after p hp q hq).imp_left
        fun h => h.trans (List.sublist_append_left _ _)
    · cases List.mem_singleton.mp hp
      rcases hvisits.met q hq with hleft | ⟨hcycle, hon⟩
      · exact .inl ((List.singleton_sublist.mpr hleft).append (List.Sublist.refl [v]))
      · refine .inr ⟨hcycle, List.mem_append_right _ (hvisits.onstack ▸ hon), ?_⟩
        rcases List.mem_cons.mp hon with rfl | hon
        · exact .refl
        · exact hpath q hon
  · intro n
    change n ∈ t.notes ↔ ∃ p ∈ t.order ++ [v] ++ t.onstack.erase v, n ∈ note p
    simp only [herase, hperm, hvisits.inv.noted n]
  · intro p hp
    cases List.mem_singleton.mp hp
    exact .inl (List.mem_append_right _ (List.mem_singleton.mpr rfl))
  · intro p hp
    rcases List.mem_append.mp hp with hp | hp
    · refine (hvisits.found p hp).imp_right fun ⟨q, hq, hlead⟩ => ?_
      exact ⟨v, List.mem_singleton.mpr rfl, hlead.edge hfree hq⟩
    · cases List.mem_singleton.mp hp
      exact .inr ⟨v, List.mem_singleton.mpr rfl, hfree, .refl⟩

/-- Where one visit does what it should, so do several. -/
theorem visits_foldlM (hvisit : ∀ s t q, State.Inv edges note s →
      (∀ p ∈ s.onstack, Leads edges p q) → visit edges note room s q = some t →
      Visits edges note s t [q])
    (hs : s.Inv edges note) (hpath : ∀ q ∈ ps, ∀ p ∈ s.onstack, Leads edges p q)
    (h : ps.foldlM (visit edges note room) s = some t) : Visits edges note s t ps := by
  induction ps generalizing s with
  | nil =>
      cases h
      exact .nil hs
  | cons q ps ih =>
      rw [List.foldlM_cons] at h
      obtain ⟨u, hu, h⟩ := Option.bind_eq_some_iff.mp h
      have hfirst := hvisit s u q hs (hpath q List.mem_cons_self) hu
      refine hfirst.trans (ih hfirst.inv ?_ h)
      rw [hfirst.onstack]
      exact fun q hq => hpath q (List.mem_cons_of_mem _ hq)

/-- By induction on the room: what lies deeper has less of it. -/
theorem visits_visit (hs : s.Inv edges note) (hpath : ∀ p ∈ s.onstack, Leads edges p v)
    (h : visit edges note room s v = some t) : Visits edges note s t [v] := by
  induction room generalizing s t v with
  | zero => cases h
  | succ room ih =>
      rw [visit] at h
      split_ifs at h with hdone hstack
      · cases h
        refine ⟨hs, rfl, List.Sublist.refl _, List.Subset.refl _, ?_, fun _ hp => .inl hp⟩
        intro p hp
        cases List.mem_singleton.mp hp
        exact .inl hdone
      · cases h
        refine ⟨⟨hs.nodup, ?_, hs.noted⟩, rfl, List.Sublist.refl _,
          List.subset_append_left _ _, ?_, fun _ hp => .inl hp⟩
        · intro p hp q hq
          exact (hs.after p hp q hq).imp_right
            fun hback => ⟨List.mem_append_left _ hback.1, hback.2⟩
        · intro p hp
          cases List.mem_singleton.mp hp
          exact .inr ⟨List.mem_append_right _ (List.mem_singleton.mpr rfl), hstack⟩
      · obtain ⟨u, hu, rfl⟩ := Option.map_eq_some_iff.mp h
        refine .leave hstack hpath (visits_foldlM (fun s t q hs hpath => ih hs hpath)
          (hs.enter hdone hstack) ?_ hu)
        exact leads_edges hpath

/-- The first nodes have been visited, and there is room for a visit of each further one. -/
theorem foldlM_isSome {front : List α} (hfront : Visits edges note s t front)
    (hpath : ∀ q ∈ ps, ∀ p ∈ s.onstack, Leads edges p q)
    (hvisit : ∀ before q back, front ++ ps = before ++ q :: back →
      ∀ u, Visits edges note s u before → (visit edges note room u q).isSome) :
    (ps.foldlM (visit edges note room) t).isSome := by
  induction ps generalizing t front with
  | nil => rfl
  | cons q ps ih =>
      obtain ⟨u, hu⟩ := Option.isSome_iff_exists.mp (hvisit front q ps rfl t hfront)
      have hlead := hpath q List.mem_cons_self
      rw [← hfront.onstack] at hlead
      have hnext := hfront.trans (visits_visit hfront.inv hlead hu)
      rw [List.foldlM_cons, hu]
      refine ih hnext (fun q hq => hpath q (List.mem_cons_of_mem _ hq)) fun before r back h => ?_
      exact hvisit before r back (by rw [← h, List.append_assoc, List.singleton_append])

theorem isSome_of_foldlM {front back : List α}
    (h : ((front ++ q :: back).foldlM (visit edges note room) s).isSome) :
    ∃ t, front.foldlM (visit edges note room) s = some t ∧
      (visit edges note room t q).isSome := by
  obtain ⟨w, hw⟩ := Option.isSome_iff_exists.mp h
  rw [List.foldlM_append] at hw
  obtain ⟨t, ht, hw⟩ := Option.bind_eq_some_iff.mp hw
  rw [List.foldlM_cons] at hw
  obtain ⟨u, hu, _⟩ := Option.bind_eq_some_iff.mp hw
  exact ⟨t, ht, by rw [hu]; rfl⟩

theorem visit_isSome (hs : s.Inv edges note) (hpath : ∀ p ∈ s.onstack, Leads edges p v)
    (hcall : Call edges seeds {p | p ∈ s.order} s.onstack v)
    (hroom : ∀ {done stack q}, Call edges seeds done stack q →
      stack.length < s.onstack.length + room) :
    (visit edges note room s v).isSome := by
  induction room generalizing s v with
  | zero => exact absurd (hroom hcall) (Nat.lt_irrefl _)
  | succ room ih =>
      rw [visit]
      split_ifs with hdone hstack
      · rfl
      · rfl
      rw [Option.isSome_map]
      refine foldlM_isSome (.nil (hs.enter hdone hstack)) (leads_edges hpath) ?_
      intro before q back hsplit u hu
      have hleft : {p | p ∈ u.order} =
          {p | p ∈ s.order ∨ ∃ x ∈ before, Around edges (v :: s.onstack) x p} :=
        Set.ext hu.mem_order
      have hq : q ∈ edges v := by
        rw [show edges v = before ++ q :: back from hsplit]
        simp
      have hon : u.onstack = v :: s.onstack := hu.onstack
      refine ih hu.inv (hon ▸ leads_edges hpath q hq) ?_ fun hcall' => ?_
      · rw [hleft, hon]
        exact hcall.edge hdone hstack hsplit
      · have hlong := hroom hcall'
        rw [hon, List.length_cons]
        omega

theorem search_visits (h : search edges note room seeds = some t) :
    Visits edges note {} t seeds :=
  visits_foldlM (fun _ _ _ => visits_visit) .init (fun _ _ _ hp => nomatch hp) h

/-- What a search that comes to its end has found. -/
structure Found (edges : α → List α) (note : α → List ν) (seeds : List α) (t : State α ν) :
    Prop where
  nodup : t.order.Nodup
  reached : ∀ p, p ∈ t.order ↔ Reached edges seeds p
  after : ∀ p ∈ t.order, ∀ q ∈ edges p,
    [q, p].Sublist t.order ∨ q ∈ t.cycles ∧ Leads edges q p
  noted : ∀ n, n ∈ t.notes ↔ ∃ p, Reached edges seeds p ∧ n ∈ note p

theorem search_found (h : search edges note room seeds = some t) :
    Found edges note seeds t := by
  have hvisits := search_visits h
  have hempty : t.order ++ t.onstack = t.order := by rw [hvisits.onstack, List.append_nil]
  have hinv := hvisits.inv
  have hclosed : ∀ p ∈ t.order, ∀ q ∈ edges p, q ∈ t.order := by
    intro p hp q hq
    rcases hinv.after p hp q hq with hbefore | ⟨_, hmet, _⟩
    · exact hbefore.subset List.mem_cons_self
    · exact hempty ▸ hmet
  have hreached : ∀ p, p ∈ t.order ↔ Reached edges seeds p := by
    intro p
    constructor
    · intro hp
      obtain ⟨q, hq, hpath⟩ := (hvisits.found p hp).resolve_left nofun
      exact ⟨q, hq, hpath.leads⟩
    · rintro ⟨s, hs, hpath⟩
      induction hpath with
      | refl => exact (hvisits.met s hs).resolve_right fun hon => nomatch hon.2
      | tail _ hq ih => exact hclosed _ ih _ hq
  refine ⟨hempty ▸ hinv.nodup, hreached, ?_, ?_⟩
  · intro p hp q hq
    exact (hinv.after p hp q hq).imp_right fun hback => ⟨hback.1, hback.2.2⟩
  · intro n
    simp only [hinv.noted n, hempty, hreached]

/-- A search comes to its end where each of its calls has room. -/
theorem search_isSome_iff : (search edges note room seeds).isSome ↔
    ∀ {done stack v}, Call edges seeds done stack v → stack.length < room := by
  constructor
  · intro h
    -- Each call is made in some state, and comes to its end.
    have hmade : ∀ {done stack v}, Call edges seeds done stack v → ∃ s k,
        State.Inv edges note s ∧ s.onstack = stack ∧ {p | p ∈ s.order} = done ∧
        (∀ p ∈ stack, Leads edges p v) ∧ k + stack.length = room ∧
        (visit edges note k s v).isSome := by
      intro done stack v hcall
      induction hcall with
      | @seed front back v hsplit =>
          rw [search, hsplit] at h
          obtain ⟨t, ht, hv⟩ := isSome_of_foldlM h
          have hvisits := visits_foldlM (fun _ _ _ => visits_visit) .init
            (fun _ _ _ hp => nomatch hp) ht
          refine ⟨t, room, hvisits.inv, hvisits.onstack, Set.ext fun p => ?_, nofun, rfl, hv⟩
          exact (hvisits.mem_order p).trans (or_iff_right List.not_mem_nil)
      | @edge done stack front back v q _ hdone hstack hsplit ih =>
          obtain ⟨s, k, hs, rfl, rfl, hpath, hk, hv⟩ := ih
          replace hdone : v ∉ s.order := hdone
          cases k with
          | zero => cases hv
          | succ k =>
              rw [visit, if_neg hdone, if_neg hstack, Option.isSome_map, hsplit] at hv
              obtain ⟨t, ht, hq⟩ := isSome_of_foldlM hv
              have hlead := leads_edges hpath
              have hvisits := visits_foldlM (fun _ _ _ => visits_visit)
                (hs.enter hdone hstack) (fun x hx => hlead x (by rw [hsplit]; simp [hx])) ht
              refine ⟨t, k, hvisits.inv, hvisits.onstack, Set.ext hvisits.mem_order,
                hlead q (by rw [hsplit]; simp), ?_, hq⟩
              rw [List.length_cons]
              omega
    intro done stack v hcall
    obtain ⟨s, k, -, -, -, -, hk, hv⟩ := hmade hcall
    cases k with
    | zero => cases hv
    | succ k => omega
  · intro hroom
    refine foldlM_isSome (.nil .init) (fun _ _ _ hp => nomatch hp) ?_
    intro before v back hsplit u hu
    have hleft : {p | p ∈ u.order} = {p | ∃ x ∈ before, Around edges [] x p} :=
      Set.ext fun p => (hu.mem_order p).trans (or_iff_right List.not_mem_nil)
    have hon : u.onstack = [] := hu.onstack
    have hnone : ∀ p ∈ u.onstack, Leads edges p v := fun p hp => nomatch hon ▸ hp
    refine @visit_isSome _ _ _ _ seeds _ _ _ _ hu.inv hnone ?_ fun hcall => ?_
    · rw [hleft, hon]
      exact .seed hsplit
    · rw [hon, List.length_nil, Nat.zero_add]
      exact hroom hcall

end Veron.DepthFirst
