/-
Loops run turn by turn.  A turn ends the loop, moves to a new state, or fails;
fuel bounds the number of turns, and the rules say what whole runs keep, when
the fuel is enough and when two loops stay in lockstep.
-/
import Mathlib.Data.List.Forall2
import Mathlib.Logic.Relation
import Mathlib.Tactic.Common

namespace Veron.Loop

universe u v w

variable {σ : Type u} {τ : Type v} {ε : Type w}

/-- Run a loop from a state; a turn that returns `none` ends it there. -/
def run (stuck : ε) (turn : σ → Except ε (Option σ)) : ℕ → σ → Except ε σ
  | 0, _ => .error stuck
  | n + 1, s =>
      match turn s with
      | .error e => .error e
      | .ok none => .ok s
      | .ok (some t) => run stuck turn n t

attribute [local simp] run

/-- The states at which the turns of a run begin. -/
def visits (turn : σ → Except ε (Option σ)) : ℕ → σ → List σ
  | 0, _ => []
  | n + 1, s =>
      s :: match turn s with
        | .ok (some t) => visits turn n t
        | _ => []

attribute [local simp] visits

variable {stuck : ε} {turn : σ → Except ε (Option σ)} {n : ℕ} {s t v : σ}

theorem run_more (h : turn s = .ok (some t)) :
    run stuck turn (n + 1) s = run stuck turn n t := by
  simp only [run, h]

theorem visits_more (h : turn s = .ok (some t)) :
    visits turn (n + 1) s = s :: visits turn n t := by
  simp only [visits, h]

/-- A run that ends well either stops at once or takes a turn first. -/
theorem run_cases (h : run stuck turn (n + 1) s = .ok t) :
    (turn s = .ok none ∧ t = s) ∨
      ∃ r, turn s = .ok (some r) ∧ run stuck turn n r = .ok t := by
  unfold run at h
  split at h
  · cases h
  · rename_i hturn
    exact .inl ⟨hturn, by injection h with h; exact h.symm⟩
  · rename_i r hturn
    exact .inr ⟨r, hturn, h⟩

/-- A measure that every turn lowers bounds the fuel a run needs. -/
theorem run_ne_stuck (measure : σ → ℕ) (hstuck : ∀ s, turn s ≠ .error stuck)
    (hless : ∀ s t, turn s = .ok (some t) → measure t < measure s)
    (hn : measure s < n) : run stuck turn n s ≠ .error stuck := by
  induction n generalizing s with
  | zero => omega
  | succ n ih =>
      unfold run
      split
      · rename_i e hturn
        intro he
        cases he
        exact hstuck s hturn
      · intro he
        cases he
      · rename_i r hturn
        have hr := hless s r hturn
        exact ih (by omega)

/-- Turns that keep an invariant and lower a measure, or end the loop, end it where the
invariant holds. -/
theorem run_total (I : σ → Prop) (measure : σ → ℕ)
    (hturn : ∀ s, I s → turn s = .ok none ∨
      ∃ t, turn s = .ok (some t) ∧ I t ∧ measure t < measure s)
    (hs : I s) (hn : measure s < n) :
    ∃ t, run stuck turn n s = .ok t ∧ I t ∧ turn t = .ok none := by
  induction n generalizing s with
  | zero => omega
  | succ n ih =>
      rcases hturn s hs with hstop | ⟨r, hmore, hr, hless⟩
      · exact ⟨s, by simp only [run, hstop], hs, hstop⟩
      · obtain ⟨t, hrun, ht⟩ := ih hr (by omega)
        exact ⟨t, (run_more hmore).trans hrun, ht⟩

/-- What holds at the start and is kept by every turn taken holds at every turn. -/
theorem visits_invariant (I : σ → Prop) (hs : I s)
    (hkeep : ∀ v ∈ visits turn n s, ∀ v', I v → turn v = .ok (some v') → I v') :
    ∀ v ∈ visits turn n s, I v := by
  induction n generalizing s with
  | zero => simp [visits]
  | succ n ih =>
      intro v hv
      cases hturn : turn s with
      | error e =>
          simp only [visits, hturn, List.mem_singleton] at hv
          exact hv ▸ hs
      | ok next =>
          cases next with
          | none =>
              simp only [visits, hturn, List.mem_singleton] at hv
              exact hv ▸ hs
          | some r =>
              rw [visits_more hturn] at hv hkeep
              rcases List.mem_cons.mp hv with rfl | hv
              · exact hs
              · exact ih (hkeep s List.mem_cons_self r hs hturn)
                  (fun v hv => hkeep v (List.mem_cons_of_mem s hv)) v hv

/-- A run fails when a turn that it takes does. -/
theorem run_error_iff {e : ε} (he : e ≠ stuck) :
    run stuck turn n s = .error e ↔ ∃ v ∈ visits turn n s, turn v = .error e := by
  induction n generalizing s with
  | zero => simp [run, visits, he.symm]
  | succ n ih =>
      cases hturn : turn s with
      | error d => simp [run, visits, hturn]
      | ok next =>
          cases next with
          | none => simp [run, visits, hturn]
          | some r =>
              rw [run_more hturn, visits_more hturn, ih]
              simp [hturn]

theorem mem_visits_self (h : run stuck turn n s = .ok t) : s ∈ visits turn n s := by
  cases n with
  | zero => cases h
  | succ n => exact List.mem_cons_self

/-- A run that ends well visits whatever its turns lead to. -/
theorem next_mem_visits {r : σ} (hrun : run stuck turn n s = .ok t)
    (hv : v ∈ visits turn n s) (hr : turn v = .ok (some r)) : r ∈ visits turn n s := by
  induction n generalizing s with
  | zero => cases hrun
  | succ n ih =>
      rcases run_cases hrun with ⟨hstop, rfl⟩ | ⟨q, hmore, hrest⟩
      · simp only [visits, hstop, List.mem_singleton] at hv
        rw [hv, hstop] at hr
        cases hr
      · rw [visits_more hmore] at hv ⊢
        rcases List.mem_cons.mp hv with rfl | hv
        · rw [hmore] at hr
          cases hr
          exact List.mem_cons_of_mem v (mem_visits_self hrest)
        · exact List.mem_cons_of_mem s (ih hrest hv)

/-- Turns taken one after another. -/
def Steps (turn : σ → Except ε (Option σ)) : σ → σ → Prop :=
  Relation.ReflTransGen fun s t => turn s = .ok (some t)

/-- A run goes through the turns there are, to where the loop ends. -/
theorem run_of_steps (hsteps : Steps turn s t) (hstop : turn t = .ok none)
    (hfuel : run stuck turn n s ≠ .error stuck) : run stuck turn n s = .ok t := by
  induction hsteps using Relation.ReflTransGen.head_induction_on generalizing n with
  | refl =>
      cases n with
      | zero => exact absurd rfl hfuel
      | succ n => simp only [run, hstop]
  | head hturn _ ih =>
      cases n with
      | zero => exact absurd rfl hfuel
      | succ n =>
          rw [run_more hturn] at hfuel ⊢
          exact ih hfuel

theorem mem_visits_of_steps (hrun : run stuck turn n s = .ok v) (hsteps : Steps turn s t) :
    t ∈ visits turn n s := by
  induction hsteps with
  | refl => exact mem_visits_self hrun
  | tail _ hturn ih => exact next_mem_visits hrun ih hturn

theorem invariant_of_steps (I : σ → Prop) (hs : I s)
    (hkeep : ∀ u v, Steps turn s u → I u → turn u = .ok (some v) → I v)
    (hsteps : Steps turn s t) : I t := by
  induction hsteps with
  | refl => exact hs
  | tail hbefore hturn ih => exact hkeep _ _ hbefore ih hturn

/-- Turns that go down in a well-founded order come to a state without a next turn. -/
theorem exists_last {α : Type*} {r : α → α → Prop} (hr : WellFounded r) (rank : σ → α)
    (hless : ∀ u v, Steps turn s u → turn u = .ok (some v) → r (rank v) (rank u)) :
    ∃ t, Steps turn s t ∧ ∀ v, turn t ≠ .ok (some v) := by
  induction hrank : rank s using hr.induction generalizing s with
  | _ a ih =>
      by_cases hnext : ∃ v, turn s = .ok (some v)
      · obtain ⟨v, hv⟩ := hnext
        have hfirst : Steps turn s v := .single hv
        obtain ⟨t, ht, hlast⟩ := ih (rank v) (hrank ▸ hless s v .refl hv)
          (fun u w hu => hless u w (hfirst.trans hu)) rfl
        exact ⟨t, hfirst.trans ht, hlast⟩
      · exact ⟨s, .refl, fun v hv => hnext ⟨v, hv⟩⟩

/-- What is reached from a state is that state or is reached from the next one. -/
theorem forall_steps {P : σ → Prop} (hs : P s) (hturn : turn s = .ok (some v))
    (hnext : ∀ t, Steps turn v t → P t) : ∀ t, Steps turn s t → P t := by
  intro t hsteps
  rcases Relation.ReflTransGen.cases_head hsteps with rfl | ⟨w, hw, hrest⟩
  · exact hs
  · rw [hturn] at hw
    cases hw
    exact hnext t hrest

theorem forall_steps_last {P : σ → Prop} (hs : P s) (hturn : turn s = .ok none) :
    ∀ t, Steps turn s t → P t := by
  intro t hsteps
  rcases Relation.ReflTransGen.cases_head hsteps with rfl | ⟨w, hw, -⟩
  · exact hs
  · rw [hturn] at hw
    cases hw

/-- A run that comes to states which each have a next one among them has a next turn always. -/
theorem exists_next (P : σ → Prop) (hP : ∀ u, P u → ∃ w, turn u = .ok (some w) ∧ P w)
    (hv : Steps turn s v) (hPv : P v) (hsteps : Steps turn s t) :
    ∃ w, turn t = .ok (some w) := by
  have hunique : Relator.RightUnique fun a b => turn a = .ok (some b) := by
    intro a b c hb hc
    rw [hb] at hc
    cases hc
    rfl
  rcases Relation.ReflTransGen.total_of_right_unique hunique hv hsteps with hbeyond | hbefore
  · have hPt : P t := by
      refine invariant_of_steps P hPv (fun a b _ ha hab => ?_) hbeyond
      obtain ⟨w, hw, hPw⟩ := hP a ha
      rw [hab] at hw
      cases hw
      exact hPw
    obtain ⟨w, hw, -⟩ := hP t hPt
    exact ⟨w, hw⟩
  · rcases Relation.ReflTransGen.cases_head hbefore with rfl | ⟨w, hw, -⟩
    · obtain ⟨w, hw, -⟩ := hP t hPv
      exact ⟨w, hw⟩
    · exact ⟨w, hw⟩

/-- A preorder that every turn climbs puts every visited state below the last. -/
theorem visits_below {R : σ → σ → Prop} (hrefl : ∀ s, R s s)
    (htrans : ∀ a b c, R a b → R b c → R a c)
    (hturn : ∀ s t, turn s = .ok (some t) → R s t)
    (hrun : run stuck turn n s = .ok t) : ∀ v ∈ visits turn n s, R v t := by
  induction n generalizing s with
  | zero => simp [visits]
  | succ n ih =>
      intro v hv
      rcases run_cases hrun with ⟨hstop, rfl⟩ | ⟨r, hmore, hrest⟩
      · simp only [visits, hstop, List.mem_singleton] at hv
        exact hv ▸ hrefl t
      · rw [visits_more hmore] at hv
        rcases List.mem_cons.mp hv with rfl | hv
        · exact htrans v r t (hturn v r hmore) (ih hrest r (mem_visits_self hrest))
        · exact ih hrest v hv

/-- What only turns from certain states change is unchanged by a run without them. -/
theorem run_unchanged {α : Type*} (f : σ → α) (P : σ → Prop)
    (hturn : ∀ s t, turn s = .ok (some t) → ¬ P s → f t = f s)
    (hrun : run stuck turn n s = .ok t) (hnone : ∀ v ∈ visits turn n s, ¬ P v) :
    f t = f s := by
  induction n generalizing s with
  | zero => cases hrun
  | succ n ih =>
      rcases run_cases hrun with ⟨_, rfl⟩ | ⟨r, hmore, hrest⟩
      · rfl
      · rw [visits_more hmore] at hnone
        have htail := ih hrest fun v hv => hnone v (List.mem_cons_of_mem s hv)
        exact htail.trans (hturn s r hmore (hnone s List.mem_cons_self))

/-- Two outcomes of a turn in lockstep: both fail, both stop, or both go on to
related states. -/
def Lockstep (R : σ → τ → Prop) :
    Except ε (Option σ) → Except ε (Option τ) → Prop
  | .error _, .error _ => True
  | .ok none, .ok none => True
  | .ok (some s), .ok (some t) => R s t
  | _, _ => False

/-- Loops whose turns stay in lockstep visit related states throughout. -/
theorem visits_lockstep {R : σ → τ → Prop} {turn' : τ → Except ε (Option τ)}
    {t : τ} (hstep : ∀ s t, R s t → Lockstep R (turn s) (turn' t)) (h : R s t) :
    List.Forall₂ R (visits turn n s) (visits turn' n t) := by
  induction n generalizing s t with
  | zero => exact .nil
  | succ n ih =>
      have hboth := hstep s t h
      unfold visits
      refine .cons h ?_
      match hs : turn s, ht : turn' t, hboth with
      | .error _, .error _, _ => exact .nil
      | .ok none, .ok none, _ => exact .nil
      | .ok (some s'), .ok (some t'), hnext => exact ih hnext

end Veron.Loop
