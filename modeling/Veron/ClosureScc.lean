/-
`sccs` is right: what one call of `strong` does to the stack and the low-link of its node,
and from it the components the whole search writes.
-/
import Veron.Closure
import Veron.Condensation

namespace Veron.Closure

open Relation (ReflTransGen)

variable {α : Type*} {nodes : Finset α} {edges : α → List α}

/-- An edge of the graph; those leaving the node set are not counted. -/
def Edge (nodes : Finset α) (edges : α → List α) (u w : α) : Prop :=
  u ∈ nodes ∧ w ∈ edges u ∧ w ∈ nodes

/-- `w` is `u` or is depended on by it, however indirectly. -/
def Reach (nodes : Finset α) (edges : α → List α) : α → α → Prop :=
  ReflTransGen (Edge nodes edges)

/-- The search between two steps, `gray` being the nodes whose call has not returned. -/
structure Inv (nodes : Finset α) (edges : α → List α) (gray : List α) (s : Tarjan α) :
    Prop where
  onstack : ∀ x, x ∈ s.onstack ↔ x ∈ s.stack
  visited : ∀ x, s.Visited x ↔ x ∈ s.stack ∨ x ∈ s.out.flatten
  apart : ∀ x ∈ s.stack, x ∉ s.out.flatten
  descending : s.stack.Pairwise fun x y => s.num y < s.num x
  fresh : ∀ x, s.Visited x → s.num x < s.counter
  node : ∀ x, s.Visited x → x ∈ nodes
  onpath : ∀ x ∈ gray, x ∈ s.stack
  scanned : ∀ x, s.Visited x → x ∉ gray → ∀ w, Edge nodes edges x w → s.Visited w
  condensed : Condensed (Edge nodes edges) s.out
  back : ∀ y ∈ s.stack, ∃ x ∈ gray, s.num x ≤ s.num y ∧ Reach nodes edges y x
  forth : ∀ x ∈ gray, ∀ y ∈ s.stack, s.num x ≤ s.num y → Reach nodes edges x y

namespace Inv

variable {gray : List α} {s : Tarjan α} {v : α}

theorem visited_of_stack (h : Inv nodes edges gray s) {x : α} (hx : x ∈ s.stack) :
    s.Visited x :=
  (h.visited x).mpr (.inl hx)

theorem nodup (h : Inv nodes edges gray s) : s.stack.Nodup :=
  h.descending.imp fun hlt heq => by simp [heq] at hlt

theorem num_lt (h : Inv nodes edges gray s) {x : α} (hx : x ∈ s.stack) : s.num x < s.counter :=
  h.fresh x (h.visited_of_stack hx)

theorem lower [LinearOrder α] (h : Inv nodes edges gray s) (v : α) (n : ℕ) :
    Inv nodes edges gray (s.lower v n) :=
  ⟨h.onstack, h.visited, h.apart, h.descending, h.fresh, h.node, h.onpath, h.scanned,
    h.condensed, h.back, h.forth⟩

end Inv

section Enter

variable [LinearOrder α] {gray : List α} {s : Tarjan α} {v x : α}

theorem num_enter_self : (s.enter v).num v = s.counter := by
  simp [Tarjan.num, Tarjan.enter]

theorem index_enter_of_ne (hne : x ≠ v) : (s.enter v).index x = s.index x := by
  simp [Tarjan.enter, hne]

theorem num_enter_of_ne (hne : x ≠ v) : (s.enter v).num x = s.num x := by
  rw [Tarjan.num, Tarjan.num, index_enter_of_ne hne]

theorem visited_enter : (s.enter v).Visited x ↔ x = v ∨ s.Visited x := by
  by_cases hne : x = v
  · subst hne
    simp [Tarjan.Visited, Tarjan.enter]
  · rw [Tarjan.Visited, Tarjan.Visited, index_enter_of_ne hne]
    simp [hne]

/-- A call on a new node that every gray one reaches starts in a good state. -/
theorem Inv.enter (h : Inv nodes edges gray s) (hnode : v ∈ nodes) (hnew : ¬ s.Visited v)
    (hreach : ∀ x ∈ gray, Reach nodes edges x v) :
    Inv nodes edges (v :: gray) (s.enter v) := by
  have hne : ∀ x, s.Visited x → x ≠ v := fun x hx heq => hnew (heq ▸ hx)
  have hnum : ∀ x, s.Visited x → (s.enter v).num x = s.num x :=
    fun x hx => num_enter_of_ne (hne x hx)
  have hstack : ∀ x ∈ s.stack, (s.enter v).num x = s.num x :=
    fun x hx => hnum x (h.visited_of_stack hx)
  have hgray : ∀ x ∈ gray, (s.enter v).num x = s.num x := fun x hx => hstack x (h.onpath x hx)
  refine ⟨?onstack, ?visited, ?apart, ?descending, ?fresh, ?node, ?onpath, ?scanned,
    h.condensed, ?back, ?forth⟩
  case onstack =>
    intro x
    simp only [Tarjan.enter, Finset.mem_insert, List.mem_cons, h.onstack]
  case visited =>
    intro x
    rw [visited_enter, h.visited]
    simp only [Tarjan.enter, List.mem_cons, or_assoc]
  case apart =>
    intro x hx
    rcases List.mem_cons.mp hx with rfl | hx
    · exact fun hout => hnew ((h.visited x).mpr (.inr hout))
    · exact h.apart x hx
  case descending =>
    refine List.pairwise_cons.mpr ⟨fun y hy => ?_, ?_⟩
    · rw [num_enter_self, hstack y hy]
      exact h.num_lt hy
    · refine h.descending.imp_of_mem fun hx hy hlt => ?_
      rw [hstack _ hx, hstack _ hy]
      exact hlt
  case fresh =>
    intro x hx
    change _ < s.counter + 1
    rcases visited_enter.mp hx with rfl | hx
    · rw [num_enter_self]
      exact Nat.lt_succ_self _
    · rw [hnum x hx]
      exact Nat.lt_succ_of_lt (h.fresh x hx)
  case node =>
    intro x hx
    rcases visited_enter.mp hx with rfl | hx
    · exact hnode
    · exact h.node x hx
  case onpath =>
    intro x hx
    rcases List.mem_cons.mp hx with rfl | hx
    · exact List.mem_cons_self
    · exact List.mem_cons_of_mem _ (h.onpath x hx)
  case scanned =>
    intro x hx hgray w hedge
    rw [List.mem_cons, not_or] at hgray
    have hold := (visited_enter.mp hx).resolve_left hgray.1
    exact visited_enter.mpr (.inr (h.scanned x hold hgray.2 w hedge))
  case back =>
    intro y hy
    rcases List.mem_cons.mp hy with rfl | hy
    · exact ⟨y, List.mem_cons_self, le_rfl, .refl⟩
    · obtain ⟨x, hx, hle, hyx⟩ := h.back y hy
      refine ⟨x, List.mem_cons_of_mem _ hx, ?_, hyx⟩
      rw [hgray x hx, hstack y hy]
      exact hle
  case forth =>
    intro x hx y hy hle
    rcases List.mem_cons.mp hx with rfl | hxold
    · rcases List.mem_cons.mp hy with rfl | hyold
      · exact .refl
      · rw [num_enter_self, hstack y hyold] at hle
        exact absurd (h.num_lt hyold) (Nat.not_lt.mpr hle)
    · rcases List.mem_cons.mp hy with rfl | hyold
      · exact hreach x hxold
      · rw [hgray x hxold, hstack y hyold] at hle
        exact h.forth x hxold y hyold hle

end Enter

/-- What the search recorded of the nodes it had visited stays. -/
def Kept (s t : Tarjan α) : Prop :=
  ∀ x, s.Visited x → t.index x = s.index x ∧ t.low x = s.low x

/-- What a call of `strong` on `v` did that took `s` to `t`. -/
structure Called (nodes : Finset α) (edges : α → List α) (v : α) (s t : Tarjan α) : Prop where
  kept : Kept s t
  visited : t.Visited v
  stack : ∃ new, t.stack = new ++ s.stack ∧
    ∀ u ∈ new, ∀ w ∈ s.stack, Edge nodes edges u w → t.low v ≤ s.num w
  link : t.low v = s.counter ∨ ∃ z ∈ s.stack, s.num z = t.low v ∧ Reach nodes edges v z

/-- The loop of a call on `v` that found `s`, when it is at `t` and has looked at `seen`. -/
structure Scan (nodes : Finset α) (edges : α → List α) (gray : List α) (v : α) (s : Tarjan α)
    (seen : List α) (t : Tarjan α) : Prop where
  inv : Inv nodes edges (v :: gray) t
  kept : Kept s t
  num : t.num v = s.counter
  stack : ∃ new, t.stack = new ++ v :: s.stack ∧
    ∀ u ∈ new, ∀ w ∈ s.stack, Edge nodes edges u w → t.low v ≤ s.num w
  link : t.low v = s.counter ∨ ∃ z ∈ s.stack, s.num z = t.low v ∧ Reach nodes edges v z
  seen : ∀ w ∈ seen, w ∈ nodes → t.Visited w ∧ (w ∈ s.stack → t.low v ≤ s.num w)

namespace Kept

variable {s t : Tarjan α} {x : α}

theorem visited (h : Kept s t) (hx : s.Visited x) : t.Visited x := by
  rw [Tarjan.Visited, (h x hx).1]
  exact hx

theorem num (h : Kept s t) (hx : s.Visited x) : t.num x = s.num x := by
  rw [Tarjan.num, Tarjan.num, (h x hx).1]

theorem refl (s : Tarjan α) : Kept s s := fun _ _ => ⟨rfl, rfl⟩

theorem trans {r : Tarjan α} (h : Kept s t) (h' : Kept t r) : Kept s r := fun x hx =>
  ⟨(h' x (h.visited hx)).1.trans (h x hx).1, (h' x (h.visited hx)).2.trans (h x hx).2⟩

end Kept

namespace Scan

variable {gray seen : List α} {v w z : α} {s t r : Tarjan α} {n : ℕ}

theorem start [LinearOrder α] (h : Inv nodes edges gray s) (hnode : v ∈ nodes)
    (hnew : ¬ s.Visited v) (hreach : ∀ x ∈ gray, Reach nodes edges x v) :
    Scan nodes edges gray v s [] (s.enter v) := by
  refine ⟨h.enter hnode hnew hreach, fun x hx => ?_, num_enter_self,
    ⟨[], rfl, by simp⟩, .inl (by simp [Tarjan.enter]), by simp⟩
  have hne : x ≠ v := fun heq => hnew (heq ▸ hx)
  exact ⟨index_enter_of_ne hne, by simp [Tarjan.enter, hne]⟩

theorem mem_stack (h : Scan nodes edges gray v s seen t) : v ∈ t.stack := by
  obtain ⟨new, hstack, _⟩ := h.stack
  simp [hstack]

theorem stack_mono (h : Scan nodes edges gray v s seen t) {x : α} (hx : x ∈ s.stack) :
    x ∈ t.stack := by
  obtain ⟨new, hstack, _⟩ := h.stack
  simp [hstack, hx]

theorem low_le (h : Scan nodes edges gray v s seen t) (hs : Inv nodes edges gray s) :
    t.low v ≤ t.num v := by
  rw [h.num]
  rcases h.link with heq | ⟨z, hz, heq, _⟩
  · exact heq.le
  · rw [← heq]
    exact (hs.num_lt hz).le

theorem num_old (h : Scan nodes edges gray v s seen t) (hs : Inv nodes edges gray s) {x : α}
    (hx : x ∈ s.stack) : t.num x = s.num x :=
  h.kept.num (hs.visited_of_stack hx)

/-- A node on the stack that `v` reaches lowers the low-link only if it was there before. -/
theorem attained (h : Scan nodes edges gray v s seen t) (hs : Inv nodes edges gray s)
    (hz : z ∈ t.stack) (hreach : Reach nodes edges v z) :
    t.low v ≤ t.num z ∨ ∃ y ∈ s.stack, s.num y = t.num z ∧ Reach nodes edges v y := by
  obtain ⟨new, hstack, _⟩ := h.stack
  have hlow := h.low_le hs
  have hpair := h.inv.descending
  rw [hstack] at hz hpair
  rcases List.mem_append.mp hz with hz | hz
  · have hlt := (List.pairwise_append.mp hpair).2.2 z hz v List.mem_cons_self
    exact .inl (hlow.trans hlt.le)
  · rcases List.mem_cons.mp hz with rfl | hz
    · exact .inl hlow
    · exact .inr ⟨z, hz, (h.num_old hs hz).symm, hreach⟩

theorem reach_gray (h : Scan nodes edges gray v s seen t) (hs : Inv nodes edges gray s) {x : α}
    (hx : x ∈ gray) : Reach nodes edges x v := by
  have hold := hs.onpath x hx
  refine h.inv.forth x (List.mem_cons_of_mem _ hx) v h.mem_stack ?_
  rw [h.num_old hs hold, h.num]
  exact (hs.num_lt hold).le

theorem reach_next (h : Scan nodes edges gray v s seen t) (hs : Inv nodes edges gray s)
    (hedge : Edge nodes edges v w) : ∀ x ∈ v :: gray, Reach nodes edges x w := by
  intro x hx
  rcases List.mem_cons.mp hx with rfl | hx
  · exact .single hedge
  · exact (h.reach_gray hs hx).tail hedge

variable [LinearOrder α]

/-- One more node looked at: what the step found lowers the low-link to `n` at most. -/
theorem lowered (h : Scan nodes edges gray v s seen t) (hnew : ¬ s.Visited v)
    (hinv : Inv nodes edges (v :: gray) r) (hkept : Kept t r)
    (hstack : ∃ new, r.stack = new ++ t.stack ∧
      ∀ u ∈ new, ∀ x ∈ s.stack, Edge nodes edges u x → n ≤ s.num x)
    (hn : t.low v ≤ n ∨ ∃ z ∈ s.stack, s.num z = n ∧ Reach nodes edges v z)
    (hw : w ∈ nodes → r.Visited w ∧ (w ∈ s.stack → n ≤ s.num w)) :
    Scan nodes edges gray v s (seen ++ [w]) (r.lower v n) := by
  have hvisited := h.inv.visited_of_stack h.mem_stack
  have hlow : (r.lower v n).low v = min (t.low v) n := by
    simp [Tarjan.lower, (hkept v hvisited).2]
  refine ⟨hinv.lower v n, ?kept, ?num, ?stack, ?link, ?seen⟩
  case kept =>
    intro x hx
    have hne : x ≠ v := fun heq => hnew (heq ▸ hx)
    have hmid := h.kept.visited hx
    refine ⟨(hkept x hmid).1.trans (h.kept x hx).1, ?_⟩
    simp only [Tarjan.lower, Function.update_of_ne hne]
    exact (hkept x hmid).2.trans (h.kept x hx).2
  case num => exact (hkept.num hvisited).trans h.num
  case stack =>
    obtain ⟨new, hold, hle⟩ := h.stack
    obtain ⟨new', hmore, hle'⟩ := hstack
    refine ⟨new' ++ new, ?_, fun u hu x hx hedge => ?_⟩
    · change r.stack = _
      rw [hmore, hold, List.append_assoc]
    · rw [hlow]
      rcases List.mem_append.mp hu with hu | hu
      · exact (min_le_right _ _).trans (hle' u hu x hx hedge)
      · exact (min_le_left _ _).trans (hle u hu x hx hedge)
  case link =>
    rw [hlow]
    rcases le_total (t.low v) n with hle | hle
    · rw [min_eq_left hle]
      exact h.link
    · rw [min_eq_right hle]
      rcases hn with hn | hn
      · rw [le_antisymm hle hn]
        exact h.link
      · exact .inr hn
  case seen =>
    intro d hd hnode
    rw [hlow]
    rcases List.mem_append.mp hd with hd | hd
    · obtain ⟨hvis, hle⟩ := h.seen d hd hnode
      exact ⟨hkept.visited hvis, fun hold => (min_le_left _ _).trans (hle hold)⟩
    · rw [List.mem_singleton.mp hd] at hnode ⊢
      obtain ⟨hvis, hle⟩ := hw hnode
      exact ⟨hvis, fun hold => (min_le_right _ _).trans (hle hold)⟩

theorem lower_self : t.lower v (t.low v) = t := by
  simp [Tarjan.lower]

/-- A node that is not called on: the low-link goes to `n` at most. -/
theorem passed (h : Scan nodes edges gray v s seen t) (hnew : ¬ s.Visited v)
    (hn : t.low v ≤ n ∨ ∃ z ∈ s.stack, s.num z = n ∧ Reach nodes edges v z)
    (hw : w ∈ nodes → t.Visited w ∧ (w ∈ s.stack → n ≤ s.num w)) :
    Scan nodes edges gray v s (seen ++ [w]) (t.lower v n) :=
  h.lowered hnew h.inv (Kept.refl t) ⟨[], rfl, by simp⟩ hn hw

end Scan

/-- `rec` does what a call of `strong` is to do, wherever it returns. -/
def Follows (nodes : Finset α) (edges : α → List α) (rec : α → Tarjan α → Option (Tarjan α)) :
    Prop :=
  ∀ gray v s t, Inv nodes edges gray s → v ∈ nodes → ¬ s.Visited v →
    (∀ x ∈ gray, Reach nodes edges x v) → rec v s = some t →
    Inv nodes edges gray t ∧ Called nodes edges v s t

namespace Scan

variable [LinearOrder α] {gray seen : List α} {v w : α} {s t r : Tarjan α}
  {rec : α → Tarjan α → Option (Tarjan α)}

/-- The branch of the loop that calls `strong` on the node. -/
theorem called (h : Scan nodes edges gray v s seen t) (hs : Inv nodes edges gray s)
    (hnew : ¬ s.Visited v) (hedge : Edge nodes edges v w) (hw : ¬ t.Visited w)
    (hinv : Inv nodes edges (v :: gray) r) (hcall : Called nodes edges w t r) :
    Scan nodes edges gray v s (seen ++ [w]) (r.lower v (r.low w)) := by
  have hlow := h.low_le hs
  refine h.lowered hnew hinv hcall.kept ?stack ?low fun _ => ⟨hcall.visited, fun hold => ?_⟩
  case stack =>
    obtain ⟨new, hstack, hle⟩ := hcall.stack
    refine ⟨new, hstack, fun u hu x hx hux => ?_⟩
    rw [← h.num_old hs hx]
    exact hle u hu x (h.stack_mono hx) hux
  case low =>
    rcases hcall.link with heq | ⟨z, hz, heq, hreach⟩
    · rw [heq]
      exact .inl (hlow.trans (h.inv.num_lt h.mem_stack).le)
    · rw [← heq]
      exact h.attained hs hz (hreach.head hedge)
  exact absurd (h.kept.visited (hs.visited_of_stack hold)) hw

/-- One step of the loop of `strong`. -/
theorem step (hrec : Follows nodes edges rec) (h : Scan nodes edges gray v s seen t)
    (hs : Inv nodes edges gray s) (hnode : v ∈ nodes) (hnew : ¬ s.Visited v)
    (hw : w ∈ edges v) (hlook : look nodes rec v t w = some r) :
    Scan nodes edges gray v s (seen ++ [w]) r := by
  have hsame : ∀ hw : w ∈ nodes → t.Visited w ∧ (w ∈ s.stack → t.low v ≤ s.num w),
      Scan nodes edges gray v s (seen ++ [w]) t := by
    intro hw
    have hpassed := h.passed hnew (.inl le_rfl) hw
    rwa [lower_self] at hpassed
  rw [look] at hlook
  by_cases hin : w ∈ nodes
  swap
  · rw [if_pos hin] at hlook
    cases hlook
    exact hsame fun h => absurd h hin
  rw [if_neg (not_not.mpr hin)] at hlook
  have hedge : Edge nodes edges v w := ⟨hnode, hw, hin⟩
  by_cases hvisited : t.Visited w
  swap
  · rw [if_pos hvisited] at hlook
    obtain ⟨mid, hmid, hlook⟩ := Option.bind_eq_some_iff.mp hlook
    cases hlook
    obtain ⟨hinv, hcall⟩ := hrec _ w t mid h.inv hin hvisited (h.reach_next hs hedge) hmid
    exact h.called hs hnew hedge hvisited hinv hcall
  rw [if_neg (not_not.mpr hvisited)] at hlook
  by_cases hon : w ∈ t.onstack
  · rw [if_pos hon] at hlook
    cases hlook
    have hstack := (h.inv.onstack w).mp hon
    exact h.passed hnew (h.attained hs hstack (.single hedge)) fun _ =>
      ⟨hvisited, fun hold => (h.num_old hs hold).le⟩
  · rw [if_neg hon] at hlook
    cases hlook
    exact hsame fun _ => ⟨hvisited, fun hold =>
      absurd ((h.inv.onstack w).mpr (h.stack_mono hold)) hon⟩

/-- The whole loop, over the nodes of `rest`. -/
theorem run (hrec : Follows nodes edges rec) (hs : Inv nodes edges gray s) (hnode : v ∈ nodes)
    (hnew : ¬ s.Visited v) {rest : List α} (h : Scan nodes edges gray v s seen t)
    (hrest : ∀ w ∈ rest, w ∈ edges v) (hfold : rest.foldlM (look nodes rec v) t = some r) :
    Scan nodes edges gray v s (seen ++ rest) r := by
  induction rest generalizing seen t with
  | nil =>
      cases hfold
      rw [List.append_nil]
      exact h
  | cons w rest ih =>
      rw [List.foldlM_cons] at hfold
      obtain ⟨mid, hlook, hfold⟩ := Option.bind_eq_some_iff.mp hfold
      have hstep := h.step hrec hs hnode hnew (hrest w List.mem_cons_self) hlook
      have hdone := ih hstep (fun w hw => hrest w (List.mem_cons_of_mem _ hw)) hfold
      rwa [List.append_assoc] at hdone

end Scan

/-- The `while True` loop takes off what lies above the node, and the node. -/
theorem popTo_append [LinearOrder α] {v : α} {new rest : List α} (hv : v ∉ new)
    (onstack : Finset α) (comp : List α) :
    ∃ left, popTo v (new ++ v :: rest) onstack comp = some (comp ++ (new ++ [v]), rest, left) ∧
      ∀ x, x ∈ left ↔ x ∈ onstack ∧ x ∉ new ++ [v] := by
  induction new generalizing onstack comp with
  | nil =>
      refine ⟨onstack.erase v, by simp [popTo], fun x => ?_⟩
      simp [and_comm]
  | cons w new ih =>
      rw [List.mem_cons, not_or] at hv
      obtain ⟨left, hpop, hleft⟩ := ih hv.2 (onstack.erase w) (comp ++ [w])
      refine ⟨left, ?_, fun x => ?_⟩
      · rw [List.cons_append, popTo, if_neg (Ne.symm hv.1), hpop]
        simp
      · rw [hleft, Finset.mem_erase, List.cons_append, List.mem_cons, not_or]
        tauto

namespace Scan

variable {gray : List α} {v : α} {s t : Tarjan α}

/-- With its loop done the node counts among those that have been scanned. -/
theorem scanned (h : Scan nodes edges gray v s (edges v) t) (x : α) (hx : t.Visited x)
    (hgray : x ∉ gray) (w : α) (hedge : Edge nodes edges x w) : t.Visited w := by
  by_cases hxv : x = v
  · subst hxv
    exact (h.seen w hedge.2.1 hedge.2.2).1
  · exact h.inv.scanned x hx (by simp [hxv, hgray]) w hedge

/-- An edge from the node or from above it to below it bounds the low-link. -/
theorem low_le_num (h : Scan nodes edges gray v s (edges v) t) {new : List α}
    (hnew : ∀ u ∈ new, ∀ w ∈ s.stack, Edge nodes edges u w → t.low v ≤ s.num w) {u w : α}
    (hu : u ∈ new ++ [v]) (hw : w ∈ s.stack) (hedge : Edge nodes edges u w) :
    t.low v ≤ s.num w := by
  rcases List.mem_append.mp hu with hu | hu
  · exact hnew u hu w hw hedge
  · rw [List.mem_singleton.mp hu] at hedge
    exact (h.seen w hedge.2.1 hedge.2.2).2 hw

/-- A node whose low-link leads below it stays on the stack. -/
theorem stays (h : Scan nodes edges gray v s (edges v) t) (hs : Inv nodes edges gray s)
    (hlow : t.low v ≠ t.num v) :
    Inv nodes edges gray t ∧ Called nodes edges v s t := by
  obtain ⟨z, hz, hzlow, hvz⟩ : ∃ z ∈ s.stack, s.num z = t.low v ∧ Reach nodes edges v z := by
    rcases h.link with heq | hlink
    · exact absurd (heq.trans h.num.symm) hlow
    · exact hlink
  refine ⟨⟨h.inv.onstack, h.inv.visited, h.inv.apart, h.inv.descending, h.inv.fresh, h.inv.node,
    fun x hx => h.inv.onpath x (List.mem_cons_of_mem _ hx), h.scanned, h.inv.condensed, ?back,
    fun x hx => h.inv.forth x (List.mem_cons_of_mem _ hx)⟩, ?called⟩
  case back =>
    intro y hy
    obtain ⟨x, hx, hle, hyx⟩ := h.inv.back y hy
    rcases List.mem_cons.mp hx with rfl | hx
    · obtain ⟨g, hg, hgle, hzg⟩ := hs.back z hz
      refine ⟨g, hg, ?_, (hyx.trans hvz).trans hzg⟩
      calc t.num g = s.num g := h.num_old hs (hs.onpath g hg)
        _ ≤ s.num z := hgle
        _ = t.low x := hzlow
        _ ≤ t.num x := h.low_le hs
        _ ≤ t.num y := hle
    · exact ⟨x, hx, hle, hyx⟩
  case called =>
    obtain ⟨new, hstack, hle⟩ := h.stack
    refine ⟨h.kept, h.inv.visited_of_stack h.mem_stack, ⟨new ++ [v], ?_, fun u hu w hw hedge => ?_⟩,
      .inr ⟨z, hz, hzlow, hvz⟩⟩
    · rw [hstack, List.append_assoc, List.singleton_append]
    · exact h.low_le_num hle hu hw hedge

/-- The node and what lies above it reach one another. -/
theorem mutual_above (h : Scan nodes edges gray v s (edges v) t) (hs : Inv nodes edges gray s)
    {new : List α} (hstack : t.stack = new ++ v :: s.stack) {y : α} (hy : y ∈ new ++ [v]) :
    Mutual (Edge nodes edges) v y := by
  have hmem : y ∈ t.stack := by
    rw [hstack, ← List.singleton_append, ← List.append_assoc]
    exact List.mem_append_left _ hy
  have hpair := h.inv.descending
  rw [hstack] at hpair
  have hnum : t.num v ≤ t.num y := by
    rcases List.mem_append.mp hy with hy | hy
    · exact ((List.pairwise_append.mp hpair).2.2 y hy v List.mem_cons_self).le
    · rw [List.mem_singleton.mp hy]
  refine ⟨h.inv.forth v List.mem_cons_self y hmem hnum, ?_⟩
  obtain ⟨x, hx, _, hyx⟩ := h.inv.back y hmem
  rcases List.mem_cons.mp hx with rfl | hx
  · exact hyx
  · exact hyx.trans (h.reach_gray hs hx)

/-- A node whose low-link is its own number: it and what lies above it are a component. -/
theorem component (h : Scan nodes edges gray v s (edges v) t) (hs : Inv nodes edges gray s)
    (hlow : t.low v = t.num v) {new C : List α} (hstack : t.stack = new ++ v :: s.stack)
    (hle : ∀ u ∈ new, ∀ w ∈ s.stack, Edge nodes edges u w → t.low v ≤ s.num w)
    (hC : C.Perm (new ++ [v])) : Condensed (Edge nodes edges) (t.out ++ [C]) := by
  have hstack' : t.stack = (new ++ [v]) ++ s.stack := by
    rw [hstack, List.append_assoc, List.singleton_append]
  have hnodup := h.inv.nodup
  rw [hstack'] at hnodup
  have habove : ∀ u ∈ C, u ∈ t.stack := fun u hu => by
    rw [hstack']
    exact List.mem_append_left _ (hC.mem_iff.mp hu)
  refine h.inv.condensed.snoc ?_ (hC.nodup_iff.mpr (List.nodup_append'.mp hnodup).1)
    (fun u hu => h.inv.apart u (habove u hu)) ?conn ?edge
  · refine List.ne_nil_of_mem (a := v) ?_
    exact hC.mem_iff.mpr (by simp)
  case conn =>
    intro u hu w hw
    exact (h.mutual_above hs hstack (hC.mem_iff.mp hu)).2.trans
      (h.mutual_above hs hstack (hC.mem_iff.mp hw)).1
  case edge =>
    intro u hu w hedge
    have hgray : u ∉ gray := fun hg =>
      (List.nodup_append'.mp hnodup).2.2 (hC.mem_iff.mp hu) (hs.onpath u hg)
    have hvisited := h.scanned u (h.inv.visited_of_stack (habove u hu)) hgray w hedge
    rcases (h.inv.visited w).mp hvisited with hw | hw
    · rw [hstack'] at hw
      rcases List.mem_append.mp hw with hw | hw
      · exact .inl (hC.mem_iff.mpr hw)
      · have hbound := h.low_le_num hle (hC.mem_iff.mp hu) hw hedge
        rw [hlow, h.num] at hbound
        exact absurd (hs.num_lt hw) (Nat.not_lt.mpr hbound)
    · exact .inr hw

/-- The component is taken off the stack and written out. -/
theorem popped (h : Scan nodes edges gray v s (edges v) t) (hs : Inv nodes edges gray s)
    (hlow : t.low v = t.num v) {new C : List α} (hstack : t.stack = new ++ v :: s.stack)
    (hle : ∀ u ∈ new, ∀ w ∈ s.stack, Edge nodes edges u w → t.low v ≤ s.num w)
    (hC : C.Perm (new ++ [v])) {left : Finset α}
    (hleft : ∀ x, x ∈ left ↔ x ∈ t.onstack ∧ x ∉ new ++ [v]) :
    Inv nodes edges gray
      { t with stack := s.stack, onstack := left, out := t.out ++ [C] } := by
  have hstack' : t.stack = (new ++ [v]) ++ s.stack := by
    rw [hstack, List.append_assoc, List.singleton_append]
  have hdesc := h.inv.descending
  have hnodup := h.inv.nodup
  rw [hstack'] at hdesc hnodup
  have hdisj : ∀ x ∈ s.stack, x ∉ new ++ [v] :=
    fun x hx hnew => (List.nodup_append'.mp hnodup).2.2 hnew hx
  refine ⟨?onstack, ?visited, ?apart, (List.pairwise_append.mp hdesc).2.1, h.inv.fresh,
    h.inv.node, hs.onpath, h.scanned, h.component hs hlow hstack hle hC, ?back, ?forth⟩
  case onstack =>
    intro x
    rw [hleft, h.inv.onstack, hstack', List.mem_append]
    exact ⟨fun hx => hx.1.resolve_left hx.2, fun hx => ⟨.inr hx, hdisj x hx⟩⟩
  case visited =>
    intro x
    refine (h.inv.visited x).trans ?_
    rw [hstack', List.mem_append, Condensed.mem_snoc, hC.mem_iff, or_comm (a := x ∈ new ++ [v]),
      or_assoc, or_comm (a := x ∈ new ++ [v])]
  case apart =>
    intro x hx hout
    rcases Condensed.mem_snoc.mp hout with hout | hnew
    · exact h.inv.apart x (h.stack_mono hx) hout
    · exact hdisj x hx (hC.mem_iff.mp hnew)
  case back =>
    intro y hy
    obtain ⟨x, hx, hxy, hreach⟩ := hs.back y hy
    refine ⟨x, hx, ?_, hreach⟩
    change t.num x ≤ t.num y
    rw [h.num_old hs (hs.onpath x hx), h.num_old hs hy]
    exact hxy
  case forth =>
    intro x hx y hy hxy
    change t.num x ≤ t.num y at hxy
    rw [h.num_old hs (hs.onpath x hx), h.num_old hs hy] at hxy
    exact hs.forth x hx y hy hxy

variable [LinearOrder α]

/-- The lines after the loop never fail, and leave the search in a good state. -/
theorem leave (h : Scan nodes edges gray v s (edges v) t) (hs : Inv nodes edges gray s) :
    ∃ r, t.leave v = some r ∧ Inv nodes edges gray r ∧ Called nodes edges v s r := by
  by_cases hlow : t.low v = t.num v
  swap
  · exact ⟨t, if_neg hlow, h.stays hs hlow⟩
  obtain ⟨new, hstack, hle⟩ := h.stack
  have hnew : v ∉ new := fun hv => by
    have hnodup := h.inv.nodup
    rw [hstack] at hnodup
    exact (List.nodup_append'.mp hnodup).2.2 hv List.mem_cons_self
  obtain ⟨left, hpop, hleft⟩ := @popTo_append _ _ v new s.stack hnew t.onstack []
  refine ⟨{ t with
    stack := s.stack, onstack := left, out := t.out ++ [(new ++ [v]).mergeSort] }, ?_, ?_, ?_⟩
  · rw [Tarjan.leave, if_pos hlow, hstack, hpop]
    rfl
  · exact h.popped hs hlow hstack hle (List.mergeSort_perm _ _) hleft
  · exact ⟨h.kept, h.inv.visited_of_stack h.mem_stack, ⟨[], rfl, by simp⟩,
      .inl (hlow.trans h.num)⟩

end Scan

/-- The nodes not yet visited. -/
def Tarjan.unvisited (nodes : Finset α) (s : Tarjan α) : Finset α :=
  nodes.filter fun x => ¬ s.Visited x

theorem mem_unvisited {s : Tarjan α} {x : α} :
    x ∈ s.unvisited nodes ↔ x ∈ nodes ∧ ¬ s.Visited x :=
  Finset.mem_filter

theorem Scan.unvisited_lt {gray seen : List α} {v : α} {s t : Tarjan α}
    (h : Scan nodes edges gray v s seen t) (hnode : v ∈ nodes) (hnew : ¬ s.Visited v) :
    (t.unvisited nodes).card < (s.unvisited nodes).card := by
  refine Finset.card_lt_card ((Finset.ssubset_iff_of_subset fun x hx => ?_).mpr ⟨v, ?_, ?_⟩)
  · rw [mem_unvisited] at hx ⊢
    exact ⟨hx.1, fun hs => hx.2 (h.kept.visited hs)⟩
  · exact mem_unvisited.mpr ⟨hnode, hnew⟩
  · exact fun hv => (mem_unvisited.mp hv).2 (h.inv.visited_of_stack h.mem_stack)

section Strong

variable [LinearOrder α]

/-- A call of `strong` does what it should, however much room it has. -/
theorem strong_follows (room : ℕ) : Follows nodes edges (strong nodes edges room) := by
  induction room with
  | zero =>
      intro gray v s t hs hnode hnew hreach hcall
      cases hcall
  | succ room ih =>
      intro gray v s t hs hnode hnew hreach hcall
      rw [strong] at hcall
      obtain ⟨mid, hfold, hleave⟩ := Option.bind_eq_some_iff.mp hcall
      have hscan := (Scan.start hs hnode hnew hreach).run ih hs hnode hnew (fun _ hw => hw) hfold
      obtain ⟨r, hr, hinv, hcalled⟩ := hscan.leave hs
      obtain rfl : r = t := Option.some.inj (hr.symm.trans hleave)
      exact ⟨hinv, hcalled⟩

theorem look_isSome {rec : α → Tarjan α → Option (Tarjan α)} {v w : α} {t : Tarjan α}
    (hrec : w ∈ nodes → ¬ t.Visited w → (rec w t).isSome) :
    (look nodes rec v t w).isSome := by
  by_cases hin : w ∈ nodes
  · by_cases hvisited : t.Visited w
    · rw [look, if_neg (not_not.mpr hin), if_neg (not_not.mpr hvisited)]
      split_ifs <;> rfl
    · obtain ⟨mid, hmid⟩ := Option.isSome_iff_exists.mp (hrec hin hvisited)
      rw [look, if_neg (not_not.mpr hin), if_pos hvisited, hmid]
      rfl
  · rw [look, if_pos hin]
    rfl

/-- Room for one call per node not yet visited is enough. -/
theorem strong_isSome {room : ℕ} {gray : List α} {v : α} {s : Tarjan α}
    (hs : Inv nodes edges gray s) (hnode : v ∈ nodes) (hnew : ¬ s.Visited v)
    (hreach : ∀ x ∈ gray, Reach nodes edges x v) (hroom : (s.unvisited nodes).card ≤ room) :
    (strong nodes edges room v s).isSome := by
  induction room generalizing gray v s with
  | zero =>
      have hmem : v ∈ s.unvisited nodes := mem_unvisited.mpr ⟨hnode, hnew⟩
      have hempty := Finset.card_eq_zero.mp (Nat.le_zero.mp hroom)
      rw [hempty] at hmem
      cases hmem
  | succ room ih =>
      have hloop : ∀ rest : List α, (∀ w ∈ rest, w ∈ edges v) → ∀ seen t,
          Scan nodes edges gray v s seen t →
          ∃ r, rest.foldlM (look nodes (strong nodes edges room) v) t = some r := by
        intro rest
        induction rest with
        | nil => exact fun _ _ t _ => ⟨t, rfl⟩
        | cons w rest ihrest =>
            intro hrest seen t hscan
            have hw := hrest w List.mem_cons_self
            have hlt := hscan.unvisited_lt hnode hnew
            have hsome : (look nodes (strong nodes edges room) v t w).isSome :=
              look_isSome fun hin hvisited =>
                ih hscan.inv hin hvisited (hscan.reach_next hs ⟨hnode, hw, hin⟩) (by omega)
            obtain ⟨mid, hmid⟩ := Option.isSome_iff_exists.mp hsome
            have hstep := hscan.step (strong_follows room) hs hnode hnew hw hmid
            obtain ⟨r, hr⟩ := ihrest (fun w hw => hrest w (List.mem_cons_of_mem _ hw)) _ mid hstep
            refine ⟨r, ?_⟩
            rw [List.foldlM_cons, hmid]
            exact hr
      have hstart := Scan.start hs hnode hnew hreach
      obtain ⟨t, hfold⟩ := hloop (edges v) (fun _ hw => hw) [] _ hstart
      have hscan := hstart.run (strong_follows room) hs hnode hnew (fun _ hw => hw) hfold
      obtain ⟨r, hleave, _⟩ := hscan.leave hs
      rw [strong, hfold]
      exact Option.isSome_iff_exists.mpr ⟨r, hleave⟩

end Strong

/-- Between two calls that `sccs` itself makes nothing is on the stack. -/
theorem Inv.stack_nil {s : Tarjan α} (h : Inv nodes edges [] s) : s.stack = [] := by
  by_contra hne
  obtain ⟨y, hy⟩ := List.exists_mem_of_ne_nil _ hne
  obtain ⟨x, hx, _⟩ := h.back y hy
  cases hx

theorem inv_start : Inv nodes edges [] ({} : Tarjan α) where
  onstack := by simp
  visited := by simp [Tarjan.Visited]
  apart := by simp
  descending := List.Pairwise.nil
  fresh := by simp [Tarjan.Visited]
  node := by simp [Tarjan.Visited]
  onpath := by simp
  scanned := by simp [Tarjan.Visited]
  condensed := .nil
  back := by simp
  forth := by simp

section Sccs

variable [LinearOrder α]

theorem visit_inv {room : ℕ} {s t : Tarjan α} {v : α} (hs : Inv nodes edges [] s)
    (hnode : v ∈ nodes) (hrun : visit nodes edges room s v = some t) :
    Inv nodes edges [] t ∧ Kept s t ∧ t.Visited v := by
  by_cases hv : s.Visited v
  · rw [visit, if_pos hv] at hrun
    cases hrun
    exact ⟨hs, Kept.refl s, hv⟩
  · rw [visit, if_neg hv] at hrun
    obtain ⟨hinv, hcalled⟩ := strong_follows room [] v s t hs hnode hv (by simp) hrun
    exact ⟨hinv, hcalled.kept, hcalled.visited⟩

theorem visits_inv {room : ℕ} {s t : Tarjan α} {rest : List α} (hs : Inv nodes edges [] s)
    (hrest : ∀ v ∈ rest, v ∈ nodes) (hrun : rest.foldlM (visit nodes edges room) s = some t) :
    Inv nodes edges [] t ∧ Kept s t ∧ ∀ v ∈ rest, t.Visited v := by
  induction rest generalizing s with
  | nil =>
      cases hrun
      exact ⟨hs, Kept.refl t, by simp⟩
  | cons v rest ih =>
      rw [List.foldlM_cons] at hrun
      obtain ⟨mid, hmid, hrun⟩ := Option.bind_eq_some_iff.mp hrun
      obtain ⟨hinv, hkept, hv⟩ := visit_inv hs (hrest v List.mem_cons_self) hmid
      obtain ⟨hinv', hkept', hall⟩ := ih hinv (fun v hv => hrest v (List.mem_cons_of_mem _ hv)) hrun
      refine ⟨hinv', hkept.trans hkept', fun w hw => ?_⟩
      rcases List.mem_cons.mp hw with rfl | hw
      · exact hkept'.visited hv
      · exact hall w hw

theorem visits_isSome {room : ℕ} {s : Tarjan α} {rest : List α} (hs : Inv nodes edges [] s)
    (hrest : ∀ v ∈ rest, v ∈ nodes) (hroom : nodes.card ≤ room) :
    (rest.foldlM (visit nodes edges room) s).isSome := by
  induction rest generalizing s with
  | nil => rfl
  | cons v rest ih =>
      have hnode := hrest v List.mem_cons_self
      have hsome : (visit nodes edges room s v).isSome := by
        by_cases hv : s.Visited v
        · rw [visit, if_pos hv]
          rfl
        · rw [visit, if_neg hv]
          refine strong_isSome hs hnode hv (by simp) ?_
          exact (Finset.card_filter_le _ _).trans hroom
      obtain ⟨mid, hmid⟩ := Option.isSome_iff_exists.mp hsome
      rw [List.foldlM_cons, hmid]
      exact ih (visit_inv hs hnode hmid).1 fun v hv => hrest v (List.mem_cons_of_mem _ hv)

/-- The components are listed, each node in one of them, what they lead to before them. -/
theorem sccs_condensed {frames : ℕ} {comps : List (List α)}
    (h : sccs frames nodes edges = some comps) :
    Condensed (Edge nodes edges) comps ∧ ∀ p, p ∈ comps.flatten ↔ p ∈ nodes := by
  obtain ⟨t, hrun, rfl⟩ := Option.map_eq_some_iff.mp h
  have hsort : ∀ v ∈ nodes.sort, v ∈ nodes := fun v hv => (Finset.mem_sort _).mp hv
  obtain ⟨hinv, _, hall⟩ := visits_inv inv_start hsort hrun
  refine ⟨hinv.condensed, fun p => ⟨fun hp => ?_, fun hp => ?_⟩⟩
  · exact hinv.node p ((hinv.visited p).mpr (.inr hp))
  · have hvisited := hall p ((Finset.mem_sort _).mpr hp)
    have hor := (hinv.visited p).mp hvisited
    rw [hinv.stack_nil] at hor
    exact hor.resolve_left (List.not_mem_nil)

/-- `sccs` returns wherever the interpreter has room for one call a node. -/
theorem sccs_isSome {frames : ℕ} (hroom : frames + nodes.card ≤ recursionLimit) :
    (sccs frames nodes edges).isSome := by
  rw [sccs, Option.isSome_map]
  exact visits_isSome inv_start (fun v hv => (Finset.mem_sort _).mp hv) (by omega)

end Sccs

end Veron.Closure
