/-
The label resolver where its output runs over its region: what is written there stands in
the table of names, and later lookups read it.
-/
import Veron.LabelResolverRegions

namespace Veron.LabelResolver

open SelfAssembler (Byte ch isBlank isDigit)

/-- nametbl, with the output that has run into it. -/
def Labels.under (t : Labels) (spill : List Byte) : Labels :=
  { t with names := spill ++ t.names.drop spill.length }

section

variable (slack : List Byte) (labels : Labels) (room : ℕ)

/-- The tables as the lookup of a line finds them. -/
def Emit.tables (s : Emit) : Labels := labels.under (s.sksp.atTarget.out.drop room)

/-- One round of pass 2. -/
def emitOver (s : Emit) : Except Exit (Option Emit) :=
  emit slack (s.tables labels room) s

end

def pass2Over (labels : Labels) (input : List Byte) : Except Exit Emit :=
  Loop.run .running (emitOver (slackOf input) labels (4 * region input.length)) (rounds input)
    ⟨input, [], []⟩

/-- The states between the lines of pass 2. -/
def emitsOver (labels : Labels) (input : List Byte) : List Emit :=
  Loop.visits (emitOver (slackOf input) labels (4 * region input.length)) (rounds input)
    ⟨input, [], []⟩

/-- The whole program, wherever it writes. -/
def resolveOver (input : List Byte) : Except Exit (List Byte) :=
  if input.length < 0x2000000 then do
    let first ← pass1 input
    let last ← pass2Over first.labels input
    if last.missing = [] then .ok last.out
    else .error (.unresolved last.missing)
  else .error .tooLong

variable {slack : List Byte} {labels : Labels} {room : ℕ} {s t : Emit} {input : List Byte}

theorem emitOver_some (h : emitOver slack labels room s = .ok (some t)) : sksp s.rest ≠ [] ∧
    t = ⟨skipnl s.rest, s.out ++ s.sksp.written slack (s.tables labels room),
      s.missing ++ s.sksp.misses slack (s.tables labels room)⟩ :=
  emit_some h

/-- Pass 2 comes to the end of the input, whatever its lookups find. -/
theorem run_emit_ok (slack : List Byte) (tables : Emit → Labels) (input : List Byte) :
    ∃ last, Loop.run .running (fun s => emit slack (tables s) s) (rounds input) ⟨input, [], []⟩ =
      .ok last ∧ sksp last.rest = [] := by
  have hturn (s : Emit) : emit slack (tables s) s = .ok none ∨
      ∃ t, emit slack (tables s) s = .ok (some t) ∧ True ∧ t.rest.length < s.rest.length := by
    by_cases hs : sksp s.rest = []
    · exact .inl (emit_stops hs)
    · have hsome := @emit_eq slack (tables s) s hs
      exact .inr ⟨_, hsome, trivial, emit_less hsome⟩
  obtain ⟨last, hlast, -, hstop⟩ := Loop.run_total (fun _ => True)
    (fun s : Emit => s.rest.length) (fun s _ => hturn s) trivial (Nat.lt_succ_self _)
  refine ⟨last, hlast, ?_⟩
  by_contra hne
  rw [emit_eq hne] at hstop
  cases hstop

theorem pass2Over_ok (labels : Labels) (input : List Byte) :
    ∃ last, pass2Over labels input = .ok last ∧ sksp last.rest = [] :=
  run_emit_ok (slackOf input) (fun s => s.tables labels (4 * region input.length)) input

/-- The output never reaches the positions. -/
theorem emitsOver_below_postbl (labels : Labels) (input : List Byte) :
    ∀ s ∈ emitsOver labels input, outbuf input.length + s.out.length ≤ postbl input.length := by
  have hkeep : ∀ s ∈ emitsOver labels input,
      3 * s.out.length + 14 * s.rest.length ≤
        14 * input.length + if s.rest = [] then 42 else 0 := by
    refine Loop.visits_invariant (fun s : Emit => 3 * s.out.length + 14 * s.rest.length ≤
      14 * input.length + if s.rest = [] then 42 else 0) (by simp) fun s _ t hout ht => ?_
    obtain ⟨hne, rfl⟩ := emitOver_some ht
    have hsome : s.rest ≠ [] := by
      intro hnil
      rw [hnil] at hne
      exact hne rfl
    have hwritten := @Emit.written_length_le (slackOf input)
      (s.tables labels (4 * region input.length)) s
    have hlength := s.skipnl_length_add
    rw [if_neg hsome] at hout
    dsimp only
    rw [List.length_append]
    rcases lineEnd_cases s.rest with hend | ⟨hend, hlast, -⟩
    · rw [if_neg (by rw [hend]; exact List.cons_ne_nil _ _)] at hwritten
      split <;> omega
    · rw [if_pos hend] at hwritten
      rw [if_pos hlast]
      omega
  intro s hs
  have hout := hkeep s hs
  have hle := le_region input.length
  have hmin : 0x10000 ≤ region input.length := le_max_right _ _
  rw [postbl, nametbl]
  split at hout <;> omega

theorem resolveOver_of_passes {first : Scan} {last : Emit} (hlength : input.length < 0x2000000)
    (hfirst : pass1 input = .ok first) (hlast : pass2Over first.labels input = .ok last) :
    resolveOver input =
      if last.missing = [] then .ok last.out else .error (.unresolved last.missing) := by
  rw [resolveOver, if_pos hlength, hfirst]
  change (pass2Over first.labels input >>= _) = _
  rw [hlast]
  rfl

end Veron.LabelResolver
