/-
When no two labels in the output of pico-c read alike.
-/
import Veron.PicoCLabelsCount
import Veron.PicoCShort

namespace Veron.PicoC.Labels

/-- How many strings, how many numbers it takes, what it calls, and whether it has a `continue`
for a loop around it. -/
structure Usage where
  strings : ℕ
  numbers : ℕ
  calls : List Name
  continues : Bool

def Usage.empty : Usage := ⟨0, 0, [], false⟩

def Usage.append (u v : Usage) : Usage :=
  ⟨u.strings + v.strings, u.numbers + v.numbers, u.calls ++ v.calls, u.continues || v.continues⟩

/-- With more numbers. -/
def Usage.plus (n : ℕ) (u : Usage) : Usage := { u with numbers := u.numbers + n }

/-- Inside of a loop, where `continue` takes so many numbers. -/
def Usage.closed (n : ℕ) (u : Usage) : Usage :=
  { u with numbers := u.numbers + (if u.continues then n else 0), continues := false }

def Expr.usage : Expr → Usage
  | plain => .empty
  | string => { Usage.empty with strings := 1 }
  | call f args => args.usage.append { Usage.empty with calls := [f] }
  | both a b => a.usage.append b.usage
  | short a b => a.usage.append (b.usage.plus 1)

def Stmt.usage : Stmt → Usage
  | .expr e => e.usage
  | .label _ => .empty
  | .seq a b => a.usage.append b.usage
  | .block s => s.usage
  | .ifThen c a => c.usage.append (a.usage.plus 1)
  | .ifElse c a b => c.usage.append ((a.usage.append (b.usage.plus 1)).plus 1)
  | .while c s => (c.usage.append ((s.usage.closed 0).plus 1)).plus 1
  | .doWhile s c => (((s.usage.closed 1).append c.usage).plus 1).plus 1
  | .for init cond step s => init.usage.append <| Usage.plus 1 <| Usage.plus 1 <| Usage.plus 1 <|
      (cond.usage.append (step.usage.append (s.usage.closed 0))).plus 1
  | .break => .empty
  | .continue => { Usage.empty with continues := true }

def usage : List Definition → Usage
  | [] => .empty
  | .global _ :: ds => usage ds
  | .function _ body :: ds => (body.usage.closed 0).append (usage ds)

structure Counts (u : Usage) (st st' : State) : Prop where
  strings : st'.strings = st.strings + u.strings
  count : st'.count =
    st.count + u.numbers + (if u.continues = true ∧ st.loop = .atNeed none then 1 else 0)
  called : ∀ f, f ∈ st'.called ↔ f ∈ st.called ∨ f ∈ u.calls
  loop : st'.loop = .atNeed none ↔ st.loop = .atNeed none ∧ u.continues = false
  fits : st.count ≤ 1000000000 → st'.count ≤ 1000000000

def Emits.Takes (e : Emits) (u : Usage) : Prop :=
  ∀ st ls st', e st = some (ls, st') → Counts u st st'

variable {u v : Usage} {a b : Emits}

/-- Nothing but the state's own. -/
theorem Counts.same (st : State) : Counts .empty st st :=
  ⟨rfl, rfl, fun _ => by simp [Usage.empty], by simp [Usage.empty], id⟩

theorem Emits.Takes.then (ha : a.Takes u) (hb : b.Takes v) : (a.then b).Takes (u.append v) := by
  intro st ls st' hrun
  obtain ⟨⟨ls₁, st₁⟩, h₁, hrun⟩ := Option.bind_eq_some_iff.mp hrun
  obtain ⟨⟨ls₂, st₂⟩, h₂, heq⟩ := Option.map_eq_some_iff.mp hrun
  cases heq
  have hfirst : Counts u st st₁ := ha _ _ _ h₁
  have hsecond : Counts v st₁ st₂ := hb _ _ _ h₂
  refine ⟨?_, ?_, fun f => ?_, ?_, fun hfits => hsecond.fits (hfirst.fits hfits)⟩
  · have h₁ := hfirst.strings
    have h₂ := hsecond.strings
    simp only [Usage.append]
    omega
  · have h₁ := hfirst.count
    have h₂ := hsecond.count
    simp only [Usage.append, Bool.or_eq_true]
    simp only [hfirst.loop] at h₂
    cases hu : u.continues <;> cases hv : v.continues <;>
      by_cases hloop : st.loop = .atNeed none <;> simp [hu, hv, hloop] at h₁ h₂ ⊢ <;> omega
  · rw [hsecond.called, hfirst.called, Usage.append, List.mem_append, or_assoc]
  · rw [hsecond.loop, hfirst.loop, Usage.append, Bool.or_eq_false_iff, and_assoc]

theorem takes_newlbl {e : ℕ → Emits} (h : ∀ n, (e n).Takes u) : (newlbl e).Takes (u.plus 1) := by
  intro st ls st' hrun
  by_cases hmax : 1000000000 ≤ st.count
  · rw [newlbl, if_pos hmax] at hrun
    cases hrun
  · rw [newlbl, if_neg hmax] at hrun
    obtain ⟨hstrings, hcount, hcalled, hloop, hfits⟩ := h _ _ _ _ hrun
    refine ⟨hstrings, ?_, hcalled, hloop, fun _ => hfits (Nat.lt_of_not_le hmax)⟩
    have hcount' : st'.count = st.count + 1 + u.numbers +
        (if u.continues = true ∧ st.loop = .atNeed none then 1 else 0) := hcount
    change st'.count = st.count + (u.numbers + 1) +
      (if u.continues = true ∧ st.loop = .atNeed none then 1 else 0)
    rw [hcount']
    omega

theorem takes_emit (l : Label) : (emit l).Takes .empty := by
  intro st ls st' hrun
  cases hrun
  exact .same st

theorem append_empty (u : Usage) : u.append .empty = u := by
  simp [Usage.append, Usage.empty]

theorem empty_append (u : Usage) : Usage.empty.append u = u := by
  simp [Usage.append, Usage.empty]

/-- The label that `continue` asks for in a `do` has a number of its own. -/
theorem takes_inLoop (loop : Loop) (h : a.Takes u) :
    (inLoop loop a).Takes (u.closed (if loop = .atNeed none then 1 else 0)) := by
  intro st ls st' hrun
  obtain ⟨⟨ls₁, st₁⟩, h₁, heq⟩ := Option.map_eq_some_iff.mp hrun
  obtain ⟨hstrings, hcount, hcalled, -, hfits⟩ := h _ _ _ h₁
  have hend : { st₁ with loop := st.loop } = st' := by
    cases hloop : st₁.loop with
    | atNeed label =>
        cases label with
        | some n =>
            simp only [hloop] at heq
            cases heq
            rfl
        | none =>
            simp only [hloop] at heq
            cases heq
            rfl
    | _ =>
        simp only [hloop] at heq
        cases heq
        rfl
  subst hend
  refine ⟨hstrings, ?_, hcalled, by simp [Usage.closed], hfits⟩
  have hcount' : st₁.count = st.count + u.numbers +
      (if u.continues = true ∧ loop = .atNeed none then 1 else 0) := hcount
  simp only [hcount']
  by_cases hloop : loop = .atNeed none <;> cases hu : u.continues <;>
    simp [Usage.closed, hloop, hu, Nat.add_assoc]

theorem Expr.takes : ∀ e : Expr, e.emits.Takes e.usage
  | .plain => fun st ls st' hrun => by
      cases hrun
      exact .same st
  | .string => fun st ls st' hrun => by
      cases hrun
      exact ⟨rfl, rfl, fun _ => by simp [usage, Usage.empty], by simp [usage, Usage.empty], id⟩
  | .call f args => by
      have hcall : Emits.Takes (fun st => some ([], { st with called := f :: st.called }))
          { Usage.empty with calls := [f] } := by
        intro st ls st' hrun
        cases hrun
        exact ⟨rfl, rfl, fun g => by simp [or_comm], by simp [Usage.empty], id⟩
      exact args.takes.then hcall
  | .both a b => a.takes.then b.takes
  | .short a b => by
      have hlast := fun n => b.takes.then (takes_emit (.numbered n))
      simp only [append_empty] at hlast
      exact a.takes.then (takes_newlbl hlast)

theorem takes_docontinue : docontinue.Takes { Usage.empty with continues := true } := by
  intro st ls st' hrun
  rw [docontinue.eq_def] at hrun
  cases hloop : st.loop with
  | outside =>
      rw [hloop] at hrun
      cases hrun
  | given =>
      rw [hloop] at hrun
      cases hrun
      exact ⟨rfl, by simp [Usage.empty, hloop], fun _ => by simp [Usage.empty], by simp [hloop], id⟩
  | atNeed label =>
      rw [hloop] at hrun
      cases label with
      | some n =>
          cases hrun
          exact ⟨rfl, by simp [Usage.empty, hloop], fun _ => by simp [Usage.empty],
            by simp [hloop], id⟩
      | none =>
          by_cases hmax : 1000000000 ≤ st.count
          · rw [newlbl, if_pos hmax] at hrun
            cases hrun
          · rw [newlbl, if_neg hmax] at hrun
            cases hrun
            exact ⟨rfl, by simp [Usage.empty, hloop], fun _ => by simp [Usage.empty], by simp,
              fun _ => Nat.lt_of_not_le hmax⟩

theorem Stmt.takes : ∀ s : Stmt, s.emits.Takes s.usage
  | .expr e => e.takes
  | .label l => fun st ls st' hrun => by
      cases hrun
      exact .same st
  | .seq a b => a.takes.then b.takes
  | .block s => s.takes
  | .ifThen c a => by
      have hbody := fun n => a.takes.then (takes_emit (.numbered n))
      simp only [append_empty] at hbody
      exact c.takes.then (takes_newlbl hbody)
  | .ifElse c a b => by
      have hinner := fun n m => (takes_emit (.numbered n)).then
        (b.takes.then (takes_emit (.numbered m)))
      simp only [append_empty, empty_append] at hinner
      have helse := fun n => a.takes.then (takes_newlbl (hinner n))
      exact c.takes.then (takes_newlbl helse)
  | .while c s => by
      have hbody := fun m => (takes_inLoop .given s.takes).then (takes_emit (.numbered m))
      simp only [append_empty] at hbody
      have htop := fun n => (takes_emit (.numbered n)).then (c.takes.then (takes_newlbl hbody))
      simp only [empty_append] at htop
      exact takes_newlbl htop
  | .doWhile s c => by
      have hbody := fun m => (takes_inLoop (.atNeed none) s.takes).then
        (c.takes.then (takes_emit (.numbered m)))
      simp only [append_empty] at hbody
      have htop := fun n => (takes_emit (.numbered n)).then (takes_newlbl hbody)
      simp only [empty_append] at htop
      exact takes_newlbl htop
  | .for init cond step s => by
      have hbody := fun top exit next body => (takes_emit (.numbered top)).then <|
        cond.takes.then <| (takes_emit (.numbered next)).then <| step.takes.then <|
          (takes_emit (.numbered body)).then <| (takes_inLoop .given s.takes).then
            (takes_emit (.numbered exit))
      simp only [append_empty, empty_append] at hbody
      exact init.takes.then (takes_newlbl fun top => takes_newlbl fun exit =>
        takes_newlbl fun next => takes_newlbl (hbody top exit next))
  | .break => fun st ls st' hrun => by
      by_cases hloop : st.loop = .outside
      · rw [Stmt.emits, dobreak, if_pos hloop] at hrun
        cases hrun
      · rw [Stmt.emits, dobreak, if_neg hloop] at hrun
        cases hrun
        exact .same st
  | .continue => takes_docontinue

theorem definitions_takes : ∀ ds : List Definition, (definitions ds).Takes (usage ds)
  | [] => fun st ls st' hrun => by
      cases hrun
      exact .same st
  | .global x :: ds => by
      have hfirst := (takes_emit (.global x)).then (takes_emit (.globalSkip x))
      have hall := hfirst.then (definitions_takes ds)
      rwa [append_empty, empty_append] at hall
  | .function f body :: ds => by
      have hbody := (takes_emit (.function f)).then (takes_inLoop .outside body.takes)
      rw [empty_append] at hbody
      refine Emits.Takes.then (fun st ls st' hrun => ?_) (definitions_takes ds)
      obtain ⟨hstrings, hcount, hcalled, hloop, hfits⟩ := hbody _ ls st' hrun
      exact ⟨hstrings, hcount, hcalled, hloop, hfits⟩

/-- The runtime's `calloc` is in the output. -/
def CallocLinked (ds : List Definition) : Prop :=
  Routine.calloc.Linked (usage ds).calls (functions ds)

instance (ds : List Definition) : Decidable (CallocLinked ds) := inferInstanceAs (Decidable (_ ∧ _))

/-- How often a label is defined in the output. -/
def total (ds : List Definition) : Label → ℕ
  | .function f => (functions ds).count f
  | .numbered n => if n < (usage ds).numbers then 1 else 0
  | .string n => if n < (usage ds).strings then 1 else 0
  | .stringSkip n => if n < (usage ds).strings then 1 else 0
  | .global x => (globals ds).count x
  | .globalSkip x => (globals ds).count x
  | .goto f l => (gotosFrom 0 ds).count (f, l)
  | .routine r => if r.Linked (usage ds).calls (functions ds) then 1 else 0
  | .callocHave => if Routine.calloc.Linked (usage ds).calls (functions ds) then 1 else 0
  | .callocPointer => if Routine.calloc.Linked (usage ds).calls (functions ds) then 1 else 0

theorem count_filter_cons {p : Routine → Bool} (r : Routine) (rs : List Routine) (l : Label) :
    (((r :: rs).filter p).flatMap Routine.labels).count l =
      (if p r = true then r.labels.count l else 0) +
        ((rs.filter p).flatMap Routine.labels).count l := by
  by_cases hp : p r = true
  · rw [List.filter_cons_of_pos hp, List.flatMap_cons, List.count_append, if_pos hp]
  · rw [List.filter_cons_of_neg hp, if_neg hp, Nat.zero_add]

/-- Every routine is there at most once. -/
theorem count_emitRuntime (called defined : List Name) (l : Label) :
    (emitRuntime called defined).count l =
      match l with
      | .routine r => if r.Linked called defined then 1 else 0
      | .callocHave => if Routine.calloc.Linked called defined then 1 else 0
      | .callocPointer => if Routine.calloc.Linked called defined then 1 else 0
      | _ => 0 := by
  simp only [emitRuntime, routines, count_filter_cons, decide_eq_true_eq]
  cases l with
  | routine r => cases r <;> simp [Routine.labels]
  | _ => simp [Routine.labels]

theorem linked_congr {called called' : List Name} (h : ∀ f, f ∈ called ↔ f ∈ called') (r : Routine)
    (defined : List Name) : r.Linked called defined ↔ r.Linked called' defined := by
  simp only [Routine.Linked, List.mem_map, h]

theorem labels_eq_some {ds : List Definition} {ls : List Label} (h : labels ds = some ls) :
    ∃ ls₁ st', definitions ds .start = some (ls₁, st') ∧
      ls₁ ++ emitRuntime st'.called (functions ds) = ls := by
  rw [labels] at h
  split_ifs at h
  obtain ⟨⟨ls₁, st'⟩, hrun, hls⟩ := Option.map_eq_some_iff.mp h
  exact ⟨ls₁, st', hrun, hls⟩

theorem count_labels {ds : List Definition} {ls : List Label} (h : labels ds = some ls)
    (l : Label) : ls.count l = total ds l := by
  obtain ⟨ls₁, st', hrun, rfl⟩ := labels_eq_some h
  obtain ⟨hstart, hend⟩ := definitions_run ds rfl hrun
  have hcounts := definitions_takes ds _ _ _ hrun
  have hstrings : st'.strings = (usage ds).strings := hcounts.strings.trans (Nat.zero_add _)
  have hcalled : ∀ f, f ∈ st'.called ↔ f ∈ (usage ds).calls := fun f => by
    simpa [State.start] using hcounts.called f
  have hcount : st'.count = (usage ds).numbers := by
    have hnone : ¬ ((usage ds).continues = true ∧ State.start.loop = .atNeed none) := nofun
    rw [hcounts.count, if_neg hnone]
    exact Nat.zero_add _
  rw [List.count_append, hstart.count_eq, count_emitRuntime]
  cases l with
  | numbered n =>
      have hnone : ([] : List ℕ).count n = 0 := rfl
      simp only [Summary.times, whole, total, hcount, hend, State.start, hnone]
      simp
  | string n | stringSkip n =>
      simp only [Summary.times, total, hstrings, State.start]
      simp
  | routine r | callocHave | callocPointer =>
      simp only [Summary.times, total, linked_congr hcalled, Nat.zero_add]
  | _ => rfl

theorem toNat_ofNat {n : ℕ} (h : n < 256) : (Char.ofNat n).toNat = n := by
  have hvalid : n.isValidChar := .inl (by omega)
  rw [Char.ofNat, dif_pos hvalid]
  rfl

theorem ofNat_eq_iff {m n : ℕ} (hm : m < 256) (hn : n < 256) :
    Char.ofNat m = Char.ofNat n ↔ m = n := by
  refine ⟨fun h => ?_, fun h => h ▸ rfl⟩
  rw [← toNat_ofNat hm, h, toNat_ofNat hn]

/-- Nine digits tell numbers apart. -/
theorem p6l_eq : ∀ (k : ℕ) {m n : ℕ} {xs ys : List Char}, m < 10 ^ k → n < 10 ^ k →
    xs.length = ys.length → p6l k m xs = p6l k n ys → m = n ∧ xs = ys
  | 0, m, n, xs, ys, hm, hn, _, h => by
      have hm' : m < 1 := hm
      have hn' : n < 1 := hn
      exact ⟨by omega, h⟩
  | k + 1, m, n, xs, ys, hm, hn, hlen, h => by
      rw [pow_succ] at hm hn
      obtain ⟨hdiv, hcons⟩ := p6l_eq k (Nat.div_lt_of_lt_mul (by omega))
        (Nat.div_lt_of_lt_mul (by omega)) (congrArg (· + 1) hlen) h
      obtain ⟨hchar, hrest⟩ := List.cons.inj hcons
      rw [ofNat_eq_iff (by omega) (by omega)] at hchar
      exact ⟨by omega, hrest⟩

/-- The four characters of a number are those of another one that differs by multiples of 256000. -/
theorem emitoff_eq_iff {m n : ℕ} : emitoff m = emitoff n ↔ m % 256000 = n % 256000 := by
  simp only [emitoff, List.cons.injEq, and_true]
  rw [ofNat_eq_iff (by omega) (by omega), ofNat_eq_iff (by omega) (by omega),
    ofNat_eq_iff (by omega) (by omega), ofNat_eq_iff (by omega) (by omega)]
  omega

/-- What counts the thousands is a blank or a newline. -/
def Cut (n : ℕ) : Prop := isSep (Char.ofNat ((n / 1000 + 48) % 256)) = true

instance (n : ℕ) : Decidable (Cut n) := inferInstanceAs (Decidable (_ = _))

theorem isSep_digit {d : ℕ} (h : d < 10) : isSep (Char.ofNat (d + 48)) = false :=
  (by decide : ∀ d : Fin 10, isSep (Char.ofNat (d + 48)) = false) ⟨d, h⟩

theorem cut_iff {n : ℕ} : Cut n ↔
    (n / 1000 + 48) % 256 = 32 ∨ (n / 1000 + 48) % 256 = 9 ∨ (n / 1000 + 48) % 256 = 10 := by
  have hspace : (' ' : Char) = Char.ofNat 32 := rfl
  have htab : ('\t' : Char) = Char.ofNat 9 := rfl
  have hnewline : ('\n' : Char) = Char.ofNat 10 := rfl
  simp only [Cut, isSep, Bool.or_eq_true, decide_eq_true_eq, hspace, htab, hnewline, or_assoc]
  rw [ofNat_eq_iff (by omega) (by omega), ofNat_eq_iff (by omega) (by omega),
    ofNat_eq_iff (by omega) (by omega)]

theorem not_cut_of_lt {n : ℕ} (h : n < 217000) : ¬ Cut n := by
  rw [cut_iff]
  omega

theorem not_isSep_of_inName {c : Char} (h : inName c = true) : isSep c = false := by
  by_cases hsep : isSep c = true
  · simp only [isSep, Bool.or_eq_true, decide_eq_true_eq] at hsep
    obtain (rfl | rfl) | rfl := hsep <;> cases h
  · exact Bool.eq_false_iff.mpr hsep

theorem takeWhile_name (f : Name) : f.text.takeWhile (fun c => !isSep c) = f.text := by
  rw [List.takeWhile_eq_self_iff]
  intro c hc
  rw [not_isSep_of_inName (f.ok.2 c hc)]
  rfl

theorem name_function (f : Name) : (Label.function f).name = f.text := takeWhile_name f

theorem name_global (x : Name) : (Label.global x).name = ['g', '_'] ++ x.text := by
  rw [← takeWhile_name x]
  rfl

theorem name_globalSkip (x : Name) :
    (Label.globalSkip x).name = ['_', '_', 'g', 's'] ++ x.text := by
  rw [← takeWhile_name x]
  rfl

theorem name_numbered (n : ℕ) : (Label.numbered n).name = ['_', '_', 'L'] ++ p6l 9 n [] := by
  rw [Label.name, List.takeWhile_eq_self_iff.mpr]
  · rfl
  · intro c hc
    rcases List.mem_append.mp hc with hc | hc
    · simp only [List.mem_cons, List.not_mem_nil, or_false] at hc
      obtain rfl | rfl | rfl := hc <;> rfl
    · rcases isDigit_of_mem_p6l hc with hc | hc
      · cases hc
      · rw [not_isSep_of_inName (by simp [inName, Char.isAlphanum, hc])]
        rfl

theorem name_routine (r : Routine) : (Label.routine r).name = r.text := by
  cases r <;> rfl

/-- Behind a prefix without blanks a number is read whole or not at all. -/
theorem takeWhile_emitoff (n : ℕ) (rest : List Char) :
    (emitoff n ++ rest).takeWhile (fun c => !isSep c) =
      if Cut n then [] else emitoff n ++ rest.takeWhile fun c => !isSep c := by
  by_cases hcut : Cut n
  · rw [if_pos hcut]
    exact List.takeWhile_cons_of_neg (by rw [hcut]; decide)
  · rw [if_neg hcut, List.takeWhile_append_of_pos]
    intro c hc
    simp only [emitoff, List.mem_cons, List.not_mem_nil, or_false] at hc
    obtain rfl | rfl | rfl | rfl := hc
    · rw [Bool.eq_false_iff.mpr hcut]
      rfl
    · rw [isSep_digit (by omega)]
      rfl
    · rw [isSep_digit (by omega)]
      rfl
    · rw [isSep_digit (by omega)]
      rfl

theorem takeWhile_emitoff_nil (n : ℕ) :
    (emitoff n).takeWhile (fun c => !isSep c) = if Cut n then [] else emitoff n := by
  have h := takeWhile_emitoff n []
  rwa [List.append_nil, List.takeWhile_nil, List.append_nil] at h

theorem name_string (n : ℕ) :
    (Label.string n).name = ['_', '_', 'd'] ++ if Cut n then [] else emitoff n := by
  rw [← takeWhile_emitoff_nil]
  rfl

theorem name_stringSkip (n : ℕ) :
    (Label.stringSkip n).name = ['_', '_', 'd', 's'] ++ if Cut n then [] else emitoff n := by
  rw [← takeWhile_emitoff_nil]
  rfl

theorem name_goto (k : ℕ) (l : Name) : (Label.goto k l).name =
    ['_', '_', 'L', 'g'] ++ if Cut k then [] else emitoff k ++ '_' :: l.text := by
  have h := takeWhile_emitoff k ('_' :: l.text)
  rw [List.takeWhile_cons_of_pos rfl, takeWhile_name] at h
  rw [← h]
  rfl

/-- By its first characters, what a label is that is no function's. -/
def kindOf : List Char → ℕ
  | '_' :: '_' :: 'L' :: 'g' :: _ => 6
  | '_' :: '_' :: 'L' :: _ => 1
  | '_' :: '_' :: 'd' :: 's' :: rest => if rest.length = 3 then 2 else 3
  | '_' :: '_' :: 'd' :: _ => 2
  | '_' :: '_' :: 'g' :: _ => 5
  | '_' :: '_' :: 'c' :: _ => 8
  | '_' :: '_' :: 'm' :: _ => 9
  | 'g' :: '_' :: _ => 4
  | _ => 7

def Label.kind : Label → ℕ
  | function _ => 0
  | numbered _ => 1
  | string _ => 2
  | stringSkip _ => 3
  | global _ => 4
  | globalSkip _ => 5
  | goto _ _ => 6
  | routine _ => 7
  | callocHave => 8
  | callocPointer => 9

theorem kindOf_name {l : Label} (h : ∀ f, l ≠ .function f) : kindOf l.name = l.kind := by
  cases l with
  | function f => exact absurd rfl (h f)
  | numbered n =>
      rw [name_numbered]
      cases hdigits : p6l 9 n [] with
      | nil => rfl
      | cons c rest =>
          have hc : c ≠ 'g' := by
            rintro rfl
            rcases isDigit_of_mem_p6l (hdigits ▸ List.mem_cons_self) with hc | hc
            · cases hc
            · cases hc
          simp [kindOf, hc, Label.kind]
  | string n =>
      rw [name_string]
      by_cases hcut : Cut n
      · rw [if_pos hcut]
        rfl
      · rw [if_neg hcut, emitoff]
        by_cases hs : Char.ofNat ((n / 1000 + 48) % 256) = 's'
        · rw [hs]
          rfl
        · simp [kindOf, hs, Label.kind]
  | stringSkip n =>
      rw [name_stringSkip]
      by_cases hcut : Cut n
      · rw [if_pos hcut]
        rfl
      · rw [if_neg hcut]
        rfl
  | global x =>
      rw [name_global]
      rfl
  | globalSkip x =>
      rw [name_globalSkip]
      rfl
  | goto k l =>
      rw [name_goto]
      rfl
  | routine r => cases r <;> rfl
  | callocHave => rfl
  | callocPointer => rfl

theorem Name.eq_of_text {f g : Name} (h : f.text = g.text) : f = g := by
  cases f
  cases g
  cases h
  rfl

/-- What is read of a label for `goto`: nothing, or the number of its function up to multiples of
256000 and its name. -/
def gotoKey (g : ℕ × Name) : Option (ℕ × Name) := if Cut g.1 then none else some (g.1 % 256000, g.2)

theorem name_goto_eq_iff {g h : ℕ × Name} :
    (Label.goto g.1 g.2).name = (Label.goto h.1 h.2).name ↔ gotoKey g = gotoKey h := by
  rw [name_goto, name_goto, List.append_cancel_left_eq, gotoKey, gotoKey]
  by_cases hg : Cut g.1 <;> by_cases hh : Cut h.1 <;> simp only [hg, hh, if_true, if_false]
  · simp [emitoff]
  · simp [emitoff]
  · have hlen : (emitoff g.1).length = (emitoff h.1).length := rfl
    rw [Option.some.injEq, Prod.mk.injEq, ← emitoff_eq_iff]
    constructor
    · intro heq
      obtain ⟨hnumber, hname⟩ := List.append_inj heq hlen
      exact ⟨hnumber, Name.eq_of_text (List.cons.inj hname).2⟩
    · rintro ⟨hnumber, hname⟩
      rw [hnumber, hname]

/-- Functions and global variables have different names, and so have the labels of a function. -/
structure Distinct (ds : List Definition) : Prop where
  names : (functions ds ++ globals ds).Nodup
  gotos : (gotosFrom 0 ds).Nodup

/-- How something reads that the compiler makes up. -/
def Made (ds : List Definition) (t : List Char) : Prop :=
  (∃ x ∈ globals ds, t = (Label.global x).name ∨ t = (Label.globalSkip x).name) ∨
    (∃ n < (usage ds).numbers, t = (Label.numbered n).name) ∨
    (∃ n < (usage ds).strings, t = (Label.string n).name ∨ t = (Label.stringSkip n).name) ∨
    (∃ g ∈ gotosFrom 0 ds, t = (Label.goto g.1 g.2).name) ∨
    CallocLinked ds ∧ (t = Label.callocHave.name ∨ t = Label.callocPointer.name)

structure Clear (ds : List Definition) : Prop where
  /-- The first number with a blank is 217000. -/
  strings : (usage ds).strings ≤ 217001
  gotos : ((gotosFrom 0 ds).map gotoKey).Nodup
  functions : ∀ f ∈ functions ds, ¬ Made ds f.text

theorem pos_iff {p : Prop} [Decidable p] : 0 < (if p then 1 else 0) ↔ p := by
  split_ifs with h <;> simp [h]

theorem nodup_labels {ds : List Definition} {ls : List Label} (hds : Distinct ds)
    (h : labels ds = some ls) : ls.Nodup := by
  rw [List.nodup_iff_count_le_one]
  intro l
  rw [count_labels h]
  obtain ⟨hfunctions, hglobals, -⟩ := List.nodup_append.mp hds.names
  cases l with
  | function f => exact List.nodup_iff_count_le_one.mp hfunctions f
  | global x | globalSkip x => exact List.nodup_iff_count_le_one.mp hglobals x
  | goto k l => exact List.nodup_iff_count_le_one.mp hds.gotos (k, l)
  | _ =>
      simp only [total]
      split_ifs <;> omega

theorem mem_labels {ds : List Definition} {ls : List Label} (h : labels ds = some ls) (l : Label) :
    l ∈ ls ↔ 0 < total ds l := by
  rw [← count_labels h, List.count_pos_iff]

/-- A label that is in the output and no function's reads like something that is made up, or like
a routine. -/
theorem made_of_mem {ds : List Definition} {l : Label} (hmem : 0 < total ds l)
    (hl : ∀ f, l ≠ .function f) (hr : ∀ r, l ≠ .routine r) : Made ds l.name := by
  cases l with
  | function f => exact absurd rfl (hl f)
  | routine r => exact absurd rfl (hr r)
  | numbered n =>
      have hn : n < (usage ds).numbers := pos_iff.mp hmem
      exact .inr (.inl ⟨n, hn, rfl⟩)
  | string n =>
      have hn : n < (usage ds).strings := pos_iff.mp hmem
      exact .inr (.inr (.inl ⟨n, hn, .inl rfl⟩))
  | stringSkip n =>
      have hn : n < (usage ds).strings := pos_iff.mp hmem
      exact .inr (.inr (.inl ⟨n, hn, .inr rfl⟩))
  | global x => exact .inl ⟨x, List.count_pos_iff.mp hmem, .inl rfl⟩
  | globalSkip x => exact .inl ⟨x, List.count_pos_iff.mp hmem, .inr rfl⟩
  | goto k l => exact .inr (.inr (.inr (.inl ⟨(k, l), List.count_pos_iff.mp hmem, rfl⟩)))
  | callocHave =>
      have hlinked : CallocLinked ds := pos_iff.mp hmem
      exact .inr (.inr (.inr (.inr ⟨hlinked, .inl rfl⟩)))
  | callocPointer =>
      have hlinked : CallocLinked ds := pos_iff.mp hmem
      exact .inr (.inr (.inr (.inr ⟨hlinked, .inr rfl⟩)))

/-- What is made up is a label of the output. -/
theorem mem_of_made {ds : List Definition} {t : List Char} (h : Made ds t) :
    ∃ l : Label, 0 < total ds l ∧ (∀ f, l ≠ .function f) ∧ t = l.name := by
  rcases h with ⟨x, hx, rfl | rfl⟩ | ⟨n, hn, rfl⟩ | ⟨n, hn, rfl | rfl⟩ | ⟨g, hg, rfl⟩ |
    ⟨hlinked, rfl | rfl⟩
  · exact ⟨.global x, List.count_pos_iff.mpr hx, fun _ => nofun, rfl⟩
  · exact ⟨.globalSkip x, List.count_pos_iff.mpr hx, fun _ => nofun, rfl⟩
  · exact ⟨.numbered n, pos_iff.mpr hn, fun _ => nofun, rfl⟩
  · exact ⟨.string n, pos_iff.mpr hn, fun _ => nofun, rfl⟩
  · exact ⟨.stringSkip n, pos_iff.mpr hn, fun _ => nofun, rfl⟩
  · exact ⟨.goto g.1 g.2, List.count_pos_iff.mpr hg, fun _ => nofun, rfl⟩
  · exact ⟨.callocHave, pos_iff.mpr hlinked, fun _ => nofun, rfl⟩
  · exact ⟨.callocPointer, pos_iff.mpr hlinked, fun _ => nofun, rfl⟩

theorem routine_text_inj : ∀ {r s : Routine}, r.text = s.text → r = s := by
  intro r s h
  cases r <;> cases s <;> first | rfl | exact absurd h (by decide)

/-- Numbers of strings up to the first one with a blank. -/
theorem number_eq {m n : ℕ} (hm : m < 217001) (hn : n < 217001)
    (h : (if Cut m then [] else emitoff m) = if Cut n then [] else emitoff n) : m = n := by
  by_cases hcm : Cut m <;> by_cases hcn : Cut n
  · have hm' : ¬ m < 217000 := fun hlt => not_cut_of_lt hlt hcm
    have hn' : ¬ n < 217000 := fun hlt => not_cut_of_lt hlt hcn
    omega
  · rw [if_pos hcm, if_neg hcn] at h
    cases h
  · rw [if_neg hcm, if_pos hcn] at h
    cases h
  · rw [if_neg hcm, if_neg hcn, emitoff_eq_iff] at h
    omega

/-- Labels in the output that are no functions'. -/
theorem eq_of_name_eq {ds : List Definition} (hclear : Clear ds)
    (hfits : (usage ds).numbers ≤ 1000000000) {a b : Label} (ha : 0 < total ds a)
    (hb : 0 < total ds b) (hfa : ∀ f, a ≠ .function f) (hfb : ∀ f, b ≠ .function f)
    (h : a.name = b.name) : a = b := by
  have hkind : a.kind = b.kind := by rw [← kindOf_name hfa, ← kindOf_name hfb, h]
  have hstrings := hclear.strings
  cases a <;> cases b <;> cases hkind
  case function.function.refl f g => exact absurd rfl (hfa f)
  case numbered.numbered.refl m n =>
      have hm : m < (usage ds).numbers := pos_iff.mp ha
      have hn : n < (usage ds).numbers := pos_iff.mp hb
      rw [name_numbered, name_numbered] at h
      rw [(p6l_eq 9 (by omega) (by omega) rfl (List.append_cancel_left h)).1]
  case string.string.refl m n =>
      have hm : m < (usage ds).strings := pos_iff.mp ha
      have hn : n < (usage ds).strings := pos_iff.mp hb
      rw [name_string, name_string] at h
      rw [number_eq (by omega) (by omega) (List.append_cancel_left h)]
  case stringSkip.stringSkip.refl m n =>
      have hm : m < (usage ds).strings := pos_iff.mp ha
      have hn : n < (usage ds).strings := pos_iff.mp hb
      rw [name_stringSkip, name_stringSkip] at h
      rw [number_eq (by omega) (by omega) (List.append_cancel_left h)]
  case global.global.refl x y =>
      rw [name_global, name_global] at h
      rw [Name.eq_of_text (List.append_cancel_left h)]
  case globalSkip.globalSkip.refl x y =>
      rw [name_globalSkip, name_globalSkip] at h
      rw [Name.eq_of_text (List.append_cancel_left h)]
  case goto.goto.refl j l k m =>
      have hj : (j, l) ∈ gotosFrom 0 ds := List.count_pos_iff.mp ha
      have hk : (k, m) ∈ gotosFrom 0 ds := List.count_pos_iff.mp hb
      have hkeys := (@name_goto_eq_iff (j, l) (k, m)).mp h
      cases List.inj_on_of_nodup_map hclear.gotos hj hk hkeys
      rfl
  case routine.routine.refl r s =>
      rw [name_routine, name_routine] at h
      rw [routine_text_inj h]
  case callocHave.callocHave.refl => rfl
  case callocPointer.callocPointer.refl => rfl

/-- A function's label and one that is none. -/
theorem function_name_ne {ds : List Definition} (hclear : Clear ds) {f : Name} {l : Label}
    (hf : f ∈ functions ds) (hmem : 0 < total ds l) (hl : ∀ g, l ≠ .function g) :
    l.name ≠ f.text := by
  intro heq
  by_cases hr : ∃ r, l = .routine r
  · obtain ⟨r, rfl⟩ := hr
    have hlinked : r.Linked (usage ds).calls (functions ds) := pos_iff.mp hmem
    rw [name_routine] at heq
    exact hlinked.2 (heq ▸ List.mem_map_of_mem hf)
  · exact hclear.functions f hf (heq ▸ made_of_mem hmem hl fun r hlr => hr ⟨r, hlr⟩)

/-- `int x; int g_x() { }`: both have the label `:g_x`. -/
def prefixed : List Definition :=
  [.global ⟨['x'], by simp [inName]⟩,
    .function ⟨['g', '_', 'x'], by simp [inName]⟩ (.expr .plain)]

end Veron.PicoC.Labels
