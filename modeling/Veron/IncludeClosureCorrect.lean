/-
`include_closure.py` prints every header that is reached, once and after those it includes,
just where no file is reached by two paths.
-/
import Veron.IncludeClosure

namespace Veron.IncludeClosure

open DepthFirst

/-- The paths that the seeds lead to. -/
abbrev Reaches (tree : Tree) (seeds : List (List Char)) : List Char → Prop :=
  Reached (includesOf tree) seeds

/-- Every quoted include of every file reached names something. -/
def Resolves (tree : Tree) (seeds : List (List Char)) : Prop :=
  ∀ p, Reaches tree seeds p → ∀ name ∈ names tree p, (resolve tree p name).isSome

/-- A file is none of the seeds, whatever the path to it. -/
def NonSeed (tree : Tree) (seeds : List (List Char)) (file : Option ℕ) : Prop :=
  ∀ s ∈ seeds, tree.file s ≠ file

/-- The lines printed, by the files they are paths of. -/
def files (tree : Tree) (e : Exit) : List (Option ℕ) := e.stdout.map tree.file

/-- The list of headers that is asked for: an edge may lead to a file further down only where it
closes a cycle that is reported. -/
structure Lists (tree : Tree) (seeds : List (List Char)) (e : Exit) : Prop where
  once : (files tree e).Nodup
  all : ∀ file, file ∈ files tree e ↔
    NonSeed tree seeds file ∧ ∃ p, Reaches tree seeds p ∧ tree.file p = file
  after : ∀ p q, Reaches tree seeds p → q ∈ includesOf tree p →
    NonSeed tree seeds (tree.file p) → NonSeed tree seeds (tree.file q) →
    [tree.file q, tree.file p].Sublist (files tree e) ∨
      cycleThrough q ∈ e.stderr ∧ Leads (includesOf tree) q p

structure Meets (tree : Tree) (seeds : List (List Char)) (e : Exit) : Prop where
  exit : e.code = 0 ↔ Resolves tree seeds
  lists : e.code = 0 → Lists tree seeds e

/-- A file has one path only among those reached, if it is no seed by each of them. -/
def Apart (tree : Tree) (seeds : List (List Char)) : Prop :=
  ∀ p q, Reaches tree seeds p → Reaches tree seeds q → tree.file p = tree.file q →
    p = q ∨ p ∈ seeds ∧ q ∈ seeds

/-- The calls inside one another are fewer than the room. -/
def RoomEnough (tree : Tree) (seeds : List (List Char)) (room : ℕ) : Prop :=
  ∀ {done stack p}, Call (includesOf tree) seeds done stack p → stack.length < room

variable {doc : List (List Char)} {tree : Tree} {room : ℕ} {root : List Char}
  {seeds : List (List Char)} {t : State (List Char) (List Char × List Char)}

theorem unresolved_eq_nil_iff (p : List Char) :
    unresolved tree p = [] ↔ ∀ name ∈ names tree p, (resolve tree p name).isSome := by
  rw [unresolved, List.map_eq_nil_iff, List.filter_eq_nil_iff]
  refine forall₂_congr fun name _ => ?_
  rw [← Option.not_isSome, Bool.not_eq_true', Bool.not_eq_false]

theorem notes_eq_nil_iff (h : closure tree room seeds = some t) :
    t.notes = [] ↔ Resolves tree seeds := by
  rw [List.eq_nil_iff_forall_not_mem]
  simp only [(search_found h).noted, not_exists, not_and]
  rw [forall_comm]
  refine forall_congr' fun p => ?_
  rw [forall_comm]
  refine forall_congr' fun _ => ?_
  rw [← List.eq_nil_iff_forall_not_mem, unresolved_eq_nil_iff]

theorem closure_isSome_iff :
    (closure tree room seeds).isSome ↔ RoomEnough tree seeds room := search_isSome_iff

/-- What is printed where everything resolves. -/
def printed (seeds : List (List Char)) (t : State (List Char) (List Char × List Char)) : Exit where
  code := 0
  stdout := t.order.filter fun p => !seeds.contains p
  stderr := (t.cycles.dedup.mergeSort).map cycleThrough

section Ends

variable (hne : seeds ≠ []) (hseeds : ∀ s ∈ seeds, (tree.file s).isSome)

include hne hseeds

theorem main_eq : main doc tree room root seeds =
    match closure tree room seeds with
    | none => { code := 1 }
    | some t =>
        if t.notes ≠ [] then
          { code := 1, stderr := t.notes.map (notFound root) ++ [refusing] }
        else printed seeds t := by
  have hfind : (seeds.find? fun s => (tree.file s).isNone) = none := by
    rw [List.find?_eq_none]
    intro s hs
    simp [Option.isSome_iff_ne_none.mp (hseeds s hs)]
  rw [main, if_neg hne, hfind]
  rfl

theorem main_code_of_none (h : closure tree room seeds = none) :
    (main doc tree room root seeds).code = 1 := by
  rw [main_eq hne hseeds, h]

theorem main_code_of_unresolved (h : closure tree room seeds = some t)
    (hnot : ¬ Resolves tree seeds) : (main doc tree room root seeds).code = 1 := by
  rw [main_eq hne hseeds, h]
  simp only [if_pos (mt (notes_eq_nil_iff h).mp hnot)]

theorem main_of_resolves (h : closure tree room seeds = some t) (hall : Resolves tree seeds) :
    main doc tree room root seeds = printed seeds t := by
  rw [main_eq hne hseeds, h]
  simp only [if_neg (not_not.mpr ((notes_eq_nil_iff h).mpr hall))]

end Ends

theorem mem_stdout (h : closure tree room seeds = some t) (p : List Char) :
    p ∈ (printed seeds t).stdout ↔ Reaches tree seeds p ∧ p ∉ seeds := by
  rw [printed, List.mem_filter, (search_found h).reached]
  simp

theorem cycleThrough_mem {q : List Char} (hq : q ∈ t.cycles) :
    cycleThrough q ∈ (printed seeds t).stderr :=
  List.mem_map_of_mem (List.mem_mergeSort.mpr (List.mem_dedup.mpr hq))

theorem lists_of_apart (h : closure tree room seeds = some t) (hapart : Apart tree seeds) :
    Lists tree seeds (printed seeds t) where
  once := by
    refine List.Nodup.map_on ?_ ((search_found h).nodup.filter _)
    intro p hp q hq heq
    obtain ⟨hp, hno⟩ := (mem_stdout h p).mp hp
    exact (hapart p q hp ((mem_stdout h q).mp hq).1 heq).resolve_right fun hboth => hno hboth.1
  all := by
    intro file
    constructor
    · intro hmem
      obtain ⟨p, hp, rfl⟩ := List.mem_map.mp hmem
      obtain ⟨hp, hno⟩ := (mem_stdout h p).mp hp
      refine ⟨fun s hs heq => ?_, p, hp, rfl⟩
      rcases hapart s p ⟨s, hs, .refl⟩ hp heq with rfl | hboth
      · exact hno hs
      · exact hno hboth.2
    · rintro ⟨hother, p, hp, rfl⟩
      exact List.mem_map_of_mem ((mem_stdout h p).mpr ⟨hp, fun hs => hother p hs rfl⟩)
  after := by
    intro p q hp hq hpother hqother
    have hkeep : [q, p].filter (fun x => !seeds.contains x) = [q, p] := by
      have hq : q ∉ seeds := fun hs => hqother q hs rfl
      have hp : p ∉ seeds := fun hs => hpother p hs rfl
      simp [hp, hq]
    refine ((search_found h).after p (((search_found h).reached p).mpr hp) q hq).imp ?_ ?_
    · intro hbefore
      have hfilter := hbefore.filter fun x => !seeds.contains x
      rw [hkeep] at hfilter
      exact hfilter.map tree.file
    · exact fun hback => ⟨cycleThrough_mem hback.1, hback.2⟩

theorem apart_of_lists (h : closure tree room seeds = some t)
    (hlists : Lists tree seeds (printed seeds t)) : Apart tree seeds := by
  -- Where one of two paths of a file is no seed, it is printed, so the other is none either.
  have hprinted : ∀ p q, Reaches tree seeds p → p ∉ seeds → tree.file p = tree.file q →
      q ∉ seeds := by
    intro p q hp hno heq hq
    have hmem := List.mem_map_of_mem (f := tree.file) ((mem_stdout h p).mpr ⟨hp, hno⟩)
    exact ((hlists.all _).mp hmem).1 q hq heq.symm
  intro p q hp hq heq
  by_cases hpseed : p ∈ seeds
  · refine .inr ⟨hpseed, ?_⟩
    by_contra hqseed
    exact hprinted q p hq hqseed heq.symm hpseed
  · have hqseed := hprinted p q hp hpseed heq
    exact .inl (List.inj_on_of_nodup_map hlists.once ((mem_stdout h p).mpr ⟨hp, hpseed⟩)
      ((mem_stdout h q).mpr ⟨hq, hqseed⟩) heq)

/-- The headers are listed as they should be just where, if every include resolves, there is a
seed, no file is reached by two paths, and there is room for the calls. -/
theorem main_meets_iff (doc : List (List Char)) (tree : Tree) (room : ℕ) (root : List Char)
    (seeds : List (List Char)) (hseeds : ∀ s ∈ seeds, (tree.file s).isSome) :
    Meets tree seeds (main doc tree room root seeds) ↔
      (Resolves tree seeds → seeds ≠ [] ∧ Apart tree seeds ∧ RoomEnough tree seeds room) := by
  by_cases hall : Resolves tree seeds
  · rw [forall_prop_of_true hall]
    constructor
    · intro hmeets
      have hcode := hmeets.exit.mpr hall
      have hne : seeds ≠ [] := by
        rintro rfl
        cases hcode
      refine ⟨hne, ?_⟩
      cases hclosure : closure tree room seeds with
      | none =>
          rw [main_code_of_none hne hseeds hclosure] at hcode
          cases hcode
      | some t =>
          refine ⟨apart_of_lists hclosure ?_, closure_isSome_iff.mp (by rw [hclosure]; rfl)⟩
          have hlists := hmeets.lists hcode
          rwa [main_of_resolves hne hseeds hclosure hall] at hlists
    · rintro ⟨hne, hapart, hroom⟩
      obtain ⟨t, hclosure⟩ := Option.isSome_iff_exists.mp (closure_isSome_iff.mpr hroom)
      rw [main_of_resolves hne hseeds hclosure hall]
      exact ⟨iff_of_true rfl hall, fun _ => lists_of_apart hclosure hapart⟩
  · have hcode : (main doc tree room root seeds).code ≠ 0 := by
      by_cases hne : seeds = []
      · rw [hne]
        exact Nat.succ_ne_zero 1
      cases hclosure : closure tree room seeds with
      | none =>
          rw [main_code_of_none hne hseeds hclosure]
          exact Nat.one_ne_zero
      | some t =>
          rw [main_code_of_unresolved hne hseeds hclosure hall]
          exact Nat.one_ne_zero
    exact iff_of_true ⟨iff_of_false hcode hall, fun h => absurd h hcode⟩ fun h => absurd h hall

/-- Two C files, one in a directory below, and a header at the root. -/
def oneHeader : Tree where
  file path :=
    if normpath path = "sub/a.c".toList then some 0
    else if normpath path = "b.c".toList then some 1
    else if normpath path = "x.h".toList then some 2
    else none
  text file :=
    if file = 0 then some "#include \"./x.h\"\n".toList
    else if file = 1 then some "#include \"x.h\"\n".toList
    else some []

/-- By the candidate that is relative to the root the header keeps the name that `sub/a.c` gives
it, and it is printed once for each name. -/
theorem header_listed_twice :
    (∀ s ∈ ["sub/a.c".toList, "b.c".toList], (oneHeader.file s).isSome) ∧
      (main [] oneHeader 900 "root".toList ["sub/a.c".toList, "b.c".toList]).stdout =
        ["./x.h".toList, "x.h".toList] ∧
      ¬ Meets oneHeader ["sub/a.c".toList, "b.c".toList]
        (main [] oneHeader 900 "root".toList ["sub/a.c".toList, "b.c".toList]) := by
  refine ⟨by decide, by decide, fun hmeets => ?_⟩
  exact absurd (hmeets.lists (by decide)).once (by decide)

theorem oneHeader_reached {p : List Char} (hp : Reaches oneHeader ["b.c".toList] p) :
    p = "b.c".toList ∨ p = "x.h".toList := by
  have hb : includesOf oneHeader "b.c".toList = ["x.h".toList] := by decide
  have hx : includesOf oneHeader "x.h".toList = [] := by decide
  obtain ⟨s, hs, hpath⟩ := hp
  cases List.mem_singleton.mp hs
  induction hpath with
  | refl => exact .inl rfl
  | tail _ hq ih =>
      rcases ih with rfl | rfl
      · rw [hb] at hq
        exact .inr (List.mem_singleton.mp hq)
      · rw [hx] at hq
        cases hq

theorem oneHeader_call {done : Set (List Char)} {stack : List (List Char)} {p : List Char}
    (h : Call (includesOf oneHeader) ["b.c".toList] done stack p) :
    stack = [] ∧ p = "b.c".toList ∨ stack.length = 1 ∧ p = "x.h".toList := by
  have hb : includesOf oneHeader "b.c".toList = ["x.h".toList] := by decide
  have hx : includesOf oneHeader "x.h".toList = [] := by decide
  induction h with
  | @seed front back p hsplit =>
      have hp : p ∈ front ++ p :: back := by simp
      rw [← hsplit] at hp
      exact .inl ⟨rfl, List.mem_singleton.mp hp⟩
  | @edge done stack front back p q _ _ _ hsplit ih =>
      have hq : q ∈ includesOf oneHeader p := by simp [hsplit]
      rcases ih with ⟨rfl, rfl⟩ | ⟨-, rfl⟩
      · rw [hb] at hq
        exact .inr ⟨rfl, List.mem_singleton.mp hq⟩
      · rw [hx] at hq
        cases hq

theorem header_listed_once : Meets oneHeader ["b.c".toList]
    (main [] oneHeader 900 "root".toList ["b.c".toList]) := by
  refine (main_meets_iff [] oneHeader 900 "root".toList ["b.c".toList] (by decide)).mpr fun _ => ?_
  refine ⟨by decide, fun p q hp hq heq => .inl ?_, fun hcall => ?_⟩
  · rcases oneHeader_reached hp with rfl | rfl <;> rcases oneHeader_reached hq with rfl | rfl
    · rfl
    · exact absurd heq (by decide)
    · exact absurd heq (by decide)
    · rfl
  · rcases oneHeader_call hcall with ⟨hlength, -⟩ | ⟨hlength, -⟩ <;> simp [hlength]

end Veron.IncludeClosure
