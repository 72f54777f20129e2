/-
`realpath` of the runtime: a path is walked over a component at a time, and the kept
ones are written to a buffer whose cursor backs up over the slashes.
-/
import Mathlib.Data.List.TakeWhile
import Veron.Loop
import Veron.PathText

namespace Veron.Realpath

open PathText

/-- What keeps a call from returning. -/
inductive Fault where
  | outside
  | stuck
deriving DecidableEq

def get (cells : List Char) (k : ℕ) : Except Fault Char :=
  match cells[k]? with
  | none => .error .outside
  | some c => .ok c

def put (cells : List Char) (k : ℕ) (c : Char) : Except Fault (List Char) :=
  if k < cells.length then .ok (cells.set k c) else .error .outside

/-- `(w > least) && ('/' == resolved[w - 1])`. -/
def slashBefore (resolved : List Char) (least w : ℕ) : Except Fault Bool :=
  if least < w then do return (← get resolved (w - 1)) = '/' else return false

/-- The cursor goes back to just after a slash, or to 1. -/
def backUp (resolved : List Char) : ℕ → Except Fault ℕ
  | w + 2 => do
      if (← get resolved (w + 1)) ≠ '/' then backUp resolved (w + 1) else return w + 2
  | w => .ok w

/-- `resolved[w] = path[i]`, and on, so many times. -/
def copyChars (path : List Char) : ℕ → ℕ → ℕ → List Char → Except Fault (ℕ × List Char)
  | 0, _, w, resolved => .ok (w, resolved)
  | count + 1, i, w, resolved => do
      let resolved ← put resolved w (← get path i)
      copyChars path count (i + 1) (w + 1) resolved

structure Walk where
  i : ℕ
  w : ℕ
  resolved : List Char

/-- The component that starts at `i`, and where it ends. -/
def component (path : List Char) (i : ℕ) : List Char := (path.drop i).takeWhile (· ≠ '/')

def componentEnd (path : List Char) (i : ℕ) : ℕ := i + (component path i).length

/-- A turn of the walk. -/
def turn (path : List Char) (s : Walk) : Except Fault (Option Walk) :=
  if s.i < path.length then do
    let c ← get path s.i
    if c = '/' then
      if ← slashBefore s.resolved 0 s.w then return some { s with i := s.i + 1 }
      else return some ⟨s.i + 1, s.w + 1, ← put s.resolved s.w '/'⟩
    else
      let j := componentEnd path s.i
      if j - s.i = 1 ∧ c = '.' then return some { s with i := j + 1 }
      else if j - s.i = 2 ∧ c = '.' ∧ path[s.i + 1]? = some '.' then
        if s.w > 1 then return some ⟨j + 1, ← backUp s.resolved (s.w - 1), s.resolved⟩
        else return some { s with i := j + 1 }
      else
        let (w, resolved) ← copyChars path (j - s.i) s.i s.w s.resolved
        return some ⟨j, w, resolved⟩
  else return none

/-- After the walk: no trailing slash, at least the root, and a NUL. -/
def finish (s : Walk) : Except Fault (List Char) := do
  let w := if ← slashBefore s.resolved 1 s.w then s.w - 1 else s.w
  if w = 0 then put (← put s.resolved 0 '/') 1 '\x00'
  else put s.resolved w '\x00'

/-- The path is the text before its NUL; `malloc` and the result are `none` for NULL. -/
def realpath (malloc : ℕ → Option (List Char)) (path : List Char)
    (resolved : Option (List Char)) : Except Fault (Option (List Char)) :=
  let n := path.length
  match resolved <|> malloc (n + 1) with
  | none => return none
  | some resolved => do
      if path.head? ≠ some '/' then
        let (_, resolved) ← copyChars (path ++ ['\x00']) (n + 1) 0 0 resolved
        return some resolved
      else
        let s ← Loop.run .stuck (turn path) (n + 2) ⟨0, 0, resolved⟩
        return some (← finish s)

/-- The buffer begins with the text, and is as it was at the start after so many cells. -/
structure Written (n : ℕ) (start text resolved : List Char) : Prop where
  text : text <+: resolved
  rest : resolved.drop (n + 1) = start.drop (n + 1)
  length : resolved.length = start.length

variable {n least i count : ℕ} {start text resolved path name base : List Char}

theorem Written.take (hw : Written n start text resolved) (htake : name <+: text) :
    Written n start name resolved :=
  ⟨htake.trans hw.text, hw.rest, hw.length⟩

/-- A character put behind the text. -/
theorem Written.put (hw : Written n start text resolved) (hroom : n < start.length)
    (htext : text.length ≤ n) (c : Char) :
    ∃ r, put resolved text.length c = .ok r ∧ Written n start (text ++ [c]) r := by
  have hlt : text.length < resolved.length := by
    rw [hw.length]
    omega
  refine ⟨resolved.set text.length c, if_pos hlt, ?_, ?_, ?_⟩
  · obtain ⟨after, rfl⟩ := hw.text
    cases after with
    | nil => simp at hlt
    | cons d after => exact ⟨after, by simp⟩
  · rw [List.drop_set_of_lt (by omega)]
    exact hw.rest
  · rw [List.length_set]
    exact hw.length

theorem get_text {k : ℕ} (htext : text <+: resolved) (hk : k < text.length) :
    get resolved k = .ok text[k] := by
  obtain ⟨after, rfl⟩ := htext
  simp [get, List.getElem?_append_left hk, List.getElem?_eq_getElem hk]

theorem slashBefore_eq (htext : text <+: resolved) (least : ℕ) :
    slashBefore resolved least text.length =
      .ok (decide (least < text.length ∧ text.getLast? = some '/')) := by
  rw [slashBefore]
  split
  · rename_i hless
    have hk : text.length - 1 < text.length := by omega
    rw [get_text htext hk, List.getLast?_eq_getElem?, List.getElem?_eq_getElem hk]
    simp only [hless, true_and, Option.some.injEq]
    rfl
  · rename_i hless
    simp [hless]
    rfl

theorem backUp_step {c : Char} {w : ℕ} (hget : get resolved (w + 1) = .ok c) :
    backUp resolved (w + 2) =
      if c ≠ '/' then backUp resolved (w + 1) else .ok (w + 2) := by
  rw [backUp, hget]
  rfl

theorem backUp_concat {c : Char} (htext : text ++ [c] <+: resolved) :
    backUp resolved (text ++ [c]).length =
      if text ≠ [] ∧ c ≠ '/' then backUp resolved text.length
      else .ok (text ++ [c]).length := by
  rcases List.eq_nil_or_concat text with rfl | ⟨text, d, rfl⟩
  · rfl
  · rw [List.concat_eq_append] at htext ⊢
    have hlast : get resolved (text.length + 1) = .ok c := by
      rw [get_text htext (by simp)]
      simp
    simpa using backUp_step hlast

/-- Backing up takes a name off. -/
theorem backUp_eq (hbase : base.getLast? = some '/') (hname : '/' ∉ name)
    (htext : base ++ name <+: resolved) :
    backUp resolved (base ++ name).length = .ok base.length := by
  obtain ⟨front, rfl⟩ : ∃ b, base = b ++ ['/'] := List.getLast?_eq_some_iff.mp hbase
  induction name using List.reverseRecOn with
  | nil =>
      rw [List.append_nil] at htext ⊢
      rw [backUp_concat htext, if_neg (by simp)]
  | append_singleton name c ih =>
      have hc : c ≠ '/' := by
        rintro rfl
        simp at hname
      rw [← List.append_assoc] at htext ⊢
      rw [backUp_concat htext, if_pos ⟨by simp, hc⟩]
      refine ih (fun hmem => hname (List.mem_append_left [c] hmem)) ?_
      exact (List.prefix_append _ [c]).trans htext

/-- Characters of the path put behind the text. -/
theorem copyChars_eq (hw : Written n start text resolved) (hroom : n < start.length)
    (htext : text.length + count ≤ n + 1) (hpath : i + count ≤ path.length) :
    ∃ r, copyChars path count i text.length resolved = .ok (text.length + count, r) ∧
      Written n start (text ++ (path.drop i).take count) r := by
  induction count generalizing i text resolved with
  | zero => exact ⟨resolved, rfl, by simpa using hw⟩
  | succ count ih =>
      have hi : i < path.length := by omega
      obtain ⟨r, hput, hr⟩ := hw.put hroom (by omega) path[i]
      obtain ⟨r', hcopy, hr'⟩ := ih (i := i + 1) hr (by simp; omega) (by omega)
      refine ⟨r', ?_, ?_⟩
      · have hget : get path i = .ok path[i] := get_text (List.prefix_refl path) hi
        rw [copyChars, hget]
        show (do let resolved ← Realpath.put resolved text.length path[i]; _) = _
        rw [hput]
        rw [List.length_append, List.length_singleton] at hcopy
        rw [Nat.add_right_comm, Nat.add_assoc] at hcopy
        exact hcopy
      · rw [List.drop_eq_getElem_cons hi, List.take_succ_cons]
        rwa [List.append_assoc, List.singleton_append] at hr'

end Veron.Realpath
