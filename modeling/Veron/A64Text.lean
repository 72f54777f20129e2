/-
Straight-line assembly read as text: an instruction, a label or a branch to a label on a line.
-/
import Veron.A64Run
import Veron.CutText
import Veron.SelfAssemblerForms

namespace Veron.A64

open SelfAssembler (Operand Form addSubName logicalName twoSourceName loadStoreName)

/-- A decimal number. -/
def number? (cs : List Char) : Option ℕ :=
  if cs = [] ∨ cs.any (fun c => !c.isDigit) then none
  else some (cs.foldl (fun v c => v * 10 + (c.toNat - 48)) 0)

/-- A register of either width, or a number. -/
def operand? : List Char → Option Operand
  | 'x' :: cs => (number? cs).map (.reg .x)
  | 'w' :: cs => (number? cs).map (.reg .w)
  | cs => (number? cs).map .num

def addSub? (name : List Char) : Option AddSub := [.add, .sub].find? (addSubName · = name)

def logical? (name : List Char) : Option Logical :=
  [.and, .orr, .eor].find? (logicalName · = name)

def twoSource? (name : List Char) : Option TwoSource :=
  [.udiv, .sdiv, .lslv, .lsrv, .asrv].find? (twoSourceName · = name)

def loadStore? (name : List Char) : Option LoadStore :=
  [.ldr, .str].find? (loadStoreName · = name)

/-- The instructions on 64-bit registers. -/
def instr? (name : List Char) : List Operand → Option Instr
  | [.reg .x d, .num imm] =>
      if name = ['m', 'o', 'v'] then some (.movWide .movz .x d imm)
      else if name = ['c', 'm', 'p'] then some (.cmpImm .x d imm) else none
  | [.reg .x t, .reg .x n] => (loadStore? name).map fun op => .loadStore op .x t n 0
  | [.reg .x d, .reg .x n, .num imm] => (addSub? name).map fun op => .addSubImm op .x d n imm
  | [.reg .x d, .reg .x n, .reg .x m] =>
      if name = ['m', 'u', 'l'] then some (.mul .x d n m)
      else match addSub? name, logical? name with
        | some op, _ => some (.addSubReg op .x d n m)
        | none, some op => some (.logical op .x d n m 0)
        | none, none => (twoSource? name).map fun op => .twoSource op .x d n m
  | _ => none

def cond? : List Char → Option Cond
  | ['b', '.', 'e', 'q'] => some .eq
  | ['b', '.', 'n', 'e'] => some .ne
  | _ => none

/-- A label, a branch to one, or an instruction. -/
def line? (cs : List Char) : Option Line :=
  if cs.head? = some ':' then some (.label cs.tail)
  else match cs.splitOn ' ' with
    | [] => none
    | name :: args => match cond? name, args with
        | some c, [target] => some (.branch c target)
        | _, _ => do (instr? name (← args.mapM operand?)).map .instr

/-- The lines with something on them, each of which must read. -/
def lines? (cs : List Char) : Option (List Line) :=
  ((cs.splitOn '\n').filter (· ≠ [])).mapM line?

variable {name : List Char} {i : Instr}

theorem eq_of_addSub? {op : AddSub} (h : addSub? name = some op) : addSubName op = name := by
  simpa using List.find?_some h

theorem eq_of_logical? {op : Logical} (h : logical? name = some op) : logicalName op = name := by
  simpa using List.find?_some h

theorem eq_of_twoSource? {op : TwoSource} (h : twoSource? name = some op) :
    twoSourceName op = name := by
  simpa using List.find?_some h

theorem eq_of_loadStore? {op : LoadStore} (h : loadStore? name = some op) :
    loadStoreName op = name := by
  simpa using List.find?_some h

/-- What is read is an instruction in a form of the self-assembler's language. -/
theorem form_of_instr? {ops : List Operand} (h : instr? name ops = some i) : Form i name ops := by
  unfold instr? at h
  split at h
  · split_ifs at h with hmov hcmp
    · cases h
      exact hmov ▸ .movImm
    · cases h
      exact hcmp ▸ .cmpImm
  · obtain ⟨op, hop, rfl⟩ := Option.map_eq_some_iff.mp h
    exact eq_of_loadStore? hop ▸ .loadStore
  · obtain ⟨op, hop, rfl⟩ := Option.map_eq_some_iff.mp h
    exact eq_of_addSub? hop ▸ .addSubImm
  · split_ifs at h with hmul
    · cases h
      exact hmul ▸ .mul
    · split at h
      · rename_i op hop
        cases h
        exact eq_of_addSub? hop ▸ .addSubReg
      · rename_i op hop
        cases h
        exact eq_of_logical? hop ▸ .logical
      · obtain ⟨op, hop, rfl⟩ := Option.map_eq_some_iff.mp h
        exact eq_of_twoSource? hop ▸ .twoSource
  · cases h

section Lines

variable {cs ds : List Char} {ls ms : List Line}

/-- Two texts with a newline between them are read one after the other. -/
theorem lines?_append (hcs : lines? cs = some ls) (hds : lines? ds = some ms) :
    lines? (cs ++ '\n' :: ds) = some (ls ++ ms) := by
  rw [lines?, List.splitOn_append_cons_self, List.filter_append, List.mapM_append, ← lines?,
    ← lines?, hcs, hds]
  rfl

theorem lines?_newline (h : lines? cs = some ls) : lines? (cs ++ ['\n']) = some ls := by
  simpa using lines?_append h (show lines? [] = some [] from rfl)

theorem lines?_singleton {l : Line} (hline : '\n' ∉ cs) (hne : cs ≠ []) (h : line? cs = some l) :
    lines? cs = some [l] := by
  rw [lines?, List.splitOn_eq_singleton hline]
  simp [hne, h]

/-- A text literal cut at a newline. -/
theorem toList_cut {s t u : String} (ht : t = .ofList cs) (hu : u = .ofList ds)
    (hs : s = .ofList (cs ++ '\n' :: ds)) : s.toList = t.toList ++ '\n' :: u.toList := by
  rw [hs, ht, hu, String.toList_ofList, String.toList_ofList, String.toList_ofList]

theorem toList_newline {s t : String} (ht : t = .ofList cs) (hs : s = .ofList (cs ++ ['\n'])) :
    s.toList = t.toList ++ ['\n'] := by
  rw [hs, ht, String.toList_ofList, String.toList_ofList]

theorem toList_newline_cons {s t : String} (ht : t = .ofList cs)
    (hs : s = .ofList ('\n' :: cs)) : s.toList = '\n' :: t.toList := by
  rw [hs, ht, String.toList_ofList, String.toList_ofList]

theorem line?_label (name : List Char) : line? (':' :: name) = some (.label name) := rfl

theorem line?_branch {c : Cond} (hname : ' ' ∉ name) (hcs : ' ' ∉ cs) (hc : cond? cs = some c)
    (hcolon : cs.head? ≠ some ':') : line? (cs ++ ' ' :: name) = some (.branch c name) := by
  have hne : cs ≠ [] := by
    rintro rfl
    cases hc
  have hhead : (cs ++ ' ' :: name).head? ≠ some ':' := by
    rwa [List.head?_append_of_ne_nil _ hne]
  rw [line?, if_neg hhead, List.splitOn_append_cons_self_of_not_mem hcs,
    List.splitOn_eq_singleton hname]
  simp [hc]

end Lines

end Veron.A64
