/-
What the 64-bit instructions of straight-line code do to the registers, the memory and the
flags, and how such code runs with branches to a label further on.
-/
import Mathlib.Logic.Function.Basic
import Veron.A64
import Veron.Bytes

namespace Veron.A64

abbrev Reg := BitVec 64

/-- The flags that `cmp` sets. -/
structure Flags where
  n : Bool
  z : Bool
  c : Bool
  v : Bool

structure Machine where
  reg : ℕ → Reg
  mem : Reg → UInt8
  flags : Flags

/-- The word at an address. -/
def load (mem : Reg → UInt8) (a : Reg) : Reg :=
  BitVec.ofNat 64 (leValue ((List.range 8).map fun i => mem (a + BitVec.ofNat 64 i)))

/-- The memory with a word put at an address. -/
def store (mem : Reg → UInt8) (a v : Reg) : Reg → UInt8 := fun x =>
  if (x - a).toNat < 8 then (leBytes 8 v.toNat).getD (x - a).toNat 0 else mem x

def Machine.set (s : Machine) (d : ℕ) (v : Reg) : Machine :=
  { s with reg := Function.update s.reg d v }

/-- `a - b`, as `cmp` looks at it. -/
def compare (a b : Reg) : Flags :=
  let d := a - b
  ⟨d.msb, d = 0, b ≤ a, a.msb ≠ b.msb ∧ d.msb ≠ a.msb⟩

def Cond.holds (f : Flags) : Cond → Bool
  | .eq => f.z
  | .ne => !f.z
  | .hs => f.c
  | .lo => !f.c
  | .hi => f.c && !f.z
  | .ls => !f.c || f.z
  | .ge => f.n = f.v
  | .lt => f.n ≠ f.v
  | .gt => !f.z && f.n = f.v
  | .le => f.z || f.n ≠ f.v

def AddSub.eval : AddSub → Reg → Reg → Reg
  | .add, a, b => a + b
  | .sub, a, b => a - b

def Logical.eval : Logical → Reg → Reg → Reg
  | .and, a, b => a &&& b
  | .orr, a, b => a ||| b
  | .eor, a, b => a ^^^ b

/-- A division by zero gives zero; a shift is by the amount modulo 64. -/
def TwoSource.eval : TwoSource → Reg → Reg → Reg
  | .udiv, a, b => a / b
  | .sdiv, a, b => a.sdiv b
  | .lslv, a, b => a <<< (b.toNat % 64)
  | .lsrv, a, b => a >>> (b.toNat % 64)
  | .asrv, a, b => a.sshiftRight (b.toNat % 64)

/-- One instruction on 64-bit registers; none of the others is in straight-line code. -/
def Instr.step : Instr → Machine → Option Machine
  | .movWide .movz .x d imm, s => some (s.set d (BitVec.ofNat 64 imm))
  | .movWide .movn .x d imm, s => some (s.set d (~~~ BitVec.ofNat 64 imm))
  | .movReg .x d m, s => some (s.set d (s.reg m))
  | .addSubImm op .x d n imm, s => some (s.set d (op.eval (s.reg n) (BitVec.ofNat 64 imm)))
  | .addSubReg op .x d n m, s => some (s.set d (op.eval (s.reg n) (s.reg m)))
  | .cmpImm .x n imm, s => some { s with flags := compare (s.reg n) (BitVec.ofNat 64 imm) }
  | .cmpReg .x n m, s => some { s with flags := compare (s.reg n) (s.reg m) }
  | .logical op .x d n m amount, s => some (s.set d (op.eval (s.reg n) (s.reg m <<< amount)))
  | .mul .x d n m, s => some (s.set d (s.reg n * s.reg m))
  | .twoSource op .x d n m, s => some (s.set d (op.eval (s.reg n) (s.reg m)))
  | .loadStore .ldr .x t n offset, s =>
      some (s.set t (load s.mem (s.reg n + BitVec.ofNat 64 offset)))
  | .loadStore .str .x t n offset, s =>
      some { s with mem := store s.mem (s.reg n + BitVec.ofNat 64 offset) (s.reg t) }
  | _, _ => none

/-- The register that an instruction writes which does nothing else. -/
def Instr.dest? : Instr → Option ℕ
  | .movWide _ .x d _ => some d
  | .movReg .x d _ => some d
  | .addSubImm _ .x d _ _ => some d
  | .addSubReg _ .x d _ _ => some d
  | .logical _ .x d _ _ _ => some d
  | .mul .x d _ _ => some d
  | .twoSource _ .x d _ _ => some d
  | _ => none

/-- A line: an instruction, a label, or a branch to one. -/
inductive Line where
  | instr (i : Instr)
  | label (name : List Char)
  | branch (c : Cond) (name : List Char)
deriving DecidableEq

/-- The lines behind a label further on. -/
def behind (name : List Char) : List Line → Option (List Line)
  | [] => none
  | l :: ls => if l = .label name then some ls else behind name ls

theorem length_behind {name : List Char} {ls rest : List Line} (h : behind name ls = some rest) :
    rest.length < ls.length := by
  induction ls with
  | nil => cases h
  | cons l ls ih =>
      rw [behind] at h
      split_ifs at h
      · cases h
        exact Nat.lt_succ_self _
      · exact Nat.lt_succ_of_lt (ih h)

/-- Runs lines to their end; a branch taken goes on behind its label, which is further on. -/
def exec : List Line → Machine → Option Machine
  | [], s => some s
  | .instr i :: ls, s => (i.step s).bind (exec ls)
  | .label _ :: ls, s => exec ls s
  | .branch c name :: ls, s =>
      if c.holds s.flags then
        match _h : behind name ls with
        | none => none
        | some rest => exec rest s
      else exec ls s
termination_by ls => ls.length
decreasing_by
  all_goals first
    | exact Nat.lt_succ_self _
    | exact Nat.lt_succ_of_lt (length_behind _h)

/-- Runs instructions alone. -/
def run : List Instr → Machine → Option Machine
  | [], s => some s
  | i :: is, s => (i.step s).bind (run is)

section Code

variable {name : List Char} {ls : List Line}

theorem exec_nil (s : Machine) : exec [] s = some s := by rw [exec]

theorem exec_label (name : List Char) (ls : List Line) (s : Machine) :
    exec (.label name :: ls) s = exec ls s := by rw [exec]

theorem exec_instrs (is : List Instr) (rest : List Line) (s : Machine) :
    exec (is.map .instr ++ rest) s = (run is s).bind (exec rest) := by
  induction is generalizing s with
  | nil => rfl
  | cons i is ih =>
      rw [List.map_cons, List.cons_append, exec, run, Option.bind_assoc]
      exact Option.bind_congr fun t _ => ih t

theorem exec_map_instr (is : List Instr) (s : Machine) : exec (is.map .instr) s = run is s := by
  have hexec := exec_instrs is [] s
  rw [List.append_nil] at hexec
  rw [hexec, show exec [] = some from funext exec_nil, Option.bind_fun_some]

theorem run_append (is js : List Instr) (s : Machine) :
    run (is ++ js) s = (run is s).bind (run js) := by
  induction is generalizing s with
  | nil => rfl
  | cons i is ih =>
      rw [List.cons_append, run, run, Option.bind_assoc]
      exact Option.bind_congr fun t _ => ih t

theorem behind_append (h : .label name ∉ ls) (rest : List Line) :
    behind name (ls ++ .label name :: rest) = some rest := by
  induction ls with
  | nil => exact if_pos rfl
  | cons l ls ih =>
      obtain ⟨hl, hls⟩ := List.ne_and_not_mem_of_not_mem_cons h
      rw [List.cons_append, behind, if_neg hl.symm, ih hls]

theorem exec_branch_of_holds {c : Cond} {s : Machine} (hc : c.holds s.flags = true)
    (h : .label name ∉ ls) (rest : List Line) :
    exec (.branch c name :: (ls ++ .label name :: rest)) s = exec rest s := by
  rw [exec, if_pos hc]
  split
  · rename_i hnone
    rw [behind_append h] at hnone
    cases hnone
  · rename_i rest' hsome
    rw [behind_append h] at hsome
    rw [Option.some_inj.mp hsome]

theorem exec_branch_of_not_holds {c : Cond} {s : Machine} (hc : c.holds s.flags = false) :
    exec (.branch c name :: ls) s = exec ls s := by
  rw [exec, if_neg (by simp [hc])]

end Code

section Memory

variable {mem : Reg → UInt8} {a v x : Reg}

@[simp] theorem load_store : load (store mem a v) a = v := by
  have hbytes : (List.range 8).map (fun i => store mem a v (a + BitVec.ofNat 64 i)) =
      leBytes 8 v.toNat := by
    refine List.ext_getElem (by simp) fun i hi _ => ?_
    have hlt : i < 8 := by simpa using hi
    have hdist : (a + BitVec.ofNat 64 i - a).toNat = i := by
      rw [BitVec.add_comm, BitVec.add_sub_cancel, BitVec.toNat_ofNat]
      omega
    rw [List.getElem_map, List.getElem_range, store, hdist, if_pos hlt]
    exact List.getD_eq_getElem _ _ _
  rw [load, hbytes, leValue_leBytes]
  have hlt : v.toNat < 256 ^ 8 := v.isLt
  rw [Nat.mod_eq_of_lt hlt, BitVec.ofNat_toNat, BitVec.setWidth_eq]

theorem store_of_le (h : 8 ≤ (x - a).toNat) : store mem a v x = mem x :=
  if_neg (Nat.not_lt.mpr h)

theorem load_congr {mem' : Reg → UInt8}
    (h : ∀ i < 8, mem (a + BitVec.ofNat 64 i) = mem' (a + BitVec.ofNat 64 i)) :
    load mem a = load mem' a := by
  rw [load, load, List.map_congr_left fun i hi => h i (List.mem_range.mp hi)]

/-- A word stored before this one is still there. -/
theorem load_store_above (mem : Reg → UInt8) (a v : Reg) :
    load (store mem (a + 8) v) a = load mem a := by
  refine load_congr fun i hi => store_of_le ?_
  have hdist : (a + BitVec.ofNat 64 i - (a + 8)).toNat = 2 ^ 64 - 8 + i := by
    have height : (8 : Reg).toNat = 8 := rfl
    have ha := a.isLt
    rw [BitVec.toNat_sub, BitVec.toNat_add, BitVec.toNat_add, BitVec.toNat_ofNat, height]
    omega
  omega

end Memory

@[simp] theorem Machine.set_reg_self (s : Machine) (d : ℕ) (v : Reg) : (s.set d v).reg d = v :=
  Function.update_self _ _ _

theorem Machine.set_reg (s : Machine) (d n : ℕ) (v : Reg) :
    (s.set d v).reg n = if n = d then v else s.reg n :=
  Function.update_apply _ _ _ _

theorem Machine.set_reg_of_ne (s : Machine) {d n : ℕ} (v : Reg) (h : n ≠ d) :
    (s.set d v).reg n = s.reg n :=
  Function.update_of_ne h _ _

@[simp] theorem Machine.set_mem (s : Machine) (d : ℕ) (v : Reg) : (s.set d v).mem = s.mem := rfl

@[simp] theorem Machine.set_flags (s : Machine) (d : ℕ) (v : Reg) :
    (s.set d v).flags = s.flags := rfl

theorem Instr.step_of_dest? {i : Instr} {d : ℕ} (h : i.dest? = some d) (s : Machine) :
    ∃ v, i.step s = some (s.set d v) := by
  unfold dest? at h
  split at h
  · rename_i op _ _
    cases h
    cases op
    · exact ⟨_, rfl⟩
    · exact ⟨_, rfl⟩
  all_goals cases h
  all_goals exact ⟨_, rfl⟩

/-- Code that only writes registers below a bound leaves the others and the memory. -/
theorem run_of_dest? {is : List Instr} {k : ℕ} (h : ∀ i ∈ is, ∃ d ∈ i.dest?, d < k)
    (s : Machine) :
    ∃ s', run is s = some s' ∧ s'.mem = s.mem ∧ ∀ n, k ≤ n → s'.reg n = s.reg n := by
  induction is generalizing s with
  | nil => exact ⟨s, rfl, rfl, fun _ _ => rfl⟩
  | cons i is ih =>
      obtain ⟨d, hd, hlt⟩ := h i List.mem_cons_self
      obtain ⟨v, hstep⟩ := i.step_of_dest? hd s
      obtain ⟨s', hrun, hmem, hreg⟩ := ih (fun j hj => h j (List.mem_cons_of_mem i hj)) (s.set d v)
      refine ⟨s', ?_, hmem, fun n hn => ?_⟩
      · rw [run, hstep, Option.bind_some, hrun]
      · rw [hreg n hn, s.set_reg_of_ne v (by omega)]

end Veron.A64
