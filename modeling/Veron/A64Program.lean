/-
Programs with labels, branches in both directions and a return, on 64- and 32-bit registers and
single bytes of the memory.
-/
import Mathlib.Logic.Relation
import Mathlib.Tactic.Common
import Veron.A64Run

namespace Veron.A64

/-- A `w` register is the low half of its register, and writing it clears the other half. -/
def Machine.setLow (s : Machine) (d : ℕ) (v : BitVec 32) : Machine := s.set d (v.setWidth 64)

/-- `a - b`, as `cmp` looks at it. -/
def compareBits {w : ℕ} (a b : BitVec w) : Flags :=
  let d := a - b
  ⟨d.msb, d = 0, b ≤ a, a.msb ≠ b.msb ∧ d.msb ≠ a.msb⟩

theorem compare_eq_compareBits (a b : Reg) : compare a b = compareBits a b := rfl

/-- One instruction, on `w` registers and bytes too. -/
def Instr.next : Instr → Machine → Option Machine
  | .movWide .movz .w d imm, s => some (s.setLow d (BitVec.ofNat 32 imm))
  | .addSubImm op .w d n imm, s =>
      some (s.setLow d ((op.eval (s.reg n) (BitVec.ofNat 64 imm)).setWidth 32))
  | .addSubReg op .w d n m, s => some (s.setLow d ((op.eval (s.reg n) (s.reg m)).setWidth 32))
  | .mul .w d n m, s => some (s.setLow d ((s.reg n * s.reg m).setWidth 32))
  | .cmpImm .w n imm, s =>
      some { s with flags := compareBits ((s.reg n).setWidth 32) (BitVec.ofNat 32 imm) }
  | .byteReg .ldr t n m, s =>
      some (s.set t (BitVec.ofNat 64 (s.mem (s.reg n + s.reg m)).toNat))
  | .byteReg .str t n m, s =>
      let low := UInt8.ofNat (s.reg t).toNat
      some { s with mem := Function.update s.mem (s.reg n + s.reg m) low }
  | i, s => i.step s

inductive Command where
  | label (name : List Char)
  | instr (i : Instr)
  /-- Without a condition it is `b`. -/
  | branch (c : Option Cond) (name : List Char)
  | ret
deriving DecidableEq

abbrev Program := List Command

/-- A line of the program, and the machine before it. -/
abbrev Place := ℕ × Machine

variable {prog : Program} {s t u : Machine} {a b c : Place}

/-- What comes next; nothing does at a return. -/
def Program.step (prog : Program) : Place → Option Place
  | (pc, s) =>
      match prog[pc]? with
      | none => none
      | some .ret => none
      | some (.label _) => some (pc + 1, s)
      | some (.instr i) => (i.next s).map (pc + 1, ·)
      | some (.branch cond name) =>
          if cond.all (·.holds s.flags) then
            (prog.findIdx? (· = .label name)).map (·, s)
          else some (pc + 1, s)

def Program.Reaches (prog : Program) : Place → Place → Prop :=
  Relation.ReflTransGen fun a b => prog.step a = some b

/-- A run from the first line ends at a return. -/
def Program.Returns (prog : Program) (s t : Machine) : Prop :=
  ∃ pc, prog[pc]? = some .ret ∧ prog.Reaches (0, s) (pc, t)

theorem Program.Reaches.next (h : prog.step a = some b) (hb : prog.Reaches b c) :
    prog.Reaches a c := Relation.ReflTransGen.head h hb

theorem Program.Reaches.trans (h : prog.Reaches a b) (hb : prog.Reaches b c) :
    prog.Reaches a c := Relation.ReflTransGen.trans h hb

theorem Program.step_ret {pc : ℕ} (h : prog[pc]? = some .ret) : prog.step (pc, s) = none := by
  rw [step, h]

theorem Program.step_taken {pc pc' : ℕ} {cond : Option Cond} {name : List Char}
    (h : prog[pc]? = some (.branch cond name)) (hcond : cond.all (·.holds s.flags) = true)
    (htarget : prog.findIdx? (· = .label name) = some pc') :
    prog.step (pc, s) = some (pc', s) := by
  rw [step, h]
  exact (if_pos hcond).trans (congrArg (Option.map (·, s)) htarget)

theorem Program.step_passed {pc : ℕ} {cond : Option Cond} {name : List Char}
    (h : prog[pc]? = some (.branch cond name)) (hcond : cond.all (·.holds s.flags) = false) :
    prog.step (pc, s) = some (pc + 1, s) := by
  rw [step, h]
  exact if_neg (Bool.not_eq_true _ ▸ hcond)

/-- A run that ends goes through every place that can be reached. -/
theorem Program.Reaches.ends {pc : ℕ} (h : prog.Reaches a (pc, t)) (hret : prog[pc]? = some .ret)
    (hb : prog.Reaches a b) : prog.Reaches b (pc, t) := by
  have hunique : Relator.RightUnique fun a b : Place => prog.step a = some b := by
    intro a b c hb hc
    exact Option.some.inj (hb.symm.trans hc)
  rcases Relation.ReflTransGen.total_of_right_unique hunique hb h with hbt | htb
  · exact hbt
  · rcases Relation.ReflTransGen.cases_head htb with heq | ⟨d, hd, -⟩
    · rw [heq]
      exact Relation.ReflTransGen.refl
    · rw [step_ret hret] at hd
      exact nomatch hd

theorem Program.Returns.unique (ht : prog.Returns s t) (hu : prog.Returns s u) : t = u := by
  obtain ⟨pc, hpc, ht⟩ := ht
  obtain ⟨pc', hpc', hu⟩ := hu
  rcases Relation.ReflTransGen.cases_head (ht.ends hpc hu) with heq | ⟨d, hd, -⟩
  · exact (Prod.mk.inj heq).2.symm
  · rw [step_ret hpc'] at hd
    exact nomatch hd

theorem Program.Reaches.refl (a : Place) : prog.Reaches a a := Relation.ReflTransGen.refl

section

variable {w m n : ℕ}

theorem toNat_ofNat_succ (hm : m < 2 ^ w) : (BitVec.ofNat (w + 1) m).toNat = m := by
  rw [BitVec.toNat_ofNat, Nat.mod_eq_of_lt]
  rw [Nat.pow_succ]
  omega

theorem msb_eq_false {x : BitVec (w + 1)} (hx : x.toNat < 2 ^ w) : x.msb = false := by
  rw [BitVec.msb_eq_decide]
  exact decide_eq_false (Nat.not_le.mpr hx)

theorem compareBits_ofNat (hm : m < 2 ^ w) (hn : n < 2 ^ w) :
    (compareBits (BitVec.ofNat (w + 1) m) (BitVec.ofNat (w + 1) n)).n = decide (m < n) ∧
      (compareBits (BitVec.ofNat (w + 1) m) (BitVec.ofNat (w + 1) n)).z = decide (m = n) ∧
        (compareBits (BitVec.ofNat (w + 1) m) (BitVec.ofNat (w + 1) n)).v = false := by
  have hx := toNat_ofNat_succ hm
  have hy := toNat_ofNat_succ hn
  generalize BitVec.ofNat (w + 1) m = x at hx ⊢
  generalize BitVec.ofNat (w + 1) n = y at hy ⊢
  subst hx hy
  refine ⟨?_, ?_, ?_⟩
  · change (x - y).msb = _
    rw [BitVec.msb_eq_decide, BitVec.toNat_sub, Nat.add_sub_cancel, Nat.pow_succ, decide_eq_decide]
    by_cases hlt : x.toNat < y.toNat
    · rw [Nat.mod_eq_of_lt (by omega)]
      omega
    · have hsum : 2 ^ w * 2 - y.toNat + x.toNat = x.toNat - y.toNat + 2 ^ w * 2 := by omega
      rw [hsum, Nat.add_mod_right, Nat.mod_eq_of_lt (by omega)]
      omega
  · have hzero : (0 : BitVec (w + 1)) + y = y := BitVec.zero_add y
    change decide (x - y = 0) = _
    rw [decide_eq_decide, BitVec.sub_eq_iff_eq_add, hzero, BitVec.toNat_inj]
  · change decide (x.msb ≠ y.msb ∧ _) = false
    rw [msb_eq_false hm, msb_eq_false hn]
    exact decide_eq_false fun h => h.1 rfl

theorem lt_holds (hm : m < 2 ^ w) (hn : n < 2 ^ w) :
    Cond.lt.holds (compareBits (BitVec.ofNat (w + 1) m) (BitVec.ofNat (w + 1) n)) =
      decide (m < n) := by
  obtain ⟨hnegative, -, hoverflow⟩ := compareBits_ofNat hm hn
  rw [Cond.holds, hnegative, hoverflow]
  simp

theorem ge_holds (hm : m < 2 ^ w) (hn : n < 2 ^ w) :
    Cond.ge.holds (compareBits (BitVec.ofNat (w + 1) m) (BitVec.ofNat (w + 1) n)) =
      decide (n ≤ m) := by
  obtain ⟨hnegative, -, hoverflow⟩ := compareBits_ofNat hm hn
  rw [Cond.holds, hnegative, hoverflow]
  simp

theorem gt_holds (hm : m < 2 ^ w) (hn : n < 2 ^ w) :
    Cond.gt.holds (compareBits (BitVec.ofNat (w + 1) m) (BitVec.ofNat (w + 1) n)) =
      decide (n < m) := by
  obtain ⟨hnegative, hzero, hoverflow⟩ := compareBits_ofNat hm hn
  rw [Cond.holds, hnegative, hzero, hoverflow, Bool.eq_iff_iff]
  simp
  omega

theorem ne_holds (hm : m < 2 ^ w) (hn : n < 2 ^ w) :
    Cond.ne.holds (compareBits (BitVec.ofNat (w + 1) m) (BitVec.ofNat (w + 1) n)) =
      decide (m ≠ n) := by
  obtain ⟨-, hzero, -⟩ := compareBits_ofNat hm hn
  rw [Cond.holds, hzero]
  simp

end

end Veron.A64
