/-
The code that pico-c emits for `&&` and `||` around their right operand.
-/
import Veron.PicoCOperatorsRun

namespace Veron.PicoC

open A64

theorem isDigit_of_mem_p6l {c : Char} {k n : ℕ} {ds : List Char} (hc : c ∈ p6l k n ds) :
    c ∈ ds ∨ c.isDigit = true := by
  have hdigit : ∀ d < 10, (Char.ofNat (d + 48)).isDigit = true := by decide
  induction k generalizing n ds with
  | zero => exact .inl hc
  | succ k ih =>
      rcases ih hc with hmem | hd
      · rcases List.mem_cons.mp hmem with rfl | hmem
        · exact .inr (hdigit _ (Nat.mod_lt _ (by decide)))
        · exact .inl hmem
      · exact .inr hd

/-- The name of a numbered label, with its colon off. -/
def labelName (n : ℕ) : List Char := ['_', '_', 'L'] ++ p6l 9 n []

theorem not_mem_labelName {c : Char} {n : ℕ} (hlit : c ∉ ['_', '_', 'L'])
    (hdigit : c.isDigit = false) : c ∉ labelName n := by
  intro hc
  rcases List.mem_append.mp hc with hc | hc
  · exact hlit hc
  · rcases isDigit_of_mem_p6l hc with hc | hc
    · cases hc
    · rw [hdigit] at hc
      cases hc

theorem emitlid_of_lt {n : ℕ} (h : n < 1000000000) : emitlid n = some (p6l 9 n []) :=
  if_neg (Nat.not_le.mpr h)

def Short.cond : Short → Cond
  | .and => .eq
  | .or => .ne

/-- What is left on the stack when the right operand is not evaluated. -/
def Short.early : Short → ℕ
  | .and => 0
  | .or => 1

def Short.testInstrs (op : Short) : List Instr :=
  pop 0 ++ [.movWide .movz .x 1 op.early, .loadStore .str .x 1 9 0, .addSubImm .add .x 9 9 8,
    .cmpImm .x 0 0]

def discard : Instr := .addSubImm .sub .x 9 9 8

def Short.testLines (op : Short) (label : ℕ) : List Line :=
  op.testInstrs.map .instr ++ [.branch op.cond (labelName label), .instr discard]

def normLines (label : ℕ) : List Line :=
  (pop 0 ++ nonzeroInstrs ++ push).map .instr ++ [.label (labelName label)]

/-- A test up to its branch. -/
def Short.head : Short → List Char
  | .and => "sub x9 x9 8\nldr x0 x9\nmov x1 0\nstr x1 x9\nadd x9 x9 8\ncmp x0 0".toList
  | .or => "sub x9 x9 8\nldr x0 x9\nmov x1 1\nstr x1 x9\nadd x9 x9 8\ncmp x0 0".toList

def Short.branch : Short → List Char
  | .and => ['b', '.', 'e', 'q']
  | .or => ['b', '.', 'n', 'e']

def Short.testText (op : Short) : List Char :=
  op.head ++ '\n' :: (op.branch ++ ' ' :: ['_', '_', 'L'])

theorem sscand_eq : sscand = Short.and.testText := by
  have hbranch : "b.eq __L".toList = Short.and.branch ++ ' ' :: ['_', '_', 'L'] :=
    String.toList_ofList
  unfold Short.testText Short.head
  rw [← hbranch]
  exact toList_cut rfl rfl rfl

theorem sscor_eq : sscor = Short.or.testText := by
  have hbranch : "b.ne __L".toList = Short.or.branch ++ ' ' :: ['_', '_', 'L'] :=
    String.toList_ofList
  unfold Short.testText Short.head
  rw [← hbranch]
  exact toList_cut rfl rfl rfl

theorem Short.reads_head (op : Short) : Reads op.head op.testInstrs := by
  cases op with
  | and => rfl
  | or => rfl

theorem reads_discard : Reads ['s', 'u', 'b', ' ', 'x', '9', ' ', 'x', '9', ' ', '8'] [discard] :=
  rfl

theorem sdiscard_eq :
    sdiscard = ['s', 'u', 'b', ' ', 'x', '9', ' ', 'x', '9', ' ', '8'] ++ ['\n'] :=
  String.toList_ofList

theorem lines?_sdiscard : lines? sdiscard = some [.instr discard] := by
  rw [sdiscard_eq]
  exact reads_discard.newline

theorem Short.lines?_branch (op : Short) (label : ℕ) :
    lines? (op.branch ++ ' ' :: labelName label) = some [.branch op.cond (labelName label)] := by
  have hnewline : '\n' ∉ labelName label := not_mem_labelName (by decide) (by decide)
  have hspace : ' ' ∉ labelName label := not_mem_labelName (by decide) (by decide)
  refine lines?_singleton ?_ (by simp) (line?_branch hspace ?_ ?_ ?_)
  · cases op <;> simpa [branch] using hnewline
  all_goals cases op <;> decide

theorem Short.lines?_test (op : Short) (label : ℕ) :
    lines? (op.testText ++ p6l 9 label [] ++ snlonly ++ sdiscard) = some (op.testLines label) := by
  have htext : op.testText ++ p6l 9 label [] ++ snlonly ++ sdiscard =
      op.head ++ '\n' :: (op.branch ++ ' ' :: labelName label ++ '\n' :: sdiscard) := by
    simp [testText, labelName, snlonly]
  rw [htext]
  exact lines?_append op.reads_head (lines?_append (op.lines?_branch label) lines?_sdiscard)

theorem Short.cepushop_code (op : Short) {label : ℕ} (h : label < 1000000000) :
    cepushop op.code label =
      some (op.testText ++ p6l 9 label [] ++ snlonly ++ sdiscard) := by
  cases op with
  | and => rw [cepushop, code, if_pos rfl, emitlid_of_lt h, sscand_eq, Option.map_some]
  | or =>
      rw [cepushop, code, if_neg (by decide), if_pos rfl, emitlid_of_lt h, sscor_eq,
        Option.map_some]

/-- `sscnorm` without the end of its last line. -/
def normHead : List Char := popText ++ '\n' :: (nonzeroText ++ '\n' :: pushText)

theorem reads_normHead : Reads normHead (pop 0 ++ (nonzeroInstrs ++ push)) :=
  reads_pop.append (reads_nonzero.append reads_push)

theorem sscnorm_eq : sscnorm = normHead ++ ['\n'] := by
  have hjoin {a b c d e f : List Char} (ha : a = c ++ '\n' :: b) (hb : b = d ++ ['\n'])
      (he : e = f ++ ['\n']) : a ++ e = (c ++ '\n' :: (d ++ '\n' :: f)) ++ ['\n'] := by
    rw [ha, hb, he]
    simp only [List.append_assoc, List.cons_append, List.nil_append]
  have hnonzero : "mov x2 0\nsub x2 x2 x0\norr x0 x0 x2\nmov x2 63\nlsr x0 x0 x2\n".toList =
      nonzeroText ++ ['\n'] := toList_newline rfl rfl
  unfold sscnorm normHead popText
  apply hjoin _ hnonzero push_newline
  exact toList_cut rfl rfl rfl

theorem Short.emits (op : Short) {label : ℕ} (h : label < 1000000000) (types : List ℕ) :
    Emits op.code label (0 :: 0 :: types) (normLines label) (0 :: types) := by
  refine ⟨sscnorm ++ (sdeflab ++ p6l 9 label [] ++ ['\n']), ?_, ?_⟩
  · cases op <;> simp [emitapply, code, eaUnary, emitdef, emitlid_of_lt h]
  · have hdef : sdeflab = [':', '_', '_', 'L'] := String.toList_ofList
    have htext : sscnorm ++ (sdeflab ++ p6l 9 label [] ++ ['\n']) =
        normHead ++ '\n' :: (':' :: labelName label ++ '\n' :: []) := by
      simp [sscnorm_eq, hdef, labelName]
    have hlabel : lines? (':' :: labelName label) = some [.label (labelName label)] := by
      refine lines?_singleton ?_ (by simp) (line?_label _)
      simpa using not_mem_labelName (by decide) (by decide)
    rw [htext]
    rw [normLines, List.append_assoc]
    exact lines?_append reads_normHead (lines?_append hlabel rfl)

theorem Short.run_test (op : Short) {s : Machine} {a : Reg} (h : load s.mem (s.reg 9 - 8) = a) :
    ∃ t, run op.testInstrs s = some t ∧
      Pushed s t (s.reg 9 - 8) (BitVec.ofNat 64 op.early) ∧ t.flags = A64.compare a 0 := by
  rw [testInstrs, run_pop, h]
  set u := ((s.set 9 (s.reg 9 - 8)).set 0 a).set 1 (BitVec.ofNat 64 op.early) with hu
  have h9 : u.reg 9 = s.reg 9 - 8 := by simp [hu, Machine.set_reg]
  have h0 : u.reg 0 = a := by simp [hu, Machine.set_reg]
  have h1 : u.reg 1 = BitVec.ofNat 64 op.early := by simp [hu]
  have hslot : u.reg 9 + BitVec.ofNat 64 0 = s.reg 9 - 8 := by simp [h9]
  let stored : Machine := { u with mem := store u.mem (u.reg 9 + BitVec.ofNat 64 0) (u.reg 1) }
  let back := stored.set 9 (u.reg 9 + 8)
  have hmem : back.mem = store s.mem (s.reg 9 - 8) (BitVec.ofNat 64 op.early) :=
    congrArg₂ (store s.mem) hslot h1
  refine ⟨{ back with flags := compare (back.reg 0) 0 }, rfl, ⟨?_, ?_, fun x hx => ?_,
    fun n hn hne => ?_⟩, ?_⟩
  · rw [← h9]
    exact back.set_reg_self 9 _
  · change load back.mem _ = _
    rw [hmem, load_store]
  · change back.mem x = _
    rw [hmem, store_of_le hx]
  · change back.reg n = _
    have h0 : n ≠ 0 := by omega
    have h1 : n ≠ 1 := by omega
    rw [stored.set_reg_of_ne _ hne]
    simp [stored, hu, Machine.set_reg, h0, h1, hne]
  · exact congrArg (A64.compare · 0) h0

def Short.word (op : Short) (a b : Reg) : Reg :=
  if op.cond.holds (compare a 0) then BitVec.ofNat 64 op.early else nonzero b

theorem Short.replaces_word (op : Short) (a b : Reg) : op.Replaces a b (op.word a b) := by
  intro label hlabel types
  refine ⟨_, _, _, op.cepushop_code hlabel, op.lines?_test label, op.emits hlabel types,
    fun right hright s ha => ?_⟩
  obtain ⟨t, htest, hpushed, hflags⟩ := op.run_test ha
  have hname : .label (labelName label) ∉ right.code :=
    hright _ (List.mem_append_right _ (List.mem_singleton_self _))
  -- The code between the branch and its label.
  set skipped := Line.instr discard :: right.code ++
    (pop 0 ++ nonzeroInstrs ++ push).map .instr with hskipped
  have hcode : op.testLines label ++ right.code ++ normLines label =
      op.testInstrs.map .instr ++ .branch op.cond (labelName label) ::
        (skipped ++ .label (labelName label) :: []) := by
    simp [testLines, normLines, hskipped]
  have hfree : .label (labelName label) ∉ skipped := by
    simp [hskipped, hname]
  rw [hcode, exec_instrs, htest, Option.bind_some]
  by_cases hholds : op.cond.holds (compare a 0) = true
  · rw [exec_branch_of_holds (by rw [hflags, hholds]) hfree, exec_nil, word, if_pos hholds]
    refine ⟨t, rfl, ?_, hpushed.top, fun x hx _ => hpushed.frame x hx,
      fun n hn hne _ => hpushed.regs n hn hne⟩
    rw [hpushed.sp]
    bv_omega
  · rw [exec_branch_of_not_holds (by rw [hflags]; simpa using hholds), word, if_neg hholds]
    set u := t.set 9 (t.reg 9 - 8) with hu
    have hu9 : u.reg 9 = s.reg 9 - 8 := by
      rw [hu, Machine.set_reg_self, hpushed.sp]
      bv_omega
    have hv9 : (right.eval u).reg 9 - 8 = s.reg 9 - 8 := by
      rw [right.sp, hu9]
      bv_omega
    have hvtop : load (right.eval u).mem ((right.eval u).reg 9 - 8) = b := by
      rw [hv9, ← hu9, right.top]
    have hrun : exec (skipped ++ [.label (labelName label)]) t =
        (run (pop 0 ++ (nonzeroInstrs ++ push)) (right.eval u)).bind some := by
      rw [hskipped, List.append_assoc, List.cons_append, exec]
      change exec (right.code ++ _) u = _
      rw [right.exec_append, exec_instrs, List.append_assoc]
      exact Option.bind_congr fun w _ => by rw [exec_label, exec_nil]
    rw [hrun, Option.bind_fun_some, run_pop, hvtop, hv9]
    set w := ((right.eval u).set 9 (s.reg 9 - 8)).set 0 b with hw
    have hw0 : w.reg 0 = b := by simp [hw]
    have hw9 : w.reg 9 = s.reg 9 - 8 := by simp [hw, Machine.set_reg]
    obtain ⟨s', hpush, hsp, htop, hframe, hregs⟩ := nonzero_computes.pushed w
    rw [hw9] at hsp hframe
    rw [hw9, hw0] at htop
    refine ⟨s', hpush, ?_, htop, fun x hx hleft => ?_, fun n hn hne hleft => ?_⟩
    · rw [hsp]
      bv_omega
    · rw [hframe x hx]
      exact (hleft u).trans (hpushed.frame x hx)
    · have h0 : n ≠ 0 := by omega
      rw [hregs n hn hne, hw, Machine.set_reg_of_ne _ _ h0, Machine.set_reg_of_ne _ _ hne,
        hleft u, hu, Machine.set_reg_of_ne _ _ hne, hpushed.regs n hn hne]

end Veron.PicoC
