/-
The code that pico-c emits for an operator computes one word from the words of its operands.
-/
import Veron.PicoCOperators

namespace Veron.PicoC

open A64

/-- The top of the stack at x9, into a register. -/
def pop (d : ℕ) : List Instr := [.addSubImm .sub .x 9 9 8, .loadStore .ldr .x d 9 0]

/-- x0, onto the stack. -/
def push : List Instr := [.loadStore .str .x 0 9 0, .addSubImm .add .x 9 9 8]

/-- The sign bit of x0. -/
def signInstrs : List Instr := [.movWide .movz .x 2 63, .twoSource .lsrv .x 0 0 2]

/-- 1 in x0 unless it holds 0: a number or its negation has the sign bit. -/
def nonzeroInstrs : List Instr :=
  [.movWide .movz .x 2 0, .addSubReg .sub .x 2 2 0, .logical .orr .x 0 0 2 0] ++ signInstrs

def flipInstrs : List Instr := [.movWide .movz .x 2 1, .addSubReg .sub .x 0 2 0]

/-- The operation of an operator on x1 and x0. -/
def Binary.instrs : Binary → List Instr
  | .lt => .addSubReg .sub .x 0 1 0 :: signInstrs
  | .gt => .addSubReg .sub .x 0 0 1 :: signInstrs
  | .le => .addSubReg .sub .x 0 0 1 :: (signInstrs ++ flipInstrs)
  | .ge => .addSubReg .sub .x 0 1 0 :: (signInstrs ++ flipInstrs)
  | .eq => .addSubReg .sub .x 0 1 0 :: (nonzeroInstrs ++ flipInstrs)
  | .ne => .addSubReg .sub .x 0 1 0 :: nonzeroInstrs
  | .add => [.addSubReg .add .x 0 1 0]
  | .sub => [.addSubReg .sub .x 0 1 0]
  | .mul => [.mul .x 0 1 0]
  | .div => [.twoSource .udiv .x 0 1 0]
  | .mod => [.twoSource .udiv .x 2 1 0, .mul .x 2 2 0, .addSubReg .sub .x 0 1 2]
  | .and => [.logical .and .x 0 1 0 0]
  | .or => [.logical .orr .x 0 1 0 0]
  | .xor => [.logical .eor .x 0 1 0 0]
  | .shl => [.twoSource .lslv .x 0 1 0]
  | .shr => [.twoSource .lsrv .x 0 1 0]

def Unary.instrs : Unary → List Instr
  | .not => nonzeroInstrs ++ flipInstrs
  | .neg => [.movWide .movz .x 2 0, .addSubReg .sub .x 0 2 0]
  | .compl => [.movWide .movz .x 2 0, .addSubReg .sub .x 0 2 0, .movWide .movz .x 2 1,
      .addSubReg .sub .x 0 0 2]

/-- Text of instructions, line by line. -/
def Reads (cs : List Char) (is : List Instr) : Prop := lines? cs = some (is.map .instr)

theorem Reads.append {cs ds : List Char} {is js : List Instr} (hcs : Reads cs is)
    (hds : Reads ds js) : Reads (cs ++ '\n' :: ds) (is ++ js) := by
  rw [Reads, List.map_append]
  exact lines?_append hcs hds

theorem Reads.newline {cs : List Char} {is : List Instr} (h : Reads cs is) :
    Reads (cs ++ ['\n']) is :=
  lines?_newline h

def popText : List Char := "sub x9 x9 8\nldr x0 x9".toList

def pushText : List Char := "str x0 x9\nadd x9 x9 8".toList

def signText : List Char := "mov x2 63\nlsr x0 x0 x2".toList

def nonzeroText : List Char :=
  "mov x2 0\nsub x2 x2 x0\norr x0 x0 x2\nmov x2 63\nlsr x0 x0 x2".toList

def flipText : List Char := "mov x2 1\nsub x0 x2 x0".toList

theorem reads_pop : Reads popText (pop 0) := rfl

theorem reads_push : Reads pushText push := rfl

theorem reads_sign : Reads signText signInstrs := rfl

theorem reads_nonzero : Reads nonzeroText nonzeroInstrs := rfl

theorem reads_flip : Reads flipText flipInstrs := rfl

theorem push_newline : "str x0 x9\nadd x9 x9 8\n".toList = pushText ++ ['\n'] :=
  toList_newline rfl rfl

theorem spush_eq : spush = '\n' :: (pushText ++ ['\n']) := by
  rw [← push_newline]
  exact toList_newline_cons rfl rfl

theorem spop1_eq : spop1 = popText ++ ['\n'] := toList_newline rfl rfl

theorem spoppop_eq :
    spoppop = popText ++ '\n' :: ("sub x9 x9 8\nldr x1 x9".toList ++ ['\n']) := by
  have hpop1 : "sub x9 x9 8\nldr x1 x9\n".toList = "sub x9 x9 8\nldr x1 x9".toList ++ ['\n'] :=
    toList_newline rfl rfl
  rw [← hpop1]
  exact toList_cut rfl rfl rfl

theorem sflip_eq : sflip = '\n' :: flipText := toList_newline_cons rfl rfl

/-- What `apply` writes between the operands and the push. -/
def Binary.text : Binary → List Char
  | .lt => scmplt
  | .gt => scmpgt
  | .le => scmpgt ++ sflip
  | .ge => scmplt ++ sflip
  | .eq => scmpne ++ sflip
  | .ne => scmpne
  | .add => saddr
  | .sub => ssubr
  | .mul => smulr
  | .div => sdivr
  | .mod => smodr
  | .and => sandr
  | .or => sorrr
  | .xor => seorr
  | .shl => slslr
  | .shr => slsrr

theorem reads_ssubr : Reads ssubr [.addSubReg .sub .x 0 1 0] := rfl

theorem reads_scmplt : Reads scmplt (.addSubReg .sub .x 0 1 0 :: signInstrs) := by
  have htext : scmplt = ssubr ++ '\n' :: signText := toList_cut rfl rfl rfl
  rw [htext]
  exact reads_ssubr.append reads_sign

theorem reads_scmpgt : Reads scmpgt (.addSubReg .sub .x 0 0 1 :: signInstrs) := by
  have htext : scmpgt = "sub x0 x0 x1".toList ++ '\n' :: signText := toList_cut rfl rfl rfl
  have hsub : Reads "sub x0 x0 x1".toList [.addSubReg .sub .x 0 0 1] := rfl
  rw [htext]
  exact hsub.append reads_sign

theorem reads_scmpne : Reads scmpne (.addSubReg .sub .x 0 1 0 :: nonzeroInstrs) := by
  have htext : scmpne = ssubr ++ '\n' :: nonzeroText := toList_cut rfl rfl rfl
  rw [htext]
  exact reads_ssubr.append reads_nonzero

theorem Binary.reads (op : Binary) : Reads op.text op.instrs := by
  cases op with
  | lt => exact reads_scmplt
  | gt => exact reads_scmpgt
  | le =>
      rw [text, sflip_eq]
      exact reads_scmpgt.append reads_flip
  | ge =>
      rw [text, sflip_eq]
      exact reads_scmplt.append reads_flip
  | eq =>
      rw [text, sflip_eq]
      exact reads_scmpne.append reads_flip
  | ne => exact reads_scmpne
  | add => rfl
  | sub => exact reads_ssubr
  | mul => rfl
  | div => rfl
  | mod => rfl
  | and => rfl
  | or => rfl
  | xor => rfl
  | shl => rfl
  | shr => rfl

theorem Binary.emits (op : Binary) (label : ℕ) (types : List ℕ) :
    Emits op.code label (0 :: 0 :: types) ((pop 0 ++ pop 1 ++ op.instrs ++ push).map .instr)
      (0 :: types) := by
  refine ⟨spoppop ++ (op.text ++ spush), by cases op <;> rfl, ?_⟩
  have htext : spoppop ++ (op.text ++ spush) = popText ++ '\n' ::
      ("sub x9 x9 8\nldr x1 x9".toList ++ '\n' :: (op.text ++ '\n' :: (pushText ++ ['\n']))) := by
    rw [spoppop_eq, spush_eq]
    simp only [List.append_assoc, List.cons_append, List.nil_append]
  have hpop1 : Reads "sub x9 x9 8\nldr x1 x9".toList (pop 1) := rfl
  rw [htext, List.append_assoc, List.append_assoc]
  exact reads_pop.append (hpop1.append (op.reads.append reads_push.newline))

/-- The operation of a unary operator. -/
def Unary.text : Unary → List Char
  | .not => nonzeroText ++ '\n' :: flipText
  | .neg => "mov x2 0\nsub x0 x2 x0".toList
  | .compl => "mov x2 0\nsub x0 x2 x0\nmov x2 1\nsub x0 x0 x2".toList

theorem Unary.reads (op : Unary) : Reads op.text op.instrs := by
  cases op with
  | not => exact reads_nonzero.append reads_flip
  | neg => rfl
  | compl => rfl

theorem suneg_eq : suneg = Unary.neg.text ++ '\n' :: (pushText ++ ['\n']) := by
  rw [← push_newline]
  exact toList_cut rfl rfl rfl

theorem subnot_eq : subnot = Unary.compl.text ++ '\n' :: (pushText ++ ['\n']) := by
  rw [← push_newline]
  exact toList_cut rfl rfl rfl

theorem sunot_eq : sunot = Unary.not.text ++ '\n' :: (pushText ++ ['\n']) := by
  have hjoin {a b c d e f : List Char} (ha : a = c ++ '\n' :: b) (hb : b = d ++ ['\n'])
      (he : e = f ++ ['\n']) : a ++ e = (c ++ '\n' :: d) ++ '\n' :: (f ++ ['\n']) := by
    rw [ha, hb, he]
    simp only [List.append_assoc, List.cons_append, List.nil_append]
  have hflip : "mov x2 1\nsub x0 x2 x0\n".toList = flipText ++ ['\n'] := toList_newline rfl rfl
  unfold sunot Unary.text nonzeroText
  apply hjoin _ hflip push_newline
  exact toList_cut rfl rfl rfl

theorem Unary.eaUnary_eq (op : Unary) :
    eaUnary op.code = some (spop1 ++ (op.text ++ '\n' :: (pushText ++ ['\n']))) := by
  cases op with
  | not => exact congrArg (fun cs => some (spop1 ++ cs)) sunot_eq
  | neg => exact congrArg (fun cs => some (spop1 ++ cs)) suneg_eq
  | compl => exact congrArg (fun cs => some (spop1 ++ cs)) subnot_eq

theorem Unary.emits (op : Unary) (label : ℕ) (types : List ℕ) :
    Emits op.code label (0 :: types) ((pop 0 ++ op.instrs ++ push).map .instr) (0 :: types) := by
  refine ⟨spop1 ++ (op.text ++ '\n' :: (pushText ++ ['\n'])), ?_, ?_⟩
  · unfold emitapply
    rw [op.eaUnary_eq]
  · rw [spop1_eq, List.append_assoc, List.singleton_append, List.append_assoc]
    exact reads_pop.append (op.reads.append reads_push.newline)

/-- Code that leaves a function of x1 and x0 in x0 and works with x0 to x3 only. -/
structure Computes (is : List Instr) (f : Reg → Reg → Reg) : Prop where
  scratch : ∀ i ∈ is, ∃ d ∈ i.dest?, d < 4
  value : ∀ s, (run is s).map (fun t => t.reg 0) = some (f (s.reg 1) (s.reg 0))

section

variable {d n m amount imm : ℕ} {is : List Instr} {s : Machine}

theorem run_nil : run [] s = some s := rfl

theorem run_mov : run (.movWide .movz .x d imm :: is) s = run is (s.set d (BitVec.ofNat 64 imm)) :=
  rfl

theorem run_addSub {op : AddSub} : run (.addSubReg op .x d n m :: is) s =
    run is (s.set d (op.eval (s.reg n) (s.reg m))) := rfl

theorem run_mul : run (.mul .x d n m :: is) s = run is (s.set d (s.reg n * s.reg m)) := rfl

theorem run_twoSource {op : TwoSource} : run (.twoSource op .x d n m :: is) s =
    run is (s.set d (op.eval (s.reg n) (s.reg m))) := rfl

theorem run_logical {op : Logical} : run (.logical op .x d n m amount :: is) s =
    run is (s.set d (op.eval (s.reg n) (s.reg m <<< amount))) := rfl

end

theorem Computes.run {is : List Instr} {f : Reg → Reg → Reg} (h : Computes is f) (s : Machine) :
    ∃ s', A64.run is s = some s' ∧ s'.reg 0 = f (s.reg 1) (s.reg 0) ∧ s'.mem = s.mem ∧
      ∀ n, 3 < n → s'.reg n = s.reg n := by
  obtain ⟨s', hrun, hmem, hregs⟩ := run_of_dest? h.scratch s
  have hvalue := h.value s
  rw [hrun, Option.map_some, Option.some_inj] at hvalue
  exact ⟨s', hrun, hvalue, hmem, hregs⟩

/-- An operation whose result goes through a function. -/
theorem Computes.append {is js : List Instr} {f : Reg → Reg → Reg} {g : Reg → Reg}
    (h : Computes is f) (hg : Computes js fun _ => g) :
    Computes (is ++ js) fun a b => g (f a b) where
  scratch := List.forall_mem_append.mpr ⟨h.scratch, hg.scratch⟩
  value s := by
    obtain ⟨s', hrun, hvalue, -, -⟩ := h.run s
    rw [run_append, hrun, Option.bind_some, hg.value, hvalue]

theorem sign_computes : Computes signInstrs fun _ => sign := by
  refine ⟨by decide, fun s => ?_⟩
  simp [signInstrs, run_mov, run_twoSource, run_nil, Machine.set_reg, TwoSource.eval, sign]

theorem flip_computes : Computes flipInstrs fun _ b => 1 - b := by
  refine ⟨by decide, fun s => ?_⟩
  simp [flipInstrs, run_mov, run_addSub, run_nil, Machine.set_reg, AddSub.eval]

theorem nonzero_computes : Computes nonzeroInstrs fun _ => nonzero := by
  have hor : Computes [.movWide .movz .x 2 0, .addSubReg .sub .x 2 2 0, .logical .orr .x 0 0 2 0]
      fun _ b => b ||| (0 - b) := by
    refine ⟨by decide, fun s => ?_⟩
    simp [run_mov, run_addSub, run_logical, run_nil, Machine.set_reg, AddSub.eval, Logical.eval]
  exact hor.append sign_computes

theorem Binary.computes (op : Binary) : Computes op.instrs (op.word · ·) := by
  have hsub : Computes [.addSubReg .sub .x 0 1 0] fun a b => a - b :=
    ⟨by decide, fun _ => rfl⟩
  have hsub' : Computes [.addSubReg .sub .x 0 0 1] fun a b => b - a :=
    ⟨by decide, fun _ => rfl⟩
  cases op with
  | lt => exact hsub.append sign_computes
  | gt => exact hsub'.append sign_computes
  | le => exact (hsub'.append sign_computes).append flip_computes
  | ge => exact (hsub.append sign_computes).append flip_computes
  | eq => exact (hsub.append nonzero_computes).append flip_computes
  | ne => exact hsub.append nonzero_computes
  | add => exact ⟨by decide, fun _ => rfl⟩
  | sub => exact hsub
  | mul => exact ⟨by decide, fun _ => rfl⟩
  | div => exact ⟨by decide, fun _ => rfl⟩
  | mod =>
      refine ⟨by decide, fun s => ?_⟩
      simp [instrs, word, run_mul, run_addSub, run_twoSource, run_nil, Machine.set_reg,
        AddSub.eval, TwoSource.eval]
  | and =>
      refine ⟨by decide, fun s => ?_⟩
      simp [instrs, word, run_logical, run_nil, Logical.eval]
  | or =>
      refine ⟨by decide, fun s => ?_⟩
      simp [instrs, word, run_logical, run_nil, Logical.eval]
  | xor =>
      refine ⟨by decide, fun s => ?_⟩
      simp [instrs, word, run_logical, run_nil, Logical.eval]
  | shl => exact ⟨by decide, fun _ => rfl⟩
  | shr => exact ⟨by decide, fun _ => rfl⟩

theorem Unary.computes (op : Unary) : Computes op.instrs fun _ => (op.word ·) := by
  cases op with
  | not => exact nonzero_computes.append flip_computes
  | neg =>
      refine ⟨by decide, fun s => ?_⟩
      simp [instrs, word, run_mov, run_addSub, run_nil, Machine.set_reg, AddSub.eval]
  | compl =>
      refine ⟨by decide, fun s => ?_⟩
      simp [instrs, word, run_mov, run_addSub, run_nil, Machine.set_reg, AddSub.eval]

theorem run_pop (d : ℕ) (is : List Instr) (s : Machine) :
    A64.run (pop d ++ is) s =
      A64.run is ((s.set 9 (s.reg 9 - 8)).set d (load s.mem (s.reg 9 - 8))) := by
  have hload : ((s.set 9 (s.reg 9 - 8)).reg 9 + BitVec.ofNat 64 0) = s.reg 9 - 8 := by simp
  have hrun : A64.run (pop d ++ is) s = A64.run is ((s.set 9 (s.reg 9 - 8)).set d
      (load s.mem ((s.set 9 (s.reg 9 - 8)).reg 9 + BitVec.ofNat 64 0))) := rfl
  rw [hrun, hload]

theorem run_push (s : Machine) : ∃ s', A64.run push s = some s' ∧
    Pushed s s' (s.reg 9) (s.reg 0) := by
  have hslot : s.reg 9 + BitVec.ofNat 64 0 = s.reg 9 := by simp
  refine ⟨_, rfl, rfl, ?_, fun x hx => ?_, fun n _ hn => ?_⟩
  · rw [hslot, Machine.set_mem, load_store]
  · rw [hslot, Machine.set_mem]
    exact store_of_le hx
  · exact Machine.set_reg_of_ne _ _ hn

/-- Operands popped, an operation on x1 and x0, and the result pushed. -/
theorem Computes.pushed {is : List Instr} {f : Reg → Reg → Reg} (h : Computes is f)
    (s : Machine) : ∃ s', A64.run (is ++ push) s = some s' ∧
      Pushed s s' (s.reg 9) (f (s.reg 1) (s.reg 0)) := by
  obtain ⟨t, hrun, hvalue, hmem, hregs⟩ := h.run s
  obtain ⟨s', hpush, hsp, htop, hframe, hrest⟩ := run_push t
  have hnine := hregs 9 (by decide)
  rw [hnine] at hsp htop hframe
  refine ⟨s', by rw [run_append, hrun, Option.bind_some, hpush], hsp, htop.trans hvalue,
    fun x hx => ?_, fun n hn hne => ?_⟩
  · rw [hframe x hx, hmem]
  · rw [hrest n hn hne, hregs n hn]

theorem Binary.replaces_word (op : Binary) (a b : Reg) : op.Replaces a b (op.word a b) := by
  intro label types
  refine ⟨_, op.emits label types, fun s ha hb => ?_⟩
  rw [exec_map_instr, List.append_assoc, List.append_assoc, run_pop, hb, run_pop]
  set t := (s.set 9 (s.reg 9 - 8)).set 0 b with ht
  have hnine : t.reg 9 = s.reg 9 - 8 := by simp [ht, Machine.set_reg]
  have hslot : s.reg 9 - 8 - 8 = s.reg 9 - 16 := by bv_omega
  have hmem : t.mem = s.mem := rfl
  rw [hnine, hmem, hslot, ha]
  set u := (t.set 9 (s.reg 9 - 16)).set 1 a with hu
  have h0 : u.reg 0 = b := by simp [hu, ht, Machine.set_reg]
  have h1 : u.reg 1 = a := by simp [hu]
  have h9 : u.reg 9 = s.reg 9 - 16 := by simp [hu, Machine.set_reg]
  obtain ⟨s', hrun, hsp, htop, hframe, hregs⟩ := op.computes.pushed u
  rw [h9] at hsp hframe
  rw [h9, h0, h1] at htop
  refine ⟨s', hrun, hsp, htop, hframe, fun n hn hne => ?_⟩
  have h0 : n ≠ 0 := by omega
  have h1 : n ≠ 1 := by omega
  rw [hregs n hn hne]
  simp [hu, ht, Machine.set_reg, h0, h1, hne]

theorem Unary.replaces_word (op : Unary) (a : Reg) : op.Replaces a (op.word a) := by
  intro label types
  refine ⟨_, op.emits label types, fun s ha => ?_⟩
  rw [exec_map_instr, List.append_assoc, run_pop, ha]
  set u := (s.set 9 (s.reg 9 - 8)).set 0 a with hu
  have h0 : u.reg 0 = a := by simp [hu]
  have h9 : u.reg 9 = s.reg 9 - 8 := by simp [hu, Machine.set_reg]
  obtain ⟨s', hrun, hsp, htop, hframe, hregs⟩ := op.computes.pushed u
  rw [h9] at hsp hframe
  rw [h9, h0] at htop
  refine ⟨s', hrun, hsp, htop, hframe, fun n hn hne => ?_⟩
  have h0 : n ≠ 0 := by omega
  rw [hregs n hn hne]
  simp [hu, Machine.set_reg, h0, hne]

end Veron.PicoC
