/-
When the text that micro-c emits for a number leaves that number.
-/
import Veron.MicroCImmediate

namespace Veron.MicroC

open SelfAssembler (Byte ch text)

variable {arch : Architecture} {reg : Register} {v : BitVec 64} {r : Token}

attribute [local simp] runAarch64 runAmd64

theorem narrow_iff (v : BitVec 64) :
    immediateIsWide v.toInt = false ↔ 0 ≤ v.toInt ∧ v.toInt < 2 ^ 31 := by
  rw [immediateIsWide, decide_eq_false_iff_not, not_not, Int.shiftRight_eq_div_pow]
  omega

theorem ofInt_low (v : BitVec 64) : BitVec.ofInt 32 (immediateLowWord v.toInt) = v.setWidth 32 := by
  apply BitVec.eq_of_toNat_eq
  have hv := v.isLt
  rw [BitVec.toNat_ofInt, BitVec.toNat_setWidth, immediateLowWord, BitVec.toInt_eq_toNat_cond]
  split <;> omega

theorem ofInt_high (v : BitVec 64) :
    BitVec.ofInt 32 (immediateHighWord v.toInt) = (v >>> 32).setWidth 32 := by
  apply BitVec.eq_of_toNat_eq
  have hv := v.isLt
  rw [BitVec.toNat_ofInt, BitVec.toNat_setWidth, immediateHighWord, Int.shiftRight_eq_div_pow,
    BitVec.toInt_eq_toNat_cond, BitVec.toNat_ushiftRight, Nat.shiftRight_eq_div_pow]
  split <;> omega

theorem append_halves (v : BitVec 64) : (v >>> 32).setWidth 32 ++ v.setWidth 32 = v := by
  apply BitVec.eq_of_toNat_eq
  have hv := v.isLt
  rw [BitVec.toNat_append, BitVec.toNat_setWidth, BitVec.toNat_setWidth, BitVec.toNat_ushiftRight,
    Nat.shiftRight_eq_div_pow, ← Nat.shiftLeft_add_eq_or_of_lt (Nat.mod_lt _ (by decide)),
    Nat.shiftLeft_eq]
  omega

theorem setWidth_narrow (hlow : 0 ≤ v.toInt) (hhigh : v.toInt < 2 ^ 31) :
    (BitVec.ofInt 32 v.toInt).setWidth 64 = v := by
  apply BitVec.eq_of_toNat_eq
  have hv := v.isLt
  rw [BitVec.toNat_setWidth, BitVec.toNat_ofInt]
  rw [BitVec.toInt_eq_toNat_cond] at hlow hhigh ⊢
  split at hlow <;> split <;> omega

theorem signExtend_narrow (hlow : 0 ≤ v.toInt) (hhigh : v.toInt < 2 ^ 31) :
    (BitVec.ofInt 32 v.toInt).signExtend 64 = v := by
  apply BitVec.eq_of_toInt_eq
  rw [BitVec.toInt_signExtend_of_le (by decide), BitVec.toInt_ofInt]
  exact Int.bmod_eq_of_le (by omega) (by omega)

theorem word_number {ds : List Byte} {x : ℤ} (h : number? ds = some x) :
    word? (ch '%' :: ds) = some (BitVec.ofInt 32 x) := by
  rw [word?, at_zero, if_pos rfl, List.drop_succ_cons, List.drop_zero, h, Option.map_some]

theorem dataBytes_one {t : Token} {w : BitVec 32} (h : word? t = some w) :
    dataBytes [t] = some (leBytes 4 w.toNat) := by
  simp [dataBytes, h]

theorem dataBytes_two {t u : Token} {w x : BitVec 32} (ht : word? t = some w)
    (hu : word? u = some x) :
    dataBytes [t, u] = some (leBytes 4 w.toNat ++ leBytes 4 x.toNat) := by
  simp [dataBytes, ht, hu]

theorem long2str_half {x : ℤ} (hlow : 0 ≤ x) (hhigh : x < 2 ^ 32) :
    ∃ ds, long2str x 10 false = .ok ds ∧ number? ds = some x := by
  obtain ⟨m, rfl⟩ := Int.eq_ofNat_of_zero_le hlow
  obtain ⟨ds, hds, -, hnumber⟩ := long2str_nat (show m < 2 ^ 63 by omega) false
  exact ⟨ds, hds, hnumber⟩

theorem long2str_low (v : BitVec 64) : ∃ ds, long2str (immediateLowWord v.toInt) 10 false = .ok ds ∧
    word? (ch '%' :: ds) = some (v.setWidth 32) := by
  obtain ⟨ds, hds, hnumber⟩ := long2str_half (x := immediateLowWord v.toInt)
    (Int.emod_nonneg _ (by decide)) (Int.emod_lt_of_pos _ (by decide))
  exact ⟨ds, hds, by rw [word_number hnumber, ofInt_low]⟩

theorem long2str_high (v : BitVec 64) :
    ∃ ds, long2str (immediateHighWord v.toInt) 10 false = .ok ds ∧
      word? (ch '%' :: ds) = some ((v >>> 32).setWidth 32) := by
  obtain ⟨ds, hds, hnumber⟩ := long2str_half (x := immediateHighWord v.toInt)
    (Int.emod_nonneg _ (by decide)) (Int.emod_lt_of_pos _ (by decide))
  exact ⟨ds, hds, by rw [word_number hnumber, ofInt_high]⟩

theorem long2str_toInt (v : BitVec 64) :
    ∃ ds, long2str v.toInt 10 true = .ok ds ∧ number? ds = some v.toInt :=
  long2str_signed v.le_toInt v.toInt_lt

/-- In front of any code, the words leave `v` in `r` and go on behind themselves. -/
def Puts : Architecture → List Token → Token → BitVec 64 → Prop
  | .amd64, code, r, v => ∀ rest s,
      runAmd64 (code ++ rest) s = runAmd64 rest (Function.update s r v)
  | .aarch64, code, r, v => ∀ rest s fuel, ∃ spare,
      runAarch64 (code.length + fuel) (code ++ rest) s =
        runAarch64 (spare + fuel) rest (Function.update s r v)

theorem runAarch64_nil (fuel : ℕ) (s : Registers) : runAarch64 fuel [] s = some s := by
  cases fuel <;> rfl

theorem Puts.run {code : List Token} (h : Puts arch code r v) (s : Registers) :
    run arch code s = some (Function.update s r v) := by
  cases arch with
  | amd64 =>
      have hrun := h [] s
      rwa [List.append_nil] at hrun
  | aarch64 =>
      obtain ⟨spare, hrun⟩ := h [] s 0
      rw [List.append_nil, Nat.add_zero, runAarch64_nil] at hrun
      exact hrun

section Aarch64

variable {ds low high : Token}

theorem aarch64Op?_operand {head : Token} (hhead : ch ',' ∉ head) (operand : Token) :
    aarch64Op? (head ++ ch ',' :: operand) = aarch64Mnemonic? head operand := by
  have hall : ∀ c ∈ head, decide (c ≠ ch ',') = true := by
    intro c hc
    simpa using fun heq : c = ch ',' => hhead (heq ▸ hc)
  have htake : (head ++ ch ',' :: operand).takeWhile (· ≠ ch ',') = head := by
    rw [List.takeWhile_append_of_pos hall, List.takeWhile_cons_of_neg (by simp), List.append_nil]
  rw [aarch64Op?, htake, ← List.drop_drop, List.drop_left]
  rfl

theorem aarch64Op?_ldr (h : registerFromString .aarch64 reg = .ok r) :
    aarch64Op? (text ['l', 'd', 'r', '_'] ++ r ++ text [',', '8']) = some (.literal r 2) := by
  cases reg <;> cases h <;> decide

/-- The link register has no name for its low word that is its own with a `w`. -/
theorem aarch64Op?_ldr_word (h : registerFromString .aarch64 reg = .ok r) (hreg : reg ≠ .return) :
    aarch64Op? (text ['l', 'd', 'r', '_', 'w'] ++ r.drop 1 ++ text [',', '8']) =
      some (.literalWord r 2) := by
  cases reg with
  | «return» => exact absurd rfl hreg
  | _ => cases h; decide

theorem aarch64Op?_mov (h : registerFromString .aarch64 reg = .ok r) (operand : Token) :
    aarch64Op? (text ['m', 'o', 'v', '_'] ++ r ++ ch ',' :: operand) =
      (constant? operand).map (.mov r) := by
  cases reg <;> cases h <;> exact aarch64Op?_operand (by decide) operand

theorem puts_literal (hop : aarch64Op? ds = some (.literal r 2))
    (hlow : word? low = some (v.setWidth 32)) (hhigh : word? high = some ((v >>> 32).setWidth 32)) :
    Puts .aarch64 [ds, text ['b', '_', '1', '2'], low, high] r v := by
  have hbranch : aarch64Op? (text ['b', '_', '1', '2']) = some (.branch 3) := by decide
  intro rest s fuel
  refine ⟨2, ?_⟩
  have hfuel : [ds, text ['b', '_', '1', '2'], low, high].length + fuel = 2 + fuel + 1 + 1 := by
    simp only [List.length_cons, List.length_nil]
    omega
  rw [hfuel, List.cons_append, runAarch64, hop]
  simp [hlow, hhigh, runAarch64, hbranch, append_halves]

theorem puts_literal_word (hop : aarch64Op? ds = some (.literalWord r 2))
    (hword : word? low = some (BitVec.ofInt 32 v.toInt)) (hpos : 0 ≤ v.toInt)
    (hlt : v.toInt < 2 ^ 31) : Puts .aarch64 [ds, text ['b', '_', '8'], low] r v := by
  have hbranch : aarch64Op? (text ['b', '_', '8']) = some (.branch 2) := by decide
  intro rest s fuel
  refine ⟨1, ?_⟩
  have hfuel : [ds, text ['b', '_', '8'], low].length + fuel = 1 + fuel + 1 + 1 := by
    simp only [List.length_cons, List.length_nil]
    omega
  rw [hfuel, List.cons_append, runAarch64, hop]
  simp [hword, runAarch64, hbranch, setWidth_narrow hpos hlt]

theorem puts_mov (hop : aarch64Op? ds = some (.mov r v.toInt)) : Puts .aarch64 [ds] r v := by
  intro rest s fuel
  refine ⟨0, ?_⟩
  have hfuel : [ds].length + fuel = 0 + fuel + 1 := by
    simp only [List.length_cons, List.length_nil]
    omega
  rw [hfuel, List.cons_append, runAarch64, hop]
  simp

end Aarch64

section Amd64

variable {ds low high : Token}

theorem amd64Op?_movabs (h : registerFromString .amd64 reg = .ok r) :
    amd64Op? (text ['m', 'o', 'v', 'a', 'b', 's', '_'] ++ r ++ text [',']) = some (.movabs r) := by
  cases reg <;> cases h <;> decide

theorem amd64Op?_mov (h : registerFromString .amd64 reg = .ok r) :
    amd64Op? (text ['m', 'o', 'v', '_'] ++ r ++ text [',']) = some (.mov r) := by
  cases reg <;> cases h <;> decide

/-- The registers whose low half is not the name of the whole with an `e`. -/
def Register.isNew : Register → Bool
  | .locals => true
  | .emitTemp => true
  | .temp2 => true
  | _ => false

theorem amd64Op?_xor (h : registerFromString .amd64 reg = .ok r) :
    amd64Op? (text ['x', 'o', 'r', '_', 'e'] ++ r.drop 1 ++ text [',', 'e'] ++ r.drop 1) =
      if reg.isNew then none else some (.clear r) := by
  cases reg <;> cases h <;> decide

theorem puts_movabs (hop : amd64Op? ds = some (.movabs r))
    (hlow : word? low = some (v.setWidth 32)) (hhigh : word? high = some ((v >>> 32).setWidth 32)) :
    Puts .amd64 [ds, low, high] r v := by
  intro rest s
  simp [runAmd64, hop, hlow, hhigh, append_halves]

theorem puts_mov_imm (hop : amd64Op? ds = some (.mov r))
    (hword : word? low = some (BitVec.ofInt 32 v.toInt)) (hpos : 0 ≤ v.toInt)
    (hlt : v.toInt < 2 ^ 31) : Puts .amd64 [ds, low] r v := by
  intro rest s
  simp [runAmd64, hop, hword, signExtend_narrow hpos hlt]

theorem puts_clear (hop : amd64Op? ds = some (.clear r)) : Puts .amd64 [ds] r 0 := by
  intro rest s
  simp [runAmd64, hop]

theorem runAmd64_stuck (hop : amd64Op? ds = none) (ts : List Token) (s : Registers) :
    runAmd64 (ds :: ts) s = none := by
  simp [runAmd64, hop]

end Amd64

/-- A 64-bit register that the emitted words can load with the number. -/
def Loadable : Architecture → Register → BitVec 64 → Prop
  | .amd64, reg, v => reg ≠ .return ∧ (v = 0 → reg.isNew = false)
  | .aarch64, reg, v => reg = .return → immediateIsWide v.toInt = true

theorem registerFromString_ok (arch : Architecture) (reg : Register)
    (h : arch = .amd64 → reg ≠ .return) :
    ∃ r, registerFromString arch reg = .ok r := by
  cases arch with
  | aarch64 => cases reg <;> exact ⟨_, rfl⟩
  | amd64 =>
      cases reg with
      | «return» => exact absurd rfl (h rfl)
      | _ => exact ⟨_, rfl⟩

theorem hasShortVersion_range {x : ℤ} (h : (x = 0 ∧ reg = .one) ∨ hasShortVersion reg x = true) :
    -65536 ≤ x ∧ x < 65536 := by
  rw [hasShortVersion, decide_eq_true_eq] at h
  omega

theorem load_aarch64 (hr : registerFromString .aarch64 reg = .ok r)
    (h : Loadable .aarch64 reg v) :
    ∃ code, emitLoadImmediate .aarch64 reg v.toInt = .ok code ∧ Puts .aarch64 code r v := by
  obtain ⟨ds, hds, hnumber⟩ := long2str_toInt v
  obtain ⟨low, hlow, hlowWord⟩ := long2str_low v
  obtain ⟨high, hhigh, hhighWord⟩ := long2str_high v
  cases hwide : immediateIsWide v.toInt with
  | true =>
      refine ⟨_, ?_, puts_literal (aarch64Op?_ldr hr) hlowWord hhighWord⟩
      simp [emitLoadImmediate, writeLoadImmediate, hr, hds, hwide, hlow, hhigh, bind, Except.bind]
  | false =>
      obtain ⟨hpos, hlt⟩ := (narrow_iff v).mp hwide
      by_cases hshort : (v.toInt = 0 ∧ reg = .one) ∨ hasShortVersion reg v.toInt = true
      · have hmov := aarch64Op?_mov hr ds
        have hconstant : constant? ds = some v.toInt := by
          rw [constant?, hnumber, Option.bind_some, if_pos (hasShortVersion_range hshort)]
        rw [hconstant, Option.map_some] at hmov
        refine ⟨_, ?_, puts_mov hmov⟩
        simp only [emitLoadImmediate, writeLoadImmediate, hr, hds, hwide, bind, Except.bind,
          if_pos hshort, Bool.false_eq_true, ↓reduceIte]
      · have hreg : reg ≠ .return := by
          intro heq
          rw [h heq] at hwide
          cases hwide
        refine ⟨_, ?_,
          puts_literal_word (aarch64Op?_ldr_word hr hreg) (word_number hnumber) hpos hlt⟩
        simp only [emitLoadImmediate, writeLoadImmediate, hr, hds, hwide, bind, Except.bind,
          if_neg hshort, Bool.false_eq_true, ↓reduceIte]

theorem toInt_eq_zero : v.toInt = 0 ↔ v = 0 := by
  have hzero : (0 : BitVec 64).toInt = 0 := rfl
  rw [← BitVec.toInt_inj, hzero]

theorem load_amd64 (hr : registerFromString .amd64 reg = .ok r) (h : v = 0 → reg.isNew = false) :
    ∃ code, emitLoadImmediate .amd64 reg v.toInt = .ok code ∧ Puts .amd64 code r v := by
  obtain ⟨ds, hds, hnumber⟩ := long2str_toInt v
  obtain ⟨low, hlow, hlowWord⟩ := long2str_low v
  obtain ⟨high, hhigh, hhighWord⟩ := long2str_high v
  cases hwide : immediateIsWide v.toInt with
  | true =>
      refine ⟨_, ?_, puts_movabs (amd64Op?_movabs hr) hlowWord hhighWord⟩
      simp [emitLoadImmediate, writeLoadImmediate, hr, hds, hwide, hlow, hhigh, bind, Except.bind]
  | false =>
      obtain ⟨hpos, hlt⟩ := (narrow_iff v).mp hwide
      by_cases hzero : v = 0
      · have hxor := amd64Op?_xor hr
        rw [h hzero] at hxor
        subst hzero
        refine ⟨_, ?_, puts_clear hxor⟩
        simp only [emitLoadImmediate, writeLoadImmediate, hr, hds, hwide, bind, Except.bind,
          if_pos (toInt_eq_zero.mpr rfl), Bool.false_eq_true, ↓reduceIte]
      · refine ⟨_, ?_, puts_mov_imm (amd64Op?_mov hr) (word_number hnumber) hpos hlt⟩
        simp only [emitLoadImmediate, writeLoadImmediate, hr, hds, hwide, bind, Except.bind,
          if_neg (mt toInt_eq_zero.mp hzero), Bool.false_eq_true, ↓reduceIte]

/-- The words emitted for a number, and that they leave it in the register. -/
def Loads (arch : Architecture) (reg : Register) (v : BitVec 64) : Prop :=
  ∃ r code, registerFromString arch reg = .ok r ∧ emitLoadImmediate arch reg v.toInt = .ok code ∧
    ∀ s, run arch code s = some (Function.update s r v)

theorem loads_of_loadable (h : Loadable arch reg v) : Loads arch reg v := by
  cases arch with
  | amd64 =>
      obtain ⟨r, hr⟩ := registerFromString_ok .amd64 reg fun _ => h.1
      obtain ⟨code, hcode, hputs⟩ := load_amd64 hr h.2
      exact ⟨r, code, hr, hcode, hputs.run⟩
  | aarch64 =>
      obtain ⟨r, hr⟩ := registerFromString_ok .aarch64 reg nofun
      obtain ⟨code, hcode, hputs⟩ := load_aarch64 hr h
      exact ⟨r, code, hr, hcode, hputs.run⟩

/-- No assembler knows `xor_e14,e14` or `ldr_wr,8`. -/
theorem loadable_of_loads (h : Loads arch reg v) : Loadable arch reg v := by
  obtain ⟨r, code, hr, hcode, hrun⟩ := h
  have hstuck := hrun fun _ => 0
  cases arch with
  | amd64 =>
      refine ⟨fun heq => ?_, fun hzero => ?_⟩
      · rw [heq] at hr
        cases hr
      · have hxor := amd64Op?_xor hr
        subst hzero
        obtain ⟨ds, hds, -⟩ := long2str_toInt 0
        have hnarrow : immediateIsWide (0 : BitVec 64).toInt = false :=
          (narrow_iff 0).mpr (by decide)
        simp only [emitLoadImmediate, writeLoadImmediate, hr, hds, hnarrow, bind, Except.bind,
          if_pos (toInt_eq_zero.mpr rfl), Bool.false_eq_true, ↓reduceIte, Except.ok.injEq] at hcode
        cases hnew : reg.isNew with
        | false => rfl
        | true =>
            rw [hnew] at hxor
            rw [← hcode, run, runAmd64_stuck (by rw [hxor, if_pos rfl])] at hstuck
            cases hstuck
  | aarch64 =>
      rintro rfl
      cases hr
      cases hwide : immediateIsWide v.toInt with
      | true => rfl
      | false =>
          obtain ⟨ds, hds, -⟩ := long2str_toInt v
          have hname : registerFromString .aarch64 .return = .ok (text ['l', 'r']) := rfl
          have hnone : aarch64Op? (text ['l', 'd', 'r', '_', 'w'] ++ (text ['l', 'r']).drop 1 ++
              text [',', '8']) = none := by decide
          have hlong : ¬ ((v.toInt = 0 ∧ Register.return = .one) ∨
              hasShortVersion .return v.toInt = true) := by simp [hasShortVersion]
          simp only [emitLoadImmediate, writeLoadImmediate, hname, hds, hwide, bind, Except.bind,
            if_neg hlong, Bool.false_eq_true, ↓reduceIte, Except.ok.injEq] at hcode
          rw [← hcode, run, List.length_cons, runAarch64, hnone] at hstuck
          cases hstuck

theorem toInt_complement (v : BitVec 64) : -(v.toInt + 1) = (~~~v).toInt := by
  have hv := v.isLt
  have hnot : (~~~v).toNat = 2 ^ 64 - 1 - v.toNat := BitVec.toNat_not
  rw [BitVec.toInt_eq_toNat_cond, BitVec.toInt_eq_toNat_cond, hnot]
  split <;> split <;> omega

theorem loadable_zero (arch : Architecture) (v : BitVec 64) : Loadable arch .zero v := by
  cases arch with
  | amd64 => exact ⟨nofun, fun _ => rfl⟩
  | aarch64 => exact nofun

theorem caseValue_complement {code : List Token} (hr : registerFromString arch .zero = .ok r)
    (hneg : v.toInt < 0) (hcode : emitLoadImmediate arch .zero (~~~v).toInt = .ok code)
    (hputs : Puts arch code r (~~~v)) :
    ∃ code, emitCaseValue arch v.toInt = .ok code ∧
      ∀ s, run arch code s = some (Function.update s r v) := by
  have hsame (s : Registers) : Function.update (Function.update s r (~~~v)) r
      (~~~ Function.update s r (~~~v) r) = Function.update s r v := by
    rw [Function.update_idem, Function.update_self, BitVec.not_not]
  cases arch with
  | amd64 =>
      cases hr
      refine ⟨code ++ [text ['n', 'o', 't', '_', 'r', 'a', 'x']], ?_, fun s => ?_⟩
      · simp only [emitCaseValue, if_neg (Int.not_le.mpr hneg), toInt_complement, hcode, bind,
          Except.bind]
      · have hop : amd64Op? (text ['n', 'o', 't', '_', 'r', 'a', 'x']) =
            some (.not (text ['r', 'a', 'x'])) := by decide
        rw [run, hputs]
        simp [runAmd64, hop]
  | aarch64 =>
      cases hr
      refine ⟨code ++ [text ['m', 'v', 'n', '_', 'x', '0', ',', 'x', '0']], ?_, fun s => ?_⟩
      · simp only [emitCaseValue, if_neg (Int.not_le.mpr hneg), toInt_complement, hcode, bind,
          Except.bind]
      · have hop : aarch64Op? (text ['m', 'v', 'n', '_', 'x', '0', ',', 'x', '0']) =
            some (.not (text ['x', '0']) (text ['x', '0'])) := by decide
        obtain ⟨spare, hrun⟩ := hputs [text ['m', 'v', 'n', '_', 'x', '0', ',', 'x', '0']] s 1
        rw [run, List.length_append, List.length_singleton, hrun, runAarch64, hop]
        dsimp only
        rw [runAarch64_nil, hsame]

/-- The value of a case is left in the first register, negative ones too. -/
theorem emitCaseValue_leaves (arch : Architecture) (v : BitVec 64) :
    ∃ r code, registerFromString arch .zero = .ok r ∧ emitCaseValue arch v.toInt = .ok code ∧
      ∀ s, run arch code s = some (Function.update s r v) := by
  obtain ⟨r, hr⟩ := registerFromString_ok arch .zero nofun
  rcases Int.lt_or_le v.toInt 0 with hneg | hpos
  · have hload : ∃ code, emitLoadImmediate arch .zero (~~~v).toInt = .ok code ∧
        Puts arch code r (~~~v) := by
      cases arch with
      | amd64 => exact load_amd64 hr fun _ => rfl
      | aarch64 => exact load_aarch64 hr nofun
    obtain ⟨code, hcode, hputs⟩ := hload
    obtain ⟨code', hcase, hrun⟩ := caseValue_complement hr hneg hcode hputs
    exact ⟨r, code', hr, hcase, hrun⟩
  · obtain ⟨r, code, hr, hcode, hrun⟩ := loads_of_loadable (loadable_zero arch v)
    exact ⟨r, code, hr, by rw [emitCaseValue, if_pos hpos, hcode], hrun⟩

/-- The bytes of a global of four or of eight bytes. -/
theorem globalValueOutput_bytes (v : BitVec 64) {size : ℕ} (hsize : size = 4 ∨ size = 8) :
    ∃ ts, globalValueOutput v.toInt size = .ok ts ∧ dataBytes ts = some (leBytes size v.toNat) := by
  obtain ⟨low, hlow, hlowWord⟩ := long2str_low v
  obtain ⟨high, hhigh, hhighWord⟩ := long2str_high v
  have hfirst : leBytes 4 (v.setWidth 32).toNat = leBytes 4 v.toNat := by
    rw [BitVec.toNat_setWidth]
    exact leBytes_mod 4 v.toNat
  rcases hsize with rfl | rfl
  · refine ⟨[ch '%' :: low], ?_, ?_⟩
    · simp only [globalValueOutput, hlow, bind, Except.bind]
      rfl
    · rw [dataBytes_one hlowWord, hfirst]
  · have hsecond : leBytes 4 ((v >>> 32).setWidth 32).toNat = leBytes 4 (v.toNat / 256 ^ 4) := by
      rw [BitVec.toNat_setWidth, BitVec.toNat_ushiftRight, Nat.shiftRight_eq_div_pow]
      exact leBytes_mod 4 _
    refine ⟨[ch '%' :: low, ch '%' :: high], ?_, ?_⟩
    · simp only [globalValueOutput, hlow, hhigh, bind, Except.bind]
      rfl
    · have hsplit : leBytes 8 v.toNat = leBytes 4 v.toNat ++ leBytes 4 (v.toNat / 256 ^ 4) :=
        leBytes_add 4 4 v.toNat
      rw [dataBytes_two hlowWord hhighWord, hfirst, hsecond, hsplit]

/-- A literal is read, and a number loaded, compared with and stored, as what it is. -/
structure Exact (l : IntegerLiteral) (arch : Architecture) (reg : Register) (v : BitVec 64) :
    Prop where
  literal : strtolong l.spelling = wrap64 l.value
  load : Loads arch reg v
  caseValue : ∃ r code, registerFromString arch .zero = .ok r ∧
    emitCaseValue arch v.toInt = .ok code ∧ ∀ s, run arch code s = some (Function.update s r v)
  word : ∃ ts, globalValueOutput v.toInt 4 = .ok ts ∧ dataBytes ts = some (leBytes 4 v.toNat)
  doubleword : ∃ ts, globalValueOutput v.toInt 8 = .ok ts ∧
    dataBytes ts = some (leBytes 8 v.toNat)

/-- Numbers arrive exactly where the register can be loaded. -/
theorem immediate_exact (l : IntegerLiteral) (arch : Architecture) (reg : Register)
    (v : BitVec 64) : Exact l arch reg v ↔ Loadable arch reg v := by
  constructor
  · intro h
    exact loadable_of_loads h.load
  · intro h
    exact ⟨strtolong_spelling l, loads_of_loadable h, emitCaseValue_leaves arch v,
      globalValueOutput_bytes v (.inl rfl), globalValueOutput_bytes v (.inr rfl)⟩

/-- The literal `0`. -/
def zeroLiteral : IntegerLiteral := ⟨.octal, [], [], trivial, nofun, nofun⟩

/-- A factor of zero for `r14` goes by way of an `e14` that there is not. -/
theorem emitTemp_zero :
    emitLoadImmediate .amd64 .emitTemp 0 =
        .ok [text ['x', 'o', 'r', '_', 'e', '1', '4', ',', 'e', '1', '4']] ∧
      ¬ Exact zeroLiteral .amd64 .emitTemp 0 := by
  refine ⟨rfl, fun h => ?_⟩
  have hnew : Register.isNew .emitTemp = false := (loadable_of_loads h.load).2 rfl
  cases hnew

end Veron.MicroC
