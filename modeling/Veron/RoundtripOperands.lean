/-
What a round trip without a difference says of two listings: in every pair the operands are the
same names and numbers, but for the sign of 32 bits.  The rest is not compared.
-/
import Mathlib.Data.Int.ModEq
import Mathlib.Data.List.Forall2
import Veron.Roundtrip

namespace Veron.Roundtrip

open CutText Regex

/-- A token that names a 32-bit register. -/
def namesW (t : List Char) : Bool :=
  match t.dropWhile (· = '[') with
  | 'w' :: c :: _ => c.isDigit || c = 'z' || c = 's'
  | _ => false

/-- A token that names a 64-bit register. -/
def namesX (t : List Char) : Bool :=
  match t.dropWhile (· = '[') with
  | 'x' :: c :: _ => c.isDigit || c = 'z'
  | 's' :: 'p' :: _ => true
  | _ => false

/-- The bits that an immediate stands for: 32 among 32-bit registers only, else 64. -/
def width (ts : List (List Char)) : ℕ := if ts.any namesW && !ts.any namesX then 32 else 64

variable (py : Python)

/-- The same number in so many bits, or the same name. -/
def SameOperand (bits : ℕ) (a b : List Char) : Prop :=
  match value py a, value py b with
  | some v, some w => v ≡ w [ZMOD 2 ^ bits]
  | none, none => a = b
  | _, _ => False

/-- The offsets from symbols that are dropped, with the symbols. -/
def offsets (ops : List Char) : List (List Char × ℕ) :=
  ((findAll (symbolTarget py) (bare py ops)).map fun m =>
    (m.group 1, magnitude 16 IntegerText.digitOf (m.group 2))).filter fun e => e.2 ≠ 0

/-- The same instruction: equal registers, equal immediates and the same target, under mnemonics
that are equal or spellings of each other. -/
structure SameInsn (aliases : List Char → List Char → Prop) (s d : Insn) : Prop where
  mn : s.mn = d.mn ∨ aliases s.mn d.mn
  ops : ∃ ts us, tokens py s.ops = some ts ∧ tokens py d.ops = some us ∧
    List.Forall₂ (SameOperand py (width ts)) ts us
  target : offsets py s.ops = offsets py d.ops

structure SameProgram (aliases : List Char → List Char → Prop) (src dis : List Insn) : Prop where
  count : src.length = dis.length
  insns : ∀ e ∈ src.zip dis, SameInsn py aliases e.1 e.2

/-- The same number, or the same name; a negative number may stand for its unsigned 32 bits. -/
def Agrees (a b : List Char) : Prop :=
  match value py a, value py b with
  | some v, some w => v = w ∨ (v < 0 ∨ w < 0) ∧ v ≡ w [ZMOD 2 ^ 32]
  | none, none => a = b
  | _, _ => False

/-- The operands as `norm` takes them apart, each with its own in the other instruction. -/
def SameOperands (s d : Insn) : Prop :=
  ∃ ts us, tokens py s.ops = some ts ∧ tokens py d.ops = some us ∧ List.Forall₂ (Agrees py) ts us

variable {py} {src : List Insn}

theorem digits_injective {m n : ℕ} (h : digits m = digits n) : m = n := by
  have hread := congrArg (Nat.ofDigitChars 10 · 0) h
  simpa only [digits, Nat.ofDigitChars_ten_toDigits] using hread

theorem isDigit_of_mem_digits {n : ℕ} {c : Char} (h : c ∈ digits n) : c.isDigit :=
  Nat.isDigit_of_mem_toDigits (by decide) (by decide) h

theorem fold_modEq (v : ℤ) : (fold v : ℤ) ≡ v [ZMOD 2 ^ 32] := by
  rw [fold]
  split
  · rw [Int.toNat_of_nonneg (Int.emod_nonneg v (by decide))]
    exact Int.mod_modEq v _
  · rename_i hv
    rw [Int.toNat_of_nonneg (Int.not_lt.mp hv)]

theorem fold_of_nonneg {v : ℤ} (hv : 0 ≤ v) : (fold v : ℤ) = v := by
  rw [fold, if_neg (Int.not_lt.mpr hv), Int.toNat_of_nonneg hv]

/-- What a number is printed as is a number. -/
theorem value_digits (py : Python) (n : ℕ) : value py (digits n) ≠ none := by
  have hmatch : ((decNumber py).fullmatch (digits n)).isSome := by
    rw [fullmatch_isSome_iff]
    have hdigits : ∀ c ∈ digits n, (py.decimal c).isSome :=
      fun c hc => py.digit c (isDigit_of_mem_digits hc)
    have hruns : Runs (plus (.one fun c => (py.decimal c).isSome)) ⟨[], digits n ++ [], []⟩
        ⟨(digits n).reverse ++ [], [], []⟩ := runs_plus_one Nat.toDigits_ne_nil hdigits
    rw [List.append_nil] at hruns
    exact ⟨_, .seq (.right (.empty _)) hruns, rfl⟩
  rw [value, if_pos hmatch]
  split <;> exact Option.some_ne_none _

/-- Numbers that are equal after folding are equal, unless one of them is negative. -/
theorem eq_or_modEq_of_fold {v w : ℤ} (h : fold v = fold w) :
    v = w ∨ (v < 0 ∨ w < 0) ∧ v ≡ w [ZMOD 2 ^ 32] := by
  by_cases hsign : v < 0 ∨ w < 0
  · have hw := fold_modEq w
    rw [← h] at hw
    exact .inr ⟨hsign, (fold_modEq v).symm.trans hw⟩
  · rw [not_or, Int.not_lt, Int.not_lt] at hsign
    exact .inl (calc
      v = (fold v : ℤ) := (fold_of_nonneg hsign.1).symm
      _ = (fold w : ℤ) := congrArg Int.ofNat h
      _ = w := fold_of_nonneg hsign.2)

theorem agrees_of_canon {a b : List Char} (h : canon py a = canon py b) : Agrees py a b := by
  rw [Agrees]
  rw [canon, canon] at h
  cases ha : value py a with
  | none =>
      rw [ha] at h
      cases hb : value py b with
      | none =>
          rw [hb] at h
          exact h
      | some w =>
          rw [hb] at h
          simp only at h
          rw [h] at ha
          exact value_digits py _ ha
  | some v =>
      rw [ha] at h
      cases hb : value py b with
      | none =>
          rw [hb] at h
          simp only at h
          rw [← h] at hb
          exact value_digits py _ hb
      | some w =>
          rw [hb] at h
          exact eq_or_modEq_of_fold (digits_injective h)

theorem mem_split {ops : List Char} {ts : List (List Char)} {t : List Char}
    (hts : tokens py ops = some ts) (ht : t ∈ ts) : t ≠ [] ∧ ' ' ∉ t := by
  obtain ⟨text, rfl⟩ : ∃ text, ts = split py text := by
    rw [tokens] at hts
    cases hlit : subM charLiteral (fun m => (charCode (m.group 1)).map digits)
      (sub annotation (fun _ => []) (sub (symbolTarget py) (fun m => m.group 1) (bare py ops))) with
    | none =>
        rw [hlit] at hts
        cases hts
    | some o =>
        rw [hlit] at hts
        exact ⟨_, (Option.some.inj hts).symm⟩
  obtain ⟨hpiece, hne⟩ := List.mem_filter.mp ht
  refine ⟨of_decide_eq_true hne, fun hspace => ?_⟩
  exact absurd ((not_of_mem_splitOnP hpiece hspace).symm.trans py.space) (by decide)

theorem canon_plain {t : List Char} (ht : t ≠ [] ∧ ' ' ∉ t) :
    canon py t ≠ [] ∧ ' ' ∉ canon py t := by
  rw [canon]
  split
  · exact ⟨Nat.toDigits_ne_nil, fun hspace => absurd (isDigit_of_mem_digits hspace) (by decide)⟩
  · exact ht

/-- Texts with something in them and no blank are told apart when they are put together. -/
theorem intercalate_injective {l k : List (List Char)} (hl : ∀ t ∈ l, t ≠ [] ∧ ' ' ∉ t)
    (hk : ∀ t ∈ k, t ≠ [] ∧ ' ' ∉ t) (h : [' '].intercalate l = [' '].intercalate k) : l = k := by
  have hsplit : ∀ m : List (List Char), (∀ t ∈ m, t ≠ [] ∧ ' ' ∉ t) →
      (([' '].intercalate m).splitOn ' ').filter (· ≠ []) = m := by
    intro m hm
    cases m with
    | nil => rfl
    | cons t m =>
        rw [List.splitOn_intercalate ' ' (fun t ht => (hm t ht).2) (List.cons_ne_nil t m)]
        exact List.filter_eq_self.mpr fun t ht => decide_eq_true (hm t ht).1
  rw [← hsplit l hl, ← hsplit k hk, h]

theorem canon_eq_of_ops {s d : Insn} {n m : Insn} {ts us : List (List Char)}
    (hn : norm py s = some n) (hm : norm py d = some m) (hts : tokens py s.ops = some ts)
    (hus : tokens py d.ops = some us) (h : n.ops = m.ops) :
    List.Forall₂ (fun a b => canon py a = canon py b) ts us := by
  rw [norm, hts] at hn
  rw [norm, hus] at hm
  cases hn
  cases hm
  have hmap : ts.map (canon py) = us.map (canon py) := by
    apply intercalate_injective
    · exact List.forall_mem_map.mpr fun t ht => canon_plain (mem_split hts ht)
    · exact List.forall_mem_map.mpr fun t ht => canon_plain (mem_split hus ht)
    · exact h
  rw [← List.forall₂_eq_eq_eq, List.forall₂_map_left_iff, List.forall₂_map_right_iff] at hmap
  exact hmap

section

variable {α β : Type*} {f : α → Option β} {l : List α} {k : List β}

theorem forall₂_of_mapM (h : l.mapM f = some k) : List.Forall₂ (fun a b => f a = some b) l k := by
  induction l generalizing k with
  | nil =>
      cases h
      exact .nil
  | cons a l ih =>
      rw [List.mapM_cons] at h
      cases ha : f a with
      | none =>
          rw [ha] at h
          cases h
      | some b =>
          cases hl : l.mapM f with
          | none =>
              rw [ha, hl] at h
              cases h
          | some bs =>
              rw [ha, hl] at h
              cases h
              exact .cons ha (ih hl)

theorem exists_mem_zip {γ δ : Type*} {R : α → β → Prop} {S : γ → δ → Prop} {l' : List γ}
    {k' : List δ} (h : List.Forall₂ R l k) (h' : List.Forall₂ S l' k') {e : α × γ}
    (he : e ∈ l.zip l') : ∃ e' ∈ k.zip k', R e.1 e'.1 ∧ S e.2 e'.2 := by
  induction h generalizing l' k' with
  | nil => cases he
  | cons hR _ ih =>
      cases h' with
      | nil => cases he
      | cons hS htail =>
          rcases List.mem_cons.mp he with rfl | he
          · exact ⟨_, List.mem_cons_self, hR, hS⟩
          · obtain ⟨e', he', hboth⟩ := ih htail he
            exact ⟨e', List.mem_cons_of_mem _ he', hboth⟩

end

/-- Leaving out data before and after the instructions are reduced is the same. -/
theorem forall₂_code {l k : List (Option (List Char) × Insn)}
    (h : List.Forall₂ (fun e a => ((norm py e.2).map fun i => (e.1, i)) = some a) l k) :
    List.Forall₂ (fun i n => norm py i = some n) ((l.filter fun e => isCode e.1).map Prod.snd)
      ((k.filter fun e => isCode e.1).map Prod.snd) := by
  induction h with
  | nil => exact .nil
  | @cons e a l k hnorm _ ih =>
      obtain ⟨i, hi, rfl⟩ := Option.map_eq_some_iff.mp hnorm
      rw [List.filter_cons, List.filter_cons]
      split
      · exact .cons hi ih
      · exact ih

/-- Without a difference beyond the budget of none, the texts of every pair are equal. -/
theorem ops_eq_of_main {source dump : List Char} (hsrc : readSource py source = some src)
    (hzero : main py (some 0) source dump = some 0) :
    ∀ e ∈ src.zip (readObjdump py dump), ∃ n m, norm py e.1 = some n ∧ norm py e.2 = some m ∧
      n.ops = m.ops := by
  rw [main, hsrc] at hzero
  cases hs : src.mapM (norm py) with
  | none =>
      simp only [Option.bind_eq_bind, Option.bind_some, hs] at hzero
      cases hzero
  | some ss =>
      cases hall : (objdumpInsns py none (lines dump)).mapM
          fun e => (norm py e.2).map fun i => (e.1, i) with
      | none =>
          simp only [Option.bind_eq_bind, Option.bind_some, hs, hall] at hzero
          cases hzero
      | some all =>
          simp only [Option.bind_eq_bind, Option.bind_some, hs, hall] at hzero
          intro e he
          obtain ⟨e', he', hn, hm⟩ :=
            exists_mem_zip (forall₂_of_mapM hs) (forall₂_code (forall₂_of_mapM hall)) he
          refine ⟨e'.1, e'.2, hn, hm, ?_⟩
          by_contra hne
          have hreal : e' ∈ (((ss.zip ((all.filter fun e => isCode e.1).map Prod.snd)).filter
              fun e => e.1 ≠ e.2).filter fun e => e.1.ops ≠ e.2.ops) :=
            List.mem_filter.mpr ⟨List.mem_filter.mpr
              ⟨he', decide_eq_true fun h => hne (congrArg Insn.ops h)⟩, decide_eq_true hne⟩
          have hpos := List.length_pos_of_mem hreal
          rw [if_pos (by exact_mod_cast hpos)] at hzero
          cases hzero

/-- Python on texts of ASCII characters. -/
def ascii : Python where
  isSpace c := c = ' ' || ('\t' ≤ c && c ≤ '\r') || ('\x1c' ≤ c && c ≤ '\x1f')
  isWord c := c.isAlphanum || c = '_'
  decimal c := if c.isDigit then some (c.toNat - '0'.toNat) else none
  template t _ := if '\\' ∈ t then none else some t
  space := rfl
  digit c hc := by
    rw [if_pos hc]
    rfl

/-- Aliases as the script names them. -/
def spellings (a b : List Char) : Prop :=
  (a, b) ∈ pairs ∨ (b, a) ∈ pairs
where
  pairs : List (List Char × List Char) :=
    [("movz", "mov"), ("orr", "mov"), ("subs", "cmp"), ("ubfm", "lsl"), ("madd", "mul")].map
      fun e => (e.1.toList, e.2.toList)

theorem tokens_of_norm {i n : Insn} (h : norm py i = some n) : ∃ ts, tokens py i.ops = some ts := by
  obtain ⟨ts, hts, -⟩ := Option.map_eq_some_iff.mp h
  exact ⟨ts, hts⟩

theorem readSource_of_main {budget : Option ℤ} {source dump : List Char} {code : ℕ}
    (h : main py budget source dump = some code) : ∃ src, readSource py source = some src := by
  rw [main] at h
  cases hsrc : readSource py source with
  | none =>
      rw [hsrc] at h
      cases h
  | some src => exact ⟨src, rfl⟩

def twoInsns : List Char := "\tadr x1, msg\n\tret\n".toList

def wholeDump : List Char := "0:\t10000041\tadr\tx1, 8 <msg>\n4:\td65f03c0\tret\n".toList

/-- No difference is found, and the programs differ. -/
def Missed (source dump : String) : Prop :=
  main ascii (some 0) source.toList dump.toList = some 0 ∧
    ∃ src, readSource ascii source.toList = some src ∧
      ¬ SameProgram ascii spellings src (readObjdump ascii dump.toList)

theorem missed_of_insn {source dump : String} {s d : Insn}
    (hzero : main ascii (some 0) source.toList dump.toList = some 0)
    (hsrc : readSource ascii source.toList = some [s])
    (hdump : readObjdump ascii dump.toList = [d]) (hdiff : ¬ SameInsn ascii spellings s d) :
    Missed source dump := by
  refine ⟨hzero, [s], hsrc, fun h => hdiff ?_⟩
  rw [hdump] at h
  exact h.insns (s, d) List.mem_cons_self

end Veron.Roundtrip
