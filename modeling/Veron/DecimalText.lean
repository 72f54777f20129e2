/-
Unsigned numbers as C prints and scans them: `%llu` writes the decimal digits,
and reading them back stops at the first byte that is not one.
-/
import Mathlib.Algebra.Group.Nat.Defs
import Mathlib.Data.Nat.Digits.Defs

namespace Veron

def digitByte (d : ℕ) : UInt8 := UInt8.ofNat (0x30 + d)

def isDigitByte (c : UInt8) : Bool := 0x30 ≤ c ∧ c ≤ 0x39

/-- `isspace`. -/
def isSpaceByte (c : UInt8) : Bool := c = 0x20 ∨ (0x09 ≤ c ∧ c ≤ 0x0d)

/-- The text `%llu` prints. -/
def printDecimal (n : ℕ) : List UInt8 :=
  if n = 0 then [0x30] else (Nat.digits 10 n).reverse.map digitByte

/-- The number a run of digits writes. -/
def readDecimal (ds : List UInt8) : ℕ := ds.foldl (fun n c => 10 * n + (c.toNat - 0x30)) 0

/-- An optional sign; `true` for a minus. -/
def scanSign : List UInt8 → Bool × List UInt8
  | [] => (false, [])
  | c :: rest =>
      if c = 0x2d then (true, rest) else if c = 0x2b then (false, rest) else (false, c :: rest)

/-- What `fscanf "%llu"` stores, `none` when it matches nothing: blanks, a sign,
and digits; a number out of range saturates. -/
def scanULL (text : List UInt8) : Option UInt64 :=
  let (neg, rest) := scanSign (text.dropWhile isSpaceByte)
  let ds := rest.takeWhile isDigitByte
  if ds = [] then none
  else if 2 ^ 64 ≤ readDecimal ds then some (UInt64.ofNat (2 ^ 64 - 1))
  else some (if neg then -UInt64.ofNat (readDecimal ds) else UInt64.ofNat (readDecimal ds))

theorem digitByte_toNat {d : ℕ} (hd : d < 10) : (digitByte d).toNat = 0x30 + d :=
  UInt8.toNat_ofNat_of_lt' (by rw [UInt8.size]; omega)

theorem isDigitByte_digitByte {d : ℕ} (hd : d < 10) : isDigitByte (digitByte d) = true := by
  have hvalue := digitByte_toNat hd
  simp only [isDigitByte, decide_eq_true_eq, UInt8.le_iff_toNat_le, UInt8.reduceToNat, hvalue]
  omega

theorem readDecimal_digits {ds : List ℕ} (hds : ∀ d ∈ ds, d < 10) :
    readDecimal (ds.reverse.map digitByte) = Nat.ofDigits 10 ds := by
  induction ds with
  | nil => rfl
  | cons d ds ih =>
      have hrest := ih fun e he => hds e (List.mem_cons_of_mem d he)
      have hd := digitByte_toNat (hds d List.mem_cons_self)
      rw [readDecimal] at hrest
      rw [readDecimal, List.reverse_cons, List.map_append, List.foldl_append, hrest,
        Nat.ofDigits_cons]
      simp only [List.map_cons, List.map_nil, List.foldl_cons, List.foldl_nil, hd]
      omega

theorem printDecimal_ne_nil (n : ℕ) : printDecimal n ≠ [] := by
  rw [printDecimal]
  split
  · exact List.cons_ne_nil _ _
  · simpa [Nat.digits_eq_nil_iff_eq_zero] using ‹n ≠ 0›

theorem isDigitByte_of_mem_printDecimal {n : ℕ} {c : UInt8} (hc : c ∈ printDecimal n) :
    isDigitByte c = true := by
  rw [printDecimal] at hc
  split at hc
  · rw [List.mem_singleton.mp hc]
    rfl
  · obtain ⟨d, hd, rfl⟩ := List.mem_map.mp hc
    exact isDigitByte_digitByte (Nat.digits_lt_base (by decide) (List.mem_reverse.mp hd))

theorem readDecimal_printDecimal (n : ℕ) : readDecimal (printDecimal n) = n := by
  rw [printDecimal]
  split
  · rename_i hzero
    rw [hzero]
    rfl
  · rw [readDecimal_digits fun d hd => Nat.digits_lt_base (by decide) hd, Nat.ofDigits_digits]

/-- A printed number is scanned as itself, whatever follows its digits. -/
theorem scanULL_printDecimal (n : UInt64) {c : UInt8} (hc : isDigitByte c = false)
    (rest : List UInt8) : scanULL (printDecimal n.toNat ++ c :: rest) = some n := by
  obtain ⟨d, ds, hprint⟩ := List.exists_cons_of_ne_nil (printDecimal_ne_nil n.toNat)
  have hdigits : ∀ e ∈ d :: ds, isDigitByte e = true := fun e he =>
    isDigitByte_of_mem_printDecimal (n := n.toNat) (hprint ▸ he)
  have hd := hdigits d List.mem_cons_self
  have hspace : isSpaceByte d = false := by
    simp [isDigitByte, isSpaceByte, UInt8.le_iff_toNat_le, ← UInt8.toNat_inj] at hd ⊢
    omega
  have hminus : d ≠ 0x2d := by
    rintro rfl
    cases hd
  have hplus : d ≠ 0x2b := by
    rintro rfl
    cases hd
  have htake : (d :: ds ++ c :: rest).takeWhile isDigitByte = d :: ds := by
    rw [List.takeWhile_append_of_pos hdigits, List.takeWhile_cons_of_neg (by simp [hc]),
      List.append_nil]
  have hvalue : readDecimal (d :: ds) = n.toNat := by
    rw [← hprint, readDecimal_printDecimal]
  have hlt : ¬ 2 ^ 64 ≤ n.toNat := Nat.not_le.mpr n.toNat_lt
  have hsign : scanSign ((d :: ds ++ c :: rest).dropWhile isSpaceByte) =
      (false, d :: ds ++ c :: rest) := by
    rw [List.cons_append, List.dropWhile_cons_of_neg (by simp [hspace]), scanSign, if_neg hminus,
      if_neg hplus]
  rw [hprint, scanULL, hsign]
  simp only [htake, hvalue, if_neg hlt, reduceCtorEq, ↓reduceIte, Bool.false_eq_true,
    UInt64.ofNat_toNat]

end Veron
