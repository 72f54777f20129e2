/-
veron-mkgpt: the sixteen bytes of a GUID read from its text, beside the same
function of veron-efiboot.
-/
import Mathlib.Data.List.TakeWhile
import Veron.EfiBoot
import Veron.Utf8

namespace Veron

namespace MkGpt

/-- The digit `bytes.fromhex` takes a character for. -/
def digitValue (c : Char) : Option UInt8 :=
  if '0' ≤ c ∧ c ≤ '9' then some (c.toNat - 0x30).toUInt8
  else if 'a' ≤ c ∧ c ≤ 'f' then some (c.toNat - 0x61 + 10).toUInt8
  else if 'A' ≤ c ∧ c ≤ 'F' then some (c.toNat - 0x41 + 10).toUInt8
  else none

/-- The white space of ASCII, which `bytes.fromhex` skips in front of a pair. -/
def isSpace (c : Char) : Bool := c = ' ' || 0x09 ≤ c.toNat && c.toNat ≤ 0x0d

def fromhex : List Char → Option (List UInt8)
  | [] => some []
  | [c] => if isSpace c then some [] else none
  | c :: d :: text =>
      if isSpace c then fromhex (d :: text)
      else
        match digitValue c, digitValue d with
        | some hi, some lo => (fromhex text).map ((hi <<< 4 ||| lo) :: ·)
        | _, _ => none

attribute [local simp] fromhex

/-- `text.replace("-", "")`. -/
def digits (text : List Char) : List Char := text.filter (· ≠ '-')

/-- `none` is an exit; a slice with a step of -1 takes what there is of it. -/
def guidBytes (text : List Char) : Option (List UInt8) :=
  if (digits text).length ≠ 32 then none
  else
    (fromhex (digits text)).map fun raw =>
      (raw.take 4).reverse ++ ((raw.drop 4).take 2).reverse ++ ((raw.drop 6).take 2).reverse
        ++ raw.drop 8

def IsHex (c : Char) : Prop := (digitValue c).isSome

instance : DecidablePred IsHex := fun c => inferInstanceAs (Decidable (digitValue c).isSome)

/-- A text that begins with so many pairs of digits, dashes between pairs only. -/
inductive Undivided : ℕ → List Char → Prop
  | done (text : List Char) : Undivided 0 text
  | dash {k : ℕ} {text : List Char} : Undivided (k + 1) text → Undivided (k + 1) ('-' :: text)
  | pair {k : ℕ} {c d : Char} {text : List Char} :
      IsHex c → IsHex d → Undivided k text → Undivided (k + 1) (c :: d :: text)

/-- A text of pairs of digits, white space between pairs only. -/
inductive Spaced : List Char → Prop
  | nil : Spaced []
  | space {c : Char} {text : List Char} : isSpace c → Spaced text → Spaced (c :: text)
  | pair {c d : Char} {text : List Char} : IsHex c → IsHex d → Spaced text → Spaced (c :: d :: text)

/-- What an argument of veron-efiboot holds of a text: its bytes before a NUL. -/
def argument (text : List Char) : CString where
  bytes := (text.flatMap String.utf8EncodeChar).takeWhile (· ≠ 0)
  no_nul := fun h => by simpa using List.mem_takeWhile_imp h

theorem argument_bytes (text : List Char) :
    (argument text).bytes = (text.flatMap String.utf8EncodeChar).takeWhile (· ≠ 0) :=
  rfl

theorem hexv_eq_digitValue {c : Char} (h : c.toNat < 0x80) :
    EfiBoot.hexv c.toNat.toUInt8 = digitValue c := by
  have hall : ∀ n : Fin 0x80, EfiBoot.hexv n.val.toUInt8 = digitValue (Char.ofNat n.val) := by
    decide
  simpa using hall ⟨c.toNat, h⟩

theorem hexv_of_high {b : UInt8} (h : 0x80 ≤ b.toNat) : EfiBoot.hexv b = none := by
  simp only [EfiBoot.hexv, UInt8.le_iff_toNat_le, UInt8.reduceToNat]
  rw [if_neg (by omega), if_neg (by omega), if_neg (by omega)]

theorem IsHex.lt {c : Char} (h : IsHex c) : 0x30 ≤ c.toNat ∧ c.toNat ≤ 0x66 := by
  have hle : ∀ a b : Char, a ≤ b ↔ a.toNat ≤ b.toNat := fun _ _ => Iff.rfl
  simp only [IsHex, digitValue, hle, Char.reduceToNat] at h
  split at h
  · omega
  · split at h
    · omega
    · split at h
      · omega
      · cases h

theorem IsHex.not_space {c : Char} (h : IsHex c) : ¬ isSpace c := by
  have hlt := h.lt
  intro hspace
  simp only [isSpace, Bool.or_eq_true, Bool.and_eq_true, decide_eq_true_eq] at hspace
  rcases hspace with rfl | hspace
  · simp at hlt
  · omega

theorem IsHex.ne_dash {c : Char} (h : IsHex c) : c ≠ '-' := by
  have hlt := h.lt
  rintro rfl
  simp at hlt

/-- A text as the loop of `guid_bytes` meets it: at its end, or behind a zero
character, there is nothing; a character of ASCII is its own byte; any other
gives a byte that is neither a digit nor a dash. -/
theorem argument_cons (c : Char) (text : List Char) :
    (argument (c :: text)).bytes = [] ∧ ¬ IsHex c ∧ c ≠ '-' ∨
      (argument (c :: text)).bytes = c.toNat.toUInt8 :: (argument text).bytes ∧ c.toNat < 0x80 ∨
      (∃ b more, (argument (c :: text)).bytes = b :: more ∧ 0x80 ≤ b.toNat) ∧ ¬ IsHex c ∧
        c ≠ '-' := by
  by_cases hzero : c.toNat = 0
  · left
    obtain rfl : c = '\x00' := Char.toNat_inj.mp hzero
    exact ⟨rfl, by decide, by decide⟩
  · right
    by_cases hlt : c.toNat < 0x80
    · left
      have hne : c.toNat.toUInt8 ≠ 0 := by
        intro heq
        have hnat := congrArg UInt8.toNat heq
        rw [Nat.toUInt8, UInt8.toNat_ofNat_of_lt' (by rw [UInt8.size]; omega)] at hnat
        exact hzero hnat
      refine ⟨?_, hlt⟩
      rw [argument_bytes, List.flatMap_cons, Utf8.utf8EncodeChar_of_lt hlt, List.singleton_append,
        List.takeWhile_cons_of_pos (by simpa using hne)]
      rfl
    · right
      have hnot : ¬ IsHex c := fun h => by
        have := h.lt
        omega
      have hdash : c ≠ '-' := by
        rintro rfl
        exact hlt (by decide)
      refine ⟨?_, hnot, hdash⟩
      cases hbytes : String.utf8EncodeChar c with
      | nil => exact absurd hbytes (Utf8.utf8EncodeChar_ne_nil c)
      | cons b more =>
          have hhigh : 0x80 ≤ b.toNat :=
            Utf8.high_of_mem_utf8EncodeChar (Nat.le_of_not_lt hlt) (hbytes ▸ List.mem_cons_self)
          have hne : b ≠ 0 := by
            rintro rfl
            simp at hhigh
          refine ⟨b, (more ++ text.flatMap String.utf8EncodeChar).takeWhile (· ≠ 0), ?_, hhigh⟩
          rw [argument_bytes, List.flatMap_cons, hbytes, List.cons_append,
            List.takeWhile_cons_of_pos (by simpa using hne)]

open EfiBoot (rawGuid hexv dash)

theorem rawGuid_dash (k : ℕ) (text : List UInt8) :
    rawGuid (k + 1) (dash :: text) = rawGuid (k + 1) text := by
  cases text with
  | nil => rfl
  | cons d text => rw [rawGuid, if_pos rfl]

theorem rawGuid_none {k : ℕ} {b : UInt8} {text : List UInt8} (hne : b ≠ dash)
    (h : hexv b = none ∨ text = [] ∨ ∃ d more, text = d :: more ∧ hexv d = none) :
    rawGuid (k + 1) (b :: text) = none := by
  cases text with
  | nil => rfl
  | cons d text =>
      rw [rawGuid, if_neg hne]
      rcases h with h | h | ⟨d', more, h, hd⟩
      · rw [h]
      · cases h
      · obtain ⟨rfl, rfl⟩ := List.cons.inj h
        rw [hd]
        cases hexv b <;> rfl

theorem ne_dash_of_high {b : UInt8} (h : 0x80 ≤ b.toNat) : b ≠ dash := by
  rintro rfl
  exact absurd h (by decide)

theorem toUInt8_eq_dash_iff {c : Char} (h : c.toNat < 0x80) :
    c.toNat.toUInt8 = dash ↔ c = '-' := by
  constructor
  · intro heq
    have hnat := congrArg UInt8.toNat heq
    rw [Nat.toUInt8, UInt8.toNat_ofNat_of_lt' (by rw [UInt8.size]; omega)] at hnat
    exact Char.toNat_inj.mp hnat
  · rintro rfl
    rfl

/-- A character that is no digit has no byte that is one. -/
theorem argument_not_hex {c : Char} {text : List Char} (h : ¬ IsHex c) :
    (argument (c :: text)).bytes = [] ∨
      ∃ b more, (argument (c :: text)).bytes = b :: more ∧ hexv b = none := by
  rcases argument_cons c text with ⟨hnil, -⟩ | ⟨hcons, hlt⟩ | ⟨⟨b, more, hcons, hhigh⟩, -⟩
  · exact Or.inl hnil
  · refine Or.inr ⟨_, _, hcons, ?_⟩
    rw [hexv_eq_digitValue hlt]
    simpa [IsHex] using h
  · exact Or.inr ⟨b, more, hcons, hexv_of_high hhigh⟩

theorem argument_hex {c : Char} (h : IsHex c) (text : List Char) :
    (argument (c :: text)).bytes = c.toNat.toUInt8 :: (argument text).bytes ∧
      hexv c.toNat.toUInt8 = digitValue c := by
  rcases argument_cons c text with ⟨-, hnot, -⟩ | ⟨hcons, hlt⟩ | ⟨-, hnot, -⟩
  · exact absurd h hnot
  · exact ⟨hcons, hexv_eq_digitValue hlt⟩
  · exact absurd h hnot

theorem rawGuid_argument_dash (k : ℕ) (text : List Char) :
    rawGuid (k + 1) (argument ('-' :: text)).bytes = rawGuid (k + 1) (argument text).bytes := by
  rcases argument_cons '-' text with ⟨-, -, hne⟩ | ⟨hcons, -⟩ | ⟨-, -, hne⟩
  · exact absurd rfl hne
  · rw [hcons]
    exact rawGuid_dash k _
  · exact absurd rfl hne

theorem rawGuid_argument_pair {k : ℕ} {c d : Char} {hi lo : UInt8} {text : List Char}
    (hc : digitValue c = some hi) (hd : digitValue d = some lo) :
    rawGuid (k + 1) (argument (c :: d :: text)).bytes =
      (rawGuid k (argument text).bytes).map ((hi <<< 4 ||| lo) :: ·) := by
  have hhexc : IsHex c := by simp [IsHex, hc]
  have hhexd : IsHex d := by simp [IsHex, hd]
  obtain ⟨hfirst, hvalc⟩ := argument_hex hhexc (d :: text)
  obtain ⟨hsecond, hvald⟩ := argument_hex hhexd text
  have hne : c.toNat.toUInt8 ≠ dash := by
    have hlt := hhexc.lt
    exact fun heq => hhexc.ne_dash ((toUInt8_eq_dash_iff (by omega)).mp heq)
  rw [hfirst, hsecond, rawGuid, if_neg hne, hvalc, hvald, hc, hd]

/-- What is neither a dash nor the first digit of a pair stops the loop. -/
theorem rawGuid_argument_none {k : ℕ} {c : Char} {text : List Char} (hne : c ≠ '-')
    (h : ¬ IsHex c ∨ text = [] ∨ ∃ d more, text = d :: more ∧ ¬ IsHex d) :
    rawGuid (k + 1) (argument (c :: text)).bytes = none := by
  rcases argument_cons c text with ⟨hnil, -⟩ | ⟨hcons, hlt⟩ | ⟨⟨b, more, hcons, hhigh⟩, -⟩
  · rw [hnil]
    rfl
  · rw [hcons]
    refine rawGuid_none (fun heq => hne ((toUInt8_eq_dash_iff hlt).mp heq)) ?_
    rcases h with hnot | rfl | ⟨d, more, rfl, hnot⟩
    · left
      rw [hexv_eq_digitValue hlt]
      simpa [IsHex] using hnot
    · exact Or.inr (Or.inl rfl)
    · exact Or.inr (argument_not_hex hnot)
  · rw [hcons]
    exact rawGuid_none (ne_dash_of_high hhigh) (Or.inl (hexv_of_high hhigh))

theorem rawGuid_isSome_of_undivided {k : ℕ} {text : List Char} (h : Undivided k text) :
    (rawGuid k (argument text).bytes).isSome := by
  induction h with
  | done text => rw [rawGuid, Option.isSome_some]
  | dash _ ih => rwa [rawGuid_argument_dash]
  | pair hc hd _ ih =>
      obtain ⟨hi, hhi⟩ := Option.isSome_iff_exists.mp hc
      obtain ⟨lo, hlo⟩ := Option.isSome_iff_exists.mp hd
      rwa [rawGuid_argument_pair hhi hlo, Option.isSome_map]

theorem undivided_of_rawGuid {k : ℕ} {text : List Char}
    (h : (rawGuid k (argument text).bytes).isSome) : Undivided k text := by
  match k, text with
  | 0, text => exact .done text
  | k + 1, [] => cases h
  | k + 1, c :: text =>
      by_cases hdash : c = '-'
      · subst hdash
        rw [rawGuid_argument_dash] at h
        exact .dash (undivided_of_rawGuid h)
      · by_cases hc : IsHex c
        · match text with
          | [] =>
              rw [rawGuid_argument_none hdash (Or.inr (Or.inl rfl))] at h
              cases h
          | d :: text =>
              by_cases hd : IsHex d
              · obtain ⟨hi, hhi⟩ := Option.isSome_iff_exists.mp hc
                obtain ⟨lo, hlo⟩ := Option.isSome_iff_exists.mp hd
                rw [rawGuid_argument_pair hhi hlo, Option.isSome_map] at h
                exact .pair hc hd (undivided_of_rawGuid h)
              · rw [rawGuid_argument_none hdash (Or.inr (Or.inr ⟨d, text, rfl, hd⟩))] at h
                cases h
        · rw [rawGuid_argument_none hdash (Or.inl hc)] at h
          cases h

theorem undivided_iff {k : ℕ} {text : List Char} :
    (rawGuid k (argument text).bytes).isSome ↔ Undivided k text :=
  ⟨undivided_of_rawGuid, rawGuid_isSome_of_undivided⟩

theorem fromhex_pair {c d : Char} {hi lo : UInt8} {text : List Char}
    (hc : digitValue c = some hi) (hd : digitValue d = some lo) :
    fromhex (c :: d :: text) = (fromhex text).map ((hi <<< 4 ||| lo) :: ·) := by
  have hhex : IsHex c := by simp [IsHex, hc]
  rw [fromhex, if_neg hhex.not_space, hc, hd]

theorem fromhex_space {c : Char} {text : List Char} (hc : isSpace c) :
    fromhex (c :: text) = fromhex text := by
  cases text with
  | nil => simp [fromhex, hc]
  | cons d text => rw [fromhex, if_pos hc]

theorem spaced_iff {text : List Char} : (fromhex text).isSome ↔ Spaced text := by
  constructor
  · intro h
    induction text using fromhex.induct with
    | case1 => exact .nil
    | case2 c hspace => exact .space hspace .nil
    | case3 c hspace => simp [fromhex, hspace] at h
    | case4 c d text hspace ih =>
        rw [fromhex_space hspace] at h
        exact .space hspace (ih h)
    | case5 c d text hspace hi lo hlo hhi ih =>
        rw [fromhex_pair hhi hlo, Option.isSome_map] at h
        exact .pair (by simp [IsHex, hhi]) (by simp [IsHex, hlo]) (ih h)
    | case6 c d text hspace hnone =>
        rw [fromhex, if_neg hspace] at h
        split at h
        · exact absurd ‹_› (by grind)
        · cases h
  · intro h
    induction h with
    | nil => rfl
    | space hc _ ih => rwa [fromhex_space hc]
    | pair hc hd _ ih =>
        obtain ⟨hi, hhi⟩ := Option.isSome_iff_exists.mp hc
        obtain ⟨lo, hlo⟩ := Option.isSome_iff_exists.mp hd
        rwa [fromhex_pair hhi hlo, Option.isSome_map]

@[simp] theorem digits_dash (text : List Char) : digits ('-' :: text) = digits text := rfl

theorem digits_cons {c : Char} (h : c ≠ '-') (text : List Char) :
    digits (c :: text) = c :: digits text := by
  rw [digits, List.filter_cons_of_pos (by simpa using h), digits]

/-- Where the pairs are all there is, both functions read the same bytes. -/
theorem rawGuid_eq_fromhex {k : ℕ} {text : List Char} (h : Undivided k text)
    (hlen : (digits text).length = 2 * k) :
    rawGuid k (argument text).bytes = fromhex (digits text) := by
  induction h with
  | done text =>
      rw [rawGuid, List.eq_nil_of_length_eq_zero hlen, fromhex]
  | dash _ ih =>
      rw [rawGuid_argument_dash, digits_dash]
      exact ih hlen
  | pair hc hd _ ih =>
      obtain ⟨hi, hhi⟩ := Option.isSome_iff_exists.mp hc
      obtain ⟨lo, hlo⟩ := Option.isSome_iff_exists.mp hd
      rw [digits_cons hc.ne_dash, digits_cons hd.ne_dash] at hlen ⊢
      simp only [List.length_cons] at hlen
      rw [rawGuid_argument_pair hhi hlo, fromhex_pair hhi hlo, ih (by omega)]

theorem guidBytes_isSome_iff (text : List Char) :
    (guidBytes text).isSome ↔ (digits text).length = 32 ∧ Spaced (digits text) := by
  rw [← spaced_iff, guidBytes]
  by_cases hlen : (digits text).length = 32
  · rw [if_neg (not_not.mpr hlen), Option.isSome_map]
    exact (and_iff_right hlen).symm
  · rw [if_pos hlen]
    simp [hlen]

theorem efiGuidBytes_isSome_iff (text : List Char) :
    (EfiBoot.guidBytes (argument text)).isSome ↔ Undivided 16 text := by
  rw [EfiBoot.guidBytes, Option.isSome_map, undivided_iff]

theorem guidBytes_eq_of_undivided {text : List Char} (h : Undivided 16 text)
    (hlen : (digits text).length = 32) :
    EfiBoot.guidBytes (argument text) = guidBytes text := by
  rw [guidBytes, if_neg (not_not.mpr hlen), EfiBoot.guidBytes, rawGuid_eq_fromhex h hlen]

/-- Both functions reject the text, or both read the same sixteen bytes from it. -/
def Agree (text : List Char) : Prop :=
  EfiBoot.guidBytes (argument text) = none ∧ guidBytes text = none ∨
    ∃ bytes, bytes.length = 16 ∧ EfiBoot.guidBytes (argument text) = some bytes ∧
      guidBytes text = some bytes

/-- The two functions agree on a text exactly when it begins with sixteen pairs of
digits that no dash divides, and has no character but these and dashes, or it
begins with no such pairs and is not 32 characters of spaced pairs either. -/
theorem guidBytes_agree_iff (text : List Char) :
    Agree text ↔ (Undivided 16 text ↔ (digits text).length = 32 ∧ Spaced (digits text)) := by
  rw [← efiGuidBytes_isSome_iff, ← guidBytes_isSome_iff]
  constructor
  · rintro (⟨hefi, hpy⟩ | ⟨bytes, -, hefi, hpy⟩)
    · rw [hefi, hpy]
    · rw [hefi, hpy]
  · intro hiff
    cases hefi : EfiBoot.guidBytes (argument text) with
    | none =>
        left
        rw [hefi] at hiff
        exact ⟨hefi, by simpa using hiff⟩
    | some bytes =>
        right
        rw [hefi] at hiff
        have hlen := ((guidBytes_isSome_iff text).mp (hiff.mp rfl)).1
        have hundivided := (efiGuidBytes_isSome_iff text).mp (by rw [hefi]; rfl)
        refine ⟨bytes, (EfiBoot.guidBytes_spec hefi).1, hefi, ?_⟩
        rw [← guidBytes_eq_of_undivided hundivided hlen, hefi]

/-- A digit too many: one reads what is before it, the other takes it for an error. -/
theorem guidBytes_disagree : ¬ Agree "d5a1f0e2-3c4b-4a6d-8e7f-1029384756500".toList := by
  have hpy : guidBytes "d5a1f0e2-3c4b-4a6d-8e7f-1029384756500".toList = none := by decide
  have hefi : (EfiBoot.guidBytes
      (argument "d5a1f0e2-3c4b-4a6d-8e7f-1029384756500".toList)).isSome := by decide
  rintro (⟨hnone, -⟩ | ⟨bytes, -, -, hsome⟩)
  · rw [hnone] at hefi
    cases hefi
  · rw [hpy] at hsome
    cases hsome

end MkGpt

end Veron
