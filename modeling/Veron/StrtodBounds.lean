/-
Whatever the string, the big numbers of `strtod_bits` stay inside their 160
limbs: no access leaves an array, no product, sum or shift reaches 5120 bits, and
a comparison or subtraction finds nothing above the lengths it is given.
-/
import Veron.StrtodCorrect

namespace Veron

namespace Strtod

open BinaryFormat Bignum

/-- The characters that pass for digits at the head of a string. -/
theorem exists_digits (p : List Char) :
    ∃ (ds : List (Fin 10)) (rest : List Char),
      p = ds.map digitChar ++ rest ∧ rest.head?.any isDigit = false := by
  induction p with
  | nil => exact ⟨[], [], rfl, rfl⟩
  | cons c p ih =>
      by_cases hc : isDigit c = true
      · obtain ⟨ds, rest, hp, hrest⟩ := ih
        obtain ⟨d, rfl⟩ := exists_digitChar hc
        exact ⟨d :: ds, rest, by rw [hp]; rfl, hrest⟩
      · exact ⟨[], c :: p, rfl, by simpa using hc⟩

/-- Every string starts with the digits of a number, possibly none. -/
theorem exists_number (p : List Char) :
    ∃ (whole : List (Fin 10)) (fraction : Option (List (Fin 10))) (tail : List Char),
      p = whole.map digitChar ++ (DecimalLiteral.fractionText fraction ++ tail) ∧
        tail.head?.any isDigit = false ∧ (fraction = none → ∀ q, tail ≠ '.' :: q) := by
  obtain ⟨whole, rest, rfl, hrest⟩ := exists_digits p
  by_cases hpoint : ∃ q, rest = '.' :: q
  · obtain ⟨q, rfl⟩ := hpoint
    obtain ⟨f, tail, rfl, htail⟩ := exists_digits q
    exact ⟨whole, some f, tail, rfl, htail, fun h => absurd h (Option.some_ne_none f)⟩
  · exact ⟨whole, none, rest, rfl, hrest, fun _ q hq => hpoint ⟨q, hq⟩⟩

/-- The run with the assertions is the run without them: no assertion fails and no
access leaves an array. -/
theorem strtodBits_in_bounds (s : List Char) :
    ∃ out, strtodBits s = some out ∧ strtodBitsWith assertedOps s = some out := by
  unfold strtodBits strtodBitsWith
  generalize scanSign (s.dropWhile isSpace) = scanned
  obtain ⟨neg, p⟩ := scanned
  dsimp only
  by_cases hhex : hexStart p = true
  · exact ⟨hexBits neg (p.drop 2), by rw [if_pos hhex], by rw [if_pos hhex]⟩
  obtain ⟨whole, fraction, tail, rfl, htail, hpoint⟩ := exists_number p
  obtain ⟨st, hscan, hst⟩ := scanDigits_spec whole fraction htail hpoint
  have hten : ∀ d ∈ (whole ++ fraction.getD []).map Fin.val, d < 10 := by
    intro d hd
    obtain ⟨e, -, rfl⟩ := List.mem_map.mp hd
    exact e.isLt
  rw [if_neg hhex, if_neg hhex, hscan]
  dsimp only
  by_cases hseen : st.seen = true
  · generalize scanExp ['e', 'E'] tail = taken
    obtain ⟨ex, rest⟩ := taken
    obtain ⟨r, hplain, hround⟩ := hst.decimalBits plainOps_sound neg hten ex
    obtain ⟨r', hasserted, hround'⟩ := hst.decimalBits assertedOps_sound neg hten ex
    obtain rfl : r = r' := BitVec.eq_of_toNat_eq (hround.unique hround')
    rw [decimalBitsWith_plain] at hplain
    refine ⟨(r, rest), ?_, ?_⟩
    · simp only [if_pos hseen, hplain, Option.bind_eq_bind, Option.bind_some]
    · simp only [if_pos hseen, hasserted, Option.bind_eq_bind, Option.bind_some]
  · exact ⟨(0, s), by rw [if_neg hseen], by rw [if_neg hseen]⟩

end Strtod

end Veron
