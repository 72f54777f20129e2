/-
The bytes of one character in UTF-8: a character of ASCII is its own byte, any
other is made of bytes that no character of ASCII has.
-/
import Mathlib.Data.Nat.Notation

namespace Veron.Utf8

theorem utf8EncodeChar_of_lt {c : Char} (h : c.toNat < 0x80) :
    String.utf8EncodeChar c = [c.toNat.toUInt8] := by
  have hle : c.val.toNat ≤ 0x7f := Nat.le_of_lt_succ h
  rw [String.utf8EncodeChar, if_pos hle]
  rfl

theorem high_ofNat {n : ℕ} (h : 0x80 ≤ n % 256) : 0x80 ≤ (UInt8.ofNat n).toNat := by
  rwa [UInt8.toNat_ofNat']

/-- Past ASCII every byte has its high bit set. -/
theorem high_of_mem_utf8EncodeChar {c : Char} (h : 0x80 ≤ c.toNat) {b : UInt8}
    (hb : b ∈ String.utf8EncodeChar c) : 0x80 ≤ b.toNat := by
  have hnot : ¬ c.val.toNat ≤ 0x7f := Nat.not_le_of_lt h
  rw [String.utf8EncodeChar, if_neg hnot] at hb
  split at hb
  · simp only [List.mem_cons, List.not_mem_nil, or_false] at hb
    rcases hb with rfl | rfl
    · exact high_ofNat (by omega)
    · exact high_ofNat (by omega)
  · split at hb
    · simp only [List.mem_cons, List.not_mem_nil, or_false] at hb
      rcases hb with rfl | rfl | rfl
      · exact high_ofNat (by omega)
      · exact high_ofNat (by omega)
      · exact high_ofNat (by omega)
    · simp only [List.mem_cons, List.not_mem_nil, or_false] at hb
      rcases hb with rfl | rfl | rfl | rfl
      · exact high_ofNat (by omega)
      · exact high_ofNat (by omega)
      · exact high_ofNat (by omega)
      · exact high_ofNat (by omega)

theorem utf8EncodeChar_ne_nil (c : Char) : String.utf8EncodeChar c ≠ [] := by
  apply List.ne_nil_of_length_pos
  rw [String.length_utf8EncodeChar]
  exact c.utf8Size_pos

end Veron.Utf8
