/-
Little-endian numbers in byte strings: how a number is laid out in a fixed
number of bytes, what bytes stand for, and reading such a number off the front
of a string.
-/
import Mathlib.Algebra.Group.Nat.Defs
import Mathlib.Tactic.Ring

namespace Veron

/-- The low `n` bytes of a number, least significant first. -/
def leBytes : ℕ → ℕ → List UInt8
  | 0, _ => []
  | n + 1, v => UInt8.ofNat v :: leBytes n (v / 256)

attribute [local simp] leBytes

/-- The number some bytes stand for, least significant first. -/
def leValue : List UInt8 → ℕ
  | [] => 0
  | b :: bs => b.toNat + 256 * leValue bs

/-- The number some bytes stand for, most significant first. -/
def beValue (bs : List UInt8) : ℕ := leValue bs.reverse

@[simp] theorem leBytes_length (n v : ℕ) : (leBytes n v).length = n := by
  induction n generalizing v with
  | zero => rfl
  | succ n ih => rw [leBytes, List.length_cons, ih]

@[simp] theorem leValue_leBytes (n v : ℕ) : leValue (leBytes n v) = v % 256 ^ n := by
  induction n generalizing v with
  | zero => simp [leBytes, leValue, Nat.mod_one]
  | succ n ih =>
      have hbyte : (UInt8.ofNat v).toNat = v % 256 := UInt8.toNat_ofNat'
      rw [leBytes, leValue, ih, hbyte, Nat.pow_succ, Nat.mul_comm (256 ^ n), Nat.mod_mul]

theorem leBytes_mod (n v : ℕ) : leBytes n (v % 256 ^ n) = leBytes n v := by
  induction n generalizing v with
  | zero => rfl
  | succ n ih =>
      have hbyte : UInt8.ofNat (v % 256 ^ (n + 1)) = UInt8.ofNat v := by
        apply UInt8.toNat_inj.mp
        rw [UInt8.toNat_ofNat', UInt8.toNat_ofNat', Nat.pow_succ,
          Nat.mod_mul_left_mod]
      have hrest : v % 256 ^ (n + 1) / 256 = v / 256 % 256 ^ n := by
        rw [Nat.pow_succ, Nat.mul_comm, Nat.mod_mul_right_div_self]
      rw [leBytes, leBytes, hbyte, hrest, ih]

theorem leBytes_add (m n v : ℕ) :
    leBytes (m + n) v = leBytes m v ++ leBytes n (v / 256 ^ m) := by
  induction m generalizing v with
  | zero => simp [leBytes]
  | succ m ih =>
      rw [Nat.succ_add, leBytes, leBytes, ih, Nat.div_div_eq_div_mul, ← Nat.pow_succ']
      rfl

theorem leValue_lt (bs : List UInt8) : leValue bs < 256 ^ bs.length := by
  induction bs with
  | nil => exact Nat.one_pos
  | cons b bs ih =>
      have hb : b.toNat < 256 := b.toNat_lt
      rw [leValue, List.length_cons, pow_succ]
      omega

/-- Reading a little-endian number of `n` bytes. -/
def readLe (n : ℕ) (bs : List UInt8) : Option (ℕ × List UInt8) :=
  if n ≤ bs.length then some (leValue (bs.take n), bs.drop n) else none

/-- Reading `n` bytes as they stand. -/
def readBytes (n : ℕ) (bs : List UInt8) : Option (List UInt8 × List UInt8) :=
  if n ≤ bs.length then some (bs.take n, bs.drop n) else none

theorem readLe_leBytes (n v : ℕ) (rest : List UInt8) :
    readLe n (leBytes n v ++ rest) = some (v % 256 ^ n, rest) := by
  have hlen : n ≤ (leBytes n v ++ rest).length := by simp
  rw [readLe, if_pos hlen, List.take_left' (leBytes_length n v),
    List.drop_left' (leBytes_length n v), leValue_leBytes]

theorem readLe_leBytes_of_lt {n v : ℕ} (h : v < 256 ^ n) (rest : List UInt8) :
    readLe n (leBytes n v ++ rest) = some (v, rest) := by
  rw [readLe_leBytes, Nat.mod_eq_of_lt h]

theorem readBytes_append {n : ℕ} {bs : List UInt8} (h : bs.length = n)
    (rest : List UInt8) : readBytes n (bs ++ rest) = some (bs, rest) := by
  have hlen : n ≤ (bs ++ rest).length := by
    rw [List.length_append]
    omega
  rw [readBytes, if_pos hlen, List.take_left' h, List.drop_left' h]

theorem readLe_lt {n v : ℕ} {bs rest : List UInt8} (h : readLe n bs = some (v, rest)) :
    v < 256 ^ n := by
  rw [readLe] at h
  split at h
  · rename_i hlen
    obtain ⟨rfl, -⟩ := Prod.mk.inj (Option.some.inj h)
    have hlt := leValue_lt (bs.take n)
    rwa [List.length_take_of_le hlen] at hlt
  · cases h

/-- The bytes of a word, written out by shifting. -/
theorem leBytes_two (v : UInt16) :
    [(v &&& 0xff).toUInt8, (v >>> 8).toUInt8] = leBytes 2 v.toNat := by
  simp only [leBytes, List.cons.injEq, and_true]
  constructor
  · apply UInt8.toNat_inj.mp
    simp [Nat.and_two_pow_sub_one_eq_mod _ 8]
  · apply UInt8.toNat_inj.mp
    simp [UInt8.toNat_ofNat', Nat.shiftRight_eq_div_pow]

theorem leBytes_four (v : UInt32) :
    [v.toUInt8, (v >>> 8).toUInt8, (v >>> 16).toUInt8, (v >>> 24).toUInt8]
      = leBytes 4 v.toNat := by
  simp only [leBytes, List.cons.injEq, and_true]
  refine ⟨?_, ?_, ?_, ?_⟩ <;> apply UInt8.toNat_inj.mp <;>
    simp [UInt8.toNat_ofNat', Nat.shiftRight_eq_div_pow, Nat.div_div_eq_div_mul]

end Veron
