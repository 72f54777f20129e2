/-
The seed of a one-time code: written in base32 by the enrolment, read again by
the check.  Both sides keep their bits in a 32-bit word that is never cleared.
-/
import Veron.Radix
import Veron.Totp

namespace Veron.Base32

open Totp (base32Digit base32Skipped base32Loop)

attribute [local simp] base32Loop

/-- `"ABCDEFGHIJKLMNOPQRSTUVWXYZ234567"`. -/
def B32 : List UInt8 :=
  [0x41, 0x42, 0x43, 0x44, 0x45, 0x46, 0x47, 0x48, 0x49, 0x4a, 0x4b, 0x4c, 0x4d, 0x4e, 0x4f, 0x50,
    0x51, 0x52, 0x53, 0x54, 0x55, 0x56, 0x57, 0x58, 0x59, 0x5a, 0x32, 0x33, 0x34, 0x35, 0x36, 0x37]

def letter (v : ℕ) : UInt8 := B32.getD v 0

/-- The inner loop, which takes five bits off those that are there. -/
def emitDigits (outlen : ℕ) (buf : UInt32) : ℕ → List UInt8 → Option (ℕ × List UInt8)
  | bits + 5, out =>
      if outlen ≤ out.length + 1 then none
      else emitDigits outlen buf bits (out ++ [letter (buf >>> UInt32.ofNat bits &&& 31).toNat])
  | bits, out => some (bits, out)

/-- The loop of `gen_totp_seed` over the bytes that are left, and what follows it;
`none` is its 0. -/
def encodeLoop (outlen : ℕ) : List UInt8 → UInt32 → ℕ → List UInt8 → Option (List UInt8)
  | [], buf, bits, out =>
      if 0 < bits ∧ out.length + 1 < outlen then
        some (out ++ [letter (buf <<< UInt32.ofNat (5 - bits) &&& 31).toNat])
      else some out
  | b :: raw, buf, bits, out =>
      let buf := buf <<< 8 ||| b.toUInt32
      match emitDigits outlen buf (bits + 8) out with
      | none => none
      | some (bits, out) => encodeLoop outlen raw buf bits out

/-- `random` is what `read` brings of /dev/urandom, if it can be opened. -/
def genTotpSeed (random : Option (List UInt8)) (outlen : ℕ) : Option (List UInt8) :=
  match random with
  | none => none
  | some raw => if raw.length ≠ 20 then none else encodeLoop outlen raw 0 0 []

def base32Decode (text : List UInt8) (outlen : ℕ) : Option (List UInt8) :=
  base32Loop outlen text 0 0 []

def textLength (n : ℕ) : ℕ := (8 * n + 4) / 5

def numbers (bs : List UInt8) : List ℕ := bs.map UInt8.toNat

/-- The bits of the bytes, filled up with zeros and cut into groups of five. -/
def groups (bs : List ℕ) : List ℕ :=
  Radix.digitsOf 32 (textLength bs.length)
    (Radix.value 256 bs * 2 ^ (5 * textLength bs.length - 8 * bs.length))

def base32Text (raw : List UInt8) : List UInt8 := (groups (numbers raw)).map letter

/-- The same text with letters in lower case here and there, and with characters
put in that are passed over. -/
inductive Respelled : List UInt8 → List UInt8 → Prop
  | nil : Respelled [] []
  | keep (c : UInt8) {t u : List UInt8} : Respelled t u → Respelled (c :: t) (c :: u)
  | lower {c : UInt8} {t u : List UInt8} :
      0x41 ≤ c → c ≤ 0x5a → Respelled t u → Respelled (c :: t) ((c + 0x20) :: u)
  | insert {c : UInt8} {t u : List UInt8} : base32Skipped c → Respelled t u → Respelled t (c :: u)

/-- The values of the characters of the alphabet in a text. -/
def letters (text : List UInt8) : List ℕ :=
  text.filterMap fun c => (base32Digit c).map UInt32.toNat

theorem push_toNat {buf v : UInt32} {k n : ℕ} (hk : k < 32) (hv : v.toNat < 2 ^ k)
    (h : buf.toNat = n % 2 ^ 32) :
    (buf <<< UInt32.ofNat k ||| v).toNat = (n * 2 ^ k + v.toNat) % 2 ^ 32 := by
  have hkmod : (UInt32.ofNat k).toNat % 32 = k := by
    rw [UInt32.toNat_ofNat_of_lt' (by rw [UInt32.size]; omega), Nat.mod_eq_of_lt hk]
  have hpow : 2 ^ 32 = 2 ^ (32 - k) * 2 ^ k := by
    rw [← Nat.pow_add, Nat.sub_add_cancel hk.le]
  have hshift : (buf <<< UInt32.ofNat k).toNat = (n % 2 ^ (32 - k)) <<< k := by
    rw [UInt32.toNat_shiftLeft, hkmod, h, Nat.shiftLeft_eq, Nat.shiftLeft_eq, Nat.mod_mul_mod, hpow,
      Nat.mul_mod_mul_right]
  have hmod : (n * 2 ^ k + v.toNat) % 2 ^ k = v.toNat := by
    rw [Nat.add_comm, Nat.add_mul_mod_self_right, Nat.mod_eq_of_lt hv]
  have hdiv : (n * 2 ^ k + v.toNat) / 2 ^ k = n := by
    rw [Nat.add_comm, Nat.add_mul_div_right _ _ (Nat.two_pow_pos k), Nat.div_eq_of_lt hv,
      Nat.zero_add]
  rw [UInt32.toNat_or, hshift, ← Nat.shiftLeft_add_eq_or_of_lt hv, Nat.shiftLeft_eq, hpow,
    Nat.mul_comm (2 ^ (32 - k)), Nat.mod_mul, hmod, hdiv, Nat.add_comm, Nat.mul_comm]

/-- What stands above the window is shifted out of it. -/
theorem window_toNat {buf : UInt32} {k j n : ℕ} (hkj : k + j ≤ 32) (hk : k < 32)
    (h : buf.toNat = n % 2 ^ 32) {mask : UInt32} (hmask : mask.toNat = 2 ^ j - 1) :
    (buf >>> UInt32.ofNat k &&& mask).toNat = n / 2 ^ k % 2 ^ j := by
  have hkmod : (UInt32.ofNat k).toNat % 32 = k := by
    rw [UInt32.toNat_ofNat_of_lt' (by rw [UInt32.size]; omega), Nat.mod_eq_of_lt hk]
  have hpow : 2 ^ 32 = 2 ^ k * 2 ^ (32 - k) := by
    rw [← Nat.pow_add, Nat.add_sub_cancel' hk.le]
  rw [UInt32.toNat_and, UInt32.toNat_shiftRight, hkmod, h, hmask, Nat.and_two_pow_sub_one_eq_mod,
    Nat.shiftRight_eq_div_pow, hpow, Nat.mod_mul_right_div_self,
    Nat.mod_mod_of_dvd _ (Nat.pow_dvd_pow 2 (by omega))]

theorem base32Digit_lt {c : UInt8} {v : UInt32} (h : base32Digit c = some v) : v.toNat < 32 := by
  simp only [base32Digit, UInt8.le_iff_toNat_le, UInt8.reduceToNat] at h
  split at h
  · obtain rfl := Option.some.inj h
    simp only [UInt8.toNat_toUInt32, UInt8.toNat_sub, UInt8.reduceToNat]
    omega
  · split at h
    · obtain rfl := Option.some.inj h
      simp only [UInt8.toNat_toUInt32, UInt8.toNat_sub, UInt8.reduceToNat]
      omega
    · split at h
      · obtain rfl := Option.some.inj h
        simp only [UInt32.toNat_add, UInt8.toNat_toUInt32, UInt8.toNat_sub, UInt8.reduceToNat,
          UInt32.reduceToNat]
        omega
      · cases h

/-- Where the loop stands behind some digits: the whole bytes are out, and the word
holds the number modulo its size. -/
structure Decoding (ds : List ℕ) (buf : UInt32) (bits : ℕ) (out : List UInt8) : Prop where
  buf : buf.toNat = Radix.value 32 ds % 2 ^ 32
  count : 5 * ds.length = 8 * out.length + bits
  bits_lt : bits < 8
  out : numbers out = Radix.digitsOf 256 out.length (Radix.value 32 ds / 2 ^ bits)

theorem Decoding.start : Decoding [] 0 0 [] := ⟨rfl, rfl, by decide, rfl⟩

section

variable {ds : List ℕ} {buf v : UInt32} {bits : ℕ} {out : List UInt8}

/-- A digit more below the number does not touch what is above it. -/
theorem div_push {n d : ℕ} (hd : d < 32) (bits : ℕ) :
    (n * 32 + d) / 2 ^ (bits + 5) = n / 2 ^ bits := by
  rw [Nat.pow_add, Nat.mul_comm (2 ^ bits), ← Nat.div_div_eq_div_mul, Nat.add_comm,
    Nat.add_mul_div_right _ _ (by decide), Nat.div_eq_of_lt hd, Nat.zero_add]

theorem Decoding.wait (h : Decoding ds buf bits out) (hv : v.toNat < 32) (hbits : bits + 5 < 8) :
    Decoding (ds ++ [v.toNat]) (buf <<< 5 ||| v) (bits + 5) out where
  buf := by
    rw [Radix.value_snoc]
    exact push_toNat (k := 5) (by decide) hv h.buf
  count := by
    have hcount := h.count
    rw [List.length_append, List.length_singleton]
    omega
  bits_lt := hbits
  out := by
    rw [Radix.value_snoc, div_push hv]
    exact h.out

theorem Decoding.emit (h : Decoding ds buf bits out) (hv : v.toNat < 32) (hbits : 8 ≤ bits + 5) :
    Decoding (ds ++ [v.toNat]) (buf <<< 5 ||| v) (bits + 5 - 8)
      (out ++ [((buf <<< 5 ||| v) >>> UInt32.ofNat (bits + 5 - 8) &&& 0xff).toUInt8]) where
  buf := by
    rw [Radix.value_snoc]
    exact push_toNat (k := 5) (by decide) hv h.buf
  count := by
    have hcount := h.count
    rw [List.length_append, List.length_append, List.length_singleton, List.length_singleton]
    omega
  bits_lt := by
    have hlt := h.bits_lt
    omega
  out := by
    have hlt := h.bits_lt
    obtain ⟨k, hk⟩ : ∃ k, bits + 5 = k + 8 := ⟨bits + 5 - 8, by omega⟩
    have hbyte : ((buf <<< 5 ||| v) >>> UInt32.ofNat k &&& 0xff).toNat =
        (Radix.value 32 ds * 32 + v.toNat) / 2 ^ k % 2 ^ 8 :=
      window_toNat (by omega) (by omega) (push_toNat (k := 5) (by decide) hv h.buf) rfl
    have hdiv : (Radix.value 32 ds * 32 + v.toNat) / 2 ^ k / 256 =
        Radix.value 32 ds / 2 ^ bits := by
      rw [Nat.div_div_eq_div_mul, ← div_push hv, hk, Nat.pow_add]
    rw [hk, Nat.add_sub_cancel, numbers, List.map_append, List.map_singleton, UInt32.toNat_toUInt8,
      hbyte, Nat.mod_mod, Radix.value_snoc, List.length_append, List.length_singleton,
      Radix.digitsOf, hdiv, ← h.out]
    rfl

theorem letters_cons_some {c : UInt8} (h : base32Digit c = some v) (text : List UInt8) :
    letters (c :: text) = v.toNat :: letters text := by
  rw [letters, List.filterMap_cons_some (by rw [h]; rfl)]
  rfl

theorem letters_cons_none {c : UInt8} (h : base32Digit c = none) (text : List UInt8) :
    letters (c :: text) = letters text := by
  rw [letters, List.filterMap_cons_none (by rw [h]; rfl)]
  rfl

/-- Wherever the loop gets to the end, it stands behind all letters of the text. -/
theorem Decoding.run {outlen : ℕ} {text res : List UInt8} (h : Decoding ds buf bits out)
    (hrun : base32Loop outlen text buf bits out = some res) :
    ∃ buf' bits', Decoding (ds ++ letters text) buf' bits' res := by
  induction text generalizing ds buf bits out with
  | nil =>
      obtain rfl := Option.some.inj hrun
      refine ⟨buf, bits, ?_⟩
      rwa [letters, List.filterMap_nil, List.append_nil]
  | cons c text ih =>
      rw [base32Loop] at hrun
      cases hdigit : base32Digit c with
      | none =>
          rw [hdigit] at hrun
          dsimp only at hrun
          split at hrun
          · rw [letters_cons_none hdigit]
            exact ih h hrun
          · cases hrun
      | some v =>
          have hv := base32Digit_lt hdigit
          rw [hdigit] at hrun
          dsimp only at hrun
          rw [letters_cons_some hdigit, List.append_cons]
          by_cases hbits : 8 ≤ bits + 5
          · rw [if_pos hbits] at hrun
            split at hrun
            · cases hrun
            · exact ih (h.emit hv hbits) hrun
          · rw [if_neg hbits] at hrun
            exact ih (h.wait hv (Nat.lt_of_not_le hbits)) hrun

/-- A text of nothing but letters and characters passed over is decoded if its bytes
have room. -/
theorem Decoding.run_isSome {text : List UInt8} (h : Decoding ds buf bits out) (outlen : ℕ)
    (htext : ∀ c ∈ text, (base32Digit c).isSome ∨ base32Skipped c)
    (hroom : 5 * (ds.length + (letters text).length) / 8 ≤ outlen) :
    (base32Loop outlen text buf bits out).isSome := by
  induction text generalizing ds buf bits out with
  | nil => rfl
  | cons c text ih =>
      have hlater : ∀ d ∈ text, (base32Digit d).isSome ∨ base32Skipped d :=
        fun d hd => htext d (List.mem_cons_of_mem c hd)
      rw [base32Loop]
      cases hdigit : base32Digit c with
      | none =>
          have hskip : base32Skipped c := by simpa [hdigit] using htext c List.mem_cons_self
          rw [letters_cons_none hdigit] at hroom
          dsimp only
          rw [if_pos hskip]
          exact ih h hlater hroom
      | some v =>
          have hv := base32Digit_lt hdigit
          rw [letters_cons_some hdigit, List.length_cons] at hroom
          dsimp only
          by_cases hbits : 8 ≤ bits + 5
          · have hcount := h.count
            rw [if_pos hbits, if_neg (by omega)]
            apply ih (h.emit hv hbits) hlater
            rw [List.length_append, List.length_singleton]
            omega
          · rw [if_neg hbits]
            apply ih (h.wait hv (Nat.lt_of_not_le hbits)) hlater
            rw [List.length_append, List.length_singleton]
            omega

end

/-- What a text is decoded to: the whole bytes of the number its letters write. -/
theorem base32Decode_eq {text res : List UInt8} {outlen : ℕ}
    (h : base32Decode text outlen = some res) :
    numbers res = Radix.digitsOf 256 (5 * (letters text).length / 8)
      (Radix.value 32 (letters text) / 2 ^ (5 * (letters text).length % 8)) := by
  obtain ⟨buf, bits, hend⟩ := Decoding.start.run h
  rw [List.nil_append] at hend
  have hcount := hend.count
  have hlt := hend.bits_lt
  rw [hend.out, show 5 * (letters text).length / 8 = res.length by omega,
    show 5 * (letters text).length % 8 = bits by omega]

theorem base32Decode_length {text res : List UInt8} {outlen : ℕ}
    (h : base32Decode text outlen = some res) :
    res.length = 5 * (letters text).length / 8 := by
  have hlen := congrArg List.length (base32Decode_eq h)
  rwa [numbers, List.length_map, Radix.digitsOf_length] at hlen

theorem base32Digit_upper {c : UInt8} (hge : 0x41 ≤ c) (hle : c ≤ 0x5a) :
    base32Digit c = some (c - 0x41).toUInt32 :=
  if_pos ⟨hge, hle⟩

theorem base32Digit_lower {c : UInt8} (hge : 0x41 ≤ c) (hle : c ≤ 0x5a) :
    base32Digit (c + 0x20) = some (c - 0x41).toUInt32 := by
  have hvalue : c + 0x20 - 0x61 = c - 0x41 := by
    rw [UInt8.le_iff_toNat_le] at hge hle
    simp only [UInt8.reduceToNat] at hge hle
    apply UInt8.toNat_inj.mp
    simp only [UInt8.toNat_sub, UInt8.toNat_add, UInt8.reduceToNat]
    omega
  have hnot : ¬ (0x41 ≤ c + 0x20 ∧ c + 0x20 ≤ 0x5a) := by
    simp only [UInt8.le_iff_toNat_le, UInt8.toNat_add, UInt8.reduceToNat] at hge hle ⊢
    omega
  have hin : 0x61 ≤ c + 0x20 ∧ c + 0x20 ≤ 0x7a := by
    simp only [UInt8.le_iff_toNat_le, UInt8.toNat_add, UInt8.reduceToNat] at hge hle ⊢
    omega
  rw [base32Digit, if_neg hnot, if_pos hin, hvalue]

theorem base32Loop_respelled {t u : List UInt8} (h : Respelled t u) (outlen : ℕ) (buf : UInt32)
    (bits : ℕ) (out : List UInt8) :
    base32Loop outlen u buf bits out = base32Loop outlen t buf bits out := by
  induction h generalizing buf bits out with
  | nil => rfl
  | keep c _ ih =>
      rw [base32Loop, base32Loop]
      simp only [ih]
  | lower hge hle _ ih =>
      rw [base32Loop, base32Loop, base32Digit_upper hge hle, base32Digit_lower hge hle]
      simp only [ih]
  | @insert c t u hskip _ ih =>
      have hnone : base32Digit c = none := by
        simp only [base32Skipped, decide_eq_true_eq] at hskip
        rcases hskip with rfl | rfl | rfl
        · decide
        · decide
        · decide
      rw [base32Loop, hnone]
      exact (if_pos hskip).trans (ih buf bits out)

theorem base32Digit_letter {v : ℕ} (h : v < 32) :
    base32Digit (letter v) = some (UInt32.ofNat v) := by
  have hall : ∀ n : Fin 32, base32Digit (letter n.val) = some (UInt32.ofNat n.val) := by decide
  exact hall ⟨v, h⟩

/-- Where the loop stands behind some bytes. -/
structure Encoding (bs : List ℕ) (buf : UInt32) (bits : ℕ) (out : List UInt8) : Prop where
  buf : buf.toNat = Radix.value 256 bs % 2 ^ 32
  count : 8 * bs.length = 5 * out.length + bits
  out : out = (Radix.digitsOf 32 out.length (Radix.value 256 bs / 2 ^ bits)).map letter

theorem Encoding.start : Encoding [] 0 0 [] := ⟨rfl, rfl, rfl⟩

section

variable {bs : List ℕ} {buf : UInt32} {bits : ℕ} {out : List UInt8}

theorem Encoding.push (h : Encoding bs buf bits out) (b : UInt8) :
    Encoding (bs ++ [b.toNat]) (buf <<< 8 ||| b.toUInt32) (bits + 8) out where
  buf := by
    rw [Radix.value_snoc]
    exact push_toNat (k := 8) (by decide) b.toNat_lt h.buf
  count := by
    have hcount := h.count
    rw [List.length_append, List.length_singleton]
    omega
  out := by
    have hdiv : (Radix.value 256 bs * 256 + b.toNat) / 2 ^ (bits + 8) =
        Radix.value 256 bs / 2 ^ bits := by
      rw [Nat.pow_add, Nat.mul_comm (2 ^ bits), ← Nat.div_div_eq_div_mul, Nat.add_comm,
        Nat.add_mul_div_right _ _ (by decide), Nat.div_eq_of_lt b.toNat_lt, Nat.zero_add]
    rw [Radix.value_snoc, hdiv]
    exact h.out

theorem Encoding.emit (h : Encoding bs buf (bits + 5) out) (hbits : bits + 5 ≤ 32) :
    Encoding bs buf bits (out ++ [letter (buf >>> UInt32.ofNat bits &&& 31).toNat]) where
  buf := h.buf
  count := by
    have hcount := h.count
    rw [List.length_append, List.length_singleton]
    omega
  out := by
    have hdigit : (buf >>> UInt32.ofNat bits &&& 31).toNat =
        Radix.value 256 bs / 2 ^ bits % 2 ^ 5 :=
      window_toNat hbits (by omega) h.buf rfl
    have hdiv : Radix.value 256 bs / 2 ^ bits / 32 = Radix.value 256 bs / 2 ^ (bits + 5) := by
      rw [Nat.div_div_eq_div_mul, Nat.pow_add]
    rw [hdigit, List.length_append, List.length_singleton, Radix.digitsOf, hdiv, List.map_append,
      ← h.out]
    rfl

/-- The inner loop stops with fewer than five bits left. -/
theorem Encoding.emitDigits (h : Encoding bs buf bits out) (outlen : ℕ) (hbits : bits ≤ 32)
    (hroom : 8 * bs.length < 5 * outlen) :
    ∃ out', Base32.emitDigits outlen buf bits out = some (bits % 5, out') ∧
      Encoding bs buf (bits % 5) out' := by
  induction bits, out using emitDigits.induct outlen buf with
  | case1 bits out hfull =>
      have hcount := h.count
      omega
  | case2 bits out hfull ih =>
      obtain ⟨out', hrun, hend⟩ := ih (h.emit hbits) (by omega)
      have hmod : bits.succ.succ.succ.succ.succ % 5 = bits % 5 := Nat.add_mod_right bits 5
      rw [Base32.emitDigits, if_neg hfull, hmod]
      exact ⟨out', hrun, hend⟩
  | case3 bits out hlast =>
      have hlt : bits < 5 := by
        by_contra hge
        exact hlast (bits - 5) (by omega)
      rw [Base32.emitDigits, Nat.mod_eq_of_lt hlt]
      · exact ⟨out, rfl, h⟩
      · exact hlast

/-- What is left of the bits is filled up with zeros. -/
theorem Encoding.finish {outlen : ℕ} (h : Encoding bs buf bits out) (hbits : bits < 5)
    (hroom : textLength bs.length < outlen) :
    encodeLoop outlen [] buf bits out = some ((groups bs).map letter) := by
  have hcount := h.count
  rw [textLength] at hroom
  rw [encodeLoop, groups]
  by_cases hzero : bits = 0
  · subst hzero
    have hlength : textLength bs.length = out.length := by
      rw [textLength]
      omega
    have hpad : 5 * out.length - 8 * bs.length = 0 := by omega
    rw [if_neg (by omega), hlength, hpad, Nat.pow_zero, Nat.mul_one]
    have hout := h.out
    rw [Nat.pow_zero, Nat.div_one] at hout
    exact congrArg some hout
  · have hlength : textLength bs.length = out.length + 1 := by
      rw [textLength]
      omega
    have hpad : 5 * (out.length + 1) - 8 * bs.length = 5 - bits := by omega
    obtain ⟨k, hk⟩ : ∃ k, 5 - bits = k := ⟨_, rfl⟩
    have hdigit : (buf <<< UInt32.ofNat k &&& 31).toNat = Radix.value 256 bs * 2 ^ k % 32 := by
      have hpush := push_toNat (v := 0) (k := k) (by omega) (Nat.two_pow_pos k) h.buf
      have hzero : (buf <<< UInt32.ofNat k ||| 0) = buf <<< UInt32.ofNat k := by simp
      rw [hzero] at hpush
      rw [UInt32.toNat_and, hpush]
      exact (Nat.and_two_pow_sub_one_eq_mod _ 5).trans (Nat.mod_mod_of_dvd _ (by decide))
    have hdiv : Radix.value 256 bs * 2 ^ k / 32 = Radix.value 256 bs / 2 ^ bits := by
      have hpow : 32 = 2 ^ bits * 2 ^ k := by
        rw [← Nat.pow_add, show bits + k = 5 by omega]
      rw [hpow, Nat.mul_div_mul_right _ _ (Nat.two_pow_pos k)]
    rw [if_pos (by omega), hlength, hpad, hk, hdigit, Radix.digitsOf, hdiv, List.map_append,
      ← h.out]
    rfl

theorem Encoding.run {outlen : ℕ} {raw : List UInt8} (h : Encoding bs buf bits out)
    (hbits : bits < 5) (hroom : textLength (bs.length + raw.length) < outlen) :
    encodeLoop outlen raw buf bits out = some ((groups (bs ++ numbers raw)).map letter) := by
  induction raw generalizing bs buf bits out with
  | nil =>
      rw [numbers, List.map_nil, List.append_nil]
      exact h.finish hbits hroom
  | cons b raw ih =>
      have hpushed := h.push b
      have hlen : (bs ++ [b.toNat]).length = bs.length + 1 := by simp
      obtain ⟨out', hrun, hend⟩ := hpushed.emitDigits outlen (by omega) (by
        rw [textLength, List.length_cons] at hroom
        rw [hlen]
        omega)
      have hlater := ih hend (Nat.mod_lt _ (by decide)) (by
        rw [List.length_cons] at hroom
        rwa [hlen, Nat.add_right_comm, Nat.add_assoc])
      rw [encodeLoop]
      simp only [hrun]
      have hcons : numbers (b :: raw) = b.toNat :: numbers raw := rfl
      rw [hlater, hcons, List.append_cons bs b.toNat (numbers raw)]

end

/-- With room for the whole text, the loop writes the text of the RFC. -/
theorem encodeLoop_eq {raw : List UInt8} {outlen : ℕ} (hroom : textLength raw.length < outlen) :
    encodeLoop outlen raw 0 0 [] = some (base32Text raw) := by
  have hrun : encodeLoop outlen raw 0 0 [] = some ((groups ([] ++ numbers raw)).map letter) :=
    Encoding.start.run (by decide) (by rwa [List.length_nil, Nat.zero_add])
  rwa [List.nil_append] at hrun

theorem letters_map_letter {ds : List ℕ} (h : ∀ d ∈ ds, d < 32) : letters (ds.map letter) = ds := by
  induction ds with
  | nil => rfl
  | cons d ds ih =>
      have hd := h d List.mem_cons_self
      rw [List.map_cons, letters_cons_some (base32Digit_letter hd),
        ih fun e he => h e (List.mem_cons_of_mem d he), UInt32.toNat_ofNat_of_lt']
      rw [UInt32.size]
      omega

theorem numbers_inj {p q : List UInt8} (h : numbers p = numbers q) : p = q :=
  (List.map_inj_right fun _ _ => UInt8.toNat_inj.mp).mp h

theorem base32Decode_text {raw : List UInt8} {outlen : ℕ} (houtlen : raw.length ≤ outlen) :
    base32Decode (base32Text raw) outlen = some raw := by
  have hgroups : ∀ d ∈ groups (numbers raw), d < 32 := fun d hd =>
    Radix.lt_of_mem_digitsOf (by decide) hd
  have hletters : letters (base32Text raw) = groups (numbers raw) := letters_map_letter hgroups
  have hnumbers : (numbers raw).length = raw.length := List.length_map _
  have hdef : groups (numbers raw) = Radix.digitsOf 32 (textLength raw.length)
      (Radix.value 256 (numbers raw) * 2 ^ (5 * textLength raw.length - 8 * raw.length)) := by
    rw [groups, hnumbers]
  have hlength : (groups (numbers raw)).length = textLength raw.length := by
    rw [hdef, Radix.digitsOf_length]
  have hbytes : 5 * textLength raw.length / 8 = raw.length := by
    rw [textLength]
    omega
  have hpad : 5 * textLength raw.length % 8 = 5 * textLength raw.length - 8 * raw.length := by
    rw [textLength]
    omega
  have htext : ∀ c ∈ base32Text raw, (base32Digit c).isSome ∨ base32Skipped c := by
    intro c hc
    obtain ⟨d, hd, rfl⟩ := List.mem_map.mp hc
    left
    rw [base32Digit_letter (hgroups d hd)]
    rfl
  have hsome := Decoding.start.run_isSome outlen htext (by
    rw [hletters, hlength, List.length_nil, Nat.zero_add, hbytes]
    exact houtlen)
  obtain ⟨res, hres⟩ := Option.isSome_iff_exists.mp hsome
  have hdecoded := base32Decode_eq hres
  rw [hletters, hlength, hbytes, hpad, hdef] at hdecoded
  have hregroup := @Radix.digitsOf_regroup 8 5 (textLength raw.length)
    (5 * textLength raw.length - 8 * raw.length) (numbers raw)
    (fun d hd => by
      obtain ⟨b, -, rfl⟩ := List.mem_map.mp hd
      exact b.toNat_lt)
    (by rw [hnumbers, textLength]; omega)
  rw [hnumbers] at hregroup
  have heq : res = raw := numbers_inj (hdecoded.trans hregroup)
  exact hres.trans (congrArg some heq)

/-- The seed an enrolment writes is the key every later check reads. -/
theorem keyOf_genTotpSeed {raw seed : List UInt8} (h : genTotpSeed (some raw) 64 = some seed) :
    Totp.keyOf seed = some raw := by
  rw [genTotpSeed] at h
  split at h
  · cases h
  · rename_i hlen
    have htwenty : raw.length = 20 := not_not.mp hlen
    have hroom : textLength raw.length = 32 := by rw [htwenty, textLength]
    rw [encodeLoop_eq (by omega)] at h
    obtain rfl := Option.some.inj h
    have hseed : (base32Text raw).take 511 = base32Text raw := by
      apply List.take_of_length_le
      rw [base32Text, List.length_map, groups, Radix.digitsOf_length, numbers, List.length_map,
        hroom]
      decide
    have hne : raw ≠ [] := by
      rintro rfl
      cases htwenty
    have hdecode : base32Loop 128 (base32Text raw) 0 0 [] = some raw :=
      base32Decode_text (by omega)
    rw [Totp.keyOf, hseed, hdecode]
    exact if_neg hne

/-- The text written for some bytes is that of the RFC and is decoded to these bytes,
however it is spelled; and whatever text is accepted, five bits of every letter
count and what does not fill a byte is dropped. -/
theorem base32_roundtrip {raw : List UInt8} {room outlen : ℕ}
    (hroom : textLength raw.length < room) (houtlen : raw.length ≤ outlen) :
    (∃ text, encodeLoop room raw 0 0 [] = some text ∧ text = base32Text raw ∧
        ∀ text', Respelled text text' → base32Decode text' outlen = some raw) ∧
      (∀ text text' outlen, Respelled text text' →
        base32Decode text' outlen = base32Decode text outlen) ∧
      ∀ text outlen res, base32Decode text outlen = some res →
        res.length = 5 * (letters text).length / 8 := by
  have hspelling : ∀ text text' outlen, Respelled text text' →
      base32Decode text' outlen = base32Decode text outlen :=
    fun text text' outlen h => base32Loop_respelled h outlen 0 0 []
  refine ⟨⟨_, encodeLoop_eq hroom, rfl, fun text' h => ?_⟩, hspelling, fun _ _ _ h =>
    base32Decode_length h⟩
  rw [hspelling _ _ _ h]
  exact base32Decode_text houtlen

/-- The bytes f, o and o, in a buffer as large as that of the enrolment. -/
theorem base32_roundtrip_foo :
    ∃ text, encodeLoop 64 [0x66, 0x6f, 0x6f] 0 0 [] = some text ∧
      text = base32Text [0x66, 0x6f, 0x6f] ∧
      ∀ text', Respelled text text' → base32Decode text' 128 = some [0x66, 0x6f, 0x6f] :=
  (@base32_roundtrip [0x66, 0x6f, 0x6f] 64 128 (by decide) (by decide)).1

end Veron.Base32
