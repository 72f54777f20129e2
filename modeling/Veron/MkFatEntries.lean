/-
The directory entries veron-mkfat writes for a name, read back as FAT32.
-/
import Mathlib.Data.List.GetD
import Mathlib.Data.List.TakeWhile
import Veron.Fat32
import Veron.MkFat

namespace Veron.MkFat

open Fat32

attribute [local simp] readUnits

def nameChar (c : Char) : Bool := c.isAlphanum || c = '_' || c = '-' || c = '.'

/-- The letters, digits and marks of a name, its end, and its length. -/
structure NameOk (name : String) : Prop where
  chars : ∀ c ∈ name.toList, nameChar c
  noDot : name.toList.getLast? ≠ some '.'
  length : name.toList.length ≤ 255

instance (name : String) : Decidable (NameOk name) :=
  decidable_of_iff (name.toList.all nameChar = true ∧ name.toList.getLast? ≠ some '.' ∧
    name.toList.length ≤ 255)
    ⟨fun h => ⟨List.all_eq_true.mp h.1, h.2.1, h.2.2⟩,
      fun h => ⟨List.all_eq_true.mpr h.chars, h.noDot, h.length⟩⟩

/-- What holds of the 128 ASCII characters. -/
theorem ascii_forall {P : Char → Prop} (h : ∀ n : Fin 128, P (Char.ofNat n)) {c : Char}
    (hc : c.toNat < 128) : P c := by
  have hP := h ⟨c.toNat, hc⟩
  rwa [Char.ofNat_toNat] at hP

theorem nameChar_lt {c : Char} (h : nameChar c) : c.toNat < 128 := by
  simp only [nameChar, Bool.or_eq_true, decide_eq_true_eq] at h
  rcases h with ((h | rfl) | rfl) | rfl
  · have hval : c.toNat = c.val.toNat := rfl
    change ((decide (c.val ≥ 65 ∧ c.val ≤ 90) ||
      (decide (c.val ≥ 97) && decide (c.val ≤ 122))) ||
        (decide (c.val ≥ 48) && decide (c.val ≤ 57))) = true at h
    simp only [Bool.or_eq_true, Bool.and_eq_true, decide_eq_true_eq, ge_iff_le,
      UInt32.le_iff_toNat_le] at h
    rw [hval]
    simp at h
    omega
  all_goals decide

theorem nameChar_toUpper {c : Char} (h : nameChar c) : nameChar c.toUpper :=
  ascii_forall (P := fun c => nameChar c → nameChar c.toUpper) (by decide)
    (nameChar_lt h) h

/-- A byte of a name is neither a mark of a slot nor a space. -/
theorem nameChar_byte {c : Char} (h : nameChar c) :
    UInt8.ofNat c.toNat ≠ 0 ∧ UInt8.ofNat c.toNat ≠ 0xe5 ∧ UInt8.ofNat c.toNat ≠ 0x20 ∧
      (UInt8.ofNat c.toNat = 0x2e → c = '.') ∧ Char.ofNat (UInt8.ofNat c.toNat).toNat = c :=
  ascii_forall (P := fun c => nameChar c → UInt8.ofNat c.toNat ≠ 0 ∧
      UInt8.ofNat c.toNat ≠ 0xe5 ∧ UInt8.ofNat c.toNat ≠ 0x20 ∧
      (UInt8.ofNat c.toNat = 0x2e → c = '.') ∧ Char.ofNat (UInt8.ofNat c.toNat).toNat = c)
    (by decide) (nameChar_lt h) h

theorem nameChar_ne_zero {c : Char} (h : nameChar c) : c.toNat ≠ 0 :=
  ascii_forall (P := fun c => nameChar c → c.toNat ≠ 0) (by decide) (nameChar_lt h) h

theorem upper_nameChar {c : Char} (h : nameChar c) : upper c = [c.toUpper] :=
  ascii_forall (P := fun c => nameChar c → upper c = [c.toUpper]) (by decide)
    (nameChar_lt h) h

def upperName (name : String) : List Char := name.toList.map Char.toUpper

def baseOf (name : String) : List Char := (upperName name).takeWhile (· ≠ '.')

def extOf (name : String) : List Char := ((upperName name).dropWhile (· ≠ '.')).tail

/-- The name says in 8.3 form all it says. -/
def IsShort (name : String) : Prop :=
  name.toList = upperName name ∧ (baseOf name).length ≤ 8 ∧ (extOf name).length ≤ 3 ∧
    (baseOf name ++ extOf name).all fun c => c.isAlphanum || c = '_' || c = '-'

instance (name : String) : Decidable (IsShort name) := inferInstanceAs (Decidable (_ ∧ _))

/-- The eleven bytes of the short name. -/
def shortField (name : String) : List UInt8 :=
  ascii (ljust 8 ((baseOf name).take 8) ++ ljust 3 ((extOf name).take 3))

theorem ljust_length {n : ℕ} {cs : List Char} (h : cs.length ≤ n) : (ljust n cs).length = n := by
  rw [ljust, List.length_append, List.length_replicate]
  omega

theorem ascii_length (cs : List Char) : (ascii cs).length = cs.length := List.length_map _

theorem ascii_append (cs ds : List Char) : ascii (cs ++ ds) = ascii cs ++ ascii ds :=
  List.map_append

theorem baseField_length (name : String) : (ljust 8 ((baseOf name).take 8)).length = 8 :=
  ljust_length (by rw [List.length_take]; omega)

theorem extField_length (name : String) : (ljust 3 ((extOf name).take 3)).length = 3 :=
  ljust_length (by rw [List.length_take]; omega)

theorem shortField_length (name : String) : (shortField name).length = 11 := by
  rw [shortField, ascii_length, List.length_append, baseField_length, extField_length]

theorem nameChar_upperName {name : String} (h : NameOk name) :
    ∀ c ∈ upperName name, nameChar c := by
  intro c hc
  obtain ⟨d, hd, rfl⟩ := List.mem_map.mp hc
  exact nameChar_toUpper (h.chars d hd)

theorem nameChar_baseOf {name : String} (h : NameOk name) : ∀ c ∈ baseOf name, nameChar c :=
  fun c hc => nameChar_upperName h c (List.takeWhile_subset _ hc)

theorem nameChar_extOf {name : String} (h : NameOk name) : ∀ c ∈ extOf name, nameChar c :=
  fun c hc => nameChar_upperName h c
    ((List.dropWhile_suffix _).subset (List.mem_of_mem_tail hc))

theorem dot_not_mem_baseOf (name : String) : '.' ∉ baseOf name := by
  intro h
  simpa using List.mem_takeWhile_imp h

theorem dos83_eq {name : String} (h : NameOk name) :
    dos83 name = .ok (shortField name, !decide (IsShort name)) := by
  have hall : (ljust 8 ((baseOf name).take 8) ++ ljust 3 ((extOf name).take 3)).all
      (·.toNat < 128) := by
    rw [List.all_eq_true]
    intro c hc
    rw [decide_eq_true_eq]
    simp only [ljust, List.mem_append, List.mem_replicate] at hc
    rcases hc with (hc | ⟨-, rfl⟩) | hc | ⟨-, rfl⟩
    · exact nameChar_lt (nameChar_baseOf h c (List.mem_of_mem_take hc))
    · decide
    · exact nameChar_lt (nameChar_extOf h c (List.mem_of_mem_take hc))
    · decide
  have hupper : name.toList.flatMap upper = upperName name := by
    rw [upperName, List.map_eq_flatMap, List.flatMap_def, List.flatMap_def]
    exact congrArg List.flatten (List.map_congr_left fun c hc => upper_nameChar (h.chars c hc))
  have hencode : encodeAscii (ljust 8 ((baseOf name).take 8) ++ ljust 3 ((extOf name).take 3)) =
      .ok (shortField name) := if_pos hall
  rw [dos83, hupper]
  change (encodeAscii (ljust 8 ((baseOf name).take 8) ++ ljust 3 ((extOf name).take 3)) >>=
    fun b => Except.ok (b, !decide (IsShort name))) = _
  rw [hencode]
  rfl

/-- A short name is never that of `.` or `..`, and no mark stands in front of it. -/
theorem shortField_first {name : String} (h : NameOk name) :
    (shortField name).getD 0 0 ≠ 0 ∧ (shortField name).getD 0 0 ≠ 0xe5 ∧
      (shortField name).getD 0 0 ≠ 0x2e := by
  cases hbase : baseOf name with
  | nil =>
      have hfirst : (shortField name).getD 0 0 = 0x20 := by
        simp [shortField, hbase, ljust, ascii, List.replicate_succ]
      rw [hfirst]
      decide
  | cons c cs =>
      have hc : c ∈ baseOf name := hbase ▸ List.mem_cons_self
      have hfirst : (shortField name).getD 0 0 = UInt8.ofNat c.toNat := by
        simp [shortField, hbase, ljust, ascii]
      obtain ⟨hzero, hdeleted, -, hdot, -⟩ := nameChar_byte (nameChar_baseOf h c hc)
      rw [hfirst]
      refine ⟨hzero, hdeleted, fun heq => dot_not_mem_baseOf name ?_⟩
      exact hdot heq ▸ hc

theorem trimField_ljust {n : ℕ} {cs : List Char} (h : ∀ c ∈ cs, nameChar c) :
    trimField (ascii (ljust n cs)) = cs := by
  have hspaces : ascii (List.replicate (n - cs.length) ' ') =
      List.replicate (n - cs.length) 0x20 := List.map_replicate
  have hall : ∀ b ∈ (List.replicate (n - cs.length) (0x20 : UInt8)).reverse,
      decide (b = 0x20) = true := by
    intro b hb
    rw [List.reverse_replicate, List.mem_replicate] at hb
    rw [decide_eq_true_eq]
    exact hb.2
  have hkeep : ((ascii cs).reverse.dropWhile (· = 0x20)) = (ascii cs).reverse := by
    apply List.dropWhile_eq_self_iff.mpr
    intro hlen
    have hmem := List.getElem_mem hlen
    rw [List.mem_reverse] at hmem
    obtain ⟨c, hc, heq⟩ := List.mem_map.mp hmem
    rw [decide_eq_true_eq, ← heq]
    exact (nameChar_byte (h c hc)).2.2.1
  rw [trimField, ljust, ascii_append, hspaces, List.reverse_append,
    List.dropWhile_append_of_pos hall, hkeep, List.reverse_reverse, ascii, List.map_map]
  conv_rhs => rw [← List.map_id cs]
  apply List.map_congr_left
  intro c hc
  exact (nameChar_byte (h c hc)).2.2.2.2

theorem split_upperName (name : String) :
    upperName name = baseOf name ∧ extOf name = [] ∨
      upperName name = baseOf name ++ '.' :: extOf name := by
  have hsplit := List.takeWhile_append_dropWhile (p := (· ≠ '.')) (l := upperName name)
  cases hdrop : (upperName name).dropWhile (· ≠ '.') with
  | nil =>
      rw [hdrop, List.append_nil] at hsplit
      exact .inl ⟨hsplit.symm, by rw [extOf, hdrop, List.tail_nil]⟩
  | cons c rest =>
      have hc : c = '.' := by
        have hhead := List.head?_dropWhile_not (· ≠ '.') (upperName name)
        rw [hdrop, List.head?_cons] at hhead
        simpa using hhead
      subst hc
      refine .inr ?_
      rw [extOf, hdrop, List.tail_cons, ← hdrop]
      exact hsplit.symm

/-- Where the 8.3 form says all, it is read back as the name. -/
theorem shortName_shortField {name : String} (h : NameOk name) (hshort : IsShort name) :
    shortName (shortField name) = name := by
  obtain ⟨hupper, hbase, hext, -⟩ := hshort
  have htake : (shortField name).take 8 = ascii (ljust 8 (baseOf name)) := by
    rw [shortField, ascii_append, List.take_left' (by rw [ascii_length, baseField_length]),
      List.take_of_length_le hbase]
  have hdrop : (shortField name).drop 8 = ascii (ljust 3 (extOf name)) := by
    rw [shortField, ascii_append, List.drop_left' (by rw [ascii_length, baseField_length]),
      List.take_of_length_le hext]
  rw [shortName, htake, hdrop, trimField_ljust (nameChar_baseOf h),
    trimField_ljust (nameChar_extOf h)]
  apply String.toList_inj.mp
  rw [String.toList_ofList, hupper]
  rcases split_upperName name with ⟨hwhole, hnone⟩ | hwhole
  · rw [hwhole, hnone, if_pos rfl, List.append_nil]
  · have hne : extOf name ≠ [] := by
      intro hnone
      apply h.noDot
      rw [hupper, hwhole, hnone, List.getLast?_append]
      rfl
    rw [if_neg hne, hwhole]

theorem decodeUnits_utf16 (cs : List Char) : decodeUnits (cs.flatMap utf16) = cs := by
  induction cs with
  | nil => rfl
  | cons c cs ih =>
      have hvalid : c.toNat < 0xd800 ∨ 0xdfff < c.toNat ∧ c.toNat < 0x110000 := c.valid
      rw [List.flatMap_cons]
      by_cases hc : c.toNat < 0x10000
      · have hsingle : ¬(0xd800 ≤ c.toNat ∧ c.toNat < 0xdc00) := by omega
        rw [utf16, if_pos hc, List.singleton_append, decodeUnits.eq_def]
        simp only [hsingle, if_false, ih, Char.ofNat_toNat]
      · have hunit : 0x10000 + (0xd800 + (c.toNat - 0x10000) / 1024 - 0xd800) * 1024 +
            (0xdc00 + (c.toNat - 0x10000) % 1024 - 0xdc00) = c.toNat := by omega
        have hhigh : 0xd800 ≤ 0xd800 + (c.toNat - 0x10000) / 1024 ∧
            0xd800 + (c.toNat - 0x10000) / 1024 < 0xdc00 := by omega
        rw [utf16, if_neg hc, List.cons_append, List.singleton_append, decodeUnits.eq_def]
        simp only [hhigh, and_self, if_true, hunit, Char.ofNat_toNat, ih]

theorem utf16_ne_zero {c : Char} (h : c.toNat ≠ 0) : ∀ u ∈ utf16 c, u ≠ 0 := by
  intro u hu
  rw [utf16] at hu
  split at hu
  · rw [List.mem_singleton] at hu
    omega
  · simp only [List.mem_cons, List.not_mem_nil, or_false] at hu
    omega

theorem utf16_lt (c : Char) : ∀ u ∈ utf16 c, u < 256 ^ 2 := by
  intro u hu
  have hvalid : c.toNat < 0xd800 ∨ 0xdfff < c.toNat ∧ c.toNat < 0x110000 := c.valid
  rw [utf16] at hu
  split at hu
  · rw [List.mem_singleton] at hu
    omega
  · simp only [List.mem_cons, List.not_mem_nil, or_false] at hu
    omega

theorem readUnits_leBytes {us : List ℕ} (h : ∀ u ∈ us, u < 256 ^ 2) (rest : List UInt8) :
    readUnits (us.flatMap (leBytes 2) ++ rest) = us ++ readUnits rest := by
  induction us with
  | nil => rfl
  | cons u us ih =>
      obtain ⟨hu, hus⟩ := List.forall_mem_cons.mp h
      have hvalue : leValue (leBytes 2 u) = u := by
        rw [leValue_leBytes, Nat.mod_eq_of_lt hu]
      obtain ⟨lo, hi, hbytes⟩ : ∃ lo hi, leBytes 2 u = [lo, hi] := ⟨_, _, rfl⟩
      rw [hbytes] at hvalue
      rw [List.flatMap_cons, hbytes, List.append_assoc, List.cons_append, List.cons_append,
        List.nil_append, readUnits, hvalue, ih hus, List.cons_append]

theorem readUnits_append {as : List UInt8} (bs : List UInt8) :
    as.length % 2 = 0 → readUnits (as ++ bs) = readUnits as ++ readUnits bs := by
  induction as using readUnits.induct with
  | case1 lo hi rest ih =>
      intro h
      rw [List.length_cons, List.length_cons] at h
      rw [List.cons_append, List.cons_append, readUnits, ih (by omega), readUnits, List.cons_append]
  | case2 as hnone =>
      intro h
      cases as with
      | nil => rfl
      | cons lo as =>
          cases as with
          | nil => simp at h
          | cons hi rest => exact absurd rfl (hnone lo hi rest)

theorem readUnits_flatten {ps : List (List UInt8)} (h : ∀ p ∈ ps, p.length % 2 = 0) :
    readUnits ps.flatten = ps.flatMap readUnits := by
  induction ps with
  | nil => rfl
  | cons p ps ih =>
      obtain ⟨hp, hps⟩ := List.forall_mem_cons.mp h
      rw [List.flatten_cons, readUnits_append _ hp, ih hps, List.flatMap_cons]

theorem flatMap_leBytes_length (us : List ℕ) :
    (us.flatMap (leBytes 2)).length = 2 * us.length := by
  induction us with
  | nil => rfl
  | cons u us ih =>
      rw [List.flatMap_cons, List.length_append, leBytes_length, ih, List.length_cons]
      omega

theorem lfnUnits_length (name : String) :
    (lfnUnits name).length = 26 * (((name.toList.flatMap utf16).length + 13) / 13) := by
  simp only [lfnUnits, List.length_append, List.length_replicate, flatMap_leBytes_length,
    List.length_cons, List.length_nil]
  omega

theorem chunks_eq (name : String) :
    (chunks (lfnUnits name)).length = ((name.toList.flatMap utf16).length + 13) / 13 ∧
      (∀ ch ∈ chunks (lfnUnits name), ch.length = 26) ∧
      (chunks (lfnUnits name)).flatten = lfnUnits name := by
  have hlen := lfnUnits_length name
  have hcount : ((lfnUnits name).length + 25) / 26 =
      ((name.toList.flatMap utf16).length + 13) / 13 := by omega
  rw [chunks, hcount]
  refine ⟨by rw [List.length_map, List.length_range], ?_, ?_⟩
  · intro ch hch
    obtain ⟨i, hi, rfl⟩ := List.mem_map.mp hch
    rw [List.mem_range] at hi
    exact slice_length_of_le (by omega)
  · rw [flatten_slices, ← hlen, List.take_length]

/-- The units up to the first zero are those of the name. -/
theorem readUnits_lfnUnits {name : String} (h : NameOk name) :
    (readUnits (lfnUnits name)).takeWhile (· ≠ 0) = name.toList.flatMap utf16 := by
  have hlt : ∀ u ∈ name.toList.flatMap utf16, u < 256 ^ 2 := by
    intro u hu
    obtain ⟨c, -, hu⟩ := List.mem_flatMap.mp hu
    exact utf16_lt c u hu
  have hpos : ∀ u ∈ name.toList.flatMap utf16, decide (u ≠ 0) = true := by
    intro u hu
    obtain ⟨c, hc, hu⟩ := List.mem_flatMap.mp hu
    exact decide_eq_true (utf16_ne_zero (nameChar_ne_zero (h.chars c hc)) u hu)
  rw [lfnUnits, List.append_assoc, readUnits_leBytes hlt, List.takeWhile_append_of_pos hpos]
  simp [readUnits, leValue]

theorem utf16_name {name : String} (h : NameOk name) :
    (name.toList.flatMap utf16).length = name.toList.length := by
  rw [List.length_flatMap]
  have hone : name.toList.map (fun c => (utf16 c).length) = name.toList.map fun _ => 1 := by
    apply List.map_congr_left
    intro c hc
    have hlt := nameChar_lt (h.chars c hc)
    rw [utf16, if_pos (by omega), List.length_singleton]
  rw [hone]
  simp

def slotOrder (n i : ℕ) : ℕ := i ||| (if i = n then 0x40 else 0)

/-- The entry for the `i`-th of `n` chunks. -/
def lfnSlot (n : ℕ) (s : UInt8) (ch : List UInt8) (i : ℕ) : List UInt8 :=
  [UInt8.ofNat (slotOrder n i)] ++ slice ch 0 10 ++ [0x0f, 0x00] ++ [s] ++
    slice ch 10 12 ++ [0x00, 0x00] ++ slice ch 22 4

theorem slotOrder_bounds {n i : ℕ} (hi : 1 ≤ i) (hin : i ≤ n) (hn : n ≤ 20) :
    1 ≤ slotOrder n i ∧ slotOrder n i < 0x80 := by
  have hlow : ∀ k : Fin 21, k.val ||| 0x40 = k.val + 0x40 := by decide
  have hbit := hlow ⟨i, by omega⟩
  simp only at hbit
  rw [slotOrder]
  split
  · omega
  · rw [Nat.or_zero]
    omega

theorem checksum_eq (short : List UInt8) : checksum short = (shortChecksum short).toNat := by
  have hrotate : ∀ n : Fin 256,
      ((n.val >>> 1) ||| ((n.val &&& 1) <<< 7)) =
        ((if UInt8.ofNat n.val &&& 1 = 0 then (0 : UInt8) else 0x80) +
          (UInt8.ofNat n.val >>> 1)).toNat := by decide +kernel
  have hstep : ∀ s c : UInt8,
      (((s.toNat >>> 1) ||| ((s.toNat &&& 1) <<< 7)) + c.toNat) &&& 0xff =
        ((if s &&& 1 = 0 then (0 : UInt8) else 0x80) + (s >>> 1) + c).toNat := by
    intro s c
    have hs := hrotate ⟨s.toNat, s.toNat_lt⟩
    simp only [UInt8.ofNat_toNat] at hs
    rw [hs, Nat.and_two_pow_sub_one_eq_mod _ 8, UInt8.toNat_add _ c]
  have hfold : ∀ (l : List UInt8) (s : UInt8),
      l.foldl (fun (s : ℕ) c => (((s >>> 1) ||| ((s &&& 1) <<< 7)) + c.toNat) &&& 0xff)
          s.toNat =
        (l.foldl (fun (s c : UInt8) => (if s &&& 1 = 0 then (0 : UInt8) else 0x80) + (s >>> 1) + c)
          s).toNat := by
    intro l
    induction l with
    | nil => exact fun s => rfl
    | cons c l ih =>
        intro s
        rw [List.foldl_cons, List.foldl_cons, hstep, ih]
  exact hfold short 0

theorem lfnEntry_eq {n i : ℕ} {s : UInt8} {ch : List UInt8} (hi : 1 ≤ i) (hin : i ≤ n)
    (hn : n ≤ 20) : lfnEntry n s.toNat ch i = .ok (lfnSlot n s ch i) := by
  have hbounds := slotOrder_bounds hi hin hn
  have hs : s.toNat < 256 := s.toNat_lt
  change (if slotOrder n i < 256 ∧ s.toNat < 256 then _ else _) = _
  rw [if_pos ⟨by omega, hs⟩, UInt8.ofNat_toNat]
  rfl

theorem getD_middle (as : List UInt8) (x : UInt8) (cs : List UInt8) {off : ℕ}
    (h : as.length = off) :
    (as ++ x :: cs).getD off 0 = x := by
  subst h
  simp

theorem field_middle (as : List UInt8) (n v : ℕ) (cs : List UInt8) {off : ℕ}
    (h : as.length = off) :
    field (as ++ (leBytes n v ++ cs)) off n = v % 256 ^ n := by
  rw [field, slice_middle as cs h (leBytes_length n v), leValue_leBytes]

theorem lfnSlot_length (n : ℕ) (s : UInt8) {ch : List UInt8} (i : ℕ) (hch : ch.length = 26) :
    (lfnSlot n s ch i).length = 32 := by
  simp only [lfnSlot, List.length_append, slice_length, hch, List.length_cons, List.length_nil]
  rfl

theorem lfnSlot_marks {n i : ℕ} {s : UInt8} {ch : List UInt8} (hch : ch.length = 26) (hi : 1 ≤ i)
    (hin : i ≤ n) (hn : n ≤ 20) : (lfnSlot n s ch i).getD 0 0 ≠ 0 ∧
      (lfnSlot n s ch i).getD 0 0 ≠ 0xe5 ∧ (lfnSlot n s ch i).getD 11 0 = 0x0f := by
  obtain ⟨hpos, hlt⟩ := slotOrder_bounds hi hin hn
  have hfirst : (lfnSlot n s ch i).getD 0 0 = UInt8.ofNat (slotOrder n i) := rfl
  have horder : (UInt8.ofNat (slotOrder n i)).toNat = slotOrder n i := by
    rw [UInt8.toNat_ofNat', Nat.mod_eq_of_lt (by omega)]
  have hp : ([UInt8.ofNat (slotOrder n i)] ++ slice ch 0 10).length = 11 := by
    rw [List.length_append, slice_length, hch]
    rfl
  rw [hfirst]
  refine ⟨fun h => ?_, fun h => ?_, ?_⟩
  · rw [h] at horder
    have hzero : (0 : UInt8).toNat = 0 := rfl
    omega
  · rw [h] at horder
    have hmark : (0xe5 : UInt8).toNat = 0xe5 := rfl
    omega
  · simp only [lfnSlot, List.append_assoc, List.cons_append, List.nil_append]
    exact getD_middle (UInt8.ofNat (slotOrder n i) :: slice ch 0 10) _ _ hp

theorem longSlot_lfnSlot {n i : ℕ} {s : UInt8} {ch : List UInt8} (hch : ch.length = 26)
    (hi : 1 ≤ i) (hin : i ≤ n) (hn : n ≤ 20) :
    longSlot (lfnSlot n s ch i) = ⟨slotOrder n i, s, readUnits ch⟩ := by
  obtain ⟨-, hlt⟩ := slotOrder_bounds hi hin hn
  have hp : (slice ch 0 10).length = 10 := slice_length_of_le (by omega)
  have hq : (slice ch 10 12).length = 12 := slice_length_of_le (by omega)
  have hr : (slice ch 22 4).length = 4 := slice_length_of_le (by omega)
  have hwhole : slice ch 0 10 ++ slice ch 10 12 ++ slice ch 22 4 = ch := by
    have hall : slice ch 0 26 = ch := hch ▸ slice_zero_length ch
    rw [← slice_split, ← slice_split]
    exact hall
  have horder : field (lfnSlot n s ch i) 0 1 = slotOrder n i := by
    have hvalue := field_middle [] 1 (slotOrder n i) (slice ch 0 10 ++ ([0x0f, 0x00] ++ ([s] ++
      (slice ch 10 12 ++ ([0x00, 0x00] ++ slice ch 22 4))))) rfl
    rw [Nat.mod_eq_of_lt (by omega)] at hvalue
    simpa [lfnSlot, leBytes] using hvalue
  have hsum : (lfnSlot n s ch i).getD 13 0 = s := by
    have hget := getD_middle ([UInt8.ofNat (slotOrder n i)] ++ slice ch 0 10 ++ [0x0f, 0x00]) s
      (slice ch 10 12 ++ ([0x00, 0x00] ++ slice ch 22 4)) (show _ = 13 by simp [hp])
    simpa [lfnSlot] using hget
  have hone : slice (lfnSlot n s ch i) 1 10 = slice ch 0 10 := by
    have hmid := slice_middle [UInt8.ofNat (slotOrder n i)] ([0x0f, 0x00] ++ ([s] ++
      (slice ch 10 12 ++ ([0x00, 0x00] ++ slice ch 22 4)))) rfl hp
    simpa [lfnSlot] using hmid
  have htwo : slice (lfnSlot n s ch i) 14 12 = slice ch 10 12 := by
    have hmid := slice_middle ([UInt8.ofNat (slotOrder n i)] ++ slice ch 0 10 ++ [0x0f, 0x00] ++
      [s]) ([0x00, 0x00] ++ slice ch 22 4) (show _ = 14 by simp [hp]) hq
    simpa [lfnSlot, hp] using hmid
  have hthree : slice (lfnSlot n s ch i) 28 4 = slice ch 22 4 := by
    have hmid := slice_middle ([UInt8.ofNat (slotOrder n i)] ++ slice ch 0 10 ++ [0x0f, 0x00] ++
      [s] ++ slice ch 10 12 ++ [0x00, 0x00]) [] (show _ = 28 by simp [hp, hq]) hr
    simpa [lfnSlot, hp, hq] using hmid
  rw [longSlot, horder, hsum, hone, htwo, hthree, hwhole]

theorem items_long {ls : List (List UInt8)}
    (h : ∀ l ∈ ls, l.getD 0 0 ≠ 0 ∧ l.getD 0 0 ≠ 0xe5 ∧ l.getD 11 0 = 0x0f)
    (rest : List (List UInt8)) (run : List LongSlot) :
    items (ls ++ rest) run = items rest ((ls.map longSlot).reverse ++ run) := by
  induction ls generalizing run with
  | nil => rfl
  | cons l ls ih =>
      obtain ⟨⟨hzero, hdeleted, hattr⟩, hls⟩ := List.forall_mem_cons.mp h
      rw [List.cons_append, items, if_neg hzero, if_neg hdeleted, if_pos hattr, ih hls,
        List.map_cons, List.reverse_cons, List.append_assoc, List.singleton_append]

section Name

variable (name : String)

def chunkCount : ℕ := (chunks (lfnUnits name)).length

/-- The slots of the long name, first to last, by their chunks. -/
def lfnPairs : List (List UInt8 × ℕ) := (chunks (lfnUnits name)).zipIdx 1

def lfnSlots : List (List UInt8) :=
  ((lfnPairs name).map fun e =>
    lfnSlot (chunkCount name) (shortChecksum (shortField name)) e.1 e.2).reverse

/-- What a reader has passed when it comes to the short entry. -/
def lfnRun : List LongSlot :=
  (lfnPairs name).map fun e =>
    ⟨slotOrder (chunkCount name) e.2, shortChecksum (shortField name), readUnits e.1⟩

variable {name}

theorem chunkCount_bounds (h : NameOk name) : 1 ≤ chunkCount name ∧ chunkCount name ≤ 20 := by
  have hcount := (chunks_eq name).1
  have hname := utf16_name h
  have hlen := h.length
  rw [chunkCount]
  omega

theorem lfnPairs_bounds (h : NameOk name) : ∀ e ∈ lfnPairs name,
    e.1.length = 26 ∧ 1 ≤ e.2 ∧ e.2 ≤ chunkCount name ∧ chunkCount name ≤ 20 := by
  intro e he
  have hlow := List.le_snd_of_mem_zipIdx he
  have hhigh := List.snd_lt_add_of_mem_zipIdx he
  have hmem : e.1 ∈ chunks (lfnUnits name) := by
    rw [← List.zipIdx_map_fst 1 (chunks (lfnUnits name))]
    exact List.mem_map_of_mem he
  refine ⟨(chunks_eq name).2.1 e.1 hmem, hlow, ?_, (chunkCount_bounds h).2⟩
  rw [chunkCount]
  omega

theorem items_lfnSlots (h : NameOk name) (rest : List (List UInt8)) :
    items (lfnSlots name ++ rest) [] = items rest (lfnRun name) := by
  rw [items_long, List.append_nil, lfnSlots, List.map_reverse, List.reverse_reverse, List.map_map,
    lfnRun]
  · congr 1
    apply List.map_congr_left
    intro e he
    obtain ⟨hch, hi, hin, hn⟩ := lfnPairs_bounds h e he
    exact longSlot_lfnSlot hch hi hin hn
  · intro l hl
    rw [lfnSlots, List.mem_reverse] at hl
    obtain ⟨e, he, rfl⟩ := List.mem_map.mp hl
    obtain ⟨hch, hi, hin, hn⟩ := lfnPairs_bounds h e he
    exact lfnSlot_marks hch hi hin hn

theorem lfnRun_orders (h : NameOk name) :
    (lfnRun name).map LongSlot.order = runOrders (chunkCount name) := by
  obtain ⟨m, hm⟩ : ∃ m, chunkCount name = m + 1 :=
    Nat.exists_eq_add_of_le' (chunkCount_bounds h).1
  have horders : (lfnRun name).map LongSlot.order =
      ((lfnPairs name).map Prod.snd).map (slotOrder (chunkCount name)) := by
    rw [lfnRun, List.map_map, List.map_map]
    rfl
  rw [horders, lfnPairs, List.zipIdx_map_snd, ← chunkCount, hm, List.range'_1_concat,
    List.map_append, runOrders, Nat.add_sub_cancel, Nat.add_comm 1 m]
  congr 1
  · have hid : List.map (slotOrder (m + 1)) (List.range' 1 m) = List.map id (List.range' 1 m) := by
      apply List.map_congr_left
      intro i hi
      obtain ⟨j, hj, rfl⟩ := List.mem_range'.mp hi
      rw [slotOrder, if_neg (by omega), Nat.or_zero, id]
    rw [hid, List.map_id]
  · rw [List.map_singleton, slotOrder, if_pos rfl]

theorem lfnRun_matches (h : NameOk name) : RunMatches (shortField name) (lfnRun name) := by
  have hlen : (lfnRun name).length = chunkCount name := by
    rw [lfnRun, List.length_map, lfnPairs, List.length_zipIdx, chunkCount]
  refine ⟨?_, hlen ▸ lfnRun_orders h, ?_⟩
  · intro hnil
    have hpos := (chunkCount_bounds h).1
    rw [hnil, List.length_nil] at hlen
    omega
  · intro slot hslot
    obtain ⟨e, -, rfl⟩ := List.mem_map.mp hslot
    rfl

theorem longName_lfnRun (h : NameOk name) : longName (lfnRun name) = name := by
  obtain ⟨-, hlen, hflat⟩ := chunks_eq name
  have hunits : (lfnRun name).flatMap LongSlot.units = readUnits (lfnUnits name) := by
    have heven : ∀ ch ∈ chunks (lfnUnits name), ch.length % 2 = 0 :=
      fun ch hch => by rw [hlen ch hch]
    have hpairs : (lfnRun name).flatMap LongSlot.units =
        ((lfnPairs name).map Prod.fst).flatMap readUnits := by
      rw [lfnRun, List.flatMap_map, List.flatMap_map]
    rw [hpairs, lfnPairs, List.zipIdx_map_fst, ← readUnits_flatten heven, hflat]
  rw [longName, hunits, readUnits_lfnUnits h, decodeUnits_utf16, String.ofList_toList]

end Name

/-- The 32 bytes of a short entry. -/
def shortSlot (short : List UInt8) (attr : UInt8) (cluster size : ℕ) : List UInt8 :=
  short ++ [attr, 0, 0] ++ leBytes 2 DOSTIME ++ leBytes 2 DOSDATE ++ leBytes 2 DOSDATE ++
    leBytes 2 (cluster >>> 16) ++ leBytes 2 DOSTIME ++ leBytes 2 DOSDATE ++
    leBytes 2 (cluster &&& 0xffff) ++ leBytes 4 size

attribute [local simp] shortSlot

theorem packEntry_eq (short : List UInt8) (attr : UInt8) (cluster size : ℕ) :
    packEntry short attr cluster size =
      if cluster < 2 ^ 32 ∧ size < 2 ^ 32 then .ok (shortSlot short attr cluster size)
      else .error .struct := by
  rw [packEntry, pack, pack, Nat.shiftRight_eq_div_pow]
  by_cases hc : cluster / 2 ^ 16 < 256 ^ 2
  · by_cases hs : size < 256 ^ 4
    · have hboth : cluster < 2 ^ 32 ∧ size < 2 ^ 32 := by omega
      rw [if_pos hc, if_pos hs, if_pos hboth]
      simp only [shortSlot, Nat.shiftRight_eq_div_pow]
      rfl
    · have hone : ¬(cluster < 2 ^ 32 ∧ size < 2 ^ 32) := by omega
      rw [if_pos hc, if_neg hs, if_neg hone]
      rfl
  · have hone : ¬(cluster < 2 ^ 32 ∧ size < 2 ^ 32) := by omega
    rw [if_neg hc, if_neg hone]
    rfl

section ShortSlot

variable {short : List UInt8} {attr : UInt8} {cluster size : ℕ}

theorem shortSlot_length (h : short.length = 11) :
    (shortSlot short attr cluster size).length = 32 := by
  simp [shortSlot, h]

theorem shortSlot_take (h : short.length = 11) :
    (shortSlot short attr cluster size).take 11 = short := by
  simp only [shortSlot, List.append_assoc]
  exact List.take_left' h

theorem shortSlot_attr (h : short.length = 11) :
    (shortSlot short attr cluster size).getD 11 0 = attr := by
  simp only [shortSlot, List.append_assoc, List.cons_append]
  exact getD_middle short attr _ h

theorem shortSlot_first (h : short.length = 11) :
    (shortSlot short attr cluster size).getD 0 0 = short.getD 0 0 := by
  simp only [shortSlot, List.append_assoc]
  exact List.getD_append _ _ _ _ (by omega)

theorem shortSlot_cluster (h : short.length = 11) (hc : cluster < 2 ^ 32) :
    field (shortSlot short attr cluster size) 20 2 * 2 ^ 16 +
      field (shortSlot short attr cluster size) 26 2 = cluster := by
  have hhigh := field_middle (short ++ [attr, 0, 0] ++ leBytes 2 DOSTIME ++ leBytes 2 DOSDATE ++
    leBytes 2 DOSDATE) 2 (cluster >>> 16) (leBytes 2 DOSTIME ++ (leBytes 2 DOSDATE ++
    (leBytes 2 (cluster &&& 0xffff) ++ leBytes 4 size))) (show _ = 20 by simp [h])
  have hlow := field_middle (short ++ [attr, 0, 0] ++ leBytes 2 DOSTIME ++ leBytes 2 DOSDATE ++
    leBytes 2 DOSDATE ++ leBytes 2 (cluster >>> 16) ++ leBytes 2 DOSTIME ++ leBytes 2 DOSDATE) 2
    (cluster &&& 0xffff) (leBytes 4 size) (show _ = 26 by simp [h])
  have hmask : cluster &&& 0xffff = cluster % 2 ^ 16 := Nat.and_two_pow_sub_one_eq_mod _ 16
  simp only [List.append_assoc] at hhigh hlow
  simp only [shortSlot, List.append_assoc]
  rw [hhigh, hlow, hmask, Nat.shiftRight_eq_div_pow]
  omega

theorem shortSlot_size (h : short.length = 11) (hs : size < 2 ^ 32) :
    field (shortSlot short attr cluster size) 28 4 = size := by
  have hvalue := field_middle (short ++ [attr, 0, 0] ++ leBytes 2 DOSTIME ++ leBytes 2 DOSDATE ++
    leBytes 2 DOSDATE ++ leBytes 2 (cluster >>> 16) ++ leBytes 2 DOSTIME ++ leBytes 2 DOSDATE ++
    leBytes 2 (cluster &&& 0xffff)) 4 size [] (show _ = 28 by simp [h])
  simp only [List.append_assoc, List.append_nil] at hvalue
  simp only [shortSlot, List.append_assoc]
  rw [hvalue]
  omega

end ShortSlot

/-- A short entry gives an item, whatever run of slots was passed. -/
theorem items_short {name : String} (h : NameOk name) {attr : UInt8} {cluster size : ℕ}
    (hattr : attr = 0x10 ∨ attr = 0x20) (rest : List (List UInt8)) (run : List LongSlot) :
    items (shortSlot (shortField name) attr cluster size :: rest) run =
      shortItem (shortSlot (shortField name) attr cluster size) run :: items rest [] := by
  have hlen := shortField_length name
  obtain ⟨hzero, hdeleted, hdot⟩ := shortField_first h
  have hlong : attr ≠ 0x0f := by rcases hattr with rfl | rfl <;> decide
  have hlabel : ¬attr &&& 0x08 ≠ 0 := by rcases hattr with rfl | rfl <;> decide
  have hplain : ¬(shortField name = dotName ∨ shortField name = dotdotName) := by
    rintro (heq | heq) <;> exact hdot (by rw [heq]; rfl)
  rw [items, shortSlot_first hlen, shortSlot_attr hlen, shortSlot_take hlen, if_neg hzero,
    if_neg hdeleted, if_neg hlong, if_neg hlabel, if_neg hplain]

theorem shortItem_eq {name : String} {isDir : Bool} {cluster size : ℕ} {run : List LongSlot}
    (hc : cluster < 2 ^ 32) (hs : size < 2 ^ 32)
    (hname : (if RunMatches (shortField name) run then longName run
      else shortName (shortField name)) = name) :
    shortItem (shortSlot (shortField name) (if isDir then 0x10 else 0x20) cluster size) run =
      ⟨name, isDir, cluster, size⟩ := by
  have hlen := shortField_length name
  have hdir : decide ((if isDir then (0x10 : UInt8) else 0x20) &&& 0x10 ≠ 0) = isDir := by
    cases isDir <;> decide
  rw [shortItem, shortSlot_take hlen, shortSlot_attr hlen, shortSlot_cluster hlen hc,
    shortSlot_size hlen hs, hname, hdir]

/-- The slots of an entry in its directory. -/
def entrySlots (name : String) (cluster size : ℕ) (isDir : Bool) : List (List UInt8) :=
  (if IsShort name then [] else lfnSlots name) ++
    [shortSlot (shortField name) (if isDir then 0x10 else 0x20) cluster size]

/-- The number of slots an entry takes. -/
def slotCount (name : String) : ℕ := (if IsShort name then 0 else chunkCount name) + 1

section EntrySlots

variable {name : String} {cluster size : ℕ} {isDir : Bool}

/-- What is written for an entry is read as the entry. -/
theorem items_entrySlots (h : NameOk name) (hc : cluster < 2 ^ 32) (hs : size < 2 ^ 32)
    (rest : List (List UInt8)) :
    items (entrySlots name cluster size isDir ++ rest) [] =
      ⟨name, isDir, cluster, size⟩ :: items rest [] := by
  have hattr : (if isDir then (0x10 : UInt8) else 0x20) = 0x10 ∨
      (if isDir then (0x10 : UInt8) else 0x20) = 0x20 := by
    cases isDir
    · exact .inr rfl
    · exact .inl rfl
  rw [entrySlots, List.append_assoc, List.singleton_append]
  by_cases hshort : IsShort name
  · have hnone : ¬RunMatches (shortField name) [] := fun hrun => hrun.1 rfl
    rw [if_pos hshort, List.nil_append, items_short h hattr, shortItem_eq hc hs]
    rw [if_neg hnone, shortName_shortField h hshort]
  · rw [if_neg hshort, items_lfnSlots h, items_short h hattr, shortItem_eq hc hs]
    rw [if_pos (lfnRun_matches h), longName_lfnRun h]

theorem entrySlots_length :
    (entrySlots name cluster size isDir).length = slotCount name := by
  rw [entrySlots, List.length_append, List.length_singleton, slotCount]
  split
  · rfl
  · rw [lfnSlots, List.length_reverse, List.length_map, lfnPairs, List.length_zipIdx, chunkCount]

theorem entrySlots_size (h : NameOk name) :
    ∀ slot ∈ entrySlots name cluster size isDir, slot.length = 32 := by
  intro slot hslot
  rcases List.mem_append.mp hslot with hslot | hslot
  · by_cases hshort : IsShort name
    · rw [if_pos hshort] at hslot
      exact absurd hslot List.not_mem_nil
    · rw [if_neg hshort, lfnSlots, List.mem_reverse] at hslot
      obtain ⟨e, he, heq⟩ := List.mem_map.mp hslot
      rw [← heq, lfnSlot_length _ _ _ (lfnPairs_bounds h e he).1]
  · rw [List.mem_singleton.mp hslot, shortSlot_length (shortField_length name)]

end EntrySlots

theorem mapM_ok {α β : Type} {f : α → Except Error β} {g : α → β} {l : List α}
    (h : ∀ a ∈ l, f a = .ok (g a)) : l.mapM f = .ok (l.map g) := by
  induction l with
  | nil => rfl
  | cons a l ih =>
      obtain ⟨ha, hl⟩ := List.forall_mem_cons.mp h
      rw [List.mapM_cons, ha, ih hl]
      rfl

theorem lfnEntries_eq {name : String} (h : NameOk name) :
    lfnEntries name (shortField name) = .ok (lfnSlots name).flatten := by
  have hall : ∀ e ∈ (lfnPairs name).reverse,
      lfnEntry (chunkCount name) (checksum (shortField name)) e.1 e.2 =
        .ok (lfnSlot (chunkCount name) (shortChecksum (shortField name)) e.1 e.2) := by
    intro e he
    obtain ⟨-, hi, hin, hn⟩ := lfnPairs_bounds h e (List.mem_reverse.mp he)
    rw [checksum_eq]
    exact lfnEntry_eq hi hin hn
  have hmap := mapM_ok hall
  change (((lfnPairs name).reverse.mapM fun e =>
    lfnEntry (chunkCount name) (checksum (shortField name)) e.1 e.2) >>=
      fun out => Except.ok out.flatten) = _
  rw [hmap, lfnSlots, List.map_reverse]
  rfl

theorem direntry_eq {name : String} (h : NameOk name) (cluster size : ℕ) (isDir : Bool) :
    direntry name cluster size isDir =
      if cluster < 2 ^ 32 ∧ size < 2 ^ 32 then
        .ok (entrySlots name cluster size isDir).flatten
      else .error .struct := by
  rw [direntry, dos83_eq h]
  change (packEntry (shortField name) (if isDir then 0x10 else 0x20) cluster size >>= fun e =>
    (if (!decide (IsShort name)) = true then lfnEntries name (shortField name) else .ok []) >>=
      fun long => .ok (long ++ e)) = _
  rw [packEntry_eq]
  by_cases hboth : cluster < 2 ^ 32 ∧ size < 2 ^ 32
  · rw [if_pos hboth, if_pos hboth, entrySlots, List.flatten_append, List.flatten_singleton]
    by_cases hshort : IsShort name
    · have hnone : ¬(!decide (IsShort name)) = true := by
        rw [decide_eq_true hshort]
        exact Bool.false_ne_true
      rw [if_pos hshort, if_neg hnone]
      exact rfl
    · have hlong : (!decide (IsShort name)) = true := by
        rw [decide_eq_false hshort]
        exact rfl
      rw [if_neg hshort, if_pos hlong, lfnEntries_eq h]
      exact rfl
  · rw [if_neg hboth, if_neg hboth]
    exact rfl

end Veron.MkFat
