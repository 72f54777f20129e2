/-
ELF files by their format, and what the driver makes of them.
-/
import Veron.Elf

namespace Veron.Elf

/-- The sizes of the fields of the file header, for words of `w` bytes. -/
def ehdr (w : ℕ) : List ℕ := [16, 2, 2, 4, w, w, w, 4, 2, 2, 2, 2, 2, 2]

/-- The sizes of the fields of a program header.  In one of eight-byte words the
flags are the second field, in the other the seventh. -/
def phdr (wide : Bool) : List ℕ :=
  if wide then [4, 4, 8, 8, 8, 8, 8, 8] else [4, 4, 4, 4, 4, 4, 4, 4]

/-- Where field `k` begins. -/
def offsetOf (sizes : List ℕ) (k : ℕ) : ℕ := (sizes.take k).sum

/-- A program header, in what is read of it here. -/
structure ProgramHeader where
  ptype : ℕ
  off : ℕ
  vaddr : ℕ
  filesz : ℕ

/-- What an ELF file says: its program headers, its interpreter, the entries of its
dynamic section before `DT_NULL`, and the strings of its dynamic string table. -/
structure Image where
  wide : Bool
  little : Bool
  phoff : ℕ
  phentsize : ℕ
  headers : List ProgramHeader
  interp : Option (List UInt8)
  entries : List (ℕ × ℕ)
  strings : ℕ → List UInt8

namespace Image

variable (e : Image) (f : List UInt8)

def word : ℕ := if e.wide then 8 else 4

/-- The number at `off`, in the byte order of the file. -/
def num (off size : ℕ) : ℕ := fromBytes e.little (slice f off size)

/-- Program header `i` begins here. -/
def headerStart (i : ℕ) : ℕ := e.phoff + i * e.phentsize

structure HeaderAt (p : ℕ) (h : ProgramHeader) : Prop where
  ptype : e.num f p 4 = h.ptype
  off : e.num f (p + offsetOf (phdr e.wide) (if e.wide then 2 else 1)) e.word = h.off
  vaddr : e.num f (p + offsetOf (phdr e.wide) (if e.wide then 3 else 2)) e.word = h.vaddr
  filesz : e.num f (p + offsetOf (phdr e.wide) (if e.wide then 5 else 4)) e.word = h.filesz

/-- The entries at `off`, with `DT_NULL` after them. -/
structure EntriesAt (off size : ℕ) : Prop where
  room : (e.entries.length + 1) * (e.word * 2) ≤ size
  entry : ∀ k tag val, e.entries[k]? = some (tag, val) → tag ≠ 0 ∧
    e.num f (off + k * (e.word * 2)) e.word = tag ∧
    e.num f (off + k * (e.word * 2) + e.word) e.word = val
  null : e.num f (off + e.entries.length * (e.word * 2)) e.word = 0

/-- The string of index `idx` is where the string table, at `strtab`, is loaded from. -/
structure StringAt (strtab idx : ℕ) (h : ProgramHeader) : Prop where
  load : h ∈ e.headers ∧ h.ptype = 1
  addr : h.vaddr ≤ strtab ∧ strtab < h.vaddr + h.filesz
  inside : h.off + (strtab - h.vaddr) + idx + ((e.strings idx).length + 1) ≤ h.off + h.filesz
  sized : ∀ strsz, (10, strsz) ∈ e.entries → idx + ((e.strings idx).length + 1) ≤ strsz
  text : 0 ∉ e.strings idx
  bytes : slice f (h.off + (strtab - h.vaddr) + idx) ((e.strings idx).length + 1) =
    e.strings idx ++ [0]

/-- The file is the image, laid out well. -/
structure In : Prop where
  magic : slice f 0 4 = [0x7f, 0x45, 0x4c, 0x46]
  cls : f[4]? = some (if e.wide then 2 else 1)
  data : f[5]? = some (if e.little then 1 else 2)
  full : (ehdr e.word).sum ≤ f.length
  phoff : e.num f (offsetOf (ehdr e.word) 5) e.word = e.phoff
  phentsize : e.num f (offsetOf (ehdr e.word) 9) 2 = e.phentsize
  phnum : e.num f (offsetOf (ehdr e.word) 10) 2 = e.headers.length
  few : e.headers.length < 65535
  stride : e.headers ≠ [] → (phdr e.wide).sum ≤ e.phentsize
  table : e.headers ≠ [] → e.headerStart e.headers.length ≤ f.length
  header : ∀ i h, e.headers[i]? = some h → e.HeaderAt f (e.headerStart i) h
  segment : ∀ h ∈ e.headers, h.ptype = 1 ∨ h.ptype = 2 ∨ h.ptype = 3 → h.off + h.filesz ≤ f.length
  apart : ∀ g ∈ e.headers, ∀ h ∈ e.headers, g.ptype = 1 → h.ptype = 1 → ∀ v,
    g.vaddr ≤ v ∧ v < g.vaddr + g.filesz → h.vaddr ≤ v ∧ v < h.vaddr + h.filesz → g = h
  one : ∀ (i j : ℕ) (g h : ProgramHeader), e.headers[i]? = some g → e.headers[j]? = some h →
    g.ptype = h.ptype → g.ptype = 2 ∨ g.ptype = 3 → i = j
  interp_none : (∀ h ∈ e.headers, h.ptype ≠ 3) ↔ e.interp = none
  interp_some : ∀ h ∈ e.headers, h.ptype = 3 → ∀ s, e.interp = some s →
    0 ∉ s ∧ ∃ k, slice f h.off h.filesz = s ++ List.replicate (k + 1) 0
  dynamic_none : (∀ h ∈ e.headers, h.ptype ≠ 2) → e.entries = []
  dynamic_some : ∀ h ∈ e.headers, h.ptype = 2 → e.EntriesAt f h.off h.filesz
  tag_once : ∀ tag ∈ [5, 10, 14], ∀ v w, (tag, v) ∈ e.entries → (tag, w) ∈ e.entries → v = w
  string : ∀ tag idx, (tag, idx) ∈ e.entries → tag = 1 ∨ tag = 14 →
    ∃ strtab h, (5, strtab) ∈ e.entries ∧ e.StringAt f strtab idx h

def soname : Option (List UInt8) :=
  (e.entries.find? fun x => x.1 = 14).map fun x => e.strings x.2

/-- In the order of the entries. -/
def needed : List (List UInt8) :=
  (e.entries.filter fun x => x.1 = 1).map fun x => e.strings x.2

theorem names_none (h : ∀ tag, tag = 1 ∨ tag = 14 → ∀ w, (tag, w) ∉ e.entries) :
    e.soname = none ∧ e.needed = [] := by
  constructor
  · rw [soname, Option.map_eq_none_iff, List.find?_eq_none]
    rintro ⟨tag, w⟩ hw htag
    exact h tag (.inr (of_decide_eq_true htag)) w hw
  · rw [needed, List.map_eq_nil_iff, List.filter_eq_nil_iff]
    rintro ⟨tag, w⟩ hw htag
    exact h tag (.inl (of_decide_eq_true htag)) w hw

/-- The reader of the first `n` bytes. -/
def reading (n : ℕ) : Reader := ⟨f.take n, e.wide, e.little⟩

end Image

theorem slice_take {b : List UInt8} {n off size : ℕ} (h : off + size ≤ n) :
    slice (b.take n) off size = slice b off size := by
  apply slice_congr
  intro i hi
  rw [List.getElem?_take, if_pos (by omega)]

section

variable {e : Image} {f : List UInt8} {n : ℕ}

theorem Image.reading_u {off size : ℕ} (h : off + size ≤ n) :
    (e.reading f n).u off size = e.num f off size := by
  rw [Reader.u, Image.reading, slice_take h, Image.num]

theorem Image.reading_W : (e.reading f n).W = e.word := by
  cases hwide : e.wide <;> simp [Reader.W, Reader.o, Image.reading, offsets, Image.word, hwide]

theorem Image.word_pos : 0 < e.word := by
  rw [Image.word]
  split <;> decide

theorem Image.reading_o : (e.reading f n).o =
    ⟨offsetOf (ehdr e.word) 5, offsetOf (ehdr e.word) 9, offsetOf (ehdr e.word) 10,
      offsetOf (phdr e.wide) (if e.wide then 2 else 1),
      offsetOf (phdr e.wide) (if e.wide then 3 else 2),
      offsetOf (phdr e.wide) (if e.wide then 5 else 4), e.word⟩ := by
  rw [Reader.o, Image.reading, Image.word]
  cases e.wide <;> rfl

/-- The segments that are loaded, as `loads` has them. -/
def loadsOf (hs : List ProgramHeader) : List Load :=
  (hs.filter fun g => g.ptype = 1).map fun g => ⟨g.vaddr, g.off, g.filesz⟩

/-- The last dynamic segment, if there is one. -/
def dynOf (dyn : Option (ℕ × ℕ)) (hs : List ProgramHeader) : Option (ℕ × ℕ) :=
  hs.foldl (fun d g => if g.ptype = 2 then some (g.off, g.filesz) else d) dyn

theorem loadsOf_cons (g : ProgramHeader) (hs : List ProgramHeader) :
    loadsOf (g :: hs) =
      (if g.ptype = 1 then [⟨g.vaddr, g.off, g.filesz⟩] else []) ++ loadsOf hs := by
  rw [loadsOf, List.filter_cons]
  split
  · rename_i htype
    rw [if_pos (of_decide_eq_true htype)]
    rfl
  · rename_i htype
    rw [if_neg (fun heq => htype (decide_eq_true heq))]
    rfl

theorem dynOf_cons (dyn : Option (ℕ × ℕ)) (g : ProgramHeader) (hs : List ProgramHeader) :
    dynOf dyn (g :: hs) = dynOf (if g.ptype = 2 then some (g.off, g.filesz) else dyn) hs := rfl

theorem dynOf_none {hs : List ProgramHeader} (hnone : ∀ g ∈ hs, g.ptype ≠ 2)
    (dyn : Option (ℕ × ℕ)) : dynOf dyn hs = dyn := by
  induction hs generalizing dyn with
  | nil => rfl
  | cons g hs ih =>
      rw [dynOf_cons, if_neg (hnone g List.mem_cons_self)]
      exact ih (fun g hg => hnone g (List.mem_cons_of_mem _ hg)) dyn

/-- The one dynamic segment is the last. -/
theorem dynOf_some {hs : List ProgramHeader} {g : ProgramHeader} (hg : g ∈ hs)
    (htype : g.ptype = 2) (hone : ∀ g' ∈ hs, g'.ptype = 2 → g' = g) (dyn : Option (ℕ × ℕ)) :
    dynOf dyn hs = some (g.off, g.filesz) := by
  induction hs generalizing dyn with
  | nil => cases hg
  | cons g' hs ih =>
      have hrest : ∀ k ∈ hs, k.ptype = 2 → k = g := fun k hk =>
        hone k (List.mem_cons_of_mem _ hk)
      rw [dynOf_cons]
      by_cases hin : g ∈ hs
      · exact ih hin hrest _
      · obtain rfl := (List.mem_cons.mp hg).resolve_right hin
        rw [if_pos htype]
        refine dynOf_none (fun k hk hk2 => hin ?_) _
        rw [← hrest k hk hk2]
        exact hk

theorem lastValue_eq {entries : List (ℕ × ℕ)} {tag v : ℕ} (hv : (tag, v) ∈ entries)
    (hone : ∀ w, (tag, w) ∈ entries → w = v) : lastValue entries tag = some v := by
  rw [lastValue]
  cases hfind : entries.reverse.find? fun e => e.1 = tag with
  | none =>
      have hno := List.find?_eq_none.mp hfind (tag, v) (List.mem_reverse.mpr hv)
      simp at hno
  | some e =>
      obtain ⟨tag', w⟩ := e
      have htag : tag' = tag := by simpa using List.find?_some hfind
      subst htag
      rw [Option.map_some, hone w (List.mem_reverse.mp (List.mem_of_find?_eq_some hfind))]

theorem lastValue_none {entries : List (ℕ × ℕ)} {tag : ℕ} (hnone : ∀ w, (tag, w) ∉ entries) :
    lastValue entries tag = none := by
  rw [lastValue, Option.map_eq_none_iff, List.find?_eq_none]
  rintro ⟨tag', w⟩ hw htag
  have htag : tag' = tag := by simpa using htag
  exact hnone w (htag ▸ List.mem_reverse.mp hw)

/-- The first zero ends the string. -/
theorem findZero_eq {b s : List UInt8} {i stop : ℕ} (hs : 0 ∉ s)
    (hbytes : slice b i (s.length + 1) = s ++ [0]) (hstop : i + (s.length + 1) ≤ stop) :
    findZero b i stop = some (i + s.length) := by
  have hidx : ∀ t : List UInt8, (s ++ 0 :: t).findIdx (· = 0) = s.length := by
    intro t
    clear hbytes hstop
    induction s with
    | nil => rfl
    | cons c s ih =>
        have hc : c ≠ 0 := fun hc => hs (hc ▸ List.mem_cons_self)
        rw [List.cons_append, List.findIdx_cons, ih fun hmem => hs (List.mem_cons_of_mem c hmem)]
        simp [hc]
  have hall : slice b i (stop - i) =
      s ++ 0 :: slice b (i + (s.length + 1)) (stop - i - (s.length + 1)) := by
    have hsplit : slice b i (s.length + 1 + (stop - i - (s.length + 1))) =
        slice b i (s.length + 1) ++ slice b (i + (s.length + 1)) (stop - i - (s.length + 1)) :=
      slice_split
    rw [Nat.add_sub_of_le (by omega), hbytes, List.append_assoc] at hsplit
    exact hsplit
  rw [findZero, hall, hidx]
  simp

theorem rdropWhile_zeros {s : List UInt8} (hs : 0 ∉ s) (m : ℕ) :
    (s ++ List.replicate m 0).rdropWhile (· = (0 : UInt8)) = s := by
  induction m with
  | zero =>
      rw [List.replicate_zero, List.append_nil, List.rdropWhile_eq_self_iff]
      intro hne hzero
      exact hs (of_decide_eq_true hzero ▸ List.getLast_mem hne)
  | succ m ih =>
      rw [List.replicate_succ', ← List.append_assoc, List.rdropWhile_concat_pos _ _ _ (by simp), ih]

/-- Of the bytes of the segment, the string as far as it is read. -/
theorem rdropWhile_segment {s : List UInt8} (hs : 0 ∉ s) (k m : ℕ) :
    ((s ++ List.replicate (k + 1) 0).take m).rdropWhile (· = (0 : UInt8)) = s.take m := by
  rw [List.take_append, List.take_replicate]
  exact rdropWhile_zeros (fun hmem => hs (List.mem_of_mem_take hmem)) _

theorem Image.EntriesAt.entriesLoop_eq {off size : ℕ} (hat : e.EntriesAt f off size)
    (hin : off + size ≤ f.length) (hn : f.length ≤ n) {m k : ℕ}
    (hk : k ≤ e.entries.length) (hm : e.entries.length < k + m) :
    entriesLoop (e.reading f n) m (off + k * (e.word * 2)) = e.entries.drop k := by
  have hroom := hat.room
  induction m generalizing k with
  | zero => omega
  | succ m ih =>
      have hkroom : (k + 1) * (e.word * 2) ≤ size :=
        (Nat.mul_le_mul_right _ (Nat.succ_le_succ hk)).trans hroom
      rw [Nat.succ_mul] at hkroom
      rw [entriesLoop, Image.reading_W, Image.reading_u (by omega), Image.reading_u (by omega)]
      rcases Nat.lt_or_eq_of_le hk with hlt | rfl
      · have hget := List.getElem?_eq_getElem hlt
        obtain ⟨hne, htag, hval⟩ := hat.entry k e.entries[k].1 e.entries[k].2 hget
        have hnext := ih (k := k + 1) hlt (by omega)
        rw [Nat.succ_mul, ← Nat.add_assoc] at hnext
        rw [htag, hval, List.drop_eq_getElem_cons hlt, if_neg hne, hnext]
      · rw [hat.null, List.drop_length]
        exact if_pos rfl

theorem Image.EntriesAt.dynEntries_eq {off size : ℕ} (hat : e.EntriesAt f off size)
    (hin : off + size ≤ f.length) (hn : f.length ≤ n) :
    dynEntries (e.reading f n) off size = e.entries := by
  have hpos := e.word_pos
  have hroom := hat.room
  have hb : (e.reading f n).b.length = f.length := by
    rw [Image.reading, List.length_take, Nat.min_eq_right hn]
  have hcount : e.entries.length < 0 + rangeCount off
      (min (off + size) ((e.reading f n).b.length - e.word * 2 + 1)) (e.word * 2) := by
    rw [Nat.succ_mul] at hroom
    rw [hb, Nat.zero_add, rangeCount, Nat.lt_iff_add_one_le, Nat.le_div_iff_mul_le (by omega),
      Nat.succ_mul]
    omega
  have hloop := hat.entriesLoop_eq hin hn (Nat.zero_le _) hcount
  rw [Nat.zero_mul, Nat.add_zero, List.drop_zero] at hloop
  rw [dynEntries, Image.reading_W]
  exact hloop

namespace Image.In

variable (h : e.In f)

include h

theorem reader_eq (hn : 64 ≤ n) (hlen : 64 ≤ f.length) :
    reader (f.take n) = some (e.reading f n) := by
  have hget : ∀ i < n, (f.take n).getD i 0 = (f[i]?).getD 0 := by
    intro i hi
    rw [List.getD_eq_getElem?_getD, List.getElem?_take, if_pos hi]
  have hmagic : slice (f.take n) 0 4 = [0x7f, 0x45, 0x4c, 0x46] := by
    rw [slice_take (by omega), h.magic]
  have hwide : decide ((f.take n).getD 4 0 = 2) = e.wide := by
    rw [hget 4 (by omega), h.cls]
    cases e.wide <;> rfl
  have hlittle : decide ((f.take n).getD 5 0 = 1) = e.little := by
    rw [hget 5 (by omega), h.data]
    cases e.little <;> rfl
  rw [reader, if_neg, hwide, hlittle, Image.reading]
  rw [not_or, not_not]
  exact ⟨by rw [List.length_take]; omega, hmagic⟩

theorem reading_phoff (hn : 64 ≤ n) : (e.reading f n).phoff = e.phoff := by
  rw [Reader.phoff, reading_o, reading_W, reading_u, h.phoff]
  rw [Image.word]
  cases e.wide <;> exact le_trans (by decide) hn

theorem reading_phentsize (hn : 64 ≤ n) : (e.reading f n).phentsize = e.phentsize := by
  rw [Reader.phentsize, reading_o, reading_u, h.phentsize]
  rw [Image.word]
  cases e.wide <;> exact le_trans (by decide) hn

theorem reading_phnum (hn : 64 ≤ n) : (e.reading f n).phnum = e.headers.length := by
  rw [Reader.phnum, reading_o, reading_u, h.phnum]
  rw [Image.word]
  cases e.wide <;> exact le_trans (by decide) hn

/-- A program header that lies within what is read is read as it is. -/
theorem reading_header {i : ℕ} {g : ProgramHeader} (hg : e.headers[i]? = some g)
    (hp : e.headerStart i + e.phentsize ≤ n) :
    (e.reading f n).u (e.headerStart i) 4 = g.ptype ∧
      (e.reading f n).u (e.headerStart i + (e.reading f n).o.ptOff) (e.reading f n).W = g.off ∧
      (e.reading f n).u (e.headerStart i + (e.reading f n).o.ptVaddr) (e.reading f n).W =
        g.vaddr ∧
      (e.reading f n).u (e.headerStart i + (e.reading f n).o.ptFilesz) (e.reading f n).W =
        g.filesz := by
  have hat := h.header i g hg
  have hstride := h.stride (by rintro hnil; rw [hnil] at hg; cases hg)
  have htype : 4 ≤ (phdr e.wide).sum := by cases e.wide <;> decide
  have hoff : offsetOf (phdr e.wide) (if e.wide then 2 else 1) + e.word ≤ (phdr e.wide).sum := by
    rw [Image.word]
    cases e.wide <;> decide
  have hvaddr : offsetOf (phdr e.wide) (if e.wide then 3 else 2) + e.word ≤ (phdr e.wide).sum := by
    rw [Image.word]
    cases e.wide <;> decide
  have hfilesz : offsetOf (phdr e.wide) (if e.wide then 5 else 4) + e.word ≤
      (phdr e.wide).sum := by
    rw [Image.word]
    cases e.wide <;> decide
  rw [reading_W, reading_o]
  refine ⟨?_, ?_, ?_, ?_⟩
  · rw [reading_u (by omega), hat.ptype]
  · rw [reading_u (by dsimp only; omega), hat.off]
  · rw [reading_u (by dsimp only; omega), hat.vaddr]
  · rw [reading_u (by dsimp only; omega), hat.filesz]

theorem header_inside {k : ℕ} {g : ProgramHeader} (hk : e.headers[k]? = some g) :
    e.headerStart k + e.phentsize ≤ f.length := by
  have hklen := (List.getElem?_eq_some_iff.mp hk).1
  have hend := h.table (by rintro hnil; rw [hnil] at hk; cases hk)
  have hnext : e.headerStart (k + 1) ≤ e.headerStart e.headers.length :=
    Nat.add_le_add_left (Nat.mul_le_mul_right _ hklen) _
  rw [headerStart, Nat.succ_mul] at hnext
  rw [headerStart]
  omega

theorem interpLoop_none (hn : 64 ≤ n) {m i : ℕ} (hm : i + m = e.headers.length)
    (hnone : ∀ j g, i ≤ j → e.headers[j]? = some g → g.ptype ≠ 3) :
    interpLoop (e.reading f n) m i = none := by
  induction m generalizing i with
  | zero => rfl
  | succ m ih =>
      rw [interpLoop, h.reading_phoff hn, h.reading_phentsize hn, ← headerStart]
      split
      · rfl
      · rename_i hin
        have hi : i < e.headers.length := by omega
        have hget := List.getElem?_eq_getElem hi
        have hp : e.headerStart i + e.phentsize ≤ n := by
          have hlen := List.length_take_le n f
          change ¬ (f.take n).length < _ at hin
          omega
        rw [(h.reading_header hget hp).1, if_neg (hnone i _ (Nat.le_refl i) hget)]
        exact ih (by omega) fun j g hj => hnone j g (by omega)

theorem interpLoop_some (hn : 64 ≤ n) {k : ℕ} {g : ProgramHeader} (hk : e.headers[k]? = some g)
    (hg : g.ptype = 3) {m i : ℕ} (hm : i + m = e.headers.length) (hi : i ≤ k) :
    interpLoop (e.reading f n) m i =
      if (f.take n).length < e.headerStart k + e.phentsize then none
      else some ((slice (f.take n) g.off g.filesz).rdropWhile (· = 0)) := by
  have hklen := (List.getElem?_eq_some_iff.mp hk).1
  induction m generalizing i with
  | zero => omega
  | succ m ih =>
      have hstart : e.headerStart i ≤ e.headerStart k :=
        Nat.add_le_add_left (Nat.mul_le_mul_right _ hi) _
      rw [interpLoop, h.reading_phoff hn, h.reading_phentsize hn, ← headerStart]
      change (if (f.take n).length < _ then _ else _) = _
      split
      · rw [if_pos (by omega)]
      · rename_i hin
        have hget := List.getElem?_eq_getElem (show i < e.headers.length by omega)
        have hp : e.headerStart i + e.phentsize ≤ n := by
          have hlen := List.length_take_le n f
          omega
        rcases Nat.lt_or_eq_of_le hi with hlt | rfl
        · have hother : e.headers[i].ptype ≠ 3 := by
            intro htype
            have hik := h.one i k _ g hget hk (by rw [htype, hg]) (.inr htype)
            omega
          rw [(h.reading_header hget hp).1, if_neg hother]
          exact ih (by omega) hlt
        · obtain ⟨htype, hoff, -, hfilesz⟩ := h.reading_header hk hp
          rw [htype, if_pos hg, hoff, hfilesz, if_neg hin]
          rfl

theorem elfInterp_none (hnone : e.interp = none) : elfInterp (some f) = none := by
  have htypes := h.interp_none.mpr hnone
  by_cases hlen : f.length < 64
  · have hread : reader (f.take window) = none := by
      rw [reader, if_pos (.inl (by rw [List.length_take]; omega))]
    simp [elfInterp, hread]
  · have hread : reader (f.take window) = some (e.reading f window) :=
      h.reader_eq (by decide) (by omega)
    have hloop := h.interpLoop_none (n := window) (by decide) (Nat.zero_add _)
      fun j g _ hg => htypes g (List.mem_of_getElem? hg)
    simp [elfInterp, hread, h.reading_phnum (n := window) (by decide), hloop]

theorem elfInterp_some {k : ℕ} {g : ProgramHeader} (hk : e.headers[k]? = some g)
    (hg : g.ptype = 3) {s : List UInt8} (hs : e.interp = some s) :
    elfInterp (some f) =
      if f.length < 64 ∨ window < e.headerStart k + e.phentsize then none
      else some (decode (s.take (window - g.off))) := by
  obtain ⟨hzero, j, hslice⟩ := h.interp_some g (List.mem_of_getElem? hk) hg s hs
  have htable := h.header_inside hk
  by_cases hlen : f.length < 64
  · have hread : reader (f.take window) = none := by
      rw [reader, if_pos (.inl (by rw [List.length_take]; omega))]
    simp [elfInterp, hread, hlen]
  · have hread : reader (f.take window) = some (e.reading f window) :=
      h.reader_eq (by decide) (by omega)
    have hloop := h.interpLoop_some (n := window) (by decide) hk hg (Nat.zero_add _)
      (Nat.zero_le k)
    have htext : (slice (f.take window) g.off g.filesz).rdropWhile (· = 0) =
        s.take (window - g.off) := by
      have hpart : slice (f.take window) g.off g.filesz =
          (slice f g.off g.filesz).take (window - g.off) := by
        rw [slice, slice, List.drop_take, List.take_take, List.take_take, Nat.min_comm]
      rw [hpart, hslice, rdropWhile_segment hzero]
    rw [htext] at hloop
    simp only [elfInterp, hread, h.reading_phnum (n := window) (by decide), hloop,
      Option.bind_eq_bind, Option.bind_some, List.length_take]
    by_cases hout : window < e.headerStart k + e.phentsize
    · rw [if_pos (by omega), if_pos (.inr hout)]
      rfl
    · rw [if_neg (by omega), if_neg (by omega)]
      rfl

theorem headersLoop_eq (hn : 64 ≤ n) (hlen : f.length ≤ n) {m i : ℕ}
    (hm : i + m = e.headers.length) (loads : List Load) (dyn : Option (ℕ × ℕ)) :
    headersLoop (e.reading f n) m i loads dyn =
      some (loads ++ loadsOf (e.headers.drop i), dynOf dyn (e.headers.drop i)) := by
  induction m generalizing i loads dyn with
  | zero =>
      rw [headersLoop, List.drop_of_length_le (by omega), loadsOf, dynOf]
      simp
  | succ m ih =>
      have hi : i < e.headers.length := by omega
      have hget := List.getElem?_eq_getElem hi
      have hp : e.headerStart i + e.phentsize ≤ f.length := h.header_inside hget
      obtain ⟨htype, hoff, hvaddr, hfilesz⟩ := h.reading_header hget (hp.trans hlen)
      have hb : (e.reading f n).b.length = f.length := by
        rw [Image.reading, List.length_take, Nat.min_eq_right hlen]
      have ih := @ih (i + 1) (by omega)
      rw [headersLoop, h.reading_phoff hn, h.reading_phentsize hn, ← headerStart, hb,
        if_neg (by omega), htype, hoff, hvaddr, hfilesz, List.drop_eq_getElem_cons hi]
      dsimp only
      rw [ih, ih, ih, loadsOf_cons, dynOf_cons]
      by_cases hload : e.headers[i].ptype = 1
      · simp [hload]
      · by_cases hdyn : e.headers[i].ptype = 2
        · simp [hdyn]
        · simp [hload, hdyn]

theorem v2o_eq {g : ProgramHeader} (hg : g ∈ e.headers ∧ g.ptype = 1) {v : ℕ}
    (hv : g.vaddr ≤ v ∧ v < g.vaddr + g.filesz) :
    v2o (loadsOf e.headers) v = some (g.off + (v - g.vaddr)) := by
  rw [v2o]
  cases hfind : (loadsOf e.headers).find?
      fun l => l.vaddr ≤ v && v < l.vaddr + l.filesz with
  | none =>
      have hmem : (⟨g.vaddr, g.off, g.filesz⟩ : Load) ∈ loadsOf e.headers :=
        List.mem_map.mpr ⟨g, List.mem_filter.mpr ⟨hg.1, decide_eq_true hg.2⟩, rfl⟩
      have hno := List.find?_eq_none.mp hfind _ hmem
      simp [hv] at hno
  | some l =>
      obtain ⟨g', hg', rfl⟩ := List.mem_map.mp (List.mem_of_find?_eq_some hfind)
      obtain ⟨hmem, htype⟩ := List.mem_filter.mp hg'
      have hrange := List.find?_some hfind
      rw [Bool.and_eq_true, decide_eq_true_eq, decide_eq_true_eq] at hrange
      obtain rfl := h.apart g' hmem g hg.1 (of_decide_eq_true htype) hg.2 v hrange hv
      rfl

theorem str_eq {strtab idx : ℕ} {g : ProgramHeader} (hat : e.StringAt f strtab idx g) :
    str f (g.off + (strtab - g.vaddr)) (lastValue e.entries 10) idx = e.strings idx := by
  have hin := hat.inside
  have hfile := h.segment g hat.load.1 (.inl hat.load.2)
  have hstop : g.off + (strtab - g.vaddr) + idx + ((e.strings idx).length + 1) ≤
      if (lastValue e.entries 10).getD 0 = 0 then f.length
      else g.off + (strtab - g.vaddr) + (lastValue e.entries 10).getD 0 := by
    by_cases hsized : ∃ z, (10, z) ∈ e.entries
    · obtain ⟨z, hz⟩ := hsized
      have hone := lastValue_eq hz fun w hw => h.tag_once 10 (by simp) w z hw hz
      have hle := hat.sized z hz
      rw [hone, Option.getD_some, if_neg (by omega)]
      omega
    · have hnone := lastValue_none (fun w hw => hsized ⟨w, hw⟩)
      rw [hnone, Option.getD_none, if_pos rfl]
      omega
  have hfind := findZero_eq hat.text hat.bytes hstop
  have hpos : 0 < g.off + (strtab - g.vaddr) + idx + (e.strings idx).length := by
    rw [Nat.pos_iff_ne_zero]
    intro hzero
    have hbytes := hat.bytes
    have hnil : e.strings idx = [] := List.length_eq_zero_iff.mp (by omega)
    have hfirst : slice f 0 1 = [0] := by
      rw [hnil, show g.off + (strtab - g.vaddr) + idx = 0 by omega] at hbytes
      exact hbytes
    have hmagic := congrArg (List.take 1) h.magic
    rw [slice, List.take_take] at hmagic
    rw [slice] at hfirst
    rw [show min 1 4 = 1 from rfl, hfirst] at hmagic
    cases hmagic
  rw [str, if_neg (by omega)]
  dsimp only
  rw [hfind]
  dsimp only
  rw [if_pos hpos, Nat.add_sub_cancel_left]
  have htake := congrArg (List.take (e.strings idx).length) hat.bytes
  rw [slice, List.take_take, List.take_left] at htake
  rwa [Nat.min_eq_left (Nat.le_succ _)] at htake

/-- The soname and the needed names, by the entries of the dynamic section. -/
theorem dynNames_eq {off size : ℕ} (hat : e.EntriesAt f off size)
    (hin : off + size ≤ f.length) :
    dynNames (e.reading f f.length) (loadsOf e.headers) off size = (e.soname, e.needed) := by
  have hentries := hat.dynEntries_eq hin (Nat.le_refl _)
  have hb : (e.reading f f.length).b = f := List.take_length
  rw [dynNames, hentries, hb]
  by_cases hany : ∃ tag idx, (tag, idx) ∈ e.entries ∧ (tag = 1 ∨ tag = 14)
  · obtain ⟨tag₀, idx₀, hmem₀, htag₀⟩ := hany
    obtain ⟨strtab, g, hstrtab, hat₀⟩ := h.string tag₀ idx₀ hmem₀ htag₀
    have hfive := lastValue_eq hstrtab fun w hw => h.tag_once 5 (by simp) w strtab hw hstrtab
    have hbase := h.v2o_eq hat₀.load hat₀.addr
    have hstr : ∀ tag idx, (tag, idx) ∈ e.entries → tag = 1 ∨ tag = 14 →
        str f (g.off + (strtab - g.vaddr)) (lastValue e.entries 10) idx = e.strings idx := by
      intro tag idx hmem htag
      obtain ⟨strtab', g', hstrtab', hat'⟩ := h.string tag idx hmem htag
      obtain rfl := h.tag_once 5 (by simp) strtab' strtab hstrtab' hstrtab
      have hsame := Option.some.inj ((h.v2o_eq hat'.load hat'.addr).symm.trans hbase)
      rw [← hsame, h.str_eq hat']
    rw [hfive, Option.bind_some, hbase]
    refine Prod.ext ?_ (List.map_congr_left fun x hx => ?_)
    · rw [Image.soname]
      cases hfind : e.entries.find? fun x => x.1 = 14 with
      | none =>
          have hno : ∀ w, (14, w) ∉ e.entries := fun w hw => by
            simpa using List.find?_eq_none.mp hfind _ hw
          rw [lastValue_none hno]
          rfl
      | some x =>
          obtain ⟨tag, v⟩ := x
          have htag : tag = 14 := by simpa using List.find?_some hfind
          subst htag
          have hmem := List.mem_of_find?_eq_some hfind
          have hlast := lastValue_eq hmem fun w hw => h.tag_once 14 (by simp) w v hw hmem
          rw [hlast]
          exact congrArg some (hstr 14 v hmem (.inr rfl))
    · obtain ⟨hmem, htag⟩ := List.mem_filter.mp hx
      exact hstr x.1 x.2 hmem (.inl (of_decide_eq_true htag))
  · have hno : ∀ tag, tag = 1 ∨ tag = 14 → ∀ w, (tag, w) ∉ e.entries :=
      fun tag htag w hw => hany ⟨tag, w, hw, htag⟩
    obtain ⟨hsoname, hneeded⟩ := e.names_none hno
    have hfilter : (e.entries.filter fun x => x.1 = 1) = [] := by
      rwa [Image.needed, List.map_eq_nil_iff] at hneeded
    rw [hsoname, hneeded, hfilter, lastValue_none (hno 14 (.inr rfl))]
    cases (lastValue e.entries 5).bind (v2o (loadsOf e.headers)) with
    | none => rfl
    | some base => rfl

/-- Two program headers and the file header take 64 bytes. -/
theorem names_of_short (hlen : f.length < 64) : e.soname = none ∧ e.needed = [] := by
  refine e.names_none fun tag htag w hw => ?_
  obtain ⟨strtab, g, -, hat⟩ := h.string tag w hw htag
  obtain ⟨i, hi⟩ := List.mem_iff_getElem?.mp hat.load.1
  have hdyn : ∃ k ∈ e.headers, k.ptype = 2 := by
    by_contra hno
    have hnil := h.dynamic_none fun k hk hk2 => hno ⟨k, hk, hk2⟩
    rw [hnil] at hw
    cases hw
  obtain ⟨k, hk, hk2⟩ := hdyn
  obtain ⟨j, hj⟩ := List.mem_iff_getElem?.mp hk
  have hne : i ≠ j := by
    rintro rfl
    obtain rfl := Option.some.inj (hi.symm.trans hj)
    rw [hat.load.2] at hk2
    cases hk2
  have hstride := h.stride (List.ne_nil_of_mem hk)
  have hsize : 32 ≤ (phdr e.wide).sum := by cases e.wide <;> decide
  have hinside : ∀ m p, 1 ≤ m → e.headers[m]? = some p → 64 ≤ f.length := by
    intro m p hm hp
    have hend := h.header_inside hp
    have hmul : e.phentsize ≤ m * e.phentsize := Nat.le_mul_of_pos_left _ hm
    rw [headerStart] at hend
    omega
  rcases Nat.eq_zero_or_pos i with rfl | hpos
  · exact absurd (hinside j k (by omega) hj) (by omega)
  · exact absurd (hinside i g hpos hi) (by omega)

theorem elfDynamic_eq :
    elfDynamic (some f) = (e.soname.map decode, e.needed.map decode) := by
  rw [elfDynamic, Option.bind_some]
  by_cases hlen : f.length < 64
  · obtain ⟨hsoname, hneeded⟩ := h.names_of_short hlen
    rw [reader, if_pos (.inl hlen), hsoname, hneeded]
    rfl
  · have hread := h.reader_eq (n := f.length) (by omega) (by omega)
    rw [List.take_length] at hread
    have hloop := h.headersLoop_eq (n := f.length) (by omega) (Nat.le_refl _) (Nat.zero_add _)
      [] none
    rw [List.drop_zero, List.nil_append] at hloop
    rw [hread]
    dsimp only
    rw [h.reading_phnum (by omega), hloop]
    by_cases hdyn : ∃ g ∈ e.headers, g.ptype = 2
    · obtain ⟨g, hg, htype⟩ := hdyn
      obtain ⟨i, hi⟩ := List.mem_iff_getElem?.mp hg
      have hone : ∀ g' ∈ e.headers, g'.ptype = 2 → g' = g := by
        intro g' hg' htype'
        obtain ⟨j, hj⟩ := List.mem_iff_getElem?.mp hg'
        obtain rfl := h.one j i g' g hj hi (by rw [htype, htype']) (.inl htype')
        exact Option.some.inj (hj.symm.trans hi)
      have hnames := h.dynNames_eq (h.dynamic_some g hg htype)
        (h.segment g hg (.inr (.inl htype)))
      rw [dynOf_some hg htype hone]
      dsimp only
      rw [hnames]
    · have hnone : ∀ g ∈ e.headers, g.ptype ≠ 2 := fun g hg htype => hdyn ⟨g, hg, htype⟩
      have hnil := h.dynamic_none hnone
      obtain ⟨hsoname, hneeded⟩ := e.names_none fun tag _ w hw => by rw [hnil] at hw; cases hw
      rw [dynOf_none hnone, hsoname, hneeded]
      rfl

end Image.In

/-- Only so much of the file is looked at. -/
theorem elfInterp_window (f : List UInt8) :
    elfInterp (some f) = elfInterp (some (f.take window)) := by
  have htake : (f.take window).take window = f.take window := by
    rw [List.take_take, Nat.min_self]
  simp only [elfInterp, Option.bind_eq_bind, Option.bind_some, htake]

/-- The program headers up to that of the interpreter are in the window, and its name
as far as the text goes. -/
def Image.InWindow (e : Image) (f : List UInt8) : Prop :=
  ∀ k g s, e.headers[k]? = some g → g.ptype = 3 → e.interp = some s →
    64 ≤ f.length ∧ e.headerStart k + e.phentsize ≤ window ∧
      decode (s.take (window - g.off)) = decode s

/-- What is read of an ELF file is what it says, exactly when the interpreter is in
the window. -/
theorem image_read_iff (h : e.In f) :
    elfInterp (some f) = elfInterp (some (f.take window)) ∧
      (elfInterp (some f) = e.interp.map decode ∧
        elfDynamic (some f) = (e.soname.map decode, e.needed.map decode) ↔ e.InWindow f) := by
  refine ⟨elfInterp_window f, ?_⟩
  rw [h.elfDynamic_eq, and_iff_left rfl]
  cases hinterp : e.interp with
  | none =>
      rw [h.elfInterp_none hinterp]
      refine iff_of_true rfl fun k g s _ _ hs => ?_
      rw [hinterp] at hs
      cases hs
  | some s =>
      have hsome : ∃ g ∈ e.headers, g.ptype = 3 := by
        by_contra hno
        have hnone := h.interp_none.mp fun g hg htype => hno ⟨g, hg, htype⟩
        rw [hinterp] at hnone
        cases hnone
      obtain ⟨g, hg, htype⟩ := hsome
      obtain ⟨k, hk⟩ := List.mem_iff_getElem?.mp hg
      rw [h.elfInterp_some hk htype hinterp, Option.map_some]
      constructor
      · intro heq k' g' s' hk' htype' hs'
        obtain rfl := h.one k k' g g' hk hk' (by rw [htype, htype']) (.inr htype)
        obtain rfl := Option.some.inj (hk.symm.trans hk')
        obtain rfl := Option.some.inj (hinterp.symm.trans hs')
        split at heq
        · cases heq
        · rename_i hin
          rw [not_or, Nat.not_lt, Nat.not_lt] at hin
          exact ⟨hin.1, hin.2, Option.some.inj heq⟩
      · intro hin
        obtain ⟨hlen, hwindow, htext⟩ := hin k g s hk htype hinterp
        rw [if_neg (by omega), htext]

end

/-- `/ld`. -/
def samplePath : List UInt8 := [0x2f, 0x6c, 0x64]

/-- The header of the file but for the place of the program headers. -/
def sampleHead : List UInt8 :=
  [0x7f, 0x45, 0x4c, 0x46, 2, 1, 1, 0, 0, 0, 0, 0, 0, 0, 0, 0] ++
    [3, 0, 0xb7, 0, 1, 0, 0, 0, 0, 0, 0, 0, 0, 0, 0, 0]

def sampleSizes : List UInt8 :=
  [0, 0, 0, 0, 0, 0, 0, 0, 0, 0, 0, 0, 64, 0, 56, 0, 1, 0, 0, 0, 0, 0, 0, 0]

/-- The program header with the name after it. -/
def sampleSegment (gap : ℕ) : List UInt8 :=
  [3, 0, 0, 0, 4, 0, 0, 0] ++ (leBytes 8 (120 + gap) ++ (List.replicate 16 0 ++
    ([4, 0, 0, 0, 0, 0, 0, 0, 4, 0, 0, 0, 0, 0, 0, 0, 1, 0, 0, 0, 0, 0, 0, 0] ++
      (samplePath ++ [0]))))

/-- `gap` bytes stand between the file header and the program header. -/
def sampleFile (gap : ℕ) : List UInt8 :=
  (sampleHead ++ (leBytes 8 (64 + gap) ++ sampleSizes)) ++
    (List.replicate gap 0 ++ sampleSegment gap)

def sampleImage (gap : ℕ) : Image where
  wide := true
  little := true
  phoff := 64 + gap
  phentsize := 56
  headers := [⟨3, 120 + gap, 0, 4⟩]
  interp := some samplePath
  entries := []
  strings _ := []

theorem slice_sampleFile_head {gap off n : ℕ} (h : off + n ≤ 64) :
    slice (sampleFile gap) off n =
      slice (sampleHead ++ (leBytes 8 (64 + gap) ++ sampleSizes)) off n := by
  rw [sampleFile, slice_append_left]
  simpa [sampleHead, sampleSizes] using h

theorem slice_sampleFile_segment {gap off n : ℕ} :
    slice (sampleFile gap) (64 + gap + off) n = slice (sampleSegment gap) off n := by
  have hhead : (sampleHead ++ (leBytes 8 (64 + gap) ++ sampleSizes)).length = 64 := by
    simp [sampleHead, sampleSizes]
  rw [sampleFile, slice_append_right (by omega), hhead, slice_append_right]
  · rw [List.length_replicate]
    congr 1
    omega
  · rw [List.length_replicate]
    omega

theorem sampleFile_length (gap : ℕ) : (sampleFile gap).length = 124 + gap := by
  simp [sampleFile, sampleHead, sampleSizes, sampleSegment, samplePath]
  omega

theorem leValue_place {v : ℕ} (hv : v < 2 ^ 64) : leValue (leBytes 8 v) = v := by
  rw [leValue_leBytes, Nat.mod_eq_of_lt (lt_of_lt_of_le hv (by decide))]

theorem sampleHeader_at {gap : ℕ} (hgap : gap ≤ 2 ^ 32) :
    (sampleImage gap).HeaderAt (sampleFile gap) (64 + gap) ⟨3, 120 + gap, 0, 4⟩ where
  ptype := by
    change leValue (slice (sampleFile gap) (64 + gap + 0) 4) = 3
    rw [slice_sampleFile_segment]
    rfl
  off := by
    change leValue (slice (sampleFile gap) (64 + gap + 8) 8) = 120 + gap
    have hplace : slice (sampleSegment gap) 8 8 = leBytes 8 (120 + gap) :=
      slice_middle _ _ rfl (leBytes_length _ _)
    rw [slice_sampleFile_segment, hplace, leValue_place (by omega)]
  vaddr := by
    change leValue (slice (sampleFile gap) (64 + gap + 16) 8) = 0
    rw [slice_sampleFile_segment]
    rfl
  filesz := by
    change leValue (slice (sampleFile gap) (64 + gap + 32) 8) = 4
    rw [slice_sampleFile_segment]
    rfl

theorem sampleFile_in {gap : ℕ} (hgap : gap ≤ 2 ^ 32) : (sampleImage gap).In (sampleFile gap) where
  magic := by
    rw [slice_sampleFile_head (by decide)]
    rfl
  cls := rfl
  data := rfl
  full := by
    rw [sampleFile_length]
    exact le_trans (by decide : 64 ≤ 124) (Nat.le_add_right _ _)
  phoff := by
    change leValue (slice (sampleFile gap) 32 8) = 64 + gap
    have hplace : slice (sampleHead ++ (leBytes 8 (64 + gap) ++ sampleSizes)) 32 8 =
        leBytes 8 (64 + gap) := slice_middle _ _ rfl (leBytes_length _ _)
    rw [slice_sampleFile_head (by decide), hplace, leValue_place (by omega)]
  phentsize := by
    change leValue (slice (sampleFile gap) 54 2) = 56
    rw [slice_sampleFile_head (by decide)]
    rfl
  phnum := by
    change leValue (slice (sampleFile gap) 56 2) = 1
    rw [slice_sampleFile_head (by decide)]
    rfl
  few := Nat.one_lt_succ_succ _
  stride _ := Nat.le_refl 56
  table _ := by
    change 64 + gap + 1 * 56 ≤ _
    rw [sampleFile_length]
    omega
  header i g hg := by
    cases i with
    | zero =>
        obtain rfl := Option.some.inj hg
        have hstart : (sampleImage gap).headerStart 0 = 64 + gap := by
          rw [Image.headerStart, Nat.zero_mul]
          rfl
        rw [hstart]
        exact sampleHeader_at hgap
    | succ i => cases hg
  segment g hg _ := by
    obtain rfl := List.mem_singleton.mp hg
    rw [sampleFile_length]
    change 120 + gap + 4 ≤ _
    omega
  apart g hg g' hg' _ _ _ _ _ := by
    rw [List.mem_singleton.mp hg, List.mem_singleton.mp hg']
  one i j g g' hg hg' _ _ := by
    cases i with
    | zero =>
        cases j with
        | zero => rfl
        | succ j => cases hg'
    | succ i => cases hg
  interp_none := by
    refine iff_of_false (fun h => h _ (List.mem_singleton_self _) rfl) (by simp [sampleImage])
  interp_some g hg _ s hs := by
    obtain rfl := List.mem_singleton.mp hg
    obtain rfl := Option.some.inj hs
    refine ⟨by decide, 0, ?_⟩
    change slice (sampleFile gap) (120 + gap) 4 = _
    rw [show 120 + gap = 64 + gap + 56 by omega, slice_sampleFile_segment]
    rfl
  dynamic_none _ := rfl
  dynamic_some g hg htype := by
    obtain rfl := List.mem_singleton.mp hg
    cases htype
  tag_once _ _ _ _ hv := by cases hv
  string _ _ hmem := by cases hmem

/-- The program header and the name are next to the file header. -/
theorem image_read_iff_sample : elfInterp (some (sampleFile 0)) = some ['/', 'l', 'd'] := by
  have hin : (sampleImage 0).InWindow (sampleFile 0) := by
    intro k g s hk _ hs
    obtain rfl := Option.some.inj hs
    cases k with
    | zero =>
        obtain rfl := Option.some.inj hk
        refine ⟨by rw [sampleFile_length]; decide, by decide, ?_⟩
        rw [List.take_of_length_le (by decide)]
    | succ k => cases hk
  exact ((image_read_iff (sampleFile_in (Nat.zero_le _))).2.mpr hin).1

/-- The program header stands behind the window. -/
theorem elfInterp_behind : (sampleImage window).In (sampleFile window) ∧
    elfInterp (some (sampleFile window)) ≠ (sampleImage window).interp.map decode := by
  have hin : (sampleImage window).In (sampleFile window) := sampleFile_in (by decide)
  refine ⟨hin, ?_⟩
  rw [hin.elfInterp_some (k := 0) rfl rfl rfl, if_pos (.inr (by decide))]
  simp [sampleImage]

end Veron.Elf
