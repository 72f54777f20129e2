/-
What a reader finds in an image after veron-mkgpt has written a layout into it.
-/
import Veron.EfiVar
import Veron.MkFatEntries
import Veron.MkGpt

namespace Veron

/-- The GUID of an entry that is not used. -/
def Guid.nil : Guid := ⟨0, 0, 0, List.replicate 8 0⟩

theorem Guid.ofSignature_inj {p q : List UInt8} (hp : p.length = 16) (hq : q.length = 16)
    (h : Guid.ofSignature p = Guid.ofSignature q) : p = q := by
  have hsplit : ∀ l : List UInt8,
      l = l.take 4 ++ ((l.drop 4).take 2 ++ ((l.drop 6).take 2 ++ l.drop 8)) := by
    intro l
    rw [show l.drop 8 = (l.drop 6).drop 2 by rw [List.drop_drop], List.take_append_drop,
      show l.drop 6 = (l.drop 4).drop 2 by rw [List.drop_drop], List.take_append_drop,
      List.take_append_drop]
  obtain ⟨hone, htwo, hthree, hfour⟩ := Guid.mk.inj h
  rw [hsplit p, hsplit q, EfiVar.leValue_inj (by simp [hp, hq]) hone,
    EfiVar.leValue_inj (by simp [hp, hq]) htwo, EfiVar.leValue_inj (by simp [hp, hq]) hthree, hfour]

namespace MkGpt

open Fat32 (decodeUnits readUnits)
open Gpt (crc32 readHeader readEntries readPart partitions structures Apart Partition)
open MkFat (utf16)

theorem bind_ok {α β : Type} {x : Except Error α} {f : α → Except Error β} {a : α}
    (h : x = .ok a) : x >>= f = f a := by
  rw [h]
  rfl

/-- Thirty-two digits in pairs, with dashes between pairs. -/
def ValidGuid (text : List Char) : Prop := Undivided 16 text ∧ (digits text).length = 32

/-- The GUID a text writes. -/
def textGuid (text : List Char) : Guid := EfiBoot.textGuid (argument text)

/-- A number of 64 bits. -/
def Is64 (v : ℤ) : Prop := 0 ≤ v ∧ v < 2 ^ 64

structure Part.Valid (p : Part) : Prop where
  typeGuid : ValidGuid p.typeGuid
  guid : ValidGuid p.guid
  first : Is64 p.first
  last : Is64 p.last
  attrs : Is64 p.attrs
  name : (p.name.flatMap utf16).length ≤ 36

structure Layout.Valid (l : Layout) : Prop where
  diskGuid : ValidGuid l.diskGuid
  parts : ∀ p ∈ l.parts, p.Valid
  count : l.parts.length ≤ 128

/-- What a reader can know of a partition: nothing if its type is the one of an entry
not used, and of its name what stands before a zero character. -/
def Part.decoded (p : Part) : Option Partition :=
  if textGuid p.typeGuid = Guid.nil then none
  else
    some ⟨textGuid p.typeGuid, textGuid p.guid, p.first.toNat, p.last.toNat, p.attrs.toNat,
      p.name.takeWhile (· ≠ '\x00')⟩

theorem pack_of_is64 {v : ℤ} (h : Is64 v) : pack 8 v = .ok (leBytes 8 v.toNat) := by
  have hpow : (2 : ℤ) ^ 64 = 256 ^ 8 := by decide
  have hlt := h.2
  rw [hpow] at hlt
  rw [pack, if_pos ⟨h.1, hlt⟩]

theorem Is64.toNat_lt {v : ℤ} (h : Is64 v) : v.toNat < 256 ^ 8 := by
  obtain ⟨hnonneg, hlt⟩ := h
  omega

theorem pack16s_eq {bs : List UInt8} (h : bs.length = 16) : pack16s bs = bs := by
  rw [pack16s, List.take_of_length_le h.le, h]
  exact List.append_nil bs

theorem guidField_of_valid {text : List Char} (h : ValidGuid text) :
    ∃ g, guidField text = .ok g ∧ g.length = 16 ∧ Guid.ofSignature g = textGuid text := by
  have hsome := (efiGuidBytes_isSome_iff text).mpr h.1
  obtain ⟨g, hg⟩ := Option.isSome_iff_exists.mp hsome
  obtain ⟨hlen, hsig⟩ := EfiBoot.guidBytes_spec hg
  rw [guidBytes_eq_of_undivided h.1 h.2] at hg
  refine ⟨g, ?_, hlen, hsig⟩
  rw [guidField, if_neg (not_not.mpr h.2), hg]
  exact congrArg Except.ok (pack16s_eq hlen)

theorem packPart_of_valid {p : Part} (h : p.Valid) :
    ∃ t g, packPart p = .ok (t ++ (g ++ (leBytes 8 p.first.toNat ++ (leBytes 8 p.last.toNat ++
        leBytes 8 p.attrs.toNat)))) ∧
      t.length = 16 ∧ g.length = 16 ∧ Guid.ofSignature t = textGuid p.typeGuid ∧
      Guid.ofSignature g = textGuid p.guid := by
  obtain ⟨t, ht, htlen, htsig⟩ := guidField_of_valid h.typeGuid
  obtain ⟨g, hg, hglen, hgsig⟩ := guidField_of_valid h.guid
  refine ⟨t, g, ?_, htlen, hglen, htsig, hgsig⟩
  rw [packPart, bind_ok ht, bind_ok hg, bind_ok (pack_of_is64 h.first),
    bind_ok (pack_of_is64 h.last), bind_ok (pack_of_is64 h.attrs)]
  rfl

/-- A zero unit stands for a zero character. -/
theorem takeWhile_units (name : List Char) :
    (name.flatMap utf16).takeWhile (· ≠ 0) = (name.takeWhile (· ≠ '\x00')).flatMap utf16 := by
  induction name with
  | nil => rfl
  | cons c name ih =>
      by_cases hc : c = '\x00'
      · subst hc
        rfl
      · have hne : c.toNat ≠ 0 := fun h => hc (Char.toNat_inj.mp h)
        have hunits : ∀ u ∈ utf16 c, decide (u ≠ 0) = true := fun u hu =>
          decide_eq_true (MkFat.utf16_ne_zero hne u hu)
        rw [List.flatMap_cons, List.takeWhile_append_of_pos hunits, ih,
          List.takeWhile_cons_of_pos (by simpa using hc), List.flatMap_cons]

theorem readUnits_zeros (n : ℕ) : ∀ u ∈ readUnits (List.replicate n 0), u = 0 := by
  induction n using Nat.strongRecOn with
  | _ n ih =>
      match n with
      | 0 | 1 => exact nofun
      | n + 2 =>
          intro u hu
          rw [List.replicate_succ, List.replicate_succ, readUnits] at hu
          rcases List.mem_cons.mp hu with rfl | hu
          · rfl
          · exact ih n (by omega) u hu

theorem takeWhile_append_stop {us zs : List ℕ} (h : ∀ u ∈ zs, u = 0) :
    (us ++ zs).takeWhile (· ≠ 0) = us.takeWhile (· ≠ 0) := by
  induction us with
  | nil =>
      cases zs with
      | nil => rfl
      | cons z zs => rw [List.nil_append, h z List.mem_cons_self]; rfl
  | cons u us ih =>
      rw [List.cons_append, List.takeWhile_cons, List.takeWhile_cons, ih]

theorem nameBytes_length (name : List Char) :
    (nameBytes name).length = 2 * (name.flatMap utf16).length := by
  rw [nameBytes]
  induction name.flatMap utf16 with
  | nil => rfl
  | cons u us ih =>
      rw [List.flatMap_cons, List.length_append, ih, leBytes_length, List.length_cons]
      omega

theorem decode_name {name : List Char} (h : (name.flatMap utf16).length ≤ 36) :
    decodeUnits ((readUnits ((nameBytes name ++
      List.replicate (72 - (nameBytes name).length) 0).take 72)).takeWhile (· ≠ 0)) =
        name.takeWhile (· ≠ '\x00') := by
  have hlen : (nameBytes name ++ List.replicate (72 - (nameBytes name).length) 0).length ≤ 72 := by
    rw [List.length_append, List.length_replicate, nameBytes_length]
    omega
  have hlt : ∀ u ∈ name.flatMap utf16, u < 256 ^ 2 := by
    intro u hu
    obtain ⟨c, -, hu⟩ := List.mem_flatMap.mp hu
    exact MkFat.utf16_lt c u hu
  rw [List.take_of_length_le hlen, nameBytes, MkFat.readUnits_leBytes hlt,
    takeWhile_append_stop (readUnits_zeros _), takeWhile_units, MkFat.decodeUnits_utf16]

/-- A partition in its entry, filled up with zeros. -/
theorem readPart_entry {p : Part} (h : p.Valid) {t g : List UInt8} (ht : t.length = 16)
    (hg : g.length = 16) (htype : Guid.ofSignature t = textGuid p.typeGuid)
    (hguid : Guid.ofSignature g = textGuid p.guid) :
    readPart (t ++ (g ++ (leBytes 8 p.first.toNat ++ (leBytes 8 p.last.toNat ++
      (leBytes 8 p.attrs.toNat ++ (nameBytes p.name ++
        List.replicate (72 - (nameBytes p.name).length) 0)))))) = p.decoded := by
  have hnil : t = List.replicate 16 0 ↔ textGuid p.typeGuid = Guid.nil := by
    rw [← htype]
    constructor
    · rintro rfl
      rfl
    · intro heq
      exact Guid.ofSignature_inj ht List.length_replicate heq
  simp only [readPart, readBytes_append ht, readBytes_append hg,
    readLe_leBytes_of_lt h.first.toNat_lt, readLe_leBytes_of_lt h.last.toNat_lt,
    readLe_leBytes_of_lt h.attrs.toNat_lt,
    Option.bind_eq_bind, Option.bind_some, decode_name h.name, htype, hguid]
  rw [Part.decoded]
  by_cases hzero : textGuid p.typeGuid = Guid.nil
  · rw [if_pos hzero, guard, if_neg (not_not.mpr (hnil.mpr hzero))]
    rfl
  · rw [if_neg hzero, guard, if_pos (mt hnil.mp hzero)]
    rfl

/-- Writing over the piece in the middle. -/
theorem overwrite_middle {as bs cs data : List UInt8} {off : ℕ} (hoff : as.length = off)
    (hlen : bs.length = data.length) :
    overwrite (as ++ (bs ++ cs)) off data = as ++ (data ++ cs) := by
  have hdrop : (as ++ (bs ++ cs)).drop (off + data.length) = cs := by
    rw [← List.drop_drop, List.drop_left' hoff, List.drop_left' hlen]
  rw [overwrite, List.take_left' hoff, hdrop]

/-- An entry holds the partition at its place in the layout. -/
structure Holds (p : Part) (e : List UInt8) : Prop where
  length : e.length = 128
  read : readPart e = p.decoded

/-- One round of the loop, in zeros. -/
theorem overwrite_entry {before head name : List UInt8} {i : ℕ} (hbefore : before.length = i * 128)
    (hhead : head.length = 56) (hname : name.length ≤ 72) (more : ℕ) :
    overwrite (overwrite (before ++ List.replicate (128 + more) 0) (i * 128) head) (i * 128 + 56)
        name =
      (before ++ (head ++ (name ++ List.replicate (72 - name.length) 0))) ++
        List.replicate more 0 := by
  have hzeros : List.replicate (128 + more) (0 : UInt8) = List.replicate 56 0 ++
      (List.replicate name.length 0 ++
        (List.replicate (72 - name.length) 0 ++ List.replicate more 0)) := by
    rw [← List.replicate_add, ← List.replicate_add, ← List.replicate_add]
    congr 1
    omega
  have hfirst : (List.replicate 56 (0 : UInt8)).length = head.length := by
    rw [List.length_replicate, hhead]
  have hsecond : (before ++ head).length = i * 128 + 56 := by
    rw [List.length_append, hbefore, hhead]
  rw [hzeros, overwrite_middle hbefore hfirst, ← List.append_assoc before,
    overwrite_middle hsecond List.length_replicate]
  simp only [List.append_assoc]

/-- The loop puts one entry after the other in front of the zeros that are left. -/
theorem placeParts_of_valid {parts : List Part} (h : ∀ p ∈ parts, p.Valid) {i : ℕ}
    {before : List UInt8} (hbefore : before.length = i * 128) (rest : ℕ) :
    ∃ es, placeParts i parts (before ++ List.replicate ((parts.length + rest) * 128) 0) =
        .ok (before ++ (es.flatten ++ List.replicate (rest * 128) 0)) ∧
      List.Forall₂ Holds parts es := by
  induction parts generalizing i before with
  | nil =>
      refine ⟨[], ?_, .nil⟩
      rw [placeParts, List.length_nil, Nat.zero_add]
      rfl
  | cons p parts ih =>
      obtain ⟨hp, hparts⟩ := List.forall_mem_cons.mp h
      obtain ⟨t, g, hpack, ht, hg, htype, hguid⟩ := packPart_of_valid hp
      have hname : (nameBytes p.name).length ≤ 72 := by
        have hunits := hp.name
        rw [nameBytes_length]
        omega
      have hread := readPart_entry hp ht hg htype hguid
      obtain ⟨head, hhead⟩ : ∃ head, t ++ (g ++ (leBytes 8 p.first.toNat ++
          (leBytes 8 p.last.toNat ++ leBytes 8 p.attrs.toNat))) = head := ⟨_, rfl⟩
      have hlen : head.length = 56 := by
        rw [← hhead]
        simp [ht, hg]
      obtain ⟨e, he⟩ : ∃ e, head ++ (nameBytes p.name ++
          List.replicate (72 - (nameBytes p.name).length) 0) = e := ⟨_, rfl⟩
      have helen : e.length = 128 := by
        rw [← he, List.length_append, List.length_append, List.length_replicate, hlen]
        omega
      have hholds : Holds p e := by
        refine ⟨helen, ?_⟩
        rw [← hread, ← he, ← hhead]
        simp only [List.append_assoc]
      have hplaced : (before ++ e).length = (i + 1) * 128 := by
        rw [List.length_append, hbefore, helen, Nat.succ_mul]
      obtain ⟨es, hrun, hall⟩ := ih hparts hplaced
      have hcount : ((p :: parts).length + rest) * 128 = 128 + (parts.length + rest) * 128 := by
        rw [List.length_cons]
        omega
      refine ⟨e :: es, ?_, .cons hholds hall⟩
      rw [placeParts, bind_ok hpack, hhead, hcount]
      dsimp only [ENTRY_SIZE]
      rw [overwrite_entry hbefore hlen hname, he, if_neg (Nat.not_lt.mpr hname)]
      refine hrun.trans (congrArg Except.ok ?_)
      rw [List.flatten_cons, List.append_assoc, List.append_assoc]

/-- Reading on behind a field that is there. -/
theorem readLe_bind {α : Type} {n v : ℕ} (h : v < 256 ^ n) (rest : List UInt8)
    (k : ℕ × List UInt8 → Option α) : (readLe n (leBytes n v ++ rest) >>= k) = k (v, rest) := by
  rw [readLe_leBytes_of_lt h]
  rfl

theorem readBytes_bind {α : Type} {n : ℕ} {bs : List UInt8} (h : bs.length = n)
    (rest : List UInt8) (k : List UInt8 × List UInt8 → Option α) :
    (readBytes n (bs ++ rest) >>= k) = k (bs, rest) := by
  rw [readBytes_append h]
  rfl

/-- What the fields of a header say. -/
structure Fields where
  my : ℕ
  alt : ℕ
  firstUsable : ℕ
  lastUsable : ℕ
  guid : List UInt8
  entriesLba : ℕ
  entriesCrc : ℕ
  my_lt : my < 256 ^ 8
  alt_lt : alt < 256 ^ 8
  firstUsable_lt : firstUsable < 256 ^ 8
  lastUsable_lt : lastUsable < 256 ^ 8
  guid_length : guid.length = 16
  entriesLba_lt : entriesLba < 256 ^ 8
  entriesCrc_lt : entriesCrc < 256 ^ 4

namespace Fields

variable (f : Fields)

/-- What follows the CRC. -/
def tail : List UInt8 :=
  leBytes 4 0 ++ (leBytes 8 f.my ++ (leBytes 8 f.alt ++ (leBytes 8 f.firstUsable ++
    (leBytes 8 f.lastUsable ++ (f.guid ++ (leBytes 8 f.entriesLba ++ (leBytes 4 128 ++
      (leBytes 4 128 ++ leBytes 4 f.entriesCrc))))))))

/-- What stands in front of the CRC. -/
def head : List UInt8 := Gpt.signature ++ (leBytes 4 0x10000 ++ leBytes 4 92)

def bytes (crc : ℕ) : List UInt8 := head ++ (leBytes 4 crc ++ f.tail)

/-- The CRC of the bytes with zeros in its place. -/
def crc : ℕ := (crc32 (f.bytes 0)).toNat

def header : Gpt.Header where
  revision := 0x10000
  headerSize := 92
  myLba := f.my
  alternateLba := f.alt
  firstUsable := f.firstUsable
  lastUsable := f.lastUsable
  diskGuid := Guid.ofSignature f.guid
  entriesLba := f.entriesLba
  entryCount := 128
  entrySize := 128
  entriesCrc := f.entriesCrc

theorem tail_length : f.tail.length = 72 := by simp [tail, f.guid_length]

theorem head_length : head.length = 16 := rfl

theorem bytes_length (crc : ℕ) : (f.bytes crc).length = 92 := by
  simp [bytes, head_length, tail_length]

theorem overwrite_bytes (crc crc' : ℕ) :
    overwrite (f.bytes crc) 16 (leBytes 4 crc') = f.bytes crc' :=
  overwrite_middle head_length (by simp)

/-- The header sector as a reader takes it. -/
theorem readHeader_eq {img pad : List UInt8}
    (h : slice img (f.my * Gpt.SECTOR) Gpt.SECTOR = f.bytes f.crc ++ pad) :
    readHeader img f.my = some f.header := by
  have hcrc : f.crc < 256 ^ 4 := (crc32 (f.bytes 0)).toNat_lt
  have hsig : Gpt.signature.length = 8 := rfl
  have htake : (f.bytes f.crc ++ pad).take 92 = f.bytes f.crc :=
    List.take_left' (f.bytes_length _)
  have hzero : overwrite (f.bytes f.crc) 16 [0, 0, 0, 0] = f.bytes 0 := f.overwrite_bytes f.crc 0
  have hsplit : f.bytes f.crc ++ pad =
      Gpt.signature ++ (leBytes 4 0x10000 ++ (leBytes 4 92 ++ (leBytes 4 f.crc ++ (leBytes 4 0 ++
        (leBytes 8 f.my ++ (leBytes 8 f.alt ++ (leBytes 8 f.firstUsable ++
          (leBytes 8 f.lastUsable ++ (f.guid ++ (leBytes 8 f.entriesLba ++ (leBytes 4 128 ++
            (leBytes 4 128 ++ (leBytes 4 f.entriesCrc ++ pad))))))))))))) := by
    simp only [bytes, head, tail, List.append_assoc]
  have hguard : 92 ≤ 92 ∧ 92 ≤ Gpt.SECTOR := by decide
  have hvalue : (crc32 (f.bytes 0)).toNat = f.crc := rfl
  rw [readHeader, h, hsplit]
  refine (readBytes_bind hsig _ _).trans ?_
  refine (readLe_bind (n := 4) (v := 0x10000) (by decide) _ _).trans ?_
  refine (readLe_bind (n := 4) (v := 92) (by decide) _ _).trans ?_
  refine (readLe_bind hcrc _ _).trans ?_
  refine (readLe_bind (n := 4) (v := 0) (by decide) _ _).trans ?_
  refine (readLe_bind f.my_lt _ _).trans ?_
  refine (readLe_bind f.alt_lt _ _).trans ?_
  refine (readLe_bind f.firstUsable_lt _ _).trans ?_
  refine (readLe_bind f.lastUsable_lt _ _).trans ?_
  refine (readBytes_bind f.guid_length _ _).trans ?_
  refine (readLe_bind f.entriesLba_lt _ _).trans ?_
  refine (readLe_bind (n := 4) (v := 128) (by decide) _ _).trans ?_
  refine (readLe_bind (n := 4) (v := 128) (by decide) _ _).trans ?_
  refine (readLe_bind f.entriesCrc_lt _ _).trans ?_
  rw [← hsplit, htake, hzero]
  simp only [guard, hguard, hvalue, and_self, if_true]
  rfl

end Fields

/-- `header` writes the fields and their CRC. -/
theorem header_eq (f : Fields) {diskGuid : List Char} {firstUsable lastUsable my alt entries : ℤ}
    {entriesCrc : UInt32} (hguid : guidField diskGuid = .ok f.guid)
    (hfirst : firstUsable = f.firstUsable) (hlast : lastUsable = f.lastUsable) (hmy : my = f.my)
    (halt : alt = f.alt) (hentries : entries = f.entriesLba)
    (hcrc : entriesCrc.toNat = f.entriesCrc) :
    header diskGuid firstUsable lastUsable entriesCrc my alt entries =
      .ok (f.bytes f.crc ++ List.replicate 420 0) := by
  have hmy64 := f.my_lt
  have halt64 := f.alt_lt
  have hfirst64 := f.firstUsable_lt
  have hlast64 := f.lastUsable_lt
  have hentries64 := f.entriesLba_lt
  have h64 : ∀ {v : ℤ} {n : ℕ}, v = n → n < 256 ^ 8 → pack 8 v = .ok (leBytes 8 n) := by
    rintro v n rfl hn
    exact pack_of_is64 ⟨Int.natCast_nonneg n, by omega⟩
  have hblank : List.replicate 92 (0 : UInt8) = [] ++ (List.replicate 20 0 ++
      List.replicate 72 0) := rfl
  have hfirstPack : overwrite (List.replicate 92 0) 0 (Gpt.signature ++ [0, 0, 1, 0] ++
      leBytes 4 92 ++ leBytes 4 0) =
        Fields.head ++ ((leBytes 4 0 ++ List.replicate 72 0) ++ []) := by
    exact (congrArg (overwrite · 0 _) hblank).trans
      (@overwrite_middle [] (List.replicate 20 0) (List.replicate 72 0) _ 0 rfl rfl)
  have hsecondPack : overwrite (Fields.head ++ ((leBytes 4 0 ++ List.replicate 72 0) ++ [])) 16
      (leBytes 4 0 ++ leBytes 4 0 ++ leBytes 8 f.my ++ leBytes 8 f.alt ++ leBytes 8 f.firstUsable ++
        leBytes 8 f.lastUsable ++ f.guid ++ leBytes 8 f.entriesLba ++ leBytes 4 ENTRIES ++
        leBytes 4 ENTRY_SIZE ++ leBytes 4 entriesCrc.toNat) = f.bytes 0 := by
    rw [overwrite_middle Fields.head_length (by simp [f.guid_length]), hcrc]
    simp only [Fields.bytes, Fields.tail, List.append_assoc, List.append_nil, ENTRIES, ENTRY_SIZE]
  rw [header, bind_ok hguid, bind_ok (h64 hmy f.my_lt), bind_ok (h64 halt f.alt_lt),
    bind_ok (h64 hfirst f.firstUsable_lt), bind_ok (h64 hlast f.lastUsable_lt),
    bind_ok (h64 hentries f.entriesLba_lt)]
  dsimp only
  rw [hfirstPack, hsecondPack, f.overwrite_bytes]
  rfl

/-- What a reader is to find: two headers that point at each other and at two copies
of one array, in which the partitions are; nothing of it within the other or in
the range for partitions; and everything else as it was. -/
structure Described (image image' : List UInt8) (l : Layout) (decoded : List Partition)
    (primary backup : Gpt.Header) : Prop where
  length : image'.length = image.length
  readPrimary : readHeader image' 1 = some primary
  readBackup : readHeader image' (image.length / SECTOR - 1) = some backup
  primaryAlternate : primary.alternateLba = image.length / SECTOR - 1
  backupAlternate : backup.alternateLba = 1
  guids : primary.diskGuid = textGuid l.diskGuid ∧ backup.diskGuid = textGuid l.diskGuid
  usable : backup.firstUsable = primary.firstUsable ∧ backup.lastUsable = primary.lastUsable
  entries : ∃ entries, readEntries image' primary = some entries ∧
    readEntries image' backup = some entries ∧ partitions entries = decoded
  apart : (structures primary backup).Pairwise Apart
  outside : ∀ s ∈ structures primary backup,
    Apart s (primary.firstUsable, primary.lastUsable + 1 - primary.firstUsable)
  unchanged : ∀ i, (∀ s ∈ structures primary backup,
    i < s.1 * SECTOR ∨ (s.1 + s.2) * SECTOR ≤ i) → image'[i]? = image[i]?

theorem filterMap_holds {parts : List Part} {es : List (List UInt8)}
    (h : List.Forall₂ Holds parts es) : es.filterMap readPart = parts.filterMap Part.decoded := by
  induction h with
  | nil => rfl
  | cons hholds _ ih => rw [List.filterMap_cons, List.filterMap_cons, hholds.read, ih]

theorem length_of_holds {parts : List Part} {es : List (List UInt8)}
    (h : List.Forall₂ Holds parts es) : ∀ e ∈ es, e.length = 128 := by
  induction h with
  | nil => exact nofun
  | cons hholds _ ih =>
      intro e he
      rcases List.mem_cons.mp he with rfl | he
      · exact hholds.length
      · exact ih e he

/-- An entry of zeros is not used. -/
theorem readPart_zeros : readPart (List.replicate 128 0) = none := by decide +kernel

theorem flatten_replicate_zeros (n : ℕ) :
    (List.replicate n (List.replicate 128 (0 : UInt8))).flatten = List.replicate (n * 128) 0 :=
  List.flatten_replicate_replicate

/-- The array of entries of a layout. -/
theorem placeParts_array {l : Layout} (h : l.Valid) :
    ∃ blob entries, placeParts 0 l.parts (List.replicate (ENTRIES * ENTRY_SIZE) 0) = .ok blob ∧
      blob.length = 16384 ∧ ((List.range 128).map fun i => slice blob (128 * i) 128) = entries ∧
      partitions entries = l.parts.filterMap Part.decoded := by
  obtain ⟨rest, hrest⟩ := Nat.exists_eq_add_of_le h.count
  obtain ⟨es, hrun, hall⟩ := @placeParts_of_valid l.parts h.parts 0 [] rfl rest
  have hcount : es.length = l.parts.length := hall.length_eq.symm
  obtain ⟨all, hallEntries⟩ : ∃ all, es ++ List.replicate rest (List.replicate 128 0) = all :=
    ⟨_, rfl⟩
  have hlength : all.length = 128 := by
    rw [← hallEntries, List.length_append, List.length_replicate, hcount, hrest]
  have hsize : ∀ e ∈ all, e.length = 128 := by
    intro e he
    rw [← hallEntries] at he
    rcases List.mem_append.mp he with he | he
    · exact length_of_holds hall e he
    · rw [List.eq_of_mem_replicate he, List.length_replicate]
  have hblob : es.flatten ++ List.replicate (rest * 128) 0 = all.flatten := by
    rw [← hallEntries, List.flatten_append, flatten_replicate_zeros]
  have hslices := slices_flatten hsize
  rw [hlength] at hslices
  rw [← hrest, List.nil_append, List.nil_append, hblob] at hrun
  refine ⟨all.flatten, all, hrun, ?_, hslices, ?_⟩
  · rw [flatten_length hsize, hlength]
  · rw [partitions, ← hallEntries, List.filterMap_append, filterMap_holds hall,
      List.filterMap_replicate_of_none readPart_zeros, List.append_nil]

/-- A disk a table is written for: its sectors, its GUID and the array. -/
structure Disk where
  total : ℕ
  guid : List UInt8
  entries : List UInt8
  total_ge : 68 ≤ total
  total_le : total ≤ 256 ^ 8
  guid_length : guid.length = 16
  entries_length : entries.length = 16384

namespace Disk

variable (d : Disk)

/-- An LBA counted from the end is one of 64 bits. -/
theorem sub_lt {k : ℕ} (hk : 0 < k) : d.total - k < 256 ^ 8 :=
  Nat.lt_of_lt_of_le (Nat.sub_lt (Nat.lt_of_lt_of_le (by decide) d.total_ge) hk) d.total_le

def primary : Fields where
  my := 1
  alt := d.total - 1
  firstUsable := 34
  lastUsable := d.total - 34
  guid := d.guid
  entriesLba := 2
  entriesCrc := (crc32 d.entries).toNat
  my_lt := by decide
  alt_lt := d.sub_lt (by decide)
  firstUsable_lt := by decide
  lastUsable_lt := d.sub_lt (by decide)
  guid_length := d.guid_length
  entriesLba_lt := by decide
  entriesCrc_lt := (crc32 d.entries).toNat_lt

def backup : Fields where
  my := d.total - 1
  alt := 1
  firstUsable := 34
  lastUsable := d.total - 34
  guid := d.guid
  entriesLba := d.total - 33
  entriesCrc := (crc32 d.entries).toNat
  my_lt := d.sub_lt (by decide)
  alt_lt := by decide
  firstUsable_lt := by decide
  lastUsable_lt := d.sub_lt (by decide)
  guid_length := d.guid_length
  entriesLba_lt := d.sub_lt (by decide)
  entriesCrc_lt := (crc32 d.entries).toNat_lt

/-- The sector of a header. -/
def sector (f : Fields) : List UInt8 := f.bytes f.crc ++ List.replicate 420 0

def table (mbr : List UInt8) : Table := ⟨mbr, sector d.primary, d.entries, sector d.backup⟩

theorem sector_length (f : Fields) : (sector f).length = 512 := by
  rw [sector, List.length_append, f.bytes_length, List.length_replicate]

end Disk

theorem protectiveMbr_length {spanned : List UInt8} (h : spanned.length = 4) :
    (protectiveMbr spanned).length = 512 := by
  have hpart : ([0x00, 0x00, 0x02, 0x00, 0xee, 0xff, 0xff, 0xff] ++ leBytes 4 1 ++ spanned).length =
      16 := by
    rw [List.length_append, h]
    rfl
  have hblank : (List.replicate SECTOR (0 : UInt8)).length = 512 := List.length_replicate
  have hroom : 446 + ([0x00, 0x00, 0x02, 0x00, 0xee, 0xff, 0xff, 0xff] ++ leBytes 4 1 ++
      spanned).length ≤ 512 := by
    rw [hpart]
    decide
  have hinner := overwrite_length_eq hblank hroom
  exact overwrite_length_eq hinner (by decide)

theorem build_of_valid {size : ℕ} {l : Layout} (h : l.Valid) (hlow : 68 * 512 ≤ size)
    (hhigh : size / 512 ≤ 2 ^ 64) :
    ∃ (d : Disk) (mbr : List UInt8), build size l.diskGuid l.parts = .ok (d.table mbr) ∧
      mbr.length = 512 ∧ d.total = size / 512 ∧
      Guid.ofSignature d.guid = textGuid l.diskGuid ∧
      partitions ((List.range 128).map fun i => slice d.entries (128 * i) 128) =
        l.parts.filterMap Part.decoded := by
  obtain ⟨blob, entries, hblob, hlen, hslices, hparts⟩ := placeParts_array h
  obtain ⟨g, hg, hglen, hsig⟩ := guidField_of_valid h.diskGuid
  have hge : 68 ≤ size / 512 := by omega
  let d : Disk :=
    { total := size / 512, guid := g, entries := blob, total_ge := hge
      total_le := hhigh
      guid_length := hglen
      entries_length := hlen }
  have hspan : pack 4 (min (((size / 512 : ℕ) : ℤ) - 1) 0xffffffff) =
      .ok (leBytes 4 (min (((size / 512 : ℕ) : ℤ) - 1) 0xffffffff).toNat) :=
    if_pos (by omega)
  have hlast : ((size / 512 : ℕ) : ℤ) - 1 - (32 : ℕ) - 1 = ((size / 512 - 34 : ℕ) : ℤ) := by omega
  have hend : ((size / 512 : ℕ) : ℤ) - 1 = ((size / 512 - 1 : ℕ) : ℤ) := by omega
  have hback : ((size / 512 : ℕ) : ℤ) - 1 - (32 : ℕ) = ((size / 512 - 33 : ℕ) : ℤ) := by omega
  have hprimary : header l.diskGuid (2 + 32 : ℕ) (((size / 512 : ℕ) : ℤ) - 1 - (32 : ℕ) - 1)
      (crc32 blob) 1 (((size / 512 : ℕ) : ℤ) - 1) 2 = .ok (Disk.sector d.primary) :=
    header_eq d.primary hg rfl hlast rfl hend rfl rfl
  have hbackup : header l.diskGuid (2 + 32 : ℕ) (((size / 512 : ℕ) : ℤ) - 1 - (32 : ℕ) - 1)
      (crc32 blob) (((size / 512 : ℕ) : ℤ) - 1) 1 (((size / 512 : ℕ) : ℤ) - 1 - (32 : ℕ)) =
        .ok (Disk.sector d.backup) :=
    header_eq d.backup hg rfl hlast hend rfl hback rfl
  refine ⟨d, protectiveMbr (leBytes 4 (min (((size / 512 : ℕ) : ℤ) - 1) 0xffffffff).toNat), ?_,
    protectiveMbr_length (leBytes_length _ _), rfl, hsig, hslices ▸ hparts⟩
  rw [build]
  dsimp only [SECTOR]
  rw [bind_ok hblob, bind_ok hspan]
  exact (bind_ok hprimary).trans ((bind_ok hbackup).trans rfl)

namespace Disk

variable (d : Disk) {image mbr : List UInt8}

/-- The image with everything written. -/
def write (image mbr : List UInt8) : List UInt8 :=
  overwrite (overwrite (overwrite (overwrite (overwrite image 0 mbr) 512 (sector d.primary)) 1024
    d.entries) ((d.total - 33) * 512) d.entries) ((d.total - 1) * 512) (sector d.backup)

/-- What the regions written are, by their bytes. -/
theorem write_regions (himage : image.length = d.total * 512) (hmbr : mbr.length = 512) :
    (d.write image mbr).length = image.length ∧
      slice (d.write image mbr) 512 512 = sector d.primary ∧
      slice (d.write image mbr) 1024 16384 = d.entries ∧
      slice (d.write image mbr) ((d.total - 33) * 512) 16384 = d.entries ∧
      slice (d.write image mbr) ((d.total - 1) * 512) 512 = sector d.backup ∧
      ∀ i, 1024 + 16384 ≤ i → i < (d.total - 33) * 512 → (d.write image mbr)[i]? = image[i]? := by
  have hge := d.total_ge
  have hprimary := sector_length d.primary
  have hbackup := sector_length d.backup
  have hentries := d.entries_length
  obtain ⟨w₁, hw₁⟩ : ∃ w, overwrite image 0 mbr = w := ⟨_, rfl⟩
  obtain ⟨w₂, hw₂⟩ : ∃ w, overwrite w₁ 512 (sector d.primary) = w := ⟨_, rfl⟩
  obtain ⟨w₃, hw₃⟩ : ∃ w, overwrite w₂ 1024 d.entries = w := ⟨_, rfl⟩
  obtain ⟨w₄, hw₄⟩ : ∃ w, overwrite w₃ ((d.total - 33) * 512) d.entries = w := ⟨_, rfl⟩
  have hlen₁ : w₁.length = d.total * 512 := hw₁ ▸ overwrite_length_eq himage (by omega)
  have hlen₂ : w₂.length = d.total * 512 := hw₂ ▸ overwrite_length_eq hlen₁ (by omega)
  have hlen₃ : w₃.length = d.total * 512 := hw₃ ▸ overwrite_length_eq hlen₂ (by omega)
  have hlen₄ : w₄.length = d.total * 512 := hw₄ ▸ overwrite_length_eq hlen₃ (by omega)
  have hwrite : d.write image mbr = overwrite w₄ ((d.total - 1) * 512) (sector d.backup) := by
    rw [write, hw₁, hw₂, hw₃, hw₄]
  have hbackupSelf := @slice_overwrite_self _ w₄ (sector d.backup) ((d.total - 1) * 512) (by omega)
  have hbackEntries := @slice_overwrite_self _ w₃ d.entries ((d.total - 33) * 512) (by omega)
  have hfrontEntries := @slice_overwrite_self _ w₂ d.entries 1024 (by omega)
  have hprimarySelf := @slice_overwrite_self _ w₁ (sector d.primary) 512 (by omega)
  rw [hentries] at hbackEntries hfrontEntries
  rw [hprimary] at hprimarySelf
  rw [hbackup] at hbackupSelf
  rw [hwrite]
  refine ⟨?_, ?_, ?_, ?_, hbackupSelf, fun i hfrom hto => ?_⟩
  · rw [overwrite_length_eq hlen₄ (by omega), himage]
  · rw [slice_overwrite_apart (by omega) (by omega), ← hw₄,
      slice_overwrite_apart (by omega) (by omega), ← hw₃,
      slice_overwrite_apart (by omega) (by omega), ← hw₂, hprimarySelf]
  · rw [slice_overwrite_apart (by omega) (by omega), ← hw₄,
      slice_overwrite_apart (by omega) (by omega), ← hw₃, hfrontEntries]
  · rw [slice_overwrite_apart (by omega) (by omega), ← hw₄, hbackEntries]
  · rw [getElem?_overwrite (by omega), if_neg (by omega), ← hw₄, getElem?_overwrite (by omega),
      if_neg (by omega), ← hw₃, getElem?_overwrite (by omega), if_neg (by omega), ← hw₂,
      getElem?_overwrite (by omega), if_neg (by omega), ← hw₁, getElem?_overwrite (by omega),
      if_neg (by omega)]

theorem structures_eq : structures d.primary.header d.backup.header =
    [(0, 1), (1, 1), (2, 32), (d.total - 33, 32), (d.total - 1, 1)] := by
  have hsectors : ∀ f : Fields, f.header.entrySectors = 32 := fun _ => by
    change (128 * 128 + 512 - 1) / 512 = 32
    norm_num
  rw [structures, hsectors, hsectors]
  rfl

theorem readEntries_write {f : Fields} {off : ℕ} (hoff : f.entriesLba * 512 = off)
    (hcrc : f.entriesCrc = (crc32 d.entries).toNat)
    (hslice : slice (d.write image mbr) off 16384 = d.entries) :
    readEntries (d.write image mbr) f.header =
      some ((List.range 128).map fun i => slice d.entries (128 * i) 128) := by
  have hcount : f.header.entryCount = 128 := rfl
  have hsize : f.header.entrySize = 128 := rfl
  have hfits : 128 * 128 = 16384 := by norm_num
  have hlba : f.header.entriesLba * Gpt.SECTOR = off := hoff
  have hvalue : f.header.entriesCrc = (crc32 d.entries).toNat := hcrc
  rw [readEntries]
  simp only [hcount, hsize, hfits, hlba, hslice, hvalue, d.entries_length, and_self, if_true]

end Disk

/-- For every layout that can be written, and whatever is in the image, a reader finds
the table in it and in the table what there is to know of the partitions. -/
theorem main_described {image : List UInt8} {l : Layout} (h : l.Valid)
    (haligned : image.length % SECTOR = 0) (hlow : 68 * SECTOR ≤ image.length)
    (hhigh : image.length / SECTOR ≤ 2 ^ 64) :
    ∃ image' primary backup, main image l = (image', .ok ()) ∧
      Described image image' l (l.parts.filterMap Part.decoded) primary backup := by
  obtain ⟨d, mbr, hbuild, hmbr, htotal, hguid, hparts⟩ :=
    build_of_valid h hlow hhigh
  have hge := d.total_ge
  have himage : image.length = d.total * 512 := by
    rw [SECTOR] at haligned
    omega
  obtain ⟨hlen, hprimary, hfront, hback, hbackup, hkept⟩ := d.write_regions himage hmbr
  have hlast : image.length / SECTOR - 1 = d.total - 1 := by rw [htotal, SECTOR]
  refine ⟨d.write image mbr, d.primary.header, d.backup.header, ?_, ?_⟩
  · have hentries : (d.table mbr).entries.length = 16384 := d.entries_length
    have hroom : ¬ image.length < (1 + 16384 / SECTOR) * SECTOR := by
      rw [SECTOR]
      omega
    have hfour : image.length - (1 + 16384 / SECTOR) * SECTOR = (d.total - 33) * 512 := by
      rw [SECTOR]
      omega
    have hfive : (d.total - 33) * 512 + 16384 = (d.total - 1) * 512 := by omega
    rw [main, if_neg (not_not.mpr haligned), hbuild]
    dsimp only
    rw [hentries, if_neg hroom, hfour, hfive]
    rfl
  · have hrange : (d.primary.header.firstUsable,
        d.primary.header.lastUsable + 1 - d.primary.header.firstUsable) =
          (34, d.total - 34 + 1 - 34) := rfl
    have hone : d.primary.my * Gpt.SECTOR = 512 := Nat.one_mul 512
    have htwo : d.primary.entriesLba * 512 = 1024 := Nat.two_mul 512
    exact
      { length := hlen
        readPrimary := d.primary.readHeader_eq (by
          rw [hone]
          exact hprimary)
        readBackup := hlast ▸ d.backup.readHeader_eq hbackup
        primaryAlternate := hlast.symm
        backupAlternate := rfl
        guids := ⟨hguid, hguid⟩
        usable := ⟨rfl, rfl⟩
        entries := ⟨_, d.readEntries_write htwo rfl hfront, d.readEntries_write rfl rfl hback,
          hparts⟩
        apart := by
          rw [d.structures_eq]
          simp only [List.pairwise_cons, List.forall_mem_cons, List.not_mem_nil, false_imp_iff,
            implies_true, List.Pairwise.nil, and_true, Apart]
          omega
        outside := by
          rw [d.structures_eq, hrange]
          simp only [List.forall_mem_cons, List.not_mem_nil, false_imp_iff, implies_true, and_true,
            Apart]
          omega
        unchanged := by
          rw [d.structures_eq]
          simp only [List.forall_mem_cons, List.not_mem_nil, false_imp_iff, implies_true, SECTOR]
          intro i hi
          by_cases hin : i < image.length
          · exact hkept i (by omega) (by omega)
          · rw [List.getElem?_eq_none (by omega), List.getElem?_eq_none (by omega)] }

/-- A partition as the layout gives it. -/
def Part.partition (p : Part) : Partition :=
  ⟨textGuid p.typeGuid, textGuid p.guid, p.first.toNat, p.last.toNat, p.attrs.toNat, p.name⟩

/-- Only the type of an entry not used, and zeros in names, are lost on a reader. -/
theorem filterMap_decoded {parts : List Part}
    (htypes : ∀ p ∈ parts, textGuid p.typeGuid ≠ Guid.nil)
    (hnames : ∀ p ∈ parts, '\x00' ∉ p.name) :
    parts.filterMap Part.decoded = parts.map Part.partition := by
  induction parts with
  | nil => rfl
  | cons p parts ih =>
      obtain ⟨htype, htypes⟩ := List.forall_mem_cons.mp htypes
      obtain ⟨hname, hnames⟩ := List.forall_mem_cons.mp hnames
      have hkept : p.name.takeWhile (· ≠ '\x00') = p.name :=
        List.takeWhile_eq_self_iff.mpr fun c hc => decide_eq_true fun heq => hname (heq ▸ hc)
      have hdecoded : p.decoded = some p.partition := by
        rw [Part.decoded, if_neg htype, hkept, Part.partition]
      rw [List.filterMap_cons_some hdecoded, List.map_cons, ih htypes hnames]

/-- A layout whose partitions have types, and names without zeros, is found again in
the image, which is otherwise unchanged. -/
theorem main_roundtrip {image : List UInt8} {l : Layout} (h : l.Valid)
    (haligned : image.length % SECTOR = 0) (hlow : 68 * SECTOR ≤ image.length)
    (hhigh : image.length / SECTOR ≤ 2 ^ 64)
    (htypes : ∀ p ∈ l.parts, textGuid p.typeGuid ≠ Guid.nil)
    (hnames : ∀ p ∈ l.parts, '\x00' ∉ p.name) :
    ∃ image' primary backup, main image l = (image', .ok ()) ∧
      Described image image' l (l.parts.map Part.partition) primary backup := by
  rw [← filterMap_decoded htypes hnames]
  exact main_described h haligned hlow hhigh

def sampleGuid : List Char := "c12a7328-f81f-11d2-ba4b-00a0c93ec93b".toList

def nilGuid : List Char := "00000000-0000-0000-0000-000000000000".toList

/-- One partition of this type and name. -/
def sampleLayout (typeGuid name : List Char) : Layout where
  diskGuid := sampleGuid
  parts := [⟨name, typeGuid, sampleGuid, 34, 34, 0⟩]

def sampleImage : List UInt8 := List.replicate (68 * 512) 0

theorem sampleImage_length : sampleImage.length = 68 * 512 := List.length_replicate

theorem sampleGuid_valid : ValidGuid sampleGuid :=
  ⟨(efiGuidBytes_isSome_iff _).mp (by decide), by decide⟩

theorem nilGuid_valid : ValidGuid nilGuid :=
  ⟨(efiGuidBytes_isSome_iff _).mp (by decide), by decide⟩

theorem sampleLayout_valid {typeGuid name : List Char} (htype : ValidGuid typeGuid)
    (hname : (name.flatMap utf16).length ≤ 36) : (sampleLayout typeGuid name).Valid where
  diskGuid := sampleGuid_valid
  parts := List.forall_mem_singleton.mpr
    { typeGuid := htype
      guid := sampleGuid_valid
      first := (by decide : (0 : ℤ) ≤ 34 ∧ (34 : ℤ) < 2 ^ 64)
      last := (by decide : (0 : ℤ) ≤ 34 ∧ (34 : ℤ) < 2 ^ 64)
      attrs := (by decide : (0 : ℤ) ≤ 0 ∧ (0 : ℤ) < 2 ^ 64)
      name := hname }
  count := (by decide : 1 ≤ 128)

theorem main_roundtrip_esp :
    ∃ image' primary backup, main sampleImage (sampleLayout sampleGuid ['E', 'S', 'P']) =
        (image', .ok ()) ∧
      Described sampleImage image' (sampleLayout sampleGuid ['E', 'S', 'P'])
        ((sampleLayout sampleGuid ['E', 'S', 'P']).parts.map Part.partition) primary backup :=
  main_roundtrip (sampleLayout_valid sampleGuid_valid (by decide))
    (by rw [sampleImage_length]; decide) (by rw [sampleImage_length]; decide)
    (by rw [sampleImage_length]; decide) (List.forall_mem_singleton.mpr (by decide))
    (List.forall_mem_singleton.mpr (by decide))

/-- A reader finds one thing only. -/
theorem Described.unique {image image' : List UInt8} {l : Layout} {ps qs : List Partition}
    {p₁ b₁ p₂ b₂ : Gpt.Header} (h₁ : Described image image' l ps p₁ b₁)
    (h₂ : Described image image' l qs p₂ b₂) : ps = qs := by
  have hprimary : p₁ = p₂ := Option.some.inj (h₁.readPrimary.symm.trans h₂.readPrimary)
  subst hprimary
  obtain ⟨es, hes, -, hps⟩ := h₁.entries
  obtain ⟨fs, hfs, -, hqs⟩ := h₂.entries
  obtain rfl : es = fs := Option.some.inj (hes.symm.trans hfs)
  exact hps.symm.trans hqs

theorem not_described {l : Layout} (h : l.Valid)
    (hlost : l.parts.filterMap Part.decoded ≠ l.parts.map Part.partition) :
    ¬ ∃ image' primary backup, main sampleImage l = (image', .ok ()) ∧
      Described sampleImage image' l (l.parts.map Part.partition) primary backup := by
  rintro ⟨image', primary, backup, hmain, hdescribed⟩
  obtain ⟨image'', primary', backup', hmain', hdescribed'⟩ := @main_described sampleImage l h
    (by rw [sampleImage_length]; decide) (by rw [sampleImage_length]; decide)
    (by rw [sampleImage_length]; decide)
  rw [hmain] at hmain'
  obtain rfl := (Prod.mk.inj hmain').1
  exact hlost (hdescribed'.unique hdescribed)

/-- A partition with the nil GUID for its type is taken for an entry not used, and a
name with a zero in it is read up to there. -/
theorem main_loses :
    (¬ ∃ image' primary backup, main sampleImage (sampleLayout nilGuid ['E', 'S', 'P']) =
        (image', .ok ()) ∧
      Described sampleImage image' (sampleLayout nilGuid ['E', 'S', 'P'])
        ((sampleLayout nilGuid ['E', 'S', 'P']).parts.map Part.partition) primary backup) ∧
    ¬ ∃ image' primary backup, main sampleImage (sampleLayout sampleGuid ['E', '\x00', 'P']) =
        (image', .ok ()) ∧
      Described sampleImage image' (sampleLayout sampleGuid ['E', '\x00', 'P'])
        ((sampleLayout sampleGuid ['E', '\x00', 'P']).parts.map Part.partition) primary backup :=
  ⟨not_described (sampleLayout_valid nilGuid_valid (by decide)) (by decide),
    not_described (sampleLayout_valid sampleGuid_valid (by decide)) (by decide)⟩

end MkGpt

end Veron
