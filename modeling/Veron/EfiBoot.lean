/-
veron-efiboot: composing the payload of a Boot#### variable, and what a reader
of that payload gets out of it.
-/
import Veron.LoadOption

namespace Veron

/-- A C string: the bytes before its NUL. -/
structure CString where
  bytes : List UInt8
  no_nul : 0 ∉ bytes
deriving DecidableEq

namespace EfiBoot

/-- A `buf` as far as its length. -/
abbrev Buf := List UInt8

def put (b : Buf) (d : List UInt8) : Buf := b ++ d

def put8 (b : Buf) (v : UInt8) : Buf := put b [v]

def put16 (b : Buf) (v : UInt16) : Buf := put b [(v &&& 0xff).toUInt8, (v >>> 8).toUInt8]

def put32 (b : Buf) (v : UInt32) : Buf :=
  put b [v.toUInt8, (v >>> 8).toUInt8, (v >>> 16).toUInt8, (v >>> 24).toUInt8]

def put64 (b : Buf) (v : UInt64) : Buf := put32 (put32 b v.toUInt32) (v >>> 32).toUInt32

/-- The loop of `put_utf16` over what is left of the string; `none` is `die`. -/
def putUtf16 (b : Buf) : List UInt8 → Option Buf
  | [] => some (put16 b 0)
  | c :: s => if 0x7f < c then none else putUtf16 (put16 b c.toUInt16) s

def hexv (c : UInt8) : Option UInt8 :=
  if 0x30 ≤ c ∧ c ≤ 0x39 then some (c - 0x30)
  else if 0x61 ≤ c ∧ c ≤ 0x66 then some (c - 0x61 + 10)
  else if 0x41 ≤ c ∧ c ≤ 0x46 then some (c - 0x41 + 10)
  else none

/-- `'-'`. -/
def dash : UInt8 := 0x2d

/-- The loop of `guid_bytes`, with so many bytes of `raw` still to fill. -/
def rawGuid : ℕ → List UInt8 → Option (List UInt8)
  | 0, _ => some []
  | _ + 1, [] => none
  -- a last character is read together with the NUL behind it
  | _ + 1, [_] => none
  | k + 1, c :: d :: text =>
      if c = dash then rawGuid (k + 1) (d :: text)
      else
        match hexv c, hexv d with
        | some hi, some lo => (rawGuid k text).map ((hi <<< 4 ||| lo) :: ·)
        | _, _ => none

/-- `out[0] = raw[3]` and so on: the first three fields turned around. -/
def guidBytes (text : CString) : Option (List UInt8) :=
  (rawGuid 16 text.bytes).map fun raw =>
    (raw.take 4).reverse ++ ((raw.drop 4).take 2).reverse ++ ((raw.drop 6).take 2).reverse
      ++ raw.drop 8

structure EntryArgs where
  desc : CString
  partGuid : CString
  file : CString
  cmdline : Option CString
  partNum : UInt32
  partStart : UInt64
  partSize : UInt64

def LOAD_OPTION_ACTIVE : UInt32 := 0x00000001

/-- The device path, built first so that FilePathListLength is known. -/
def composePath (a : EntryArgs) : Option Buf := do
  let dp := put16 (put8 (put8 [] 0x04) 0x01) 42
  let dp := put64 (put64 (put32 dp a.partNum) a.partStart) a.partSize
  let g ← guidBytes a.partGuid
  let dp := put8 (put8 (put dp g) 0x02) 0x02
  let f16 ← putUtf16 [] a.file.bytes
  let dp := put16 (put8 (put8 dp 0x04) 0x04) (UInt16.ofNat (4 + f16.length))
  let dp := put dp f16
  return put16 (put8 (put8 dp 0x7f) 0xff) 4

def composeLoadOption (b : Buf) (a : EntryArgs) : Option Buf := do
  let dp ← composePath a
  let b := put16 (put32 b LOAD_OPTION_ACTIVE) (UInt16.ofNat dp.length)
  let b ← putUtf16 b a.desc.bytes
  let b := put b dp
  match a.cmdline with
  | some s => if s.bytes = [] then return b else putUtf16 b s.bytes
  | none => return b

/-- The bytes a hexadecimal text writes, two digits each. -/
def hexPairs : List UInt8 → List UInt8
  | c :: d :: text =>
      (((hexv c).getD 0).toNat * 16 + ((hexv d).getD 0).toNat).toUInt8 :: hexPairs text
  | _ => []

/-- The GUID a text writes, its dashes left out. -/
def textGuid (text : CString) : Guid :=
  let bytes := hexPairs (text.bytes.filter (· ≠ dash))
  ⟨beValue (bytes.take 4), beValue ((bytes.drop 4).take 2), beValue ((bytes.drop 6).take 2),
    (bytes.drop 8).take 8⟩

def chars (s : CString) : List ℕ := s.bytes.map UInt8.toNat

/-- The nodes a path to a file of a GPT partition consists of. -/
def EntryArgs.nodes (a : EntryArgs) : List PathNode :=
  [⟨42, .hardDrive a.partNum.toNat a.partStart.toNat a.partSize.toNat (textGuid a.partGuid)
      0x02 0x02⟩,
    ⟨2 * (a.file.bytes.length + 1) + 4, .file (chars a.file)⟩,
    ⟨4, .endOfPath⟩]

/-- The load option the arguments ask for. -/
def EntryArgs.loadOption (a : EntryArgs) : LoadOption where
  attributes := LoadOption.activeBit
  filePathListLength := (a.nodes.map PathNode.length).sum
  description := chars a.desc
  filePathList := a.nodes
  commandLine := (a.cmdline.map chars).getD []

@[simp] theorem put8_eq (b : Buf) (v : UInt8) : put8 b v = b ++ leBytes 1 v.toNat := by
  simp [put8, put, leBytes]

@[simp] theorem put16_eq (b : Buf) (v : UInt16) : put16 b v = b ++ leBytes 2 v.toNat := by
  rw [put16, put, leBytes_two]

@[simp] theorem put32_eq (b : Buf) (v : UInt32) : put32 b v = b ++ leBytes 4 v.toNat := by
  rw [put32, put, leBytes_four]

@[simp] theorem put64_eq (b : Buf) (v : UInt64) : put64 b v = b ++ leBytes 8 v.toNat := by
  have hlow : v.toUInt32.toNat = v.toNat % 256 ^ 4 := UInt64.toNat_toUInt32 v
  have hhigh : (v >>> 32).toUInt32.toNat = v.toNat / 256 ^ 4 := by
    have hlt := v.toNat_lt
    rw [UInt64.toNat_toUInt32, UInt64.toNat_shiftRight, Nat.shiftRight_eq_div_pow]
    simp
    omega
  rw [put64, put32_eq, put32_eq, List.append_assoc, hlow, hhigh, leBytes_mod,
    ← leBytes_add 4 4]

theorem putUtf16_eq (s : List UInt8) (b out : Buf) (h : putUtf16 b s = some out) :
    out = b ++ LoadOption.units (s.map UInt8.toNat) ++ leBytes 2 0 := by
  induction s generalizing b with
  | nil =>
      rw [putUtf16] at h
      rw [← Option.some.inj h, put16_eq]
      simp
  | cons c s ih =>
      rw [putUtf16] at h
      split at h
      · cases h
      · rw [ih _ h, put16_eq]
        simp

theorem hexv_lt {c v : UInt8} (h : hexv c = some v) : v.toNat < 16 := by
  simp only [hexv, UInt8.le_iff_toNat_le, UInt8.reduceToNat] at h
  split at h
  · obtain rfl := Option.some.inj h
    simp only [UInt8.toNat_sub, UInt8.reduceToNat]
    omega
  · split at h
    · obtain rfl := Option.some.inj h
      simp only [UInt8.toNat_add, UInt8.toNat_sub, UInt8.reduceToNat]
      omega
    · split at h
      · obtain rfl := Option.some.inj h
        simp only [UInt8.toNat_add, UInt8.toNat_sub, UInt8.reduceToNat]
        omega
      · cases h

theorem shift_or {hi lo : UInt8} (hhi : hi.toNat < 16) (hlo : lo.toNat < 16) :
    hi <<< 4 ||| lo = (hi.toNat * 16 + lo.toNat).toUInt8 := by
  have hshift : (hi <<< 4).toNat = hi.toNat <<< 4 := by
    rw [UInt8.toNat_shiftLeft]
    apply Nat.mod_eq_of_lt
    simp [Nat.shiftLeft_eq]
    omega
  have hvalue : (hi.toNat * 16 + lo.toNat).toUInt8.toNat = hi.toNat * 16 + lo.toNat :=
    UInt8.toNat_ofNat_of_lt' (by rw [UInt8.size]; omega)
  apply UInt8.toNat_inj.mp
  rw [UInt8.toNat_or, hshift, ← Nat.shiftLeft_add_eq_or_of_lt (i := 4) hlo, hvalue,
    Nat.shiftLeft_eq]

/-- Whatever `guid_bytes` accepts, it has read the first digits of the text. -/
theorem rawGuid_eq {k : ℕ} {text raw : List UInt8} (h : rawGuid k text = some raw) :
    raw.length = k ∧ raw = (hexPairs (text.filter (· ≠ dash))).take k := by
  induction k, text using rawGuid.induct generalizing raw with
  | case1 => simp_all [rawGuid]
  | case2 | case3 => simp [rawGuid] at h
  | case4 k d text ih =>
      rw [rawGuid, if_pos rfl] at h
      simpa using ih h
  | case5 k c d text hne hi lo hlo hhi ih =>
      have hdash : hexv dash = none := rfl
      have hd : d ≠ dash := by
        rintro rfl
        rw [hdash] at hlo
        cases hlo
      have hfilter : (c :: d :: text).filter (· ≠ dash) = c :: d :: text.filter (· ≠ dash) := by
        simp [hne, hd]
      rw [rawGuid, if_neg hne, hhi, hlo] at h
      obtain ⟨raw', hraw, rfl⟩ := Option.map_eq_some_iff.mp h
      obtain ⟨hlen, heq⟩ := ih hraw
      rw [shift_or (hexv_lt hhi) (hexv_lt hlo), hfilter, hexPairs, hhi, hlo, List.take_succ_cons,
        ← heq, List.length_cons, hlen]
      exact ⟨rfl, rfl⟩
  | case6 k c d text hne hnone =>
      rw [rawGuid, if_neg hne] at h
      split at h
      · exact absurd ‹_› (by grind)
      · cases h

theorem guidBytes_spec {text : CString} {g : List UInt8} (h : guidBytes text = some g) :
    g.length = 16 ∧ Guid.ofSignature g = textGuid text := by
  obtain ⟨raw, hraw, rfl⟩ := Option.map_eq_some_iff.mp h
  obtain ⟨hlen, heq⟩ := rawGuid_eq hraw
  constructor
  · simp [hlen]
  · have hone : (raw.take 4).reverse.length = 4 := by simp [hlen]
    have htwo : ((raw.drop 4).take 2).reverse.length = 2 := by simp [hlen]
    have hthree : ((raw.drop 6).take 2).reverse.length = 2 := by simp [hlen]
    rw [List.append_assoc, List.append_assoc, Guid.ofSignature_append hone htwo hthree, textGuid,
      beValue, beValue, beValue, heq, List.take_take, List.drop_take, List.drop_take,
      List.drop_take, List.take_take, List.take_take]
    rfl

example :
    (guidBytes ⟨"d5a1f0e2-3c4b-4a6d-8e7f-102938475650".toList.map (·.toNat.toUInt8),
      by decide⟩).map Guid.ofSignature = some ⟨0xd5a1f0e2, 0x3c4b, 0x4a6d,
        [0x8e, 0x7f, 0x10, 0x29, 0x38, 0x47, 0x56, 0x50]⟩ := by decide

/-- The body of the hard drive node. -/
def hardDriveBody (a : EntryArgs) (g : List UInt8) : List UInt8 :=
  leBytes 4 a.partNum.toNat ++ (leBytes 8 a.partStart.toNat ++ (leBytes 8 a.partSize.toNat ++
    (g ++ (leBytes 1 0x02 ++ leBytes 1 0x02))))

/-- The string of the file node, terminator included. -/
def fileBody (a : EntryArgs) : List UInt8 := LoadOption.units (chars a.file) ++ leBytes 2 0

theorem fileBody_length (a : EntryArgs) :
    (fileBody a).length = 2 * (a.file.bytes.length + 1) := by
  simp [fileBody, chars]
  omega

/-- The device path as composed: three nodes, the file node with what its length
field has room for. -/
def pathBytes (a : EntryArgs) (g : List UInt8) : List UInt8 :=
  leBytes 1 0x04 ++ (leBytes 1 0x01 ++ (leBytes 2 42 ++ (hardDriveBody a g ++
    (leBytes 1 0x04 ++ (leBytes 1 0x04 ++ (leBytes 2 ((fileBody a).length + 4) ++ (fileBody a ++
      (leBytes 1 0x7f ++ (leBytes 1 0xff ++ (leBytes 2 4 ++ []))))))))))

theorem composePath_eq {a : EntryArgs} {dp : Buf} (h : composePath a = some dp) :
    ∃ g, guidBytes a.partGuid = some g ∧ dp = pathBytes a g := by
  simp only [composePath, Option.bind_eq_bind, Option.bind_eq_some_iff] at h
  obtain ⟨g, hg, f16, hfile, h⟩ := h
  have hf16 := putUtf16_eq _ _ _ hfile
  refine ⟨g, hg, ?_⟩
  have hbody : f16 = fileBody a := by
    rw [hf16]
    rfl
  have hlen : leBytes 2 ((4 + (fileBody a).length) % 65536) =
      leBytes 2 ((fileBody a).length + 4) := by
    rw [Nat.add_comm]
    exact leBytes_mod 2 _
  rw [← Option.some.inj h, hbody]
  simp [put, hlen, hardDriveBody, pathBytes]

theorem isText_chars (s : CString) : LoadOption.IsText (chars s) := by
  intro c hc
  obtain ⟨b, hb, rfl⟩ := List.mem_map.mp hc
  have hlt := b.toNat_lt
  refine ⟨fun hzero => ?_, by omega⟩
  obtain rfl : b = 0 := UInt8.toNat_inj.mp hzero
  exact s.no_nul hb

theorem readHardDrive_body (a : EntryArgs) {g : List UInt8} (hg : g.length = 16) :
    LoadOption.readHardDrive (hardDriveBody a g) =
      some (.hardDrive a.partNum.toNat a.partStart.toNat a.partSize.toNat (Guid.ofSignature g)
        0x02 0x02) := by
  have hnum : a.partNum.toNat < 256 ^ 4 := a.partNum.toNat_lt
  have hstart : a.partStart.toNat < 256 ^ 8 := a.partStart.toNat_lt
  have hsize : a.partSize.toNat < 256 ^ 8 := a.partSize.toNat_lt
  have hlast : readLe 1 (leBytes 1 0x02) = some (0x02, []) := rfl
  simp only [LoadOption.readHardDrive, hardDriveBody, readLe_leBytes_of_lt hnum,
    readLe_leBytes_of_lt hstart, readLe_leBytes_of_lt hsize, readBytes_append hg, readLe_leBytes,
    hlast, Option.bind_eq_bind, Option.bind_some]
  rfl

theorem readNodes_pathBytes {a : EntryArgs} {g : List UInt8} (hg : g.length = 16)
    (hsig : Guid.ofSignature g = textGuid a.partGuid) (hlen : (fileBody a).length + 4 < 256 ^ 2)
    (rounds : ℕ) : LoadOption.readNodes (rounds + 3) (pathBytes a g) = some a.nodes := by
  have hbody : (hardDriveBody a g).length = 38 := by simp [hardDriveBody, hg]
  have hhard : LoadOption.readContent 0x04 0x01 (hardDriveBody a g) = some _ :=
    readHardDrive_body a hg
  have hfile : LoadOption.readContent 0x04 0x04 (fileBody a) = some (.file (chars a.file)) := by
    simp [LoadOption.readContent, fileBody, LoadOption.wholeString_units (isText_chars a.file)]
  have hend : LoadOption.readContent 0x7f 0xff [] = some .endOfPath := rfl
  have hone := LoadOption.readNode_bytes (by decide) (by decide) (by rw [hbody]; decide) hhard
  have htwo := LoadOption.readNode_bytes (by decide) (by decide) hlen hfile
  have hthree := LoadOption.readNode_bytes (by decide) (by decide) (by decide) hend []
  rw [hbody] at hone
  have hlast := @LoadOption.readNodes_last rounds _ _ hthree rfl
  have hlater := LoadOption.readNodes_step (htwo _) (by simp) hlast
  have hall := LoadOption.readNodes_step (hone _) (by simp) hlater
  rw [pathBytes, EntryArgs.nodes, ← hsig, ← fileBody_length]
  exact hall

theorem pathBytes_length (a : EntryArgs) {g : List UInt8} (hg : g.length = 16) :
    (pathBytes a g).length = (a.nodes.map PathNode.length).sum := by
  simp [pathBytes, hardDriveBody, hg, fileBody_length, EntryArgs.nodes]
  omega

/-- The optional data behind the device path, and what a reader takes it for. -/
theorem commandLine_tail {b out : Buf} {cmdline : Option CString}
    (h : (match cmdline with
      | some s => if s.bytes = [] then some b else putUtf16 b s.bytes
      | none => some b) = some out) :
    ∃ tail, out = b ++ tail ∧
      LoadOption.readCommandLine tail = some ((cmdline.map chars).getD []) := by
  cases cmdline with
  | none => exact ⟨[], by simpa using h.symm, rfl⟩
  | some s =>
      by_cases hempty : s.bytes = []
      · simp only [if_pos hempty] at h
        exact ⟨[], by simpa using h.symm, by simp [LoadOption.readCommandLine, chars, hempty]⟩
      · simp only [if_neg hempty] at h
        refine ⟨LoadOption.units (chars s) ++ leBytes 2 0, ?_, ?_⟩
        · rw [putUtf16_eq _ _ _ h, List.append_assoc]
          rfl
        · have hne : LoadOption.units (chars s) ++ leBytes 2 0 ≠ [] := by simp [leBytes]
          rw [LoadOption.readCommandLine, if_neg hne, LoadOption.wholeString_units (isText_chars s)]
          rfl

theorem composeLoadOption_eq {a : EntryArgs} {out : Buf} (h : composeLoadOption [] a = some out) :
    ∃ g tail, guidBytes a.partGuid = some g ∧
      LoadOption.readCommandLine tail = some ((a.cmdline.map chars).getD []) ∧
      out = leBytes 4 LoadOption.activeBit ++ (leBytes 2 (pathBytes a g).length ++
        (LoadOption.units (chars a.desc) ++ (leBytes 2 0 ++ (pathBytes a g ++ tail)))) := by
  simp only [composeLoadOption, Option.bind_eq_bind, Option.bind_eq_some_iff] at h
  obtain ⟨dp, hdp, b, hdesc, h⟩ := h
  obtain ⟨g, hg, rfl⟩ := composePath_eq hdp
  obtain ⟨tail, hout, htail⟩ := commandLine_tail h
  have hlen : leBytes 2 ((pathBytes a g).length % 65536) = leBytes 2 (pathBytes a g).length :=
    leBytes_mod 2 _
  refine ⟨g, tail, hg, htail, ?_⟩
  rw [hout, put, putUtf16_eq _ _ _ hdesc]
  simp [hlen, chars, LOAD_OPTION_ACTIVE, LoadOption.activeBit]

theorem nodes_length (a : EntryArgs) :
    (a.nodes.map PathNode.length).sum = 2 * a.file.bytes.length + 52 := by
  simp [EntryArgs.nodes]
  omega

/-- A path the length fields have room for is read back with everything else. -/
theorem read_of_short {a : EntryArgs} {out : Buf} (h : composeLoadOption [] a = some out)
    (hlen : 2 * a.file.bytes.length + 52 < 2 ^ 16) :
    LoadOption.read out = some a.loadOption := by
  obtain ⟨g, tail, hg, htail, rfl⟩ := composeLoadOption_eq h
  obtain ⟨hg16, hsig⟩ := guidBytes_spec hg
  have hpath := pathBytes_length a hg16
  have hfits : (pathBytes a g).length < 256 ^ 2 := by
    rw [hpath, nodes_length]
    exact hlen
  have hnodes : LoadOption.readNodes (pathBytes a g).length (pathBytes a g) = some a.nodes := by
    obtain ⟨rounds, hrounds⟩ : ∃ rounds, (pathBytes a g).length = rounds + 3 := by
      refine ⟨(pathBytes a g).length - 3, ?_⟩
      rw [hpath, nodes_length]
      omega
    rw [hrounds]
    apply readNodes_pathBytes hg16 hsig
    rw [fileBody_length]
    omega
  simp only [LoadOption.read, readLe_leBytes_of_lt (n := 4) (v := LoadOption.activeBit) (by decide),
    readLe_leBytes_of_lt hfits, LoadOption.readString_units (isText_chars a.desc),
    readBytes_append rfl, hnodes, htail, Option.bind_eq_bind, Option.bind_some]
  rw [hpath]
  rfl

/-- The length field of the device path cannot hold what a longer path takes. -/
theorem not_read_of_long {a : EntryArgs} {out : Buf}
    (hlen : 2 ^ 16 ≤ 2 * a.file.bytes.length + 52) :
    LoadOption.read out ≠ some a.loadOption := by
  intro h
  have hlt := LoadOption.filePathListLength_lt h
  have hfield : a.loadOption.filePathListLength = 2 * a.file.bytes.length + 52 := nodes_length a
  omega

/-- A composed load option reads back as what the arguments ask for exactly when
the nodes of its path have a length that fits the field for it. -/
theorem composeLoadOption_read_iff {a : EntryArgs} {out : Buf}
    (h : composeLoadOption [] a = some out) :
    LoadOption.read out = some a.loadOption ↔ 2 * a.file.bytes.length + 52 < 2 ^ 16 := by
  constructor
  · intro hread
    by_contra hlong
    exact not_read_of_long (Nat.le_of_not_lt hlong) hread
  · exact read_of_short h

/-- Strings of ASCII are never refused. -/
theorem putUtf16_isSome {s : List UInt8} (hs : ∀ c ∈ s, c ≤ 0x7f) (b : Buf) :
    (putUtf16 b s).isSome := by
  induction s generalizing b with
  | nil => rfl
  | cons c s ih =>
      have hc : ¬ 0x7f < c := by
        have hle := hs c List.mem_cons_self
        rw [UInt8.lt_iff_toNat_lt]
        rw [UInt8.le_iff_toNat_le] at hle
        omega
      rw [putUtf16, if_neg hc]
      exact ih (fun d hd => hs d (List.mem_cons_of_mem c hd)) _

def letters (n : ℕ) : CString where
  bytes := List.replicate n 0x61
  no_nul := by
    intro h
    exact absurd (List.eq_of_mem_replicate h) (by decide)

/-- Arguments with a file path of so many letters. -/
def argsWithPath (n : ℕ) : EntryArgs where
  desc := letters 1
  partGuid := ⟨(List.replicate 8 0x61 ++ [dash] ++ List.replicate 4 0x62 ++ [dash] ++
    List.replicate 4 0x63 ++ [dash] ++ List.replicate 4 0x64 ++ [dash] ++ List.replicate 12 0x65),
    by decide⟩
  file := letters n
  cmdline := none
  partNum := 1
  partStart := 2048
  partSize := 4096

theorem composeLoadOption_argsWithPath (n : ℕ) :
    (composeLoadOption [] (argsWithPath n)).isSome := by
  have hfile : (putUtf16 [] (argsWithPath n).file.bytes).isSome :=
    putUtf16_isSome (fun c hc => by rw [List.eq_of_mem_replicate hc]; decide) []
  obtain ⟨f16, hf16⟩ := Option.isSome_iff_exists.mp hfile
  obtain ⟨g, hg⟩ : ∃ g, guidBytes (argsWithPath n).partGuid = some g := ⟨_, rfl⟩
  have hdesc : ∀ b, (putUtf16 b (argsWithPath n).desc.bytes).isSome := fun b =>
    putUtf16_isSome (fun c hc => by rw [List.eq_of_mem_replicate hc]; decide) b
  obtain ⟨dp, hdp⟩ : ∃ dp, composePath (argsWithPath n) = some dp := by
    simp [composePath, hg, hf16]
  obtain ⟨b, hb⟩ := Option.isSome_iff_exists.mp
    (hdesc (put16 (put32 [] LOAD_OPTION_ACTIVE) (UInt16.ofNat dp.length)))
  simp only [composeLoadOption, hdp, Option.bind_eq_bind, Option.bind_some, hb]
  rfl

theorem composeLoadOption_read_short :
    ∃ out, composeLoadOption [] (argsWithPath 3) = some out ∧
      LoadOption.read out = some (argsWithPath 3).loadOption := by
  refine ⟨_, rfl, ?_⟩
  exact (composeLoadOption_read_iff rfl).mpr (by decide)

/-- 32742 letters are one too many. -/
theorem composeLoadOption_read_long :
    ∃ out, composeLoadOption [] (argsWithPath 32742) = some out ∧
      LoadOption.read out ≠ some (argsWithPath 32742).loadOption := by
  obtain ⟨out, hout⟩ := Option.isSome_iff_exists.mp (composeLoadOption_argsWithPath 32742)
  refine ⟨out, hout, not_read_of_long ?_⟩
  have hlen : (argsWithPath 32742).file.bytes.length = 32742 := List.length_replicate
  rw [hlen]
  decide

end EfiBoot

end Veron
