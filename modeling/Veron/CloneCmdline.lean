/-
veron-efiboot clone-cmdline: a boot entry copied with another command line.  The
bytes of the source come from the firmware; every read of them is checked.
-/
import Veron.EfiBoot
import Veron.EfiVarExits

namespace Veron.CloneCmdline

open EfiBoot (Buf put putUtf16 hexv chars)
open EfiVar (Call ReadResults Results Outcome readVar writeVar)

/-- Why the verb ends before it writes; `outOfBounds` is a read of a byte that is
not there. -/
inductive Stop where
  | exited (code : ℕ) (message : String)
  | outOfBounds
deriving DecidableEq

def die (message : String) : Stop := .exited 1 message

/-- A variable's file name without the GUID. -/
abbrev Name := List Char

/-- What each variable holds. -/
abbrev Vars := Name → Option (List UInt8)

/-- `raw[i]`. -/
def byteAt (raw : List UInt8) (i : ℕ) : Except Stop UInt8 :=
  match raw[i]? with
  | some b => .ok b
  | none => .error .outOfBounds

/-- The bytes from `i` on, `n` of them. -/
def bytesAt (raw : List UInt8) (i n : ℕ) : Except Stop (List UInt8) :=
  if i + n ≤ raw.length then .ok ((raw.drop i).take n) else .error .outOfBounds

/-- `lo[off] == 0 && lo[off + 1] == 0`, where `lo` is `raw + 4`. -/
def atNul (raw : List UInt8) (off : ℕ) : Except Stop Bool := do
  if (← byteAt raw (4 + off)) = 0 then
    return (← byteAt raw (4 + (off + 1))) = 0
  else
    return false

/-- The walk to the end of the description. -/
def walk (raw : List UInt8) (lolen off : ℕ) : Except Stop ℕ :=
  if off + 1 < lolen then
    match atNul raw off with
    | .error e => .error e
    | .ok true => .ok off
    | .ok false => walk raw lolen (off + 2)
  else .ok off
termination_by lolen - off

/-- The load option rebuilt from what `read_var` has brought. -/
def rebuild (raw : List UInt8) (newcmd : CString) : Except Stop Buf := do
  if raw.length < 4 + 6 then throw (die "source entry is too small to be a boot option")
  let lolen := raw.length - 4
  let fplen : UInt16 := (← byteAt raw (4 + 4)).toUInt16 ||| (← byteAt raw (4 + 5)).toUInt16 <<< 8
  let off ← walk raw lolen 6
  if off + 1 ≥ lolen then throw (die "source entry description is not terminated")
  let keep := off + 2 + fplen.toNat
  if keep > lolen then throw (die "source entry device path runs past the option")
  let kept ← bytesAt raw 4 keep
  match putUtf16 (put [] kept) newcmd.bytes with
  | some b => return b
  | none => throw (die "non-ASCII string; refusing to guess an encoding")

/-- The digits of `hex4`, the number read so far in front. -/
def hexDigits : ℕ → List UInt8 → Except Stop ℕ
  | v, [] => .ok v
  | v, c :: s =>
      match hexv c with
      | some h => hexDigits (v <<< 4 ||| h.toNat) s
      | none => .error (die "bad hex in Boot#### number")

attribute [local simp] hexDigits

def hex4 (s : CString) : Except Stop ℕ :=
  if s.bytes.length ≠ 4 then .error (die "Boot#### number must be exactly 4 hex digits, e.g. 0050")
  else hexDigits 0 s.bytes

/-- `"Boot%04X"`. -/
def bootName (v : ℕ) : Name :=
  ['B', 'o', 'o', 't'] ++ ([12, 8, 4, 0].map fun k => (Nat.digitChar ((v >>> k) % 16)).toUpper)

/-- `"--cmdline"`. -/
def cmdlineFlag : List UInt8 := [0x2d, 0x2d, 0x63, 0x6d, 0x64, 0x6c, 0x69, 0x6e, 0x65]

/-- The options of the verb; the last command line given counts. -/
def parseOptions : Option CString → List CString → Except Stop (Option CString)
  | newcmd, [] => .ok newcmd
  | _, [f] =>
      if f.bytes = cmdlineFlag then .error (.exited 2 "--cmdline needs a value")
      else .error (die "clone-cmdline: unexpected argument")
  | _, f :: v :: args =>
      if f.bytes = cmdlineFlag then parseOptions (some v) args
      else .error (die "clone-cmdline: unexpected argument")

attribute [local simp] parseOptions

structure Arguments where
  src : CString
  dst : CString
  newcmd : CString

def parse : List CString → Except Stop Arguments
  | [] => .error (die "clone-cmdline needs a source Boot#### number")
  | [_] => .error (die "clone-cmdline needs a destination Boot#### number")
  | src :: dst :: args => do
      match ← parseOptions none args with
      | none => throw (die "clone-cmdline needs --cmdline '<new command line>'")
      | some newcmd =>
          if newcmd.bytes = [] then throw (die "clone-cmdline needs --cmdline '<new command line>'")
          return ⟨src, dst, newcmd⟩

/-- The verb up to `write_var`: the calls that read the source, and the variable
to be written with what it is to hold. -/
def compose (args : List CString) (source : ReadResults) (vars : Vars) :
    List Call × Except Stop (Name × Buf) :=
  match parse args with
  | .error e => ([], .error e)
  | .ok a =>
      match hex4 a.src with
      | .error e => ([], .error e)
      | .ok src =>
          match readVar source (vars (bootName src)) with
          | (calls, none) => (calls, .error (die "reading the source entry"))
          | (calls, some raw) =>
              (calls, do
                let b ← rebuild raw a.newcmd
                -- the destination is looked at only now
                let dst ← hex4 a.dst
                return (bootName dst, b))

structure Verb where
  calls : List Call
  vars : Vars
  result : Except Stop Unit

def cloneCmdline (noChattr : Bool) (args : List CString) (source : ReadResults) (r : Results)
    (vars : Vars) : Verb :=
  match compose args source vars with
  | (calls, .error e) => ⟨calls, vars, .error e⟩
  | (calls, .ok (name, b)) =>
      let run := writeVar noChattr b r (vars name)
      let result := match run.outcome with
        | .returned => .ok ()
        | .died m => .error (die m)
      ⟨calls ++ run.calls, fun n => if n = name then run.file else vars n, result⟩

/-- The parts of a load option in their bytes. -/
structure OptionBytes where
  attributes : List UInt8
  description : List ℕ
  path : List UInt8
  optionalData : List UInt8
  attributes_length : attributes.length = 4
  isText : LoadOption.IsText description
  path_lt : path.length < 256 ^ 2

/-- The layout; FilePathListLength is the length of the path. -/
def OptionBytes.bytes (o : OptionBytes) : List UInt8 :=
  o.attributes ++ (leBytes 2 o.path.length ++ (LoadOption.units o.description ++
    (leBytes 2 0 ++ (o.path ++ o.optionalData))))

/-- Everything through the device path. -/
def OptionBytes.kept (o : OptionBytes) : List UInt8 :=
  o.attributes ++ (leBytes 2 o.path.length ++ (LoadOption.units o.description ++
    (leBytes 2 0 ++ o.path)))

theorem OptionBytes.bytes_eq (o : OptionBytes) : o.bytes = o.kept ++ o.optionalData := by
  simp [bytes, kept]

theorem OptionBytes.kept_length (o : OptionBytes) :
    o.kept.length = 6 + 2 * o.description.length + 2 + o.path.length := by
  simp [kept, o.attributes_length]
  omega

/-- A command line as OptionalData: UTF-16 with a terminator. -/
def commandData (newcmd : CString) : List UInt8 := LoadOption.units (chars newcmd) ++ leBytes 2 0

/-- The same option with another command line. -/
def OptionBytes.withCommand (o : OptionBytes) (newcmd : CString) : OptionBytes :=
  { o with optionalData := commandData newcmd }

theorem OptionBytes.withCommand_bytes (o : OptionBytes) (newcmd : CString) :
    (o.withCommand newcmd).bytes = o.kept ++ commandData newcmd :=
  (o.withCommand newcmd).bytes_eq

theorem readCommandLine_commandData (newcmd : CString) :
    LoadOption.readCommandLine (commandData newcmd) = some (chars newcmd) := by
  have hne : commandData newcmd ≠ [] := by simp [commandData, leBytes]
  rw [LoadOption.readCommandLine, if_neg hne, commandData,
    LoadOption.wholeString_units (EfiBoot.isText_chars newcmd)]

theorem byteAt_eq {raw : List UInt8} {i : ℕ} {b : UInt8} {rest : List UInt8}
    (h : raw.drop i = b :: rest) : byteAt raw i = .ok b := by
  have hget : raw[i]? = some b := by
    have hhead := congrArg List.head? h
    rwa [List.head?_drop] at hhead
  rw [byteAt, hget]

theorem atNul_eq {raw : List UInt8} {off : ℕ} {a b : UInt8} {rest : List UInt8}
    (h : raw.drop (4 + off) = a :: b :: rest) : atNul raw off = .ok (a = 0 ∧ b = 0 : Bool) := by
  have hnext : raw.drop (4 + (off + 1)) = b :: rest := by
    rw [← Nat.add_assoc, ← List.drop_drop, h, List.drop_one, List.tail_cons]
  rw [atNul, byteAt_eq h, byteAt_eq hnext]
  by_cases ha : a = 0
  · simp [ha, bind, Except.bind, pure, Except.pure]
  · simp [ha, bind, Except.bind, pure, Except.pure]

theorem leValue_pair_eq_zero_iff (a b : UInt8) : leValue [a, b] = 0 ↔ a = 0 ∧ b = 0 := by
  rw [leValue, leValue, leValue, ← UInt8.toNat_inj, ← UInt8.toNat_inj, UInt8.toNat_zero]
  omega

/-- What has been read as a string was laid out as one. -/
theorem readString_eq_some {bs : List UInt8} {s : List ℕ} {rest : List UInt8}
    (h : LoadOption.readString bs = some (s, rest)) :
    LoadOption.IsText s ∧ bs = LoadOption.units s ++ (leBytes 2 0 ++ rest) := by
  induction bs using LoadOption.readString.induct generalizing s with
  | case1 lo hi bs hzero =>
      rw [LoadOption.readString, if_pos hzero] at h
      obtain ⟨rfl, rfl⟩ := Prod.mk.inj (Option.some.inj h)
      obtain ⟨rfl, rfl⟩ := (leValue_pair_eq_zero_iff lo hi).mp hzero
      exact ⟨fun c hc => absurd hc List.not_mem_nil, rfl⟩
  | case2 lo hi bs hne ih =>
      rw [LoadOption.readString, if_neg hne] at h
      obtain ⟨⟨t, after⟩, ht, heq⟩ := Option.map_eq_some_iff.mp h
      obtain ⟨rfl, rfl⟩ := Prod.mk.inj heq
      obtain ⟨htext, rfl⟩ := ih ht
      have hlt : leValue [lo, hi] < 256 ^ 2 := leValue_lt [lo, hi]
      have hbytes : leBytes 2 (leValue [lo, hi]) = [lo, hi] :=
        EfiVar.leValue_inj rfl (by rw [leValue_leBytes, Nat.mod_eq_of_lt hlt])
      refine ⟨fun c hc => ?_, ?_⟩
      · rcases List.mem_cons.mp hc with rfl | hc
        · exact ⟨hne, hlt⟩
        · exact htext c hc
      · rw [LoadOption.units_cons, hbytes]
        rfl
  | case3 bs hshort =>
      rw [LoadOption.readString] at h
      · cases h
      · exact hshort

theorem drop_step {raw : List UInt8} {off : ℕ} {a b : UInt8} {rest : List UInt8}
    (h : raw.drop (4 + off) = a :: b :: rest) :
    raw.drop (4 + (off + 2)) = rest ∧ off + 1 < raw.length - 4 := by
  constructor
  · rw [← Nat.add_assoc, ← List.drop_drop, h]
    rfl
  · have hlen := congrArg List.length h
    simp only [List.length_drop, List.length_cons] at hlen
    omega

/-- The walk ends at the terminator of the string that begins here, or past the
bytes when there is none. -/
theorem walk_eq (raw : List UInt8) (off : ℕ) :
    match LoadOption.readString (raw.drop (4 + off)) with
    | some (s, rest) => walk raw (raw.length - 4) off = .ok (off + 2 * s.length) ∧
        raw.drop (4 + (off + 2 * s.length + 2)) = rest ∧ off + 2 * s.length + 1 < raw.length - 4
    | none => ∃ off', walk raw (raw.length - 4) off = .ok off' ∧ raw.length - 4 ≤ off' + 1 := by
  generalize hbs : raw.drop (4 + off) = bs
  induction bs using LoadOption.readString.induct generalizing off with
  | case1 lo hi bs hzero =>
      obtain ⟨hrest, hlt⟩ := drop_step hbs
      have hnul := (leValue_pair_eq_zero_iff lo hi).mp hzero
      rw [LoadOption.readString, if_pos hzero]
      refine ⟨?_, hrest, hlt⟩
      rw [walk, if_pos hlt, atNul_eq hbs]
      simp [hnul]
  | case2 lo hi bs hne ih =>
      obtain ⟨hrest, hlt⟩ := drop_step hbs
      have hnul := mt (leValue_pair_eq_zero_iff lo hi).mpr hne
      have hstep : walk raw (raw.length - 4) off = walk raw (raw.length - 4) (off + 2) := by
        rw [walk, if_pos hlt, atNul_eq hbs]
        simp [hnul]
      have hlater := ih (off + 2) hrest
      rw [LoadOption.readString, if_neg hne, hstep]
      cases hread : LoadOption.readString bs with
      | none =>
          rw [hread] at hlater
          exact hlater
      | some found =>
          rw [hread] at hlater
          simp only [Option.map_some, List.length_cons, Nat.mul_succ] at hlater ⊢
          rw [Nat.add_comm (2 * found.1.length) 2, ← Nat.add_assoc]
          exact hlater
  | case3 bs hshort =>
      have hlt : ¬ off + 1 < raw.length - 4 := by
        have hlen := congrArg List.length hbs
        rw [List.length_drop] at hlen
        rcases bs with - | ⟨lo, - | ⟨hi, rest⟩⟩
        · rw [List.length_nil] at hlen
          omega
        · rw [List.length_singleton] at hlen
          omega
        · exact absurd rfl (hshort lo hi rest)
      rw [LoadOption.readString]
      · exact ⟨off, by rw [walk, if_neg hlt], Nat.le_of_not_lt hlt⟩
      · exact hshort

/-- `b` is the option in `raw`, behind the four bytes of the file's attributes,
with the new command line. -/
def Cloned (raw : List UInt8) (newcmd : CString) (b : Buf) : Prop :=
  ∃ (attrs : List UInt8) (o : OptionBytes), attrs.length = 4 ∧ raw = attrs ++ o.bytes ∧
    b = (o.withCommand newcmd).bytes

theorem filePathListLength_eq (a b : UInt8) :
    (a.toUInt16 ||| b.toUInt16 <<< 8).toNat = leValue [a, b] := by
  have ha : a.toNat < 2 ^ 8 := a.toNat_lt
  have hb := b.toNat_lt
  have hshift : (b.toUInt16 <<< 8).toNat = b.toNat <<< 8 := by
    rw [UInt16.toNat_shiftLeft, UInt8.toNat_toUInt16]
    apply Nat.mod_eq_of_lt
    rw [Nat.shiftLeft_eq, show (8 : UInt16).toNat % 16 = 8 from rfl]
    omega
  rw [UInt16.toNat_or, hshift, UInt8.toNat_toUInt16, EfiVar.or_shift ha]
  simp only [leValue]
  omega

/-- What becomes of the bytes behind the fixed head, taken as a string and a path
of the length the head gives. -/
theorem rebuild_eq {raw : List UInt8} (newcmd : CString) {a b : UInt8} {tail : List UInt8}
    (hhead : raw.drop 8 = a :: b :: tail) :
    rebuild raw newcmd =
      match LoadOption.readString tail with
      | none => .error (die "source entry description is not terminated")
      | some (s, rest) =>
          if rest.length < leValue [a, b] then
            .error (die "source entry device path runs past the option")
          else
            match putUtf16 ((raw.drop 4).take (6 + 2 * s.length + 2 + leValue [a, b]))
              newcmd.bytes with
            | some b => .ok b
            | none => .error (die "non-ASCII string; refusing to guess an encoding") := by
  have hlen := congrArg List.length hhead
  simp only [List.length_drop, List.length_cons] at hlen
  have hsecond : raw.drop 9 = b :: tail := by
    rw [show 9 = 8 + 1 from rfl, ← List.drop_drop, hhead, List.drop_one, List.tail_cons]
  have htail : raw.drop (4 + 6) = tail := by
    rw [show 4 + 6 = 8 + 2 from rfl, ← List.drop_drop, hhead]
    rfl
  have hwalk := walk_eq raw 6
  rw [htail] at hwalk
  rw [rebuild, if_neg (by omega), byteAt_eq hhead, byteAt_eq hsecond]
  simp only [bind, Except.bind, pure, Except.pure, filePathListLength_eq]
  cases hread : LoadOption.readString tail with
  | none =>
      rw [hread] at hwalk
      obtain ⟨off, hoff, hge⟩ := hwalk
      simp only [hoff]
      rw [if_pos hge]
      rfl
  | some found =>
      obtain ⟨s, rest⟩ := found
      rw [hread] at hwalk
      obtain ⟨hoff, hrest, hlt⟩ := hwalk
      have hrestlen := congrArg List.length hrest
      rw [List.length_drop] at hrestlen
      simp only [hoff]
      rw [if_neg (Nat.not_le_of_lt hlt)]
      by_cases hpath : rest.length < leValue [a, b]
      · rw [if_pos (by omega), if_pos hpath]
        rfl
      · rw [if_neg (by omega), if_neg hpath, bytesAt, if_pos (by omega)]
        rfl

theorem rebuild_inBounds (raw : List UInt8) (newcmd : CString) :
    rebuild raw newcmd ≠ .error .outOfBounds := by
  match hhead : raw.drop 8 with
  | [] | [_] =>
      have hlen := congrArg List.length hhead
      simp only [List.length_drop, List.length_cons, List.length_nil] at hlen
      rw [rebuild, if_pos (by omega)]
      exact nofun
  | a :: b :: tail =>
      rw [rebuild_eq newcmd hhead]
      repeat' split
      all_goals exact nofun

/-- What is kept of an option that has been walked through. -/
theorem cloned_of_read {raw : List UInt8} {newcmd : CString} {l m : UInt8}
    {tail rest : List UInt8} {s : List ℕ} {b : Buf} (hhead : raw.drop 8 = l :: m :: tail)
    (hread : LoadOption.readString tail = some (s, rest)) (hpath : leValue [l, m] ≤ rest.length)
    (hput : putUtf16 ((raw.drop 4).take (6 + 2 * s.length + 2 + leValue [l, m])) newcmd.bytes =
      some b) : Cloned raw newcmd b := by
  obtain ⟨htext, htail⟩ := readString_eq_some hread
  have hlen := congrArg List.length hhead
  simp only [List.length_drop, List.length_cons] at hlen
  have hlt : leValue [l, m] < 256 ^ 2 := leValue_lt [l, m]
  have hbytes : leBytes 2 (leValue [l, m]) = [l, m] :=
    EfiVar.leValue_inj rfl (by rw [leValue_leBytes, Nat.mod_eq_of_lt hlt])
  have hpathlen : (rest.take (leValue [l, m])).length = leValue [l, m] := by
    rw [List.length_take, Nat.min_eq_left hpath]
  let o : OptionBytes :=
    { attributes := (raw.drop 4).take 4
      description := s
      path := rest.take (leValue [l, m])
      optionalData := rest.drop (leValue [l, m])
      attributes_length := by
        rw [List.length_take, List.length_drop]
        omega
      isText := htext
      path_lt := by rwa [hpathlen] }
  have hsplit : raw.drop 4 = o.bytes := by
    have hdrop : (raw.drop 4).drop 4 = l :: m :: tail := by rw [List.drop_drop, hhead]
    rw [← List.take_append_drop 4 (raw.drop 4), hdrop, htail, OptionBytes.bytes]
    simp only [o, hpathlen, hbytes, List.take_append_drop]
    rfl
  have hkept : (raw.drop 4).take (6 + 2 * s.length + 2 + leValue [l, m]) = o.kept := by
    have hkeptlen := o.kept_length
    rw [show o.path.length = leValue [l, m] from hpathlen] at hkeptlen
    rw [hsplit, o.bytes_eq, List.take_left' hkeptlen]
  refine ⟨raw.take 4, o, ?_, ?_, ?_⟩
  · rw [List.length_take]
    omega
  · rw [← hsplit, List.take_append_drop]
  · rw [o.withCommand_bytes, EfiBoot.putUtf16_eq _ _ _ hput, hkept, List.append_assoc]
    rfl

theorem cloned_of_rebuild {raw : List UInt8} {newcmd : CString} {b : Buf}
    (h : rebuild raw newcmd = .ok b) : Cloned raw newcmd b := by
  match hhead : raw.drop 8 with
  | [] | [_] =>
      have hlen := congrArg List.length hhead
      simp only [List.length_drop, List.length_cons, List.length_nil] at hlen
      rw [rebuild, if_pos (by omega)] at h
      cases h
  | l :: m :: tail =>
      rw [rebuild_eq newcmd hhead] at h
      cases hread : LoadOption.readString tail with
      | none =>
          rw [hread] at h
          cases h
      | some found =>
          obtain ⟨s, rest⟩ := found
          obtain ⟨htext, htail⟩ := readString_eq_some hread
          rw [hread] at h
          dsimp only at h
          split at h
          · cases h
          · split at h
            · rename_i hnot _ b' hput
              obtain rfl := Except.ok.inj h
              exact cloned_of_read hhead hread (Nat.le_of_not_lt hnot) hput
            · cases h

theorem rebuild_bytes {attrs : List UInt8} (hattrs : attrs.length = 4) (o : OptionBytes)
    {newcmd : CString} (hascii : ∀ c ∈ newcmd.bytes, c ≤ 0x7f) :
    rebuild (attrs ++ o.bytes) newcmd = .ok (o.withCommand newcmd).bytes := by
  obtain ⟨l, m, hlm⟩ : ∃ l m, leBytes 2 o.path.length = [l, m] := ⟨_, _, rfl⟩
  have hvalue : leValue [l, m] = o.path.length := by
    rw [← hlm, leValue_leBytes, Nat.mod_eq_of_lt o.path_lt]
  have hfour : (attrs ++ o.bytes).drop 4 = o.bytes := List.drop_left' hattrs
  have hhead : (attrs ++ o.bytes).drop 8 = l :: m :: (LoadOption.units o.description ++
      (leBytes 2 0 ++ (o.path ++ o.optionalData))) := by
    rw [show 8 = 4 + 4 from rfl, ← List.drop_drop, hfour, OptionBytes.bytes,
      List.drop_left' o.attributes_length, hlm]
    rfl
  have hkept : o.bytes.take (6 + 2 * o.description.length + 2 + o.path.length) = o.kept := by
    rw [o.bytes_eq, List.take_left' o.kept_length]
  obtain ⟨b, hb⟩ := Option.isSome_iff_exists.mp (EfiBoot.putUtf16_isSome hascii o.kept)
  have hout := EfiBoot.putUtf16_eq _ _ _ hb
  rw [rebuild_eq newcmd hhead, LoadOption.readString_units o.isText]
  dsimp only
  rw [hvalue, if_neg (by simp), hfour, hkept, hb, hout, o.withCommand_bytes, List.append_assoc]
  rfl

theorem parseOptions_inBounds (newcmd : Option CString) (args : List CString) :
    parseOptions newcmd args ≠ .error .outOfBounds := by
  induction newcmd, args using parseOptions.induct with
  | case1 => exact nofun
  | case2 _ f hflag => rw [parseOptions, if_pos hflag]; exact nofun
  | case3 _ f hflag => rw [parseOptions, if_neg hflag]; exact nofun
  | case4 _ f v args hflag ih => rwa [parseOptions, if_pos hflag]
  | case5 _ f v args hflag => rw [parseOptions, if_neg hflag]; exact nofun

theorem parse_inBounds (args : List CString) : parse args ≠ .error .outOfBounds := by
  match args with
  | [] | [_] => exact nofun
  | src :: dst :: args =>
      have hoptions := parseOptions_inBounds none args
      rw [parse]
      cases hparse : parseOptions none args with
      | error e =>
          rw [hparse] at hoptions
          exact fun h => hoptions (by cases h; rfl)
      | ok newcmd =>
          simp only [bind, Except.bind]
          cases newcmd with
          | none => exact nofun
          | some newcmd =>
              dsimp only
              split <;> exact nofun

theorem hexDigits_inBounds (v : ℕ) (s : List UInt8) : hexDigits v s ≠ .error .outOfBounds := by
  induction s generalizing v with
  | nil => exact nofun
  | cons c s ih =>
      rw [hexDigits]
      split
      · exact ih _
      · exact nofun

theorem hex4_inBounds (s : CString) : hex4 s ≠ .error .outOfBounds := by
  rw [hex4]
  split
  · exact nofun
  · exact hexDigits_inBounds 0 s.bytes

theorem compose_inBounds (args : List CString) (source : ReadResults) (vars : Vars) :
    (compose args source vars).2 ≠ .error .outOfBounds := by
  have hparse := parse_inBounds args
  rw [compose]
  cases ha : parse args with
  | error e =>
      rw [ha] at hparse
      exact fun h => hparse (by cases h; rfl)
  | ok a =>
      dsimp only
      have hsrc := hex4_inBounds a.src
      cases hs : hex4 a.src with
      | error e =>
          rw [hs] at hsrc
          exact fun h => hsrc (by cases h; rfl)
      | ok src =>
          dsimp only
          split
          · exact nofun
          · rename_i calls raw _
            have hrebuild := rebuild_inBounds raw a.newcmd
            have hdst := hex4_inBounds a.dst
            cases hb : rebuild raw a.newcmd with
            | error e =>
                rw [hb] at hrebuild
                exact fun h => hrebuild (by cases h; rfl)
            | ok b =>
                cases hd : hex4 a.dst with
                | error e =>
                    rw [hd] at hdst
                    exact fun h => hdst (by cases h; rfl)
                | ok dst => exact nofun

theorem compose_not_writes (args : List CString) (source : ReadResults) (vars : Vars) :
    ¬ EfiVar.Writes (compose args source vars).1 := by
  have hnil : ¬ EfiVar.Writes [] := by simp [EfiVar.Writes]
  rw [compose]
  cases parse args with
  | error e => exact hnil
  | ok a =>
      dsimp only
      cases hex4 a.src with
      | error e => exact hnil
      | ok src =>
          have hquiet := EfiVar.readVar_quiet source (vars (bootName src))
          dsimp only
          rcases hread : readVar source (vars (bootName src)) with ⟨calls, _ | raw⟩
          · rw [hread] at hquiet
            exact hquiet.2
          · rw [hread] at hquiet
            exact hquiet.2

/-- What the variable is to hold, and where the verb has it from. -/
theorem compose_eq_ok {args : List CString} {source : ReadResults} {vars : Vars} {name : Name}
    {b : Buf} (h : (compose args source vars).2 = .ok (name, b)) :
    ∃ a src dst raw, parse args = .ok a ∧ hex4 a.src = .ok src ∧ hex4 a.dst = .ok dst ∧
      vars (bootName src) = some raw ∧ name = bootName dst ∧ Cloned raw a.newcmd b := by
  rw [compose] at h
  cases ha : parse args with
  | error e =>
      rw [ha] at h
      cases h
  | ok a =>
      rw [ha] at h
      dsimp only at h
      cases hs : hex4 a.src with
      | error e =>
          rw [hs] at h
          cases h
      | ok src =>
          rw [hs] at h
          dsimp only at h
          rcases hread : readVar source (vars (bootName src)) with ⟨calls, _ | raw⟩
          · rw [hread] at h
            cases h
          · rw [hread] at h
            dsimp only at h
            have hsnd : (readVar source (vars (bootName src))).2 = some raw := by rw [hread]
            cases hb : rebuild raw a.newcmd with
            | error e =>
                rw [hb] at h
                cases h
            | ok b' =>
                rw [hb] at h
                cases hd : hex4 a.dst with
                | error e =>
                    rw [hd] at h
                    cases h
                | ok dst =>
                    rw [hd] at h
                    obtain ⟨rfl, rfl⟩ := Prod.mk.inj (Except.ok.inj h)
                    exact ⟨a, src, dst, raw, rfl, hs, hd, (EfiVar.readVar_eq_some_iff.mp hsnd).1,
                      rfl, cloned_of_rebuild hb⟩

theorem compose_of_bytes {args : List CString} {source : ReadResults} {vars : Vars}
    {a : Arguments} {src dst : ℕ} {attrs : List UInt8} {o : OptionBytes}
    (ha : parse args = .ok a) (hsrc : hex4 a.src = .ok src) (hdst : hex4 a.dst = .ok dst)
    (hascii : ∀ c ∈ a.newcmd.bytes, c ≤ 0x7f) (hattrs : attrs.length = 4)
    (hvar : vars (bootName src) = some (attrs ++ o.bytes))
    (hwhole : source.Whole (attrs ++ o.bytes).length) :
    (compose args source vars).2 = .ok (bootName dst, (o.withCommand a.newcmd).bytes) := by
  have hlen : 4 ≤ (attrs ++ o.bytes).length := by
    rw [List.length_append]
    omega
  have hread := EfiVar.readVar_eq_some_iff.mpr ⟨hvar, hlen, hwhole⟩
  rw [compose, ha]
  simp only [hsrc]
  rcases hpair : readVar source (vars (bootName src)) with ⟨calls, cur⟩
  rw [hpair] at hread
  obtain rfl : cur = some (attrs ++ o.bytes) := hread
  dsimp only
  rw [rebuild_bytes hattrs o hascii, hdst]
  rfl

/-- The process has ended before anything was written. -/
structure Verb.Untouched (vars : Vars) (run : Verb) : Prop where
  failed : ∃ e, run.result = .error e
  unwritten : ¬ EfiVar.Writes run.calls
  vars : run.vars = vars

/-- Nothing but the message is written, to one variable only, which holds it if the
process ends well. -/
structure Verb.WritesOnly (vars : Vars) (name : Name) (msg : List UInt8) (run : Verb) :
    Prop where
  message : ∀ m, .write m ∈ run.calls → m = msg
  others : ∀ n, n ≠ name → run.vars n = vars n
  stored : run.result = .ok () → run.vars name = some msg

theorem cloneCmdline_of_error {noChattr : Bool} {args : List CString} {source : ReadResults}
    {r : Results} {vars : Vars} {calls : List Call} {e : Stop}
    (h : compose args source vars = (calls, .error e)) :
    cloneCmdline noChattr args source r vars = ⟨calls, vars, .error e⟩ := by
  rw [cloneCmdline, h]

theorem cloneCmdline_of_ok {noChattr : Bool} {args : List CString} {source : ReadResults}
    {r : Results} {vars : Vars} {calls : List Call} {name : Name} {b : Buf}
    (h : compose args source vars = (calls, .ok (name, b))) :
    (cloneCmdline noChattr args source r vars).result ≠ .error .outOfBounds ∧
      ((writeVar noChattr b r (vars name)).outcome = .returned →
        (cloneCmdline noChattr args source r vars).result = .ok ()) ∧
      (cloneCmdline noChattr args source r vars).WritesOnly vars name (EfiVar.message b) := by
  have hcalls := compose_not_writes args source vars
  rw [h] at hcalls
  rw [cloneCmdline, h]
  dsimp only
  refine ⟨?_, fun hreturned => by rw [hreturned], fun m hm => ?_, fun n hn => if_neg hn, ?_⟩
  · cases (writeVar noChattr b r (vars name)).outcome <;> exact nofun
  · rcases List.mem_append.mp hm with hm | hm
    · exact absurd ⟨m, hm⟩ hcalls
    · exact EfiVar.writeVar_message hm
  · intro hresult
    refine (if_pos rfl).trans (EfiVar.writeVar_stored ?_)
    cases hout : (writeVar noChattr b r (vars name)).outcome with
    | returned => rfl
    | died m =>
        rw [hout] at hresult
        cases hresult

/-- What the verb does, whatever the variables hold and the system calls answer: it
never reads a byte that is not there; it ends with an error and has written
nothing, or it writes, to the destination only, the load option of the source
with the new command line; and no load option is refused. -/
theorem cloneCmdline_spec (noChattr : Bool) (args : List CString) (source : ReadResults)
    (r : Results) (vars : Vars) :
    (cloneCmdline noChattr args source r vars).result ≠ .error .outOfBounds ∧
      ((cloneCmdline noChattr args source r vars).Untouched vars ∨
        ∃ a src dst raw b, parse args = .ok a ∧ hex4 a.src = .ok src ∧ hex4 a.dst = .ok dst ∧
          vars (bootName src) = some raw ∧ Cloned raw a.newcmd b ∧
          (cloneCmdline noChattr args source r vars).WritesOnly vars (bootName dst)
            (EfiVar.message b)) ∧
      ∀ a src dst attrs o, parse args = .ok a → hex4 a.src = .ok src → hex4 a.dst = .ok dst →
        (∀ c ∈ a.newcmd.bytes, c ≤ 0x7f) → attrs.length = 4 →
        vars (bootName src) = some (attrs ++ OptionBytes.bytes o) →
        source.Whole (attrs ++ o.bytes).length → r.Obliging (o.withCommand a.newcmd).bytes →
        (cloneCmdline noChattr args source r vars).result = .ok () := by
  have hbounds := compose_inBounds args source vars
  have hcalls := compose_not_writes args source vars
  rcases hcompose : compose args source vars with ⟨calls, e | ⟨name, b⟩⟩
  · rw [hcompose] at hbounds hcalls
    rw [cloneCmdline_of_error hcompose]
    refine ⟨fun h => hbounds (by cases h; rfl), Or.inl ⟨⟨e, rfl⟩, hcalls, rfl⟩, ?_⟩
    intro a src dst attrs o ha hsrc hdst hascii hattrs hvar hwhole _
    have hok := compose_of_bytes ha hsrc hdst hascii hattrs hvar hwhole
    rw [hcompose] at hok
    cases hok
  · have hsnd : (compose args source vars).2 = .ok (name, b) := by rw [hcompose]
    obtain ⟨hbound, hreturned, hwrites⟩ := @cloneCmdline_of_ok noChattr _ _ r _ _ _ _ hcompose
    refine ⟨hbound, Or.inr ?_, ?_⟩
    · obtain ⟨a, src, dst, raw, ha, hsrc, hdst, hvar, rfl, hcloned⟩ := compose_eq_ok hsnd
      exact ⟨a, src, dst, raw, b, ha, hsrc, hdst, hvar, hcloned, hwrites⟩
    · intro a src dst attrs o ha hsrc hdst hascii hattrs hvar hwhole hobliging
      have hok := compose_of_bytes ha hsrc hdst hascii hattrs hvar hwhole
      rw [hsnd] at hok
      obtain ⟨rfl, rfl⟩ := Prod.mk.inj (Except.ok.inj hok)
      exact hreturned (EfiVar.writeVar_of_obliging hobliging)

/-- An option with an empty description, the shortest path and other data. -/
def smallOption : OptionBytes where
  attributes := [1, 0, 0, 0]
  description := []
  path := [0x7f, 0xff, 4, 0]
  optionalData := [0x62]
  attributes_length := rfl
  isText := nofun
  path_lt := by decide

def smallArguments : Arguments :=
  ⟨⟨[0x30, 0x30, 0x30, 0x31], by decide⟩, ⟨[0x30, 0x30, 0x35, 0x30], by decide⟩,
    ⟨[0x61], by decide⟩⟩

/-- `clone-cmdline 0001 0050 --cmdline a`. -/
def smallArgs : List CString :=
  [smallArguments.src, smallArguments.dst, ⟨cmdlineFlag, by decide⟩, smallArguments.newcmd]

/-- Calls that all answer well, and store what they are to store. -/
def smallResults : Results where
  first := ⟨.error .ENOENT, .ok (), .ok 0⟩
  clear := ⟨.ok (), .ok 0, .ok ()⟩
  attempts _ := ⟨.ok (), .ok 20, some (EfiVar.message
    (smallOption.withCommand smallArguments.newcmd).bytes)⟩
  restore := ⟨.ok (), .ok 0, .ok ()⟩
  back := ⟨.ok (), .ok (), .ok 20⟩

theorem smallResults_obliging :
    smallResults.Obliging (smallOption.withCommand smallArguments.newcmd).bytes where
  opened := rfl
  flags := ⟨0, rfl⟩
  set := rfl
  attempt := rfl
  back := ⟨rfl, rfl, 20, rfl, by decide⟩

theorem cloneCmdline_small :
    (cloneCmdline false smallArgs ⟨.ok (), .ok (), .ok 17⟩ smallResults
      fun n => if n = bootName 1 then some ([7, 0, 0, 0] ++ smallOption.bytes) else none).result =
        .ok () :=
  (cloneCmdline_spec false smallArgs ⟨.ok (), .ok (), .ok 17⟩ smallResults _).2.2 smallArguments
    1 0x50 [7, 0, 0, 0] smallOption rfl rfl rfl (List.forall_mem_singleton.mpr (by decide)) rfl
    (if_pos rfl)
    ⟨rfl, rfl, 17, rfl, by decide⟩ smallResults_obliging

/-- The parts of a composed entry, and how one more command line is laid out behind them. -/
theorem composed_parts {a : EfiBoot.EntryArgs} {out : Buf}
    (h : EfiBoot.composeLoadOption [] a = some out)
    (hlen : 2 * a.file.bytes.length + 52 < 2 ^ 16) :
    ∃ o : OptionBytes, out = o.bytes ∧ ∀ newcmd : CString, newcmd.bytes ≠ [] →
      (∀ c ∈ newcmd.bytes, c ≤ 0x7f) →
        EfiBoot.composeLoadOption [] { a with cmdline := some newcmd } =
          some (o.withCommand newcmd).bytes := by
  simp only [EfiBoot.composeLoadOption, Option.bind_eq_bind, Option.bind_eq_some_iff] at h
  obtain ⟨dp, hdp, b, hdesc, h⟩ := h
  obtain ⟨g, hg, rfl⟩ := EfiBoot.composePath_eq hdp
  obtain ⟨tail, hout, -⟩ := EfiBoot.commandLine_tail h
  have hpath := EfiBoot.pathBytes_length a (EfiBoot.guidBytes_spec hg).1
  rw [EfiBoot.nodes_length] at hpath
  let o : OptionBytes :=
    { attributes := leBytes 4 LoadOption.activeBit
      description := chars a.desc
      path := EfiBoot.pathBytes a g
      optionalData := tail
      attributes_length := rfl
      isText := EfiBoot.isText_chars a.desc
      path_lt := by omega }
  have hkept : put b (EfiBoot.pathBytes a g) = o.kept := by
    have hfield : leBytes 2 ((EfiBoot.pathBytes a g).length % 65536) =
        leBytes 2 (EfiBoot.pathBytes a g).length := leBytes_mod 2 _
    rw [put, EfiBoot.putUtf16_eq _ _ _ hdesc]
    simp [o, OptionBytes.kept, hfield, chars, EfiBoot.LOAD_OPTION_ACTIVE, LoadOption.activeBit]
  refine ⟨o, by rw [hout, hkept, o.bytes_eq], fun newcmd hne hascii => ?_⟩
  obtain ⟨b', hb'⟩ := Option.isSome_iff_exists.mp
    (EfiBoot.putUtf16_isSome hascii (put b (EfiBoot.pathBytes a g)))
  have hdp' : EfiBoot.composePath { a with cmdline := some newcmd } =
      some (EfiBoot.pathBytes a g) := hdp
  simp only [EfiBoot.composeLoadOption, Option.bind_eq_bind, hdp', Option.bind_some, hdesc,
    if_neg hne]
  rw [hb', EfiBoot.putUtf16_eq _ _ _ hb', hkept, o.withCommand_bytes, List.append_assoc]
  rfl

/-- To clone an entry the program has composed is to compose it with the new command line; the
firmware reads the same entry with that command line. -/
theorem rebuild_composed {attrs : List UInt8} {a : EfiBoot.EntryArgs} {out : Buf}
    {newcmd : CString} (hattrs : attrs.length = 4)
    (h : EfiBoot.composeLoadOption [] a = some out)
    (hlen : 2 * a.file.bytes.length + 52 < 2 ^ 16) (hne : newcmd.bytes ≠ [])
    (hascii : ∀ c ∈ newcmd.bytes, c ≤ 0x7f) :
    ∃ b, rebuild (attrs ++ out) newcmd = .ok b ∧
      EfiBoot.composeLoadOption [] { a with cmdline := some newcmd } = some b ∧
      LoadOption.read b = some { a.loadOption with commandLine := chars newcmd } := by
  obtain ⟨o, rfl, hcompose⟩ := composed_parts h hlen
  have hnew := hcompose newcmd hne hascii
  exact ⟨_, rebuild_bytes hattrs o hascii, hnew, EfiBoot.read_of_short hnew hlen⟩

/-- An entry for a file with a name of three letters, cloned with `a`. -/
theorem rebuild_composed_short : ∃ out b,
    EfiBoot.composeLoadOption [] (EfiBoot.argsWithPath 3) = some out ∧
      rebuild ([7, 0, 0, 0] ++ out) smallArguments.newcmd = .ok b ∧
      LoadOption.read b = some { (EfiBoot.argsWithPath 3).loadOption with
        commandLine := chars smallArguments.newcmd } := by
  obtain ⟨out, hout⟩ := Option.isSome_iff_exists.mp (EfiBoot.composeLoadOption_argsWithPath 3)
  obtain ⟨b, hb, -, hread⟩ := @rebuild_composed [7, 0, 0, 0] _ out smallArguments.newcmd rfl hout
    (by decide) (by decide) (List.forall_mem_singleton.mpr (by decide))
  exact ⟨out, b, hout, hb, hread⟩

end Veron.CloneCmdline
