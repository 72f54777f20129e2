/-
veron-enroll: the store of wrapped master secrets and its configuration file,
and the commands that change them.
-/
import Mathlib.Data.Fin.Basic
import Mathlib.Data.List.FinRange
import Mathlib.Logic.Function.Basic
import Veron.AuthConf
import Veron.DecimalText

namespace Veron.Enroll

open AuthConf (Text)

abbrev Bytes := List UInt8

def ascii (s : String) : Text := s.toList.map fun c => c.toNat.toUInt8

/-- A sealed secret opens with the key that sealed it and no other. -/
structure Sealed where
  key : Bytes
  plain : Bytes
deriving DecidableEq

def Sealed.unseal (key : Bytes) (s : Sealed) : Option Bytes :=
  if s.key = key then some s.plain else none

/-- A wrap file: the salt lies beside what is sealed. -/
structure Wrap where
  salt : Bytes
  box : Sealed
deriving DecidableEq

/-- What is under /persist/veron-auth; a missing auth.conf reads like an empty
one. -/
structure Store where
  conf : Text
  wraps : Fin 8 → Option Wrap
  seed : Option Wrap

def Store.empty : Store := ⟨[], fun _ => none, none⟩

/-- What a run of the program meets: the media plugged in, the random bytes it
draws, and which of its writes succeed. -/
structure Env where
  mkconfdir : Bool
  media : Text → Option Bytes
  /-- on removable media, or that rule overridden -/
  accepted : Text → Bool
  salt : Bytes
  fresh : Bytes
  totpSeed : Option Bytes
  confSets : Text → Bool
  wrapWrites : Bool
  seedWrites : Bool
  unlinks : Fin 8 → Bool

-- the key derivation, which uses eight bytes of salt, and the hash the key of the
-- TOTP seed is made with
variable (kdf : Bytes → Bytes → Option Bytes) (hmac : Bytes → Bytes)

/-- A key file as it opens; there is no file without a name. -/
def readFile (media : Text → Option Bytes) (path : Text) : Option Bytes :=
  if path = [] then none else media path

/-- `veron_keyfile_derive`, on the first 65536 bytes of the file. -/
def deriveKey (media : Text → Option Bytes) (path salt : Bytes) : Option Bytes := do
  let content ← readFile media path
  let buf := content.take 65536
  if buf = [] then none else kdf buf (salt.take 8)

/-- `veron_master_from_keyfile`. -/
def masterFromKeyfile (media : Text → Option Bytes) (path : Text) (wrap : Option Wrap) :
    Option Bytes := do
  let w ← wrap
  let key ← deriveKey kdf media path w.salt
  w.box.unseal key

/-- `veron_wrap_to_keyfile`: the wrap written, if all goes well. -/
def wrapToKeyfile (env : Env) (path : Text) (master : Bytes) : Option Wrap := do
  let key ← deriveKey kdf env.media path env.salt
  if env.wrapWrites then some ⟨env.salt, key, master⟩ else none

def slotKey (i : Fin 8) : Text := ascii "keyfile" ++ [digitByte i]

def Store.slotPath (st : Store) (i : Fin 8) : Option Text := AuthConf.get 1024 (slotKey i) st.conf

/-- The value of a key read into 64 bytes. -/
def Store.setting (st : Store) (key : Text) : Option Text := AuthConf.get 64 key st.conf

/-- The master secret the first slot that unwraps gives. -/
def findMaster (media : Text → Option Bytes) (st : Store) : Option Bytes :=
  (List.finRange 8).findSome? fun i =>
    (st.slotPath i).bind fun path => masterFromKeyfile kdf media path (st.wraps i)

/-- `conf_set`, `none` when it fails and leaves the file as it was. -/
def confSet (env : Env) (key : Text) (val : Option Text) (st : Store) : Option Store :=
  if env.confSets key then some { st with conf := AuthConf.set key val st.conf } else none

/-- `conf_set` with its result ignored. -/
def trySet (env : Env) (key : Text) (val : Option Text) (st : Store) : Store :=
  (confSet env key val st).getD st

def autologin : Text := ascii "autologin"

def totpKey : Text := ascii "totp"

/-- The first slot that is free or holds the path already. -/
def freeSlot (path : Text) (st : Store) : Option (Fin 8) :=
  (List.finRange 8).find? fun i =>
    match st.slotPath i with
    | none => true
    | some v => v = path

/-- Enrolling a factor arms the gate, unless there was a choice about it. -/
def arm (env : Env) (st : Store) : Store :=
  if (st.setting autologin).isNone then trySet env autologin (some (ascii "off")) st else st

/-- The store after a command, and the exit status. -/
abbrev Result := Store × ℕ

def keyfile (env : Env) (args : List Text) (st : Store) : Result :=
  match args with
  | [] => (st, 1)
  | path :: _ =>
      if !env.accepted path || (readFile env.media path).isNone then (st, 1)
      else
        let master := (findMaster kdf env.media st).getD env.fresh
        match freeSlot path st with
        | none => (st, 1)
        | some i =>
            match wrapToKeyfile kdf env path master with
            | none => (st, 1)
            | some w =>
                let st := { st with wraps := Function.update st.wraps i (some w) }
                match confSet env (slotKey i) (some path) st with
                | none => (st, 1)
                | some st => (arm env st, 0)

/-- The seed text padded to the size of a wrapped secret. -/
def padSeed (seed : Bytes) : Bytes :=
  seed.take 63 ++ List.replicate (64 - (seed.take 63).length) 0

def totp (env : Env) (st : Store) : Result :=
  match findMaster kdf env.media st, env.totpSeed with
  | some master, some seed =>
      if !env.seedWrites then (st, 1)
      else
        let st := { st with seed := some ⟨env.salt, hmac master, padSeed seed⟩ }
        match confSet env totpKey (some (ascii "yes")) st with
        | none => (st, 1)
        | some st => (st, 0)
  | _, _ => (st, 1)

/-- A command that writes one key. -/
def setting (env : Env) (key val : Text) (st : Store) : Result :=
  match confSet env key (some val) st with
  | none => (st, 1)
  | some st => (st, 0)

def requireCommand (env : Env) (args : List Text) (st : Store) : Result :=
  match args with
  | [] => (st, 1)
  | val :: _ =>
      if val = ascii "any" ∨ val = ascii "all" then setting env (ascii "require") val st
      else (st, 1)

def autologinCommand (env : Env) (args : List Text) (st : Store) : Result :=
  match args with
  | [] => (st, 1)
  | val :: _ =>
      if val = ascii "off" then
        -- a factor has to unwrap before the gate is armed
        if (findMaster kdf env.media st).isNone then (st, 1) else setting env autologin val st
      else if val = ascii "on" then setting env autologin val st
      else (st, 1)

/-- `strtol` to base 10 and what it leaves; without digits it leaves everything. -/
def strtol (s : Text) : ℤ × Text :=
  let (neg, rest) := scanSign (s.dropWhile isSpaceByte)
  let ds := rest.takeWhile isDigitByte
  if ds = [] then (0, s)
  else
    let n : ℤ := readDecimal ds
    (if neg then -n else n, rest.dropWhile isDigitByte)

/-- The slots a `remove keyfile` is about; `none` when its argument is no slot. -/
def slotRange (which : Text) : Option (List (Fin 8)) :=
  if which = ascii "all" then some (List.finRange 8)
  else
    let (s, rest) := strtol which
    if rest ≠ [] ∨ s < 0 ∨ 7 < s then none
    else some ((List.finRange 8).filter fun i => (i : ℤ) = s)

def Store.enrolled (st : Store) : List (Fin 8) :=
  (List.finRange 8).filter fun i => (st.slotPath i).isSome

/-- One turn of the removal loop: the line, then the wrap, neither checked. -/
def removeSlot (env : Env) (st : Store) (i : Fin 8) : Store :=
  if (st.slotPath i).isNone then st
  else
    let st := trySet env (slotKey i) none st
    if env.unlinks i then { st with wraps := Function.update st.wraps i none } else st

/-- Every enrolled slot is to go while the gate is armed. -/
def Store.locksOut (st : Store) (range : List (Fin 8)) : Bool :=
  let removing := st.enrolled.filter (· ∈ range)
  st.setting autologin = some (ascii "off") && st.enrolled.length ≤ removing.length
    && 0 < st.enrolled.length

def removeKeyfile (env : Env) (args : List Text) (st : Store) : Result :=
  match args with
  | [] => (st, 1)
  | which :: _ =>
      match slotRange which with
      | none => (st, 1)
      | some range =>
          if st.locksOut range then (st, 1)
          else
            let st := range.foldl (removeSlot env) st
            let st := trySet env (ascii "keyfile") none st
            let st := trySet env (ascii "keyfile-salt") none st
            (trySet env (ascii "keyfile-hash") none st, 0)

def remove (env : Env) (args : List Text) (st : Store) : Result :=
  match args with
  | [] => (st, 1)
  | what :: rest =>
      if what = ascii "keyfile" then removeKeyfile env rest st
      else if what = ascii "totp" then (trySet env totpKey none st, 0)
      else if what = ascii "card" then (trySet env (ascii "card") none st, 0)
      else (st, 1)

/-- `main` on its arguments after the program's name. -/
def enroll (env : Env) (argv : List Text) (st : Store) : Result :=
  match argv with
  | [] => (st, 1)
  | cmd :: args =>
      if cmd = ascii "--version" then (st, 0)
      else if cmd = ascii "check" then
        (st, if (findMaster kdf env.media st).isSome then 0 else 1)
      else if !env.mkconfdir then (st, 1)
      else if cmd = ascii "keyfile" then keyfile kdf env args st
      else if cmd = ascii "totp" then totp kdf hmac env st
      else if cmd = ascii "card" then setting env (ascii "card") (ascii "yes") st
      else if cmd = ascii "require" then requireCommand env args st
      else if cmd = ascii "autologin" then autologinCommand kdf env args st
      else if cmd = ascii "remove" then remove env args st
      else if cmd = ascii "show" then (st, 0)
      else (st, 1)

/-- The store after a sequence of runs. -/
def runs (cmds : List (Env × List Text)) (st : Store) : Store :=
  cmds.foldl (fun st c => (enroll kdf hmac c.1 c.2 st).1) st

end Veron.Enroll
