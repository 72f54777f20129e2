/-
Reading an EFI_LOAD_OPTION: the fixed head, the description, the device path
walked node by node by the length field of each node, and the optional data.
-/
import Veron.Bytes

namespace Veron

/-- A GUID as its text writes it: three numbers and eight bytes. -/
structure Guid where
  data1 : ℕ
  data2 : ℕ
  data3 : ℕ
  data4 : List UInt8
deriving DecidableEq

/-- A signature holds the first three fields least significant byte first, the
rest in the order of the text. -/
def Guid.ofSignature (sig : List UInt8) : Guid :=
  ⟨leValue (sig.take 4), leValue ((sig.drop 4).take 2), leValue ((sig.drop 6).take 2),
    sig.drop 8⟩

theorem Guid.ofSignature_append {p q r s : List UInt8} (hp : p.length = 4) (hq : q.length = 2)
    (hr : r.length = 2) :
    Guid.ofSignature (p ++ (q ++ (r ++ s))) = ⟨leValue p, leValue q, leValue r, s⟩ := by
  have hsix : (p ++ (q ++ (r ++ s))).drop 6 = r ++ s := by
    rw [show 6 = 4 + 2 from rfl, ← List.drop_drop, List.drop_left' hp, List.drop_left' hq]
  have height : (p ++ (q ++ (r ++ s))).drop 8 = s := by
    rw [show 8 = 6 + 2 from rfl, ← List.drop_drop, hsix, List.drop_left' hr]
  rw [Guid.ofSignature, hsix, height, List.take_left' hp, List.drop_left' hp, List.take_left' hq,
    List.take_left' hr]

/-- What a device-path node says. -/
inductive NodeContent where
  | hardDrive (number start size : ℕ) (signature : Guid) (mbrType signatureType : ℕ)
  | file (path : List ℕ)
  | endOfPath
  | other (type subType : ℕ) (body : List UInt8)
deriving DecidableEq

/-- A node together with its length field. -/
structure PathNode where
  length : ℕ
  content : NodeContent
deriving DecidableEq

structure LoadOption where
  attributes : ℕ
  filePathListLength : ℕ
  description : List ℕ
  filePathList : List PathNode
  commandLine : List ℕ
deriving DecidableEq

namespace LoadOption

/-- LOAD_OPTION_ACTIVE. -/
def activeBit : ℕ := 1

/-- A CHAR16 string up to its terminator. -/
def readString : List UInt8 → Option (List ℕ × List UInt8)
  | lo :: hi :: rest =>
      if leValue [lo, hi] = 0 then some ([], rest)
      else (readString rest).map fun (s, after) => (leValue [lo, hi] :: s, after)
  | _ => none

/-- A string that fills its field. -/
def wholeString (bs : List UInt8) : Option (List ℕ) :=
  match readString bs with
  | some (s, []) => some s
  | _ => none

/-- Media device path, hard drive. -/
def readHardDrive (body : List UInt8) : Option NodeContent := do
  let (number, body) ← readLe 4 body
  let (start, body) ← readLe 8 body
  let (size, body) ← readLe 8 body
  let (signature, body) ← readBytes 16 body
  let (mbrType, body) ← readLe 1 body
  let (signatureType, body) ← readLe 1 body
  guard (body = [])
  return .hardDrive number start size (Guid.ofSignature signature) mbrType signatureType

def readContent (type subType : ℕ) (body : List UInt8) : Option NodeContent :=
  if type = 0x7f ∧ subType = 0xff then
    if body = [] then some .endOfPath else none
  else if type = 0x04 ∧ subType = 0x01 then readHardDrive body
  else if type = 0x04 ∧ subType = 0x04 then (wholeString body).map .file
  else some (.other type subType body)

/-- One node: its header gives its type and its length, header included. -/
def readNode (bs : List UInt8) : Option (PathNode × List UInt8) := do
  let (type, bs) ← readLe 1 bs
  let (subType, bs) ← readLe 1 bs
  let (length, bs) ← readLe 2 bs
  guard (4 ≤ length)
  let (body, bs) ← readBytes (length - 4) bs
  let content ← readContent type subType body
  return (⟨length, content⟩, bs)

/-- The nodes of a device path up to the End node, which is the last thing in
it.  Every node takes bytes away, so as many rounds as bytes are enough. -/
def readNodes : ℕ → List UInt8 → Option (List PathNode)
  | 0, _ => none
  | rounds + 1, bs => do
      let (node, rest) ← readNode bs
      if node.content = .endOfPath then
        guard (rest = [])
        return [node]
      else
        let nodes ← readNodes rounds rest
        return node :: nodes

/-- Optional data taken as a command line. -/
def readCommandLine (bs : List UInt8) : Option (List ℕ) :=
  if bs = [] then some [] else wholeString bs

def read (bs : List UInt8) : Option LoadOption := do
  let (attributes, bs) ← readLe 4 bs
  let (filePathListLength, bs) ← readLe 2 bs
  let (description, bs) ← readString bs
  let (path, bs) ← readBytes filePathListLength bs
  let filePathList ← readNodes path.length path
  let commandLine ← readCommandLine bs
  return { attributes, filePathListLength, description, filePathList, commandLine }

/-- The length of the device path is a 16-bit field. -/
theorem filePathListLength_lt {bs : List UInt8} {o : LoadOption} (h : read bs = some o) :
    o.filePathListLength < 256 ^ 2 := by
  simp only [read, Option.bind_eq_bind, Option.bind_eq_some_iff, Option.pure_def,
    Option.some.injEq, Prod.exists] at h
  obtain ⟨_, _, _, length, _, hlength, _, _, _, _, _, _, _, _, _, _, rfl⟩ := h
  exact readLe_lt hlength

/-- The two bytes of each character. -/
def units (s : List ℕ) : List UInt8 := s.flatMap (leBytes 2)

@[simp] theorem units_nil : units [] = [] := rfl

@[simp] theorem units_cons (c : ℕ) (s : List ℕ) : units (c :: s) = leBytes 2 c ++ units s := rfl

@[simp] theorem units_length (s : List ℕ) : (units s).length = 2 * s.length := by
  induction s with
  | nil => rfl
  | cons c s ih =>
      rw [units_cons, List.length_append, leBytes_length, ih, List.length_cons]
      omega

/-- Characters a CHAR16 string can hold before its terminator. -/
def IsText (s : List ℕ) : Prop := ∀ c ∈ s, c ≠ 0 ∧ c < 256 ^ 2

theorem readString_units {s : List ℕ} (hs : IsText s) (rest : List UInt8) :
    readString (units s ++ (leBytes 2 0 ++ rest)) = some (s, rest) := by
  induction s with
  | nil => simp [leBytes, readString, leValue]
  | cons c s ih =>
      obtain ⟨hne, hlt⟩ := hs c List.mem_cons_self
      have hrest := ih fun d hd => hs d (List.mem_cons_of_mem c hd)
      have hvalue : leValue (leBytes 2 c) = c := by
        rw [leValue_leBytes, Nat.mod_eq_of_lt hlt]
      obtain ⟨lo, hi, hbytes⟩ : ∃ lo hi, leBytes 2 c = [lo, hi] := ⟨_, _, rfl⟩
      rw [hbytes] at hvalue
      rw [units_cons, hbytes, List.append_assoc, List.cons_append, List.cons_append,
        List.nil_append, readString, hvalue, if_neg hne, hrest]
      rfl

theorem wholeString_units {s : List ℕ} (hs : IsText s) :
    wholeString (units s ++ leBytes 2 0) = some s := by
  have hread := readString_units hs []
  rw [List.append_nil] at hread
  rw [wholeString, hread]

theorem readNode_bytes {type subType : ℕ} {body : List UInt8} {content : NodeContent}
    (htype : type < 256) (hsub : subType < 256) (hlen : body.length + 4 < 256 ^ 2)
    (hcontent : readContent type subType body = some content) (rest : List UInt8) :
    readNode (leBytes 1 type ++ (leBytes 1 subType ++ (leBytes 2 (body.length + 4) ++
      (body ++ rest)))) = some (⟨body.length + 4, content⟩, rest) := by
  have hfour : 4 ≤ body.length + 4 := Nat.le_add_left 4 _
  have hbody : readBytes (body.length + 4 - 4) (body ++ rest) = some (body, rest) :=
    readBytes_append (by omega) rest
  simp only [readNode, readLe_leBytes_of_lt (n := 1) htype, readLe_leBytes_of_lt (n := 1) hsub,
    readLe_leBytes_of_lt hlen, Option.bind_eq_bind, Option.bind_some, guard, hfour, hbody,
    hcontent, ↓reduceIte, Option.pure_def]

theorem readNodes_step {rounds : ℕ} {bs rest : List UInt8} {node : PathNode}
    {nodes : List PathNode} (hnode : readNode bs = some (node, rest))
    (hcontent : node.content ≠ .endOfPath) (hrest : readNodes rounds rest = some nodes) :
    readNodes (rounds + 1) bs = some (node :: nodes) := by
  simp [readNodes, hnode, hcontent, hrest]

theorem readNodes_last {rounds : ℕ} {bs : List UInt8} {node : PathNode}
    (hnode : readNode bs = some (node, [])) (hcontent : node.content = .endOfPath) :
    readNodes (rounds + 1) bs = some [node] := by
  simp [readNodes, hnode, hcontent, guard]

end LoadOption

end Veron
