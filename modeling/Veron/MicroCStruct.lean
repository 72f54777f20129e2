/-
The layout of structs and unions in micro-c, `create_struct` of `cc_types.c`, on a 64-bit
target.  A definition is read as far as its members are concerned: the types, the declarators
and the constants in them.
-/
import Mathlib.Data.Int.Notation
import Veron.MicroCStrings

namespace Veron.MicroC

/-- What an `int` holds of a number. -/
def wrap (x : ℤ) : ℤ := Int.bmod x (2 ^ 32)

/-- What a `struct type` holds as the record of a member. -/
structure Field where
  name : Token
  size : ℤ
  /-- The size of its type, for an array that of an element. -/
  typeSize : ℤ
  offset : ℤ
  /-- Zero where the member is no bit-field. -/
  bitWidth : ℤ
  bitOffset : ℤ
  isArray : Bool

/-- The members of a struct or union, those of an anonymous one among them.  What else is in
the types of named members is left out: no lookup in the struct comes to it. -/
inductive Member where
  | named (field : Field)
  | anonymous (field : Field) (isUnion : Bool) (inner : List Member)

def Member.field : Member → Field
  | .named field => field
  | .anonymous field _ _ => field

def Member.withField (field : Field) : Member → Member
  | .named _ => .named field
  | .anonymous _ isUnion inner => .anonymous field isUnion inner

def Field.shift (offset : ℤ) (f : Field) : Field :=
  { f with offset := wrap (f.offset + offset) }

mutual

def Member.shift (offset : ℤ) : Member → Member
  | .named field => .named (field.shift offset)
  | .anonymous field isUnion inner =>
      .anonymous (field.shift offset) isUnion (offsetAnonymousMembers offset inner)

/-- `offset_anonymous_members`. -/
def offsetAnonymousMembers (offset : ℤ) : List Member → List Member
  | [] => []
  | m :: ms => m.shift offset :: offsetAnonymousMembers offset ms

end

mutual

def Member.lookup (name : Token) : Member → Option Field
  | .named field => if field.name = name then some field else none
  | .anonymous _ _ inner => lookupMember name inner

/-- `lookup_member`; where a struct has no such member, the compiler stops. -/
def lookupMember (name : Token) : List Member → Option Field
  | [] => none
  | m :: ms => (m.lookup name).or (lookupMember name ms)

end

/-- What is used of a type. -/
structure TypeInfo where
  size : ℤ
  isUnion : Bool
  /-- Its name is "anonymous struct" or "anonymous union". -/
  unnamed : Bool
  hasMembers : Bool
  /-- For a type with a name no one looks at them. -/
  members : List Member

/-- The first declarator of a declaration.  An array has its length, a bit-field its width. -/
inductive Declarator where
  | anonymous
  | functionPointer (name : Token) (length : Option ℤ)
  | named (name : Token) (width length : Option ℤ)

/-- A declarator after a comma, with the size of its type. -/
structure Extra where
  name : Token
  typeSize : ℕ
  width : Option ℤ

mutual

/-- The type at the head of a declaration: one with a name, whose size is zero before it is
defined, or one that is defined there. -/
inductive TypeName where
  | known (size : ℕ) (hasMembers : Bool)
  | define (isUnion tagged : Bool) (members : List Declaration)

/-- The declaration of members: a type, stars and declarators. -/
inductive Declaration where
  | mk (type : TypeName) (stars : ℕ) (first : Declarator) (more : List Extra)

end

def registerSize : ℤ := 8

/-- The type that is `stars` times `indirect`. -/
def TypeInfo.indirect (t : TypeInfo) (stars : ℕ) : TypeInfo :=
  if stars = 0 then t
  else if stars = 1 then { t with size := registerSize }
  else { t with size := registerSize, hasMembers := false, members := [] }

/-- The end of `build_member`: the size of a member, of an array by its length. -/
def buildSize (f : Field) : Option ℤ → Except Fault Field
  | none => .ok { f with size := f.typeSize }
  | some length =>
      if wrap (length * f.typeSize) = 0 then
        .error (.exit "Struct only supports [num] form\n")
      else .ok { f with size := wrap (length * f.typeSize), isArray := true }

/-- `build_member`, for a member of this type. -/
def buildMember (offset : ℤ) (type : TypeInfo) : Declarator → Except Fault Member
  | .functionPointer name length =>
      .named <$> buildSize ⟨name, 0, registerSize, offset, 0, 0, false⟩ length
  | .named name none length =>
      .named <$> buildSize ⟨name, 0, type.size, offset, 0, 0, false⟩ length
  | .named name (some width) length =>
      if width < 1 then .error (.exit "bitfield width must be at least 1\n")
      else if wrap (type.size * 8) < width then .error (.exit "bitfield wider than its type\n")
      else .named <$> buildSize ⟨name, 0, type.size, offset, width, 0, false⟩ length
  | .anonymous =>
      if !type.hasMembers then .error (.exit "Missing name for non-struct/union type.\n")
      else if !type.unnamed then .error (.exit "Anonymous members can not have a type name.\n")
      else .ok (.anonymous ⟨[], type.size, type.size, offset, 0, 0, false⟩ type.isUnion
        (offsetAnonymousMembers offset type.members))

/-- The variables of `create_struct`, and the members so far, the last one first. -/
structure Layout where
  offset : ℤ
  largestMemberSize : ℤ
  bitCursor : ℤ
  unitOffset : ℤ
  unitSize : ℤ
  members : List Member

def Layout.start : Layout := ⟨0, 0, 0, 0, 0, []⟩

/-- The greatest power of two that is not above a size and not above the size of a register. -/
def alignment (size : ℤ) : ℤ :=
  if 8 ≤ size then 8 else if 4 ≤ size then 4 else if 2 ≤ size then 2 else 1

def alignUp (align offset : ℤ) : ℤ :=
  if 1 < align ∧ offset.tmod align ≠ 0 then wrap (offset + (align - offset.tmod align))
  else offset

/-- The storage unit of a bit-field: the open one where it has room, or a new one. -/
def Layout.openUnit (st : Layout) (f : Field) : Layout :=
  if st.bitCursor = 0 ∨ f.typeSize ≠ st.unitSize ∨
      wrap (st.unitSize * 8) < wrap (st.bitCursor + f.bitWidth) then
    { st with bitCursor := 0, unitOffset := st.offset, unitSize := f.typeSize }
  else st

/-- A bit-field in its unit. -/
def Layout.inUnit (st : Layout) (f : Field) : Field :=
  { f with offset := st.unitOffset, bitOffset := st.bitCursor }

/-- Another member, and the offset behind it. -/
def Layout.advance (isUnion : Bool) (st : Layout) (m : Member) (memberSize : ℤ) : Layout :=
  let size := if m.field.isArray then m.field.typeSize else memberSize
  { st with
    offset := if isUnion then 0 else wrap (st.offset + memberSize)
    largestMemberSize := max st.largestMemberSize size
    members := m :: st.members }

/-- A member that `build_member` made. -/
def placeMember (isUnion : Bool) (st : Layout) (m : Member) : Except Fault Layout :=
  let f := m.field
  if f.bitWidth = 0 then
    let offset := alignUp (alignment (if f.isArray then f.typeSize else f.size)) st.offset
    let offset' := if offset = st.offset then f.offset else offset
    if f.size = 0 then .error (.exit "Can not use non-defined type in object.\n")
    else .ok ({ st with offset := offset, bitCursor := 0 }.advance isUnion
      (m.withField { f with offset := offset' }) f.size)
  else
    let st : Layout := st.openUnit f
    let f : Field := { st.inUnit f with size := st.unitSize }
    if st.unitSize = 0 then .error (.exit "Can not use non-defined type in object.\n")
    else
      let offset := if f.bitOffset ≠ 0 then wrap (st.offset - st.unitSize) else st.offset
      .ok ({ st with offset := offset, bitCursor := wrap (st.bitCursor + f.bitWidth) }.advance
        isUnion (m.withField f) st.unitSize)

/-- A member behind a comma. -/
def placeExtra (isUnion : Bool) (st : Layout) (e : Extra) : Layout :=
  let f : Field := ⟨e.name, e.typeSize, e.typeSize, st.offset, 0, 0, false⟩
  match e.width with
  | none => st.advance isUnion (.named f) f.size
  | some width =>
      let f := { f with bitWidth := width }
      let st : Layout := st.openUnit f
      let f := st.inUnit f
      let f : Field := { f with size := if f.bitOffset = 0 then st.unitSize else 0 }
      { st with bitCursor := wrap (st.bitCursor + width) }.advance isUnion (.named f) f.size

/-- The end of `create_struct`: the members in their order, and the size rounded up. -/
def Layout.finish (isUnion tagged : Bool) (st : Layout) : TypeInfo where
  size := alignUp (alignment st.largestMemberSize)
    (if isUnion then st.largestMemberSize else st.offset)
  isUnion := isUnion
  unnamed := !tagged
  hasMembers := !st.members.isEmpty
  members := st.members.reverse

mutual

/-- `type_name`; a definition in place is for `create_struct`. -/
def TypeName.read : TypeName → Except Fault TypeInfo
  | .known size hasMembers => .ok ⟨size, false, false, hasMembers, []⟩
  | .define isUnion tagged members => do
      let st ← structMembers isUnion .start members
      .ok (st.finish isUnion tagged)

/-- The loop of `create_struct`. -/
def structMembers (isUnion : Bool) (st : Layout) : List Declaration → Except Fault Layout
  | [] => .ok st
  | d :: ds => do
      let st ← d.place isUnion st
      structMembers isUnion st ds

def Declaration.place (isUnion : Bool) (st : Layout) : Declaration → Except Fault Layout
  | .mk type stars first more => do
      let t ← type.read
      let m ← buildMember st.offset (t.indirect stars) first
      let st ← placeMember isUnion st m
      .ok (more.foldl (placeExtra isUnion) st)

end

/-- `create_struct`, from the brace on. -/
def createStruct (isUnion tagged : Bool) (members : List Declaration) : Except Fault TypeInfo :=
  (TypeName.define isUnion tagged members).read

end Veron.MicroC
