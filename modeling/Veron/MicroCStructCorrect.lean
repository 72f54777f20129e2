/-
When the layouts of `create_struct` keep their members inside, aligned and apart.
-/
import Mathlib.Data.List.Pairwise
import Mathlib.Order.Basic
import Mathlib.Tactic.Common
import Veron.MicroCStruct

namespace Veron.MicroC

open SelfAssembler (Byte ch text)

mutual

/-- The named members under one, those of an anonymous one for itself. -/
def Member.fields : Member → List Field
  | .named f => [f]
  | .anonymous _ _ inner => fields inner

def fields : List Member → List Field
  | [] => []
  | m :: ms => m.fields ++ fields ms

end

/-- The bytes of a member: of a bit-field those of its unit. -/
def Field.bytes (f : Field) : ℤ := if f.bitWidth = 0 then f.size else f.typeSize

/-- What a member is aligned to, an array as its elements. -/
def Field.align (f : Field) : ℤ := alignment (if f.isArray then f.typeSize else f.bytes)

/-- A member inside so many bytes. -/
structure Field.Sits (total : ℤ) (f : Field) : Prop where
  start : 0 ≤ f.offset
  stop : f.offset + f.bytes ≤ total
  aligned : f.align ∣ f.offset
  padded : f.align ∣ total
  bits : f.bitWidth ≠ 0 →
    0 < f.bitWidth ∧ 0 ≤ f.bitOffset ∧ f.bitOffset + f.bitWidth ≤ f.typeSize * 8

/-- No byte is in both, or they are bit-fields of one unit and no bit is. -/
def Field.Apart (f g : Field) : Prop :=
  f.offset + f.bytes ≤ g.offset ∨ g.offset + g.bytes ≤ f.offset ∨
    f.bitWidth ≠ 0 ∧ g.bitWidth ≠ 0 ∧ f.offset = g.offset ∧ f.typeSize = g.typeSize ∧
      (f.bitOffset + f.bitWidth ≤ g.bitOffset ∨ g.bitOffset + g.bitWidth ≤ f.bitOffset)

/-- The members of a struct are apart. -/
def Separate (isUnion : Bool) (ms : List Member) : Prop :=
  isUnion = false → ms.Pairwise fun m n => ∀ f ∈ m.fields, ∀ g ∈ n.fields, f.Apart g

mutual

/-- So they are in the anonymous structs within. -/
def Member.Laid : Member → Prop
  | .named _ => True
  | .anonymous _ isUnion inner => Separate isUnion inner ∧ AllLaid inner

def AllLaid : List Member → Prop
  | [] => True
  | m :: ms => m.Laid ∧ AllLaid ms

end

structure TypeInfo.WellLaid (t : TypeInfo) : Prop where
  sits : ∀ name f, lookupMember name t.members = some f → f.Sits t.size
  separate : Separate t.isUnion t.members
  laid : AllLaid t.members

/-- An offset rounded up, were there no largest `int`. -/
def roundUp (align offset : ℤ) : ℤ := offset + -offset % align

/-- In a struct, behind what is put at the offset, rounded up, there is an offset. -/
def Layout.Room (isUnion : Bool) (st : Layout) (align size : ℤ) : Prop :=
  isUnion = false → roundUp align st.offset + size < 2 ^ 31

/-- Where a bit-field opens a unit. -/
def Layout.Opens (st : Layout) (typeSize width : ℤ) : Prop :=
  st.bitCursor = 0 ∨ typeSize ≠ st.unitSize ∨ st.unitSize * 8 < st.bitCursor + width

/-- The bits of the type, and those up to the end of the bit-field, can be counted; and where it
opens a unit, a member of its type could be. -/
def Layout.Ready (isUnion : Bool) (st : Layout) (typeSize width : ℤ) : Prop :=
  typeSize * 8 < 2 ^ 31 ∧ st.bitCursor + width < 2 ^ 31 ∧
    (st.Opens typeSize width →
      alignment typeSize ∣ st.offset ∧ (isUnion = false → st.offset + typeSize < 2 ^ 31))

/-- An array has elements, no more than can be counted in bytes, and there is room for it. -/
def Layout.Takes (isUnion : Bool) (st : Layout) (elementSize : ℤ) : Option ℤ → Prop
  | none => st.Room isUnion (alignment elementSize) elementSize
  | some n => 0 < n ∧ n * elementSize < 2 ^ 31 ∧
      st.Room isUnion (alignment elementSize) (n * elementSize)

/-- There is room for a member; a bit-field finds a place for its unit, and an anonymous struct or
union, no longer than what is reserved for it, one for its members. -/
def Declarator.Clean (isUnion : Bool) (st : Layout) (t : TypeInfo) (stars : ℕ) :
    Declarator → Prop
  | .functionPointer _ length => st.Takes isUnion registerSize length
  | .named _ none length => st.Takes isUnion (t.indirect stars).size length
  | .named _ (some width) _ => st.Ready isUnion (t.indirect stars).size width
  | .anonymous => t.size ≤ (t.indirect stars).size ∧
      (∀ f ∈ fields t.members, f.align ∣ st.offset) ∧
      st.Room isUnion (alignment (t.indirect stars).size) (t.indirect stars).size

/-- Behind a comma a member finds its place as it is, and a bit-field fits into its type. -/
def Extra.Clean (isUnion : Bool) (st : Layout) (e : Extra) : Prop :=
  match e.width with
  | none => alignment e.typeSize ∣ st.offset ∧ (isUnion = false → st.offset + e.typeSize < 2 ^ 31)
  | some width => 0 < width ∧ width ≤ e.typeSize * 8 ∧ st.Ready isUnion e.typeSize width

def CleanExtras (isUnion : Bool) (st : Layout) : List Extra → Prop
  | [] => True
  | e :: es => e.Clean isUnion st ∧ CleanExtras isUnion (placeExtra isUnion st e) es

/-- The size rounded up can be counted, and in a union no array is longer than it. -/
structure Layout.Fits (isUnion : Bool) (st : Layout) : Prop where
  size : roundUp (alignment st.largestMemberSize)
    (if isUnion then st.largestMemberSize else st.offset) < 2 ^ 31
  arrays : isUnion = true → ∀ m ∈ st.members, m.field.isArray = true →
    m.field.size ≤ roundUp (alignment st.largestMemberSize) st.largestMemberSize

mutual

/-- A definition each of whose steps is clean where it is taken. -/
def TypeName.Clean : TypeName → Prop
  | .known size _ => size < 2 ^ 31
  | .define isUnion _ members => CleanMembers isUnion .start members

def CleanMembers (isUnion : Bool) (st : Layout) : List Declaration → Prop
  | [] => st.Fits isUnion
  | d :: ds => d.Clean isUnion st ∧
      ∀ st', d.place isUnion st = .ok st' → CleanMembers isUnion st' ds

def Declaration.Clean (isUnion : Bool) (st : Layout) : Declaration → Prop
  | .mk type stars first more =>
      type.Clean ∧ ∀ t, type.read = .ok t → first.Clean isUnion st t stars ∧
        ∀ m st', buildMember st.offset (t.indirect stars) first = .ok m →
          placeMember isUnion st m = .ok st' → CleanExtras isUnion st' more

end

theorem alignment_cases (s : ℤ) : alignment s = 1 ∨ alignment s = 2 ∨ alignment s = 4 ∨
    alignment s = 8 := by
  unfold alignment
  split_ifs <;> simp

theorem alignment_dvd {a b : ℤ} (h : a ≤ b) : alignment a ∣ alignment b := by
  unfold alignment
  split_ifs <;> omega

/-- A size that an alignment divides is aligned to as much. -/
theorem alignment_dvd_of_dvd {a s : ℤ} (hs : 0 < s) (h : alignment a ∣ s) :
    alignment a ∣ alignment s := by
  have hle := Int.le_of_dvd hs h
  unfold alignment at hle ⊢
  split_ifs at hle ⊢ <;> omega

theorem wrap_eq {x : ℤ} (hlow : 0 ≤ x) (hhigh : x < 2 ^ 31) : wrap x = x :=
  Int.bmod_eq_of_le (by omega) (by omega)

theorem roundUp_spec (s : ℤ) (offset : ℤ) :
    offset ≤ roundUp (alignment s) offset ∧ alignment s ∣ roundUp (alignment s) offset := by
  rw [roundUp]
  rcases alignment_cases s with hs | hs | hs | hs <;> rw [hs] <;> omega

theorem alignUp_eq {s offset : ℤ} (h : 0 ≤ offset)
    (hroom : roundUp (alignment s) offset < 2 ^ 31) :
    alignUp (alignment s) offset = roundUp (alignment s) offset := by
  rw [roundUp] at hroom ⊢
  rw [alignUp, Int.tmod_eq_emod_of_nonneg h]
  have hwrap (hpos : 1 < alignment s) (hne : offset % alignment s ≠ 0) :
      offset + (alignment s - offset % alignment s) = offset + -offset % alignment s := by
    rcases alignment_cases s with hs | hs | hs | hs <;> rw [hs] at hpos hne ⊢ <;> omega
  split
  · rename_i hcond
    rw [hwrap hcond.1 hcond.2]
    refine wrap_eq ?_ hroom
    have hmod := Int.emod_nonneg (-offset) (by omega : alignment s ≠ 0)
    omega
  · rename_i hcond
    rcases alignment_cases s with hs | hs | hs | hs <;> rw [hs] at hcond ⊢ <;> omega

theorem alignUp_zero (align : ℤ) : alignUp align 0 = 0 := by
  rw [alignUp, Int.zero_tmod, if_neg (by simp)]

theorem mem_fields {f : Field} {ms : List Member} : f ∈ fields ms ↔ ∃ m ∈ ms, f ∈ m.fields := by
  induction ms with
  | nil => simp [fields]
  | cons m ms ih => simp [fields, ih]

theorem allLaid_iff {ms : List Member} : AllLaid ms ↔ ∀ m ∈ ms, m.Laid := by
  induction ms with
  | nil => simp [AllLaid]
  | cons m ms ih => simp [AllLaid, ih]

mutual

theorem Member.fields_shift (offset : ℤ) (m : Member) :
    (m.shift offset).fields = m.fields.map (Field.shift offset) := by
  cases m with
  | named f => rfl
  | anonymous f isUnion inner =>
      rw [Member.shift, Member.fields, Member.fields]
      exact fields_offset offset inner

theorem fields_offset (offset : ℤ) (ms : List Member) :
    fields (offsetAnonymousMembers offset ms) = (fields ms).map (Field.shift offset) := by
  cases ms with
  | nil => rfl
  | cons m ms =>
      rw [offsetAnonymousMembers, fields, fields, List.map_append, m.fields_shift offset,
        fields_offset offset ms]

end

theorem offsetAnonymousMembers_eq (offset : ℤ) (ms : List Member) :
    offsetAnonymousMembers offset ms = ms.map (Member.shift offset) := by
  induction ms with
  | nil => rfl
  | cons m ms ih => rw [offsetAnonymousMembers, ih, List.map_cons]

/-- Where a member stays among the offsets when it is moved. -/
def Field.Moves (offset : ℤ) (f : Field) : Prop :=
  0 ≤ f.offset + offset ∧ f.offset + offset < 2 ^ 31

theorem Field.Moves.offset_eq {f : Field} {offset : ℤ} (h : f.Moves offset) :
    (f.shift offset).offset = f.offset + offset := wrap_eq h.1 h.2

theorem Field.Apart.shift {f g : Field} {offset : ℤ} (hf : f.Moves offset) (hg : g.Moves offset)
    (h : f.Apart g) : (f.shift offset).Apart (g.shift offset) := by
  have hfbytes : (f.shift offset).bytes = f.bytes := rfl
  have hgbytes : (g.shift offset).bytes = g.bytes := rfl
  rw [Field.Apart, hfbytes, hgbytes, hf.offset_eq, hg.offset_eq]
  rcases h with h | h | ⟨hfwidth, hgwidth, hoffset, hsize, hbits⟩
  · left
    omega
  · right
    left
    omega
  · right
    right
    exact ⟨hfwidth, hgwidth, by omega, hsize, hbits⟩

theorem Field.Apart.symm {f g : Field} (h : f.Apart g) : g.Apart f := by
  rcases h with h | h | ⟨hf, hg, hoffset, hsize, hbits⟩
  · exact .inr (.inl h)
  · exact .inl h
  · exact .inr (.inr ⟨hg, hf, hoffset.symm, hsize.symm, hbits.symm⟩)

theorem Separate.shift {isUnion : Bool} {ms : List Member} {offset : ℤ}
    (hmoves : ∀ f ∈ fields ms, f.Moves offset) (h : Separate isUnion ms) :
    Separate isUnion (offsetAnonymousMembers offset ms) := by
  intro hstruct
  rw [offsetAnonymousMembers_eq, List.pairwise_map]
  refine (h hstruct).imp_of_mem fun {m n} hm hn hmn f hf g hg => ?_
  rw [Member.fields_shift] at hf hg
  obtain ⟨f₀, hf₀, rfl⟩ := List.mem_map.mp hf
  obtain ⟨g₀, hg₀, rfl⟩ := List.mem_map.mp hg
  exact (hmn f₀ hf₀ g₀ hg₀).shift (hmoves f₀ (mem_fields.mpr ⟨m, hm, hf₀⟩))
    (hmoves g₀ (mem_fields.mpr ⟨n, hn, hg₀⟩))

mutual

theorem Member.Laid.shift {m : Member} {offset : ℤ} (hmoves : ∀ f ∈ m.fields, f.Moves offset)
    (h : m.Laid) : (m.shift offset).Laid := by
  cases m with
  | named f => trivial
  | anonymous f isUnion inner =>
      rw [Member.shift, Member.Laid]
      exact ⟨h.1.shift hmoves, AllLaid.shift hmoves h.2⟩

theorem AllLaid.shift {ms : List Member} {offset : ℤ} (hmoves : ∀ f ∈ fields ms, f.Moves offset)
    (h : AllLaid ms) : AllLaid (offsetAnonymousMembers offset ms) := by
  cases ms with
  | nil => trivial
  | cons m ms =>
      rw [fields, List.forall_mem_append] at hmoves
      rw [offsetAnonymousMembers, AllLaid]
      exact ⟨h.1.shift hmoves.1, AllLaid.shift hmoves.2 h.2⟩

end

mutual

theorem Member.mem_of_lookup {name : Token} {m : Member} {f : Field}
    (h : m.lookup name = some f) : f ∈ m.fields := by
  cases m with
  | named g =>
      rw [Member.lookup] at h
      split at h
      · rw [← Option.some.inj h]
        exact List.mem_singleton_self _
      · cases h
  | anonymous g isUnion inner => exact mem_of_lookupMember h

theorem mem_of_lookupMember {name : Token} {ms : List Member} {f : Field}
    (h : lookupMember name ms = some f) : f ∈ fields ms := by
  cases ms with
  | nil => cases h
  | cons m ms =>
      rw [fields, List.mem_append]
      rw [lookupMember, Option.or_eq_some_iff] at h
      rcases h with h | ⟨-, h⟩
      · exact .inl (Member.mem_of_lookup h)
      · exact .inr (mem_of_lookupMember h)

end

variable {isUnion : Bool} {st st' : Layout} {f : Field} {m : Member}

/-- How far a member may reach; in a union an array is not counted. -/
def Layout.reach (isUnion : Bool) (st : Layout) (m : Member) : ℤ :=
  if isUnion then max st.largestMemberSize (if m.field.isArray then m.field.size else 0)
  else st.offset

/-- A named member under one that is placed. -/
structure Layout.Holds (isUnion : Bool) (st : Layout) (m : Member) (f : Field) : Prop where
  start : 0 ≤ f.offset
  bytes : 0 ≤ f.bytes
  stop : f.offset + f.bytes ≤ st.reach isUnion m
  aligned : f.align ∣ f.offset
  padded : f.align ∣ alignment st.largestMemberSize
  bits : f.bitWidth ≠ 0 →
    0 < f.bitWidth ∧ 0 ≤ f.bitOffset ∧ f.bitOffset + f.bitWidth ≤ f.typeSize * 8

/-- A member is outside of a unit, or in it before the cursor. -/
def Field.Clear (unitOffset unitSize cursor : ℤ) (f : Field) : Prop :=
  f.offset + f.bytes ≤ unitOffset ∨ unitOffset + unitSize ≤ f.offset ∨
    f.bitWidth ≠ 0 ∧ f.offset = unitOffset ∧ f.typeSize = unitSize ∧
      f.bitOffset + f.bitWidth ≤ cursor

/-- The open unit. -/
structure Layout.OpenUnit (isUnion : Bool) (st : Layout) : Prop where
  start : 0 ≤ st.unitOffset
  stop : st.unitOffset + st.unitSize ≤ if isUnion then st.largestMemberSize else st.offset
  aligned : alignment st.unitSize ∣ st.unitOffset
  padded : alignment st.unitSize ∣ alignment st.largestMemberSize
  cursor : 0 < st.bitCursor
  clear : isUnion = false →
    ∀ f ∈ fields st.members, f.Clear st.unitOffset st.unitSize st.bitCursor

structure Layout.Kept (isUnion : Bool) (st : Layout) : Prop where
  offset : 0 ≤ st.offset
  short : st.offset < 2 ^ 31
  union : isUnion = true → st.offset = 0
  largest : 0 ≤ st.largestMemberSize
  holds : ∀ m ∈ st.members, ∀ f ∈ m.fields, st.Holds isUnion m f
  laid : AllLaid st.members
  separate : Separate isUnion st.members
  unit : st.bitCursor ≠ 0 → st.OpenUnit isUnion

theorem kept_start (isUnion : Bool) : Layout.start.Kept isUnion where
  offset := le_rfl
  short := by decide
  union := fun _ => rfl
  largest := le_rfl
  holds := nofun
  laid := trivial
  separate := fun _ => .nil
  unit := fun h => absurd rfl h

/-- In a struct the members end where the offset is. -/
theorem Layout.Kept.behind (h : st.Kept false) (hf : f ∈ fields st.members) :
    f.offset + f.bytes ≤ st.offset := by
  obtain ⟨m, hm, hf⟩ := mem_fields.mp hf
  exact (h.holds m hm f hf).stop

theorem Layout.Holds.mono (h : st.Holds isUnion m f) (hoffset : st.offset ≤ st'.offset)
    (hlargest : st.largestMemberSize ≤ st'.largestMemberSize) : st'.Holds isUnion m f where
  start := h.start
  bytes := h.bytes
  stop := by
    have hstop := h.stop
    cases isUnion with
    | false => exact hstop.trans hoffset
    | true => exact hstop.trans (max_le_max_right _ hlargest)
  aligned := h.aligned
  padded := h.padded.trans (alignment_dvd hlargest)
  bits := h.bits

/-- A step adds a member that is apart from the ones before. -/
theorem Layout.Kept.cons (h : st.Kept isUnion) (hmembers : st'.members = m :: st.members)
    (hoffset : st.offset ≤ st'.offset) (hshort : st'.offset < 2 ^ 31)
    (hunion : isUnion = true → st'.offset = 0)
    (hlargest : st.largestMemberSize ≤ st'.largestMemberSize)
    (hm : ∀ f ∈ m.fields, st'.Holds isUnion m f) (hlaid : m.Laid)
    (hapart : isUnion = false → ∀ f ∈ m.fields, ∀ g ∈ fields st.members, f.Apart g)
    (hunit : st'.bitCursor ≠ 0 → st'.OpenUnit isUnion) : st'.Kept isUnion where
  offset := h.offset.trans hoffset
  short := hshort
  union := hunion
  largest := h.largest.trans hlargest
  holds := by
    intro n hn f hf
    rw [hmembers, List.mem_cons] at hn
    rcases hn with rfl | hn
    · exact hm f hf
    · exact (h.holds n hn f hf).mono hoffset hlargest
  laid := by
    rw [hmembers]
    exact ⟨hlaid, h.laid⟩
  separate := by
    intro hstruct
    rw [hmembers, List.pairwise_cons]
    refine ⟨fun n hn f hf g hg => ?_, h.separate hstruct⟩
    exact hapart hstruct f hf g (mem_fields.mpr ⟨n, hn, hg⟩)
  unit := hunit

/-- A named member or an anonymous one at an offset behind the others. -/
theorem Layout.Kept.behindOffset {offset : ℤ} (h : st.Kept isUnion) (size : ℤ)
    (hoffset : st.offset ≤ offset) (hzero : isUnion = true → offset = 0) (hsize : 0 ≤ size)
    (hmembers : st'.members = m :: st.members)
    (hoffset' : st'.offset = if isUnion then 0 else offset + size)
    (hhigh : isUnion = false → offset + size < 2 ^ 31)
    (hlargest : st.largestMemberSize ≤ st'.largestMemberSize) (hlaid : m.Laid)
    (hstart : ∀ f ∈ m.fields, st.offset ≤ f.offset)
    (hm : ∀ f ∈ m.fields, st'.Holds isUnion m f)
    (hunit : st'.bitCursor ≠ 0 → st'.OpenUnit isUnion) : st'.Kept isUnion := by
  have hle : st.offset ≤ st'.offset := by
    rw [hoffset']
    split
    · rename_i hunion
      rw [h.union hunion]
    · omega
  refine h.cons hmembers hle ?_ ?_ hlargest hm hlaid ?_ hunit
  · rw [hoffset']
    cases isUnion with
    | false => exact hhigh rfl
    | true => exact (by decide : (0 : ℤ) < 2 ^ 31)
  · intro hunion
    rw [hoffset', if_pos hunion]
  · rintro rfl f hf g hg
    exact .inr (.inl ((h.behind hg).trans (hstart f hf)))

/-- Where a member that is no bit-field is put. -/
def Layout.place (st : Layout) (f : Field) : ℤ :=
  alignUp (alignment (if f.isArray then f.typeSize else f.size)) st.offset

def Field.moved (offset : ℤ) (f : Field) : Field := { f with offset := offset }

theorem placeMember_eq (hwidth : m.field.bitWidth = 0) (hoffset : m.field.offset = st.offset)
    (hplace : placeMember isUnion st m = .ok st') :
    m.field.size ≠ 0 ∧
      st' = Layout.advance isUnion { st with offset := st.place m.field, bitCursor := 0 }
        (m.withField (m.field.moved (st.place m.field))) m.field.size := by
  rw [placeMember] at hplace
  dsimp only at hplace
  rw [if_pos hwidth] at hplace
  split at hplace
  · cases hplace
  · rename_i hsize
    have hput : (if alignUp (alignment (if m.field.isArray then m.field.typeSize else m.field.size))
        st.offset = st.offset then m.field.offset
        else alignUp (alignment (if m.field.isArray then m.field.typeSize else m.field.size))
          st.offset) = st.place m.field := by
      rw [hoffset, Layout.place]
      generalize alignUp _ st.offset = offset
      split
      · rename_i heq
        exact heq.symm
      · rfl
    rw [hput] at hplace
    exact ⟨hsize, (Except.ok.inj hplace).symm⟩

theorem Layout.Kept.place (h : st.Kept isUnion) (f : Field) {size : ℤ} (hsize : 0 ≤ size)
    (hroom : st.Room isUnion (alignment (if f.isArray then f.typeSize else f.size)) size) :
    st.offset ≤ st.place f ∧ (isUnion = true → st.place f = 0) ∧
      alignment (if f.isArray then f.typeSize else f.size) ∣ st.place f ∧
      (isUnion = false → st.place f + size < 2 ^ 31) := by
  cases isUnion with
  | true =>
      have hzero : st.place f = 0 := by rw [Layout.place, h.union rfl, alignUp_zero]
      rw [hzero, h.union rfl]
      exact ⟨le_rfl, fun _ => rfl, dvd_zero _, nofun⟩
  | false =>
      have hlt := hroom rfl
      obtain ⟨hle, hdvd⟩ := roundUp_spec (if f.isArray then f.typeSize else f.size) st.offset
      rw [Layout.place, alignUp_eq h.offset (by omega)]
      exact ⟨hle, nofun, hdvd, fun _ => hlt⟩

/-- The offset behind a member. -/
theorem advance_offset {offset size : ℤ} (hlow : 0 ≤ offset + size)
    (hhigh : isUnion = false → offset + size < 2 ^ 31) :
    (if isUnion then 0 else wrap (offset + size)) = if isUnion then 0 else offset + size := by
  cases isUnion with
  | false => exact wrap_eq hlow (hhigh rfl)
  | true => rfl

/-- A member with a name and of some size. -/
theorem Layout.Kept.named (h : st.Kept isUnion) (hwidth : f.bitWidth = 0)
    (hoffset : f.offset = st.offset) (hsize : 0 ≤ f.size)
    (hroom : st.Room isUnion (alignment (if f.isArray then f.typeSize else f.size)) f.size)
    (hplace : placeMember isUnion st (.named f) = .ok st') : st'.Kept isUnion := by
  obtain ⟨-, rfl⟩ := @placeMember_eq isUnion st st' (.named f) hwidth hoffset hplace
  obtain ⟨hle, hunion, hdvd, hlt⟩ := h.place f hsize hroom
  have hstart := h.offset
  have hmax := le_max_left st.largestMemberSize (if f.isArray then f.typeSize else f.size)
  have hadvance := advance_offset (by omega : 0 ≤ st.place f + f.size) hlt
  refine h.behindOffset f.size hle hunion hsize rfl hadvance hlt hmax trivial ?_ ?_ ?_
  · intro g hg
    obtain rfl := List.mem_singleton.mp hg
    exact hle
  · intro g hg
    obtain rfl := List.mem_singleton.mp hg
    have hbytes : (f.moved (st.place f)).bytes = f.size := if_pos hwidth
    have halign : (f.moved (st.place f)).align =
        alignment (if f.isArray then f.typeSize else f.size) := by
      rw [Field.align, hbytes]
      rfl
    refine ⟨h.offset.trans hle, hbytes.symm ▸ hsize, ?_, ?_, ?_, fun hne => absurd hwidth hne⟩
    · change st.place f + (f.moved (st.place f)).bytes ≤ _
      rw [hbytes]
      cases isUnion with
      | false => exact (wrap_eq (by omega) (hlt rfl)).ge
      | true =>
          change st.place f + f.size ≤
            max (max st.largestMemberSize (if f.isArray then f.typeSize else f.size))
              (if f.isArray then f.size else 0)
          rw [hunion rfl]
          split
          · omega
          · omega
    · exact halign.symm ▸ hdvd
    · exact halign.symm ▸ alignment_dvd (le_max_right _ _)
  · exact fun hne => absurd rfl hne

/-- A type whose members all keep to it. -/
structure TypeInfo.Sound (t : TypeInfo) : Prop where
  size : 0 ≤ t.size
  short : t.size < 2 ^ 31
  bytes : ∀ f ∈ fields t.members, 0 ≤ f.bytes
  sits : ∀ f ∈ fields t.members, f.Sits t.size
  separate : Separate t.isUnion t.members
  laid : AllLaid t.members

theorem indirect_size (t : TypeInfo) (stars : ℕ) :
    (t.indirect stars).size = t.size ∨ (t.indirect stars).size = 8 := by
  unfold TypeInfo.indirect
  split_ifs
  · exact .inl rfl
  · exact .inr rfl
  · exact .inr rfl

theorem indirect_members {t : TypeInfo} {stars : ℕ} (h : (t.indirect stars).hasMembers = true) :
    (t.indirect stars).members = t.members ∧ (t.indirect stars).isUnion = t.isUnion := by
  unfold TypeInfo.indirect at h ⊢
  split_ifs at h ⊢
  · exact ⟨rfl, rfl⟩
  · exact ⟨rfl, rfl⟩

theorem align_dvd_size {s size : ℤ} (h : f.align ∣ s) (hsize : size = s ∨ size = 8)
    (hpos : 0 < size) : f.align ∣ alignment size := by
  rcases hsize with rfl | rfl
  · exact alignment_dvd_of_dvd hpos h
  · rw [Field.align]
    rcases alignment_cases (if f.isArray then f.typeSize else f.bytes) with hs | hs | hs | hs <;>
      rw [hs] <;> decide

/-- The members of an anonymous struct or union. -/
theorem Layout.Kept.anonymous {t : TypeInfo} {size : ℤ} {inner : Bool} (h : st.Kept isUnion)
    (ht : t.Sound) (hinner : inner = t.isUnion) (hle : t.size ≤ size)
    (hsize : size = t.size ∨ size = 8) (hclean : ∀ f ∈ fields t.members, f.align ∣ st.offset)
    (hroom : st.Room isUnion (alignment size) size)
    (hplace : placeMember isUnion st (.anonymous ⟨[], size, size, st.offset, 0, 0, false⟩ inner
      (offsetAnonymousMembers st.offset t.members)) = .ok st') : st'.Kept isUnion := by
  obtain ⟨hne, rfl⟩ := placeMember_eq (m := .anonymous _ _ _) rfl rfl hplace
  have hpos : 0 < size := lt_of_le_of_ne (ht.size.trans hle) (Ne.symm hne)
  obtain ⟨hput, hunion, -, hlt⟩ :=
    h.place ⟨[], size, size, st.offset, 0, 0, false⟩ hpos.le hroom
  have hoffset := h.offset
  have hmax := le_max_left st.largestMemberSize size
  have hadvance := advance_offset (by omega :
    0 ≤ st.place ⟨[], size, size, st.offset, 0, 0, false⟩ + size) hlt
  have hmoves : ∀ f ∈ fields t.members, f.Moves st.offset := by
    intro f hf
    have hstart := (ht.sits f hf).start
    have hstop := (ht.sits f hf).stop
    have hnonneg := ht.bytes f hf
    have hshort := ht.short
    refine ⟨by omega, ?_⟩
    cases isUnion with
    | false =>
        have hend := hlt rfl
        omega
    | true =>
        have hzero := h.union rfl
        omega
  have hmoved {g : Field} (hg : g ∈ fields (offsetAnonymousMembers st.offset t.members)) :
      ∃ f ∈ fields t.members, f.shift st.offset = g ∧ g.offset = f.offset + st.offset := by
    rw [fields_offset] at hg
    obtain ⟨f, hf, rfl⟩ := List.mem_map.mp hg
    exact ⟨f, hf, rfl, (hmoves f hf).offset_eq⟩
  refine h.behindOffset size hput hunion hpos.le rfl hadvance hlt hmax ?_ ?_ ?_ ?_
  · rw [hinner]
    exact ⟨ht.separate.shift hmoves, ht.laid.shift hmoves⟩
  · intro g hg
    obtain ⟨f, hf, -, heq⟩ := hmoved hg
    have hstart := (ht.sits f hf).start
    omega
  · intro g hg
    obtain ⟨f, hf, rfl, heq⟩ := hmoved hg
    have hsits := ht.sits f hf
    have hstart := hsits.start
    have hstop := hsits.stop
    refine ⟨by omega, ht.bytes f hf, ?_, ?_, ?_, hsits.bits⟩
    · change (f.shift st.offset).offset + f.bytes ≤ _
      cases isUnion with
      | false =>
          refine le_trans ?_ (wrap_eq (by omega) (hlt rfl)).ge
          omega
      | true =>
          have hzero := h.union rfl
          change _ ≤ max (max st.largestMemberSize size) 0
          omega
    · rw [heq]
      exact Int.dvd_add hsits.aligned (hclean f hf)
    · have hdvd := align_dvd_size hsits.padded hsize hpos
      exact hdvd.trans (alignment_dvd (le_max_right _ _))
  · exact fun hne => absurd rfl hne

/-- The unit that a bit-field gets. -/
structure Layout.UnitFor (isUnion : Bool) (st u : Layout) (f : Field) : Prop where
  size : u.unitSize = f.typeSize
  cursor : 0 ≤ u.bitCursor
  room : u.bitCursor + f.bitWidth ≤ f.typeSize * 8
  start : 0 ≤ u.unitOffset
  aligned : alignment f.typeSize ∣ u.unitOffset
  fresh : u.bitCursor = 0 → u.unitOffset = st.offset
  behind : u.bitCursor = 0 → isUnion = false → st.offset + f.typeSize < 2 ^ 31
  used : u.bitCursor ≠ 0 →
    u.unitOffset + f.typeSize ≤ (if isUnion then st.largestMemberSize else st.offset) ∧
      alignment f.typeSize ∣ alignment st.largestMemberSize
  clear : isUnion = false →
    ∀ g ∈ fields st.members, g.Clear u.unitOffset f.typeSize u.bitCursor

/-- With what is wrapped, a unit opens where it does without. -/
theorem Layout.Kept.opens_iff (h : st.Kept isUnion) (hwidth : 0 < f.bitWidth)
    (hfits : f.bitWidth ≤ f.typeSize * 8) (hready : st.Ready isUnion f.typeSize f.bitWidth) :
    (st.bitCursor = 0 ∨ f.typeSize ≠ st.unitSize ∨
        wrap (st.unitSize * 8) < wrap (st.bitCursor + f.bitWidth)) ↔
      st.Opens f.typeSize f.bitWidth := by
  obtain ⟨hbits, hcursor, -⟩ := hready
  refine or_congr_right' fun hne => or_congr_right' fun hsize => ?_
  have hpos := (h.unit hne).cursor
  rw [not_not] at hsize
  rw [wrap_eq (by omega) (by omega), wrap_eq (by omega) (by omega)]

theorem Layout.Kept.openUnit (h : st.Kept isUnion) (hwidth : 0 < f.bitWidth)
    (hfits : f.bitWidth ≤ f.typeSize * 8) (hready : st.Ready isUnion f.typeSize f.bitWidth) :
    st.UnitFor isUnion (st.openUnit f) f := by
  have hiff := h.opens_iff hwidth hfits hready
  by_cases hopens : st.Opens f.typeSize f.bitWidth
  · have hunit : st.openUnit f =
        { st with bitCursor := 0, unitOffset := st.offset, unitSize := f.typeSize } :=
      if_pos (hiff.mpr hopens)
    obtain ⟨haligned, hbehind⟩ := hready.2.2 hopens
    rw [hunit]
    refine ⟨rfl, le_rfl, ?_, h.offset, haligned, fun _ => rfl, fun _ => hbehind,
      fun hne => absurd rfl hne, ?_⟩
    · change 0 + f.bitWidth ≤ _
      omega
    · rintro rfl g hg
      exact .inl (h.behind hg)
  · have hunit : st.openUnit f = st := if_neg (hiff.not.mpr hopens)
    simp only [Layout.Opens, not_or, not_not, not_lt] at hopens
    obtain ⟨hcursor, hsize, hroom⟩ := hopens
    have hopen := h.unit hcursor
    have haligned := hopen.aligned
    have hstop := hopen.stop
    have hpadded := hopen.padded
    have hclear := hopen.clear
    rw [← hsize] at hroom haligned hstop hpadded hclear
    rw [hunit]
    exact ⟨hsize.symm, hopen.cursor.le, hroom, hopen.start, haligned,
      fun heq => absurd heq hcursor, fun heq => absurd heq hcursor, fun _ => ⟨hstop, hpadded⟩,
      hclear⟩

/-- A bit-field in its unit. -/
theorem Layout.Kept.bitField {u : Layout} {g : Field} (h : st.Kept isUnion)
    (hu : st.UnitFor isUnion u f) (hwidth : 0 < f.bitWidth)
    (hg : g.offset = u.unitOffset ∧ g.bitOffset = u.bitCursor ∧ g.bitWidth = f.bitWidth ∧
      g.typeSize = f.typeSize)
    (hmembers : st'.members = .named g :: st.members)
    (hoffset : st'.offset = if isUnion then 0
      else if u.bitCursor = 0 then st.offset + f.typeSize else st.offset)
    (hlargest : st.largestMemberSize ≤ st'.largestMemberSize)
    (hfresh : u.bitCursor = 0 → f.typeSize ≤ st'.largestMemberSize)
    (hunit : st'.bitCursor = u.bitCursor + f.bitWidth ∧ st'.unitOffset = u.unitOffset ∧
      st'.unitSize = u.unitSize) : st'.Kept isUnion := by
  obtain ⟨hgoffset, hgbit, hgwidth, hgsize⟩ := hg
  obtain ⟨hcursor', hunitOffset', hunitSize'⟩ := hunit
  have hne : g.bitWidth ≠ 0 := by omega
  have hbytes : g.bytes = f.typeSize := by rw [Field.bytes, if_neg hne, hgsize]
  have halign : g.align = alignment f.typeSize := by
    rw [Field.align, hbytes, hgsize, ite_self]
  have hcursor := hu.cursor
  have hroom := hu.room
  have hle : st.offset ≤ st'.offset := by
    rw [hoffset]
    split
    · rename_i hunion
      rw [h.union hunion]
    · split <;> omega
  have hstop : u.unitOffset + f.typeSize ≤
      if isUnion then st'.largestMemberSize else st'.offset := by
    by_cases hzero : u.bitCursor = 0
    · rw [hu.fresh hzero]
      cases isUnion with
      | false => simp [hoffset, hzero]
      | true =>
          have hsize := hfresh hzero
          rw [h.union rfl, if_pos rfl]
          omega
    · have hused := (hu.used hzero).1
      cases isUnion with
      | false => exact hused.trans hle
      | true => exact hused.trans hlargest
  have hpadded : alignment f.typeSize ∣ alignment st'.largestMemberSize := by
    by_cases hzero : u.bitCursor = 0
    · exact alignment_dvd (hfresh hzero)
    · exact (hu.used hzero).2.trans (alignment_dvd hlargest)
  have hshort : st'.offset < 2 ^ 31 := by
    rw [hoffset]
    cases isUnion with
    | true => exact (by decide : (0 : ℤ) < 2 ^ 31)
    | false =>
        have hbehind := hu.behind
        have hbefore := h.short
        change (if u.bitCursor = 0 then st.offset + f.typeSize else st.offset) < 2 ^ 31
        split
        · rename_i hzero
          exact hbehind hzero rfl
        · exact hbefore
  refine h.cons hmembers hle hshort (fun hunion => by rw [hoffset, if_pos hunion]) hlargest ?_
    trivial ?_ ?_
  · intro g' hg'
    obtain rfl := List.mem_singleton.mp hg'
    refine ⟨?_, by omega, ?_, ?_, ?_, fun _ => ⟨by omega, by omega, by omega⟩⟩
    · rw [hgoffset]
      exact hu.start
    · rw [hgoffset, hbytes]
      cases isUnion with
      | false => exact hstop
      | true => exact le_max_of_le_left hstop
    · rw [halign, hgoffset]
      exact hu.aligned
    · rw [halign]
      exact hpadded
  · intro hstruct g' hg' n hn
    obtain rfl := List.mem_singleton.mp hg'
    rcases hu.clear hstruct n hn with hclear | hclear | ⟨hnwidth, hnoffset, hnsize, hnbits⟩
    · exact .inr (.inl (by omega))
    · exact .inl (by omega)
    · exact .inr (.inr ⟨hne, hnwidth, by omega, by omega, .inr (by omega)⟩)
  · intro _
    refine ⟨?_, ?_, ?_, ?_, by omega, ?_⟩
    · rw [hunitOffset']
      exact hu.start
    · rw [hunitOffset', hunitSize', hu.size]
      exact hstop
    · rw [hunitOffset', hunitSize', hu.size]
      exact hu.aligned
    · rw [hunitSize', hu.size]
      exact hpadded
    · intro hstruct n hn
      rw [hmembers, fields, List.mem_append] at hn
      rw [hunitOffset', hunitSize', hu.size, hcursor']
      rcases hn with hn | hn
      · obtain rfl := List.mem_singleton.mp hn
        exact .inr (.inr ⟨hne, hgoffset, hgsize, by omega⟩)
      · rcases hu.clear hstruct n hn with hclear | hclear | ⟨hnwidth, hnoffset, hnsize, hnbits⟩
        · exact .inl hclear
        · exact .inr (.inl hclear)
        · exact .inr (.inr ⟨hnwidth, hnoffset, hnsize, by omega⟩)

theorem openUnit_eq (st : Layout) (f : Field) : (st.openUnit f).offset = st.offset ∧
    (st.openUnit f).largestMemberSize = st.largestMemberSize ∧
    (st.openUnit f).members = st.members := by
  unfold Layout.openUnit
  split <;> exact ⟨rfl, rfl, rfl⟩

/-- The offset is stepped back by the unit, and forth again, if it was open before. -/
theorem Layout.Kept.unit_behind {u : Layout} (h : st.Kept isUnion) (hu : st.UnitFor isUnion u f)
    (hsize : 0 ≤ f.typeSize) :
    (if isUnion then 0 else wrap ((if u.bitCursor = 0 then st.offset
      else wrap (st.offset - f.typeSize)) + f.typeSize)) =
      if isUnion then 0 else if u.bitCursor = 0 then st.offset + f.typeSize else st.offset := by
  have hlow := h.offset
  have hhigh := h.short
  have hstart := hu.start
  cases isUnion with
  | true => rfl
  | false =>
      rw [if_neg Bool.false_ne_true, if_neg Bool.false_ne_true]
      by_cases hzero : u.bitCursor = 0
      · have hbehind := hu.behind hzero rfl
        rw [if_pos hzero, if_pos hzero, wrap_eq (by omega) hbehind]
      · have hused := (hu.used hzero).1
        rw [if_neg Bool.false_ne_true] at hused
        have hback : wrap (st.offset - f.typeSize) = st.offset - f.typeSize :=
          wrap_eq (by omega) (by omega)
        rw [if_neg hzero, if_neg hzero, hback, Int.sub_add_cancel, wrap_eq hlow hhigh]

/-- A bit-field with its own declaration. -/
theorem Layout.Kept.ownBitField (h : st.Kept isUnion) (hwidth : 0 < f.bitWidth)
    (hfits : f.bitWidth ≤ f.typeSize * 8) (hready : st.Ready isUnion f.typeSize f.bitWidth)
    (hplace : placeMember isUnion st (.named f) = .ok st') : st'.Kept isUnion := by
  have hu := h.openUnit hwidth hfits hready
  obtain ⟨hoffset, hlargest, hmembers⟩ := openUnit_eq st f
  rw [placeMember] at hplace
  dsimp only at hplace
  have hne : (Member.named f).field.bitWidth ≠ 0 := ne_of_gt hwidth
  rw [if_neg hne] at hplace
  split at hplace
  · cases hplace
  · obtain rfl := Except.ok.inj hplace
    have hsize := hu.size
    let g : Field := { (st.openUnit f).inUnit f with size := (st.openUnit f).unitSize }
    have hlist := congrArg (List.cons (Member.named g)) hmembers
    have hcursor : wrap ((st.openUnit f).bitCursor + f.bitWidth) =
        (st.openUnit f).bitCursor + f.bitWidth :=
      wrap_eq (Int.add_nonneg hu.cursor hwidth.le) (lt_of_le_of_lt hu.room hready.1)
    refine h.bitField (g := g) hu hwidth ⟨rfl, rfl, rfl, rfl⟩ hlist ?_ ?_ ?_ ⟨hcursor, rfl, rfl⟩
    · change (if isUnion then 0 else wrap ((if (st.openUnit f).bitCursor ≠ 0 then
        wrap ((st.openUnit f).offset - (st.openUnit f).unitSize) else (st.openUnit f).offset) +
          (st.openUnit f).unitSize)) = _
      rw [hoffset, hsize, ite_not]
      exact h.unit_behind hu (by omega)
    · exact hlargest.symm.le.trans (le_max_left _ _)
    · intro _
      change f.typeSize ≤ max _ (if f.isArray then f.typeSize else (st.openUnit f).unitSize)
      rw [hsize, ite_self]
      exact le_max_right _ _

/-- A member that is put where the offset is, behind a comma: the unit stays open. -/
theorem Layout.Kept.plain {name : Token} {size : ℤ} (h : st.Kept isUnion) (hsize : 0 ≤ size)
    (haligned : alignment size ∣ st.offset)
    (hroom : isUnion = false → st.offset + size < 2 ^ 31) :
    (st.advance isUnion (.named ⟨name, size, size, st.offset, 0, 0, false⟩) size).Kept isUnion := by
  have hstart := h.offset
  have hmax := le_max_left st.largestMemberSize size
  have hpadded : alignment size ∣ alignment (max st.largestMemberSize size) :=
    alignment_dvd (le_max_right _ _)
  have hadvance := advance_offset (by omega : 0 ≤ st.offset + size) hroom
  have hle : st.offset ≤ if isUnion then 0 else wrap (st.offset + size) := by
    rw [hadvance]
    split
    · rename_i hunion
      rw [h.union hunion]
    · omega
  have hshort : (if isUnion then 0 else wrap (st.offset + size)) < 2 ^ 31 := by
    rw [hadvance]
    cases isUnion with
    | false => exact hroom rfl
    | true => exact (by decide : (0 : ℤ) < 2 ^ 31)
  refine h.cons rfl hle hshort (fun hunion => if_pos hunion) hmax ?_ trivial ?_ ?_
  · intro g hg
    obtain rfl := List.mem_singleton.mp hg
    refine ⟨h.offset, hsize, ?_, haligned, hpadded, fun hne => absurd rfl hne⟩
    cases isUnion with
    | false => exact (wrap_eq (by omega) (hroom rfl)).ge
    | true =>
        have hzero := h.union rfl
        change st.offset + size ≤ max (max st.largestMemberSize size) 0
        omega
  · rintro rfl g hg n hn
    obtain rfl := List.mem_singleton.mp hg
    exact .inr (.inl (h.behind hn))
  · intro hcursor
    have hopen := h.unit hcursor
    refine ⟨hopen.start, ?_, hopen.aligned, hopen.padded.trans (alignment_dvd hmax), hopen.cursor,
      ?_⟩
    · have hstop := hopen.stop
      cases isUnion with
      | false => exact hstop.trans hle
      | true => exact hstop.trans hmax
    · rintro rfl g hg
      change g ∈ _ :: fields st.members at hg
      rcases List.mem_cons.mp hg with rfl | hg
      · exact .inr (.inl hopen.stop)
      · exact hopen.clear rfl g hg

/-- A declarator behind a comma. -/
theorem Layout.Kept.extra {e : Extra} (h : st.Kept isUnion) (hclean : e.Clean isUnion st) :
    (placeExtra isUnion st e).Kept isUnion := by
  rw [Extra.Clean] at hclean
  rw [placeExtra]
  cases hwidth : e.width with
  | none =>
      rw [hwidth] at hclean
      dsimp only at hclean ⊢
      have hnat : (0 : ℤ) ≤ e.typeSize := Int.natCast_nonneg _
      exact h.plain hnat hclean.1 hclean.2
  | some width =>
      rw [hwidth] at hclean
      dsimp only at hclean ⊢
      obtain ⟨hpos, hfits, hready⟩ := hclean
      let f : Field := ⟨e.name, e.typeSize, e.typeSize, st.offset, width, 0, false⟩
      have hnat : (0 : ℤ) ≤ f.typeSize := Int.natCast_nonneg _
      have hu := h.openUnit (f := f) hpos hfits hready
      obtain ⟨hoffset, hlargest, hmembers⟩ := openUnit_eq st f
      have hsize := hu.size
      let g : Field := { (st.openUnit f).inUnit f with
        size := if (st.openUnit f).bitCursor = 0 then (st.openUnit f).unitSize else 0 }
      have hlist := congrArg (List.cons (Member.named g)) hmembers
      have hcursor : wrap ((st.openUnit f).bitCursor + width) =
          (st.openUnit f).bitCursor + width :=
        wrap_eq (Int.add_nonneg hu.cursor hpos.le) (lt_of_le_of_lt hu.room hready.1)
      refine h.bitField (g := g) hu hpos ⟨rfl, rfl, rfl, rfl⟩ hlist ?_ ?_ ?_ ⟨hcursor, rfl, rfl⟩
      · change (if isUnion then 0 else wrap ((st.openUnit f).offset +
          (if (st.openUnit f).bitCursor = 0 then (st.openUnit f).unitSize else 0))) = _
        have hlow := h.offset
        have hhigh := h.short
        rw [hoffset, hsize, advance_offset]
        · split_ifs <;> omega
        · split <;> omega
        · rintro rfl
          split
          · rename_i hzero
            exact hu.behind hzero rfl
          · omega
      · exact hlargest.symm.le.trans (le_max_left _ _)
      · intro hzero
        change f.typeSize ≤ max _ (if (st.openUnit f).bitCursor = 0 then
          (st.openUnit f).unitSize else 0)
        rw [if_pos hzero, hsize]
        exact le_max_right _ _

theorem map_eq_ok {α β : Type} {e : Except Fault α} {g : α → β} {b : β} (h : g <$> e = .ok b) :
    ∃ a, e = .ok a ∧ g a = b := by
  cases e with
  | error fault => cases h
  | ok a => exact ⟨a, rfl, Except.ok.inj h⟩

theorem buildSize_spec {g : Field} {length : Option ℤ} (h : buildSize g length = .ok f) :
    f.offset = g.offset ∧ f.bitWidth = g.bitWidth ∧ f.typeSize = g.typeSize := by
  cases length with
  | none =>
      obtain rfl := Except.ok.inj h
      exact ⟨rfl, rfl, rfl⟩
  | some n =>
      rw [buildSize] at h
      split at h
      · cases h
      · obtain rfl := Except.ok.inj h
        exact ⟨rfl, rfl, rfl⟩

theorem buildSize_room {g : Field} {length : Option ℤ} (h : buildSize g length = .ok f)
    (hsize : 0 ≤ g.typeSize) (harray : g.isArray = false)
    (htakes : st.Takes isUnion g.typeSize length) :
    0 ≤ f.size ∧
      st.Room isUnion (alignment (if f.isArray then f.typeSize else f.size)) f.size := by
  cases length with
  | none =>
      obtain rfl := Except.ok.inj h
      refine ⟨hsize, ?_⟩
      rw [harray]
      exact htakes
  | some n =>
      obtain ⟨hpos, hlt, hroom⟩ := htakes
      have hnonneg := Int.mul_nonneg hpos.le hsize
      rw [buildSize, wrap_eq hnonneg hlt] at h
      split at h
      · cases h
      · obtain rfl := Except.ok.inj h
        exact ⟨hnonneg, hroom⟩

/-- The first declarator of a declaration. -/
theorem Layout.Kept.first {t : TypeInfo} {stars : ℕ} {first : Declarator} (h : st.Kept isUnion)
    (ht : t.Sound) (hclean : first.Clean isUnion st t stars)
    (hm : buildMember st.offset (t.indirect stars) first = .ok m)
    (hplace : placeMember isUnion st m = .ok st') : st'.Kept isUnion := by
  have hsize : 0 ≤ (t.indirect stars).size := by
    rcases indirect_size t stars with heq | heq <;> rw [heq]
    · exact ht.size
    · decide
  cases first with
  | anonymous =>
      rw [buildMember] at hm
      split at hm
      · cases hm
      · split at hm
        · cases hm
        · rename_i hmembers _
          obtain rfl := Except.ok.inj hm
          obtain ⟨hsame, hunion⟩ := indirect_members (by simpa using hmembers)
          obtain ⟨hle, haligned, hroom⟩ := hclean
          rw [hsame] at hplace
          exact h.anonymous ht hunion hle (indirect_size t stars) haligned hroom hplace
  | functionPointer name length =>
      obtain ⟨f, hf, rfl⟩ := map_eq_ok hm
      obtain ⟨hoffset, hwidth, -⟩ := buildSize_spec hf
      obtain ⟨hnonneg, hroom⟩ := buildSize_room hf (Int.natCast_nonneg 8) rfl hclean
      exact h.named hwidth hoffset hnonneg hroom hplace
  | named name width length =>
      cases width with
      | none =>
          obtain ⟨f, hf, rfl⟩ := map_eq_ok hm
          obtain ⟨hoffset, hwidth, -⟩ := buildSize_spec hf
          obtain ⟨hnonneg, hroom⟩ := buildSize_room hf hsize rfl hclean
          exact h.named hwidth hoffset hnonneg hroom hplace
      | some width =>
          change st.Ready isUnion (t.indirect stars).size width at hclean
          rw [buildMember, wrap_eq (by omega) hclean.1] at hm
          split at hm
          · cases hm
          · rename_i hone
            split at hm
            · cases hm
            · rename_i hfits
              obtain ⟨f, hf, rfl⟩ := map_eq_ok hm
              obtain ⟨-, hwidth, htype⟩ := buildSize_spec hf
              change f.bitWidth = width at hwidth
              change f.typeSize = (t.indirect stars).size at htype
              rw [← hwidth, ← htype] at hclean
              exact h.ownBitField (by omega) (by omega) hclean hplace

theorem Layout.Kept.extras {es : List Extra} (h : st.Kept isUnion)
    (hclean : CleanExtras isUnion st es) : (es.foldl (placeExtra isUnion) st).Kept isUnion := by
  induction es generalizing st with
  | nil => exact h
  | cons e es ih => exact ih (h.extra hclean.1) hclean.2

/-- The members that a struct or union ends with. -/
theorem Layout.Kept.finish (h : st.Kept isUnion) (hfits : st.Fits isUnion) (tagged : Bool) :
    (st.finish isUnion tagged).Sound := by
  have hbase : 0 ≤ if isUnion then st.largestMemberSize else st.offset := by
    split
    · exact h.largest
    · exact h.offset
  have hsize : (st.finish isUnion tagged).size = roundUp (alignment st.largestMemberSize)
      (if isUnion then st.largestMemberSize else st.offset) := alignUp_eq hbase hfits.size
  obtain ⟨hle, hdvd⟩ := roundUp_spec st.largestMemberSize
    (if isUnion then st.largestMemberSize else st.offset)
  rw [← hsize] at hle hdvd
  have hshort := hfits.size
  rw [← hsize] at hshort
  have hholds {f : Field} (hf : f ∈ fields (st.finish isUnion tagged).members) :
      ∃ m ∈ st.members, st.Holds isUnion m f := by
    obtain ⟨m, hm, hf⟩ := mem_fields.mp hf
    have hin := List.mem_reverse.mp hm
    exact ⟨m, hin, h.holds m hin f hf⟩
  refine ⟨hbase.trans hle, hshort, ?_, ?_, ?_, ?_⟩
  · intro f hf
    obtain ⟨m, -, hheld⟩ := hholds hf
    exact hheld.bytes
  · intro f hf
    obtain ⟨m, hin, hheld⟩ := hholds hf
    refine ⟨hheld.start, hheld.stop.trans ?_, hheld.aligned, hheld.padded.trans hdvd, hheld.bits⟩
    cases isUnion with
    | false => exact hle
    | true =>
        refine max_le hle ?_
        split
        · rename_i harray
          rw [hsize]
          exact hfits.arrays rfl m hin harray
        · exact hbase.trans hle
  · intro hstruct
    change st.members.reverse.Pairwise _
    rw [List.pairwise_reverse]
    exact (h.separate hstruct).imp fun hmn f hf g hg => (hmn g hg f hf).symm
  · exact allLaid_iff.mpr fun m hm => allLaid_iff.mp h.laid m (List.mem_reverse.mp hm)

theorem of_bind_eq_ok {α β : Type} {x : Except Fault α} {g : α → Except Fault β} {b : β}
    (h : x >>= g = .ok b) : ∃ a, x = .ok a ∧ g a = .ok b := by
  cases x with
  | error fault => cases h
  | ok a => exact ⟨a, rfl, h⟩

mutual

theorem TypeName.sound {type : TypeName} {t : TypeInfo} (hclean : type.Clean)
    (h : type.read = .ok t) : t.Sound := by
  match type with
  | .known size hasMembers =>
      obtain rfl := Except.ok.inj h
      exact ⟨Int.natCast_nonneg _, Int.ofNat_lt.mpr hclean, nofun, nofun, fun _ => .nil, trivial⟩
  | .define isUnion tagged ds =>
      rw [TypeName.read] at h
      obtain ⟨st, hst, hfinish⟩ := of_bind_eq_ok h
      obtain rfl := Except.ok.inj hfinish
      obtain ⟨hkept, hfits⟩ := structMembers_kept (kept_start isUnion) hclean hst
      exact hkept.finish hfits tagged

/-- A run through the members. -/
theorem structMembers_kept {isUnion : Bool} {st st' : Layout} {ds : List Declaration}
    (h : st.Kept isUnion) (hclean : CleanMembers isUnion st ds)
    (hrun : structMembers isUnion st ds = .ok st') : st'.Kept isUnion ∧ st'.Fits isUnion := by
  match ds with
  | [] =>
      obtain rfl := Except.ok.inj hrun
      exact ⟨h, hclean⟩
  | d :: ds =>
      rw [structMembers] at hrun
      obtain ⟨st₁, hd, hrun⟩ := of_bind_eq_ok hrun
      exact structMembers_kept (Declaration.kept h hclean.1 hd) (hclean.2 st₁ hd) hrun

/-- One declaration. -/
theorem Declaration.kept {isUnion : Bool} {st st' : Layout} {d : Declaration}
    (h : st.Kept isUnion) (hclean : d.Clean isUnion st) (hplace : d.place isUnion st = .ok st') :
    st'.Kept isUnion := by
  match d with
  | .mk type stars first more =>
      rw [Declaration.place] at hplace
      obtain ⟨t, ht, hplace⟩ := of_bind_eq_ok hplace
      obtain ⟨m, hm, hplace⟩ := of_bind_eq_ok hplace
      obtain ⟨st₁, hst₁, hplace⟩ := of_bind_eq_ok hplace
      obtain rfl := Except.ok.inj hplace
      rw [Declaration.Clean] at hclean
      obtain ⟨hfirst, hmore⟩ := hclean.2 t ht
      exact (h.first (TypeName.sound hclean.1 ht) hfirst hm hst₁).extras (hmore m st₁ hm hst₁)

end

/-- `int x : 3, y : 5; char *s, *t; struct { long p; char q[3]; };` -/
def packet : List Declaration :=
  [.mk (.known 4 false) 0 (.named (text ['x']) (some 3) none) [⟨text ['y'], 4, some 5⟩],
    .mk (.known 1 false) 1 (.named (text ['s']) none none) [⟨text ['t'], 8, none⟩],
    .mk (.define false false
      [.mk (.known 8 false) 0 (.named (text ['p']) none none) [],
        .mk (.known 1 false) 0 (.named (text ['q']) none (some 3)) []]) 0 .anonymous []]

/-- `char c, *p;` -/
def link : List Declaration :=
  [.mk (.known 1 false) 0 (.named (text ['c']) none none) [⟨text ['p'], 8, none⟩]]

end Veron.MicroC
