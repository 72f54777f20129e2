/-
When two trees with the same paths, contents and modes are packed into the same members.
-/
import Mathlib.Data.List.Find
import Veron.Dict
import Veron.Pack

namespace Veron

section

variable {α κ κ' : Type*} [DecidableEq κ] [DecidableEq κ'] {l : List α} {key : α → κ}
  {key' : α → κ'}

theorem key_eq_of_find? (h : ∀ p ∈ l, l.find? (fun q => key q = key p) =
    l.find? (fun q => key' q = key' p)) {p q : α} (hp : p ∈ l) (hq : q ∈ l) (heq : key p = key q) :
    key' p = key' q := by
  have hsome : (l.find? fun r => key' r = key' p).isSome := by
    rw [List.find?_isSome]
    exact ⟨p, hp, by simp⟩
  obtain ⟨r, hr⟩ := Option.isSome_iff_exists.mp hsome
  have hr' : l.find? (fun r => key' r = key' q) = some r := by
    rw [← h q hq, ← heq, h p hp, hr]
  have hkp := List.find?_some hr
  have hkq := List.find?_some hr'
  rw [decide_eq_true_eq] at hkp hkq
  exact hkp.symm.trans hkq

/-- Whether members of a list have one key is told by the first member with each key. -/
theorem find?_key_iff : (∀ p ∈ l, l.find? (fun q => key q = key p) =
    l.find? (fun q => key' q = key' p)) ↔
      ∀ p ∈ l, ∀ q ∈ l, (key p = key q ↔ key' p = key' q) := by
  constructor
  · exact fun h p hp q hq =>
      ⟨key_eq_of_find? h hp hq, key_eq_of_find? (fun r hr => (h r hr).symm) hp hq⟩
  · exact fun h p hp => List.find?_congr fun q hq => decide_eq_decide.mpr (h q hq p hp)

end

namespace Pack

open CopyTree (Text slash Content)

theorem Listing.here_perm (dp : Text) (l : Listing) :
    (l.here dp ++ l.deeper dp).Perm ((l.stats dp).map Prod.fst) := by
  induction l generalizing dp with
  | nil => exact List.Perm.refl []
  | leaf name content toDir attr rest ih =>
      have hhere : ((leaf name content toDir attr rest).here dp).Perm
          (pathOf dp name :: rest.here dp) := by
        cases toDir with
        | true => exact List.Perm.refl _
        | false => exact (List.perm_middle.map _)
      exact (hhere.append_right _).trans ((ih dp).cons _)
  | dir name attr sub rest ihsub ih =>
      have hsub := ihsub (pathOf dp name)
      have hrest := ih dp
      rw [stats, List.map_cons, List.map_append]
      refine List.Perm.cons _ ?_
      rw [deeper, ← List.append_assoc (sub.here _)]
      exact List.perm_append_comm_assoc _ _ _ |>.trans (hsub.append hrest)

theorem Listing.walk_perm (l : Listing) : l.walk.Perm ((l.stats []).map Prod.fst) :=
  l.here_perm []

namespace Tree

variable (t : Tree)

theorem lstat_of_mem {x : Text × Status} (hx : x ∈ t.listing.stats []) :
    t.listing.lstat x.1 = some x.2 := lookup_of_mem t.nodup hx

theorem mem_walk {p : Text} : p ∈ t.listing.walk ↔ ∃ st, (p, st) ∈ t.listing.stats [] := by
  rw [t.listing.walk_perm.mem_iff, List.mem_map]
  constructor
  · rintro ⟨⟨p, st⟩, hin, rfl⟩
    exact ⟨st, hin⟩
  · rintro ⟨st, hin⟩
    exact ⟨_, hin, rfl⟩

/-- The paths with the kind, the permission bits, and the bytes of a file or the target of a
link. -/
def facts : List (Text × Option Content × BitVec 12) :=
  (t.listing.stats []).map fun x => (x.1, x.2.content, x.2.attr.mode)

end Tree

/-- Two trees with the same facts. -/
def Same (t u : Tree) : Prop := ∀ x, x ∈ t.facts ↔ x ∈ u.facts

theorem Same.lstat {t u : Tree} (h : Same t u) {p : Text} {st : Status}
    (hst : t.listing.lstat p = some st) : ∃ st', u.listing.lstat p = some st' ∧
      st'.content = st.content ∧ st'.attr.mode = st.attr.mode := by
  have hin : (p, st.content, st.attr.mode) ∈ u.facts :=
    (h _).mp (List.mem_map.mpr ⟨(p, st), mem_of_lookup hst, rfl⟩)
  obtain ⟨⟨q, st'⟩, hin', heq⟩ := List.mem_map.mp hin
  simp only [Prod.mk.injEq] at heq
  obtain ⟨rfl, hcontent, hmode⟩ := heq
  exact ⟨st', u.lstat_of_mem hin', hcontent, hmode⟩

theorem Same.walk_perm {t u : Tree} (h : Same t u) : t.listing.walk.Perm u.listing.walk := by
  have hpaths (t : Tree) : (t.listing.stats []).map Prod.fst = t.facts.map Prod.fst := by
    rw [Tree.facts, List.map_map]
    rfl
  have hnodup (t : Tree) : t.facts.Nodup := by
    refine List.Nodup.of_map Prod.fst ?_
    rw [← hpaths]
    exact t.nodup
  have hfacts : t.facts.Perm u.facts := (List.perm_ext_iff_of_nodup (hnodup t) (hnodup u)).mpr h
  have hnames := hfacts.map Prod.fst
  rw [← hpaths, ← hpaths] at hnames
  exact (t.listing.walk_perm.trans hnames).trans u.listing.walk_perm.symm

instance : Std.Total fun p q : Text => bytesLe p q = true where
  total p q := by
    simp only [bytesLe, decide_eq_true_eq]
    exact le_total _ _

instance : IsTrans Text fun p q => bytesLe p q = true where
  trans p q r := by
    simp only [bytesLe, decide_eq_true_eq]
    exact le_trans

instance : Std.Antisymm fun p q : Text => bytesLe p q = true where
  antisymm p q := by
    simp only [bytesLe, decide_eq_true_eq]
    intro hpq hqp
    exact List.map_injective_iff.mpr (fun _ _ => UInt8.toNat_inj.mp) (le_antisymm hpq hqp)

theorem sorted_eq_of_perm {ps qs : List Text} (h : ps.Perm qs) :
    ps.insertionSort (bytesLe · ·) = qs.insertionSort (bytesLe · ·) :=
  ((List.perm_insertionSort _ _).trans (h.trans (List.perm_insertionSort _ _).symm)).eq_of_pairwise'
    (List.pairwise_insertionSort _ _) (List.pairwise_insertionSort _ _)

def memberName (arcroot p : Text) : Text := (arcname arcroot p).dropWhile (· == slash)

/-- Below the root that the archive has for the tree. -/
theorem memberName_eq (arcroot : Text) : ∃ base : Text, ∀ p : Text, p.head? ≠ some slash →
    memberName arcroot p = base ++ p := by
  have hstrip (base p : Text) (hp : p.head? ≠ some slash) :
      (base ++ p).dropWhile (· == slash) = base.dropWhile (· == slash) ++ p := by
    have hkeep : p.dropWhile (· == slash) = p := by
      cases p with
      | nil => rfl
      | cons b p =>
          refine List.dropWhile_cons_of_neg fun hb => hp ?_
          rw [List.head?_cons, eq_of_beq hb]
    rw [List.dropWhile_append, hkeep]
    split
    · rename_i hempty
      rw [List.isEmpty_iff.mp hempty, List.nil_append]
    · rfl
  by_cases hroot : arcroot = []
  · exact ⟨[], fun p hp => by rw [memberName, arcname, if_pos hroot]; exact hstrip [] p hp⟩
  by_cases hlast : arcroot.getLast? = some slash
  · refine ⟨arcroot.dropWhile (· == slash), fun p hp => ?_⟩
    rw [memberName, arcname, if_neg hroot, join, if_neg hp, if_pos (.inr hlast)]
    exact hstrip arcroot p hp
  · refine ⟨(arcroot ++ [slash]).dropWhile (· == slash), fun p hp => ?_⟩
    rw [memberName, arcname, if_neg hroot, join, if_neg hp, if_neg (not_or.mpr ⟨hroot, hlast⟩),
      List.append_cons]
    exact hstrip _ p hp

/-- What a member has of an entry, once owners and times are gone. -/
def plainMember (name : Text) (mode : BitVec 12) (link : Option Text) :
    Option Content → Option (TarInfo × List UInt8)
  | none => some (tarInfo name ⟨mode, 0, 0, 0, 0, 0, [], [], 0⟩ .dir 0 [] 0, [])
  | some (.reg bytes) =>
      match link with
      | some other => some (tarInfo name ⟨mode, 0, 0, 0, 0, 0, [], [], 0⟩ .lnk 0 other 0, [])
      | none =>
          some (tarInfo name ⟨mode, 0, 0, 0, 0, 0, [], [], 0⟩ .reg bytes.length [] 0, bytes)
  | some .fifo => some (tarInfo name ⟨mode, 0, 0, 0, 0, 0, [], [], 0⟩ .fifo 0 [] 0, [])
  | some (.symlink target) =>
      some (tarInfo name ⟨mode, 0, 0, 0, 0, 0, [], [], 0⟩ .sym 0 target 0, [])
  | some (.chr rdev) => some (tarInfo name ⟨mode, 0, 0, 0, 0, 0, [], [], 0⟩ .chr 0 [] rdev, [])
  | some (.blk rdev) => some (tarInfo name ⟨mode, 0, 0, 0, 0, 0, [], [], 0⟩ .blk 0 [] rdev, [])
  | some .sock => none

theorem gettarinfo_plain (tf : TarFile) (name : Text) (st : Status) :
    (gettarinfo tf name st).map (fun r => (r.1.plain, dataOf r.1 st)) =
      plainMember (name.dropWhile (· == slash)) st.attr.mode
        (linkTo tf (name.dropWhile (· == slash)) st.attr) st.content := by
  obtain ⟨content, attr⟩ := st
  cases content with
  | none => rfl
  | some content =>
      cases content with
      | reg bytes =>
          simp only [gettarinfo, plainMember]
          cases linkTo tf (name.dropWhile (· == slash)) attr with
          | none => rfl
          | some other => rfl
      | _ => rfl

theorem plainMember_reg_inj {name : Text} {mode : BitVec 12} {link link' : Option Text}
    {bytes : List UInt8} (h : plainMember name mode link (some (.reg bytes)) =
      plainMember name mode link' (some (.reg bytes))) : link = link' := by
  cases link with
  | none =>
      cases link' with
      | none => rfl
      | some other =>
          have htype := congrArg TarInfo.type (Prod.mk.inj (Option.some.inj h)).1
          exact nomatch htype
  | some other =>
      cases link' with
      | none =>
          have htype := congrArg TarInfo.type (Prod.mk.inj (Option.some.inj h)).1
          exact nomatch htype
      | some other' =>
          have hname := congrArg TarInfo.linkname (Prod.mk.inj (Option.some.inj h)).1
          exact congrArg some hname

/-- A link to the first file of the archive that has the inode. -/
def link (l : Listing) (arcroot : Text) (all : List Text) (p : Text) : Option Text :=
  ((all.find? fun q => l.key q = l.key p).filter (· ≠ p)).map (memberName arcroot)

def member (l : Listing) (arcroot : Text) (all : List Text) (p : Text) :
    Option (TarInfo × List UInt8) :=
  (l.lstat p).bind fun st =>
    plainMember (memberName arcroot p) st.attr.mode (link l arcroot all p) st.content

/-- The members until the first socket. -/
def outcome (l : Listing) (arcroot : Text) (all : List Text) :
    List Text → List (TarInfo × List UInt8) × Option Raised
  | [] => ([], none)
  | p :: rest =>
      match member l arcroot all p with
      | none => ([], some .attributeError)
      | some m => (m :: (outcome l arcroot all rest).1, (outcome l arcroot all rest).2)

/-- The inodes that are known are those of the files so far, each under its first name. -/
def Knows (l : Listing) (arcroot : Text) (done : List Text) (inodes : List ((ℕ × ℕ) × Text)) :
    Prop :=
  ∀ i, inodes.lookup i = (done.find? fun q => l.key q = .inr i).map (memberName arcroot)

section

variable {t : Tree} {arcroot p q : Text} {st : Status} {done rest : List Text} {tf : TarFile}

theorem Tree.relative_of_mem (hp : p ∈ t.listing.walk) : p.head? ≠ some slash := by
  obtain ⟨st, hst⟩ := t.mem_walk.mp hp
  exact t.relative _ hst

theorem memberName_inj (hp : p ∈ t.listing.walk) (hq : q ∈ t.listing.walk)
    (h : memberName arcroot p = memberName arcroot q) : p = q := by
  obtain ⟨base, hbase⟩ := memberName_eq arcroot
  rw [hbase p (t.relative_of_mem hp), hbase q (t.relative_of_mem hq)] at h
  exact List.append_cancel_left h

theorem Listing.key_cases (l : Listing) (p : Text) : l.key p = .inl p ∨ ∃ bytes attr,
    l.lstat p = some ⟨some (.reg bytes), attr⟩ ∧ attr.ino ≠ 0 ∧
      l.key p = .inr (attr.ino, attr.dev) := by
  rw [key]
  split
  · rename_i bytes attr hst
    split
    · exact .inl rfl
    · rename_i hino
      exact .inr ⟨bytes, attr, hst, hino, rfl⟩
  · exact .inl rfl

theorem Listing.eq_of_key_inl (l : Listing) (h : l.key q = .inl p) : q = p := by
  rcases l.key_cases q with heq | ⟨_, _, _, _, heq⟩
  · exact Sum.inl.inj (heq.symm.trans h)
  · exact nomatch (heq.symm.trans h)

/-- The code's links are those to the first file with the inode. -/
theorem linkTo_eq (hknows : Knows t.listing arcroot done tf.inodes)
    (hdone : ∀ q ∈ done, q ∈ t.listing.walk) (hnew : p ∉ done) {bytes : List UInt8} {attr : Attr}
    (hst : t.listing.lstat p = some ⟨some (.reg bytes), attr⟩) :
    linkTo tf (memberName arcroot p) attr =
      (done.find? fun q => t.listing.key q = t.listing.key p).map (memberName arcroot) := by
  have hp : p ∈ t.listing.walk := t.mem_walk.mpr ⟨_, mem_of_lookup hst⟩
  have hkey : t.listing.key p = if attr.ino = 0 then .inl p else .inr (attr.ino, attr.dev) := by
    rw [Listing.key, hst]
  rw [linkTo, hknows]
  by_cases hino : attr.ino = 0
  · have hnone : (done.find? fun q => t.listing.key q = .inr (attr.ino, attr.dev)) = none := by
      refine List.find?_eq_none.mpr fun q _ hq => ?_
      rcases t.listing.key_cases q with heq | ⟨_, attr', -, hne, heq⟩
      · exact nomatch (heq.symm.trans (of_decide_eq_true hq))
      · have hinr := heq.symm.trans (of_decide_eq_true hq)
        exact hne ((Prod.mk.inj (Sum.inr.inj hinr)).1.trans hino)
    have hnone' : (done.find? fun q => t.listing.key q = t.listing.key p) = none := by
      refine List.find?_eq_none.mpr fun q hq heq => hnew ?_
      rw [hkey, if_pos hino, decide_eq_true_eq] at heq
      exact t.listing.eq_of_key_inl heq ▸ hq
    rw [hnone, hnone']
    exact ite_self none
  · rw [hkey, if_neg hino]
    cases hfind : done.find? fun q => t.listing.key q = .inr (attr.ino, attr.dev) with
    | none => exact ite_self none
    | some r =>
        have hr := List.mem_of_find?_eq_some hfind
        have hkeyr := List.find?_some hfind
        rw [decide_eq_true_eq] at hkeyr
        have hsame : t.listing.key p = t.listing.key r := by
          rw [hkey, if_neg hino, hkeyr]
        have hne : p ≠ r := fun h => hnew (h ▸ hr)
        obtain ⟨st, hstr⟩ := t.mem_walk.mp (hdone r hr)
        have hlinks : 1 < attr.nlink := t.nlink _ (mem_of_lookup hst) _ hstr hne hsame
        have hname : memberName arcroot p ≠ memberName arcroot r := fun h =>
          hne (memberName_inj hp (hdone r hr) h)
        rw [if_pos hlinks, Option.map_some]
        exact Option.filter_some_pos (bne_iff_ne.mpr hname)

theorem link_eq (hnew : p ∉ done) : link t.listing arcroot (done ++ p :: rest) p =
    (done.find? fun q => t.listing.key q = t.listing.key p).map (memberName arcroot) := by
  rw [link, List.find?_append]
  cases hfind : done.find? fun q => t.listing.key q = t.listing.key p with
  | some r =>
      have hne : r ≠ p := fun h => hnew (h ▸ List.mem_of_find?_eq_some hfind)
      simp [hne]
  | none =>
      have hself : (p :: rest).find? (fun q => t.listing.key q = t.listing.key p) = some p :=
        List.find?_cons_of_pos (decide_eq_true rfl)
      rw [Option.none_or, hself, Option.filter_some_neg (by simp)]

theorem member_eq (hknows : Knows t.listing arcroot done tf.inodes)
    (hdone : ∀ q ∈ done, q ∈ t.listing.walk) (hnew : p ∉ done)
    (hst : t.listing.lstat p = some st) : member t.listing arcroot (done ++ p :: rest) p =
      (gettarinfo tf (arcname arcroot p) st).map fun r => (r.1.plain, dataOf r.1 st) := by
  rw [member, hst, Option.bind_some, gettarinfo_plain, link_eq hnew]
  obtain ⟨content, attr⟩ := st
  cases content with
  | none => rfl
  | some content =>
      cases content with
      | reg bytes => exact congrArg (plainMember _ _ · _) (linkTo_eq hknows hdone hnew hst).symm
      | _ => rfl

theorem find?_snoc_of_ne {l : Listing} {i : ℕ × ℕ} (h : l.key p ≠ .inr i) :
    (done ++ [p]).find? (fun q => l.key q = .inr i) = done.find? fun q => l.key q = .inr i := by
  have hnone : [p].find? (fun q => l.key q = .inr i) = none :=
    List.find?_cons_of_neg (by simpa using h)
  rw [List.find?_append, hnone, Option.or_none]

theorem Knows.step (hknows : Knows t.listing arcroot done tf.inodes)
    (hdone : ∀ q ∈ done, q ∈ t.listing.walk) (hnew : p ∉ done)
    (hst : t.listing.lstat p = some st) {ti : TarInfo} {inodes : List ((ℕ × ℕ) × Text)}
    (h : gettarinfo tf (arcname arcroot p) st = some (ti, inodes)) :
    Knows t.listing arcroot (done ++ [p]) inodes := by
  have hpath (hkey : t.listing.key p = .inl p) : Knows t.listing arcroot (done ++ [p]) tf.inodes :=
    fun i => by rw [find?_snoc_of_ne (by rw [hkey]; exact nofun), hknows i]
  obtain ⟨content, attr⟩ := st
  cases content with
  | none =>
      obtain ⟨-, rfl⟩ := Prod.mk.inj (Option.some.inj h)
      exact hpath (by rw [Listing.key, hst])
  | some content =>
      cases content with
      | reg bytes =>
          have hlink := linkTo_eq hknows hdone hnew hst
          change (match linkTo tf (memberName arcroot p) attr with
            | some other => _
            | none => _) = _ at h
          cases hto : linkTo tf (memberName arcroot p) attr with
          | some other =>
              rw [hto] at h hlink
              obtain ⟨-, rfl⟩ := Prod.mk.inj (Option.some.inj h)
              intro i
              by_cases hkey : t.listing.key p = .inr i
              · -- The inode is known already.
                rw [hkey] at hlink
                rw [hknows i, List.find?_append]
                cases hfind : done.find? fun q => t.listing.key q = .inr i with
                | some r => rfl
                | none =>
                    rw [hfind] at hlink
                    exact nomatch hlink
              · rw [find?_snoc_of_ne hkey, hknows i]
          | none =>
              rw [hto] at h hlink
              obtain ⟨-, rfl⟩ := Prod.mk.inj (Option.some.inj h)
              by_cases hino : attr.ino = 0
              · rw [if_pos hino]
                exact hpath (by rw [Listing.key, hst]; exact if_pos hino)
              · have hkey : t.listing.key p = .inr (attr.ino, attr.dev) := by
                  rw [Listing.key, hst]
                  exact if_neg hino
                rw [if_neg hino]
                intro i
                by_cases hi : i = (attr.ino, attr.dev)
                · have hnone := Option.map_eq_none_iff.mp hlink.symm
                  have hself : [p].find? (fun q => t.listing.key q = .inr i) = some p :=
                    List.find?_cons_of_pos (by rw [hkey, hi]; exact decide_eq_true rfl)
                  rw [hkey, ← hi] at hnone
                  rw [List.find?_append, hnone, hself, hi, List.lookup_cons_self]
                  rfl
                · rw [lookup_cons_ne hi, hknows i, find?_snoc_of_ne]
                  rw [hkey]
                  exact fun heq => hi (Sum.inr.inj heq).symm
      | sock => exact nomatch h
      | _ =>
          obtain ⟨-, rfl⟩ := Prod.mk.inj (Option.some.inj h)
          exact hpath (by rw [Listing.key, hst])

theorem addAll_eq (rest : List Text) {done : List Text} {tf : TarFile}
    (hknows : Knows t.listing arcroot done tf.inodes) (hnodup : (done ++ rest).Nodup)
    (hin : ∀ q ∈ done ++ rest, q ∈ t.listing.walk) :
    ((addAll t.listing arcroot rest tf).1.members, (addAll t.listing arcroot rest tf).2) =
      (tf.members ++ (outcome t.listing arcroot (done ++ rest) rest).1,
        (outcome t.listing arcroot (done ++ rest) rest).2) := by
  induction rest generalizing done tf with
  | nil =>
      rw [addAll, outcome, List.append_nil]
  | cons p rest ih =>
      have hp := hin p (List.mem_append_right _ List.mem_cons_self)
      have hdone : ∀ q ∈ done, q ∈ t.listing.walk := fun q hq => hin q (List.mem_append_left _ hq)
      have hnew : p ∉ done := fun hpd =>
        (List.disjoint_of_nodup_append hnodup) hpd List.mem_cons_self
      obtain ⟨st, hst⟩ := t.mem_walk.mp hp
      have hstat : t.listing.lstat p = some st := t.lstat_of_mem hst
      have hmember : member t.listing arcroot (done ++ p :: rest) p =
          (gettarinfo tf (arcname arcroot p) st).map fun r => (r.1.plain, dataOf r.1 st) :=
        member_eq hknows hdone hnew hstat
      cases hinfo : gettarinfo tf (arcname arcroot p) st with
      | none =>
          have hadd : addAll t.listing arcroot (p :: rest) tf = (tf, some .attributeError) := by
            simp only [addAll, hstat, hinfo]
          rw [hinfo, Option.map_none] at hmember
          simp only [hadd, outcome, hmember, List.append_nil]
      | some info =>
          obtain ⟨ti, inodes⟩ := info
          let next : TarFile := ⟨tf.members ++ [(ti.plain, dataOf ti st)], inodes⟩
          have hadd : addAll t.listing arcroot (p :: rest) tf =
              addAll t.listing arcroot rest next := by
            simp only [addAll, hstat, hinfo, next]
          have hnext : Knows t.listing arcroot (done ++ [p]) next.inodes :=
            hknows.step hdone hnew hstat hinfo
          rw [hinfo, Option.map_some] at hmember
          rw [List.append_cons] at hnodup hin
          have hrest := ih hnext hnodup hin
          rw [← List.append_cons] at hrest
          rw [hadd, hrest]
          simp only [outcome, hmember, List.append_assoc, List.singleton_append]

end

/-- The entries that get a member: all but the excluded ones, until the first socket. -/
def Listing.packed (l : Listing) (exclude : List Text) : List Text :=
  let entries := l.walk.filter fun e => !excluded exclude e
  if entries.all encodes then (entries.insertionSort (bytesLe · ·)).takeWhile fun p =>
    (l.lstat p).any fun st => st.content ≠ some .sock
  else []

/-- What a fresh archive gets, and whether `add_tree` raises. -/
def written (t : Tree) (arcroot : Text) (exclude : List Text) :
    List (TarInfo × List UInt8) × Option Raised :=
  ((addTree .new t.listing arcroot exclude).1.members,
    (addTree .new t.listing arcroot exclude).2)

section

variable {t u : Tree} {arcroot p : Text} {all : List Text}

theorem member_isSome (t : Tree) (arcroot : Text) (all : List Text) (p : Text) :
    (member t.listing arcroot all p).isSome =
      (t.listing.lstat p).any fun st => st.content ≠ some .sock := by
  rw [member]
  cases t.listing.lstat p with
  | none => rfl
  | some st =>
      obtain ⟨content, attr⟩ := st
      cases content with
      | none => rfl
      | some content =>
          cases content with
          | reg bytes =>
              rw [Option.bind_some]
              cases link t.listing arcroot all p <;> rfl
          | _ => rfl

theorem Same.any_eq (h : Same t u) (hp : p ∈ t.listing.walk) :
    ((t.listing.lstat p).any fun st => st.content ≠ some .sock) =
      (u.listing.lstat p).any fun st => st.content ≠ some .sock := by
  obtain ⟨st, hst⟩ := t.mem_walk.mp hp
  obtain ⟨st', hst', hcontent, -⟩ := h.lstat (t.lstat_of_mem hst)
  rw [t.lstat_of_mem hst, hst', Option.any_some, Option.any_some, hcontent]

/-- The members are the same if those before the first socket are. -/
theorem outcome_eq_iff (h : Same t u) {ps : List Text} (hps : ∀ p ∈ ps, p ∈ t.listing.walk) :
    outcome t.listing arcroot all ps = outcome u.listing arcroot all ps ↔
      ∀ p ∈ ps.takeWhile fun p => (t.listing.lstat p).any fun st => st.content ≠ some .sock,
        member t.listing arcroot all p = member u.listing arcroot all p := by
  induction ps with
  | nil => exact ⟨fun _ => nofun, fun _ => rfl⟩
  | cons p ps ih =>
      have hp := hps p List.mem_cons_self
      have hsomet := member_isSome t arcroot all p
      have hsomeu := member_isSome u arcroot all p
      rw [← h.any_eq hp] at hsomeu
      have hrest := ih fun q hq => hps q (List.mem_cons_of_mem p hq)
      rw [List.takeWhile_cons, ← hsomet]
      cases ht : member t.listing arcroot all p with
      | none =>
          have hu : member u.listing arcroot all p = none := by
            rw [← Option.not_isSome_iff_eq_none, hsomeu, ← hsomet, ht]
            exact nofun
          simp only [outcome, ht, hu, true_iff]
          exact nofun
      | some m =>
          obtain ⟨m', hu⟩ := Option.isSome_iff_exists.mp (hsomeu.trans (hsomet.symm.trans
            (congrArg Option.isSome ht)))
          rw [Option.isSome_some, if_pos rfl, List.forall_mem_cons, ← hrest, ht, hu]
          simp only [outcome, ht, hu]
          constructor
          · intro heq
            obtain ⟨hlist, hraised⟩ := Prod.mk.inj heq
            obtain ⟨hm, htail⟩ := List.cons.inj hlist
            exact ⟨congrArg some hm, Prod.ext htail hraised⟩
          · rintro ⟨hm, htail⟩
            rw [Option.some.inj hm, htail]

theorem find?_self (l : Listing) {ps : List Text} (hp : p ∈ ps) :
    ∃ r, ps.find? (fun q => l.key q = l.key p) = some r ∧ l.key r = l.key p := by
  have hsome : (ps.find? fun q => l.key q = l.key p).isSome := by
    rw [List.find?_isSome]
    exact ⟨p, hp, by simp⟩
  obtain ⟨r, hr⟩ := Option.isSome_iff_exists.mp hsome
  have hkey := List.find?_some hr
  rw [decide_eq_true_eq] at hkey
  exact ⟨r, hr, hkey⟩

/-- The first of a class is not behind one of its members. -/
theorem find?_takeWhile (l : Listing) {f : Text → Bool} (hp : p ∈ all.takeWhile f) :
    all.find? (fun q => l.key q = l.key p) =
      (all.takeWhile f).find? fun q => l.key q = l.key p := by
  obtain ⟨r, hr, -⟩ := find?_self l hp
  have hsplit : all.takeWhile f ++ all.dropWhile f = all := List.takeWhile_append_dropWhile
  rw [hr, ← hsplit, List.find?_append, hr, Option.some_or]

theorem link_of_find? {l : Listing} {r : Text}
    (hr : all.find? (fun q => l.key q = l.key p) = some r) :
    link l arcroot all p = if r = p then none else some (memberName arcroot r) := by
  rw [link, hr]
  by_cases hrp : r = p
  · rw [if_pos hrp, Option.filter_some_neg (by simp [hrp])]
    rfl
  · rw [if_neg hrp, Option.filter_some_pos (by simp [hrp])]
    rfl

/-- Members of one path are the same if they are links to the same file. -/
theorem member_eq_iff (h : Same t u) (hall : ∀ q ∈ all, q ∈ t.listing.walk) (hp : p ∈ all) :
    member t.listing arcroot all p = member u.listing arcroot all p ↔
      all.find? (fun q => t.listing.key q = t.listing.key p) =
        all.find? (fun q => u.listing.key q = u.listing.key p) := by
  obtain ⟨st, hin⟩ := t.mem_walk.mp (hall p hp)
  have hst : t.listing.lstat p = some st := t.lstat_of_mem hin
  obtain ⟨st', hst', hcontent, hmode⟩ := h.lstat hst
  obtain ⟨r, hr, hkey⟩ := find?_self t.listing hp
  obtain ⟨r', hr', hkey'⟩ := find?_self u.listing hp
  have hrin := hall r (List.mem_of_find?_eq_some hr)
  have hrin' := hall r' (List.mem_of_find?_eq_some hr')
  rw [member, member, hst, hst', Option.bind_some, Option.bind_some, hmode, hcontent]
  constructor
  · intro heq
    obtain ⟨content, attr⟩ := st
    obtain ⟨content', attr'⟩ := st'
    obtain rfl : content' = content := hcontent
    by_cases hreg : ∃ bytes, content' = some (.reg bytes)
    · obtain ⟨bytes, rfl⟩ := hreg
      have hlink := plainMember_reg_inj heq
      rw [link_of_find? hr, link_of_find? hr'] at hlink
      rw [hr, hr']
      by_cases hrp : r = p
      · by_cases hrp' : r' = p
        · rw [hrp, hrp']
        · rw [if_pos hrp, if_neg hrp'] at hlink
          exact nomatch hlink
      · by_cases hrp' : r' = p
        · rw [if_neg hrp, if_pos hrp'] at hlink
          exact nomatch hlink
        · rw [if_neg hrp, if_neg hrp'] at hlink
          exact congrArg some (memberName_inj hrin hrin' (Option.some.inj hlink))
    · -- Any other entry is by itself.
      have hpath {l : Listing} {attr : Attr} (hl : l.lstat p = some ⟨content', attr⟩) :
          l.key p = .inl p := by
        rcases l.key_cases p with hpath | ⟨bytes, attr, hl', -, -⟩
        · exact hpath
        · exact absurd ⟨bytes, congrArg Status.content (Option.some.inj (hl.symm.trans hl'))⟩ hreg
      rw [hpath hst] at hkey
      rw [hpath hst'] at hkey'
      rw [hr, hr', t.listing.eq_of_key_inl hkey, u.listing.eq_of_key_inl hkey']
  · intro heq
    rw [link, link, heq]

end

/-- Two trees with the same facts make the same archive exactly if they share inodes between the
same of the files that are packed. -/
theorem addTree_same_iff (t u : Tree) (hsame : Same t u) (arcroot : Text) (exclude : List Text) :
    written t arcroot exclude = written u arcroot exclude ↔
      ∀ p ∈ t.listing.packed exclude, ∀ q ∈ t.listing.packed exclude,
        (t.listing.key p = t.listing.key q ↔ u.listing.key p = u.listing.key q) := by
  have hentries := hsame.walk_perm.filter fun e => !excluded exclude e
  have hencodes := hentries.all_eq (f := encodes)
  rw [written, written, addTree, addTree, Listing.packed]
  simp only [← hencodes]
  split
  · rw [← sorted_eq_of_perm hentries]
    let all := (t.listing.walk.filter fun e => !excluded exclude e).insertionSort (bytesLe · ·)
    have hall : ∀ p ∈ all, p ∈ t.listing.walk := fun p hp =>
      List.mem_of_mem_filter ((List.mem_insertionSort _).mp hp)
    have hnodup : t.listing.walk.Nodup := t.listing.walk_perm.nodup_iff.mpr t.nodup
    have hsorted : all.Nodup := (List.perm_insertionSort _ _).nodup_iff.mpr (hnodup.filter _)
    have hrun (t : Tree) (hall : ∀ p ∈ all, p ∈ t.listing.walk) :
        ((addAll t.listing arcroot all .new).1.members, (addAll t.listing arcroot all .new).2) =
          outcome t.listing arcroot all all := by
      have hknows : Knows t.listing arcroot [] TarFile.new.inodes := fun _ => rfl
      exact addAll_eq all hknows hsorted hall
    have hallu : ∀ p ∈ all, p ∈ u.listing.walk := fun p hp =>
      hsame.walk_perm.mem_iff.mp (hall p hp)
    rw [hrun t hall, hrun u hallu, outcome_eq_iff hsame hall, ← find?_key_iff]
    refine forall₂_congr fun p hp => ?_
    have hpall : p ∈ all := (List.takeWhile_sublist _).subset hp
    rw [member_eq_iff hsame hall hpall, find?_takeWhile t.listing hp,
      find?_takeWhile u.listing hp]
  · exact ⟨fun _ => nofun, fun _ => rfl⟩

def plainAttr (ino nlink : ℕ) : Attr := ⟨0o644#12, ino, 1, nlink, 0, 0, [], [], 0⟩

/-- Two files `a` and `b` with the same byte. -/
def apart : Tree where
  listing := .leaf [97] (.reg [120]) false (plainAttr 2 1) <|
    .leaf [98] (.reg [120]) false (plainAttr 3 1) .nil
  nodup := by decide
  relative := by decide
  nlink := by decide

/-- The same, found in the other order, under other inodes and with other owners. -/
def elsewhere : Tree where
  listing := .leaf [98] (.reg [120]) false { plainAttr 7 1 with uid := 5, mtime := 9 } <|
    .leaf [97] (.reg [120]) false (plainAttr 8 1) .nil
  nodup := by decide
  relative := by decide
  nlink := by decide

/-- The same, where `b` is a hard link to `a`. -/
def shared : Tree where
  listing := .leaf [97] (.reg [120]) false (plainAttr 2 2) <|
    .leaf [98] (.reg [120]) false (plainAttr 2 2) .nil
  nodup := by decide
  relative := by decide
  nlink := by decide

theorem apart_shared_differ : Same apart shared ∧ written apart [] [] ≠ written shared [] [] :=
  ⟨fun _ => Iff.rfl, by decide⟩

theorem apart_elsewhere_agree : written apart [] [] = written elsewhere [] [] :=
  (addTree_same_iff apart elsewhere
    (fun _ => (by decide : apart.facts.Perm elsewhere.facts).mem_iff) [] []).mpr (by decide)

end Pack

end Veron
