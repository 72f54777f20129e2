/-
What staging leaves in the build root, where no directory of the DESTDIR meets
a symbolic link there.
-/
import Mathlib.Logic.Function.Basic
import Veron.StageTree

namespace Veron.Driver

open Files FileSystem

/-- Where the build root `root` was `fs`, the directories `D` and the leaves `L`
have been staged. -/
structure Staged (fs : FileSystem) (root : Path) (data : ℕ → DestFile) (D : List Path)
    (L : List (Path × Leaf)) (s : Stage) : Prop where
  dirs : ∀ d ∈ D, s.fs.entry (root ++ d) = some .dir
  plain : ∀ d ∈ D, ∀ name ∈ d, Plain name
  links : ∀ q target, (q, .link target) ∈ L → s.fs.entry (root ++ q) = some (.link target)
  files : ∃ ino : ℕ → ℕ, ∀ q key, (q, .file key) ∈ L →
    s.fs.entry (root ++ q) = some (.file (ino key)) ∧
      s.fs.inode (ino key) = (data key).data ∧ fs.next ≤ ino key ∧ ino key < s.fs.next ∧
      ∀ q' key', (q', .file key') ∈ L → ino key = ino key' → key = key'
  frame : ∀ p, (∀ d ∈ D, p ≠ root ++ d) → (∀ e ∈ L, p ≠ root ++ e.1) →
    s.fs.entry p = fs.entry p
  old : ∀ i < fs.next, s.fs.inode i = fs.inode i
  next : fs.next ≤ s.fs.next
  seen : ∀ key dst, s.seen.lookup key = some dst → (dst.1 ++ [dst.2], .file key) ∈ L ∧ dst.1 ∈ D
  known : ∀ q key, (q, .file key) ∈ L → 1 < (data key).nlink → ∃ dst, s.seen.lookup key = some dst
  count : s.n = L.length

section

variable {fs : FileSystem} {root : Path} {data : ℕ → DestFile} {D : List Path}
  {L : List (Path × Leaf)} {s : Stage}

theorem staged_nil (fs : FileSystem) (root : Path) (data : ℕ → DestFile) :
    Staged fs root data [] [] ⟨fs, 0, []⟩ where
  dirs := by simp
  plain := by simp
  links := by simp
  files := ⟨id, by simp⟩
  frame := by simp
  old := by simp
  next := Nat.le_refl _
  seen := by simp
  known := by simp
  count := rfl

theorem Staged.resolve (h : Staged fs root data D L s) {d : Path} (hd : d ∈ D) :
    s.fs.resolve root d = some (root ++ d) :=
  resolve_dir (h.plain d hd) (h.dirs d hd)

theorem append_ne {p q : Path} (h : p ≠ q) : root ++ p ≠ root ++ q :=
  fun heq => h (List.append_cancel_left heq)

theorem Staged.setDir (h : Staged fs root data D L s) {rel : Path}
    (hplain : ∀ name ∈ rel, Plain name) (hL : ∀ e ∈ L, e.1 ≠ rel) {fs' : FileSystem}
    (hset : Sets s.fs fs' (root ++ rel) (some .dir)) (hinode : fs'.inode = s.fs.inode)
    (hnext : fs'.next = s.fs.next) :
    Staged fs root data (D ++ [rel]) L { s with fs := fs' } := by
  obtain ⟨ino, hino⟩ := h.files
  refine ⟨?_, ?_, ?_, ⟨ino, ?_⟩, ?_, ?_, ?_, ?_, h.known, h.count⟩
  · intro d hd
    by_cases heq : d = rel
    · rw [heq]
      exact hset.self
    · have hmem : d ∈ D := by simpa [heq] using hd
      rw [hset.other _ (append_ne heq)]
      exact h.dirs d hmem
  · intro d hd
    rcases List.mem_append.mp hd with hd | hd
    · exact h.plain d hd
    · rw [List.mem_singleton.mp hd]
      exact hplain
  · intro q target hq
    rw [hset.other _ (append_ne (hL _ hq))]
    exact h.links q target hq
  · intro q key hq
    rw [hset.other _ (append_ne (hL _ hq)), hinode, hnext]
    exact hino q key hq
  · intro p hpD hpL
    rw [hset.other p (hpD rel (by simp))]
    exact h.frame p (fun d hd => hpD d (List.mem_append_left _ hd)) hpL
  · intro i hi
    rw [hinode]
    exact h.old i hi
  · rw [hnext]
    exact h.next
  · intro key dst hat
    obtain ⟨hmem, hdir⟩ := h.seen key dst hat
    exact ⟨hmem, List.mem_append_left _ hdir⟩

/-- A directory of the DESTDIR is made or is there. -/
theorem Staged.makedirs (h : Staged fs root data D L s) {rel : Path}
    (hroot : fs.entry root = some .dir) (hparent : rel = [] ∨ rel.dropLast ∈ D)
    (hplain : ∀ name ∈ rel, Plain name) (hD : rel ∉ D) (hL : ∀ e ∈ L, e.1 ≠ rel)
    (hlink : ∀ target, fs.entry (root ++ rel) ≠ some (.link target)) {fs' : FileSystem}
    (hmake : Driver.makedirs s.fs root rel.reverse = some fs') :
    Staged fs root data (D ++ [rel]) L { s with fs := fs' } := by
  have hframe : s.fs.entry (root ++ rel) = fs.entry (root ++ rel) :=
    h.frame _ (fun d hd => append_ne fun heq => hD (heq ▸ hd))
      fun e he => append_ne fun heq => hL e he heq.symm
  rcases List.eq_nil_or_concat' rel with rfl | ⟨head, name, rfl⟩
  · simp only [List.reverse_nil, Driver.makedirs] at hmake
    split_ifs at hmake with hisdir
    obtain rfl := Option.some.inj hmake
    exact h.setDir hplain hL (Sets.refl (by rw [hframe, List.append_nil, hroot])) rfl rfl
  · have hhead : head ∈ D := by simpa using hparent
    have hresolve := h.resolve hhead
    have hisdir : s.fs.isdir root head := by rw [isdir, hresolve]; rfl
    rw [List.reverse_append, List.reverse_singleton, List.singleton_append, Driver.makedirs,
      List.reverse_reverse, if_pos hisdir, Option.bind_some] at hmake
    rw [← List.append_assoc] at hframe hlink
    cases hmk : s.fs.mkdir root head name with
    | some fs₁ =>
        rw [hmk] at hmake
        obtain rfl := Option.some.inj hmake
        obtain ⟨hset, hinode, hnext⟩ := mkdir_spec hresolve hmk
        rw [List.append_assoc] at hset
        exact h.setDir hplain hL hset hinode hnext
    | none =>
        rw [hmk] at hmake
        simp only at hmake
        split_ifs at hmake with hthere
        obtain rfl := Option.some.inj hmake
        have hdir := entry_of_isdir (h.plain head hhead) (hplain name (by simp))
          (h.dirs head hhead) (fun target => by rw [hframe]; exact hlink target) hthere
        rw [List.append_assoc] at hdir
        exact h.setDir hplain hL (Sets.refl hdir) rfl rfl

section Leaf

variable {q : Path} {fs' : FileSystem} (h : Staged fs root data D L s) (hD : q ∉ D)
  (hL : ∀ e ∈ L, e.1 ≠ q)

include h hD hL

/-- What is common to the three ways a leaf is staged. -/
theorem Staged.frame_leaf {k : Kind} {l : Leaf} (hset : Sets s.fs fs' (root ++ q) (some k)) :
    (∀ d ∈ D, fs'.entry (root ++ d) = some .dir) ∧
      (∀ e ∈ L, fs'.entry (root ++ e.1) = s.fs.entry (root ++ e.1)) ∧
      ∀ p, (∀ d ∈ D, p ≠ root ++ d) → (∀ e ∈ L ++ [(q, l)], p ≠ root ++ e.1) →
        fs'.entry p = fs.entry p := by
  refine ⟨?_, ?_, ?_⟩
  · intro d hd
    rw [hset.other _ (append_ne fun heq => hD (heq ▸ hd))]
    exact h.dirs d hd
  · exact fun e he => hset.other _ (append_ne (hL e he))
  · intro p hpD hpL
    rw [hset.other p (hpL (q, l) (by simp))]
    exact h.frame p hpD fun e he => hpL e (List.mem_append_left _ he)

theorem Staged.addLink {target : String} (hset : Sets s.fs fs' (root ++ q) (some (.link target)))
    (hinode : fs'.inode = s.fs.inode) (hnext : fs'.next = s.fs.next) :
    Staged fs root data D (L ++ [(q, .link target)]) ⟨fs', s.n + 1, s.seen⟩ := by
  obtain ⟨ino, hino⟩ := h.files
  obtain ⟨hdirs, hsame, hframe⟩ := h.frame_leaf hD hL (l := .link target) hset
  refine ⟨hdirs, h.plain, ?_, ⟨ino, ?_⟩, hframe, ?_, ?_, ?_, ?_, by simp [h.count]⟩
  · intro q' t hq'
    rcases List.mem_append.mp hq' with hq' | hq'
    · rw [hsame _ hq']
      exact h.links q' t hq'
    · obtain ⟨rfl, ht⟩ : q' = q ∧ t = target := by simpa using hq'
      rw [hset.self, ht]
  · intro q' key hq'
    have hmem : (q', .file key) ∈ L := by simpa using hq'
    obtain ⟨hentry, hdata, hlow, hhigh, hinj⟩ := hino q' key hmem
    rw [hsame _ hmem, hinode, hnext]
    exact ⟨hentry, hdata, hlow, hhigh, fun q₁ key₁ hq₁ => hinj q₁ key₁ (by simpa using hq₁)⟩
  · rw [hinode]
    exact h.old
  · rw [hnext]
    exact h.next
  · intro key dst hat
    obtain ⟨hmem, hdir⟩ := h.seen key dst hat
    exact ⟨List.mem_append_left _ hmem, hdir⟩
  · intro q' key hq'
    exact h.known q' key (by simpa using hq')

theorem Staged.addShared {key i : ℕ} {q₀ : Path} (hq₀ : (q₀, .file key) ∈ L)
    (hi : s.fs.entry (root ++ q₀) = some (.file i))
    (hset : Sets s.fs fs' (root ++ q) (some (.file i)))
    (hinode : fs'.inode = s.fs.inode) (hnext : fs'.next = s.fs.next) :
    Staged fs root data D (L ++ [(q, .file key)]) ⟨fs', s.n + 1, s.seen⟩ := by
  obtain ⟨ino, hino⟩ := h.files
  obtain ⟨hdirs, hsame, hframe⟩ := h.frame_leaf hD hL (l := .file key) hset
  have hmem : ∀ {q' key'}, (q', Leaf.file key') ∈ L ++ [(q, .file key)] →
      ∃ q₁, (q₁, Leaf.file key') ∈ L := by
    intro q' key' hq'
    rcases List.mem_append.mp hq' with hq' | hq'
    · exact ⟨q', hq'⟩
    · obtain ⟨-, rfl⟩ : q' = q ∧ key' = key := by simpa using hq'
      exact ⟨q₀, hq₀⟩
  have hval : i = ino key := by simpa [hi] using (hino q₀ key hq₀).1
  refine ⟨hdirs, h.plain, ?_, ⟨ino, ?_⟩, hframe, ?_, ?_, ?_, ?_, by simp [h.count]⟩
  · intro q' t hq'
    have hq' : (q', .link t) ∈ L := by simpa using hq'
    rw [hsame _ hq']
    exact h.links q' t hq'
  · intro q' key' hq'
    obtain ⟨q₁, hq₁⟩ := hmem hq'
    obtain ⟨-, hdata, hlow, hhigh, hinj⟩ := hino q₁ key' hq₁
    rw [hinode, hnext]
    refine ⟨?_, hdata, hlow, hhigh, fun q₂ key₂ hq₂ => ?_⟩
    · rcases List.mem_append.mp hq' with hq' | hq'
      · rw [hsame _ hq']
        exact (hino q' key' hq').1
      · obtain ⟨rfl, rfl⟩ : q' = q ∧ key' = key := by simpa using hq'
        rw [hset.self, hval]
    · obtain ⟨q₃, hq₃⟩ := hmem hq₂
      exact hinj q₃ key₂ hq₃
  · rw [hinode]
    exact h.old
  · rw [hnext]
    exact h.next
  · intro key' dst hat
    obtain ⟨hmem, hdir⟩ := h.seen key' dst hat
    exact ⟨List.mem_append_left _ hmem, hdir⟩
  · intro q' key' hq'
    obtain ⟨q₁, hq₁⟩ := hmem hq'
    exact h.known q₁ key' hq₁

theorem Staged.addFile {key : ℕ} {seen : List (ℕ × Path × String)}
    (hnew : ∀ q', (q', .file key) ∉ L)
    (hset : Sets s.fs fs' (root ++ q) (some (.file s.fs.next)))
    (hinode : fs'.inode = Function.update s.fs.inode s.fs.next (data key).data)
    (hnext : fs'.next = s.fs.next + 1)
    (hseen : ∀ key' dst, seen.lookup key' = some dst →
      (dst.1 ++ [dst.2], .file key') ∈ L ++ [(q, .file key)] ∧ dst.1 ∈ D)
    (hknown : ∀ q' key', (q', .file key') ∈ L ++ [(q, .file key)] → 1 < (data key').nlink →
      ∃ dst, seen.lookup key' = some dst) :
    Staged fs root data D (L ++ [(q, .file key)]) ⟨fs', s.n + 1, seen⟩ := by
  obtain ⟨ino, hino⟩ := h.files
  obtain ⟨hdirs, hsame, hframe⟩ := h.frame_leaf hD hL (l := .file key) hset
  have hne : ∀ {q' key'}, (q', Leaf.file key') ∈ L → key' ≠ key := by
    rintro q' key' hq' rfl
    exact hnew q' hq'
  refine ⟨hdirs, h.plain, ?_, ⟨Function.update ino key s.fs.next, ?_⟩, hframe, ?_, ?_, hseen,
    hknown, by simp [h.count]⟩
  · intro q' t hq'
    have hq' : (q', .link t) ∈ L := by simpa using hq'
    rw [hsame _ hq']
    exact h.links q' t hq'
  · intro q' key' hq'
    have hinj : ∀ q₁ key₁, (q₁, Leaf.file key₁) ∈ L ++ [(q, .file key)] →
        Function.update ino key s.fs.next key' = Function.update ino key s.fs.next key₁ →
        key' = key₁ := by
      intro q₁ key₁ hq₁ heq
      rcases List.mem_append.mp hq' with hL' | hL' <;>
        rcases List.mem_append.mp hq₁ with hL₁ | hL₁
      · rw [Function.update_of_ne (hne hL'), Function.update_of_ne (hne hL₁)] at heq
        exact (hino q' key' hL').2.2.2.2 q₁ key₁ hL₁ heq
      · obtain ⟨-, rfl⟩ : q₁ = q ∧ key₁ = key := by simpa using hL₁
        rw [Function.update_of_ne (hne hL'), Function.update_self] at heq
        exact absurd heq (Nat.ne_of_lt (hino q' key' hL').2.2.2.1)
      · obtain ⟨-, rfl⟩ : q' = q ∧ key' = key := by simpa using hL'
        rw [Function.update_of_ne (hne hL₁), Function.update_self] at heq
        exact absurd heq (Nat.ne_of_gt (hino q₁ key₁ hL₁).2.2.2.1)
      · obtain ⟨-, rfl⟩ : q' = q ∧ key' = key := by simpa using hL'
        obtain ⟨-, rfl⟩ : q₁ = q ∧ key₁ = key' := by simpa using hL₁
        rfl
    rcases List.mem_append.mp hq' with hq' | hq'
    · obtain ⟨hentry, hdata, hlow, hhigh, -⟩ := hino q' key' hq'
      rw [Function.update_of_ne (hne hq')] at hinj ⊢
      rw [hsame _ hq', hinode, Function.update_of_ne (Nat.ne_of_lt hhigh), hnext]
      exact ⟨hentry, hdata, hlow, Nat.lt_succ_of_lt hhigh, hinj⟩
    · obtain ⟨rfl, rfl⟩ : q' = q ∧ key' = key := by simpa using hq'
      rw [Function.update_self] at hinj ⊢
      rw [hset.self, hinode, Function.update_self, hnext]
      exact ⟨rfl, rfl, h.next, Nat.lt_succ_self _, hinj⟩
  · intro i hi
    rw [hinode, Function.update_of_ne (Nat.ne_of_lt (Nat.lt_of_lt_of_le hi h.next))]
    exact h.old i hi
  · rw [hnext]
    exact Nat.le_succ_of_le h.next

end Leaf

/-- The old entry, if any, is gone, and nothing is written through it. -/
theorem unlinkExisting_spec {fs fs₁ : FileSystem} {d rel : Path} {name : String}
    (hd : fs.resolve root rel = some d) (h : unlinkExisting fs root rel name = some fs₁) :
    Sets fs fs₁ (d ++ [name]) none ∧ fs₁.inode = fs.inode ∧ fs₁.next = fs.next := by
  rw [unlinkExisting] at h
  split_ifs at h with hthere
  · exact unlink_spec hd h
  · obtain rfl := Option.some.inj h
    rw [lexists, hd] at hthere
    exact ⟨Sets.refl (by simpa using hthere), rfl, rfl⟩

theorem Staged.stageLeaf (h : Staged fs root data D L s) {rel : Path} {e : String × Leaf}
    (hrel : rel ∈ D) (hD : rel ++ [e.1] ∉ D) (hL : ∀ f ∈ L, f.1 ≠ rel ++ [e.1])
    (hlinks : ∀ q key, e.2 = .file key → (q, .file key) ∈ L → 1 < (data key).nlink) {s' : Stage}
    (hstep : Driver.stageLeaf data root rel s e = some s') :
    Staged fs root data D (L ++ [(rel ++ [e.1], e.2)]) s' := by
  obtain ⟨name, leaf⟩ := e
  simp only [Driver.stageLeaf, Option.bind_eq_bind] at hstep
  obtain ⟨fs₁, hclear, hstep⟩ := Option.bind_eq_some_iff.mp hstep
  obtain ⟨hgone, hinode₁, hnext₁⟩ := unlinkExisting_spec (h.resolve hrel) hclear
  rw [List.append_assoc] at hgone
  have hdirs : ∀ d ∈ D, fs₁.entry (root ++ d) = some .dir := by
    intro d hd
    rw [hgone.other _ (append_ne fun heq => hD (heq ▸ hd))]
    exact h.dirs d hd
  have hresolve : ∀ d ∈ D, fs₁.resolve root d = some (root ++ d) :=
    fun d hd => resolve_dir (h.plain d hd) (hdirs d hd)
  cases leaf with
  | link target =>
      obtain ⟨fs₂, hmake, hstep⟩ := Option.bind_eq_some_iff.mp hstep
      obtain rfl := Option.some.inj hstep
      obtain ⟨hset, hinode₂, hnext₂⟩ := symlink_spec (hresolve rel hrel) hmake
      rw [List.append_assoc] at hset
      exact h.addLink hD hL (hgone.trans hset) (hinode₂.trans hinode₁) (hnext₂.trans hnext₁)
  | file key =>
      simp only at hstep
      cases hfirst : (if 1 < (data key).nlink then s.seen.lookup key else none) with
      | some first =>
          have hlookup : s.seen.lookup key = some first := by
            split_ifs at hfirst with hmany
            exact hfirst
          obtain ⟨hmem, hfirstD⟩ := h.seen key first hlookup
          obtain ⟨ino, hino⟩ := h.files
          have hentry := (hino _ key hmem).1
          have hentry₁ : fs₁.entry (root ++ first.1 ++ [first.2]) = some (.file (ino key)) := by
            rw [List.append_assoc, hgone.other _ (append_ne (hL _ hmem)), hentry]
          have hfree : fs₁.entry (root ++ rel ++ [name]) = none := by
            rw [List.append_assoc]
            exact hgone.self
          obtain ⟨fs₂, hlink, hset, hinode₂, hnext₂⟩ := link_spec (hresolve _ hfirstD) hentry₁
            (hresolve rel hrel) (hdirs rel hrel) hfree
          rw [hfirst] at hstep
          simp only [hlink] at hstep
          obtain rfl := Option.some.inj hstep
          rw [List.append_assoc] at hset
          exact h.addShared hD hL hmem hentry (hgone.trans hset) (hinode₂.trans hinode₁)
            (hnext₂.trans hnext₁)
      | none =>
          have hnew : ∀ q', (q', Leaf.file key) ∉ L := by
            intro q' hq'
            have hmany := hlinks q' key rfl hq'
            obtain ⟨dst, hat⟩ := h.known q' key hq' hmany
            rw [if_pos hmany, hat] at hfirst
            cases hfirst
          rw [hfirst] at hstep
          obtain ⟨fs₂, hcopy, hstep⟩ := Option.bind_eq_some_iff.mp hstep
          obtain rfl := Option.some.inj hstep
          obtain ⟨hset, hinode₂, hnext₂⟩ := copy_spec (hresolve rel hrel) hcopy
          rw [List.append_assoc, hnext₁] at hset
          rw [hinode₁, hnext₁] at hinode₂
          rw [hnext₁] at hnext₂
          refine h.addFile hD hL hnew (hgone.trans hset) hinode₂ hnext₂ ?_ ?_
          · intro key' dst hat
            by_cases hkey : key' = key ∧ 1 < (data key).nlink
            · obtain ⟨rfl, hmany⟩ := hkey
              rw [if_pos hmany, List.lookup_cons_self] at hat
              obtain rfl := Option.some.inj hat
              exact ⟨by simp, hrel⟩
            · have hold : s.seen.lookup key' = some dst := by
                split_ifs at hat with hmany
                · rwa [lookup_cons_ne (by tauto)] at hat
                · exact hat
              obtain ⟨hmem, hdir⟩ := h.seen key' dst hold
              exact ⟨List.mem_append_left _ hmem, hdir⟩
          · intro q' key' hq' hmany
            by_cases hkey : key' = key
            · subst hkey
              exact ⟨(rel, name), by rw [if_pos hmany, List.lookup_cons_self]⟩
            · have hq' : (q', .file key') ∈ L := by simpa [hkey] using hq'
              obtain ⟨dst, hat⟩ := h.known q' key' hq' hmany
              refine ⟨dst, ?_⟩
              split_ifs with hlinked
              · rw [lookup_cons_ne hkey, hat]
              · exact hat

/-- A file that two of the leaves are has more than one link. -/
def LinksCounted (data : ℕ → DestFile) (L : List (Path × Leaf)) : Prop :=
  ∀ q q' key, (q, .file key) ∈ L → (q', .file key) ∈ L → q ≠ q' → 1 < (data key).nlink

theorem Staged.stageLeaves (h : Staged fs root data D L s) {rel : Path}
    {ls : List (String × Leaf)} (hrel : rel ∈ D) (hnodup : (ls.map Prod.fst).Nodup)
    (hnew : ∀ e ∈ leavesAt rel ls, e.1 ∉ D ∧ e.1 ∉ L.map Prod.fst)
    (hcounted : LinksCounted data (L ++ leavesAt rel ls)) {s' : Stage}
    (hrun : ls.foldlM (Driver.stageLeaf data root rel) s = some s') :
    Staged fs root data D (L ++ leavesAt rel ls) s' := by
  induction ls generalizing L s with
  | nil =>
      obtain rfl : s = s' := by simpa using hrun
      simpa [leavesAt] using h
  | cons e ls ih =>
      have hcons : leavesAt rel (e :: ls) = (rel ++ [e.1], e.2) :: leavesAt rel ls := rfl
      rw [List.foldlM_cons] at hrun
      obtain ⟨s₁, hstep, hrest⟩ := Option.bind_eq_some_iff.mp hrun
      rw [hcons] at hnew hcounted ⊢
      obtain ⟨hD, hL⟩ := hnew _ List.mem_cons_self
      have hL' : ∀ f ∈ L, f.1 ≠ rel ++ [e.1] :=
        fun f hf heq => hL (List.mem_map.mpr ⟨f, hf, heq⟩)
      have hstaged := h.stageLeaf hrel hD hL' (fun q key hkey hq =>
        hcounted q (rel ++ [e.1]) key (by simp [hq]) (by simp [← hkey]) (hL' _ hq)) hstep
      rw [List.append_cons] at hcounted ⊢
      rw [List.map_cons, List.nodup_cons] at hnodup
      refine ih hstaged hnodup.2 (fun f hf => ?_) hcounted hrest
      obtain ⟨hfD, hfL⟩ := hnew f (List.mem_cons_of_mem _ hf)
      refine ⟨hfD, ?_⟩
      rw [List.map_append, List.mem_append, not_or]
      refine ⟨hfL, ?_⟩
      obtain ⟨l, hl, rfl⟩ := leavesAt_prefix hf
      simp only [List.map_singleton, List.mem_singleton, List.append_cancel_left_eq,
        List.cons.injEq, and_true]
      exact fun heq => hnodup.1 (List.mem_map.mpr ⟨l, hl, heq⟩)

/-- Going through a DESTDIR, directory by directory. -/
theorem staged_walk {W : Walked} (hwalk : Walk W) (hroot : fs.entry root = some .dir)
    (hlink : ∀ d ∈ dirPaths W, ∀ target, fs.entry (root ++ d) ≠ some (.link target))
    (hcounted : LinksCounted data (leafPaths W)) {s' : Stage}
    (hrun : W.foldlM (stageDir data root) ⟨fs, 0, []⟩ = some s') :
    Staged fs root data (dirPaths W) (leafPaths W) s' := by
  induction hwalk generalizing s' with
  | nil =>
      obtain rfl : (⟨fs, 0, []⟩ : Stage) = s' := by simpa using hrun
      exact staged_nil fs root data
  | @snoc V rel ls _ hparent hplain hD hL hnodup hnew ih =>
      have hdirs : dirPaths (V ++ [(rel, ls)]) = dirPaths V ++ [rel] := by simp [dirPaths]
      have hleaves : leafPaths (V ++ [(rel, ls)]) = leafPaths V ++ leavesAt rel ls := by
        rw [leafPaths_append, leafPaths_cons]
        simp [leafPaths]
      rw [hdirs] at hlink ⊢
      rw [hleaves] at hcounted ⊢
      rw [List.foldlM_append] at hrun
      obtain ⟨s₁, hbefore, hlast⟩ := Option.bind_eq_some_iff.mp hrun
      have hstaged := ih (fun d hd => hlink d (List.mem_append_left _ hd))
        (fun q q' key hq hq' => hcounted q q' key (List.mem_append_left _ hq)
          (List.mem_append_left _ hq')) hbefore
      rw [List.foldlM_cons] at hlast
      obtain ⟨s₂, hdir, hnil⟩ := Option.bind_eq_some_iff.mp hlast
      obtain rfl : s₂ = s' := by simpa using hnil
      obtain ⟨fs₁, hmake, hfiles⟩ := Option.bind_eq_some_iff.mp hdir
      have hmade := hstaged.makedirs hroot hparent hplain hD hL (hlink rel (by simp)) hmake
      refine hmade.stageLeaves (by simp) hnodup (fun e he => ?_) hcounted hfiles
      obtain ⟨hdir', hleaf'⟩ := hnew e he
      exact ⟨by simpa [or_comm] using hdir', hleaf'⟩

end

/-- A DESTDIR: what is in it, and the data of its files.  A file under two names
has two links. -/
structure DestDir where
  entries : List (String × DestNode)
  data : ℕ → DestFile
  proper : Proper entries
  counted : ∀ q q' key, nodeAt entries q = some (.file key) → nodeAt entries q' = some (.file key) →
    q ≠ q' → 1 < (data key).nlink

section

variable (dest : DestDir) {q : Path}

theorem DestDir.file_mem {key : ℕ} :
    (q, .file key) ∈ leafPaths (walkTree dest.entries) ↔
      nodeAt dest.entries q = some (.file key) := by
  rw [mem_leafPaths_walkTree dest.proper]
  constructor
  · rintro ⟨node, hnode, hl⟩
    cases node with
    | file key' =>
        obtain rfl : key' = key := by simpa [DestNode.leaf] using hl
        exact hnode
    | link target toDir => cases hl
    | dir es => cases hl
  · exact fun hnode => ⟨_, hnode, rfl⟩

theorem DestDir.link_mem {target : String} {toDir : Bool}
    (h : nodeAt dest.entries q = some (.link target toDir)) :
    (q, .link target) ∈ leafPaths (walkTree dest.entries) :=
  (mem_leafPaths_walkTree dest.proper).mpr ⟨_, h, rfl⟩

end

/-- Staging, where no directory of the DESTDIR is at a symbolic link of the build
root: the files and links arrive, files are one there when they were one here,
nothing else changes, and the count is theirs. -/
theorem stageInto_spec (dest : DestDir) {fs fs' : FileSystem} {root : Path} {n : ℕ}
    (hroot : fs.entry root = some .dir)
    (hlink : ∀ q sub target, nodeAt dest.entries q = some (.dir sub) →
      fs.entry (root ++ q) ≠ some (.link target))
    (h : stageInto dest.data root fs dest.entries = some (fs', n)) :
    (∀ q key, nodeAt dest.entries q = some (.file key) →
      ∃ i, fs'.entry (root ++ q) = some (.file i) ∧ fs'.inode i = (dest.data key).data) ∧
    (∀ q target toDir, nodeAt dest.entries q = some (.link target toDir) →
      fs'.entry (root ++ q) = some (.link target)) ∧
    (∀ q sub, nodeAt dest.entries q = some (.dir sub) → fs'.entry (root ++ q) = some .dir) ∧
    (∀ q q' key key', nodeAt dest.entries q = some (.file key) →
      nodeAt dest.entries q' = some (.file key') →
      (fs'.entry (root ++ q) = fs'.entry (root ++ q') ↔ key = key')) ∧
    (∀ p, (∀ q, nodeAt dest.entries q ≠ none → p ≠ root ++ q) → fs'.entry p = fs.entry p ∧
      ∀ i, fs.entry p = some (.file i) → fs'.inode i = fs.inode i) ∧
    n = leafCount dest.entries := by
  rw [stageInto] at h
  split_ifs at h with hbin
  obtain ⟨s, hrun, hs⟩ := Option.bind_eq_some_iff.mp h
  obtain ⟨rfl, rfl⟩ : s.fs = fs' ∧ s.n = n := by simpa using hs
  have hstaged := staged_walk (walk_walkTree dest.proper) hroot
    (fun d hd target => by
      obtain ⟨sub, hsub⟩ := (mem_dirPaths_walkTree dest.proper).mp hd
      exact hlink d sub target hsub)
    (fun q q' key hq hq' => dest.counted q q' key (dest.file_mem.mp hq) (dest.file_mem.mp hq')) hrun
  obtain ⟨ino, hino⟩ := hstaged.files
  have hfile := fun q key hq => hino q key (dest.file_mem.mpr hq)
  refine ⟨?_, ?_, ?_, ?_, ?_, ?_⟩
  · exact fun q key hq => ⟨ino key, (hfile q key hq).1, (hfile q key hq).2.1⟩
  · exact fun q target toDir hq => hstaged.links q target (dest.link_mem hq)
  · exact fun q sub hq => hstaged.dirs q ((mem_dirPaths_walkTree dest.proper).mpr ⟨sub, hq⟩)
  · intro q q' key key' hq hq'
    obtain ⟨hentry, -, -, -, hinj⟩ := hfile q key hq
    rw [hentry, (hfile q' key' hq').1]
    constructor
    · intro heq
      exact hinj q' key' (dest.file_mem.mpr hq') (by simpa using heq)
    · rintro rfl
      rfl
  · intro p hp
    have hframe : s.fs.entry p = fs.entry p := by
      refine hstaged.frame p (fun d hd => ?_) fun e he => ?_
      · obtain ⟨sub, hsub⟩ := (mem_dirPaths_walkTree dest.proper).mp hd
        exact hp d (by simp [hsub])
      · obtain ⟨node, hnode, -⟩ := (mem_leafPaths_walkTree dest.proper).mp he
        exact hp e.1 (by simp [hnode])
    exact ⟨hframe, fun i hi => hstaged.old i (fs.bound p i hi)⟩
  · rw [hstaged.count, length_leafPaths_walkTree dest.proper]

section Tar

/-- `usr/bin/tar` is a link to `busybox`, and `bin` one to `usr/bin`. -/
def mergedRoot : FileSystem :=
  FileSystem.ofList
    [([], .dir), (["usr"], .dir), (["usr", "bin"], .dir), (["usr", "bin", "busybox"], .file 0),
      (["usr", "bin", "tar"], .link "busybox"), (["bin"], .link "usr/bin")]
    (fun _ => ⟨0o755, [0x62]⟩) 1 (by decide) (by decide) (by decide)

def tarData (_ : ℕ) : DestFile := ⟨⟨0o755, [0x74]⟩, 2⟩

/-- `tar`, by two names, and a link to it. -/
def tarEntries : List (String × DestNode) :=
  [("tar", .file 7), ("gtar", .file 7), ("bsdtar", .link "tar" false)]

theorem tarEntries_proper : Proper tarEntries := by
  refine .leaf (by decide) (by decide) (by simp) (.leaf (by decide) (by decide) (by simp)
    (.leaf (by decide) (by decide) (by simp) .nil))

/-- A DESTDIR with these entries in the directory `path`. -/
def tarDest (path : List String) (hplain : ∀ name ∈ path, Plain name) : DestDir where
  entries := path.foldr (fun name es => [(name, .dir es)]) tarEntries
  data := tarData
  proper := by
    induction path with
    | nil => exact tarEntries_proper
    | cons name path ih =>
        exact .dir (hplain name List.mem_cons_self) (by simp)
          (ih fun a ha => hplain a (List.mem_cons_of_mem _ ha)) .nil
  counted _ _ _ _ _ _ := Nat.one_lt_two

/-- Staging into `usr/bin` replaces the link, not `busybox` behind it. -/
theorem stageInto_spec_tar : ∃ fs', stageInto tarData [] mergedRoot
      (tarDest ["usr", "bin"] (by decide)).entries = some (fs', 3) ∧
    fs'.entry ["usr", "bin", "tar"] = fs'.entry ["usr", "bin", "gtar"] ∧
    fs'.entry ["usr", "bin", "busybox"] = some (.file 0) := by
  have hrun : (stageInto tarData [] mergedRoot
      (tarDest ["usr", "bin"] (by decide)).entries).isSome := by decide +kernel
  obtain ⟨⟨fs', n⟩, h⟩ := Option.isSome_iff_exists.mp hrun
  have hlink : ∀ q sub target, nodeAt (tarDest ["usr", "bin"] (by decide)).entries q =
      some (.dir sub) → mergedRoot.entry ([] ++ q) ≠ some (.link target) := by
    intro q sub target hq
    have hdir := (mem_dirPaths_walkTree (tarDest ["usr", "bin"] (by decide)).proper).mpr ⟨sub, hq⟩
    have hpaths : dirPaths (walkTree (tarDest ["usr", "bin"] (by decide)).entries) =
      [[], ["usr"], ["usr", "bin"]] := by decide +kernel
    have hentry : ∀ p ∈ [[], ["usr"], ["usr", "bin"]],
      mergedRoot.entry ([] ++ p) = some .dir := by decide
    rw [hentry q (hpaths ▸ hdir)]
    simp
  obtain ⟨-, -, -, hsame, hframe, hcount⟩ :=
    stageInto_spec (tarDest ["usr", "bin"] (by decide))
      (show mergedRoot.entry [] = some .dir from rfl) hlink h
  have hn : n = 3 := by rw [hcount]; simp [tarDest, tarEntries, leafCount]
  subst hn
  refine ⟨fs', h, (hsame ["usr", "bin", "tar"] ["usr", "bin", "gtar"] 7 7 rfl rfl).mpr rfl, ?_⟩
  refine (hframe _ ?_).1
  rintro q hq rfl
  exact hq rfl

/-- Where `bin` is a link to `usr/bin`, what is staged into `bin` replaces `tar` in
`usr/bin`, which no entry of the DESTDIR names. -/
theorem stageInto_through_link : ∃ fs' n, stageInto tarData [] mergedRoot
      (tarDest ["bin"] (by decide)).entries = some (fs', n) ∧
    (∀ q, nodeAt (tarDest ["bin"] (by decide)).entries q ≠ none → ["usr", "bin", "tar"] ≠ [] ++ q) ∧
    mergedRoot.entry ["usr", "bin", "tar"] = some (.link "busybox") ∧
    fs'.entry ["usr", "bin", "tar"] = some (.file 1) := by
  have hrun : (stageInto tarData [] mergedRoot (tarDest ["bin"] (by decide)).entries).map
      (fun r => r.1.entry ["usr", "bin", "tar"]) = some (some (.file 1)) := by decide +kernel
  obtain ⟨⟨fs', n⟩, h, hentry⟩ := Option.map_eq_some_iff.mp hrun
  refine ⟨fs', n, h, ?_, rfl, hentry⟩
  rintro q hq rfl
  exact hq rfl

end Tar

end Veron.Driver
