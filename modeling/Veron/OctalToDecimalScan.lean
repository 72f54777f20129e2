/-
What the regular expression for octal literals finds, and the replacements as one pass
from left to right.
-/
import Mathlib.Data.List.TakeWhile
import Veron.OctalToDecimal

namespace Veron.OctalToDecimal

open Regex

attribute [local simp] scan

/-- What the expression takes at a place, the character in front being `prev`. -/
def literalAt (prev : Option Char) : Text → Option Text
  | [] => none
  | c :: t =>
      if prev.any inToken ∨ c ≠ '0' ∨ t.takeWhile isDigit = [] then none
      else some (c :: (t.takeWhile isDigit ++ (t.dropWhile isDigit).takeWhile isSuffix))

variable {prev : Option Char} {rest lit t : Text}

theorem literalAt_eq_some (h : literalAt prev rest = some lit) :
    ∃ ds suffix tail, rest = lit ++ tail ∧ lit = '0' :: (ds ++ suffix) ∧ prev.any inToken = false ∧
      ds ≠ [] ∧ ds = (ds ++ suffix ++ tail).takeWhile isDigit ∧
      suffix = (suffix ++ tail).takeWhile isSuffix := by
  cases rest with
  | nil => cases h
  | cons c t =>
      rw [literalAt] at h
      split at h
      · cases h
      · rename_i hcond
        obtain ⟨hprev, hc, hds⟩ :
            ¬ prev.any inToken = true ∧ c = '0' ∧ t.takeWhile isDigit ≠ [] := by
          simpa [not_or] using hcond
        obtain rfl := Option.some.inj h
        have hsplit : t.takeWhile isDigit ++ (t.dropWhile isDigit).takeWhile isSuffix ++
            (t.dropWhile isDigit).dropWhile isSuffix = t := by
          rw [List.append_assoc, List.takeWhile_append_dropWhile, List.takeWhile_append_dropWhile]
        refine ⟨t.takeWhile isDigit, (t.dropWhile isDigit).takeWhile isSuffix,
          (t.dropWhile isDigit).dropWhile isSuffix, ?_, by rw [hc], by simpa using hprev, hds, ?_,
          ?_⟩
        · rw [List.cons_append, hsplit]
        · rw [hsplit]
        · rw [List.takeWhile_append_dropWhile]

theorem octal_run_none (before : Text) (h : literalAt before.head? rest = none) :
    octal.run ⟨before, rest, []⟩ = [] := by
  have hzero : ∀ s : Place Char, s.rest.head? ≠ some '0' → (Regex.one (· = '0')).run s = [] := by
    rintro ⟨before, rest, groups⟩ hs
    cases rest with
    | nil => rfl
    | cons c t => exact if_neg (by simpa using hs)
  have hdigit : ∀ s : Place Char, s.rest.takeWhile isDigit = [] →
      (plus (.one isDigit)).run s = [] := by
    rintro ⟨before, rest, groups⟩ hs
    cases rest with
    | nil => rfl
    | cons c t =>
        have hc : ¬ isDigit c = true := by
          intro hc
          rw [List.takeWhile_cons_of_pos hc] at hs
          cases hs
        simp [plus, run, hc]
  rw [octal, run, List.map_eq_nil_iff]
  change (run (.edge _) _).flatMap _ = []
  by_cases hprev : before.head?.any inToken = true
  · simp [run, hprev]
  · rw [run, if_pos (by simpa using hprev), List.flatMap_singleton]
    change (run (.one _) _).flatMap _ = []
    cases rest with
    | nil => rfl
    | cons c t =>
        by_cases hc : c = '0'
        · subst hc
          have ht : t.takeWhile isDigit = [] := by
            simpa [literalAt, hprev] using h
          change (run (plus _) _).flatMap _ ++ [] = []
          rw [hdigit _ ht]
          rfl
        · rw [hzero _ (by simpa using hc)]
          rfl

theorem octal_run_some (before : Text) (h : literalAt before.head? rest = some lit) :
    (octal.run ⟨before, rest, []⟩).head? =
      some ⟨lit.reverse ++ before, rest.drop lit.length, [(0, lit)]⟩ := by
  obtain ⟨ds, suffix, tail, rfl, rfl, hprev, hne, hds, hsuffix⟩ := literalAt_eq_some h
  obtain ⟨d, ds', rfl⟩ := List.exists_cons_of_ne_nil hne
  have hd : isDigit d = true := by
    by_contra hd
    rw [List.append_assoc, List.cons_append, List.takeWhile_cons_of_neg hd] at hds
    cases hds
  have hrun : ds' = (ds' ++ (suffix ++ tail)).takeWhile isDigit := by
    rw [List.append_assoc, List.cons_append, List.takeWhile_cons_of_pos hd] at hds
    exact List.tail_eq_of_cons_eq hds
  have hedge : (Regex.edge fun before _ => !before.any inToken).run
      ⟨before, '0' :: (d :: (ds' ++ (suffix ++ tail))), []⟩ =
        [⟨before, '0' :: (d :: (ds' ++ (suffix ++ tail))), []⟩] := by
    rw [run, if_pos (by simp [hprev])]
  have hplus : ((plus (.one isDigit)).run
      ⟨'0' :: before, d :: (ds' ++ (suffix ++ tail)), []⟩).head? =
        some ⟨ds'.reverse ++ (d :: '0' :: before), suffix ++ tail, []⟩ := by
    refine run_seq_head (t := ⟨d :: '0' :: before, ds' ++ (suffix ++ tail), []⟩) ?_ ?_
    · simp [run, hd]
    · rw [run_star_one_head, skip_run hrun]
  have hstar : ((Regex.star (.one isSuffix)).run
      ⟨ds'.reverse ++ (d :: '0' :: before), suffix ++ tail, []⟩).head? =
        some ⟨suffix.reverse ++ (ds'.reverse ++ (d :: '0' :: before)), tail, []⟩ := by
    rw [run_star_one_head, skip_run hsuffix]
  have hzero : ((Regex.one (· = '0')).run
      ⟨before, '0' :: (d :: (ds' ++ (suffix ++ tail))), []⟩).head? =
        some ⟨'0' :: before, d :: (ds' ++ (suffix ++ tail)), []⟩ := rfl
  have hend : (Regex.empty.run
      ⟨suffix.reverse ++ (ds'.reverse ++ (d :: '0' :: before)), tail, []⟩).head? =
        some ⟨suffix.reverse ++ (ds'.reverse ++ (d :: '0' :: before)), tail, []⟩ := rfl
  have hseq := run_seq_head (congrArg List.head? hedge)
    (run_seq_head hzero (run_seq_head hplus (run_seq_head hstar hend)))
  have hshape : '0' :: (d :: ds' ++ suffix) ++ tail =
      '0' :: (d :: (ds' ++ (suffix ++ tail))) := by simp
  have hdrop : ('0' :: (d :: (ds' ++ (suffix ++ tail)))).drop ('0' :: (d :: ds' ++ suffix)).length =
      tail := by
    rw [← hshape, List.drop_left]
  rw [hshape, hdrop, octal, run, List.head?_map]
  have htake (l : Text) : (l ++ tail).take ((l ++ tail).length - tail.length) = l := by
    rw [List.length_append, Nat.add_sub_cancel, List.take_left]
  have hlit := htake ('0' :: (d :: ds' ++ suffix))
  rw [hshape] at hlit
  refine (congrArg (Option.map _) hseq).trans ?_
  rw [Option.map_some, close, hlit]
  simp

/-- The text with what the expression finds in the mask replaced, from left to right; so many
characters of a literal are still to be dropped. -/
def rewrite : ℕ → Option Char → Text → Text → Text
  | _, _, [], _ => []
  | _, _, _ :: _, [] => []
  | skip + 1, _, _ :: text, m :: masked => rewrite skip (some m) text masked
  | 0, prev, o :: text, m :: masked =>
      match literalAt prev (m :: masked) with
      | some lit => Nat.toDigits 10 (octalValue (digitsOf lit)) ++
          rewrite (lit.length - 1) (some m) text masked
      | none => o :: rewrite 0 (some m) text masked

/-- The matches in what `scan` returns. -/
def found (k : ℕ) (before rest : Text) : List (Place Char) :=
  (octal.scan k before rest).filterMap Sum.getRight?

theorem length_literalAt (h : literalAt prev rest = some lit) :
    2 ≤ lit.length ∧ lit.length ≤ rest.length := by
  obtain ⟨ds, suffix, tail, rfl, rfl, -, hne, -, -⟩ := literalAt_eq_some h
  have hpos := List.length_pos_iff.mpr hne
  simp only [List.length_cons, List.length_append]
  omega

theorem found_none {c : Char} (before t : Text) (h : literalAt before.head? (c :: t) = none) :
    found 0 before (c :: t) = found 0 (c :: before) t := by
  rw [found, scan, octal_run_none before h]
  rfl

theorem found_some {c : Char} (before t : Text)
    (h : literalAt before.head? (c :: t) = some lit) :
    found 0 before (c :: t) = ⟨lit.reverse ++ before, (c :: t).drop lit.length, [(0, lit)]⟩ ::
      found (lit.length - 1) (c :: before) t := by
  obtain ⟨htwo, hle⟩ := length_literalAt h
  have hrest : ((c :: t).drop lit.length).length = t.length - (lit.length - 1) := by
    rw [List.length_drop, List.length_cons]
    omega
  have hless : ((c :: t).drop lit.length).length ≤ t.length := by
    omega
  have hcount : t.length - ((c :: t).drop lit.length).length = lit.length - 1 := by
    rw [List.length_cons] at hle
    omega
  rw [found, scan, octal_run_some before h]
  simp only [if_pos hless, hcount]
  rfl

theorem apply_ofMatch {before pre text : Text} (hpre : pre.length = before.length)
    (hle : lit.length ≤ text.length) (out : Text) :
    (Edit.ofMatch ⟨lit.reverse ++ before, t, [(0, lit)]⟩).apply
        (pre ++ text.take lit.length ++ out) =
      pre ++ (Nat.toDigits 10 (octalValue (digitsOf lit)) ++ out) := by
  have hgroup : (⟨lit.reverse ++ before, t, [(0, lit)]⟩ : Place Char).group 0 = lit := rfl
  have hstop : (lit.reverse ++ before).length = (pre ++ text.take lit.length).length := by
    rw [List.length_append, List.length_append, List.length_reverse, List.length_take,
      Nat.min_eq_left hle, hpre]
    omega
  have hstart : (lit.reverse ++ before).length - lit.length = pre.length := by
    rw [List.length_append, List.length_reverse, hpre]
    omega
  simp only [Edit.apply, Edit.ofMatch, hgroup, hstart]
  rw [hstop, List.drop_left, List.append_assoc pre (text.take lit.length) out, List.take_left,
    List.append_assoc]

/-- The edits, made from the last to the first, are that pass. -/
theorem foldr_edits {k : ℕ} {before rest pre text : Text} (hpre : pre.length = before.length)
    (hlen : text.length = rest.length) (hk : k ≤ rest.length) :
    ((found k before rest).map Edit.ofMatch).foldr Edit.apply (pre ++ text) =
      pre ++ text.take k ++ rewrite k before.head? text rest := by
  induction rest generalizing k before pre text with
  | nil =>
      obtain rfl := List.length_eq_zero_iff.mp hlen
      simp [found, scan, rewrite]
  | cons c rest ih =>
      obtain ⟨o, text, rfl⟩ := List.exists_cons_of_length_eq_add_one hlen
      have hnext : (pre ++ [o]).length = (c :: before).length := by
        rw [List.length_append, List.length_singleton, List.length_cons, hpre]
      have hlen' : text.length = rest.length := Nat.succ.inj hlen
      have hshift : pre ++ o :: text = pre ++ [o] ++ text := by simp
      cases k with
      | succ k =>
          have hrest := ih hnext hlen' (Nat.le_of_succ_le_succ hk)
          rw [hshift, rewrite, List.take_succ_cons]
          simpa [found, scan] using hrest
      | zero =>
          cases hlit : literalAt before.head? (c :: rest) with
          | none =>
              have hrest := ih hnext hlen' (Nat.zero_le _)
              rw [found_none before rest hlit, hshift, hrest, rewrite, hlit]
              simp
          | some lit =>
              obtain ⟨htwo, hle⟩ := length_literalAt hlit
              have hk' : lit.length - 1 ≤ rest.length := by
                rw [List.length_cons] at hle
                omega
              have hrest := ih hnext hlen' hk'
              have htake : pre ++ [o] ++ text.take (lit.length - 1) =
                  pre ++ (o :: text).take lit.length := by
                obtain ⟨n, hn⟩ : ∃ n, lit.length = n + 1 := ⟨lit.length - 1, by omega⟩
                rw [hn, List.take_succ_cons, Nat.add_sub_cancel]
                simp
              rw [found_some before rest hlit, List.map_cons, List.foldr_cons, hshift, hrest, htake,
                apply_ofMatch hpre (by rw [hlen]; exact hle), rewrite, hlit, List.take_zero,
                List.append_nil]
              rfl

/-- What the expression takes stands in the text. -/
theorem mem_found {k : ℕ} {before rest : Text} {m : Place Char} (h : m ∈ found k before rest) :
    ∃ a b lit, rest = a ++ b ∧ literalAt (a.reverse ++ before).head? b = some lit ∧
      m.group 0 = lit := by
  induction rest generalizing k before with
  | nil => cases k <;> cases h
  | cons c rest ih =>
      have hback : ∀ {k}, m ∈ found k (c :: before) rest → ∃ a b lit, c :: rest = a ++ b ∧
          literalAt (a.reverse ++ before).head? b = some lit ∧ m.group 0 = lit := by
        intro k hm
        obtain ⟨a, b, lit, hsplit, hlit, hgroup⟩ := ih hm
        refine ⟨c :: a, b, lit, by rw [hsplit, List.cons_append], ?_, hgroup⟩
        simpa using hlit
      cases k with
      | succ k => exact hback (k := k) (by simpa [found, scan] using h)
      | zero =>
          cases hlit : literalAt before.head? (c :: rest) with
          | none =>
              rw [found_none before rest hlit] at h
              exact hback h
          | some lit =>
              rw [found_some before rest hlit] at h
              rcases List.mem_cons.mp h with rfl | h
              · exact ⟨[], c :: rest, lit, rfl, hlit, rfl⟩
              · exact hback h

theorem inToken_of_isDigit {c : Char} (h : isDigit c = true) : inToken c = true := by
  simp [inToken, h]

theorem inToken_of_isSuffix {c : Char} (h : isSuffix c = true) : inToken c = true := by
  have hcases : c = 'u' ∨ c = 'U' ∨ c = 'l' ∨ c = 'L' := by
    simpa [isSuffix, or_assoc] using h
  rcases hcases with rfl | rfl | rfl | rfl <;> decide

theorem inToken_of_literalAt (h : literalAt prev rest = some lit) {c : Char} (hc : c ∈ lit) :
    inToken c = true := by
  obtain ⟨ds, suffix, tail, -, rfl, -, -, hds, hsuffix⟩ := literalAt_eq_some h
  rcases List.mem_cons.mp hc with rfl | hc
  · decide
  · rcases List.mem_append.mp hc with hc | hc
    · rw [hds] at hc
      exact inToken_of_isDigit (List.mem_takeWhile_imp hc)
    · rw [hsuffix] at hc
      exact inToken_of_isSuffix (List.mem_takeWhile_imp hc)

/-- Whatever the expression could take, it does: nothing it takes hides another literal. -/
theorem found_of_literalAt {k : ℕ} {before a b : Text}
    (hskip : k ≠ 0 → before.head?.any inToken = true ∧
      ∀ c ∈ (a ++ b).take (k - 1), inToken c = true)
    (h : literalAt (a.reverse ++ before).head? b = some lit) :
    ∃ m ∈ found k before (a ++ b), m.group 0 = lit := by
  induction a generalizing k before with
  | nil =>
      have hprev : before.head?.any inToken = false := by
        obtain ⟨_, _, _, -, -, hprev, -⟩ := literalAt_eq_some h
        exact hprev
      have hk : k = 0 := by
        by_contra hk
        rw [(hskip hk).1] at hprev
        cases hprev
      subst hk
      cases b with
      | nil => cases h
      | cons c t =>
          rw [List.nil_append, found_some before t h]
          exact ⟨_, List.mem_cons_self, rfl⟩
  | cons c a ih =>
      have hlast : literalAt (a.reverse ++ (c :: before)).head? b = some lit := by
        simpa using h
      cases k with
      | succ k =>
          have hnext : k ≠ 0 → (c :: before).head?.any inToken = true ∧
              ∀ d ∈ (a ++ b).take (k - 1), inToken d = true := by
            intro hk
            obtain ⟨n, rfl⟩ := Nat.exists_eq_succ_of_ne_zero hk
            have hall := (hskip (Nat.succ_ne_zero _)).2
            rw [List.cons_append, Nat.add_sub_cancel, List.take_succ_cons] at hall
            exact ⟨hall c List.mem_cons_self, fun d hd => hall d (List.mem_cons_of_mem c hd)⟩
          obtain ⟨m, hm, hgroup⟩ := ih hnext hlast
          exact ⟨m, by simpa [found, scan] using hm, hgroup⟩
      | zero =>
          cases hlit : literalAt before.head? (c :: (a ++ b)) with
          | none =>
              obtain ⟨m, hm, hgroup⟩ := ih (k := 0) (fun hk => absurd rfl hk) hlast
              exact ⟨m, by rwa [List.cons_append, found_none before _ hlit], hgroup⟩
          | some lit' =>
              have hin := fun d => inToken_of_literalAt hlit (c := d)
              obtain ⟨ds, suffix, tail, hsplit, hshape, -⟩ := literalAt_eq_some hlit
              rw [hshape, List.cons_append] at hsplit
              obtain ⟨rfl, htail⟩ := List.cons.inj hsplit
              have hnext : lit'.length - 1 ≠ 0 → ('0' :: before).head?.any inToken = true ∧
                  ∀ d ∈ (a ++ b).take (lit'.length - 1 - 1), inToken d = true := by
                refine fun _ => ⟨rfl, fun d hd => ?_⟩
                have hlen : lit'.length - 1 - 1 ≤ (ds ++ suffix).length := by
                  rw [hshape, List.length_cons]
                  omega
                rw [htail, List.take_append_of_le_length hlen] at hd
                exact hin d (by rw [hshape]; exact List.mem_cons_of_mem _ (List.mem_of_mem_take hd))
              obtain ⟨m, hm, hgroup⟩ := ih hnext hlast
              refine ⟨m, ?_, hgroup⟩
              rw [List.cons_append, found_some before _ hlit]
              exact List.mem_cons_of_mem _ hm

/-- What may lengthen a literal. -/
def inLiteral (c : Char) : Bool := isDigit c || isSuffix c

/-- No literal goes across the border of two texts. -/
def Cut (a b : Text) : Prop :=
  (∀ c ∈ b.head?, inLiteral c = false) ∨ ∀ c ∈ a.getLast?, inLiteral c = false

theorem takeWhile_append_stop {p : Char → Bool} {a b : Text}
    (h : (∀ c ∈ b.head?, p c = false) ∨ ∃ c ∈ a, p c = false) :
    (a ++ b).takeWhile p = a.takeWhile p ∧ (a ++ b).dropWhile p = a.dropWhile p ++ b := by
  by_cases ha : ∀ c ∈ a, p c = true
  · have hb : ∀ c ∈ b.head?, p c = false := by
      rcases h with h | ⟨c, hc, hfalse⟩
      · exact h
      · rw [ha c hc] at hfalse
        cases hfalse
    have htake : b.takeWhile p = [] ∧ b.dropWhile p = b := by
      cases b with
      | nil => exact ⟨rfl, rfl⟩
      | cons c b =>
          have hc := hb c rfl
          exact ⟨List.takeWhile_cons_of_neg (by simp [hc]),
            List.dropWhile_cons_of_neg (by simp [hc])⟩
    have hself : a.takeWhile p = a ∧ a.dropWhile p = [] :=
      ⟨List.takeWhile_eq_self_iff.mpr ha, List.dropWhile_eq_nil_iff.mpr ha⟩
    rw [List.takeWhile_append_of_pos ha, List.dropWhile_append_of_pos ha, htake.1, htake.2, hself.1,
      hself.2]
    simp
  · have hlt : (a.takeWhile p).length ≠ a.length := by
      intro hlen
      have hself := List.takeWhile_prefix p |>.eq_of_length hlen
      exact ha (List.takeWhile_eq_self_iff.mp hself)
    have hdrop : a.dropWhile p ≠ [] := fun hnil => ha (List.dropWhile_eq_nil_iff.mp hnil)
    rw [List.takeWhile_append, if_neg hlt, List.dropWhile_append, if_neg (by simpa using hdrop)]
    exact ⟨rfl, rfl⟩

/-- At the border the expression takes what it would at the end. -/
theorem literalAt_append {c : Char} {a b : Text} (h : Cut (c :: a) b) :
    literalAt prev (c :: a ++ b) = literalAt prev (c :: a) := by
  by_cases hzero : c = '0'
  · subst hzero
    have hborder : (∀ c ∈ b.head?, inLiteral c = false) ∨ ∃ c ∈ a, inLiteral c = false := by
      rcases h with h | h
      · exact .inl h
      · cases hlast : a.getLast? with
        | none =>
            rw [List.getLast?_eq_none_iff.mp hlast] at h
            cases h '0' rfl
        | some d =>
            refine .inr ⟨d, List.mem_of_getLast? hlast, h d ?_⟩
            rw [List.getLast?_cons, hlast]
            rfl
    have hdigits : (∀ c ∈ b.head?, isDigit c = false) ∨ ∃ c ∈ a, isDigit c = false := by
      simp only [inLiteral, Bool.or_eq_false_iff] at hborder
      exact hborder.imp (fun h c hc => (h c hc).1) fun ⟨c, hc, h⟩ => ⟨c, hc, h.1⟩
    obtain ⟨htake, hdrop⟩ := takeWhile_append_stop hdigits
    have hsuffixes : (∀ c ∈ b.head?, isSuffix c = false) ∨
        ∃ c ∈ a.dropWhile isDigit, isSuffix c = false := by
      simp only [inLiteral, Bool.or_eq_false_iff] at hborder
      refine hborder.imp (fun h c hc => (h c hc).2) fun ⟨c, hc, hdigit, hsuffix⟩ => ⟨c, ?_, hsuffix⟩
      rw [← List.takeWhile_append_dropWhile (p := isDigit) (l := a)] at hc
      rcases List.mem_append.mp hc with hc | hc
      · rw [List.mem_takeWhile_imp hc] at hdigit
        cases hdigit
      · exact hc
    rw [List.cons_append, literalAt, literalAt, htake, hdrop,
      (takeWhile_append_stop hsuffixes).1]
  · rw [List.cons_append, literalAt, literalAt]
    simp [hzero]

/-- The character in front of what follows a text. -/
def lastOr (prev : Option Char) (a : Text) : Option Char := a.getLast?.or prev

theorem lastOr_cons (prev : Option Char) (c : Char) (a : Text) :
    lastOr prev (c :: a) = lastOr (some c) a := by
  rw [lastOr, lastOr, List.getLast?_cons]
  cases a.getLast? <;> rfl

theorem cut_tail {c : Char} {a b : Text} (h : Cut (c :: a) b) : Cut a b := by
  refine h.imp id fun h d hd => h d ?_
  have hlast : a.getLast? = some d := hd
  rw [List.getLast?_cons, hlast]
  rfl

/-- Across such a border the pass goes piece by piece. -/
theorem rewrite_append {k : ℕ} {a b text masked : Text} (hlen : a.length = b.length)
    (hk : k ≤ a.length) (hcut : Cut b masked) :
    rewrite k prev (a ++ text) (b ++ masked) =
      rewrite k prev a b ++ rewrite 0 (lastOr prev b) text masked := by
  induction b generalizing k prev a with
  | nil =>
      obtain rfl := List.length_eq_zero_iff.mp hlen
      obtain rfl := Nat.le_zero.mp hk
      rfl
  | cons m b ih =>
      obtain ⟨o, a, rfl⟩ := List.exists_cons_of_length_eq_add_one hlen
      have hlen' : a.length = b.length := Nat.succ.inj hlen
      rw [lastOr_cons]
      cases k with
      | succ k => exact ih hlen' (Nat.le_of_succ_le_succ hk) (cut_tail hcut)
      | zero =>
          have hsame := @literalAt_append prev _ _ _ hcut
          rw [List.cons_append] at hsame
          rw [List.cons_append, List.cons_append, rewrite, rewrite, hsame]
          cases hlit : literalAt prev (m :: b) with
          | none =>
              dsimp only
              rw [ih hlen' (Nat.zero_le _) (cut_tail hcut), List.cons_append]
          | some lit =>
              obtain ⟨-, hle⟩ := length_literalAt hlit
              have hk' : lit.length - 1 ≤ a.length := by
                rw [List.length_cons] at hle
                omega
              dsimp only
              rw [ih hlen' hk' (cut_tail hcut), List.append_assoc]

end Veron.OctalToDecimal
