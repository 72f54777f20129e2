/-
When the tool rewrites the octal literals of C texts and nothing else.
-/
import Veron.OctalToDecimalTokens

namespace Veron.OctalToDecimal

open TextMode

variable {prev : Option Char} {cs t lit : Text} {v : ℕ}

def isOctalDigit (c : Char) : Bool := '0' ≤ c && c ≤ '7'

/-- The suffixes of an integer constant. -/
def suffixes : List Text :=
  [[], ['u'], ['U'], ['l'], ['L'], ['l', 'l'], ['L', 'L'], ['u', 'l'], ['u', 'L'], ['U', 'l'],
    ['U', 'L'], ['u', 'l', 'l'], ['u', 'L', 'L'], ['U', 'l', 'l'], ['U', 'L', 'L'], ['l', 'u'],
    ['l', 'U'], ['L', 'u'], ['L', 'U'], ['l', 'l', 'u'], ['l', 'l', 'U'], ['L', 'L', 'u'],
    ['L', 'L', 'U']]

/-- The value of a zero, octal digits and a suffix. -/
def octalLiteral? : Text → Option ℕ
  | [] => none
  | c :: t =>
      if c = '0' ∧ t.takeWhile isOctalDigit ≠ [] ∧ suffixes.contains (t.dropWhile isOctalDigit) then
        some (octalValue (t.takeWhile isOctalDigit))
      else none

def Element.octal? : Element → Option ℕ
  | .number cs => octalLiteral? cs
  | _ => none

/-- What may become of an element: an octal literal becomes a decimal one of its value. -/
def Rewrites (e : Element) (w : Text) : Prop :=
  match e.octal? with
  | some v => ∃ suffix ∈ suffixes, w = Nat.toDigits 10 v ++ suffix
  | none => w = e.text

/-- What may become of a text. -/
def Rewritten (es : List Element) (out : Text) : Prop :=
  ∃ ws, List.Forall₂ Rewrites es ws ∧ ws.flatten = out

/-- No zero in front of a digit begins anything: a letter, a digit, `_` or `.` stands before it. -/
def Quiet (prev : Option Char) (cs : Text) : Prop :=
  ∀ a d b, cs = a ++ '0' :: d :: b → isDigit d = true → (lastOr prev a).any inToken = true

/-- An octal literal behind no such character, or an element that is quiet. -/
def Element.Clear (prev : Option Char) (e : Element) : Prop :=
  match e.octal? with
  | some _ => prev.any inToken = false
  | none => Quiet prev e.masked

def Plain : Option Char → List Element → Prop
  | _, [] => True
  | prev, e :: es => e.Clear prev ∧ Plain (lastOr prev e.masked) es

/-- Outside comments, strings and characters, a zero begins digits with an eight or a nine. -/
def Refused (es : List Element) : Prop :=
  ∃ a ds d b, visible es = a ++ '0' :: (ds ++ d :: b) ∧ (∀ c ∈ ds, isDigit c = true) ∧
    (d = '8' ∨ d = '9') ∧ a.getLast?.any inToken = false

/-- Outside comments, strings and characters, a zero begins digits whose value has too many
decimal ones. -/
def TooLong (limit : Option ℕ) (es : List Element) : Prop :=
  ∃ a ds b, visible es = a ++ '0' :: (ds ++ b) ∧ ds ≠ [] ∧ (∀ c ∈ ds, isDigit c = true) ∧
    b.head?.any isDigit = false ∧ a.getLast?.any inToken = false ∧
    ∃ n ∈ limit, n < (Nat.toDigits 10 (octalValue ds)).length

/-- What may become of the bytes of an element. -/
def Element.Becomes (e : Element) (raw w : List Coded) : Prop :=
  match e.octal? with
  | some v => ∃ suffix ∈ suffixes, w = write (Nat.toDigits 10 v ++ suffix)
  | none => w = raw

/-- The bytes of an element and what becomes of them. -/
def Element.Row (e : Element) (row : List Coded × List Coded) : Prop :=
  readReplacing row.1 = e.text ∧ e.Becomes row.1 row.2

/-- What may become of a file: in place of the bytes of each octal literal stand those of a decimal
one of its value, and all others are kept. -/
def Source.Becomes (s : Source) (out : List Coded) : Prop :=
  ∃ rows : List (List Coded × List Coded),
    rows.flatMap Prod.fst = s.file ∧ rows.flatMap Prod.snd = out ∧
      List.Forall₂ Element.Row s.elements rows

theorem quiet_of_append {a b : Text} (h : Quiet prev (a ++ b)) : Quiet (lastOr prev a) b := by
  rintro x d y rfl hd
  have hplace := h (a ++ x) d y (by simp) hd
  rwa [lastOr, List.getLast?_append, Option.or_assoc] at hplace

theorem literalAt_quiet (h : Quiet prev cs) : literalAt prev cs = none := by
  cases hlit : literalAt prev cs with
  | none => rfl
  | some lit =>
      obtain ⟨ds, suffix, tail, rfl, rfl, hprev, hne, hds, -⟩ := literalAt_eq_some hlit
      obtain ⟨d, ds', rfl⟩ := List.exists_cons_of_ne_nil hne
      have hd : isDigit d = true := List.mem_takeWhile_imp (hds ▸ List.mem_cons_self)
      have hplace := h [] d (ds' ++ suffix ++ tail) (by simp) hd
      rw [lastOr, List.getLast?_nil, Option.none_or, hprev] at hplace
      cases hplace

theorem rewrite_quiet {text masked : Text} (hlen : text.length = masked.length)
    (h : Quiet prev masked) : rewrite 0 prev text masked = text := by
  induction masked generalizing prev text with
  | nil =>
      obtain rfl := List.length_eq_zero_iff.mp hlen
      rfl
  | cons m masked ih =>
      obtain ⟨o, text, rfl⟩ := List.exists_cons_of_length_eq_add_one hlen
      have hrest : Quiet (some m) masked := quiet_of_append (a := [m]) h
      rw [rewrite, literalAt_quiet h]
      dsimp only
      rw [ih (Nat.succ.inj hlen) hrest]

/-- What is left of a literal is dropped. -/
theorem rewrite_skip (a b : Text) :
    rewrite a.length prev (a ++ b) (a ++ b) = rewrite 0 (lastOr prev a) b b := by
  induction a generalizing prev with
  | nil => rfl
  | cons c a ih =>
      rw [List.cons_append, List.length_cons, rewrite, ih, lastOr_cons]

/-- Where it is not quiet, a first literal is found and replaced. -/
theorem rewrite_first (h : ¬ Quiet prev cs) :
    ∃ a lit b, cs = a ++ (lit ++ b) ∧ literalAt (lastOr prev a) (lit ++ b) = some lit ∧
      rewrite 0 prev cs cs = a ++ (Nat.toDigits 10 (octalValue (digitsOf lit)) ++
        rewrite 0 (lastOr (lastOr prev a) lit) b b) := by
  induction cs generalizing prev with
  | nil =>
      refine absurd ?_ h
      intro a d b hsplit
      cases a <;> cases hsplit
  | cons c cs ih =>
      cases hlit : literalAt prev (c :: cs) with
      | some lit =>
          obtain ⟨ds, suffix, tail, hsplit, hshape, -⟩ := literalAt_eq_some hlit
          refine ⟨[], lit, tail, hsplit, by rw [← hsplit]; exact hlit, ?_⟩
          have hskip := @rewrite_skip (some c) (ds ++ suffix) tail
          have hlen : lit.length - 1 = (ds ++ suffix).length := by
            rw [hshape, List.length_cons, Nat.add_sub_cancel]
          rw [hshape, List.cons_append] at hsplit
          obtain ⟨rfl, rfl⟩ := List.cons.inj hsplit
          rw [rewrite, hlit]
          dsimp only
          rw [hlen, hskip, hshape, lastOr_cons, List.nil_append]
      | none =>
          have hrest : ¬ Quiet (some c) cs := by
            intro hquiet
            apply h
            intro a d b hsplit hd
            cases a with
            | nil =>
                obtain ⟨rfl, rfl⟩ := List.cons.inj hsplit
                simpa [literalAt, lastOr, hd] using hlit
            | cons c' a =>
                obtain ⟨rfl, rfl⟩ := List.cons.inj hsplit
                have hplace := hquiet a d b rfl hd
                rwa [lastOr_cons]
          obtain ⟨a, lit, b, hsplit, hplace, hrun⟩ := ih hrest
          refine ⟨c :: a, lit, b, by rw [hsplit, List.cons_append], ?_, ?_⟩
          · rwa [lastOr_cons]
          · rw [rewrite, hlit]
            dsimp only
            rw [hrun, lastOr_cons, List.cons_append]

/-- A text that begins with no zero is not replaced at its beginning. -/
theorem head?_rewrite {o m : Char} {text masked : Text} (hm : m ≠ '0') :
    (rewrite 0 prev (o :: text) (m :: masked)).head? = some o := by
  have hnone : literalAt prev (m :: masked) = none := by simp [literalAt, hm]
  rw [rewrite, hnone]
  rfl

theorem isDigit_of_isOctalDigit {c : Char} (h : isOctalDigit c = true) : isDigit c = true := by
  simp only [isOctalDigit, isDigit, Bool.and_eq_true, decide_eq_true_eq] at h ⊢
  exact ⟨h.1, Char.le_trans h.2 (by decide)⟩

theorem mem_suffix {suffix : Text} (h : suffix ∈ suffixes) :
    ∀ c ∈ suffix, isSuffix c = true ∧ isDigit c = false := by
  have hall : ∀ suffix ∈ suffixes, ∀ c ∈ suffix, isSuffix c = true ∧ isDigit c = false := by
    simp [suffixes, isSuffix, isDigit]
  exact hall suffix h

/-- An octal literal by its parts. -/
theorem octalLiteral_eq_some (h : octalLiteral? cs = some v) :
    ∃ ds suffix, cs = '0' :: (ds ++ suffix) ∧ ds ≠ [] ∧ (∀ c ∈ ds, isDigit c = true) ∧
      suffix ∈ suffixes ∧ v = octalValue ds := by
  cases cs with
  | nil => cases h
  | cons c t =>
      rw [octalLiteral?] at h
      split at h
      · rename_i hcond
        obtain ⟨rfl, hne, hcontains⟩ := hcond
        have hsuffix : t.dropWhile isOctalDigit ∈ suffixes := List.contains_iff_mem.mp hcontains
        refine ⟨t.takeWhile isOctalDigit, t.dropWhile isOctalDigit, ?_, hne, fun d hd => ?_,
          hsuffix, (Option.some.inj h).symm⟩
        · rw [List.takeWhile_append_dropWhile]
        · exact isDigit_of_isOctalDigit (List.mem_takeWhile_imp hd)
      · cases h

theorem digitsOf_literal {ds suffix : Text} (hds : ∀ c ∈ ds, isDigit c = true)
    (hsuffix : ∀ c ∈ suffix, isSuffix c = true) :
    digitsOf ('0' :: (ds ++ suffix)) = '0' :: ds := by
  have hstop : ∀ c ∈ ds.reverse ++ ['0'], isSuffix c = false := by
    intro c hc
    have hdigit : isDigit c = true := by
      rcases List.mem_append.mp hc with hc | hc
      · exact hds c (List.mem_reverse.mp hc)
      · rw [List.mem_singleton.mp hc]
        rfl
    have hletters : ∀ d ∈ ['u', 'U', 'l', 'L'], isDigit d = false := by simp [isDigit]
    rw [← Bool.not_eq_true]
    intro hin
    have hcases : c = 'u' ∨ c = 'U' ∨ c = 'l' ∨ c = 'L' := by
      simpa [isSuffix, or_assoc] using hin
    rw [hletters c (by simpa using hcases)] at hdigit
    cases hdigit
  have hdrop : (ds.reverse ++ ['0']).dropWhile isSuffix = ds.reverse ++ ['0'] := by
    cases hshape : ds.reverse ++ ['0'] with
    | nil => rfl
    | cons c t =>
        rw [List.dropWhile_cons_of_neg]
        rw [hstop c (by rw [hshape]; exact List.mem_cons_self)]
        exact Bool.false_ne_true
  have hrev : ('0' :: (ds ++ suffix)).reverse = suffix.reverse ++ (ds.reverse ++ ['0']) := by simp
  rw [digitsOf, hrev, List.dropWhile_append_of_pos fun c hc => hsuffix c (List.mem_reverse.mp hc),
    hdrop]
  simp

/-- Behind no character of a token, an octal literal becomes its decimal. -/
theorem rewrite_octal (h : octalLiteral? cs = some v) (hprev : prev.any inToken = false) :
    rewrite 0 prev cs cs = Nat.toDigits 10 v := by
  obtain ⟨ds, suffix, rfl, hne, hds, hsuffix, rfl⟩ := octalLiteral_eq_some h
  have hletters := mem_suffix hsuffix
  have htake : (ds ++ suffix).takeWhile isDigit = ds ∧
      (ds ++ suffix).dropWhile isDigit = suffix := by
    rw [List.takeWhile_append_of_pos hds, List.dropWhile_append_of_pos hds]
    cases suffix with
    | nil => simp
    | cons c t =>
        have hc := (hletters c List.mem_cons_self).2
        rw [List.takeWhile_cons_of_neg (by simp [hc]), List.dropWhile_cons_of_neg (by simp [hc])]
        simp
  have hself : suffix.takeWhile isSuffix = suffix :=
    List.takeWhile_eq_self_iff.mpr fun c hc => (hletters c hc).1
  have hlit : literalAt prev ('0' :: (ds ++ suffix)) = some ('0' :: (ds ++ suffix)) := by
    rw [literalAt, htake.1, htake.2, hself, if_neg (by simp [hprev, hne])]
  have hskip := @rewrite_skip (some '0') (ds ++ suffix) []
  rw [List.append_nil] at hskip
  rw [rewrite, hlit]
  dsimp only
  rw [List.length_cons, Nat.add_sub_cancel, hskip,
    digitsOf_literal hds fun c hc => (hletters c hc).1]
  simp [rewrite, octalValue]

/-- Behind a character of a token it stays. -/
theorem quiet_octal (h : octalLiteral? cs = some v) (hprev : prev.any inToken = true) :
    Quiet prev cs := by
  obtain ⟨ds, suffix, rfl, -, hds, hsuffix, -⟩ := octalLiteral_eq_some h
  have hall : ∀ c ∈ '0' :: (ds ++ suffix), inToken c = true := by
    intro c hc
    rcases List.mem_cons.mp hc with rfl | hc
    · rfl
    · rcases List.mem_append.mp hc with hc | hc
      · exact inToken_of_isDigit (hds c hc)
      · exact inToken_of_isSuffix (mem_suffix hsuffix c hc).1
  intro a d b hsplit _
  cases hlast : a.getLast? with
  | none =>
      rw [lastOr, hlast, Option.none_or]
      exact hprev
  | some c =>
      rw [lastOr, hlast, Option.some_or]
      exact hall c (by rw [hsplit]; exact List.mem_append_left _ (List.mem_of_getLast? hlast))

/-- The decimal of a number that is not zero begins with no zero. -/
theorem head?_toDigits (hv : v ≠ 0) : (Nat.toDigits 10 v).head? ≠ some '0' := by
  induction v using Nat.strongRecOn with
  | ind v ih =>
      rw [Nat.toDigits_eq_if (by decide)]
      split
      · rename_i hlt
        have hall : ∀ v < 10, v ≠ 0 → [v.digitChar].head? ≠ some '0' := by decide
        exact hall v hlt hv
      · rename_i hge
        rw [List.head?_append_of_ne_nil _ Nat.toDigits_ne_nil]
        exact ih (v / 10) (by omega) (by omega)

/-- A decimal in front of no digit is no octal literal. -/
theorem toDigits_ne_literal {d : Char} {x y : Text} (hd : isDigit d = true)
    (hx : ∀ c ∈ x.head?, isDigit c = false) : Nat.toDigits 10 v ++ x ≠ '0' :: d :: y := by
  intro heq
  by_cases hv : v = 0
  · subst hv
    rw [Nat.toDigits_zero, List.singleton_append] at heq
    have hfalse := hx d (by rw [(List.cons.inj heq).2]; rfl)
    rw [hd] at hfalse
    cases hfalse
  · apply head?_toDigits hv
    rw [← List.head?_append_of_ne_nil _ Nat.toDigits_ne_nil, heq]
    rfl

/-- What the pass makes of each element. -/
def outputs : Option Char → List Element → List Text
  | _, [] => []
  | prev, e :: es => rewrite 0 prev e.text e.masked :: outputs (lastOr prev e.masked) es

theorem rewrite_render {before es : List Element} (h : WellLexed before es) :
    rewrite 0 prev (render es) (visible es) = (outputs prev es).flatten := by
  induction es generalizing before prev with
  | nil => rfl
  | cons e es ih =>
      obtain ⟨-, -, -, hrest⟩ := id h
      have hsplit := @rewrite_append prev 0 _ _ (render es) _ (length_masked e).symm
        (Nat.zero_le _) (cut_masked h)
      rw [ih hrest] at hsplit
      exact hsplit

theorem text_ne_nil {e : Element} (h : e.Valid) : e.text ≠ [] := by
  cases e with
  | word cs => exact h.1
  | number cs => exact isNumber_ne_nil h
  | _ => exact List.cons_ne_nil _ _

theorem octal?_head {e : Element} (h : e.octal? = some v) : e.text.head? = some '0' := by
  cases e with
  | number cs =>
      obtain ⟨ds, suffix, rfl, -⟩ := octalLiteral_eq_some h
      rfl
  | _ => cases h

/-- An element that begins no identifier and no number begins as before. -/
theorem head?_kept {before es : List Element} {e : Element} {c : Char}
    (h : WellLexed before (e :: es)) (hc : c ∈ (render (e :: es)).head?)
    (hid : identChar c = false) :
    (∀ prev, c ∈ (rewrite 0 prev e.text e.masked).head?) ∧ ∀ w, Rewrites e w → c ∈ w.head? := by
  have hne := text_ne_nil h.1
  rw [render, List.flatMap_cons, List.head?_append_of_ne_nil _ hne] at hc
  constructor
  · intro prev
    obtain ⟨o, text, htext⟩ := List.exists_cons_of_ne_nil hne
    have hlen := length_masked e
    rw [htext] at hlen
    obtain ⟨m, masked, hmasked⟩ := List.exists_cons_of_length_eq_add_one hlen
    have hzero : m ≠ '0' := by
      rintro rfl
      have hhead : '0' ∈ (mask (render (e :: es))).head? := by
        rw [mask_render h, visible, List.flatMap_cons, hmasked]
        rfl
      rcases head?_mask hhead with heq | heq
      · cases heq
      · rw [render, List.flatMap_cons, List.head?_append_of_ne_nil _ hne] at heq
        obtain rfl := Option.some.inj (heq.symm.trans hc)
        cases hid
    rw [htext] at hc
    obtain rfl := Option.some.inj hc
    rw [htext, hmasked]
    exact head?_rewrite hzero
  · intro w hw
    rw [Rewrites] at hw
    cases hoctal : e.octal? with
    | none =>
        rw [hoctal] at hw
        rw [hw]
        exact hc
    | some v =>
        obtain rfl := Option.some.inj ((octal?_head hoctal).symm.trans hc)
        cases hid

/-- Behind a word or a number, whatever becomes of the rest does not lengthen it. -/
theorem head?_behind {before es : List Element} {e : Element} (h : WellLexed before (e :: es))
    (hname : e.IsName) :
    (∀ prev, ∀ c ∈ (outputs prev es).flatten.head?, identChar c = false) ∧
      ∀ ws, List.Forall₂ Rewrites es ws → ∀ c ∈ ws.flatten.head?, identChar c = false := by
  obtain ⟨hvalid, hends, -, hrest⟩ := h
  have hnext := next_of_isName hvalid hends hname
  cases es with
  | nil =>
      refine ⟨nofun, ?_⟩
      rintro ws ⟨⟩
      nofun
  | cons e' es =>
      obtain ⟨c, t, hshape⟩ := List.exists_cons_of_ne_nil (text_ne_nil hrest.1)
      have hc : c ∈ (render (e' :: es)).head? := by
        rw [render, List.flatMap_cons, hshape]
        rfl
      have hid := hnext c hc
      obtain ⟨hout, hw⟩ := head?_kept hrest hc hid
      constructor
      · intro prev d hd
        rw [outputs, List.flatten_cons, List.head?_append, hout prev] at hd
        exact Option.some.inj hd ▸ hid
      · rintro ws (_ | ⟨hfirst, _⟩) d hd
        rw [List.flatten_cons, List.head?_append, hw _ hfirst] at hd
        exact Option.some.inj hd ▸ hid

/-- Only names and header names are not quiet by themselves. -/
theorem masked_of_not_quiet {e : Element} (hvalid : e.Valid) (h : ¬ Quiet prev e.masked) :
    e.masked = e.text ∧ (e.IsName ∨ e.text.getLast? = some '>') := by
  have hdigits : ∀ cs : Text, (∀ c ∈ cs, c ≠ '0') → Quiet prev cs := by
    rintro cs hcs a d b rfl
    exact absurd rfl (hcs '0' (List.mem_append_right a List.mem_cons_self))
  have hblank (cs : Text) : ∀ c ∈ cs.map blank, c ≠ '0' := by
    rintro c hc rfl
    obtain ⟨d, -, hd⟩ := List.mem_map.mp hc
    revert hd
    rw [blank]
    split <;> decide
  cases e with
  | blank c =>
      refine absurd (hdigits [c] fun d hd => ?_) h
      rw [List.mem_singleton.mp hd]
      have hall : ∀ c ∈ blanks, c ≠ '0' := by simp [blanks]
      exact hall c hvalid
  | lineComment body => exact absurd (hdigits _ (hblank _)) h
  | blockComment body => exact absurd (hdigits _ (hblank _)) h
  | quoted q body =>
      have hq : q ≠ '0' := by
        rcases hvalid.1 with rfl | ⟨rfl, -⟩ <;> decide
      refine absurd (hdigits _ fun c hc => ?_) h
      rcases List.mem_cons.mp hc with rfl | hc
      · exact hq
      · rcases List.mem_append.mp hc with hc | hc
        · exact hblank _ c hc
        · rwa [List.mem_singleton.mp hc]
  | header body =>
      refine ⟨rfl, .inr ?_⟩
      rw [Element.text, ← List.cons_append, List.getLast?_concat]
  | ellipsis => exact absurd (hdigits ['.', '.', '.'] (by simp)) h
  | punctuator c =>
      refine absurd (hdigits [c] fun d hd => ?_) h
      rw [List.mem_singleton.mp hd]
      rintro rfl
      cases hvalid.1
  | word _ | number _ => exact ⟨rfl, .inl trivial⟩

/-- A word that a longer one begins with after a shift consists of what was put in front. -/
theorem mem_of_shift {u s w t : Text} (hw : w ≠ []) (h : u ++ s = w ++ (u ++ t)) :
    (∀ c ∈ u, c ∈ w) ∧ ∃ c ∈ w, s.head? = some c := by
  induction hn : u.length using Nat.strongRecOn generalizing u with
  | ind n ih =>
      rcases List.append_eq_append_iff.mp h with ⟨w', rfl, hs⟩ | ⟨u', rfl, hrest⟩
      · refine ⟨fun c hc => List.mem_append_left w' hc, ?_⟩
        cases w' with
        | nil =>
            rw [List.append_nil] at hw
            obtain ⟨c, u, rfl⟩ := List.exists_cons_of_ne_nil hw
            exact ⟨c, by simp, by rw [hs]; rfl⟩
        | cons c w' => exact ⟨c, by simp, by rw [hs]; rfl⟩
      · have hless : u'.length < n := by
          have hpos := List.length_pos_iff.mpr hw
          rw [← hn, List.length_append]
          omega
        rw [List.append_assoc] at hrest
        obtain ⟨hall, hhead⟩ := ih u'.length hless hrest.symm rfl
        refine ⟨fun c hc => ?_, hhead⟩
        rcases List.mem_append.mp hc with hc | hc
        · exact hc
        · exact hall c hc

/-- What is found in an element that is no octal literal is changed for good. -/
theorem output_ne {e : Element} {x y : Text} (hvalid : e.Valid) (h : ¬ Quiet prev e.masked)
    (hx : e.IsName → ∀ c ∈ x.head?, identChar c = false) :
    rewrite 0 prev e.text e.masked ++ x ≠ e.text ++ y := by
  obtain ⟨hmasked, hend⟩ := masked_of_not_quiet hvalid h
  rw [hmasked] at h ⊢
  obtain ⟨a, lit, b, hsplit, hplace, hrun⟩ := rewrite_first h
  have hin := fun c => inToken_of_literalAt hplace (c := c)
  obtain ⟨ds, suffix, tail, -, hlit, -, hne, hds, hsuffix⟩ := literalAt_eq_some hplace
  have hliteral : ∀ c ∈ ds ++ suffix, inLiteral c = true := by
    intro c hc
    rw [inLiteral, Bool.or_eq_true]
    rcases List.mem_append.mp hc with hc | hc
    · exact .inl (List.mem_takeWhile_imp (hds ▸ hc))
    · exact .inr (List.mem_takeWhile_imp (hsuffix ▸ hc))
  have hlitAll : ∀ c ∈ lit, inLiteral c = true := by
    intro c hc
    rw [hlit] at hc
    rcases List.mem_cons.mp hc with rfl | hc
    · rfl
    · exact hliteral c hc
  have mem_of_last : e.text.getLast? = some '>' → '>' ∈ lit ++ b := by
    intro hend
    have hne : lit ++ b ≠ [] := by rw [hlit]; exact List.cons_ne_nil _ _
    rw [hsplit, List.getLast?_append, List.getLast?_eq_some_getLast hne, Option.some_or] at hend
    rw [← Option.some.inj hend]
    exact List.getLast_mem hne
  have hw : ds ++ suffix ≠ [] := List.append_ne_nil_of_left_ne_nil hne _
  intro heq
  rw [hrun, hsplit, List.append_assoc, List.append_assoc, List.append_assoc] at heq
  have hrest := List.append_cancel_left heq
  by_cases hv : octalValue (digitsOf lit) = 0
  · -- The zero it becomes is followed by what followed the literal: the digits are missing.
    rw [hv, Nat.toDigits_zero, hlit, List.cons_append, List.cons_append, List.nil_append] at hrest
    have hshift := List.tail_eq_of_cons_eq hrest
    by_cases hquiet : Quiet (lastOr (lastOr prev a) lit) b
    · rw [← hlit, rewrite_quiet rfl hquiet] at hshift
      obtain ⟨hall, c, hc, hhead⟩ := mem_of_shift hw (by simpa using hshift)
      rcases hend with hname | hend
      · have hid := hx hname c hhead
        rw [identChar_of_inLiteral (hliteral c hc)] at hid
        cases hid
      · -- A header name ends with what ends no literal.
        have hclose : inLiteral '>' = true := by
          rcases List.mem_append.mp (mem_of_last hend) with hc | hc
          · exact hlitAll '>' hc
          · exact hliteral '>' (hall '>' hc)
        cases hclose
    · obtain ⟨a', lit', b', hsplit', hplace', hrun'⟩ := rewrite_first hquiet
      obtain ⟨_, _, _, -, -, hprev', -⟩ := literalAt_eq_some hplace'
      rw [← hlit, hrun', hsplit', List.append_assoc, List.append_assoc] at hshift
      obtain ⟨hall, -⟩ := mem_of_shift (u := a') hw (by simpa using hshift)
      have hinAll : ∀ c ∈ a', inToken c = true := by
        intro c hc
        refine hin c ?_
        rw [hlit]
        exact List.mem_cons_of_mem _ (hall c hc)
      cases ha : a'.getLast? with
      | some c =>
          rw [lastOr, ha, Option.some_or, Option.any_some,
            hinAll c (List.mem_of_getLast? ha)] at hprev'
          cases hprev'
      | none =>
          obtain ⟨c, hc⟩ : ∃ c, lit.getLast? = some c := by
            rw [hlit]
            exact ⟨_, List.getLast?_eq_some_getLast (List.cons_ne_nil _ _)⟩
          rw [lastOr, ha, Option.none_or, lastOr, hc, Option.some_or, Option.any_some,
            hin c (List.mem_of_getLast? hc)] at hprev'
          cases hprev'
  · apply head?_toDigits hv
    rw [← List.head?_append_of_ne_nil _ Nat.toDigits_ne_nil, hrest, hlit]
    rfl

/-- A clear element becomes what it may. -/
theorem rewrites_of_clear {e : Element} (h : e.Clear prev) :
    Rewrites e (rewrite 0 prev e.text e.masked) := by
  rw [Element.Clear] at h
  rw [Rewrites]
  cases hoctal : e.octal? with
  | none =>
      rw [hoctal] at h
      exact rewrite_quiet (length_masked e).symm h
  | some v =>
      rw [hoctal] at h
      cases e with
      | number cs =>
          refine ⟨[], List.mem_cons_self, ?_⟩
          rw [List.append_nil]
          exact rewrite_octal hoctal h
      | _ => cases hoctal

/-- An element that becomes what it may is clear, whatever stands behind it. -/
theorem clear_of_append {e : Element} {w x y : Text} (hvalid : e.Valid) (hw : Rewrites e w)
    (hx : e.IsName → ∀ c ∈ x.head?, identChar c = false)
    (hy : e.IsName → ∀ c ∈ y.head?, identChar c = false)
    (heq : w ++ y = rewrite 0 prev e.text e.masked ++ x) : e.Clear prev ∧ y = x := by
  rw [Rewrites] at hw
  rw [Element.Clear]
  cases hoctal : e.octal? with
  | none =>
      rw [hoctal] at hw
      obtain rfl : w = e.text := hw
      by_cases hquiet : Quiet prev e.masked
      · rw [rewrite_quiet (length_masked e).symm hquiet] at heq
        exact ⟨hquiet, List.append_cancel_left heq⟩
      · exact absurd heq.symm (output_ne hvalid hquiet hx)
  | some v =>
      cases e with
      | number cs =>
          rw [hoctal] at hw
          obtain ⟨suffix, hsuffix, rfl⟩ := hw
          change Nat.toDigits 10 v ++ suffix ++ y = rewrite 0 prev cs cs ++ x at heq
          by_cases hprev : prev.any inToken = true
          · -- The literal is left as it is: no decimal begins as it does.
            rw [rewrite_quiet rfl (quiet_octal hoctal hprev), List.append_assoc] at heq
            obtain ⟨ds, suffix', rfl, hne, hds, -⟩ := octalLiteral_eq_some hoctal
            obtain ⟨d, ds', rfl⟩ := List.exists_cons_of_ne_nil hne
            refine absurd heq (toDigits_ne_literal (hds d List.mem_cons_self) fun c hc => ?_)
            cases suffix with
            | nil =>
                have hid := hy trivial c hc
                simp only [identChar, Bool.or_eq_false_iff] at hid
                exact hid.1.2
            | cons s suffix =>
                obtain rfl : s = c := Option.some.inj hc
                exact (mem_suffix hsuffix s List.mem_cons_self).2
          · rw [Bool.not_eq_true] at hprev
            rw [rewrite_octal hoctal hprev, List.append_assoc] at heq
            have hrest := List.append_cancel_left heq
            cases suffix with
            | nil => exact ⟨hprev, hrest⟩
            | cons s suffix =>
                have hid := hx trivial s (by rw [← hrest]; rfl)
                have hletter := (mem_suffix hsuffix s List.mem_cons_self).1
                have hin : inLiteral s = true := by simp [inLiteral, hletter]
                rw [identChar_of_inLiteral hin] at hid
                cases hid
      | _ => cases hoctal

/-- The pass makes of a text what it may exactly when each of its elements is clear. -/
theorem rewritten_iff_plain {before es : List Element} (h : WellLexed before es) :
    Rewritten es (outputs prev es).flatten ↔ Plain prev es := by
  induction es generalizing before prev with
  | nil => exact ⟨fun _ => trivial, fun _ => ⟨[], .nil, rfl⟩⟩
  | cons e es ih =>
      obtain ⟨hvalid, -, -, hrest⟩ := id h
      constructor
      · rintro ⟨_, hws, heq⟩
        cases hws with
        | @cons _ w _ ws hw hws =>
            rw [List.flatten_cons, outputs, List.flatten_cons] at heq
            obtain ⟨hclear, htail⟩ := clear_of_append hvalid hw
              (fun hname => (head?_behind h hname).1 _)
              (fun hname => (head?_behind h hname).2 ws hws) heq
            exact ⟨hclear, (ih hrest).mp ⟨ws, hws, htail⟩⟩
      · rintro ⟨hclear, hplain⟩
        obtain ⟨ws, hws, heq⟩ := (ih hrest).mpr hplain
        refine ⟨_ :: ws, .cons (rewrites_of_clear hclear) hws, ?_⟩
        rw [List.flatten_cons, heq, outputs, List.flatten_cons]

theorem isValid_eq_false {ds suffix : Text} (hds : ∀ c ∈ ds, isDigit c = true)
    (hsuffix : ∀ c ∈ suffix, isSuffix c = true) :
    isValid ('0' :: (ds ++ suffix)) = false ↔ ∃ d ∈ ds, d = '8' ∨ d = '9' := by
  rw [isValid, digitsOf_literal hds hsuffix, List.tail_cons]
  simp

/-- What is found is what is a literal at its place. -/
theorem exists_found {cs : Text} {P : Text → Prop} :
    (∃ m ∈ found 0 [] cs, P (m.group 0)) ↔
      ∃ a b lit, cs = a ++ b ∧ literalAt a.getLast? b = some lit ∧ P lit := by
  constructor
  · rintro ⟨m, hm, hP⟩
    obtain ⟨a, b, lit, hsplit, hlit, rfl⟩ := mem_found hm
    rw [List.append_nil, List.head?_reverse] at hlit
    exact ⟨a, b, _, hsplit, hlit, hP⟩
  · rintro ⟨a, b, lit, rfl, hlit, hP⟩
    rw [← List.head?_reverse, ← List.append_nil a.reverse] at hlit
    obtain ⟨m, hm, rfl⟩ := found_of_literalAt (k := 0) (fun hk => absurd rfl hk) hlit
    exact ⟨m, hm, hP⟩

/-- What is found is refused where a zero begins digits with an eight or a nine. -/
theorem refused_iff {es : List Element} :
    (∃ m ∈ found 0 [] (visible es), isValid (m.group 0) = false) ↔ Refused es := by
  rw [exists_found (P := fun lit => isValid lit = false)]
  constructor
  · rintro ⟨a, b, lit, hsplit, hlit, hvalid⟩
    obtain ⟨ds, suffix, tail, hb, hshape, hprev, -, hds, hsuffix⟩ := literalAt_eq_some hlit
    have hdigits : ∀ c ∈ ds, isDigit c = true := fun c hc => List.mem_takeWhile_imp (hds ▸ hc)
    have hletters : ∀ c ∈ suffix, isSuffix c = true := fun c hc =>
      List.mem_takeWhile_imp (hsuffix ▸ hc)
    rw [hshape, isValid_eq_false hdigits hletters] at hvalid
    obtain ⟨d, hd, hbad⟩ := hvalid
    obtain ⟨front, back, rfl⟩ := List.append_of_mem hd
    refine ⟨a, front, d, back ++ suffix ++ tail, ?_,
      fun c hc => hdigits c (List.mem_append_left _ hc), hbad, hprev⟩
    rw [hsplit, hb, hshape]
    simp
  · rintro ⟨a, ds, d, b, hsplit, hds, hbad, hprev⟩
    have hd : isDigit d = true := by
      rcases hbad with rfl | rfl <;> rfl
    have htake : (ds ++ d :: b).takeWhile isDigit = ds ++ d :: b.takeWhile isDigit := by
      rw [List.takeWhile_append_of_pos hds, List.takeWhile_cons_of_pos hd]
    refine ⟨a, _, _, hsplit, by rw [literalAt, htake, if_neg (by simp [hprev])], ?_⟩
    rw [isValid_eq_false]
    · exact ⟨d, List.mem_append_right _ List.mem_cons_self, hbad⟩
    · intro c hc
      rw [← htake] at hc
      exact List.mem_takeWhile_imp hc
    · exact fun c hc => List.mem_takeWhile_imp hc

theorem octalValue_literal {ds suffix : Text} (hds : ∀ c ∈ ds, isDigit c = true)
    (hsuffix : ∀ c ∈ suffix, isSuffix c = true) :
    octalValue (digitsOf ('0' :: (ds ++ suffix))) = octalValue ds := by
  rw [digitsOf_literal hds hsuffix]
  simp [octalValue]

/-- What is found has too long a value where a zero begins such digits. -/
theorem tooLong_iff {limit : Option ℕ} {es : List Element} :
    (∃ m ∈ found 0 [] (visible es), (Edit.ofMatch m).fits limit = false) ↔ TooLong limit es := by
  have hfits (m : Place Char) : (Edit.ofMatch m).fits limit = false ↔
      ∃ n ∈ limit, n < (Nat.toDigits 10 (octalValue (digitsOf (m.group 0)))).length := by
    cases limit with
    | none => simp [Edit.fits]
    | some n =>
        refine (decide_eq_false_iff_not.trans Nat.not_le).trans ?_
        simp [Edit.ofMatch]
  simp only [hfits]
  rw [exists_found (P := fun lit => ∃ n ∈ limit,
    n < (Nat.toDigits 10 (octalValue (digitsOf lit))).length)]
  constructor
  · rintro ⟨a, b, lit, hsplit, hlit, hlong⟩
    obtain ⟨ds, suffix, tail, rfl, rfl, hprev, hne, hds, hsuffix⟩ := literalAt_eq_some hlit
    have hdigits : ∀ c ∈ ds, isDigit c = true := fun c hc => List.mem_takeWhile_imp (hds ▸ hc)
    have hletters : ∀ c ∈ suffix, isSuffix c = true := fun c hc =>
      List.mem_takeWhile_imp (hsuffix ▸ hc)
    rw [octalValue_literal hdigits hletters] at hlong
    refine ⟨a, ds, suffix ++ tail, ?_, hne, hdigits, ?_, hprev, hlong⟩
    · rw [hsplit, List.cons_append, List.append_assoc]
    · rw [List.append_assoc, List.takeWhile_append_of_pos hdigits, List.self_eq_append_right] at hds
      cases hrest : suffix ++ tail with
      | nil => rfl
      | cons c t =>
          rw [hrest, List.takeWhile_cons] at hds
          split at hds
          · cases hds
          · rename_i hc
            exact Bool.not_eq_true _ ▸ hc
  · rintro ⟨a, ds, b, hsplit, hne, hds, hstop, hprev, hlong⟩
    have htake : (ds ++ b).takeWhile isDigit = ds := by
      rw [List.takeWhile_append_of_pos hds]
      cases b with
      | nil => simp
      | cons c t => rw [List.takeWhile_cons_of_neg (by simpa using hstop), List.append_nil]
    refine ⟨a, _, _, hsplit, by rw [literalAt, htake, if_neg (by simp [hprev, hne])], ?_⟩
    rwa [octalValue_literal hds fun c hc => List.mem_takeWhile_imp hc]

/-- A text is converted by the pass if nothing in it is refused or too long. -/
theorem convert_spec (limit : Option ℕ) {es : List Element} (h : WellLexed [] es) :
    ((∃ r, convert limit (render es) = some r ∧ r.errors = []) ↔
        ¬ Refused es ∧ ¬ TooLong limit es) ∧
      ∀ r, convert limit (render es) = some r → ¬ Refused es →
        r.out = (outputs none es).flatten := by
  have hfound : octal.findAll (mask (render es)) = found 0 [] (visible es) := by
    rw [mask_render h]
    rfl
  have hfilter : ¬ Refused es → (found 0 [] (visible es)).filter (fun m => isValid (m.group 0)) =
      found 0 [] (visible es) := by
    intro hrefused
    apply List.filter_eq_self.mpr
    intro m hm
    rw [← Bool.not_eq_false]
    exact fun hbad => hrefused (refused_iff.mp ⟨m, hm, hbad⟩)
  have herrors : (found 0 [] (visible es)).filter (fun m => !isValid (m.group 0)) = [] ↔
      ¬ Refused es := by
    rw [List.filter_eq_nil_iff, ← refused_iff]
    simp
  have hfits : ((found 0 [] (visible es)).map Edit.ofMatch).all (Edit.fits limit) = true ↔
      ¬ TooLong limit es := by
    rw [← tooLong_iff]
    simp
  constructor
  · simp only [convert, hfound, Option.ite_none_right_eq_some, Option.some.injEq]
    constructor
    · rintro ⟨r, ⟨hall, rfl⟩, hnone⟩
      have hrefused := herrors.mp (List.map_eq_nil_iff.mp hnone)
      rw [hfilter hrefused] at hall
      exact ⟨hrefused, hfits.mp hall⟩
    · rintro ⟨hrefused, hshort⟩
      rw [hfilter hrefused]
      exact ⟨_, ⟨hfits.mpr hshort, rfl⟩, List.map_eq_nil_iff.mpr (herrors.mpr hrefused)⟩
  · intro r hr hrefused
    have hlen : (render es).length = (visible es).length := by
      rw [render, visible, List.length_flatMap, List.length_flatMap]
      simp only [length_masked]
    have hedits := @foldr_edits 0 [] _ [] _ rfl hlen (Nat.zero_le _)
    simp only [convert, hfound, Option.ite_none_right_eq_some, Option.some.injEq] at hr
    obtain ⟨-, rfl⟩ := hr
    dsimp only
    rw [hfilter hrefused, List.foldl_reverse, ← List.nil_append (render es)]
    exact hedits.trans (rewrite_render h)

/-- The loop ends with zero if each file is there and converted without an error. -/
theorem convertFiles_eq_zero {limit : Option ℕ} {refused : Bool}
    {files : List (Option (List Coded))} :
    (convertFiles limit refused files).1 = 0 ↔ refused = false ∧
      ∀ f ∈ files, ∃ file r, f = some file ∧ convert limit (readReplacing file) = some r ∧
        r.errors = [] := by
  fun_induction convertFiles limit refused files with
  | case1 refused => cases refused <;> simp
  | case2 => simp
  | case3 refused file files hnone => simp [hnone]
  | case4 refused file files r hr rest ih =>
      dsimp only
      rw [ih]
      simp [hr, and_assoc]

/-- And then each is written. -/
theorem convertFiles_written {α : Type} {limit : Option ℕ} {refused : Bool} {sources : List α}
    {file : α → List Coded} {out : α → Text}
    (h : ∀ s ∈ sources, ∃ r, convert limit (readReplacing (file s)) = some r ∧ r.out = out s) :
    (convertFiles limit refused (sources.map fun s => some (file s))).2 =
      sources.map fun s => write (out s) := by
  induction sources generalizing refused with
  | nil => rfl
  | cons s sources ih =>
      rw [List.forall_mem_cons] at h
      obtain ⟨⟨r, hr, hout⟩, hrest⟩ := h
      rw [List.map_cons, convertFiles, hr]
      dsimp only
      rw [ih hrest, hout]
      rfl

theorem not_mem_rewrite {k : ℕ} {text masked : Text} (h : '\r' ∉ text) :
    '\r' ∉ rewrite k prev text masked := by
  fun_induction rewrite k prev text masked with
  | case1 | case2 => nofun
  | case3 _ _ _ _ _ _ ih => exact ih (List.not_mem_of_not_mem_cons h)
  | case4 _ _ _ _ _ lit _ ih =>
      rw [List.mem_append, not_or]
      refine ⟨fun hmem => ?_, ih (List.not_mem_of_not_mem_cons h)⟩
      have hdigit := Nat.isDigit_of_mem_toDigits (by decide) (by decide) hmem
      cases hdigit
  | case5 _ _ _ _ _ _ ih =>
      rw [List.mem_cons, not_or] at h ⊢
      exact ⟨h.1, ih h.2⟩

theorem not_mem_outputs {es : List Element} (h : '\r' ∉ render es) :
    '\r' ∉ (outputs prev es).flatten := by
  induction es generalizing prev with
  | nil => nofun
  | cons e es ih =>
      rw [render, List.flatMap_cons, List.mem_append, not_or] at h
      rw [outputs, List.flatten_cons, List.mem_append, not_or]
      exact ⟨not_mem_rewrite h.1, ih h.2⟩

/-- What becomes of the bytes of an element, if it can be written, becomes of its text. -/
theorem rewrites_of_becomes {e : Element} {raw w : List Coded}
    (hread : readReplacing raw = e.text) (hw : e.Becomes raw w) (hclean : Clean w) :
    raw = write e.text ∧ ∃ text, w = write text ∧ Rewrites e text := by
  rw [Element.Becomes] at hw
  simp only [Rewrites]
  cases hoctal : e.octal? with
  | none =>
      rw [hoctal] at hw
      obtain rfl : w = raw := hw
      have hself : w = write e.text := by rw [← hread, clean_iff.mp hclean]
      exact ⟨hself, _, hself, rfl⟩
  | some v =>
      rw [hoctal] at hw
      obtain ⟨suffix, hsuffix, rfl⟩ := hw
      refine ⟨?_, _, rfl, suffix, hsuffix, rfl⟩
      cases e with
      | number cs =>
          obtain ⟨ds, tail, rfl, -, hds, htail, -⟩ := octalLiteral_eq_some hoctal
          have hnot (c : Char) (hc : inToken c = false) : c ∉ '0' :: (ds ++ tail) := by
            intro hmem
            have hin : inToken c = true := by
              rcases List.mem_cons.mp hmem with rfl | hmem
              · rfl
              · rcases List.mem_append.mp hmem with hmem | hmem
                · exact inToken_of_isDigit (hds c hmem)
                · exact inToken_of_isSuffix (mem_suffix htail c hmem).1
            rw [hc] at hin
            cases hin
          have heq := @eq_write raw
          rw [hread] at heq
          exact heq (hnot _ rfl) (hnot _ rfl)
      | _ => cases hoctal

theorem rewritten_of_rows {es : List Element} {rows : List (List Coded × List Coded)}
    (hrows : List.Forall₂ Element.Row es rows)
    (hchars : ∀ x ∈ rows.flatMap Prod.snd, ∃ c, x = .char c ∧ c ≠ '\r') :
    rows.flatMap Prod.fst = write (render es) ∧
      ∃ ws, List.Forall₂ Rewrites es ws ∧ rows.flatMap Prod.snd = write ws.flatten := by
  induction hrows with
  | nil => exact ⟨rfl, [], .nil, rfl⟩
  | @cons e row es rows hrow _ ih =>
      rw [List.flatMap_cons, List.forall_mem_append] at hchars
      obtain ⟨hraw, ws, hws, hrest⟩ := ih hchars.2
      obtain ⟨hself, text, htext, hrewrites⟩ :=
        rewrites_of_becomes hrow.1 hrow.2 (clean_of_chars hchars.1)
      refine ⟨?_, text :: ws, .cons hrewrites hws, ?_⟩
      · rw [List.flatMap_cons, hraw, hself, ← write_append]
        rfl
      · rw [List.flatMap_cons, hrest, htext, List.flatten_cons, write_append]

theorem rows_of_rewritten {es : List Element} {ws : List Text} (hreturn : '\r' ∉ render es)
    (hws : List.Forall₂ Rewrites es ws) :
    ∃ rows : List (List Coded × List Coded), rows.flatMap Prod.fst = write (render es) ∧
      rows.flatMap Prod.snd = write ws.flatten ∧ List.Forall₂ Element.Row es rows := by
  induction hws with
  | nil => exact ⟨[], rfl, rfl, .nil⟩
  | @cons e w es ws hw _ ih =>
      rw [render, List.flatMap_cons, List.mem_append, not_or] at hreturn
      obtain ⟨rows, hraw, hwritten, hrows⟩ := ih hreturn.2
      have hrow : e.Becomes (write e.text) (write w) := by
        rw [Rewrites] at hw
        rw [Element.Becomes]
        cases hoctal : e.octal? with
        | none =>
            rw [hoctal] at hw
            exact congrArg write hw
        | some v =>
            rw [hoctal] at hw
            obtain ⟨suffix, hsuffix, rfl⟩ := hw
            exact ⟨suffix, hsuffix, rfl⟩
      refine ⟨(write e.text, write w) :: rows, ?_, ?_,
        .cons ⟨readReplacing_write hreturn.1, hrow⟩ hrows⟩
      · rw [List.flatMap_cons, hraw, ← write_append]
        rfl
      · rw [List.flatMap_cons, hwritten, List.flatten_cons, write_append]

/-- A file may become a text just where it is clean and its text may. -/
theorem Source.becomes_iff (s : Source) {out : Text} (hout : '\r' ∉ out) :
    s.Becomes (write out) ↔ Clean s.file ∧ Rewritten s.elements out := by
  have hreturn : '\r' ∉ render s.elements := s.reads ▸ not_mem_read_pieces s.file
  constructor
  · rintro ⟨rows, hfile, hwritten, hrows⟩
    have hchars : ∀ x ∈ rows.flatMap Prod.snd, ∃ c, x = .char c ∧ c ≠ '\r' := by
      intro x hx
      rw [hwritten] at hx
      obtain ⟨c, hc, rfl⟩ := List.mem_map.mp hx
      exact ⟨c, rfl, fun heq => hout (heq ▸ hc)⟩
    obtain ⟨hraw, ws, hws, htext⟩ := rewritten_of_rows hrows hchars
    exact ⟨⟨_, hreturn, hfile.symm.trans hraw⟩, ws, hws,
      write_injective (htext.symm.trans hwritten)⟩
  · rintro ⟨hclean, ws, hws, rfl⟩
    obtain ⟨rows, hraw, hwritten, hrows⟩ := rows_of_rewritten hreturn hws
    refine ⟨rows, ?_, hwritten, hrows⟩
    rw [hraw, ← s.reads, clean_iff.mp hclean]

/-- What the tool writes when it exits with zero differs from its input in the octal literals alone
exactly if it refuses or gives up, or no byte is lost in reading, every zero that begins digits
behind no letter, digit, underscore or point begins an octal literal, and every octal literal is
such a one. -/
theorem convert_exact (limit : Option ℕ) (sources : List Source) :
    ((main limit (sources.map fun s => some s.file)).1 = 0 →
      List.Forall₂ Source.Becomes sources (main limit (sources.map fun s => some s.file)).2) ↔
    (∃ s ∈ sources, Refused s.elements ∨ TooLong limit s.elements) ∨
      ∀ s ∈ sources, Clean s.file ∧ Plain none s.elements := by
  by_cases hsources : sources = []
  · simp [hsources, main]
  have hmain : main limit (sources.map fun s => some s.file) =
      convertFiles limit false (sources.map fun s => some s.file) :=
    if_neg (by simpa using hsources)
  have hstatus : (main limit (sources.map fun s => some s.file)).1 = 0 ↔
      ∀ s ∈ sources, ¬ (Refused s.elements ∨ TooLong limit s.elements) := by
    rw [hmain, convertFiles_eq_zero]
    simp only [true_and, List.forall_mem_map, Option.some.injEq]
    refine forall₂_congr fun s _ => ?_
    rw [not_or, ← (convert_spec limit s.wellLexed).1]
    constructor
    · rintro ⟨file, r, rfl, hr, herrors⟩
      exact ⟨r, s.reads ▸ hr, herrors⟩
    · rintro ⟨r, hr, herrors⟩
      exact ⟨s.file, r, rfl, s.reads.symm ▸ hr, herrors⟩
  by_cases hnone : ∀ s ∈ sources, ¬ (Refused s.elements ∨ TooLong limit s.elements)
  · have hwritten : (main limit (sources.map fun s => some s.file)).2 =
        sources.map fun s => write (outputs none s.elements).flatten := by
      rw [hmain, convertFiles_written]
      intro s hs
      have hspec := convert_spec limit s.wellLexed
      obtain ⟨r, hr, -⟩ := hspec.1.mpr (not_or.mp (hnone s hs))
      exact ⟨r, s.reads ▸ hr, hspec.2 r hr (not_or.mp (hnone s hs)).1⟩
    rw [hstatus, hwritten, List.forall₂_map_right_iff, List.forall₂_same]
    have hout (s : Source) : s.Becomes (write (outputs none s.elements).flatten) ↔
        Clean s.file ∧ Plain none s.elements := by
      have hreturn : '\r' ∉ render s.elements := s.reads ▸ not_mem_read_pieces s.file
      rw [s.becomes_iff (not_mem_outputs hreturn), rewritten_iff_plain s.wellLexed]
    simp only [hout]
    constructor
    · exact fun hall => .inr (hall hnone)
    · rintro (⟨s, hs, hrefused⟩ | hall) -
      · exact absurd hrefused (hnone s hs)
      · exact hall
  · constructor
    · intro
      left
      simpa only [not_forall, not_not, exists_prop] using hnone
    · exact fun _ hzero => absurd (hstatus.mp hzero) hnone

/-- A floating number that begins with a zero. -/
def pointed : Source where
  file := write ['0', '1', '0', '.', '5']
  elements := [.number ['0', '1', '0', '.', '5']]
  wellLexed := ⟨rfl, nofun, trivial, trivial⟩
  reads := readReplacing_write (by decide)

/-- `010.5` becomes `8.5`. -/
theorem main_pointed :
    main (some 4300) [some pointed.file] = (0, [write ['8', '.', '5']]) ∧
      ¬ List.Forall₂ Source.Becomes [pointed] (main (some 4300) [some pointed.file]).2 := by
  have hmain : main (some 4300) [some pointed.file] = (0, [write ['8', '.', '5']]) := by
    decide +kernel
  refine ⟨hmain, ?_⟩
  rw [hmain]
  rintro (_ | ⟨hpointed, -⟩)
  obtain ⟨-, ws, hws, hout⟩ := (pointed.becomes_iff (by decide)).mp hpointed
  have hoctal : Element.octal? (.number ['0', '1', '0', '.', '5']) = none := by decide
  cases hws with
  | @cons _ w _ ws hw hws =>
      obtain rfl : w = ['0', '1', '0', '.', '5'] := by
        rw [Rewrites, hoctal] at hw
        exact hw
      cases hout

end Veron.OctalToDecimal
