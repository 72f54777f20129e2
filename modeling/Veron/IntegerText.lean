/-
Integers as C reads them: white space, a sign, `0x` before hexadecimal digits where the
base allows it, and digits; and the longest prefix of a text that has this form.
-/
import Mathlib.Data.Char
import Mathlib.Data.List.TakeWhile
import Mathlib.Tactic.Common
import Veron.Numeral

namespace Veron.IntegerText

def isSpace (c : Char) : Bool := c = ' ' ∨ ('\t' ≤ c ∧ c ≤ '\r')

/-- The letters go on where the digits end. -/
def digitOf (c : Char) : Option ℕ :=
  if '0' ≤ c ∧ c ≤ '9' then some (c.toNat - '0'.toNat)
  else if 'a' ≤ c ∧ c ≤ 'z' then some (c.toNat - 'a'.toNat + 10)
  else if 'A' ≤ c ∧ c ≤ 'Z' then some (c.toNat - 'A'.toNat + 10)
  else none

def isDigit (radix : ℕ) (c : Char) : Bool := (digitOf c).any (· < radix)

def number (radix : ℕ) (digits : List Char) : ℕ :=
  numeral radix (digits.map fun c => (digitOf c).getD 0)

/-- `0x` or `0X`, in front of a hexadecimal digit. -/
def hexAhead : List Char → Bool
  | '0' :: x :: c :: _ => (x = 'x' ∨ x = 'X') ∧ isDigit 16 c
  | _ => false

/-- Texts without a sign, to a base: base 0 is for the constants of C. -/
inductive Unsigned (base : ℕ) : List Char → ℕ → Prop where
  | plain (digits : List Char) (hbase : base ≠ 0) (hfilled : digits ≠ [])
      (hdigits : ∀ c ∈ digits, isDigit base c) : Unsigned base digits (number base digits)
  | hex (x : Char) (digits : List Char) (hbase : base = 0 ∨ base = 16) (hx : x = 'x' ∨ x = 'X')
      (hfilled : digits ≠ []) (hdigits : ∀ c ∈ digits, isDigit 16 c) :
      Unsigned base ('0' :: x :: digits) (number 16 digits)
  | octal (digits : List Char) (hbase : base = 0) (hdigits : ∀ c ∈ digits, isDigit 8 c) :
      Unsigned base ('0' :: digits) (number 8 digits)
  | decimal (c : Char) (digits : List Char) (hbase : base = 0) (hc : c ≠ '0')
      (hdigits : ∀ d ∈ c :: digits, isDigit 10 d) :
      Unsigned base (c :: digits) (number 10 (c :: digits))

/-- An optional sign, and whether it is a minus. -/
inductive Sign : List Char → Bool → Prop where
  | none : Sign [] false
  | plus : Sign ['+'] false
  | minus : Sign ['-'] true

/-- A whole text of the form, with its sign and its magnitude. -/
def Form (base : ℕ) (text : List Char) (neg : Bool) (mag : ℕ) : Prop :=
  ∃ spaces sign body, text = spaces ++ (sign ++ body) ∧ (∀ c ∈ spaces, isSpace c) ∧
    Sign sign neg ∧ Unsigned base body mag

/-- What is to be read of a text, and what is left of it: its longest prefix of the form, or
zero and all of the text where no prefix has it. -/
def Reads (base : ℕ) (s : List Char) (neg : Bool) (mag : ℕ) (rest : List Char) : Prop :=
  (∃ text, s = text ++ rest ∧ Form base text neg mag ∧
    ∀ longer neg' mag', longer <+: s → Form base longer neg' mag' →
      longer.length ≤ text.length) ∨
  (rest = s ∧ neg = false ∧ mag = 0 ∧
    ∀ text neg' mag', text <+: s → ¬ Form base text neg' mag')

/-- The sign at the head of a text. -/
def signAt : List Char → List Char
  | '-' :: _ => ['-']
  | '+' :: _ => ['+']
  | _ => []

/-- The text behind the white space, and behind the sign too. -/
def behindSpace (s : List Char) : List Char := s.dropWhile isSpace

def body (s : List Char) : List Char :=
  (behindSpace s).drop (signAt (behindSpace s)).length

def marked (base : ℕ) (t : List Char) : Bool := (base = 0 ∨ base = 16) ∧ hexAhead t

def radix (base : ℕ) (t : List Char) : ℕ :=
  if base ≠ 0 then base
  else if hexAhead t then 16
  else if t.head? = some '0' then 8
  else 10

/-- The `0x` and the digits that count. -/
def mark (base : ℕ) (t : List Char) : List Char := if marked base t then t.take 2 else []

def digits (base : ℕ) (t : List Char) : List Char :=
  (t.drop (mark base t).length).takeWhile (isDigit (radix base t))

variable {base b mag mag' : ℕ} {c x : Char} {s t u text rest : List Char} {neg neg' : Bool}

theorem isDigit_zero (hb : 0 < b) : isDigit b '0' = true := by
  simpa [isDigit, digitOf] using hb

theorem isDigit_mono {b' : ℕ} (hle : b ≤ b') (hc : isDigit b c = true) : isDigit b' c = true := by
  rw [isDigit, Option.any_eq_true] at hc ⊢
  obtain ⟨d, hd, hlt⟩ := hc
  simp only [decide_eq_true_eq] at hlt
  exact ⟨d, hd, decide_eq_true (hlt.trans_le hle)⟩

/-- The `x` is not a digit to a base that has the mark. -/
theorem isDigit_x (hx : x = 'x' ∨ x = 'X') (hb : b ≤ 16) : isDigit b x = false := by
  by_contra hdigit
  have h16 := isDigit_mono hb (Bool.not_eq_false _ ▸ hdigit)
  rcases hx with rfl | rfl
  · exact absurd h16 (by decide)
  · exact absurd h16 (by decide)

theorem number_zero_cons (b : ℕ) (t : List Char) : number b ('0' :: t) = number b t := by
  rw [number, List.map_cons, numeral_cons]
  simp [digitOf, number]

theorem hexAhead_cons (hx : x = 'x' ∨ x = 'X') (hc : isDigit 16 c = true) (t : List Char) :
    hexAhead ('0' :: x :: c :: t) = true := by
  simp [hexAhead, hx, hc]

/-- The only texts with such digits ahead. -/
theorem exists_of_hexAhead (h : hexAhead t = true) :
    ∃ x c after, t = '0' :: x :: c :: after ∧ (x = 'x' ∨ x = 'X') ∧ isDigit 16 c = true := by
  unfold hexAhead at h
  split at h
  · rename_i x c after
    exact ⟨x, c, after, rfl, by simpa using h⟩
  · cases h

/-- Digits at the head of a text are among all those at its head. -/
theorem prefix_takeWhile {p : Char → Bool} (hpre : u <+: t) (hu : ∀ c ∈ u, p c = true) :
    u <+: t.takeWhile p := by
  obtain ⟨after, rfl⟩ := hpre
  rw [List.takeWhile_append_of_pos hu]
  exact List.prefix_append u _

/-- In front of an `x` there is no digit but the 0. -/
theorem prefix_zero (hx : x = 'x' ∨ x = 'X') (hb : b ≤ 16) (hu : ∀ c ∈ u, isDigit b c = true)
    (hpre : u <+: '0' :: x :: t) : u <+: ['0'] := by
  have hzero := prefix_takeWhile hpre hu
  rw [List.takeWhile_cons, List.takeWhile_cons, isDigit_x hx hb] at hzero
  split at hzero
  · exact hzero
  · rw [List.prefix_nil.mp hzero]
    exact List.nil_prefix

/-- What is read behind the sign. -/
def longest (base : ℕ) (t : List Char) : List Char := mark base t ++ digits base t

theorem marked_iff : marked base t = true ↔ (base = 0 ∨ base = 16) ∧ hexAhead t = true := by
  simp [marked]

theorem mark_of_marked (hmark : marked base t = true) :
    ∃ x after, t = '0' :: x :: after ∧ (x = 'x' ∨ x = 'X') ∧ mark base t = ['0', x] ∧
      radix base t = 16 ∧ digits base t = after.takeWhile (isDigit 16) ∧ digits base t ≠ [] := by
  have hboth := marked_iff.mp hmark
  obtain ⟨x, c, after, rfl, hx, hc⟩ := exists_of_hexAhead hboth.2
  have hradix : radix base ('0' :: x :: c :: after) = 16 := by
    rw [radix, if_pos hboth.2]
    split
    · rename_i hbase
      exact hboth.1.resolve_left hbase
    · rfl
  have hpair : mark base ('0' :: x :: c :: after) = ['0', x] := if_pos hmark
  have hdigits : digits base ('0' :: x :: c :: after) =
      (c :: after).takeWhile (isDigit 16) := by
    rw [digits, hpair, hradix]
    rfl
  refine ⟨x, c :: after, rfl, hx, hpair, hradix, hdigits, ?_⟩
  rw [hdigits, List.takeWhile_cons_of_pos hc]
  exact List.cons_ne_nil _ _

theorem mark_of_not (hmark : marked base t = false) :
    mark base t = [] ∧ digits base t = t.takeWhile (isDigit (radix base t)) := by
  have hnil : mark base t = [] := if_neg (by simp [hmark])
  rw [digits, hnil]
  exact ⟨rfl, rfl⟩

theorem digits_all (base : ℕ) (t : List Char) :
    ∀ c ∈ digits base t, isDigit (radix base t) c = true :=
  fun _ hc => List.mem_takeWhile_imp hc

theorem longest_of_not (hmark : marked base t = false) : longest base t = digits base t := by
  rw [longest, (mark_of_not hmark).1, List.nil_append]

theorem longest_isPrefix (base : ℕ) (t : List Char) : longest base t <+: t := by
  cases hmark : marked base t with
  | true =>
      obtain ⟨x, after, rfl, -, hpair, -, hdigits, -⟩ := mark_of_marked hmark
      rw [longest, hpair, hdigits]
      exact (List.prefix_append_right_inj _).mpr (List.takeWhile_prefix _)
  | false =>
      rw [longest_of_not hmark, (mark_of_not hmark).2]
      exact List.takeWhile_prefix _

theorem hexAhead_of_not (hmark : marked 0 t = false) : hexAhead t = false := by
  simpa [marked] using hmark

/-- Where there are digits, there is a text of the form. -/
theorem unsigned_longest (hdigits : digits base t ≠ []) :
    Unsigned base (longest base t) (number (radix base t) (digits base t)) := by
  have hall := digits_all base t
  cases hmark : marked base t with
  | true =>
      have hbase := (marked_iff.mp hmark).1
      obtain ⟨x, after, -, hx, hpair, hradix, -, -⟩ := mark_of_marked hmark
      rw [hradix] at hall
      rw [longest, hpair, hradix]
      exact .hex x (digits base t) hbase hx hdigits hall
  | false =>
      rw [longest_of_not hmark]
      by_cases hbase : base = 0
      · subst hbase
        have hnone := hexAhead_of_not hmark
        cases t with
        | nil =>
            rw [(mark_of_not hmark).2] at hdigits
            exact absurd rfl hdigits
        | cons c t =>
            by_cases hc : c = '0'
            · subst hc
              have hradix : radix 0 ('0' :: t) = 8 := by simp [radix, hnone]
              rw [hradix] at hall ⊢
              have heq := (mark_of_not hmark).2
              rw [hradix, List.takeWhile_cons_of_pos (isDigit_zero (by decide))] at heq
              rw [heq] at hall ⊢
              rw [number_zero_cons]
              exact .octal _ rfl fun d hd => hall d (List.mem_cons_of_mem _ hd)
            · have hradix : radix 0 (c :: t) = 10 := by simp [radix, hnone, hc]
              rw [hradix] at hall ⊢
              have heq := (mark_of_not hmark).2
              rw [hradix] at heq
              obtain ⟨d, ds, hcons⟩ := List.exists_cons_of_ne_nil hdigits
              have hhead : d = c := by
                have hpre : d :: ds <+: c :: t := by
                  rw [← hcons, heq]
                  exact List.takeWhile_prefix _
                exact (List.cons_prefix_cons.mp hpre).1
              rw [hcons, hhead] at hall ⊢
              exact .decimal c ds rfl hc hall
      · have hradix : radix base t = base := if_pos hbase
        rw [hradix] at hall ⊢
        exact .plain _ hbase hdigits hall

/-- Behind a mark more is read than the 0 of the mark. -/
theorem prefix_of_marked (hmark : marked base t = true) (hu : u <+: ['0']) :
    u <+: longest base t ∧ digits base t ≠ [] ∧
      (u = longest base t → mag = number (radix base t) (digits base t)) := by
  obtain ⟨x, after, -, -, hpair, -, -, hne⟩ := mark_of_marked hmark
  rw [longest, hpair]
  refine ⟨hu.trans ⟨x :: digits base t, rfl⟩, hne, fun hsame => ?_⟩
  have hlength := hu.length_le
  rw [hsame] at hlength
  simp at hlength

theorem prefix_of_not (hmark : marked base t = false) (hpre : u <+: t) (hfilled : u ≠ [])
    (hu : ∀ c ∈ u, isDigit (radix base t) c = true) :
    u <+: longest base t ∧ digits base t ≠ [] ∧
      (u = longest base t → number (radix base t) u = number (radix base t) (digits base t)) := by
  have hread : u <+: digits base t := by
    rw [(mark_of_not hmark).2]
    exact prefix_takeWhile hpre hu
  rw [longest_of_not hmark]
  exact ⟨hread, fun hnone => hfilled (List.prefix_nil.mp (hnone ▸ hread)), fun h => by rw [← h]⟩

theorem radix_zero (hahead : hexAhead t = false) (hpre : c :: u <+: t) :
    radix 0 t = if c = '0' then 8 else 10 := by
  have hhead : t.head? = some c := by
    obtain ⟨after, rfl⟩ := hpre
    rfl
  rw [radix, if_neg (not_not.mpr rfl), if_neg (by simp [hahead]), hhead]
  simp only [Option.some.injEq]

/-- A text of the form at the head of another is among what is read there. -/
theorem Unsigned.prefix_longest (hu : Unsigned base u mag) (hpre : u <+: t) :
    u <+: longest base t ∧ digits base t ≠ [] ∧
      (u = longest base t → mag = number (radix base t) (digits base t)) := by
  cases hu with
  | plain _ hbase hfilled hdigits =>
      have hradix : radix base t = base := if_pos hbase
      cases hmark : marked base t with
      | true =>
          obtain ⟨x, after, rfl, hx, -, h16, -, -⟩ := mark_of_marked hmark
          exact prefix_of_marked hmark (prefix_zero hx (hradix.symm.trans h16).le hdigits hpre)
      | false =>
          have hplain := prefix_of_not hmark hpre hfilled (by rwa [hradix])
          rwa [hradix] at hplain ⊢
  | hex x ds hbase hx hfilled hdigits =>
      obtain ⟨after, rfl⟩ := hpre
      obtain ⟨c, ds', hcons⟩ := List.exists_cons_of_ne_nil hfilled
      have hc : isDigit 16 c = true := hdigits c (hcons ▸ List.mem_cons_self)
      have hmark : marked base ('0' :: x :: ds ++ after) = true := by
        have hahead := hexAhead_cons hx hc (ds' ++ after)
        simp only [marked, hcons, List.cons_append, hahead, hbase]
        rfl
      obtain ⟨y, after', heq, -, hpair, hradix, hread, hne⟩ := mark_of_marked hmark
      simp only [List.cons_append, List.cons.injEq, true_and] at heq
      obtain ⟨rfl, rfl⟩ := heq
      have hds : ds <+: digits base ('0' :: x :: ds ++ after) := by
        rw [hread]
        exact prefix_takeWhile (List.prefix_append ds after) hdigits
      rw [longest, hpair, hradix]
      refine ⟨(List.prefix_append_right_inj ['0', x]).mpr hds, hne, fun hsame => ?_⟩
      have hdsame : ds = digits base ('0' :: x :: ds ++ after) := by simpa using hsame
      rw [← hdsame]
  | octal ds hbase hdigits =>
      subst hbase
      have hall : ∀ c ∈ '0' :: ds, isDigit 8 c = true := by
        intro c hc
        rcases List.mem_cons.mp hc with rfl | hc
        · decide
        · exact hdigits c hc
      cases hmark : marked 0 t with
      | true =>
          obtain ⟨x, after, rfl, hx, -, -, -, -⟩ := mark_of_marked hmark
          exact prefix_of_marked hmark (prefix_zero hx (by decide) hall hpre)
      | false =>
          have hradix : radix 0 t = 8 := radix_zero (hexAhead_of_not hmark) hpre
          have hplain := prefix_of_not hmark hpre (List.cons_ne_nil _ _) (by rwa [hradix])
          rw [hradix, number_zero_cons] at hplain
          rwa [hradix]
  | decimal c ds hbase hc hdigits =>
      subst hbase
      have hnone : hexAhead t = false := by
        by_contra hahead
        obtain ⟨x, d, after, rfl, -, -⟩ := exists_of_hexAhead (Bool.not_eq_false _ ▸ hahead)
        exact hc (List.cons_prefix_cons.mp hpre).1
      have hmark : marked 0 t = false := by simpa [marked] using hnone
      have hradix : radix 0 t = 10 := (radix_zero hnone hpre).trans (if_neg hc)
      have hplain := prefix_of_not hmark hpre (List.cons_ne_nil _ _) (by rwa [hradix])
      rwa [hradix] at hplain ⊢

theorem zero_le_of_isDigit (hc : isDigit b c = true) : '0' ≤ c := by
  rw [isDigit, Option.any_eq_true] at hc
  obtain ⟨d, hd, -⟩ := hc
  unfold digitOf at hd
  split at hd
  · rename_i h
    exact h.1
  split at hd
  · rename_i h
    exact (show '0' ≤ 'a' by decide).trans h.1
  split at hd
  · rename_i h
    exact (show '0' ≤ 'A' by decide).trans h.1
  · cases hd

/-- White space and signs are before the digits. -/
theorem isSpace_of_isDigit (hc : isDigit b c = true) :
    isSpace c = false ∧ c ≠ '-' ∧ c ≠ '+' := by
  have hzero := zero_le_of_isDigit hc
  refine ⟨?_, ?_, ?_⟩
  · rw [isSpace, decide_eq_false_iff_not]
    rintro (rfl | ⟨-, hle⟩)
    · exact absurd hzero (by decide)
    · exact absurd (hzero.trans hle) (by decide)
  · rintro rfl
    exact absurd hzero (by decide)
  · rintro rfl
    exact absurd hzero (by decide)

/-- A text behind the sign begins with a digit. -/
theorem Unsigned.head (hu : Unsigned base u mag) :
    ∃ c after b, u = c :: after ∧ isDigit b c = true := by
  cases hu with
  | plain _ _ hfilled hdigits =>
      obtain ⟨c, after, rfl⟩ := List.exists_cons_of_ne_nil hfilled
      exact ⟨c, after, base, rfl, hdigits c List.mem_cons_self⟩
  | hex x ds => exact ⟨'0', x :: ds, 16, rfl, by decide⟩
  | octal ds => exact ⟨'0', ds, 8, rfl, by decide⟩
  | decimal c ds _ _ hdigits => exact ⟨c, ds, 10, rfl, hdigits c List.mem_cons_self⟩

theorem signAt_digit (hc : isDigit b c = true) (t : List Char) : signAt (c :: t) = [] := by
  obtain ⟨-, hminus, hplus⟩ := isSpace_of_isDigit hc
  unfold signAt
  split
  · rename_i h
    exact absurd (List.cons.inj h).1 hminus
  · rename_i h
    exact absurd (List.cons.inj h).1 hplus
  · rfl

/-- In front of a digit a sign is found, and no white space. -/
theorem Sign.append_digit {sign : List Char} (hsign : Sign sign neg) (hc : isDigit b c = true)
    (t : List Char) :
    signAt (sign ++ c :: t) = sign ∧ ∃ d after, sign ++ c :: t = d :: after ∧
      isSpace d = false := by
  cases hsign with
  | none => exact ⟨signAt_digit hc t, c, t, rfl, (isSpace_of_isDigit hc).1⟩
  | plus => exact ⟨rfl, '+', c :: t, rfl, by decide⟩
  | minus => exact ⟨rfl, '-', c :: t, rfl, by decide⟩

/-- The white space and the sign of a text of the form are those at the head of any text it
is a prefix of. -/
theorem Form.split (hform : Form base text neg mag) (hpre : text <+: s) :
    ∃ u, text = s.takeWhile isSpace ++ (signAt (behindSpace s) ++ u) ∧ u <+: body s ∧
      Sign (signAt (behindSpace s)) neg ∧ Unsigned base u mag := by
  obtain ⟨spaces, sign, u, rfl, hspaces, hsign, hu⟩ := hform
  obtain ⟨after, rfl⟩ := hpre
  obtain ⟨c, u', b, rfl, hc⟩ := hu.head
  obtain ⟨hsignAt, d, t, hcons, hspace⟩ := hsign.append_digit hc (u' ++ after)
  have hassoc : spaces ++ (sign ++ c :: u') ++ after = spaces ++ (sign ++ c :: (u' ++ after)) := by
    simp only [List.append_assoc, List.cons_append]
  have hbehind : behindSpace (spaces ++ (sign ++ c :: (u' ++ after))) =
      sign ++ c :: (u' ++ after) := by
    rw [behindSpace, List.dropWhile_append_of_pos hspaces, hcons,
      List.dropWhile_cons_of_neg (by simp [hspace])]
  have hspaces' : (spaces ++ (sign ++ c :: (u' ++ after))).takeWhile isSpace = spaces := by
    rw [List.takeWhile_append_of_pos hspaces, hcons,
      List.takeWhile_cons_of_neg (by simp [hspace]), List.append_nil]
  rw [hassoc]
  rw [hspaces', body, hbehind, hsignAt]
  refine ⟨c :: u', rfl, ?_, hsign, hu⟩
  rw [List.drop_left]
  exact List.prefix_append _ _

theorem Sign.neg_eq {sign : List Char} (hsign : Sign sign neg) :
    neg = decide (sign = ['-']) := by
  cases hsign <;> rfl

theorem sign_signAt (t : List Char) : Sign (signAt t) (decide (signAt t = ['-'])) := by
  unfold signAt
  split
  · exact .minus
  · exact .plus
  · exact .none

theorem signAt_isPrefix (t : List Char) : signAt t <+: t := by
  unfold signAt
  split
  · exact ⟨_, rfl⟩
  · exact ⟨_, rfl⟩
  · exact List.nil_prefix

/-- The longest prefix of the form, where there is one. -/
def whole (base : ℕ) (s : List Char) : List Char :=
  s.takeWhile isSpace ++ (signAt (behindSpace s) ++ longest base (body s))

theorem whole_append (base : ℕ) (s : List Char) :
    whole base s ++ (body s).drop (longest base (body s)).length = s := by
  have hbody := List.prefix_iff_eq_append.mp (longest_isPrefix base (body s))
  have hsign := List.prefix_iff_eq_append.mp (signAt_isPrefix (behindSpace s))
  simp only [whole, List.append_assoc]
  rw [hbody, body, hsign]
  exact List.takeWhile_append_dropWhile

theorem form_whole (hdigits : digits base (body s) ≠ []) :
    Form base (whole base s) (decide (signAt (behindSpace s) = ['-']))
      (number (radix base (body s)) (digits base (body s))) :=
  ⟨_, _, _, rfl, fun _ hc => List.mem_takeWhile_imp hc, sign_signAt _, unsigned_longest hdigits⟩

theorem Form.prefix_whole (hform : Form base text neg mag) (hpre : text <+: s) :
    text <+: whole base s ∧ digits base (body s) ≠ [] ∧
      neg = decide (signAt (behindSpace s) = ['-']) ∧
      (text = whole base s → mag = number (radix base (body s)) (digits base (body s))) := by
  obtain ⟨u, rfl, hu, hsign, hunsigned⟩ := hform.split hpre
  obtain ⟨hlongest, hdigits, hmag⟩ := hunsigned.prefix_longest hu
  refine ⟨?_, hdigits, hsign.neg_eq, fun hsame => hmag ?_⟩
  · rw [whole]
    exact (List.prefix_append_right_inj _).mpr ((List.prefix_append_right_inj _).mpr hlongest)
  · exact List.append_cancel_left (List.append_cancel_left hsame)

/-- Zero and the whole text where there are no digits, and else the number they write and
the text behind them. -/
theorem reads_iff :
    Reads base s neg mag rest ↔
      if digits base (body s) = [] then neg = false ∧ mag = 0 ∧ rest = s
      else neg = decide (signAt (behindSpace s) = ['-']) ∧
        mag = number (radix base (body s)) (digits base (body s)) ∧
        rest = (body s).drop (longest base (body s)).length := by
  have hwhole : whole base s <+: s := ⟨_, whole_append base s⟩
  constructor
  · rintro (⟨text, heq, hform, hlongest⟩ | ⟨hrest, hneg, hmag, hnone⟩)
    · obtain ⟨hpre, hdigits, hneg, hmag⟩ := hform.prefix_whole ⟨rest, heq.symm⟩
      have hsame : text = whole base s :=
        hpre.eq_of_length_le (hlongest _ _ _ hwhole (form_whole hdigits))
      rw [if_neg hdigits]
      refine ⟨hneg, hmag hsame, ?_⟩
      have htwo := heq.symm.trans (whole_append base s).symm
      rw [hsame] at htwo
      exact List.append_cancel_left htwo
    · split
      · exact ⟨hneg, hmag, hrest⟩
      · rename_i hdigits
        exact absurd (form_whole hdigits) (hnone _ _ _ hwhole)
  · split
    · rename_i hdigits
      rintro ⟨rfl, rfl, rfl⟩
      exact .inr ⟨rfl, rfl, rfl, fun text neg' mag' hpre hform =>
        (hform.prefix_whole hpre).2.1 hdigits⟩
    · rename_i hdigits
      rintro ⟨rfl, rfl, rfl⟩
      exact .inl ⟨whole base s, (whole_append base s).symm, form_whole hdigits,
        fun longer neg' mag' hpre hform => (hform.prefix_whole hpre).1.length_le⟩

end Veron.IntegerText
