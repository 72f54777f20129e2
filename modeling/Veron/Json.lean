/-
JSON values and the text that Python's `json.dumps` writes for them with
`sort_keys`.  Distinct values have distinct texts, also when more text follows.
-/
import Mathlib.Data.Char
import Mathlib.Tactic.Common

namespace Veron.Json

/-- The characters of a number as Python writes it, `nan` and the infinities
included. -/
def numberChars : List Char :=
  ['0', '1', '2', '3', '4', '5', '6', '7', '8', '9', '-', '+', '.', 'e', 'N', 'I', 'a', 'n',
    'f', 'i', 't', 'y']

def numberStarts : List Char :=
  ['0', '1', '2', '3', '4', '5', '6', '7', '8', '9', '-', 'N', 'I']

/-- A number, by its text. -/
structure Number where
  text : List Char
  start : ∃ c t, text = c :: t ∧ c ∈ numberStarts
  chars : ∀ c ∈ text, c ∈ numberChars

/-- Values; the entries of a table stand in the order of their keys. -/
inductive Value where
  | str (s : String)
  | num (n : Number)
  | bool (b : Bool)
  | arr (vs : List Value)
  | table (entries : List (String × Value))

def hexDigit (n : ℕ) : Char :=
  ['0', '1', '2', '3', '4', '5', '6', '7', '8', '9', 'a', 'b', 'c', 'd', 'e', 'f'].getD n '0'

/-- `\uXXXX`. -/
def unit (n : ℕ) : List Char :=
  ['\\', 'u', hexDigit (n / 4096 % 16), hexDigit (n / 256 % 16), hexDigit (n / 16 % 16),
    hexDigit (n % 16)]

/-- The characters that have an escape of their own. -/
def shortEscape : Char → Option Char
  | '"' => some '"'
  | '\\' => some '\\'
  | '\n' => some 'n'
  | '\r' => some 'r'
  | '\t' => some 't'
  | '\x0c' => some 'f'
  | '\x08' => some 'b'
  | _ => none

/-- A character of a string, in ASCII; one beyond 16 bits is written as its two
surrogates. -/
def escape (c : Char) : List Char :=
  match shortEscape c with
  | some e => ['\\', e]
  | none =>
      if 0x20 ≤ c.toNat ∧ c.toNat ≤ 0x7e then [c]
      else if c.toNat < 0x10000 then unit c.toNat
      else
        unit (0xd800 + (c.toNat - 0x10000) / 1024) ++ unit (0xdc00 + (c.toNat - 0x10000) % 1024)

def escapes (t : List Char) : List Char := t.flatMap escape

def quoted (s : String) : List Char := '"' :: (escapes s.toList ++ ['"'])

mutual

def Value.dumps : Value → List Char
  | .str s => quoted s
  | .num n => n.text
  | .bool true => ['t', 'r', 'u', 'e']
  | .bool false => ['f', 'a', 'l', 's', 'e']
  | .arr [] => ['[', ']']
  | .arr (v :: vs) => '[' :: (v.dumps ++ dumpsItems vs)
  | .table [] => ['{', '}']
  | .table ((k, v) :: es) => '{' :: (quoted k ++ ':' :: ' ' :: (v.dumps ++ dumpsEntries es))

/-- The items of an array after its first. -/
def dumpsItems : List Value → List Char
  | [] => [']']
  | v :: vs => ',' :: ' ' :: (v.dumps ++ dumpsItems vs)

/-- The entries of a table after its first. -/
def dumpsEntries : List (String × Value) → List Char
  | [] => ['}']
  | (k, v) :: es =>
      ',' :: ' ' :: (quoted k ++ ':' :: ' ' :: (v.dumps ++ dumpsEntries es))

end

theorem hexDigit_inj {n m : ℕ} (hn : n < 16) (hm : m < 16) (h : hexDigit n = hexDigit m) :
    n = m := by
  have hall : ∀ n < 16, ∀ m < 16, hexDigit n = hexDigit m → n = m := by decide
  exact hall n hn m hm h

theorem unit_append_inj {n m : ℕ} {s t : List Char} (hn : n < 0x10000) (hm : m < 0x10000)
    (h : unit n ++ s = unit m ++ t) : n = m ∧ s = t := by
  simp only [unit, List.cons_append, List.nil_append, List.cons.injEq, true_and] at h
  obtain ⟨h₃, h₂, h₁, h₀, hst⟩ := h
  have e₃ := hexDigit_inj (Nat.mod_lt _ (by decide)) (Nat.mod_lt _ (by decide)) h₃
  have e₂ := hexDigit_inj (Nat.mod_lt _ (by decide)) (Nat.mod_lt _ (by decide)) h₂
  have e₁ := hexDigit_inj (Nat.mod_lt _ (by decide)) (Nat.mod_lt _ (by decide)) h₁
  have e₀ := hexDigit_inj (Nat.mod_lt _ (by decide)) (Nat.mod_lt _ (by decide)) h₀
  exact ⟨by omega, hst⟩

theorem shortEscape_inj {c d e : Char} (hc : shortEscape c = some e)
    (hd : shortEscape d = some e) : c = d := by
  unfold shortEscape at hc hd
  split at hc <;> cases hc <;> split at hd <;> first | rfl | cases hd

theorem shortEscape_ne_u {c e : Char} (h : shortEscape c = some e) : e ≠ 'u' := by
  unfold shortEscape at h
  split at h <;> cases h <;> decide

/-- The four shapes of an escape; a first surrogate is no character of its own. -/
theorem escape_cases (c : Char) :
    (∃ e, shortEscape c = some e ∧ escape c = ['\\', e]) ∨
    (c ≠ '\\' ∧ c ≠ '"' ∧ 0x20 ≤ c.toNat ∧ c.toNat ≤ 0x7e ∧ escape c = [c]) ∨
    ((c.toNat < 0xd800 ∨ 0xe000 ≤ c.toNat) ∧ c.toNat < 0x10000 ∧ escape c = unit c.toNat) ∨
    (0x10000 ≤ c.toNat ∧ c.toNat < 0x110000 ∧
      escape c = unit (0xd800 + (c.toNat - 0x10000) / 1024) ++
        unit (0xdc00 + (c.toNat - 0x10000) % 1024)) := by
  cases hshort : shortEscape c with
  | some e => exact .inl ⟨e, rfl, by simp [escape, hshort]⟩
  | none =>
      have hvalid : c.toNat < 0xd800 ∨ 0xdfff < c.toNat ∧ c.toNat < 0x110000 := c.valid
      by_cases hplain : 0x20 ≤ c.toNat ∧ c.toNat ≤ 0x7e
      · refine .inr (.inl ⟨?_, ?_, hplain.1, hplain.2, by simp [escape, hshort, hplain]⟩)
        · rintro rfl
          cases hshort
        · rintro rfl
          cases hshort
      · by_cases hsmall : c.toNat < 0x10000
        · exact .inr (.inr (.inl ⟨by omega, hsmall, by simp [escape, hshort, hplain, hsmall]⟩))
        · exact .inr (.inr (.inr ⟨by omega, by omega,
            by simp [escape, hshort, hplain, hsmall]⟩))

theorem escape_append_inj {c d : Char} {s t : List Char} (h : escape c ++ s = escape d ++ t) :
    c = d ∧ s = t := by
  rcases escape_cases c with ⟨e, hc, ec⟩ | ⟨hc, -, -, -, ec⟩ | ⟨hc, hc', ec⟩ | ⟨hc, hc', ec⟩ <;>
  rcases escape_cases d with ⟨f, hd, ed⟩ | ⟨hd, -, -, -, ed⟩ | ⟨hd, hd', ed⟩ | ⟨hd, hd', ed⟩ <;>
  rw [ec, ed] at h
  · obtain ⟨rfl, hst⟩ : e = f ∧ s = t := by simpa using h
    exact ⟨shortEscape_inj hc hd, hst⟩
  · simp [hd.symm] at h
  · simp [unit, shortEscape_ne_u hc] at h
  · simp [unit, shortEscape_ne_u hc] at h
  · simp_all
  · simpa using h
  · simp_all [unit]
  · simp_all [unit]
  · simp [unit, (shortEscape_ne_u hd).symm] at h
  · simp [unit, hd.symm] at h
  · obtain ⟨hcd, hst⟩ := unit_append_inj hc' hd' h
    exact ⟨Char.toNat_inj.mp hcd, hst⟩
  · rw [List.append_assoc] at h
    have := (unit_append_inj hc' (by omega) h).1
    omega
  · simp [unit, (shortEscape_ne_u hd).symm] at h
  · simp [unit, hd.symm] at h
  · rw [List.append_assoc] at h
    have := (unit_append_inj (by omega) hd' h).1
    omega
  · rw [List.append_assoc, List.append_assoc] at h
    obtain ⟨hhigh, h⟩ := unit_append_inj (by omega) (by omega) h
    obtain ⟨hlow, hst⟩ := unit_append_inj (by omega) (by omega) h
    exact ⟨Char.toNat_inj.mp (by omega), hst⟩

theorem escape_head (c : Char) : ∃ a r, escape c = a :: r ∧ a ≠ '"' := by
  rcases escape_cases c with ⟨e, -, ec⟩ | ⟨-, hquote, -, -, ec⟩ | ⟨-, -, ec⟩ | ⟨-, -, ec⟩
  · exact ⟨_, _, ec, by decide⟩
  · exact ⟨_, _, ec, hquote⟩
  · exact ⟨_, _, ec, by decide⟩
  · exact ⟨_, _, ec, by decide⟩

theorem escapes_append_inj {a b s t : List Char}
    (h : escapes a ++ '"' :: s = escapes b ++ '"' :: t) : a = b ∧ s = t := by
  induction a generalizing b with
  | nil =>
      cases b with
      | nil => simpa [escapes] using h
      | cons d b =>
          obtain ⟨x, r, hx, hne⟩ := escape_head d
          simp [escapes, hx, Ne.symm hne] at h
  | cons c a ih =>
      cases b with
      | nil =>
          obtain ⟨x, r, hx, hne⟩ := escape_head c
          simp [escapes, hx, hne] at h
      | cons d b =>
          simp only [escapes, List.flatMap_cons, List.append_assoc] at h
          obtain ⟨hcd, h⟩ := escape_append_inj h
          obtain ⟨hab, hst⟩ := ih h
          exact ⟨by rw [hcd, hab], hst⟩

theorem quoted_append_inj {a b : String} {s t : List Char} (h : quoted a ++ s = quoted b ++ t) :
    a = b ∧ s = t := by
  simp only [quoted, List.cons_append, List.append_assoc, List.nil_append, List.cons.injEq,
    true_and] at h
  obtain ⟨hab, hst⟩ := escapes_append_inj h
  exact ⟨String.toList_inj.mp hab, hst⟩

/-- No number goes on into `s`. -/
def Ends (s : List Char) : Prop := ∀ c t, s = c :: t → c ∉ numberChars

theorem Ends.nil : Ends [] := by
  intro c t h
  cases h

theorem Ends.cons {c : Char} (s : List Char) (h : c ∉ numberChars) : Ends (c :: s) := by
  intro d t heq
  obtain ⟨rfl, -⟩ := List.cons.inj heq
  exact h

theorem Number.append_inj {n m : Number} {s t : List Char} (hs : Ends s) (ht : Ends t)
    (h : n.text ++ s = m.text ++ t) : n = m ∧ s = t := by
  have hext : n.text = m.text → n = m ∧ s = t := by
    intro htext
    rw [htext] at h
    cases n
    cases m
    exact ⟨by simpa using htext, List.append_cancel_left h⟩
  rcases List.append_eq_append_iff.mp h with ⟨r, hr, hrs⟩ | ⟨r, hr, hrt⟩
  · cases r with
    | nil => exact hext (by simpa using hr.symm)
    | cons c r => exact absurd (m.chars c (by simp [hr])) (hs c _ (by simpa using hrs))
  · cases r with
    | nil => exact hext (by simpa using hr)
    | cons c r => exact absurd (n.chars c (by simp [hr])) (ht c _ (by simpa using hrt))

/-- The first character of a value's text. -/
def Value.StartsWith (c : Char) : Value → Prop
  | .str _ => c = '"'
  | .num _ => c ∈ numberStarts
  | .bool true => c = 't'
  | .bool false => c = 'f'
  | .arr _ => c = '['
  | .table _ => c = '{'

theorem Value.dumps_head (v : Value) : ∃ c r, v.dumps = c :: r ∧ v.StartsWith c := by
  cases v with
  | str s => exact ⟨_, _, by rw [Value.dumps, quoted], rfl⟩
  | num n =>
      obtain ⟨c, r, htext, hc⟩ := n.start
      exact ⟨c, r, by rw [Value.dumps, htext], hc⟩
  | bool b => cases b <;> exact ⟨_, _, by rw [Value.dumps], rfl⟩
  | arr vs => cases vs <;> exact ⟨_, _, by rw [Value.dumps], rfl⟩
  | table es => cases es <;> exact ⟨_, _, by rw [Value.dumps], rfl⟩

theorem Value.dumps_ne_close (v : Value) (s t : List Char) : v.dumps ++ s ≠ ']' :: t := by
  intro h
  obtain ⟨c, r, hv, hc⟩ := v.dumps_head
  rw [hv] at h
  obtain ⟨rfl, -⟩ := List.cons.inj h
  revert hc
  cases v with
  | bool b => cases b <;> simp [Value.StartsWith]
  | _ => simp [Value.StartsWith, numberStarts]

theorem ends_dumpsItems (vs : List Value) (s : List Char) : Ends (dumpsItems vs ++ s) := by
  cases vs <;> exact Ends.cons _ (by decide)

theorem ends_dumpsEntries (es : List (String × Value)) (s : List Char) :
    Ends (dumpsEntries es ++ s) := by
  cases es <;> exact Ends.cons _ (by decide)

/-- Values whose texts begin alike are of one shape. -/
theorem Value.startsWith_disjoint {v w : Value} {c : Char} (hv : v.StartsWith c)
    (hw : w.StartsWith c) :
    (∃ a b, v = .str a ∧ w = .str b) ∨ (∃ n m, v = .num n ∧ w = .num m) ∨
    (∃ b, v = .bool b ∧ w = .bool b) ∨ (∃ vs ws, v = .arr vs ∧ w = .arr ws) ∨
    (∃ es fs, v = .table es ∧ w = .table fs) := by
  cases v with
  | str a => cases w with
    | str b => exact .inl ⟨a, b, rfl, rfl⟩
    | bool b => cases b <;> simp_all [Value.StartsWith]
    | _ => simp_all [Value.StartsWith, numberStarts]
  | num n => cases w with
    | num m => exact .inr (.inl ⟨n, m, rfl, rfl⟩)
    | bool b => cases b <;> simp_all [Value.StartsWith, numberStarts]
    | _ => simp_all [Value.StartsWith, numberStarts]
  | bool a => cases w with
    | bool b => cases a <;> cases b <;> simp_all [Value.StartsWith]
    | _ => cases a <;> simp_all [Value.StartsWith, numberStarts]
  | arr vs => cases w with
    | arr ws => exact .inr (.inr (.inr (.inl ⟨vs, ws, rfl, rfl⟩)))
    | bool b => cases b <;> simp_all [Value.StartsWith]
    | _ => simp_all [Value.StartsWith, numberStarts]
  | table es => cases w with
    | table fs => exact .inr (.inr (.inr (.inr ⟨es, fs, rfl, rfl⟩)))
    | bool b => cases b <;> simp_all [Value.StartsWith]
    | _ => simp_all [Value.StartsWith, numberStarts]

theorem Value.shape_eq {v w : Value} {s t : List Char} (h : v.dumps ++ s = w.dumps ++ t) :
    (∃ a b, v = .str a ∧ w = .str b) ∨ (∃ n m, v = .num n ∧ w = .num m) ∨
    (∃ b, v = .bool b ∧ w = .bool b) ∨ (∃ vs ws, v = .arr vs ∧ w = .arr ws) ∨
    (∃ es fs, v = .table es ∧ w = .table fs) := by
  obtain ⟨c, r, hv, hc⟩ := v.dumps_head
  obtain ⟨d, q, hw, hd⟩ := w.dumps_head
  rw [hv, hw] at h
  obtain ⟨rfl, -⟩ := List.cons.inj h
  exact Value.startsWith_disjoint hc hd

mutual

/-- No text of a value continues another's. -/
theorem Value.dumps_append_inj (v w : Value) {s t : List Char} (hs : Ends s) (ht : Ends t)
    (h : v.dumps ++ s = w.dumps ++ t) : v = w ∧ s = t := by
  rcases Value.shape_eq h with ⟨a, b, hv, rfl⟩ | ⟨n, m, hv, rfl⟩ | ⟨b, hv, rfl⟩ |
    ⟨vs, ws, hv, rfl⟩ | ⟨es, fs, hv, rfl⟩
  · subst hv
    rw [Value.dumps, Value.dumps] at h
    obtain ⟨rfl, hst⟩ := quoted_append_inj h
    exact ⟨rfl, hst⟩
  · subst hv
    rw [Value.dumps, Value.dumps] at h
    obtain ⟨rfl, hst⟩ := Number.append_inj hs ht h
    exact ⟨rfl, hst⟩
  · subst hv
    exact ⟨rfl, List.append_cancel_left h⟩
  · match v, hv with
    | .arr [], rfl => cases ws with
      | nil => exact ⟨rfl, List.append_cancel_left h⟩
      | cons w ws =>
          simp only [Value.dumps, List.cons_append, List.nil_append, List.cons.injEq, true_and,
            List.append_assoc] at h
          exact absurd h.symm (w.dumps_ne_close _ _)
    | .arr (v :: vs), rfl => cases ws with
      | nil =>
          simp only [Value.dumps, List.cons_append, List.nil_append, List.cons.injEq, true_and,
            List.append_assoc] at h
          exact absurd h (v.dumps_ne_close _ _)
      | cons w ws =>
          simp only [Value.dumps, List.cons_append, List.cons.injEq, true_and,
            List.append_assoc] at h
          obtain ⟨hvw, h⟩ := Value.dumps_append_inj v w (ends_dumpsItems vs s)
            (ends_dumpsItems ws t) h
          obtain ⟨hvs, hst⟩ := dumpsItems_append_inj vs ws h
          exact ⟨by rw [hvw, hvs], hst⟩
  · match v, hv with
    | .table [], rfl => cases fs with
      | nil => exact ⟨rfl, List.append_cancel_left h⟩
      | cons f fs => simp [Value.dumps, quoted] at h
    | .table ((j, v) :: es), rfl => cases fs with
      | nil => simp [Value.dumps, quoted] at h
      | cons f fs =>
          obtain ⟨k, w⟩ := f
          simp only [Value.dumps, List.cons_append, List.cons.injEq, true_and,
            List.append_assoc] at h
          obtain ⟨hjk, h⟩ := quoted_append_inj h
          simp only [List.cons.injEq, true_and] at h
          obtain ⟨hvw, h⟩ := Value.dumps_append_inj v w (ends_dumpsEntries es s)
            (ends_dumpsEntries fs t) h
          obtain ⟨hes, hst⟩ := dumpsEntries_append_inj es fs h
          exact ⟨by rw [hjk, hvw, hes], hst⟩

theorem dumpsItems_append_inj (vs ws : List Value) {s t : List Char}
    (h : dumpsItems vs ++ s = dumpsItems ws ++ t) : vs = ws ∧ s = t := by
  match vs, ws with
  | [], [] => exact ⟨rfl, List.append_cancel_left h⟩
  | [], w :: ws => simp [dumpsItems] at h
  | v :: vs, [] => simp [dumpsItems] at h
  | v :: vs, w :: ws =>
      simp only [dumpsItems, List.cons_append, List.cons.injEq, true_and, List.append_assoc] at h
      obtain ⟨hvw, h⟩ := Value.dumps_append_inj v w (ends_dumpsItems vs s)
        (ends_dumpsItems ws t) h
      obtain ⟨hvs, hst⟩ := dumpsItems_append_inj vs ws h
      exact ⟨by rw [hvw, hvs], hst⟩

theorem dumpsEntries_append_inj (es fs : List (String × Value)) {s t : List Char}
    (h : dumpsEntries es ++ s = dumpsEntries fs ++ t) : es = fs ∧ s = t := by
  match es, fs with
  | [], [] => exact ⟨rfl, List.append_cancel_left h⟩
  | [], f :: fs => simp [dumpsEntries] at h
  | e :: es, [] => simp [dumpsEntries] at h
  | (j, v) :: es, (k, w) :: fs =>
      simp only [dumpsEntries, List.cons_append, List.cons.injEq, true_and,
        List.append_assoc] at h
      obtain ⟨hjk, h⟩ := quoted_append_inj h
      simp only [List.cons.injEq, true_and] at h
      obtain ⟨hvw, h⟩ := Value.dumps_append_inj v w (ends_dumpsEntries es s)
        (ends_dumpsEntries fs t) h
      obtain ⟨hes, hst⟩ := dumpsEntries_append_inj es fs h
      exact ⟨by rw [hjk, hvw, hes], hst⟩

end

theorem Value.dumps_inj {v w : Value} (h : v.dumps = w.dumps) : v = w :=
  (Value.dumps_append_inj v w Ends.nil Ends.nil (by rw [h])).1

/-- What `dumps` writes is printable ASCII. -/
def Printable (c : Char) : Prop := 0x20 ≤ c.toNat ∧ c.toNat ≤ 0x7e

instance : DecidablePred Printable :=
  fun c => inferInstanceAs (Decidable (0x20 ≤ c.toNat ∧ c.toNat ≤ 0x7e))

theorem printable_of_all {t : List Char} (h : t.all fun c => Printable c) :
    ∀ c ∈ t, Printable c := by
  simpa using h

theorem printable_unit (n : ℕ) : ∀ c ∈ unit n, Printable c := by
  have hdigit : ∀ k < 16, Printable (hexDigit k) := by decide
  simp only [unit, List.mem_cons, List.not_mem_nil, or_false, forall_eq_or_imp, forall_eq]
  exact ⟨by decide, by decide, hdigit _ (Nat.mod_lt _ (by decide)),
    hdigit _ (Nat.mod_lt _ (by decide)), hdigit _ (Nat.mod_lt _ (by decide)),
    hdigit _ (Nat.mod_lt _ (by decide))⟩

theorem printable_escape (c : Char) : ∀ d ∈ escape c, Printable d := by
  rcases escape_cases c with ⟨e, he, ec⟩ | ⟨-, -, hlo, hhi, ec⟩ | ⟨-, -, ec⟩ | ⟨-, -, ec⟩ <;>
    rw [ec]
  · have hshort : Printable e := by
      unfold shortEscape at he
      split at he <;> cases he <;> decide
    simp only [List.mem_cons, List.not_mem_nil, or_false, forall_eq_or_imp, forall_eq]
    exact ⟨by decide, hshort⟩
  · simpa [Printable] using ⟨hlo, hhi⟩
  · exact printable_unit _
  · intro d hd
    rcases List.mem_append.mp hd with hd | hd <;> exact printable_unit _ d hd

theorem printable_quoted (s : String) : ∀ c ∈ quoted s, Printable c := by
  intro c hc
  simp only [quoted, escapes, List.mem_cons, List.mem_append, List.mem_flatMap,
    List.not_mem_nil, or_false] at hc
  rcases hc with rfl | ⟨d, -, hc⟩ | rfl
  · decide
  · exact printable_escape d c hc
  · decide

theorem Number.printable (n : Number) : ∀ c ∈ n.text, Printable c := by
  have hall : ∀ c ∈ numberChars, Printable c := printable_of_all (by decide)
  exact fun c hc => hall c (n.chars c hc)

mutual

theorem Value.printable (v : Value) : ∀ c ∈ v.dumps, Printable c := by
  match v with
  | .str s => exact printable_quoted s
  | .num n => exact n.printable
  | .bool true => exact printable_of_all (by decide)
  | .bool false => exact printable_of_all (by decide)
  | .arr [] => exact printable_of_all (by decide)
  | .arr (v :: vs) =>
      have hv := v.printable
      have hvs := printable_items vs
      intro c hc
      simp only [Value.dumps, List.mem_cons, List.mem_append] at hc
      rcases hc with rfl | hc | hc
      · decide
      · exact hv c hc
      · exact hvs c hc
  | .table [] => exact printable_of_all (by decide)
  | .table ((k, v) :: es) =>
      have hv := v.printable
      have hes := printable_entries es
      intro c hc
      simp only [Value.dumps, List.mem_cons, List.mem_append] at hc
      rcases hc with rfl | hc | rfl | rfl | hc | hc
      · decide
      · exact printable_quoted k c hc
      · decide
      · decide
      · exact hv c hc
      · exact hes c hc

theorem printable_items (vs : List Value) : ∀ c ∈ dumpsItems vs, Printable c := by
  match vs with
  | [] => exact printable_of_all (by decide)
  | v :: vs =>
      have hv := v.printable
      have hvs := printable_items vs
      intro c hc
      simp only [dumpsItems, List.mem_cons, List.mem_append] at hc
      rcases hc with rfl | rfl | hc | hc
      · decide
      · decide
      · exact hv c hc
      · exact hvs c hc

theorem printable_entries (es : List (String × Value)) :
    ∀ c ∈ dumpsEntries es, Printable c := by
  match es with
  | [] => exact printable_of_all (by decide)
  | (k, v) :: es =>
      have hv := v.printable
      have hes := printable_entries es
      intro c hc
      simp only [dumpsEntries, List.mem_cons, List.mem_append] at hc
      rcases hc with rfl | rfl | hc | rfl | rfl | hc | hc
      · decide
      · decide
      · exact printable_quoted k c hc
      · decide
      · decide
      · exact hv c hc
      · exact hes c hc

end

end Veron.Json
