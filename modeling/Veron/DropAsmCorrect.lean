/-
`drop_asm.py` leaves out the functions with an `asm` statement and nothing else just where it
finds each of them, and where each begins: the exact condition, part by part.
-/
import Mathlib.Data.List.ReduceOption
import Mathlib.Order.MinMax
import Veron.DropAsmParts

namespace Veron.DropAsm

open TextMode
open OctalToDecimal (Element render)

def asmWords : List Text := ["asm".toList, "__asm".toList, "__asm__".toList]

def qualifiers : List Text :=
  ["volatile".toList, "__volatile__".toList, "inline".toList, "goto".toList]

/-- What may stand between `asm` and its parenthesis. -/
def Between : Element → Prop
  | .blank _ | .lineComment _ | .blockComment _ => True
  | .word w => w ∈ qualifiers
  | _ => False

def HasAsm (es : List Element) : Prop :=
  ∃ a w between b, es = a ++ .word w :: (between ++ .punctuator '(' :: b) ∧ w ∈ asmWords ∧
    ∀ e ∈ between, Between e

/-- The definition of a function whose body holds an `asm` statement. -/
def Part.Asm (p : Part) : Prop := p.head ≠ [] ∧ HasAsm p.body

/-- A character of what is left out; the lines stay. -/
def keepLine (c : Char) : Option Char := if c = '\n' then some c else none

open Classical in
/-- Each character of a part, written or left out. -/
noncomputable def Part.wanted (p : Part) : List (Option Char) :=
  if p.Asm then (render p.before).map some ++ (render (p.head ++ p.body)).map keepLine
  else p.text.map some

noncomputable def CFile.wanted (f : CFile) : List (Option Char) :=
  f.parts.flatMap Part.wanted ++ (render f.tail).map some

/-- What the cuts make of each character of a text that begins at some offset. -/
def fateFrom (off : ℕ) (cuts : List (ℕ × ℕ)) (text : Text) : List (Option Char) :=
  text.mapIdx fun k c =>
    if c ≠ '\n' ∧ ∃ cut ∈ cuts, cut.1 ≤ off + k ∧ off + k < cut.2 then none else some c

def fate (text : Text) : List (Option Char) := fateFrom 0 (cuts text) text

open Classical in
/-- Is a character of a part to stay? -/
noncomputable def Part.keeps (p : Part) : List Bool :=
  if p.Asm then (render p.before).map (fun _ => true) ++
    (render (p.head ++ p.body)).map fun _ => false
  else p.text.map fun _ => true

noncomputable def CFile.keeps (f : CFile) : List Bool :=
  f.parts.flatMap Part.keeps ++ (render f.tail).map fun _ => true

def wantedPiece (keep : Bool) (x : Piece) : List Coded :=
  if keep then x.raw else write (keepLine x.read).toList

/-- What should be written for each piece of the file. -/
noncomputable def CFile.wantedPieces (f : CFile) : List (List Coded) :=
  List.zipWith wantedPiece f.keeps (pieces f.file)

/-- What is written for each. -/
def CFile.writtenPieces (f : CFile) : Option (List (List Coded)) :=
  (readStrict f.file).map fun text => (fate text).map fun c => write c.toList

/-- What is to stay is read as it stands there: it has no carriage return. -/
def CFile.Returnless (f : CFile) : Prop :=
  ∀ kx ∈ f.keeps.zip (pieces f.file), kx.1 = true → ∃ c, kx.2 = .coded (.char c)

/-- The end of a declaration or a blank line. -/
def Parted (m : Text) : Prop := ';' ∈ m ∨ ['\n', '\n'] <:+: m

/-- Up to the ends of some lines all is parted off; an end of a declaration at the very beginning
does not count. -/
def Clear (m : Text) : Prop :=
  (∀ c ∈ m, c = '\n') ∨ ['\n', '\n'] <:+ m ∨
    ∃ a lines, a ≠ [] ∧ m = a ++ ';' :: lines ∧ ∀ c ∈ lines, c = '\n'

structure Part.Found (p : Part) : Prop where
  call : asmCall <:+: render (p.head ++ p.body)
  before : Clear (visible p.before)
  head : ¬ Parted (visible p.head)

structure Part.Kept (p : Part) : Prop where
  body : ¬ asmCall <:+: render p.body
  lead : ∀ a b, render p.lead = a ++ (asmCall ++ b) → Parted ((visible p.lead).drop a.length)

def Part.Fine (p : Part) : Prop := (p.Asm → p.Found) ∧ (¬ p.Asm → p.Kept)

variable {p : Text → Bool} {m a b s : Text} {k : ℕ}

theorem rfind_append (hs : s ≠ []) (hp : p s = true) (a : Text) :
    ∃ k, rfind p (a ++ s) = some k ∧ a.length ≤ k := by
  induction a with
  | nil =>
      cases s with
      | nil => exact absurd rfl hs
      | cons c s =>
          rw [List.nil_append, rfind]
          cases rfind p s with
          | some k => exact ⟨k + 1, rfl, Nat.zero_le _⟩
          | none => exact ⟨0, if_pos hp, Nat.le_refl _⟩
  | cons c a ih =>
      obtain ⟨k, hk, hle⟩ := ih
      exact ⟨k + 1, by rw [List.cons_append, rfind, hk], Nat.succ_le_succ hle⟩

theorem of_rfind (h : rfind p m = some k) : ∃ a s, m = a ++ s ∧ a.length = k ∧ p s = true := by
  induction m generalizing k with
  | nil => cases h
  | cons c m ih =>
      rw [rfind] at h
      cases hrest : rfind p m with
      | some j =>
          rw [hrest] at h
          obtain ⟨a, s, rfl, hlength, hp⟩ := ih hrest
          cases h
          exact ⟨c :: a, s, rfl, congrArg (· + 1) hlength, hp⟩
      | none =>
          rw [hrest] at h
          obtain ⟨hp, hk⟩ := Option.ite_none_right_eq_some.mp h
          cases hk
          exact ⟨[], c :: m, rfl, rfl, hp⟩

theorem terminator_lt_startIn {c : Char} (hc : isTerminator c = true) (ha : a ≠ []) :
    a.length < startIn (a ++ c :: b) := by
  obtain ⟨d, a, rfl⟩ := List.exists_cons_of_ne_nil ha
  obtain ⟨k, hk, hle⟩ := @rfind_append atTerminator (c :: b) (List.cons_ne_nil c b) hc a
  rw [startIn, List.cons_append, List.tail_cons, hk]
  exact Nat.lt_of_lt_of_le (Nat.lt_succ_of_le (Nat.succ_le_succ hle)) (Nat.le_max_left _ _)

theorem blank_lt_startIn : a.length < startIn (a ++ '\n' :: '\n' :: b) := by
  obtain ⟨k, hk, hle⟩ := @rfind_append atBlank ('\n' :: '\n' :: b) (List.cons_ne_nil _ _) rfl a
  rw [startIn, hk]
  exact Nat.lt_of_lt_of_le (Nat.lt_succ_of_le hle) (Nat.le_max_right _ _)

/-- A part begins at the beginning, behind a terminator or in a blank line. -/
theorem startIn_cases (m : Text) : startIn m = 0 ∨
    (∃ a c b, m = a ++ c :: b ∧ isTerminator c = true ∧ a ≠ [] ∧ startIn m = a.length + 1) ∨
    ∃ a b, m = a ++ '\n' :: '\n' :: b ∧ startIn m = a.length + 1 := by
  have hstart : startIn m = _ ∨ startIn m = _ := max_choice _ _
  rcases hstart with hmax | hmax
  · cases hfind : rfind atTerminator m.tail with
    | none =>
        rw [hfind] at hmax
        exact .inl hmax
    | some k =>
        rw [hfind] at hmax
        obtain ⟨a, s, hm, rfl, hs⟩ := of_rfind hfind
        cases s with
        | nil => cases hs
        | cons c b =>
            cases m with
            | nil =>
                cases a <;> cases hm
            | cons d m =>
                obtain rfl : m = a ++ c :: b := hm
                exact .inr (.inl ⟨d :: a, c, b, rfl, hs, List.cons_ne_nil _ _, hmax⟩)
  · cases hfind : rfind atBlank m with
    | none =>
        rw [hfind] at hmax
        exact .inl hmax
    | some k =>
        rw [hfind] at hmax
        obtain ⟨a, s, rfl, rfl, hs⟩ := of_rfind hfind
        obtain ⟨b, rfl⟩ := List.isPrefixOf_iff_prefix.mp hs
        exact .inr (.inr ⟨a, b, rfl, hmax⟩)

theorem startIn_le (m : Text) : startIn m ≤ m.length := by
  rcases startIn_cases m with h | ⟨a, c, b, hm, -, -, h⟩ | ⟨a, b, hm, h⟩
  · omega
  · rw [h, hm]
    simp
  · rw [h, hm]
    simp

/-- A character of two texts stands in the first or in the second. -/
theorem split_cases {r t : Text} {e : Char} (h : m ++ r = a ++ e :: t) :
    (∃ u, m = a ++ e :: u ∧ t = u ++ r) ∨ ∃ u, r = u ++ e :: t ∧ a = m ++ u := by
  rcases List.append_eq_append_iff.mp h with ⟨u, ha, hr⟩ | ⟨u, hm, ht⟩
  · exact .inr ⟨u, hr, ha⟩
  · cases u with
    | nil => exact .inr ⟨[], ht.symm, by rw [hm, List.append_nil, List.append_nil]⟩
    | cons d u =>
        cases ht
        exact .inl ⟨u, hm, rfl⟩

theorem drop_behind (a : Text) (e : Char) (t : Text) : (a ++ e :: t).drop (a.length + 1) = t := by
  induction a with
  | nil => rfl
  | cons d a ih => exact ih

theorem suffix_of_lines (a : Text) {t : Text} (h : ∀ d ∈ t, d = '\n') :
    ['\n', '\n'] <:+ a ++ '\n' :: '\n' :: t := by
  refine ⟨a ++ List.replicate t.length '\n', ?_⟩
  have hlines : List.replicate t.length '\n' ++ List.replicate 2 '\n' = '\n' :: '\n' :: t := by
    rw [List.replicate_append_replicate, List.replicate_succ, List.replicate_succ,
      ← List.eq_replicate_iff.mpr ⟨rfl, h⟩]
  rw [List.append_assoc]
  exact congrArg (a ++ ·) hlines

section Start

variable {h : Text} {c : Char}

theorem eq_semicolon {e : Char} (hclose : '}' ∉ m) (hm : m = a ++ e :: b)
    (he : isTerminator e = true) : e = ';' := by
  rw [isTerminator, Bool.or_eq_true, decide_eq_true_eq, decide_eq_true_eq] at he
  refine he.resolve_right ?_
  rintro rfl
  exact hclose (by rw [hm]; simp)

theorem clear_of_startIn (hline : c ≠ '\n') (hclose : '}' ∉ m ++ c :: h)
    (hle : startIn (m ++ c :: h) ≤ m.length)
    (hlines : ∀ d ∈ m.drop (startIn (m ++ c :: h)), d = '\n') : Clear m := by
  rcases startIn_cases (m ++ c :: h) with hs | ⟨a, e, b, hm, he, ha, hs⟩ | ⟨a, b, hm, hs⟩
  · rw [hs] at hlines
    exact .inl hlines
  · cases eq_semicolon hclose hm he
    rcases split_cases hm with ⟨u, rfl, -⟩ | ⟨u, -, rfl⟩
    · rw [hs, drop_behind] at hlines
      exact .inr (.inr ⟨a, u, ha, rfl, hlines⟩)
    · rw [hs, List.length_append] at hle
      omega
  · rcases split_cases hm with ⟨u, rfl, hu⟩ | ⟨u, -, rfl⟩
    · rw [hs, drop_behind] at hlines
      cases u with
      | nil => exact absurd (List.cons.inj hu).1.symm hline
      | cons d u =>
          obtain rfl : '\n' = d := (List.cons.inj hu).1
          exact .inr (.inl (suffix_of_lines a fun d hd => hlines d (List.mem_cons_of_mem _ hd)))
    · rw [hs, List.length_append] at hle
      omega

theorem not_parted_of_startIn (hsemi : c ≠ ';') (hle : startIn (m ++ c :: h) ≤ m.length) :
    ¬ Parted (c :: h) := by
  rintro (hmem | ⟨a, b, hin⟩)
  · obtain ⟨a, b, hab⟩ := List.append_of_mem hmem
    have ha : a ≠ [] := by
      rintro rfl
      exact hsemi (List.cons.inj hab).1
    have hlt := @terminator_lt_startIn (m ++ a) b ';' rfl (by simp [ha])
    rw [List.append_assoc, ← hab, List.length_append] at hlt
    omega
  · have hlt := @blank_lt_startIn (m ++ a) b
    have heq : m ++ a ++ '\n' :: '\n' :: b = m ++ c :: h := by rw [← hin]; simp
    rw [heq, List.length_append] at hlt
    omega

theorem startIn_le_of_not_parted (hclose : '}' ∉ m ++ c :: h)
    (hhead : ¬ Parted (c :: h)) : startIn (m ++ c :: h) ≤ m.length := by
  rcases startIn_cases (m ++ c :: h) with hs | ⟨a, e, b, hm, he, -, hs⟩ | ⟨a, b, hm, hs⟩
  · omega
  · cases eq_semicolon hclose hm he
    rcases split_cases hm with ⟨u, rfl, -⟩ | ⟨u, hu, -⟩
    · rw [hs, List.length_append, List.length_cons]
      omega
    · exact absurd (.inl (by rw [hu]; simp)) hhead
  · rcases split_cases hm with ⟨u, rfl, -⟩ | ⟨u, hu, -⟩
    · rw [hs, List.length_append, List.length_cons]
      omega
    · exact absurd (.inr ⟨u, b, by rw [hu]; simp⟩) hhead

theorem lines_of_clear (hclear : Clear m) : ∀ d ∈ m.drop (startIn (m ++ h)), d = '\n' := by
  intro d hd
  rcases hclear with hall | ⟨a, rfl⟩ | ⟨a, lines, ha, rfl, hall⟩
  · exact hall d (List.mem_of_mem_drop hd)
  · have hlt := @blank_lt_startIn a h
    rw [List.append_assoc] at hd
    have hmem := List.drop_subset_drop_left _ hlt hd
    rw [Nat.succ_eq_add_one, drop_behind] at hmem
    exact List.mem_singleton.mp hmem
  · have hlt := @terminator_lt_startIn a (lines ++ h) ';' rfl ha
    rw [List.append_assoc] at hd
    have hmem := List.drop_subset_drop_left _ hlt hd
    rw [Nat.succ_eq_add_one, drop_behind] at hmem
    exact hall d hmem

/-- A group begins in front of the head, with ends of lines only up to that. -/
theorem startIn_clear_iff (hsemi : c ≠ ';') (hline : c ≠ '\n') (hclose : '}' ∉ m ++ c :: h) :
    (startIn (m ++ c :: h) ≤ m.length ∧ ∀ d ∈ m.drop (startIn (m ++ c :: h)), d = '\n') ↔
      Clear m ∧ ¬ Parted (c :: h) := by
  constructor
  · rintro ⟨hle, hlines⟩
    exact ⟨clear_of_startIn hline hclose hle hlines, not_parted_of_startIn hsemi hle⟩
  · rintro ⟨hclear, hhead⟩
    exact ⟨startIn_le_of_not_parted hclose hhead, lines_of_clear hclear⟩

end Start

/-- Behind the start of a group, as much is left of a text as the parted ends in it allow. -/
theorem parted_of_lt_startIn (hclose : '}' ∉ m) {n : ℕ} (h : n < startIn m) :
    Parted (m.drop n) := by
  rcases startIn_cases m with hs | ⟨a, e, b, hm, he, -, hs⟩ | ⟨a, b, hm, hs⟩
  · omega
  · cases eq_semicolon hclose hm he
    left
    rw [hm, List.drop_append_of_le_length (by omega)]
    simp
  · right
    rw [hm, List.drop_append_of_le_length (by omega)]
    exact ⟨a.drop n, b, by simp⟩

theorem lt_startIn_of_parted {n : ℕ} (hfirst : n = 0 → m.head? ≠ some ';')
    (h : Parted (m.drop n)) : n < startIn m := by
  have hsplit := List.take_append_drop n m
  rcases h with hmem | ⟨a, b, hin⟩
  · obtain ⟨a, b, hab⟩ := List.append_of_mem hmem
    have hlong : n ≤ (m.take n ++ a).length := by
      have := List.length_pos_of_mem hmem
      rw [List.length_drop] at this
      rw [List.length_append, List.length_take]
      omega
    rw [hab, ← List.append_assoc] at hsplit
    have hne : m.take n ++ a ≠ [] := by
      intro hnil
      rw [hnil] at hsplit hlong
      exact hfirst (Nat.le_zero.mp hlong) (by rw [← hsplit]; rfl)
    have hlt := @terminator_lt_startIn _ b ';' rfl hne
    rw [hsplit] at hlt
    omega
  · have hlong : n ≤ (m.take n ++ a).length := by
      have := congrArg List.length hin
      rw [List.length_append, List.length_append, List.length_drop] at this
      rw [List.length_append, List.length_take]
      simp at this
      omega
    have heq : m.take n ++ a ++ '\n' :: '\n' :: b = m := by
      conv_rhs => rw [← hsplit, ← hin]
      simp
    have hlt := @blank_lt_startIn (m.take n ++ a) b
    rw [heq] at hlt
    omega

/-- What the tool looks through for `asm(` in a group: in front of it no more than `Parted`
leaves. -/
theorem call_iff {lead body : Text} (hmask : List.Forall₂ MasksTo lead m) (hclose : '}' ∉ m)
    (hopen : body.head? = some '{') :
    ¬ asmCall <:+: (lead ++ body).drop (startIn m) ↔
      ¬ asmCall <:+: body ∧ ∀ a b, lead = a ++ (asmCall ++ b) → Parted (m.drop a.length) := by
  have hle : startIn m ≤ lead.length := hmask.length_eq ▸ startIn_le m
  rw [List.drop_append_of_le_length hle]
  constructor
  · intro hno
    refine ⟨fun hin => hno (hin.trans (List.suffix_append _ _).isInfix), fun a b hlead => ?_⟩
    refine parted_of_lt_startIn hclose (Nat.lt_of_not_le fun hstart => hno ?_)
    rw [hlead, List.drop_append_of_le_length hstart]
    exact ⟨a.drop (startIn m), b ++ body, by simp⟩
  · rintro ⟨hbody, hlead⟩ ⟨x, y, hin⟩
    -- It stands in the lead, since it holds no brace.
    have hsplit : ∃ y', lead.drop (startIn m) = x ++ (asmCall ++ y') := by
      rw [List.append_assoc] at hin
      rcases List.append_eq_append_iff.mp hin with ⟨u, hu, htail⟩ | ⟨u, rfl, hu⟩
      · rcases List.append_eq_append_iff.mp htail with ⟨v, rfl, -⟩ | ⟨v, hv, hy⟩
        · exact ⟨v, hu⟩
        · cases v with
          | nil => exact ⟨[], by rw [hu, List.append_nil, hv, List.append_nil]⟩
          | cons d v =>
              rw [hy] at hopen
              obtain rfl : d = '{' := Option.some.inj hopen
              have hmem : '{' ∈ asmCall := by rw [hv]; simp
              exact absurd hmem (by decide)
      · exact absurd ⟨u, y, by rw [hu, List.append_assoc]⟩ hbody
    obtain ⟨y', hy'⟩ := hsplit
    have heq : lead = lead.take (startIn m) ++ x ++ (asmCall ++ y') := by
      rw [List.append_assoc, ← hy', List.take_append_drop]
    have hlt := lt_startIn_of_parted (fun hzero hfirst => ?_) (hlead _ _ heq)
    · rw [List.length_append, List.length_take, Nat.min_eq_left hle] at hlt
      omega
    · rw [List.length_eq_zero_iff.mp hzero] at heq
      rw [heq] at hmask
      cases hmask with
      | cons hc _ =>
          cases Option.some.inj hfirst
          exact absurd (hc.eq (by decide)) (by decide)

/-- What the tool makes of a part. -/
def Part.fate (p : Part) : List (Option Char) :=
  if asmCall <:+: p.text.drop p.start then
    (p.text.take p.start).map some ++ (p.text.drop p.start).map keepLine
  else p.text.map some

theorem keepLine_eq_some_iff {c : Char} : keepLine c = some c ↔ c = '\n' := by
  simp [keepLine]

theorem map_keepLine_iff {t : Text} : t.map keepLine = t.map some ↔ ∀ c ∈ t, c = '\n' := by
  rw [List.map_inj_left]
  exact forall₂_congr fun c _ => keepLine_eq_some_iff

/-- Where something that is no end of a line begins what is to be left out, the cut may take but
ends of lines more. -/
theorem cut_iff {c : Char} {r t : Text} (hc : c ≠ '\n') {n : ℕ} :
    ((t ++ c :: r).take n).map some ++ ((t ++ c :: r).drop n).map keepLine =
        t.map some ++ (c :: r).map keepLine ↔
      n ≤ t.length ∧ ∀ d ∈ t.drop n, d = '\n' := by
  by_cases hn : n ≤ t.length
  · have hsplit : t.map some = (t.take n).map some ++ (t.drop n).map some := by
      rw [← List.map_append, List.take_append_drop]
    rw [List.take_append_of_le_length hn, List.drop_append_of_le_length hn, List.map_append, hsplit,
      ← List.append_assoc, List.append_assoc, List.append_assoc, List.append_cancel_left_eq,
      List.append_cancel_right_eq, map_keepLine_iff]
    exact (and_iff_right hn).symm
  · refine iff_of_false (fun heq => ?_) fun h => hn h.1
    obtain ⟨k, rfl⟩ := Nat.exists_eq_add_of_lt (Nat.lt_of_not_le hn)
    rw [Nat.add_assoc, List.take_length_add_append, List.drop_length_add_append, List.map_append,
      List.append_assoc, List.append_cancel_left_eq] at heq
    have hhead : some c = keepLine c := (List.cons.inj heq).1
    exact hc (keepLine_eq_some_iff.mp hhead.symm)

theorem call_of_lines {l r : Text} (h : ∀ c ∈ l, c = '\n') (hin : asmCall <:+: l ++ r) :
    asmCall <:+: r := by
  induction l with
  | nil => exact hin
  | cons c l ih =>
      rcases List.infix_cons_iff.mp hin with hprefix | hin
      · obtain ⟨t, ht⟩ := hprefix
        cases (List.cons.inj ht).1
        exact absurd (h 'a' List.mem_cons_self) (by decide)
      · exact ih (fun d hd => h d (List.mem_cons_of_mem c hd)) hin

theorem lines_iff {t : Text} (h : List.Forall₂ MasksTo s t) :
    (∀ c ∈ s, c = '\n') ↔ ∀ d ∈ t, d = '\n' := by
  induction h with
  | nil => simp
  | cons hc _ ih => rw [List.forall_mem_cons, List.forall_mem_cons, hc.newline, ih]

namespace Part

variable {p : Part}

theorem text_eq (p : Part) : p.text = render p.lead ++ render p.body := render_append _ _

theorem text_eq_before (p : Part) : p.text = render p.before ++ render (p.head ++ p.body) := by
  rw [text, elements, lead, List.append_assoc, render_append]

theorem Valid.body_head (h : p.Valid) : (render p.body).head? = some '{' := by
  obtain ⟨inner, -, hbody⟩ := h.body
  rw [hbody]
  rfl

/-- A definition begins with a letter. -/
theorem Valid.head_cons (h : p.Valid) (hlex : ∀ e ∈ p.elements, e.Valid) (hne : p.head ≠ []) :
    ∃ c r m, c ≠ ';' ∧ c ≠ '\n' ∧ render (p.head ++ p.body) = c :: r ∧
      visible p.head = c :: m := by
  obtain ⟨w, rest, hhead⟩ := h.head.resolve_left hne
  have hword : (Element.word w).Valid := hlex _ (by simp [elements, Part.lead, hhead])
  obtain ⟨c, w, rfl⟩ := List.exists_cons_of_ne_nil hword.1
  have hc := hword.2.1 c List.mem_cons_self
  refine ⟨c, w ++ render (rest ++ p.body), w ++ visible rest, ?_, ?_, ?_, ?_⟩
  · rintro rfl
    exact absurd hc (by decide)
  · rintro rfl
    exact absurd hc (by decide)
  · rw [hhead]
    rfl
  · rw [hhead]
    rfl

theorem fate_iff_of_asm (hvalid : p.Valid) (hlex : ∀ e ∈ p.elements, e.Valid) (hasm : p.Asm) :
    p.fate = p.wanted ↔ p.Found := by
  obtain ⟨c, r, m, hsemi, hline, hr, hm⟩ := hvalid.head_cons hlex hasm.1
  have hlead : visible p.lead = visible p.before ++ c :: m := by rw [lead, visible_append, hm]
  have hstart : (p.start ≤ (render p.before).length ∧
      ∀ d ∈ (render p.before).drop p.start, d = '\n') ↔
        Clear (visible p.before) ∧ ¬ Parted (visible p.head) := by
    have hclose : '}' ∉ visible p.before ++ c :: m := hlead ▸ (not_mem_visible hvalid.lead).2
    rw [lines_iff (List.forall₂_drop p.start (forall₂_visible p.before)), ← length_visible, hm,
      start, hlead, startIn_clear_iff hsemi hline hclose]
  have hwanted : p.wanted = (render p.before).map some ++ (c :: r).map keepLine := by
    rw [wanted, if_pos hasm, hr]
  have htext : p.text = render p.before ++ c :: r := by rw [text_eq_before, hr]
  rw [fate, hwanted]
  constructor
  · intro heq
    split at heq
    · rename_i hcall
      rw [htext] at heq hcall
      have hcut := (cut_iff hline).mp heq
      obtain ⟨hclear, hhead⟩ := hstart.mp hcut
      rw [List.drop_append_of_le_length hcut.1] at hcall
      exact ⟨hr ▸ call_of_lines hcut.2 hcall, hclear, hhead⟩
    · rw [htext, List.map_append, List.append_cancel_left_eq] at heq
      have hhead : some c = keepLine c := (List.cons.inj heq).1
      exact absurd (keepLine_eq_some_iff.mp hhead.symm) hline
  · intro hfound
    have hcut := hstart.mpr ⟨hfound.before, hfound.head⟩
    have hcall : asmCall <:+: p.text.drop p.start := by
      rw [htext, List.drop_append_of_le_length hcut.1, ← hr]
      exact hfound.call.trans (List.suffix_append _ _).isInfix
    rw [if_pos hcall, htext]
    exact (cut_iff hline).mpr hcut

theorem fate_iff_of_not_asm (hvalid : p.Valid) (hasm : ¬ p.Asm) : p.fate = p.wanted ↔ p.Kept := by
  have hclose := (not_mem_visible hvalid.lead).2
  have hcall := call_iff (forall₂_visible p.lead) hclose hvalid.body_head
  have hkept : ¬ asmCall <:+: p.text.drop p.start ↔ p.Kept := by
    rw [text_eq, start, hcall]
    exact ⟨fun h => ⟨h.1, h.2⟩, fun h => ⟨h.body, h.lead⟩⟩
  rw [← hkept, wanted, if_neg hasm, fate]
  refine ⟨fun heq hin => ?_, fun hno => if_neg hno⟩
  rw [if_pos hin] at heq
  have hsplit : p.text.map some =
      (p.text.take p.start).map some ++ (p.text.drop p.start).map some := by
    rw [← List.map_append, List.take_append_drop]
  rw [hsplit, List.append_cancel_left_eq, map_keepLine_iff] at heq
  have hle : p.start ≤ (render p.lead).length := by
    rw [← length_visible]
    exact startIn_le _
  have hopen : '{' ∈ p.text.drop p.start := by
    rw [text_eq, List.drop_append_of_le_length hle]
    exact List.mem_append_right _ (List.mem_of_mem_head? hvalid.body_head)
  exact absurd (heq _ hopen) (by decide)

theorem fate_iff (hvalid : p.Valid) (hlex : ∀ e ∈ p.elements, e.Valid) :
    p.fate = p.wanted ↔ p.Fine := by
  by_cases hasm : p.Asm
  · rw [fate_iff_of_asm hvalid hlex hasm, Fine]
    exact ⟨fun h => ⟨fun _ => h, fun hno => absurd hasm hno⟩, fun h => h.1 hasm⟩
  · rw [fate_iff_of_not_asm hvalid hasm, Fine]
    exact ⟨fun h => ⟨fun hyes => absurd hyes hasm, fun _ => h⟩, fun h => h.2 hasm⟩

end Part

/-- The cuts by their parts. -/
def cutsOf : ℕ → List Part → List (ℕ × ℕ)
  | _, [] => []
  | off, p :: ps =>
      if asmCall <:+: p.text.drop p.start then
        (off + p.start, off + p.text.length) :: cutsOf (off + p.text.length) ps
      else cutsOf (off + p.text.length) ps

attribute [local simp] cutsOf

def textOf (ps : List Part) (tail : Text) : Text := ps.flatMap Part.text ++ tail

theorem textOf_cons (p : Part) (ps : List Part) (tail : Text) :
    textOf (p :: ps) tail = p.text ++ textOf ps tail := by
  rw [textOf, List.flatMap_cons, List.append_assoc, textOf]

theorem CFile.text_eq (f : CFile) : f.text = textOf f.parts (render f.tail) := by
  rw [text, render_append, textOf]
  congr 1
  exact List.flatMap_assoc

theorem filter_ranges (pre : Text) (ps : List Part) (tail : Text) :
    ((ranges pre.length ps).filter fun f => HoldsAsm (slice (pre ++ textOf ps tail) f.1 f.2)) =
      cutsOf pre.length ps := by
  induction ps generalizing pre with
  | nil => rfl
  | cons p ps ih =>
      have hslice : slice (pre ++ textOf (p :: ps) tail) (pre.length + p.start)
          (pre.length + p.text.length) = p.text.drop p.start := by
        rw [slice, textOf_cons, List.take_length_add_append, List.drop_length_add_append,
          List.take_left]
      have hrest := ih (pre ++ p.text)
      rw [List.length_append, List.append_assoc, ← textOf_cons] at hrest
      rw [ranges, List.filter_cons, hslice, hrest, cutsOf]
      simp only [holdsAsm_iff, decide_eq_true_eq]

theorem cuts_text (f : CFile) : cuts f.text = cutsOf 0 f.parts := by
  have h := filter_ranges [] f.parts (render f.tail)
  rw [cuts, functions_text, f.text_eq]
  exact h

theorem le_of_mem_cutsOf {off : ℕ} {ps : List Part} {cut : ℕ × ℕ} (h : cut ∈ cutsOf off ps) :
    off ≤ cut.1 := by
  induction ps generalizing off with
  | nil => cases h
  | cons p ps ih =>
      rw [cutsOf] at h
      split at h
      · rcases List.mem_cons.mp h with rfl | h
        · exact Nat.le_add_right _ _
        · exact (Nat.le_add_right _ _).trans (ih h)
      · exact (Nat.le_add_right _ _).trans (ih h)

theorem mem_cutsOf_cons {off : ℕ} {p : Part} {ps : List Part} {cut : ℕ × ℕ} :
    cut ∈ cutsOf off (p :: ps) ↔
      asmCall <:+: p.text.drop p.start ∧ cut = (off + p.start, off + p.text.length) ∨
        cut ∈ cutsOf (off + p.text.length) ps := by
  rw [cutsOf]
  split
  · rename_i h
    rw [List.mem_cons, and_iff_right h]
  · rename_i h
    simp [h]

/-- Whatever the characters, a map by position is one where the position does not count. -/
theorem mapIdx_eq_map {β : Type*} {f : ℕ → Char → β} {g : Char → β} {l : Text}
    (h : ∀ k, k < l.length → ∀ c, f k c = g c) : l.mapIdx f = l.map g := by
  induction l generalizing f with
  | nil => rfl
  | cons c l ih =>
      rw [List.mapIdx_cons, List.map_cons, h 0 (Nat.zero_lt_succ _) c,
        ih fun k hk d => h (k + 1) (Nat.succ_lt_succ hk) d]

theorem fateFrom_append (off : ℕ) (cuts : List (ℕ × ℕ)) (s t : Text) :
    fateFrom off cuts (s ++ t) = fateFrom off cuts s ++ fateFrom (off + s.length) cuts t := by
  rw [fateFrom, List.mapIdx_append]
  simp only [fateFrom, Nat.add_assoc, Nat.add_comm s.length]

theorem fateFrom_congr {off : ℕ} {cuts cuts' : List (ℕ × ℕ)} {t : Text}
    (h : ∀ k, off ≤ k → k < off + t.length →
      ((∃ cut ∈ cuts, cut.1 ≤ k ∧ k < cut.2) ↔ ∃ cut ∈ cuts', cut.1 ≤ k ∧ k < cut.2)) :
    fateFrom off cuts t = fateFrom off cuts' t := by
  rw [fateFrom, fateFrom, List.mapIdx_eq_mapIdx_iff]
  intro k hk
  simp only [h (off + k) (Nat.le_add_right _ _) (Nat.add_lt_add_left hk _)]

/-- A place is in some cut. -/
def Covered (cuts : List (ℕ × ℕ)) (k : ℕ) : Prop := ∃ cut ∈ cuts, cut.1 ≤ k ∧ k < cut.2

theorem fateFrom_open {off : ℕ} {cuts : List (ℕ × ℕ)} {t : Text}
    (h : ∀ k, off ≤ k → k < off + t.length → ¬ Covered cuts k) :
    fateFrom off cuts t = t.map some :=
  mapIdx_eq_map fun k hk _ =>
    if_neg fun hcut => h (off + k) (Nat.le_add_right _ _) (Nat.add_lt_add_left hk _) hcut.2

theorem fateFrom_covered {off : ℕ} {cuts : List (ℕ × ℕ)} {t : Text}
    (h : ∀ k, off ≤ k → k < off + t.length → Covered cuts k) :
    fateFrom off cuts t = t.map keepLine := by
  refine mapIdx_eq_map fun k hk c => ?_
  have hcut := h (off + k) (Nat.le_add_right _ _) (Nat.add_lt_add_left hk _)
  rw [keepLine]
  by_cases hc : c = '\n'
  · rw [if_neg fun h => h.1 hc, if_pos hc]
  · rw [if_pos ⟨hc, hcut⟩, if_neg hc]

theorem covered_cons {off : ℕ} {p : Part} {ps : List Part} {k : ℕ}
    (hk : k < off + p.text.length) : Covered (cutsOf off (p :: ps)) k ↔
      asmCall <:+: p.text.drop p.start ∧ off + p.start ≤ k := by
  simp only [Covered, mem_cutsOf_cons]
  constructor
  · rintro ⟨cut, ⟨hcall, rfl⟩ | hmem, hle, -⟩
    · exact ⟨hcall, hle⟩
    · have := le_of_mem_cutsOf hmem
      omega
  · rintro ⟨hcall, hle⟩
    exact ⟨_, .inl ⟨hcall, rfl⟩, hle, hk⟩

theorem Part.start_le (p : Part) : p.start ≤ p.text.length := by
  have := startIn_le (visible p.lead)
  rw [length_text, start]
  omega

theorem fateFrom_part (off : ℕ) (p : Part) (ps : List Part) :
    fateFrom off (cutsOf off (p :: ps)) p.text = p.fate := by
  rw [Part.fate]
  split
  · rename_i hcall
    have htake : (p.text.take p.start).length = p.start :=
      List.length_take_of_le p.start_le
    have hdrop : p.start + (p.text.drop p.start).length = p.text.length := by
      rw [List.length_drop, Nat.add_sub_cancel' p.start_le]
    conv_lhs => rw [← List.take_append_drop p.start p.text]
    rw [fateFrom_append, htake]
    congr 1
    · refine fateFrom_open fun k _ hk hcovered => ?_
      rw [htake] at hk
      have hle := p.start_le
      have := ((covered_cons (by omega)).mp hcovered).2
      omega
    · exact fateFrom_covered fun k hk hlt => (covered_cons (by omega)).mpr ⟨hcall, hk⟩
  · rename_i hcall
    exact fateFrom_open fun k _ hk hcovered => hcall ((covered_cons hk).mp hcovered).1

theorem fateFrom_parts (off : ℕ) (ps : List Part) (tail : Text) :
    fateFrom off (cutsOf off ps) (textOf ps tail) = ps.flatMap Part.fate ++ tail.map some := by
  induction ps generalizing off with
  | nil => exact fateFrom_open fun k _ _ hcovered => nomatch hcovered.choose_spec.1
  | cons p ps ih =>
      have hrest : fateFrom (off + p.text.length) (cutsOf off (p :: ps)) (textOf ps tail) =
          fateFrom (off + p.text.length) (cutsOf (off + p.text.length) ps) (textOf ps tail) := by
        refine fateFrom_congr fun k hk _ => ?_
        simp only [mem_cutsOf_cons]
        refine exists_congr fun cut => and_congr_left fun hcut => or_iff_right ?_
        rintro ⟨-, rfl⟩
        exact absurd hcut.2 (Nat.not_lt.mpr hk)
      rw [textOf_cons, fateFrom_append, fateFrom_part, hrest, ih, List.flatMap_cons,
        List.append_assoc]

theorem fate_text (f : CFile) :
    fate f.text = f.parts.flatMap Part.fate ++ (render f.tail).map some := by
  rw [fate, cuts_text, f.text_eq, fateFrom_parts]

theorem reduceOption_some (t : Text) : (t.map some).reduceOption = t := by
  induction t with
  | nil => rfl
  | cons c t ih => rw [List.map_cons, List.reduceOption_cons_of_some, ih]

theorem reduceOption_keepLine (t : Text) :
    (t.map keepLine).reduceOption = List.replicate (t.count '\n') '\n' := by
  induction t with
  | nil => rfl
  | cons c t ih =>
      by_cases hc : c = '\n'
      · rw [hc, List.map_cons, List.count_cons_self, List.replicate_succ, ← ih]
        rfl
      · rw [List.map_cons, keepLine, if_neg hc, List.reduceOption_cons_of_none,
          List.count_cons_of_ne hc, ih]

/-- What is written of a text that follows one in which nothing is cut. -/
theorem emit_parts (pos : ℕ) (before : Text) (ps : List Part) (tail : Text) :
    emit pos (before ++ textOf ps tail) (cutsOf (pos + before.length) ps) =
      before ++ ((ps.flatMap Part.fate).reduceOption ++ tail) := by
  induction ps generalizing pos before with
  | nil => rfl
  | cons p ps ih =>
      rw [textOf_cons, cutsOf, List.flatMap_cons, List.reduceOption_append, Part.fate]
      split
      · have hstart : pos + before.length + p.start - pos = before.length + p.start := by omega
        have hstop : pos + before.length + p.text.length - pos =
            before.length + p.text.length := by omega
        have hrest := ih (pos + before.length + p.text.length) []
        rw [List.nil_append, List.length_nil, Nat.add_zero, List.nil_append] at hrest
        have hhead : slice (before ++ (p.text ++ textOf ps tail)) 0 (before.length + p.start) =
            before ++ p.text.take p.start := by
          rw [slice, List.drop_zero, List.take_length_add_append,
            List.take_append_of_le_length p.start_le]
        have hcut : slice (before ++ (p.text ++ textOf ps tail)) (before.length + p.start)
            (before.length + p.text.length) = p.text.drop p.start := by
          rw [slice, List.take_length_add_append, List.drop_length_add_append, List.take_left]
        rw [emit, hstart, hstop, hhead, hcut, List.drop_length_add_append, List.drop_left, hrest,
          List.reduceOption_append, reduceOption_some, reduceOption_keepLine]
        simp only [List.append_assoc]
      · have hrest := ih pos (before ++ p.text)
        rw [List.length_append, ← Nat.add_assoc, List.append_assoc] at hrest
        rw [hrest, reduceOption_some]
        simp only [List.append_assoc]

theorem patched_text (f : CFile) : patched f.text = (fate f.text).reduceOption := by
  have h := emit_parts 0 [] f.parts (render f.tail)
  rw [patched, cuts_text, fate_text, List.reduceOption_append, reduceOption_some, f.text_eq]
  simpa using h

theorem length_keepLine (t : Text) : (t.map keepLine).length = t.length := List.length_map _

theorem Part.length_fate (p : Part) : p.fate.length = p.wanted.length := by
  have hwanted : p.wanted.length = p.text.length := by
    rw [wanted]
    split
    · rw [text_eq_before, List.length_append, List.length_append, List.length_map, length_keepLine]
    · exact List.length_map _
  rw [hwanted, fate]
  split
  · rw [List.length_append, List.length_map, length_keepLine, ← List.length_append,
      List.take_append_drop]
  · exact List.length_map _

theorem flatMap_eq_iff {α β : Type*} {f g : α → List β} {l : List α}
    (h : ∀ a ∈ l, (f a).length = (g a).length) :
    l.flatMap f = l.flatMap g ↔ ∀ a ∈ l, f a = g a := by
  induction l with
  | nil => simp
  | cons a l ih =>
      rw [List.forall_mem_cons] at h
      rw [List.flatMap_cons, List.flatMap_cons, List.forall_mem_cons, ← ih h.2]
      exact ⟨fun heq => List.append_inj heq h.1, fun heq => by rw [heq.1, heq.2]⟩

theorem valid_of_wellLexed {before es : List Element} (h : OctalToDecimal.WellLexed before es) :
    ∀ e ∈ es, e.Valid := by
  induction es generalizing before with
  | nil => nofun
  | cons e es ih => exact List.forall_mem_cons.mpr ⟨h.1, ih h.2.2.2⟩

/-- The characters left out are those of the functions with an `asm` statement just where each
part is fine. -/
theorem fate_iff_fine (f : CFile) : fate f.text = f.wanted ↔ ∀ p ∈ f.parts, p.Fine := by
  rw [fate_text, CFile.wanted, List.append_cancel_right_eq, flatMap_eq_iff fun p _ => p.length_fate]
  refine forall₂_congr fun p hp => Part.fate_iff (f.valid p hp) fun e he => ?_
  exact valid_of_wellLexed f.lexed e
    (List.mem_append_left _ (List.mem_flatMap.mpr ⟨p, hp, he⟩))

/-- What should become of a character. -/
def wantedChar (keep : Bool) (c : Char) : Option Char := if keep then some c else keepLine c

theorem zipWith_keep (keep : Bool) (t : Text) :
    List.zipWith wantedChar (t.map fun _ => keep) t = t.map (wantedChar keep) := by
  rw [List.zipWith_map_left, List.zipWith_self]

theorem Part.wanted_eq (p : Part) : p.wanted = List.zipWith wantedChar p.keeps p.text := by
  rw [wanted, keeps]
  split
  · rw [p.text_eq_before, List.zipWith_append (by simp), zipWith_keep, zipWith_keep]
    rfl
  · rw [zipWith_keep]
    rfl

theorem Part.length_keeps (p : Part) : p.keeps.length = p.text.length := by
  rw [keeps]
  split
  · rw [p.text_eq_before]
    simp
  · simp

theorem CFile.wanted_eq (f : CFile) : f.wanted = List.zipWith wantedChar f.keeps f.text := by
  have hparts (ps : List Part) (tail : Text) : ps.flatMap Part.wanted ++ tail.map some =
      List.zipWith wantedChar (ps.flatMap Part.keeps ++ tail.map fun _ => true)
        (textOf ps tail) := by
    induction ps with
    | nil => exact (zipWith_keep true tail).symm
    | cons p ps ih =>
        rw [textOf_cons, List.flatMap_cons, List.flatMap_cons, List.append_assoc,
          List.append_assoc, List.zipWith_append p.length_keeps, ← p.wanted_eq, ih]
  rw [wanted, keeps, f.text_eq, hparts]

theorem CFile.length_keeps (f : CFile) : f.keeps.length = f.text.length := by
  have hparts (ps : List Part) (tail : Text) :
      (ps.flatMap Part.keeps ++ tail.map fun _ => true).length = (textOf ps tail).length := by
    induction ps with
    | nil => simp [textOf]
    | cons p ps ih =>
        rw [textOf_cons, List.flatMap_cons, List.append_assoc, List.length_append, ih,
          p.length_keeps, List.length_append]
  rw [keeps, f.text_eq, hparts]

theorem raw_eq_iff (x : Piece) : x.raw = [.char x.read] ↔ ∃ c, x = .coded (.char c) := by
  constructor
  · intro h
    cases x with
    | coded y =>
        have hchar : y = .char (Piece.coded y).read := (List.cons.inj h).1
        exact ⟨_, congrArg Piece.coded hchar⟩
    | carriageReturn => simp [Piece.raw, Piece.read] at h
    | returnNewline => simp [Piece.raw] at h
  · rintro ⟨c, rfl⟩
    rfl

/-- A piece becomes what it should if its character does and, where it is to stay, is all of it. -/
theorem write_eq_wantedPiece {keep : Bool} {x : Piece} {o : Option Char}
    (ho : o = none ∨ o = some x.read) :
    write o.toList = wantedPiece keep x ↔
      o = wantedChar keep x.read ∧ (keep = true → ∃ c, x = .coded (.char c)) := by
  rw [← raw_eq_iff]
  cases keep with
  | true =>
      rw [wantedPiece, wantedChar, if_pos rfl, if_pos rfl]
      rcases ho with rfl | rfl
      · refine iff_of_false (fun heq => ?_) nofun
        cases x <;> cases heq
      · exact ⟨fun heq => ⟨rfl, fun _ => heq.symm⟩, fun h => (h.2 rfl).symm⟩
  | false =>
      rw [wantedPiece, wantedChar, if_neg Bool.false_ne_true, if_neg Bool.false_ne_true]
      have hinj : Function.Injective fun o : Option Char => write o.toList := by
        rintro (_ | c) (_ | d) heq
        · rfl
        · cases heq
        · cases heq
        · exact congrArg some (List.cons.inj (write_injective heq)).1
      exact ⟨fun heq => ⟨hinj heq, nofun⟩, fun h => congrArg (fun o => write o.toList) h.1⟩

theorem map_write_eq_iff {ks : List Bool} {xs : List Piece} {os : List (Option Char)}
    (hks : ks.length = xs.length)
    (hos : List.Forall₂ (fun x o => o = none ∨ o = some x.read) xs os) :
    os.map (fun o => write o.toList) = List.zipWith wantedPiece ks xs ↔
      os = List.zipWith wantedChar ks (xs.map Piece.read) ∧
        ∀ kx ∈ ks.zip xs, kx.1 = true → ∃ c, kx.2 = .coded (.char c) := by
  induction hos generalizing ks with
  | nil => simp
  | @cons x o xs os ho _ ih =>
      obtain ⟨k, ks, rfl⟩ := List.exists_cons_of_length_eq_add_one hks
      rw [List.map_cons, List.zipWith_cons_cons, List.cons.injEq, List.map_cons,
        List.zipWith_cons_cons, List.cons.injEq, List.zip_cons_cons, List.forall_mem_cons,
        write_eq_wantedPiece ho, ih (Nat.succ.inj hks)]
      exact and_and_and_comm

theorem forall₂_fate (text : Text) :
    List.Forall₂ (fun c o => o = none ∨ o = some c) text (fate text) := by
  rw [List.forall₂_iff_get]
  refine ⟨(List.length_mapIdx).symm, fun k _ _ => ?_⟩
  simp only [fate, fateFrom, List.get_eq_getElem, List.getElem_mapIdx]
  split
  · exact .inl rfl
  · exact .inr rfl

theorem flatten_write (os : List (Option Char)) :
    (os.map fun o => write o.toList).flatten = write os.reduceOption := by
  induction os with
  | nil => rfl
  | cons o os ih =>
      rw [List.map_cons, List.flatten_cons, ih]
      cases o <;> rfl

theorem balanced_of_bare {es : List Element} (h : ∀ e ∈ es, Bare e) : Balanced es := by
  induction es with
  | nil => exact .nil
  | cons e es ih =>
      rw [List.forall_mem_cons] at h
      exact .bare h.1 (ih h.2)

/-- A structure, and on the next line a function with an `asm` statement. -/
def structAndAsm : CFile where
  file := write "struct s\x7bint a;\x7d;\nvoid f()\x7basm(\"x\");\x7d".toList
  parts :=
    [⟨[.word "struct".toList, .blank ' ', .word "s".toList], [],
        .punctuator '{' :: ([.word "int".toList, .blank ' ', .word "a".toList,
          .punctuator ';'] ++ [.punctuator '}'])⟩,
      ⟨[.punctuator ';', .blank '\n'],
        [.word "void".toList, .blank ' ', .word "f".toList, .punctuator '(', .punctuator ')'],
        .punctuator '{' :: ([.word "asm".toList, .punctuator '(', .quoted '"' [.plain 'x'],
          .punctuator ')', .punctuator ';'] ++ [.punctuator '}'])⟩]
  tail := []
  lexed := by
    simp [OctalToDecimal.WellLexed, Element.Valid, Element.Ends, Element.InPlace, render,
      Element.text, Part.elements, Part.lead, OctalToDecimal.Apart, OctalToDecimal.Piece.Valid,
      OctalToDecimal.identChar, OctalToDecimal.isLetter, OctalToDecimal.isDigit,
      OctalToDecimal.blanks]
  valid := by
    rintro p (_ | ⟨_, _ | ⟨_, ⟨⟩⟩⟩)
    · refine ⟨?_, .inl rfl, _, balanced_of_bare ?_, rfl⟩ <;>
        simp [Part.lead, Bare, shown, Element.text]
    · refine ⟨?_, .inr ⟨_, _, rfl⟩, _, balanced_of_bare ?_, rfl⟩ <;>
        simp [Part.lead, Bare, shown, Element.text, OctalToDecimal.Piece.text, blank]
  bare := nofun
  reads := by
    rw [readReplacing_write (by decide)]
    decide

theorem structAndAsm_wanted : structAndAsm.wantedPieces.flatten =
    write "struct s\x7bint a;\x7d;\n".toList := by
  have hstruct (p : Part) (h : p.head = []) : p.keeps = p.text.map fun _ => true :=
    if_neg fun hasm => hasm.1 h
  have hasm (p : Part) (h : p.Asm) : p.keeps = (render p.before).map (fun _ => true) ++
      (render (p.head ++ p.body)).map fun _ => false := if_pos h
  rw [CFile.wantedPieces, CFile.keeps, structAndAsm, List.flatMap_cons, List.flatMap_cons,
    hstruct _ rfl, hasm, pieces_write (by decide)]
  · decide +kernel
  · exact ⟨List.cons_ne_nil _ _, [.punctuator '{'], "asm".toList, [], _, rfl,
      List.mem_cons_self, nofun⟩

end Veron.DropAsm
