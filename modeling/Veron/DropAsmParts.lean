/-
C files by their definitions of functions and the other groups in braces at the top, and what the
tool finds in them: the masker blanks element by element, and a group is a group.
-/
import Mathlib.Data.List.Forall2
import Veron.DropAsm
import Veron.OctalToDecimalTokens

namespace Veron.DropAsm

open OctalToDecimal (Element Piece Apart WellLexed render apart_of_ne plain_text run_bare run_block
  run_line run_quoted)

attribute [local simp] maskFrom

/-- What a masker makes of a character. -/
def MasksTo (c d : Char) : Prop := d = c ∨ c ≠ '\n' ∧ d = ' '

theorem masksTo_blank (c : Char) : MasksTo c (blank c) := by
  rw [blank]
  split
  · rename_i h
    exact .inl h.symm
  · rename_i h
    exact .inr ⟨h, rfl⟩

theorem MasksTo.newline {c d : Char} (h : MasksTo c d) : d = '\n' ↔ c = '\n' := by
  rcases h with rfl | ⟨hc, rfl⟩
  · rfl
  · exact iff_of_false (by decide) hc

theorem MasksTo.eq {c d : Char} (h : MasksTo c d) (hd : d ≠ ' ') : c = d := by
  rcases h with rfl | ⟨-, rfl⟩
  · rfl
  · exact absurd rfl hd

/-- No quote is the end of a line. -/
def Mode.Quotes : Mode → Prop
  | .quoted q => q ≠ '\n'
  | _ => True

theorem forall₂_maskFrom {m : Mode} (hm : m.Quotes) (text : Text) :
    List.Forall₂ MasksTo text (maskFrom m text) := by
  have hspace {c : Char} (hc : c ≠ '\n') : MasksTo c ' ' := .inr ⟨hc, rfl⟩
  fun_induction maskFrom m text with
  | case1 => exact .nil
  | case2 t ih => exact .cons (hspace (by decide)) (.cons (hspace (by decide)) (ih trivial))
  | case3 t ih => exact .cons (hspace (by decide)) (.cons (hspace (by decide)) (ih trivial))
  | case4 c t _ _ hc ih =>
      have hquote : c ≠ '\n' := by rcases hc with rfl | rfl <;> decide
      exact .cons (hspace hquote) (ih hquote)
  | case5 c t _ _ _ ih => exact .cons (.inl rfl) (ih trivial)
  | case6 t ih => exact .cons (hspace (by decide)) (.cons (hspace (by decide)) (ih trivial))
  | case7 c t _ ih => exact .cons (masksTo_blank c) (ih trivial)
  | case8 t ih => exact .cons (.inl rfl) (ih trivial)
  | case9 c t hc ih => exact .cons (hspace hc) (ih trivial)
  | case10 q c t ih => exact .cons (hspace (by decide)) (.cons (masksTo_blank c) (ih hm))
  | case11 c t h ih => exact .cons (hspace hm) (ih trivial)
  | case12 q c t h hc ih => exact .cons (masksTo_blank c) (ih hm)

theorem forall₂_mask (text : Text) : List.Forall₂ MasksTo text (mask text) :=
  @forall₂_maskFrom .code trivial text

theorem eq_of_masksTo {s t : Text} (ht : ' ' ∉ t) (h : List.Forall₂ MasksTo s t) : s = t := by
  induction h with
  | nil => rfl
  | cons hc _ ih =>
      rw [List.mem_cons, not_or] at ht
      rw [hc.eq fun heq => ht.1 heq.symm, ih ht.2]

/-- Text that is not blanked stands in the text itself. -/
theorem infix_of_masksTo {w s t : Text} (hw : ' ' ∉ w) (h : List.Forall₂ MasksTo s t)
    (hin : w <:+: t) : w <:+: s := by
  obtain ⟨a, b, rfl⟩ := hin
  have htake := List.forall₂_take_append s (a ++ w) b h
  have hdrop := List.forall₂_drop_append _ a w htake
  rw [← eq_of_masksTo hw hdrop]
  exact (List.drop_suffix _ _).isInfix.trans (List.take_prefix _ _).isInfix

theorem holdsAsm_iff (s : Text) : HoldsAsm s ↔ asmCall <:+: s :=
  ⟨fun h => h.elim (infix_of_masksTo (by decide) (forall₂_mask s)) id, .inr⟩

/-- What of an element is not blanked. -/
def shown : Element → Text
  | .lineComment body => (Element.lineComment body).text.map blank
  | .blockComment body => (Element.blockComment body).text.map blank
  | .quoted q body => (Element.quoted q body).text.map blank
  | e => e.text

def visible (es : List Element) : Text := es.flatMap shown

@[simp]
theorem visible_nil : visible [] = [] := rfl

@[simp]
theorem visible_cons (e : Element) (es : List Element) :
    visible (e :: es) = shown e ++ visible es := rfl

@[simp]
theorem visible_append (es es' : List Element) :
    visible (es ++ es') = visible es ++ visible es' := List.flatMap_append

@[simp]
theorem render_append (es es' : List Element) : render (es ++ es') = render es ++ render es' :=
  List.flatMap_append

theorem forall₂_shown (e : Element) : List.Forall₂ MasksTo e.text (shown e) := by
  have hblank (t : Text) : List.Forall₂ MasksTo t (t.map blank) :=
    List.forall₂_map_right_iff.mpr (List.forall₂_same.mpr fun c _ => masksTo_blank c)
  cases e with
  | lineComment | blockComment | quoted => exact hblank _
  | _ => exact List.forall₂_same.mpr fun c _ => .inl rfl

theorem forall₂_visible (es : List Element) :
    List.Forall₂ MasksTo (render es) (visible es) := by
  induction es with
  | nil => exact .nil
  | cons e es ih => exact List.rel_append (forall₂_shown e) ih

theorem length_visible (es : List Element) : (visible es).length = (render es).length :=
  (forall₂_visible es).length_eq.symm

/-- Text without quotes and comments is not masked. -/
theorem maskFrom_bare {cs t : Text} (hquote : ∀ c ∈ cs, c ≠ '"' ∧ c ≠ '\'')
    (hchain : (cs ++ t.head?.toList).IsChain Apart) :
    maskFrom .code (cs ++ t) = cs ++ maskFrom .code t := by
  refine run_bare (fun c t hquote hnext => ?_) hquote hchain
  rw [maskFrom, if_neg (not_or.mpr hquote)]
  · rintro u rfl rfl
    exact (hnext '*' rfl rfl).2 rfl
  · rintro u rfl rfl
    exact (hnext '/' rfl rfl).1 rfl

theorem maskFrom_block {body : Text} (h : ¬ ['*', '/'] <:+: body) (t : Text) :
    maskFrom .block (body ++ '*' :: '/' :: t) =
      body.map blank ++ ' ' :: ' ' :: maskFrom .code t := by
  refine run_block (fun t => by rw [maskFrom]) (fun c t hopen => ?_) h t
  rw [maskFrom]
  exact hopen

theorem maskFrom_line {body t : Text} (h : '\n' ∉ body) (ht : ∀ c ∈ t.head?, c = '\n') :
    maskFrom .line (body ++ t) = body.map blank ++ maskFrom .code t := by
  refine run_line (f := maskFrom .line) (g := maskFrom .code) rfl (fun _ => rfl)
    (fun c t hc => ?_) h ht
  rw [maskFrom, if_neg hc, blank, if_neg hc]

theorem maskFrom_quoted {q : Char} {body : List Piece} (hq : q ≠ '\\') (hline : q ≠ '\n')
    (h : ∀ p ∈ body, p.Valid q) (t : Text) :
    maskFrom (.quoted q) (body.flatMap Piece.text ++ q :: t) =
      (body.flatMap Piece.text ++ [q]).map blank ++ maskFrom .code t := by
  have hbody : maskFrom (.quoted q) (body.flatMap Piece.text ++ q :: t) =
      (body.flatMap Piece.text).map blank ++ maskFrom (.quoted q) (q :: t) := by
    refine run_quoted (fun c t hc hescape => ?_) (fun c t _ => ?_) h _
    · rw [maskFrom, if_neg hc]
      rintro _ _ rfl
      exact absurd rfl hescape
    · rw [maskFrom]
      rfl
  rw [hbody, maskFrom, if_pos rfl]
  · simp [blank, hline]
  · rintro _ _ rfl
    exact absurd rfl hq

/-- The masker masks element by element. -/
theorem maskFrom_element {e : Element} {t : Text} (hvalid : e.Valid) (hends : e.Ends t.head?) :
    maskFrom .code (e.text ++ t) = shown e ++ maskFrom .code t := by
  have hbare (hplain : e.IsPlain) : maskFrom .code (e.text ++ t) = e.text ++ maskFrom .code t :=
    maskFrom_bare (plain_text hvalid hends hplain).1 (plain_text hvalid hends hplain).2
  cases e with
  | lineComment body =>
      change ' ' :: ' ' :: maskFrom .line (body ++ t) = _
      rw [maskFrom_line hvalid.1 hends]
      rfl
  | blockComment body =>
      have hblock := maskFrom_block hvalid t
      change ' ' :: ' ' :: maskFrom .block (body ++ ['*', '/'] ++ t) = _
      rw [List.append_assoc, List.cons_append, List.cons_append, List.nil_append, hblock]
      simp [shown, Element.text, blank]
  | quoted q body =>
      obtain ⟨hq, hbody⟩ := hvalid
      have hquote : q = '"' ∨ q = '\'' := hq.imp id And.left
      have hne : q ≠ '\\' ∧ q ≠ '\n' := by
        rcases hquote with rfl | rfl <;> decide
      have hquoted := maskFrom_quoted hne.1 hne.2 hbody t
      have hopen : ∀ u : Text, maskFrom .code (q :: u) = ' ' :: maskFrom (.quoted q) u := by
        intro u
        rcases hquote with rfl | rfl <;> simp [maskFrom]
      change maskFrom .code (q :: (body.flatMap Piece.text ++ [q] ++ t)) = _
      rw [hopen, List.append_assoc, List.singleton_append, hquoted]
      simp [shown, Element.text, blank, hne.2]
  | blank | header | word | number | ellipsis | punctuator => exact hbare trivial

theorem mask_render {before es : List Element} (h : WellLexed before es) :
    mask (render es) = visible es := by
  induction es generalizing before with
  | nil => rfl
  | cons e es ih =>
      obtain ⟨hvalid, hends, -, hrest⟩ := h
      have htail := ih hrest
      rw [mask] at htail
      rw [mask, render, List.flatMap_cons, ← render, maskFrom_element hvalid hends, htail,
        visible_cons]

/-- No brace stands in the open. -/
def Bare (e : Element) : Prop := '{' ∉ shown e ∧ '}' ∉ shown e

/-- Braces in pairs. -/
inductive Balanced : List Element → Prop
  | nil : Balanced []
  | bare {e : Element} {es : List Element} (he : Bare e) (h : Balanced es) : Balanced (e :: es)
  | group {inner es : List Element} (hinner : Balanced inner) (h : Balanced es) :
      Balanced (.punctuator '{' :: (inner ++ .punctuator '}' :: es))

/-- A group in braces at the top of a file.  If it is the body of a function, `head` is what the
definition has in front of it; otherwise there is no head. -/
structure Part where
  before : List Element
  head : List Element
  body : List Element

def Part.lead (p : Part) : List Element := p.before ++ p.head

def Part.elements (p : Part) : List Element := p.lead ++ p.body

def Part.text (p : Part) : Text := render p.elements

structure Part.Valid (p : Part) : Prop where
  lead : ∀ e ∈ p.lead, Bare e
  head : p.head = [] ∨ ∃ w rest, p.head = .word w :: rest
  body : ∃ inner, Balanced inner ∧ p.body = .punctuator '{' :: (inner ++ [.punctuator '}'])

/-- A C file whose braces are in pairs. -/
structure CFile where
  file : List TextMode.Coded
  parts : List Part
  tail : List Element
  lexed : WellLexed [] (parts.flatMap Part.elements ++ tail)
  valid : ∀ p ∈ parts, p.Valid
  bare : ∀ e ∈ tail, Bare e
  reads : TextMode.readReplacing file = render (parts.flatMap Part.elements ++ tail)

def CFile.text (f : CFile) : Text := render (f.parts.flatMap Part.elements ++ f.tail)

theorem not_mem_visible {es : List Element} (h : ∀ e ∈ es, Bare e) :
    '{' ∉ visible es ∧ '}' ∉ visible es := by
  constructor
  · intro hmem
    obtain ⟨e, he, hc⟩ := List.mem_flatMap.mp hmem
    exact (h e he).1 hc
  · intro hmem
    obtain ⟨e, he, hc⟩ := List.mem_flatMap.mp hmem
    exact (h e he).2 hc

variable {depth off : ℕ} {pre l rest : Text}

theorem groupLength_bare (hopen : '{' ∉ l) (hclose : '}' ∉ l) (depth : ℕ) (rest : Text) :
    groupLength depth (l ++ rest) = l.length + groupLength depth rest := by
  induction l with
  | nil => simp
  | cons c l ih =>
      rw [List.mem_cons, not_or] at hopen hclose
      rw [List.cons_append, groupLength, if_neg fun heq => hopen.1 heq.symm,
        if_neg fun heq => hclose.1 heq.symm, ih hopen.2 hclose.2, List.length_cons]
      omega

theorem groupLength_balanced {es : List Element} (h : Balanced es) (hdepth : 1 ≤ depth)
    (rest : Text) :
    groupLength depth (visible es ++ rest) = (visible es).length + groupLength depth rest := by
  induction h generalizing depth rest with
  | nil => simp
  | @bare e es he _ ih =>
      rw [visible_cons, List.append_assoc, groupLength_bare he.1 he.2, ih hdepth,
        List.length_append, Nat.add_assoc]
  | @group inner es _ _ ihinner ih =>
      have hopen : ∀ t, groupLength depth ('{' :: t) = groupLength (depth + 1) t + 1 :=
        fun t => if_pos rfl
      have hclose : ∀ t, groupLength (depth + 1) ('}' :: t) = groupLength depth t + 1 := by
        intro t
        rw [groupLength, if_neg (by decide), if_pos rfl, if_neg (by omega), Nat.add_sub_cancel]
      change groupLength depth ('{' :: (visible (inner ++ _ :: es) ++ rest)) = _
      rw [hopen, visible_append, List.append_assoc, ihinner (by omega)]
      change _ + groupLength (depth + 1) ('}' :: (visible es ++ rest)) + 1 = _
      rw [hclose, ih hdepth]
      simp [shown, Element.text]
      omega

theorem Part.Valid.groupLength_eq {p : Part} (h : p.Valid) (rest : Text) :
    groupLength 0 (visible p.body ++ rest) = (visible p.body).length := by
  obtain ⟨inner, hinner, hbody⟩ := h.body
  have hopen : ∀ t, groupLength 0 ('{' :: t) = groupLength 1 t + 1 := fun t => if_pos rfl
  have hclose : ∀ t, groupLength 1 ('}' :: t) = 1 := fun t => rfl
  rw [hbody]
  change groupLength 0 ('{' :: (visible (inner ++ [.punctuator '}']) ++ rest)) = _
  rw [hopen, visible_append, List.append_assoc, groupLength_balanced hinner (Nat.le_refl 1)]
  change _ + groupLength 1 ('}' :: rest) + 1 = _
  rw [hclose]
  simp [shown, Element.text]

theorem Part.Valid.body_cons {p : Part} (h : p.Valid) : ∃ t, visible p.body = '{' :: t := by
  obtain ⟨inner, -, hbody⟩ := h.body
  exact ⟨visible (inner ++ [.punctuator '}']), by rw [hbody]; rfl⟩

theorem functionsFrom_bare (h : '{' ∉ l) (off : ℕ) (pre rest : Text) :
    functionsFrom off pre 0 (l ++ rest) = functionsFrom off (pre ++ l) 0 rest := by
  induction l generalizing pre with
  | nil => simp
  | cons c l ih =>
      rw [List.mem_cons, not_or] at h
      rw [List.cons_append, functionsFrom, if_neg fun heq => h.1 heq.symm, ih h.2,
        List.append_assoc, List.singleton_append]

theorem functionsFrom_skip (off : ℕ) (pre l rest : Text) :
    functionsFrom off pre l.length (l ++ rest) = functionsFrom off pre 0 rest := by
  induction l with
  | nil => rfl
  | cons c l ih => exact ih

/-- How much of what stands in front of a group is left to the part before it. -/
def Part.start (p : Part) : ℕ := startIn (visible p.lead)

def ranges : ℕ → List Part → List (ℕ × ℕ)
  | _, [] => []
  | off, p :: ps => (off + p.start, off + p.text.length) :: ranges (off + p.text.length) ps

theorem length_text (p : Part) :
    p.text.length = (visible p.lead).length + (visible p.body).length := by
  rw [Part.text, Part.elements, render_append, List.length_append, length_visible, length_visible]

theorem functionsFrom_part {p : Part} (h : p.Valid) (off : ℕ) (rest : Text) :
    functionsFrom off [] 0 (visible p.elements ++ rest) =
      (off + p.start, off + p.text.length) :: functionsFrom (off + p.text.length) [] 0 rest := by
  obtain ⟨t, ht⟩ := h.body_cons
  have hlength := h.groupLength_eq rest
  rw [Part.elements, visible_append, List.append_assoc,
    functionsFrom_bare (not_mem_visible h.lead).1, List.nil_append]
  rw [ht, List.cons_append] at hlength ⊢
  have hskip : ('{' :: t).length - 1 = t.length := rfl
  have hstop : off + (visible p.lead).length + ('{' :: t).length = off + p.text.length := by
    rw [length_text, ht, Nat.add_assoc]
  rw [functionsFrom, if_pos rfl, hlength, hstop, hskip]
  exact congrArg (List.cons _) (functionsFrom_skip _ _ _ _)

theorem functionsFrom_parts {ps : List Part} (h : ∀ p ∈ ps, p.Valid) {tail : List Element}
    (htail : ∀ e ∈ tail, Bare e) (off : ℕ) :
    functionsFrom off [] 0 (visible (ps.flatMap Part.elements ++ tail)) = ranges off ps := by
  induction ps generalizing off with
  | nil =>
      have hbare := functionsFrom_bare (not_mem_visible htail).1 off [] []
      rw [List.append_nil] at hbare
      exact hbare
  | cons p ps ih =>
      rw [List.flatMap_cons, List.append_assoc, visible_append,
        functionsFrom_part (h p List.mem_cons_self), ih fun p hp => h p (List.mem_cons_of_mem _ hp)]
      rfl

/-- The tool finds the parts. -/
theorem functions_text (f : CFile) : functions f.text = ranges 0 f.parts := by
  rw [functions, CFile.text, mask_render f.lexed, functionsFrom_parts f.valid f.bare]

end Veron.DropAsm
