/-
C text as a sequence of preprocessing tokens, blanks and comments, each as long as it can be,
and what the masker makes of it.
-/
import Mathlib.Data.List.Chain
import Veron.OctalToDecimalScan

namespace Veron.OctalToDecimal

def isLetter (c : Char) : Bool := ('A' ≤ c && c ≤ 'Z') || ('a' ≤ c && c ≤ 'z') || c = '_'

/-- What identifiers are made of, also beyond ASCII. -/
def identChar (c : Char) : Bool := isLetter c || isDigit c || 128 ≤ c.toNat

def blanks : Text := [' ', '\t', '\n', '\x0b', '\x0c']

/-- A character of a string or an escaped one. -/
inductive Piece where
  | plain (c : Char)
  | escape (c : Char)

def Piece.text : Piece → Text
  | .plain c => [c]
  | .escape c => ['\\', c]

def Piece.Valid (q : Char) : Piece → Prop
  | .plain c => c ≠ q ∧ c ≠ '\\' ∧ c ≠ '\n'
  | .escape c => c ≠ '\n'

inductive Element where
  | blank (c : Char)
  | lineComment (body : Text)
  | blockComment (body : Text)
  /-- A string or a character constant, by its quote. -/
  | quoted (q : Char) (body : List Piece)
  | header (body : Text)
  | word (cs : Text)
  | number (cs : Text)
  | ellipsis
  /-- A punctuator of one character, or one of a longer one. -/
  | punctuator (c : Char)

def Element.text : Element → Text
  | .blank c => [c]
  | .lineComment body => '/' :: '/' :: body
  | .blockComment body => '/' :: '*' :: (body ++ ['*', '/'])
  | .quoted q body => q :: (body.flatMap Piece.text ++ [q])
  | .header body => '<' :: (body ++ ['>'])
  | .word cs => cs
  | .number cs => cs
  | .ellipsis => ['.', '.', '.']
  | .punctuator c => [c]

/-- Does a preprocessing number that ends in `last` go on with `c`? -/
def goesOn (last c : Char) : Bool :=
  identChar c || c = '.' || ((c = '+' || c = '-') && ['e', 'E', 'p', 'P'].contains last)

def goOn : Char → Text → Bool
  | _, [] => true
  | last, c :: t => goesOn last c && goOn c t

/-- A preprocessing number. -/
def isNumber : Text → Bool
  | [] => false
  | c :: t => if isDigit c then goOn c t else c = '.' && t.head?.any isDigit && goOn c t

/-- Two characters that do not begin a comment. -/
def Apart (a b : Char) : Prop := a = '/' → b ≠ '/' ∧ b ≠ '*'

def Element.Valid : Element → Prop
  | .blank c => c ∈ blanks
  | .lineComment body => '\n' ∉ body ∧ body.getLast? ≠ some '\\'
  | .blockComment body => ¬ ['*', '/'] <:+: body
  | .quoted q body => (q = '"' ∨ q = '\'' ∧ body ≠ []) ∧ ∀ p ∈ body, p.Valid q
  | .header body => body ≠ [] ∧ (∀ c ∈ body, c ∉ ['>', '\n', '"', '\'', '\\']) ∧ body.IsChain Apart
  | .word cs => cs ≠ [] ∧ (∀ c ∈ cs, identChar c = true) ∧ cs.head?.any isDigit = false
  | .number cs => isNumber cs = true
  | .ellipsis => True
  | .punctuator c => identChar c = false ∧ c ∉ blanks ∧ c ≠ '"' ∧ c ≠ '\''

/-- An element ends in front of a character, or at the end of the text. -/
def Element.Ends : Element → Option Char → Prop
  | .lineComment _, next => ∀ c ∈ next, c = '\n'
  | .word _, next => ∀ c ∈ next, identChar c = false
  | .number cs, next => ∀ c ∈ next, ∀ last ∈ cs.getLast?, goesOn last c = false
  | .punctuator a, next => ∀ c ∈ next, Apart a c ∧ (a = '.' → isDigit c = false) ∧
      (a = '\\' → c ≠ '\n')
  | _, _ => True

def render (es : List Element) : Text := es.flatMap Element.text

/-- White space within a line. -/
def Element.isSpace : Element → Bool
  | .blank c => c ≠ '\n'
  | .blockComment _ => true
  | _ => false

/-- Behind `# include` at the beginning of a line; the nearest element comes first. -/
def afterInclude (before : List Element) : Bool :=
  match before.dropWhile Element.isSpace with
  | .word name :: before =>
      name = ['i', 'n', 'c', 'l', 'u', 'd', 'e'] &&
        match before.dropWhile Element.isSpace with
        | .punctuator hash :: before =>
            hash = '#' && match before.dropWhile Element.isSpace with
              | [] => true
              | .blank _ :: _ => true
              | _ => false
        | _ => false
  | _ => false

/-- A header name stands where one is due, and there `<` begins one. -/
def Element.InPlace (before : List Element) : Element → Prop
  | .header _ => afterInclude before = true
  | .punctuator c => c = '<' → afterInclude before = false
  | _ => True

def WellLexed : List Element → List Element → Prop
  | _, [] => True
  | before, e :: es =>
      e.Valid ∧ e.Ends (render es).head? ∧ e.InPlace before ∧ WellLexed (e :: before) es

/-- A C source file by the elements of its text. -/
structure Source where
  file : List TextMode.Coded
  elements : List Element
  wellLexed : WellLexed [] elements
  reads : TextMode.readReplacing file = render elements

section Runs

variable {f g : Text → Text} {b : Char → Char}

/-- A masker that keeps what is no quote and begins no comment keeps a text of it. -/
theorem run_bare (hkeep : ∀ c t, c ≠ '"' ∧ c ≠ '\'' → (∀ d ∈ t.head?, Apart c d) →
    f (c :: t) = c :: f t) {cs t : Text} (hquote : ∀ c ∈ cs, c ≠ '"' ∧ c ≠ '\'')
    (hchain : (cs ++ t.head?.toList).IsChain Apart) : f (cs ++ t) = cs ++ f t := by
  induction cs with
  | nil => rfl
  | cons c cs ih =>
      obtain ⟨hhead, hrest⟩ := List.isChain_cons.mp hchain
      have hnext : ∀ d ∈ (cs ++ t).head?, Apart c d := by
        intro d hd
        apply hhead d
        cases cs with
        | nil => cases t <;> exact hd
        | cons _ _ => exact hd
      rw [List.cons_append, hkeep c _ (hquote c List.mem_cons_self) hnext,
        ih (fun d hd => hquote d (List.mem_cons_of_mem c hd)) hrest]
      rfl

theorem run_block (hclose : ∀ t, f ('*' :: '/' :: t) = ' ' :: ' ' :: g t)
    (hblank : ∀ c t, (∀ u, c = '*' → t = '/' :: u → False) → f (c :: t) = b c :: f t)
    {body : Text} (h : ¬ ['*', '/'] <:+: body) (t : Text) :
    f (body ++ '*' :: '/' :: t) = body.map b ++ ' ' :: ' ' :: g t := by
  induction body with
  | nil => exact hclose t
  | cons c body ih =>
      have hrest : ¬ ['*', '/'] <:+: body := fun hin =>
        h (hin.trans (List.suffix_cons c body).isInfix)
      have hopen : ∀ u, c = '*' → body ++ '*' :: '/' :: t = '/' :: u → False := by
        rintro u rfl hu
        cases body with
        | nil => cases hu
        | cons d body =>
            obtain rfl : d = '/' := (List.cons.inj hu).1
            exact h ⟨[], body, rfl⟩
      rw [List.cons_append, hblank c _ hopen, ih hrest]
      rfl

theorem run_line (hend : f [] = g []) (hclose : ∀ t, f ('\n' :: t) = g ('\n' :: t))
    (hblank : ∀ c t, c ≠ '\n' → f (c :: t) = b c :: f t) {body t : Text} (h : '\n' ∉ body)
    (ht : ∀ c ∈ t.head?, c = '\n') : f (body ++ t) = body.map b ++ g t := by
  induction body with
  | nil =>
      cases t with
      | nil => exact hend
      | cons c t =>
          obtain rfl := ht c rfl
          exact hclose t
  | cons c body ih =>
      rw [List.mem_cons, not_or] at h
      rw [List.cons_append, hblank c _ fun heq => h.1 heq.symm, ih h.2]
      rfl

theorem run_quoted {q : Char} (hplain : ∀ c t, c ≠ q → c ≠ '\\' → f (c :: t) = b c :: f t)
    (hescape : ∀ c t, c ≠ '\n' → f ('\\' :: c :: t) = b '\\' :: b c :: f t) {body : List Piece}
    (h : ∀ p ∈ body, p.Valid q) (t : Text) :
    f (body.flatMap Piece.text ++ t) = (body.flatMap Piece.text).map b ++ f t := by
  induction body with
  | nil => rfl
  | cons p body ih =>
      have hrest := ih fun p hp => h p (List.mem_cons_of_mem _ hp)
      have hp := h p List.mem_cons_self
      cases p with
      | plain c =>
          rw [List.flatMap_cons, Piece.text, List.singleton_append, List.cons_append,
            hplain c _ hp.1 hp.2.1, hrest]
          rfl
      | escape c =>
          rw [List.flatMap_cons, Piece.text, List.cons_append, List.cons_append, List.cons_append,
            List.nil_append, List.cons_append, hescape c _ hp, hrest]
          rfl

end Runs

attribute [local simp] maskFrom

/-- An element with comments and the bodies of strings blanked. -/
def Element.masked : Element → Text
  | .lineComment body => (Element.lineComment body).text.map OctalToDecimal.blank
  | .blockComment body => (Element.blockComment body).text.map OctalToDecimal.blank
  | .quoted q body => q :: ((body.flatMap Piece.text).map OctalToDecimal.blank ++ [q])
  | e => e.text

/-- What of a text is not blanked. -/
def visible (es : List Element) : Text := es.flatMap Element.masked

theorem length_masked (e : Element) : e.masked.length = e.text.length := by
  cases e with
  | quoted q body => simp [Element.masked, Element.text]
  | lineComment | blockComment => simp only [Element.masked, List.length_map]
  | _ => rfl

theorem maskFrom_nil (m : Mode) : maskFrom m [] = [] := by cases m <;> rfl

theorem maskFrom_code {c : Char} {t : Text} (h : ∀ d ∈ t.head?, Apart c d) :
    maskFrom .code (c :: t) =
      c :: maskFrom (if c = '"' ∨ c = '\'' then .quoted c else .code) t := by
  cases t with
  | nil =>
      rw [maskFrom_nil, maskFrom, maskFrom_nil]
      · nofun
      · nofun
  | cons d t =>
      have hd := h d rfl
      rw [maskFrom]
      · rintro t rfl ⟨⟩
        exact (hd rfl).2 rfl
      · rintro t rfl ⟨⟩
        exact (hd rfl).1 rfl

/-- Text without quotes and comments is not masked. -/
theorem maskFrom_bare {cs t : Text} (hquote : ∀ c ∈ cs, c ≠ '"' ∧ c ≠ '\'')
    (hchain : (cs ++ t.head?.toList).IsChain Apart) :
    maskFrom .code (cs ++ t) = cs ++ maskFrom .code t := by
  refine run_bare (fun c t hquote hnext => ?_) hquote hchain
  rw [maskFrom_code hnext, if_neg (not_or.mpr hquote)]

theorem maskFrom_block {body : Text} (h : ¬ ['*', '/'] <:+: body) (t : Text) :
    maskFrom .block (body ++ '*' :: '/' :: t) =
      body.map blank ++ ' ' :: ' ' :: maskFrom .code t := by
  refine run_block (fun t => by rw [maskFrom]) (fun c t hopen => ?_) h t
  rw [maskFrom]
  exact hopen

theorem maskFrom_line {body t : Text} (h : '\n' ∉ body) (ht : ∀ c ∈ t.head?, c = '\n') :
    maskFrom .line (body ++ t) = body.map blank ++ maskFrom .code t := by
  refine run_line (f := maskFrom .line) (g := maskFrom .code) rfl (fun _ => rfl)
    (fun c t hc => ?_) h ht
  rw [maskFrom, if_neg hc]

theorem maskFrom_quoted {q : Char} {body : List Piece} (hq : q ≠ '\\')
    (h : ∀ p ∈ body, p.Valid q) (t : Text) :
    maskFrom (.quoted q) (body.flatMap Piece.text ++ q :: t) =
      (body.flatMap Piece.text).map blank ++ q :: maskFrom .code t := by
  have hbody : maskFrom (.quoted q) (body.flatMap Piece.text ++ q :: t) =
      (body.flatMap Piece.text).map blank ++ maskFrom (.quoted q) (q :: t) := by
    refine run_quoted (fun c t hc hescape => ?_) (fun c t hc => ?_) h _
    · rw [maskFrom, if_neg hc]
      rintro _ _ rfl
      exact absurd rfl hescape
    · have hblank : blank c = ' ' := if_neg hc
      rw [maskFrom, hblank]
      rfl
  rw [hbody, maskFrom, if_pos rfl]
  rintro _ _ rfl
  exact absurd rfl hq

theorem goesOn_bare {last c : Char} (h : goesOn last c = true) : c ≠ '/' ∧ c ≠ '"' ∧ c ≠ '\'' := by
  have hnot : ∀ d, goesOn last d = false → c ≠ d := by
    rintro d hd rfl
    rw [h] at hd
    cases hd
  exact ⟨hnot _ rfl, hnot _ rfl, hnot _ rfl⟩

theorem goOn_mem {last : Char} {t : Text} (h : goOn last t = true) :
    ∀ c ∈ t, c ≠ '/' ∧ c ≠ '"' ∧ c ≠ '\'' := by
  induction t generalizing last with
  | nil => nofun
  | cons d t ih =>
      rw [goOn, Bool.and_eq_true] at h
      intro c hc
      rcases List.mem_cons.mp hc with rfl | hc
      · exact goesOn_bare h.1
      · exact ih h.2 c hc

theorem isNumber_cons {c : Char} {t : Text} (h : isNumber (c :: t) = true) :
    (isDigit c = true ∨ c = '.') ∧ goOn c t = true := by
  rw [isNumber] at h
  split at h
  · rename_i hc
    exact ⟨.inl hc, h⟩
  · simp only [Bool.and_eq_true, decide_eq_true_eq] at h
    exact ⟨.inr h.1.1, h.2⟩

theorem isNumber_mem {cs : Text} (h : isNumber cs = true) :
    ∀ c ∈ cs, c ≠ '/' ∧ c ≠ '"' ∧ c ≠ '\'' := by
  cases cs with
  | nil => nofun
  | cons d t =>
      obtain ⟨hd, ht⟩ := isNumber_cons h
      intro c hc
      rcases List.mem_cons.mp hc with rfl | hc
      · rcases hd with hd | rfl
        · refine ⟨?_, ?_, ?_⟩ <;> rintro rfl <;> cases hd
        · decide
      · exact goOn_mem ht c hc

theorem identChar_bare {c : Char} (h : identChar c = true) : c ≠ '/' ∧ c ≠ '"' ∧ c ≠ '\'' := by
  refine ⟨?_, ?_, ?_⟩ <;> rintro rfl <;> revert h <;> decide

theorem apart_of_ne {a b : Char} (h : a ≠ '/') : Apart a b := fun heq => absurd heq h

theorem isChain_of_ne {cs : Text} (h : ∀ c ∈ cs, c ≠ '/') (next : Text) (hnext : next.length ≤ 1) :
    (cs ++ next).IsChain Apart := by
  induction cs with
  | nil =>
      rw [List.nil_append]
      match next, hnext with
      | [], _ => exact .nil
      | [c], _ => exact .singleton c
  | cons c cs ih =>
      have hrest := ih fun d hd => h d (List.mem_cons_of_mem c hd)
      have hc := h c List.mem_cons_self
      exact List.isChain_cons.mpr ⟨fun d _ => apart_of_ne hc, hrest⟩

/-- No comment, string or character. -/
def Element.IsPlain : Element → Prop
  | .lineComment _ => False
  | .blockComment _ => False
  | .quoted _ _ => False
  | _ => True

/-- Such an element has no quote in it, and begins no comment. -/
theorem plain_text {e : Element} {t : Text} (hvalid : e.Valid) (hends : e.Ends t.head?)
    (hplain : e.IsPlain) :
    (∀ c ∈ e.text, c ≠ '"' ∧ c ≠ '\'') ∧ (e.text ++ t.head?.toList).IsChain Apart := by
  have hbare (cs : Text) (h : ∀ c ∈ cs, c ≠ '/' ∧ c ≠ '"' ∧ c ≠ '\'') :
      (∀ c ∈ cs, c ≠ '"' ∧ c ≠ '\'') ∧ (cs ++ t.head?.toList).IsChain Apart :=
    ⟨fun c hc => (h c hc).2, isChain_of_ne (fun c hc => (h c hc).1) _ (by cases t <;> simp)⟩
  cases e with
  | lineComment | blockComment | quoted => cases hplain
  | blank c =>
      refine hbare [c] fun d hd => ?_
      rw [List.mem_singleton.mp hd]
      have hall : ∀ c ∈ blanks, c ≠ '/' ∧ c ≠ '"' ∧ c ≠ '\'' := by simp [blanks]
      exact hall c hvalid
  | header body =>
      obtain ⟨-, hchars, hchain⟩ := hvalid
      refine ⟨fun c hc => ?_, ?_⟩
      · simp only [Element.text, List.mem_cons, List.mem_append, List.not_mem_nil, or_false] at hc
        rcases hc with rfl | hc | rfl
        · decide
        · have := hchars c hc
          simp only [List.mem_cons, not_or] at this
          exact ⟨this.2.2.1, this.2.2.2.1⟩
        · decide
      · have hend : ('>' :: t.head?.toList).IsChain Apart :=
          @isChain_of_ne ['>'] (by simp) _ (by cases t <;> simp)
        have hborder : ∀ a ∈ body.getLast?, ∀ b ∈ ('>' :: t.head?.toList).head?, Apart a b := by
          rintro a - b ⟨rfl⟩ -
          decide
        have hbody := hchain.append hend hborder
        simpa [Element.text] using
          List.isChain_cons.mpr ⟨fun d _ => apart_of_ne (a := '<') (by decide), hbody⟩
  | word cs => exact hbare cs fun c hc => identChar_bare (hvalid.2.1 c hc)
  | number cs => exact hbare cs (isNumber_mem hvalid)
  | ellipsis => exact hbare ['.', '.', '.'] (by simp)
  | punctuator c =>
      obtain ⟨-, -, hdouble, hsingle⟩ := hvalid
      refine ⟨fun d hd => ?_, ?_⟩
      · cases List.mem_singleton.mp hd
        exact ⟨hdouble, hsingle⟩
      · cases t with
        | nil => exact .singleton c
        | cons d t => exact List.isChain_pair.mpr (hends d rfl).1

/-- The masker masks element by element. -/
theorem maskFrom_element {e : Element} {t : Text} (hvalid : e.Valid) (hends : e.Ends t.head?) :
    maskFrom .code (e.text ++ t) = e.masked ++ maskFrom .code t := by
  have hbare (hplain : e.IsPlain) : maskFrom .code (e.text ++ t) = e.text ++ maskFrom .code t :=
    maskFrom_bare (plain_text hvalid hends hplain).1 (plain_text hvalid hends hplain).2
  cases e with
  | lineComment body =>
      change ' ' :: ' ' :: maskFrom .line (body ++ t) = _
      rw [maskFrom_line hvalid.1 hends]
      rfl
  | blockComment body =>
      have hblock := maskFrom_block hvalid t
      change ' ' :: ' ' :: maskFrom .block (body ++ ['*', '/'] ++ t) = _
      rw [List.append_assoc, List.cons_append, List.cons_append, List.nil_append, hblock]
      simp [Element.masked, Element.text, blank]
  | quoted q body =>
      obtain ⟨hq, hbody⟩ := hvalid
      have hquote : q = '"' ∨ q = '\'' := hq.imp id And.left
      have hne : q ≠ '\\' ∧ q ≠ '/' := by
        rcases hquote with rfl | rfl <;> decide
      have hquoted := maskFrom_quoted hne.1 hbody t
      change maskFrom .code (q :: (body.flatMap Piece.text ++ [q] ++ t)) = _
      rw [maskFrom_code fun d _ => apart_of_ne hne.2, if_pos hquote, List.append_assoc,
        List.singleton_append, hquoted]
      simp [Element.masked]
  | blank | header | word | number | ellipsis | punctuator => exact hbare trivial

theorem mask_render {before es : List Element} (h : WellLexed before es) :
    mask (render es) = visible es := by
  induction es generalizing before with
  | nil => rfl
  | cons e es ih =>
      obtain ⟨hvalid, hends, -, hrest⟩ := h
      have htail := ih hrest
      rw [mask] at htail
      rw [mask, render, List.flatMap_cons, ← render, maskFrom_element hvalid hends, htail, visible,
        visible, List.flatMap_cons]

theorem head?_mask {c : Char} {t : Text} (h : c ∈ (mask t).head?) : c = ' ' ∨ c ∈ t.head? := by
  unfold mask at h
  unfold maskFrom at h
  split at h
  · cases h
  · exact .inl (Option.some.inj h).symm
  · exact .inl (Option.some.inj h).symm
  · exact .inr h
  all_goals contradiction

theorem identChar_of_inLiteral {c : Char} (h : inLiteral c = true) : identChar c = true := by
  rw [inLiteral, Bool.or_eq_true] at h
  rcases h with h | h
  · simp [identChar, h]
  · have hcases : c = 'u' ∨ c = 'U' ∨ c = 'l' ∨ c = 'L' := by
      simpa [isSuffix, or_assoc] using h
    rcases hcases with rfl | rfl | rfl | rfl <;> decide

theorem inLiteral_of_not_identChar {c : Char} (h : identChar c = false) : inLiteral c = false := by
  rw [← Bool.not_eq_true] at h ⊢
  exact mt identChar_of_inLiteral h

theorem isNumber_ne_nil {cs : Text} (h : isNumber cs = true) : cs ≠ [] := by
  rintro rfl
  cases h

/-- Words and numbers end where no character of an identifier follows. -/
def Element.IsName : Element → Prop
  | .word _ => True
  | .number _ => True
  | _ => False

theorem next_of_isName {e : Element} {next : Option Char} (hvalid : e.Valid) (hends : e.Ends next)
    (hname : e.IsName) : ∀ c ∈ next, identChar c = false := by
  intro c hc
  cases e with
  | word cs => exact hends c hc
  | number cs =>
      have hgoes := hends c hc _ (List.getLast?_eq_some_getLast (isNumber_ne_nil hvalid))
      simp only [goesOn, Bool.or_eq_false_iff] at hgoes
      exact hgoes.1.1
  | _ => cases hname

theorem inLiteral_blank (c : Char) : inLiteral (blank c) = false := by
  rw [blank]
  split <;> rfl

/-- What an element that is no name ends with lengthens no literal. -/
theorem last_masked {e : Element} (hvalid : e.Valid) (hname : ¬ e.IsName) :
    ∀ c ∈ e.masked.getLast?, inLiteral c = false := by
  have hmap (t : Text) : ∀ c ∈ (t.map blank).getLast?, inLiteral c = false := by
    intro c hc
    obtain ⟨d, -, rfl⟩ := List.mem_map.mp (List.mem_of_getLast? hc)
    exact inLiteral_blank d
  intro c hc
  cases e with
  | blank d =>
      obtain rfl : d = c := Option.some.inj hc
      have hall : ∀ c ∈ blanks, inLiteral c = false := by
        simp [blanks, inLiteral, isDigit, isSuffix]
      exact hall d hvalid
  | lineComment body => exact hmap _ c hc
  | blockComment body => exact hmap _ c hc
  | quoted q body =>
      rw [Element.masked, ← List.cons_append, List.getLast?_concat] at hc
      obtain rfl := Option.some.inj hc
      rcases hvalid.1 with rfl | ⟨rfl, -⟩ <;> rfl
  | header body =>
      change c ∈ ('<' :: (body ++ ['>'])).getLast? at hc
      rw [← List.cons_append, List.getLast?_concat] at hc
      obtain rfl := Option.some.inj hc
      rfl
  | ellipsis =>
      obtain rfl : '.' = c := Option.some.inj hc
      rfl
  | punctuator d =>
      obtain rfl : d = c := Option.some.inj hc
      exact inLiteral_of_not_identChar hvalid.1
  | word _ | number _ => exact absurd trivial hname

/-- No literal goes across the end of an element. -/
theorem cut_masked {before es : List Element} {e : Element} (h : WellLexed before (e :: es)) :
    Cut e.masked (visible es) := by
  obtain ⟨hvalid, hends, -, hrest⟩ := h
  by_cases hname : e.IsName
  · refine .inl fun c hc => ?_
    rw [← mask_render hrest] at hc
    rcases head?_mask hc with rfl | hc
    · rfl
    · exact inLiteral_of_not_identChar (next_of_isName hvalid hends hname c hc)
  · exact .inr (last_masked hvalid hname)

end Veron.OctalToDecimal
