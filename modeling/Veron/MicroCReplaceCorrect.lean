/-
When the expansion of a function-like macro in micro-c is its body with the arguments put in.
-/
import Veron.MicroCReplace

namespace Veron.MicroC

open SelfAssembler (Byte ch text)

section Collecting

variable {m : ℕ} {after expansion segment rest a : List Lexeme} {t d : Lexeme}
  {name : Option Token} {names : List (Option Token)} {pieces : List Piece} {depth : ℕ}

theorem nesting_pos (h : endsArgument (depth + 1) t = false) : 0 < nesting (depth + 1) t := by
  rw [endsArgument, Bool.or_eq_false_iff, Bool.and_eq_false_iff, Bool.and_eq_false_iff] at h
  rw [nesting]
  split_ifs with hopen hclose
  · omega
  · have hdepth : depth ≠ 0 := by simpa [hclose] using h.2
    omega
  · omega

/-- An argument is walked to its end. -/
theorem collectArguments_segment (h : balanced depth a = true) :
    collectArguments m true (name :: names) (depth + 1) segment expansion (a ++ d :: rest) =
      collectArguments m true (name :: names) 1 (a.reverse ++ segment) expansion (d :: rest) := by
  induction a generalizing depth segment with
  | nil =>
      rw [balanced, decide_eq_true_iff] at h
      rw [h]
      rfl
  | cons t a ih =>
      rw [balanced, Bool.and_eq_true, Bool.not_eq_true'] at h
      obtain ⟨hend, hrest⟩ := h
      have hpos := nesting_pos hend
      have hne : a ++ d :: rest ≠ [] := by simp
      have hstep := @ih (t :: segment) _ hrest
      rw [Nat.sub_add_cancel hpos] at hstep
      rw [List.cons_append, collectArguments]
      simp only [hend, Bool.false_eq_true, if_false, hne]
      rw [hstep, List.reverse_cons, List.append_assoc, List.singleton_append]

theorem endsArgument_comma (h : at' d.s 0 = ch ',') :
    endsArgument 1 d = true ∧ nesting 1 d = 1 := by
  have hopen : ch ',' ≠ ch '(' := by decide
  have hclose : ch ',' ≠ ch ')' := by decide
  simp [endsArgument, nesting, h, hopen, hclose]

theorem endsArgument_close (h : at' d.s 0 = ch ')') :
    endsArgument 1 d = true ∧ nesting 1 d = 0 := by
  have hopen : ch ')' ≠ ch '(' := by decide
  simp [endsArgument, nesting, h, hopen]

/-- The end of an argument: the argument as it is taken replaces its parameter. -/
theorem collectArguments_end (h : endsArgument 1 d = true) :
    collectArguments m true (name :: names) 1 segment expansion (d :: rest) =
      substitute m name (if segment = [] then d :: rest else segment.reverse) expansion >>=
        fun e =>
          if rest = [] then .error (.exit "NULL token found in function-like macro arguments\n")
          else if nesting 1 d = 0 then .ok (e, rest)
          else collectArguments m true names (nesting 1 d) [] e rest := by
  rw [collectArguments]
  simp only [h, if_true]
  refine bind_congr fun e => ?_
  split_ifs <;> rfl

theorem taken_cons (a : List Lexeme) (d : Lexeme) (ps : List Piece) :
    taken after ((a, d) :: ps) =
      (if a = [] then d :: (written ps ++ after) else a) :: taken after ps := rfl

theorem written_cons (a : List Lexeme) (d : Lexeme) (ps : List Piece) :
    written ((a, d) :: ps) ++ after = a ++ d :: (written ps ++ after) := by
  simp [written]

theorem written_ne_nil (h : Delimited pieces) : written pieces ≠ [] := by
  cases pieces with
  | nil => exact h.elim
  | cons p ps => simp [written]

theorem collectArguments_pieces (h : Delimited pieces) (hcount : names.length = pieces.length) :
    collectArguments m true names 1 [] expansion (written pieces ++ after) =
      substituteAll m (names.zip (taken after pieces)) expansion >>= fun e =>
        if after = [] then .error (.exit "NULL token found in function-like macro arguments\n")
        else .ok (e, after) := by
  induction pieces generalizing names expansion with
  | nil => exact h.elim
  | cons p ps ih =>
      obtain ⟨a, d⟩ := p
      obtain ⟨name, names, rfl⟩ := List.exists_cons_of_length_eq_add_one hcount
      have hseg : a.reverse ++ [] = [] ↔ a = [] := by simp
      have hrev : (a.reverse ++ []).reverse = a := by simp
      rw [written_cons, taken_cons, List.zip_cons_cons, substituteAll, bind_assoc]
      cases ps with
      | nil =>
          obtain ⟨hbalanced, hclose⟩ := h
          obtain ⟨hend, hnest⟩ := endsArgument_close hclose
          rw [collectArguments_segment hbalanced, collectArguments_end hend, hrev, hnest]
          simp only [hseg]
          have hlast : written ([] : List Piece) ++ after = after := rfl
          refine bind_congr fun e => ?_
          rw [hlast, if_pos trivial, taken, List.zip_nil_right]
          rfl
      | cons p ps =>
          obtain ⟨hbalanced, hcomma, hmore⟩ := h
          obtain ⟨hend, hnest⟩ := endsArgument_comma hcomma
          have hrest : written (p :: ps) ++ after ≠ [] := by simp [written_ne_nil hmore]
          have hcount' : names.length = (p :: ps).length := Nat.succ_inj.mp hcount
          rw [collectArguments_segment hbalanced, collectArguments_end hend, hrev, hnest]
          simp only [hseg]
          refine bind_congr fun e => ?_
          rw [if_neg hrest, if_neg Nat.one_ne_zero, ih hmore hcount']

end Collecting

section Pasting

variable {m : ℕ} {l r : List Lexeme}

theorem paste_operator {x op y : Lexeme} {rest : List Lexeme} (hop : op.s = text ['#', '#']) :
    paste m (x :: op :: y :: rest) =
      if m ≤ (x.s ++ y.s).length then .error .undefined
      else paste m ({ x with s := x.s ++ y.s } :: rest) := by
  rw [paste, if_pos hop]

theorem paste_other {x op y : Lexeme} {rest : List Lexeme} (hop : op.s ≠ text ['#', '#']) :
    paste m (x :: op :: y :: rest) = paste m (op :: y :: rest) >>= fun l => .ok (x :: l) := by
  rw [paste, if_neg hop]

theorem pasteless_cons {x : Lexeme} (h : Pasteless (texts (x :: l))) : Pasteless (texts l) := by
  rintro ⟨front, u, v, back, hl⟩
  refine h ⟨x.s :: front, u, v, back, ?_⟩
  rw [List.cons_append, ← hl]
  rfl

theorem paste_of_pasteless (h : Pasteless (texts l)) : paste m l = .ok l := by
  induction l using paste.induct m with
  | case1 x op y rest hop hlong => exact absurd ⟨[], x.s, y.s, texts rest, by simp [texts, hop]⟩ h
  | case2 x op y rest hop hlong ih =>
      exact absurd ⟨[], x.s, y.s, texts rest, by simp [texts, hop]⟩ h
  | case3 x op y rest hop ih =>
      rw [paste_other hop, ih (pasteless_cons h)]
      rfl
  | case4 l hl =>
      unfold paste
      split
      · exact absurd rfl (hl _ _ _ _)
      · rfl

theorem length_paste_le (h : paste m l = .ok r) : r.length ≤ l.length := by
  induction l using paste.induct m generalizing r with
  | case1 x op y rest hop hlong =>
      rw [paste_operator hop, if_pos hlong] at h
      cases h
  | case2 x op y rest hop hlong ih =>
      rw [paste_operator hop, if_neg hlong] at h
      have hle := ih h
      simp only [List.length_cons] at hle ⊢
      omega
  | case3 x op y rest hop ih =>
      rw [paste_other hop] at h
      obtain ⟨l', hl', heq⟩ := bind_eq_ok.mp h
      cases heq
      exact Nat.succ_le_succ (ih hl')
  | case4 l hl =>
      unfold paste at h
      split at h
      · exact absurd rfl (hl _ _ _ _)
      · cases h
        exact le_rfl

/-- An operator between two tokens makes the list shorter. -/
theorem length_paste_lt (hpaste : ¬ Pasteless (texts l)) (h : paste m l = .ok r) :
    r.length < l.length := by
  induction l using paste.induct m generalizing r with
  | case1 x op y rest hop hlong =>
      rw [paste_operator hop, if_pos hlong] at h
      cases h
  | case2 x op y rest hop hlong ih =>
      rw [paste_operator hop, if_neg hlong] at h
      have hle := length_paste_le h
      simp only [List.length_cons] at hle ⊢
      omega
  | case3 x op y rest hop ih =>
      rw [paste_other hop] at h
      obtain ⟨l', hl', heq⟩ := bind_eq_ok.mp h
      cases heq
      refine Nat.succ_lt_succ (ih (fun hrest => hpaste ?_) hl')
      rintro ⟨front, u, v, back, heq⟩
      cases front with
      | nil =>
          have hop' : op.s = text ['#', '#'] := by
            simpa [texts] using congrArg (fun s => s.getD 1 []) heq
          exact hop hop'
      | cons w front =>
          exact hrest ⟨front, u, v, back, (List.cons.inj heq).2⟩
  | case4 l hl =>
      obtain ⟨front, u, v, back, heq⟩ := not_not.mp hpaste
      have hlen := congrArg List.length heq
      rw [texts, List.length_map, List.length_append, List.length_cons, List.length_cons,
        List.length_cons] at hlen
      rcases l with _ | ⟨x, _ | ⟨op, _ | ⟨y, rest⟩⟩⟩
      · exact absurd hlen (by simp)
      · exact absurd hlen (by simp only [List.length_singleton]; omega)
      · exact absurd hlen (by simp only [List.length_cons, List.length_nil]; omega)
      · exact absurd rfl (hl _ _ _ _)

end Pasting

section Operators

variable {m : ℕ} {argument l r : List Lexeme} {name : Option Token}
  {subs : List (Option Token × List Lexeme)}

/-- No token is `##`. -/
def NoPaste (l : List Lexeme) : Prop := ∀ t ∈ l, t.s ≠ text ['#', '#']

instance (l : List Lexeme) : Decidable (NoPaste l) :=
  inferInstanceAs (Decidable (∀ t ∈ l, t.s ≠ text ['#', '#']))

theorem head_joinWord {acc acc' : Token} {w : Lexeme} (hacc : acc.head? = some (ch '"'))
    (h : joinWord m acc w = .ok acc') : acc'.head? = some (ch '"') := by
  obtain ⟨rest, rfl⟩ := List.head?_eq_some_iff.mp hacc
  rw [joinWord] at h
  split_ifs at h
  all_goals
    cases h
    rfl

theorem head_stringify {s : Token} (h : stringify m argument = .ok s) :
    s.head? = some (ch '"') := by
  have hfold : ∀ acc : Token, acc.head? = some (ch '"') →
      argument.foldlM (joinWord m) acc = .ok s → s.head? = some (ch '"') := by
    clear h
    induction argument with
    | nil =>
        intro acc hacc hs
        cases hs
        exact hacc
    | cons w l ih =>
        intro acc hacc hs
        rw [List.foldlM_cons] at hs
        obtain ⟨acc', hstep, hs⟩ := bind_eq_ok.mp hs
        exact ih acc' (head_joinWord hacc hstep) hs
  exact hfold _ rfl h

theorem noPaste_substitute (harg : NoPaste argument) (hl : NoPaste l)
    (h : substitute m name argument l = .ok r) : NoPaste r := by
  induction l generalizing r with
  | nil =>
      cases h
      exact hl
  | cons t l ih =>
      simp only [substitute, bind_eq_ok, Except.ok.injEq] at h
      obtain ⟨piece, ht, rest, hrest, rfl⟩ := h
      have hpiece : NoPaste piece := by
        unfold substituteToken at ht
        split_ifs at ht
        · obtain ⟨s, hs, heq⟩ := bind_eq_ok.mp ht
          cases heq
          intro u hu
          cases List.mem_singleton.mp hu
          intro heq
          have hhead := head_stringify hs
          change s = _ at heq
          rw [heq] at hhead
          revert hhead
          decide
        · cases ht
          exact harg
        · cases ht
          intro u hu
          cases List.mem_singleton.mp hu
          exact hl t List.mem_cons_self
      intro u hu
      rcases List.mem_append.mp hu with hu | hu
      · exact hpiece u hu
      · exact ih (fun v hv => hl v (List.mem_cons_of_mem t hv)) hrest u hu

theorem noPaste_substituteAll (hsubs : ∀ sub ∈ subs, NoPaste sub.2) (hl : NoPaste l)
    (h : substituteAll m subs l = .ok r) : NoPaste r := by
  induction subs generalizing l with
  | nil =>
      cases h
      exact hl
  | cons sub subs ih =>
      obtain ⟨l', hl', hr⟩ := bind_eq_ok.mp h
      exact ih (fun s hs => hsubs s (List.mem_cons_of_mem sub hs))
        (noPaste_substitute (hsubs sub List.mem_cons_self) hl hl') hr

theorem pasteless_of_noPaste (h : NoPaste l) : Pasteless (texts l) := by
  rintro ⟨front, x, y, back, heq⟩
  have hmem : text ['#', '#'] ∈ texts l := by
    rw [heq]
    simp
  obtain ⟨t, ht, hop⟩ := List.mem_map.mp hmem
  exact h t ht hop

end Operators

/-- An invocation of a function-like macro at the cursor, with as many arguments as it has
parameters, and no operator in its body. -/
structure Invocation (c : Cursor) where
  token : Lexeme
  opening : Lexeme
  pieces : List Piece
  after : List Lexeme
  hold : Macro
  names : List (Option Token)
  ahead : c.ahead = token :: opening :: (written pieces ++ after)
  unpainted : token.noExpand = false
  found : (lookupMacro c.env token).2 = some hold
  parameters : hold.arguments = some names
  distinct : names.Nodup
  count : names.length = pieces.length
  opened : at' opening.s 0 = ch '('
  delimited : Delimited pieces
  plain : ∀ t ∈ hold.expansion, at' t.s 0 ≠ ch '#'

namespace Invocation

variable {m : ℕ} {c c' : Cursor} (i : Invocation c)

/-- The body with its parameters replaced at once. -/
def replacement : List Token := replaceAll (i.names.zip (i.pieces.map Prod.fst)) i.hold.expansion

/-- What is spliced in is the body with its parameters replaced, before what follows the
invocation. -/
def Replaced (maxString : ℕ) : Prop :=
  ∃ c' spliced, maybeExpand maxString c = .ok c' ∧ c'.before = c.before ∧
    c'.ahead = spliced ++ i.after ∧ texts spliced = i.replacement

/-- A token stands on either side, the bound on expansions is not reached, the arguments that
are used are kept, and no `##` comes between two tokens. -/
structure Right (maxString : ℕ) : Prop where
  preceded : c.before ≠ []
  followed : i.after ≠ []
  bounded : i.hold.expansion ≠ [] → c.depth < 10000
  kept : Kept maxString i.after i.hold.expansion i.names i.pieces
  pasteless : Pasteless i.replacement

theorem maybeExpand_eq (hbefore : c.before ≠ []) : maybeExpand m c =
    substituteAll m (i.names.zip (taken i.after i.pieces)) i.hold.expansion >>= fun e =>
      if i.after = [] then
        .error (.exit "NULL token found in function-like macro arguments\n")
      else splice m { c with env := (lookupMacro c.env i.token).1 } i.token i.hold e i.after := by
  have hlookup : lookupMacro c.env i.token = ((lookupMacro c.env i.token).1, some i.hold) :=
    Prod.ext rfl i.found
  have hopened : ¬ at' i.opening.s 0 ≠ ch '(' := not_not_intro i.opened
  rw [maybeExpand, i.ahead]
  simp only [i.unpainted, Bool.false_eq_true, if_false]
  rw [hlookup]
  simp only [i.parameters, if_neg hopened, hbefore, ne_eq, not_false_eq_true, decide_true,
    if_false]
  rw [collectArguments_pieces i.delimited i.count, bind_assoc]
  refine bind_congr fun e => ?_
  by_cases hafter : i.after = []
  · rw [if_pos hafter, if_pos hafter]
    rfl
  · rw [if_neg hafter, if_neg hafter]
    rfl

theorem maybeExpand_ne_ok (i : Invocation c) (hbefore : c.before = []) :
    maybeExpand m c ≠ .ok c' := by
  have hlookup : lookupMacro c.env i.token = ((lookupMacro c.env i.token).1, some i.hold) :=
    Prod.ext rfl i.found
  have hopened : ¬ at' i.opening.s 0 ≠ ch '(' := not_not_intro i.opened
  rw [maybeExpand, i.ahead]
  simp only [i.unpainted, Bool.false_eq_true, if_false]
  rw [hlookup]
  simp only [i.parameters, if_neg hopened, hbefore]
  intro h
  obtain ⟨e, -, he⟩ := bind_eq_ok.mp h
  cases he

/-- What the splice of an expansion leaves. -/
theorem splice_ok {token : Lexeme} {hold : Macro} {e ahead : List Lexeme}
    (h : splice m c token hold e ahead = .ok c') (hbody : hold.expansion ≠ []) :
    ∃ pasted, paste m e = .ok pasted ∧ c.depth < 10000 ∧ c'.before = c.before ∧
      c'.ahead = insertTokens (paint hold.symbol pasted) token.filename token.linenumber ++
        ahead := by
  rw [splice, if_neg hbody] at h
  obtain ⟨pasted, hpasted, h⟩ := bind_eq_ok.mp h
  change (if 10000 ≤ c.depth then _ else _) = _ at h
  by_cases hdepth : 10000 ≤ c.depth
  · rw [if_pos hdepth] at h
    cases h
  · rw [if_neg hdepth] at h
    cases h
    exact ⟨pasted, hpasted, Nat.not_le.mp hdepth, rfl, rfl⟩

theorem splice_empty {token : Lexeme} {hold : Macro} {e ahead : List Lexeme}
    (hbody : hold.expansion = []) :
    splice m c token hold e ahead = .ok { c with ahead := ahead } := by
  rw [splice, if_pos hbody]

theorem texts_insertTokens (symbol file : Token) (line : ℕ) (l : List Lexeme) :
    texts (insertTokens (paint symbol l) file line) = texts l := by
  rw [texts, insertTokens, paint, List.map_map, List.map_map]
  refine List.map_congr_left fun t _ => ?_
  change (if t.s = symbol then { t with noExpand := true } else t).s = t.s
  split_ifs <;> rfl

theorem replaced_of_right (h : i.Right m) : i.Replaced m := by
  obtain ⟨e, he, htexts⟩ := (substituteAll_iff i.distinct i.plain).mpr h.kept
  have hrun : maybeExpand m c =
      splice m { c with env := (lookupMacro c.env i.token).1 } i.token i.hold e i.after := by
    rw [i.maybeExpand_eq h.preceded, he]
    exact if_neg h.followed
  have hpaste : paste m e = .ok e := paste_of_pasteless (htexts ▸ h.pasteless)
  by_cases hbody : i.hold.expansion = []
  · rw [splice_empty hbody] at hrun
    exact ⟨_, [], hrun, rfl, rfl, by simp [replacement, replaceAll, hbody, texts]⟩
  · rw [splice, if_neg hbody, hpaste] at hrun
    refine ⟨_, _, hrun.trans (if_neg (Nat.not_le.mpr (h.bounded hbody))), rfl, rfl, ?_⟩
    rw [texts_insertTokens]
    exact htexts

/-- What went right took arguments that are kept, unless an operator came with them. -/
theorem right_of_replaced (h : i.Replaced m)
    (hplain : (∀ a ∈ taken i.after i.pieces, NoPaste a) ∨
      Kept m i.after i.hold.expansion i.names i.pieces) : i.Right m := by
  obtain ⟨c', spliced, hrun, -, hahead, hspliced⟩ := h
  have hbefore : c.before ≠ [] := fun hnil => i.maybeExpand_ne_ok hnil hrun
  rw [i.maybeExpand_eq hbefore] at hrun
  obtain ⟨e, he, hrun⟩ := bind_eq_ok.mp hrun
  have hafter : i.after ≠ [] := by
    intro hnil
    rw [if_pos hnil] at hrun
    cases hrun
  rw [if_neg hafter] at hrun
  by_cases hbody : i.hold.expansion = []
  · refine ⟨hbefore, hafter, fun hne => absurd hbody hne, ?_, ?_⟩
    · rw [← substituteAll_iff i.distinct i.plain, hbody]
      exact ⟨[], substituteAll_nil _, rfl⟩
    · rintro ⟨front, x, y, back, heq⟩
      simp [replacement, replaceAll, hbody] at heq
  · obtain ⟨pasted, hpasted, hdepth, -, hahead'⟩ := splice_ok hrun hbody
    rw [hahead'] at hahead
    have hpieces := List.append_cancel_right hahead
    have htexts : texts pasted = i.replacement := by
      rw [← hspliced, ← hpieces, texts_insertTokens]
    -- The arguments are kept: with no operator about, what is put in is what is there.
    have hkept : Kept m i.after i.hold.expansion i.names i.pieces := by
      rcases hplain with hplain | hkept
      · have hnone : NoPaste e := by
          refine noPaste_substituteAll (fun sub hsub => ?_) (fun t ht heq => ?_) he
          · exact hplain _ (List.of_mem_zip (a := sub.1) (b := sub.2) hsub).2
          · exact i.plain t ht (by rw [heq]; rfl)
        rw [paste_of_pasteless (pasteless_of_noPaste hnone)] at hpasted
        cases hpasted
        exact (substituteAll_iff i.distinct i.plain).mp ⟨e, he, htexts⟩
      · exact hkept
    refine ⟨hbefore, hafter, fun _ => hdepth, hkept, ?_⟩
    obtain ⟨e', he', htexts'⟩ := (substituteAll_iff i.distinct i.plain).mpr hkept
    rw [he] at he'
    cases he'
    by_contra hpaste
    rw [replacement, ← htexts'] at hpaste
    have hlt := length_paste_lt hpaste hpasted
    have hlen := congrArg List.length (htexts.trans htexts'.symm)
    rw [texts, texts, List.length_map, List.length_map] at hlen
    omega

/-- The body is replaced at once exactly when the arguments that it uses are neither empty nor
changed by those put in after them, and the list goes on around the invocation.  Only when an
argument that is changed brings a `##` along is the second part silent. -/
theorem replaced_iff (maxString : ℕ) (i : Invocation c) :
    (i.Right maxString → i.Replaced maxString) ∧
    ((∀ a ∈ taken i.after i.pieces, NoPaste a) ∨
      Kept maxString i.after i.hold.expansion i.names i.pieces →
      i.Replaced maxString → i.Right maxString) :=
  ⟨i.replaced_of_right, fun hplain h => i.right_of_replaced h hplain⟩

/-- `s`, on the first line of a file. -/
def lexeme (s : List Char) : Lexeme := ⟨text s, text ['a', '.', 'c'], 1, false⟩

/-- `#define F(x, y) x y`. -/
def pairMacro : Macro :=
  ⟨text ['F'], [lexeme ['x'], lexeme ['y']], some [some (text ['x']), some (text ['y'])]⟩

/-- `F(a, b);` on a line of its own. -/
def pairCursor (a b : Lexeme) : Cursor where
  before := [lexeme ['\n']]
  ahead := [lexeme ['F'], lexeme ['('], a, lexeme [','], b, lexeme [')'], lexeme [';']]
  env := [pairMacro]
  depth := 0

def pair (a b : List Char) (ha : balanced 0 [lexeme a] = true) (hb : balanced 0 [lexeme b] = true) :
    Invocation (pairCursor (lexeme a) (lexeme b)) where
  token := lexeme ['F']
  opening := lexeme ['(']
  pieces := [([lexeme a], lexeme [',']), ([lexeme b], lexeme [')'])]
  after := [lexeme [';']]
  hold := pairMacro
  names := [some (text ['x']), some (text ['y'])]
  ahead := rfl
  unpainted := rfl
  found := rfl
  parameters := rfl
  distinct := by decide
  count := rfl
  opened := rfl
  delimited := ⟨ha, rfl, hb, rfl⟩
  plain := by decide

theorem pair_replaced : (pair ['a'] ['b'] (by decide) (by decide)).Replaced 4096 :=
  (replaced_iff 4096 _).1
    { preceded := by decide
      followed := by decide
      bounded := fun _ => by decide
      kept := ⟨fun _ => ⟨by decide, _, rfl, rfl⟩, fun _ => ⟨by decide, _, rfl, rfl⟩, trivial⟩
      pasteless := pasteless_of_noPaste (l := [lexeme ['a'], lexeme ['b']]) (by decide) }

/-- `F(y, z)` becomes `z z`. -/
theorem pair_captured : ¬ (pair ['y'] ['z'] (by decide) (by decide)).Replaced 4096 := by
  intro h
  have hplain : ∀ a ∈ taken (pair ['y'] ['z'] (by decide) (by decide)).after
      (pair ['y'] ['z'] (by decide) (by decide)).pieces, NoPaste a := by
    decide
  obtain ⟨hfirst, -⟩ := (right_of_replaced _ h (.inl hplain)).kept
  obtain ⟨-, r, hr, htexts⟩ := hfirst ⟨lexeme ['x'], by decide, rfl⟩
  cases hr
  revert htexts
  decide

end Invocation

end Veron.MicroC
