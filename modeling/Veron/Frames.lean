/-
Frames written one after another: a mark, a header, a mark and a body.  No header has the
mark in it, but a body may, and then two lists of frames can be one text.
-/
import Veron.CutText

namespace Veron.Frames

variable {α : Type*}

def text (mark : α) (frames : List (List α × List α)) : List α :=
  frames.flatMap fun x => mark :: (x.1 ++ mark :: x.2)

/-- One body goes on in `m` where it ends in `l`, with what is written of the frames that
follow in `l`. -/
def Imitates (mark : α) (l m : List (List α × List α)) : Prop :=
  ∃ before header body more l' m', l = before ++ (header, body) :: l' ∧
    m = before ++ (header, body ++ more) :: m' ∧ more ≠ [] ∧ text mark l' = more ++ text mark m'

variable {mark : α} {l m : List (List α × List α)}

theorem text_cons (x : List α × List α) :
    text mark (x :: l) = mark :: (x.1 ++ mark :: (x.2 ++ text mark l)) := by
  simp [text]

theorem text_append : text mark (l ++ m) = text mark l ++ text mark m :=
  List.flatMap_append

theorem Imitates.cons (h : Imitates mark l m) (x : List α × List α) :
    Imitates mark (x :: l) (x :: m) := by
  obtain ⟨before, header, body, more, l', m', rfl, rfl, hmore⟩ := h
  exact ⟨x :: before, header, body, more, l', m', rfl, rfl, hmore⟩

theorem Imitates.text_eq (h : Imitates mark l m) : text mark l = text mark m := by
  obtain ⟨before, header, body, more, l', m', rfl, rfl, -, htext⟩ := h
  rw [text_append, text_append, text_cons, text_cons, htext, List.append_assoc]

theorem Imitates.ne (h : Imitates mark l m) : l ≠ m := by
  obtain ⟨before, header, body, more, l', m', rfl, rfl, hmore, -⟩ := h
  intro heq
  have hbody := (Prod.mk.inj (List.cons.inj (List.append_cancel_left heq)).1).2
  exact hmore (by simpa using hbody)

theorem not_imitates (hm : ∀ x ∈ m, mark ∉ x.2) : ¬ Imitates mark l m := by
  rintro ⟨before, header, body, more, l', m', -, rfl, hmore, htext⟩
  have hbody := hm (header, body ++ more) (by simp)
  obtain ⟨c, more, rfl⟩ := List.exists_cons_of_ne_nil hmore
  cases l' with
  | nil => cases htext
  | cons x l' =>
      rw [text_cons] at htext
      obtain rfl := (List.cons.inj htext).1
      simp at hbody

/-- Different lists of frames are one text only where a body imitates frames. -/
theorem text_eq_iff (hl : ∀ x ∈ l, mark ∉ x.1) (hm : ∀ x ∈ m, mark ∉ x.1) :
    text mark l = text mark m ↔ l = m ∨ Imitates mark l m ∨ Imitates mark m l := by
  constructor
  · intro h
    induction l generalizing m with
    | nil =>
        cases m with
        | nil => exact .inl rfl
        | cons y m => cases h
    | cons x l ih =>
        cases m with
        | nil => cases h
        | cons y m =>
            rw [text_cons, text_cons] at h
            obtain ⟨hheader, hrest⟩ := CutText.append_cons_inj_of_notMem
              (hl x List.mem_cons_self) (hm y List.mem_cons_self) (List.cons.inj h).2
            obtain ⟨header, body⟩ := x
            obtain ⟨header', body'⟩ := y
            obtain rfl : header = header' := hheader
            by_cases hbody : body = body'
            · subst hbody
              have htail := ih (fun z hz => hl z (List.mem_cons_of_mem _ hz))
                (fun z hz => hm z (List.mem_cons_of_mem _ hz)) (List.append_cancel_left hrest)
              exact htail.imp (fun heq => by rw [heq])
                (Or.imp (fun him => him.cons _) fun him => him.cons _)
            · -- The shorter of the two bodies is the first part of the other.
              rcases List.append_eq_append_iff.mp hrest with ⟨more, rfl, hmore⟩ | ⟨more, rfl, hmore⟩
              · refine .inr (.inl ⟨[], header, body, more, l, m, rfl, rfl, ?_, hmore⟩)
                rintro rfl
                exact hbody (List.append_nil body).symm
              · refine .inr (.inr ⟨[], header, body', more, m, l, rfl, rfl, ?_, hmore⟩)
                rintro rfl
                exact hbody (List.append_nil body')
  · rintro (rfl | h | h)
    · rfl
    · exact h.text_eq
    · exact h.text_eq.symm

end Veron.Frames
