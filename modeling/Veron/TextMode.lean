/-
Files read in text mode: every end of a line becomes a newline, and bytes that encode no character
are replaced or refused.
-/
import Mathlib.Data.List.Basic
import Mathlib.Tactic.Common

namespace Veron.TextMode

/-- What a decoder finds next in a file: a character, or bytes that encode none. -/
inductive Coded where
  | char (c : Char)
  | undecodable (bytes : List UInt8)
  deriving DecidableEq

/-- What becomes one character of the text. -/
inductive Piece where
  | coded (x : Coded)
  | carriageReturn
  | returnNewline

def pieces : List Coded → List Piece
  | [] => []
  | .char '\r' :: .char '\n' :: rest => .returnNewline :: pieces rest
  | .char '\r' :: rest => .carriageReturn :: pieces rest
  | x :: rest => .coded x :: pieces rest

/-- What a piece stands for in the file. -/
def Piece.raw : Piece → List Coded
  | .coded x => [x]
  | .carriageReturn => [.char '\r']
  | .returnNewline => [.char '\r', .char '\n']

/-- Nothing of the file is left out. -/
theorem flatMap_raw_pieces (file : List Coded) : (pieces file).flatMap Piece.raw = file := by
  fun_induction pieces file with
  | case1 => rfl
  | case2 rest ih => rw [List.flatMap_cons, ih]; rfl
  | case3 rest _ ih => rw [List.flatMap_cons, ih]; rfl
  | case4 x rest _ _ ih => rw [List.flatMap_cons, ih]; rfl

/-- The replacement character stands for bytes that encode none. -/
def Piece.read : Piece → Char
  | .coded (.char c) => c
  | .coded (.undecodable _) => '\uFFFD'
  | .carriageReturn | .returnNewline => '\n'

def Coded.isChar : Coded → Bool
  | .char _ => true
  | .undecodable _ => false

/-- `open(path, errors='replace').read()`. -/
def readReplacing (file : List Coded) : List Char := (pieces file).map Piece.read

/-- `open(path).read()`; bytes that encode no character end the program. -/
def readStrict (file : List Coded) : Option (List Char) :=
  if file.all Coded.isChar then some (readReplacing file) else none

/-- A text as it is written. -/
def write (text : List Char) : List Coded := text.map .char

theorem write_append (a b : List Char) : write (a ++ b) = write a ++ write b := List.map_append

theorem write_injective : Function.Injective write :=
  List.map_injective_iff.mpr fun _ _ h => Coded.char.inj h

/-- What comes back as it was read. -/
def Clean (file : List Coded) : Prop := ∃ text : List Char, '\r' ∉ text ∧ file = write text

theorem clean_of_chars {file : List Coded} (h : ∀ x ∈ file, ∃ c, x = .char c ∧ c ≠ '\r') :
    Clean file := by
  induction file with
  | nil => exact ⟨[], List.not_mem_nil, rfl⟩
  | cons x file ih =>
      rw [List.forall_mem_cons] at h
      obtain ⟨⟨c, rfl, hc⟩, hrest⟩ := h
      obtain ⟨text, hreturn, rfl⟩ := ih hrest
      exact ⟨c :: text, List.not_mem_cons_of_ne_of_not_mem hc.symm hreturn, rfl⟩

theorem pieces_write {text : List Char} (h : '\r' ∉ text) :
    pieces (write text) = text.map fun c => .coded (.char c) := by
  induction text with
  | nil => rfl
  | cons c text ih =>
      rw [List.mem_cons, not_or] at h
      rw [write, List.map_cons, ← write, pieces, ih h.2]
      · rfl
      · rintro _ heq
        exact absurd (Coded.char.inj heq).symm h.1
      · intro heq
        exact absurd (Coded.char.inj heq).symm h.1

theorem readReplacing_write {text : List Char} (h : '\r' ∉ text) :
    readReplacing (write text) = text := by
  rw [readReplacing, pieces_write h, List.map_map]
  exact List.map_id text

theorem not_mem_read_pieces (file : List Coded) : '\r' ∉ readReplacing file := by
  rw [readReplacing]
  fun_induction pieces file with
  | case1 => nofun
  | case2 rest ih => simpa [Piece.read] using ih
  | case3 rest _ ih => simpa [Piece.read] using ih
  | case4 x rest hpair hreturn ih =>
      rw [List.map_cons, List.mem_cons, not_or]
      refine ⟨?_, ih⟩
      cases x with
      | char c =>
          rintro rfl
          exact hreturn rfl
      | undecodable bytes => simp [Piece.read]

/-- Without ends of lines and replacements, what is read is what stands there. -/
theorem eq_write {file : List Coded} (hline : '\n' ∉ readReplacing file)
    (hbad : '\uFFFD' ∉ readReplacing file) : file = write (readReplacing file) := by
  rw [readReplacing] at hline hbad ⊢
  fun_induction pieces file with
  | case1 => rfl
  | case2 | case3 => exact absurd List.mem_cons_self hline
  | case4 x rest _ _ ih =>
      rw [List.map_cons, List.mem_cons, not_or] at hline hbad
      cases x with
      | char c => exact congrArg _ (ih hline.2 hbad.2)
      | undecodable bytes => exact absurd rfl hbad.1

/-- A file is clean if its text, written, is the file. -/
theorem clean_iff {file : List Coded} : Clean file ↔ write (readReplacing file) = file := by
  constructor
  · rintro ⟨text, hreturn, rfl⟩
    rw [readReplacing_write hreturn]
  · intro h
    exact ⟨_, not_mem_read_pieces file, h.symm⟩

end Veron.TextMode
