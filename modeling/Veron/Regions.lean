/-
Byte strings by their regions: taking one out, writing over one, and numbered
blocks written each at its place.
-/
import Mathlib.Data.List.Nodup
import Mathlib.Tactic.Common
import Veron.Dict

namespace Veron

section Regions

variable {α : Type}

/-- The `n` items from `off` on, or as many as there are. -/
def slice (bs : List α) (off n : ℕ) : List α := (bs.drop off).take n

/-- `data` written over what stands from `off` on. -/
def overwrite (bs : List α) (off : ℕ) (data : List α) : List α :=
  bs.take off ++ (data ++ bs.drop (off + data.length))

theorem getElem?_slice (bs : List α) (off n i : ℕ) :
    (slice bs off n)[i]? = if i < n then bs[off + i]? else none := by
  rw [slice, List.getElem?_take, List.getElem?_drop]

theorem slice_length (bs : List α) (off n : ℕ) :
    (slice bs off n).length = min n (bs.length - off) := by
  rw [slice, List.length_take, List.length_drop]

theorem slice_length_of_le {bs : List α} {off n : ℕ} (h : off + n ≤ bs.length) :
    (slice bs off n).length = n := by
  rw [slice_length]
  omega

/-- Two places hold the same when they agree item by item. -/
theorem slice_congr {as bs : List α} {p q n : ℕ} (h : ∀ i < n, as[p + i]? = bs[q + i]?) :
    slice as p n = slice bs q n := by
  apply List.ext_getElem?
  intro i
  rw [getElem?_slice, getElem?_slice]
  split
  · exact h i ‹_›
  · rfl

theorem slice_slice {bs : List α} {off n p k : ℕ} (h : p + k ≤ n) :
    slice (slice bs off n) p k = slice bs (off + p) k := by
  apply slice_congr
  intro i hi
  rw [getElem?_slice, if_pos (by omega), Nat.add_assoc]

theorem slice_append_left {as bs : List α} {off n : ℕ} (h : off + n ≤ as.length) :
    slice (as ++ bs) off n = slice as off n := by
  apply slice_congr
  intro i hi
  exact List.getElem?_append_left (by omega)

theorem slice_append_right {as bs : List α} {off n : ℕ} (h : as.length ≤ off) :
    slice (as ++ bs) off n = slice bs (off - as.length) n := by
  apply slice_congr
  intro i hi
  rw [List.getElem?_append_right (by omega), Nat.sub_add_comm h]

/-- The piece in the middle. -/
theorem slice_middle (as : List α) {bs : List α} (cs : List α) {off n : ℕ}
    (hoff : as.length = off) (hn : bs.length = n) : slice (as ++ (bs ++ cs)) off n = bs := by
  rw [slice, List.drop_left' hoff, List.take_left' hn]

theorem slice_zero_length (bs : List α) : slice bs 0 bs.length = bs := by
  rw [slice, List.drop_zero, List.take_length]

theorem slice_split {bs : List α} {off m n : ℕ} :
    slice bs off (m + n) = slice bs off m ++ slice bs (off + m) n := by
  rw [slice, List.take_add, List.drop_drop, slice, slice]

theorem getElem?_overwrite {bs data : List α} {off : ℕ} (h : off + data.length ≤ bs.length)
    (i : ℕ) : (overwrite bs off data)[i]? =
      if off ≤ i ∧ i < off + data.length then data[i - off]? else bs[i]? := by
  have htake : (bs.take off).length = off := List.length_take_of_le (by omega)
  rw [overwrite]
  by_cases hbefore : i < off
  · rw [if_neg (by omega), List.getElem?_append_left (by omega), List.getElem?_take,
      if_pos hbefore]
  · rw [List.getElem?_append_right (by omega), htake]
    by_cases hwithin : i < off + data.length
    · rw [if_pos (by omega), List.getElem?_append_left (by omega)]
    · rw [if_neg (by omega), List.getElem?_append_right (by omega), List.getElem?_drop]
      congr 1
      omega

theorem overwrite_length {bs data : List α} {off : ℕ} (h : off + data.length ≤ bs.length) :
    (overwrite bs off data).length = bs.length := by
  simp only [overwrite, List.length_append, List.length_take, List.length_drop]
  omega

theorem overwrite_length_eq {bs data : List α} {off m : ℕ} (hm : bs.length = m)
    (h : off + data.length ≤ m) : (overwrite bs off data).length = m := by
  rw [overwrite_length (by omega), hm]

/-- What was written is there. -/
theorem slice_overwrite_within {bs data : List α} {off p n : ℕ}
    (h : off + data.length ≤ bs.length) (hp : off ≤ p) (hn : p + n ≤ off + data.length) :
    slice (overwrite bs off data) p n = slice data (p - off) n := by
  apply slice_congr
  intro i hi
  rw [getElem?_overwrite h, if_pos (by omega), Nat.sub_add_comm hp]

theorem slice_overwrite_self {bs data : List α} {off : ℕ}
    (h : off + data.length ≤ bs.length) :
    slice (overwrite bs off data) off data.length = data := by
  rw [slice_overwrite_within h (Nat.le_refl _) (Nat.le_refl _), Nat.sub_self,
    slice_zero_length]

/-- Elsewhere nothing changed. -/
theorem slice_overwrite_apart {bs data : List α} {off p n : ℕ}
    (h : off + data.length ≤ bs.length) (hp : p + n ≤ off ∨ off + data.length ≤ p) :
    slice (overwrite bs off data) p n = slice bs p n := by
  apply slice_congr
  intro i hi
  rw [getElem?_overwrite h, if_neg (by omega)]

theorem slice_replicate {a : α} {m off n : ℕ} (h : off + n ≤ m) :
    slice (List.replicate m a) off n = List.replicate n a := by
  rw [slice, List.drop_replicate, List.take_replicate, Nat.min_eq_left (by omega)]

/-- What is filled up with one item has it wherever nothing else stands. -/
theorem slice_append_replicate {bs : List α} {a : α} {m off n : ℕ} (h : off + n ≤ bs.length + m) :
    slice (bs ++ List.replicate m a) off n =
      slice bs off n ++ List.replicate (n - (slice bs off n).length) a := by
  apply List.ext_getElem?
  intro i
  rw [getElem?_slice, slice_length]
  by_cases hi : i < n
  · rw [if_pos hi]
    by_cases hin : off + i < bs.length
    · rw [List.getElem?_append_left hin, List.getElem?_append_left (by rw [slice_length]; omega),
        getElem?_slice, if_pos hi]
    · rw [List.getElem?_append_right (by omega),
        List.getElem?_append_right (by rw [slice_length]; omega), slice_length,
        List.getElem?_replicate, List.getElem?_replicate, if_pos (by omega), if_pos (by omega)]
  · rw [if_neg hi, List.getElem?_eq_none]
    rw [List.length_append, List.length_replicate, slice_length]
    omega

/-- Pieces of one size, put together again. -/
theorem flatten_slices (bs : List α) (size k : ℕ) :
    ((List.range k).map fun i => slice bs (size * i) size).flatten = bs.take (size * k) := by
  induction k with
  | zero => rw [Nat.mul_zero]; rfl
  | succ k ih =>
      rw [List.range_succ, List.map_append, List.flatten_append, ih, Nat.mul_succ, List.take_add]
      simp [slice]

theorem slices_flatten {size : ℕ} {ps : List (List α)} (h : ∀ p ∈ ps, p.length = size) :
    ((List.range ps.length).map fun i => slice ps.flatten (size * i) size) = ps := by
  induction ps with
  | nil => rfl
  | cons p ps ih =>
      obtain ⟨hp, hps⟩ := List.forall_mem_cons.mp h
      have hfirst : slice (p ++ ps.flatten) (size * 0) size = p := by
        rw [Nat.mul_zero, slice, List.drop_zero, List.take_left' hp]
      have hrest : ∀ i, slice (p ++ ps.flatten) (size * (i + 1)) size =
          slice ps.flatten (size * i) size := by
        intro i
        have hle : p.length ≤ size * (i + 1) := by
          rw [hp]
          exact Nat.le_mul_of_pos_right size (Nat.succ_pos i)
        rw [slice_append_right hle, hp, Nat.mul_succ, Nat.add_sub_cancel]
      rw [List.length_cons, List.range_succ_eq_map, List.map_cons, List.map_map, List.flatten_cons,
        hfirst]
      congr 1
      conv_rhs => rw [← ih hps]
      exact List.map_congr_left fun i _ => hrest i

/-- One of the pieces. -/
theorem slice_flatten {size i : ℕ} {p : List α} {ps : List (List α)}
    (h : ∀ p ∈ ps, p.length = size) (hi : ps[i]? = some p) :
    slice ps.flatten (size * i) size = p := by
  obtain ⟨hlt, -⟩ := List.getElem?_eq_some_iff.mp hi
  have hall := congrArg (·[i]?) (slices_flatten h)
  simp only [List.getElem?_map, List.getElem?_range hlt, Option.map_some, hi,
    Option.some.injEq] at hall
  exact hall

theorem flatten_length {size : ℕ} {ps : List (List α)} (h : ∀ p ∈ ps, p.length = size) :
    ps.flatten.length = size * ps.length := by
  induction ps with
  | nil => rfl
  | cons p ps ih =>
      obtain ⟨hp, hps⟩ := List.forall_mem_cons.mp h
      rw [List.flatten_cons, List.length_append, ih hps, hp, List.length_cons, Nat.mul_succ,
        Nat.add_comm]

end Regions

section Blocks

variable {α : Type}

/-- Items of a dictionary; a key that is there keeps its place. -/
def setItem (k : ℕ) (b : α) : List (ℕ × α) → List (ℕ × α)
  | [] => [(k, b)]
  | e :: items => if e.1 = k then (k, b) :: items else e :: setItem k b items

attribute [local simp] setItem

theorem mem_keys_setItem {k j : ℕ} {b : α} {items : List (ℕ × α)} :
    j ∈ (setItem k b items).map Prod.fst ↔ j = k ∨ j ∈ items.map Prod.fst := by
  induction items with
  | nil => simp [setItem]
  | cons e items ih =>
      rw [setItem]
      split
      · rename_i he
        simp [he]
      · rw [List.map_cons, List.mem_cons, ih, List.map_cons, List.mem_cons, or_left_comm]

theorem nodup_setItem {k : ℕ} {b : α} {items : List (ℕ × α)}
    (h : (items.map Prod.fst).Nodup) : ((setItem k b items).map Prod.fst).Nodup := by
  induction items with
  | nil => simp [setItem]
  | cons e items ih =>
      rw [List.map_cons, List.nodup_cons] at h
      rw [setItem]
      split
      · rename_i he
        rw [List.map_cons, List.nodup_cons, ← he]
        exact h
      · rename_i he
        rw [List.map_cons, List.nodup_cons, mem_keys_setItem]
        exact ⟨fun hor => hor.elim he h.1, ih h.2⟩

theorem lookup_setItem {k j : ℕ} {b : α} {items : List (ℕ × α)} :
    (setItem k b items).lookup j = if j = k then some b else items.lookup j := by
  induction items with
  | nil =>
      by_cases hj : j = k
      · simp [setItem, hj]
      · simp [setItem, hj, lookup_cons_ne hj]
  | cons e items ih =>
      obtain ⟨i, a⟩ := e
      rw [setItem]
      by_cases hi : i = k
      · rw [if_pos hi]
        by_cases hj : j = k
        · rw [if_pos hj, hj, List.lookup_cons_self]
        · rw [if_neg hj, lookup_cons_ne hj, lookup_cons_ne (hi ▸ hj)]
      · rw [if_neg hi]
        by_cases hj : j = i
        · rw [hj, List.lookup_cons_self, List.lookup_cons_self, if_neg hi]
        · rw [lookup_cons_ne hj, lookup_cons_ne hj, ih]

/-- Every block is written at its place. -/
def writeBlocks (place : ℕ → ℕ) (bs : List α) (items : List (ℕ × List α)) : List α :=
  items.foldl (fun bs e => overwrite bs (place e.1) e.2) bs

variable {place : ℕ → ℕ} {size : ℕ}

/-- The blocks fit, each into its place, and no two places overlap. -/
structure BlocksFit (place : ℕ → ℕ) (size total : ℕ) (items : List (ℕ × List α)) : Prop where
  fits : ∀ e ∈ items, e.2.length ≤ size ∧ place e.1 + size ≤ total
  apart : items.Pairwise fun d e =>
    place d.1 + size ≤ place e.1 ∨ place e.1 + size ≤ place d.1

theorem BlocksFit.tail {total : ℕ} {e : ℕ × List α} {items : List (ℕ × List α)}
    (h : BlocksFit place size total (e :: items)) : BlocksFit place size total items :=
  ⟨fun d hd => h.fits d (List.mem_cons_of_mem e hd), (List.pairwise_cons.mp h.apart).2⟩

theorem BlocksFit.head_length {bs : List α} {e : ℕ × List α} {items : List (ℕ × List α)}
    (h : BlocksFit place size bs.length (e :: items)) :
    (overwrite bs (place e.1) e.2).length = bs.length := by
  obtain ⟨hlen, hplace⟩ := h.fits e List.mem_cons_self
  exact overwrite_length (by omega)

/-- A place that is no block's keeps what it has. -/
theorem slice_writeBlocks_apart {bs : List α} {items : List (ℕ × List α)} {p n : ℕ}
    (h : BlocksFit place size bs.length items)
    (hp : ∀ e ∈ items, p + n ≤ place e.1 ∨ place e.1 + size ≤ p) :
    slice (writeBlocks place bs items) p n = slice bs p n := by
  induction items generalizing bs with
  | nil => rfl
  | cons e items ih =>
      obtain ⟨hlen, hplace⟩ := h.fits e List.mem_cons_self
      have hover := h.head_length
      have hapart := hp e List.mem_cons_self
      rw [writeBlocks, List.foldl_cons, ← writeBlocks,
        ih (hover ▸ h.tail) fun d hd => hp d (List.mem_cons_of_mem e hd)]
      exact slice_overwrite_apart (by omega) (by omega)

/-- A block's place holds the block, and after it what was there before. -/
theorem slice_writeBlocks {bs block : List α} {items : List (ℕ × List α)} {k : ℕ}
    (h : BlocksFit place size bs.length items) (hk : items.lookup k = some block) :
    slice (writeBlocks place bs items) (place k) size =
      block ++ slice bs (place k + block.length) (size - block.length) := by
  induction items generalizing bs with
  | nil => cases hk
  | cons e items ih =>
      obtain ⟨j, b⟩ := e
      obtain ⟨hlen, hplace⟩ : b.length ≤ size ∧ place j + size ≤ bs.length :=
        h.fits (j, b) List.mem_cons_self
      have hover : (overwrite bs (place j) b).length = bs.length := h.head_length
      have hapart := (List.pairwise_cons.mp h.apart).1
      change slice (writeBlocks place (overwrite bs (place j) b) items) (place k) size = _
      by_cases hj : k = j
      · subst hj
        rw [List.lookup_cons_self, Option.some.injEq] at hk
        subst hk
        obtain ⟨more, rfl⟩ := Nat.exists_eq_add_of_le hlen
        rw [slice_writeBlocks_apart (hover ▸ h.tail) hapart, slice_split,
          slice_overwrite_self (by omega), slice_overwrite_apart (by omega) (.inr (Nat.le_refl _)),
          Nat.add_sub_cancel_left]
      · rw [lookup_cons_ne hj] at hk
        have hmem := mem_of_lookup hk
        obtain ⟨hklen, -⟩ : block.length ≤ size ∧ place k + size ≤ bs.length :=
          h.tail.fits _ hmem
        have hkapart : place j + size ≤ place k ∨ place k + size ≤ place j := hapart _ hmem
        rw [ih (hover ▸ h.tail) hk]
        congr 1
        exact slice_overwrite_apart (by omega) (by omega)

end Blocks

end Veron
