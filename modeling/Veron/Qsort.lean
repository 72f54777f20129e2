/-
`qsort` of the C library: an insertion sort that holds the element to be placed in
memory of its own.
-/
import Mathlib.Algebra.Group.Nat.Defs
import Mathlib.Data.Int.Notation
import Mathlib.Data.List.GetD
import Mathlib.Data.Nat.Notation
import Mathlib.Logic.Function.Basic
import Veron.StableOrder

namespace Veron.Qsort

/-- The bytes that are mapped. -/
abbrev Memory := ℕ → Option UInt8

/-- An access to an address that is not mapped. -/
structure Fault where
  address : ℕ
deriving DecidableEq

/-- A pointer moved on by `n` bytes. -/
def plus (p n : ℕ) : ℕ := (p + n) % 2 ^ 64

def load (m : Memory) (p : ℕ) : Except Fault UInt8 :=
  match m p with
  | some b => .ok b
  | none => .error ⟨p⟩

def store (m : Memory) (p : ℕ) (b : UInt8) : Except Fault Memory :=
  match m p with
  | some _ => .ok (Function.update m p (some b))
  | none => .error ⟨p⟩

/-- The loop of `memcpy`, from the `i`-th byte on. -/
def copyBytes (dest src : ℕ) : ℕ → ℕ → Memory → Except Fault Memory
  | 0, _, m => .ok m
  | n + 1, i, m => do
      let b ← load m (plus src i)
      let m ← store m (plus dest i) b
      copyBytes dest src n (i + 1) m

def memcpy (dest src count : ℕ) (m : Memory) : Except Fault Memory :=
  if dest = 0 then .ok m
  else if src = 0 then .ok m
  else copyBytes dest src count 0 m

/-- The element at an address. -/
def loadBytes (m : Memory) (p : ℕ) : ℕ → ℕ → Except Fault (List UInt8)
  | 0, _ => .ok []
  | n + 1, i => do
      let b ← load m (plus p i)
      let bs ← loadBytes m p n (i + 1)
      .ok (b :: bs)

section

variable (compar : List UInt8 → List UInt8 → ℤ)

/-- A call of the comparator, which reads the two elements. -/
def callCompar (m : Memory) (p q size : ℕ) : Except Fault ℤ := do
  let x ← loadBytes m p size 0
  let y ← loadBytes m q size 0
  .ok (compar x y)

/-- The inner loop from `j` down: where it ends, and the memory then. -/
def shift (a tmp size : ℕ) : ℕ → Memory → Except Fault (ℕ × Memory)
  | 0, m => .ok (0, m)
  | j + 1, m => do
      let c ← callCompar compar m (plus a (j * size)) tmp size
      if c ≤ 0 then .ok (j + 1, m)
      else
        let m ← memcpy (plus a ((j + 1) * size)) (plus a (j * size)) size m
        shift a tmp size j m

/-- One round of the outer loop. -/
def place (a tmp size i : ℕ) (m : Memory) : Except Fault Memory := do
  let m ← memcpy tmp (plus a (i * size)) size m
  let (j, m) ← shift compar a tmp size i m
  memcpy (plus a (j * size)) tmp size m

/-- `rounds` rounds from the `i`-th on. -/
def placeFrom (a tmp size : ℕ) : ℕ → ℕ → Memory → Except Fault Memory
  | 0, _, m => .ok m
  | rounds + 1, i, m => do
      let m ← place compar a tmp size i m
      placeFrom a tmp size rounds (i + 1) m

/-- `malloc` gives the address for a size, or NULL. -/
def qsort (malloc : ℕ → ℕ) (base nmemb size : ℕ) (m : Memory) : Except Fault Memory :=
  if nmemb < 2 then .ok m
  else if size = 0 then .ok m
  else
    let tmp := malloc size
    if tmp = 0 then .ok m
    else placeFrom compar base tmp size (nmemb - 1) 1 m

/-- The comparator is a total preorder of the elements of a size. -/
structure TotalPreorder (size : ℕ) : Prop where
  flip : ∀ x y, x.length = size → y.length = size → (compar x y ≤ 0 ↔ 0 ≤ compar y x)
  trans : ∀ x y z, x.length = size → y.length = size → z.length = size →
    compar x y ≤ 0 → compar y z ≤ 0 → compar x z ≤ 0

end

/-- The bytes from `p` on. -/
def Holds (m : Memory) (p : ℕ) (x : List UInt8) : Prop := ∀ t < x.length, m (p + t) = x[t]?

def Mapped (m : Memory) (p n : ℕ) : Prop := ∀ t < n, (m (p + t)).isSome

/-- The memory with `x` from `p` on. -/
def write (m : Memory) (p : ℕ) (x : List UInt8) : Memory :=
  fun q => if p ≤ q ∧ q < p + x.length then x[q - p]? else m q

def Apart (p n q k : ℕ) : Prop := p + n ≤ q ∨ q + k ≤ p

theorem Holds.mapped {m : Memory} {p : ℕ} {x : List UInt8} (h : Holds m p x) :
    Mapped m p x.length := by
  intro t ht
  rw [h t ht, List.getElem?_eq_getElem ht]
  rfl

theorem plus_eq {p n : ℕ} (h : p + n < 2 ^ 64) : plus p n = p + n := Nat.mod_eq_of_lt h

theorem write_eq (m : Memory) (p : ℕ) (x : List UInt8) (q : ℕ) :
    write m p x q = if p ≤ q ∧ q < p + x.length then x[q - p]? else m q := rfl

theorem write_apart {m : Memory} {p q : ℕ} {x : List UInt8}
    (h : ¬ (p ≤ q ∧ q < p + x.length)) : write m p x q = m q := if_neg h

theorem holds_write (m : Memory) (p : ℕ) (x : List UInt8) : Holds (write m p x) p x := by
  intro t ht
  rw [write, if_pos ⟨Nat.le_add_right _ _, by omega⟩, Nat.add_sub_cancel_left]

theorem Holds.write {m : Memory} {p q : ℕ} {x y : List UInt8} (h : Holds m p x)
    (hapart : Apart p x.length q y.length) : Holds (write m q y) p x := by
  intro t ht
  rw [write_apart, h t ht]
  rcases hapart with hapart | hapart <;> omega

theorem Mapped.write {m : Memory} {p n q : ℕ} {x : List UInt8} (h : Mapped m p n) :
    Mapped (write m q x) p n := by
  intro t ht
  rw [Qsort.write]
  split
  · rw [List.getElem?_eq_getElem (by omega)]
    rfl
  · exact h t ht

theorem load_eq {m : Memory} {p : ℕ} {b : UInt8} (h : m p = some b) : load m p = .ok b := by
  rw [load, h]

theorem store_eq {m : Memory} {p : ℕ} {b : UInt8} (h : (m p).isSome) :
    store m p b = .ok (Function.update m p (some b)) := by
  obtain ⟨c, hc⟩ := Option.isSome_iff_exists.mp h
  rw [store, hc]

section Copy

variable {m₀ : Memory} {dest src : ℕ} {x : List UInt8} (hsrc : Holds m₀ src x)
  (hdest : Mapped m₀ dest x.length) (hapart : Apart src x.length dest x.length)
  (hsrcEnd : src + x.length ≤ 2 ^ 64) (hdestEnd : dest + x.length ≤ 2 ^ 64)

include hsrc hdest hapart hsrcEnd hdestEnd

/-- With `i` bytes copied, one more round copies the next. -/
theorem copy_round {i : ℕ} (hi : i < x.length) :
    (do
      let b ← load (write m₀ dest (x.take i)) (plus src i)
      store (write m₀ dest (x.take i)) (plus dest i) b) =
      .ok (write m₀ dest (x.take (i + 1))) := by
  have hlen : (x.take i).length = i := by rw [List.length_take]; omega
  have hbyte : write m₀ dest (x.take i) (src + i) = some x[i] := by
    rw [write_apart, hsrc i hi, List.getElem?_eq_getElem hi]
    rw [hlen]
    rcases hapart with hapart | hapart <;> omega
  have hroom : (write m₀ dest (x.take i) (dest + i)).isSome := by
    rw [write_apart (by rw [hlen]; omega)]
    exact hdest i hi
  rw [plus_eq (by omega), plus_eq (by omega), load_eq hbyte]
  change store _ _ _ = _
  rw [store_eq hroom, Except.ok.injEq]
  funext q
  have hlen' : (x.take (i + 1)).length = i + 1 := by rw [List.length_take]; omega
  rw [write_eq m₀ dest (x.take (i + 1)), hlen']
  by_cases hq : q = dest + i
  · subst hq
    rw [Function.update_self, if_pos ⟨by omega, by omega⟩, Nat.add_sub_cancel_left,
      List.getElem?_take, if_pos (by omega), List.getElem?_eq_getElem hi]
  · rw [Function.update_of_ne hq, write_eq, hlen]
    by_cases hin : dest ≤ q ∧ q < dest + i
    · rw [if_pos hin, if_pos ⟨hin.1, by omega⟩, List.getElem?_take, List.getElem?_take,
        if_pos (by omega), if_pos (by omega)]
    · rw [if_neg hin, if_neg (by omega)]

theorem copyBytes_eq (n i : ℕ) (hni : i + n = x.length) :
    copyBytes dest src n i (write m₀ dest (x.take i)) = .ok (write m₀ dest x) := by
  induction n generalizing i with
  | zero =>
      rw [copyBytes, List.take_of_length_le (by omega)]
  | succ n ih =>
      have hround := copy_round hsrc hdest hapart hsrcEnd hdestEnd (i := i) (by omega)
      rw [copyBytes, ← ih (i + 1) (by omega)]
      rw [← bind_assoc, hround]
      rfl

theorem memcpy_eq (hdest0 : dest ≠ 0) (hsrc0 : src ≠ 0) :
    memcpy dest src x.length m₀ = .ok (write m₀ dest x) := by
  have hstart : write m₀ dest (x.take 0) = m₀ := by
    funext q
    rw [List.take_zero]
    exact write_apart (by simp)
  have hloop := copyBytes_eq hsrc hdest hapart hsrcEnd hdestEnd x.length 0 (Nat.zero_add _)
  rw [hstart] at hloop
  rw [memcpy, if_neg hdest0, if_neg hsrc0]
  exact hloop

end Copy

theorem loadBytes_eq {m : Memory} {p : ℕ} {x : List UInt8} (h : Holds m p x)
    (hend : p + x.length ≤ 2 ^ 64) (n i : ℕ) (hni : i + n = x.length) :
    loadBytes m p n i = .ok (x.drop i) := by
  induction n generalizing i with
  | zero => rw [loadBytes, List.drop_of_length_le (by omega)]
  | succ n ih =>
      have hi : i < x.length := by omega
      have hbyte := h i hi
      rw [List.getElem?_eq_getElem hi] at hbyte
      rw [loadBytes, plus_eq (by omega), load_eq hbyte, ih (i + 1) (by omega),
        List.drop_eq_getElem_cons hi]
      rfl

theorem callCompar_eq (compar : List UInt8 → List UInt8 → ℤ) {m : Memory} {p q : ℕ}
    {x y : List UInt8} (hx : Holds m p x) (hy : Holds m q y) (hlen : y.length = x.length)
    (hp : p + x.length ≤ 2 ^ 64) (hq : q + y.length ≤ 2 ^ 64) :
    callCompar compar m p q x.length = .ok (compar x y) := by
  rw [callCompar, loadBytes_eq hx hp x.length 0 (Nat.zero_add _), ← hlen,
    loadBytes_eq hy hq y.length 0 (Nat.zero_add _)]
  rfl

/-- Elements of `size` bytes, one behind the other. -/
def Elements (m : Memory) (base size : ℕ) (xs : List (List UInt8)) : Prop :=
  ∀ i x, xs[i]? = some x → x.length = size ∧ Holds m (base + i * size) x

/-- The element that the array has at `i` before it is sorted. -/
def key (size : ℕ) (xs : List (List UInt8)) (i : ℕ) : List UInt8 :=
  xs.getD i (List.replicate size 0)

/-- The order that the comparator gives the elements of the unsorted array. -/
def noGreater (compar : List UInt8 → List UInt8 → ℤ) (size : ℕ) (xs : List (List UInt8))
    (i j : ℕ) : Prop := compar (key size xs i) (key size xs j) ≤ 0

/-- Where `qsort` works: the array and, apart from it, the memory of its own. -/
structure Layout (base nmemb size tmp : ℕ) : Prop where
  base_ne : base ≠ 0
  tmp_ne : tmp ≠ 0
  base_end : base + nmemb * size ≤ 2 ^ 64
  tmp_end : tmp + size ≤ 2 ^ 64
  apart : Apart base (nmemb * size) tmp size

/-- Neither in the array nor in the memory that `qsort` took. -/
def Outside (base nmemb size tmp q : ℕ) : Prop :=
  ¬ (base ≤ q ∧ q < base + nmemb * size) ∧ ¬ (tmp ≤ q ∧ q < tmp + size)

theorem key_length {m : Memory} {base size : ℕ} {xs : List (List UInt8)}
    (h : Elements m base size xs) (i : ℕ) : (key size xs i).length = size := by
  rw [key, List.getD_eq_getElem?_getD]
  cases hx : xs[i]? with
  | none => exact List.length_replicate
  | some x => exact (h i x hx).1

theorem noGreater_total {compar : List UInt8 → List UInt8 → ℤ} {size : ℕ}
    {xs : List (List UInt8)} (hpre : TotalPreorder compar size)
    (hlen : ∀ i, (key size xs i).length = size) (i j : ℕ) :
    noGreater compar size xs i j ∨ noGreater compar size xs j i := by
  rcases Int.le_total (compar (key size xs i) (key size xs j)) 0 with h | h
  · exact Or.inl h
  · exact Or.inr ((hpre.flip _ _ (hlen j) (hlen i)).mpr h)

theorem noGreater_trans {compar : List UInt8 → List UInt8 → ℤ} {size : ℕ}
    {xs : List (List UInt8)} (hpre : TotalPreorder compar size)
    (hlen : ∀ i, (key size xs i).length = size) (i j k : ℕ)
    (hij : noGreater compar size xs i j) (hjk : noGreater compar size xs j k) :
    noGreater compar size xs i k :=
  hpre.trans _ _ _ (hlen i) (hlen j) (hlen k) hij hjk

theorem slot_end (base size : ℕ) {nmemb k : ℕ} (hk : k < nmemb) :
    base + k * size + size ≤ base + nmemb * size := by
  rw [Nat.add_assoc, ← Nat.succ_mul]
  exact Nat.add_le_add_left (Nat.mul_le_mul_right size hk) base

namespace Layout

variable {base nmemb size tmp : ℕ} (h : Layout base nmemb size tmp)

include h

theorem slot_apart {k : ℕ} (hk : k < nmemb) : Apart (base + k * size) size tmp size := by
  have hend := slot_end base size hk
  rcases h.apart with hapart | hapart
  · exact Or.inl (by omega)
  · exact Or.inr (by omega)

theorem slot_plus {k : ℕ} (hk : k < nmemb) (hsize : 0 < size) :
    plus base (k * size) = base + k * size := by
  have hend := slot_end base size hk
  have hbase := h.base_end
  exact plus_eq (by omega)

theorem slot_ne (k : ℕ) : base + k * size ≠ 0 := by
  have hne := h.base_ne
  omega

end Layout

theorem slots_apart {base size i k : ℕ} (h : i ≠ k) :
    Apart (base + i * size) size (base + k * size) size := by
  rcases Nat.lt_or_gt_of_ne h with hlt | hlt
  · have hmul := Nat.mul_le_mul_right size hlt
    rw [Nat.succ_mul] at hmul
    exact Or.inl (by omega)
  · have hmul := Nat.mul_le_mul_right size hlt
    rw [Nat.succ_mul] at hmul
    exact Or.inr (by omega)

theorem Apart.symm {p n q k : ℕ} (h : Apart p n q k) : Apart q k p n := Or.symm h

theorem getD_insert {order : List ℕ} {i j k : ℕ} (hj : j ≤ order.length) :
    (order.take j ++ i :: order.drop j).getD k k =
      if k < j then order.getD k k else if k = j then i else order.getD (k - 1) k := by
  have hlen : (order.take j).length = j := by rw [List.length_take]; omega
  rw [List.getD_eq_getElem?_getD, List.getD_eq_getElem?_getD, List.getD_eq_getElem?_getD]
  rcases Nat.lt_trichotomy k j with hlt | rfl | hgt
  · rw [if_pos hlt, List.getElem?_append_left (by omega), List.getElem?_take, if_pos hlt]
  · rw [if_neg (Nat.lt_irrefl k), if_pos rfl, List.getElem?_append_right (by omega), hlen,
      Nat.sub_self]
    rfl
  · obtain ⟨d, rfl⟩ := Nat.exists_eq_add_of_lt hgt
    rw [if_neg (by omega), if_neg (by omega), List.getElem?_append_right (by omega), hlen,
      show j + d + 1 - j = d + 1 by omega, List.getElem?_cons_succ, List.getElem?_drop,
      Nat.add_sub_cancel]

section Loops

variable {compar : List UInt8 → List UInt8 → ℤ} {m₀ : Memory} {base nmemb size tmp : ℕ}
  {xs : List (List UInt8)}

/-- Between two rounds: the numbers of `order` are those of the elements in front. -/
structure Arranged (m₀ : Memory) (base nmemb size tmp : ℕ) (xs : List (List UInt8))
    (order : List ℕ) (m : Memory) : Prop where
  slots : ∀ k < nmemb, Holds m (base + k * size) (key size xs (order.getD k k))
  scratch : Mapped m tmp size
  frame : ∀ q, Outside base nmemb size tmp q → m q = m₀ q

/-- Within a round: the element `i` is held, and its place is at `j` or below. -/
structure Held (m₀ : Memory) (base nmemb size tmp : ℕ) (xs : List (List UInt8))
    (order : List ℕ) (i j : ℕ) (m : Memory) : Prop where
  low : ∀ k < j, Holds m (base + k * size) (key size xs (order.getD k k))
  high : ∀ k, j ≤ k → k < i → Holds m (base + (k + 1) * size) (key size xs (order.getD k k))
  rest : ∀ k, i < k → k < nmemb → Holds m (base + k * size) (key size xs k)
  scratch : Holds m tmp (key size xs i)
  hole : Mapped m (base + j * size) size
  frame : ∀ q, Outside base nmemb size tmp q → m q = m₀ q

variable (hlayout : Layout base nmemb size tmp) (hsize : 0 < size)
  (hlen : ∀ i, (key size xs i).length = size)

include hlen in
theorem write_frame {m : Memory} {p i q : ℕ} (hp : p = tmp ∨ ∃ k < nmemb, p = base + k * size)
    (hq : Outside base nmemb size tmp q) : write m p (key size xs i) q = m q := by
  apply write_apart
  rw [hlen]
  rcases hp with rfl | ⟨k, hk, rfl⟩
  · exact hq.2
  · have hend := slot_end base size hk
    have hout := hq.1
    omega

include hlayout hsize hlen

variable (compar) in
theorem compar_slot {m : Memory} {k s i : ℕ} (hk : k < nmemb)
    (hslot : Holds m (base + k * size) (key size xs s)) (htmp : Holds m tmp (key size xs i)) :
    callCompar compar m (plus base (k * size)) tmp size =
      .ok (compar (key size xs s) (key size xs i)) := by
  have hend := slot_end base size hk
  have hbase := hlayout.base_end
  have hcall := callCompar_eq compar hslot htmp (by rw [hlen, hlen])
    (by rw [hlen]; omega) (by rw [hlen]; exact hlayout.tmp_end)
  rw [hlayout.slot_plus hk hsize]
  rw [hlen] at hcall
  exact hcall

/-- Moving the element at `j` up by one. -/
theorem held_move {m : Memory} {order : List ℕ} {i j : ℕ} (hi : i < nmemb) (hj : j < i)
    (h : Held m₀ base nmemb size tmp xs order i (j + 1) m) :
    memcpy (plus base ((j + 1) * size)) (plus base (j * size)) size m =
        .ok (write m (base + (j + 1) * size) (key size xs (order.getD j j))) ∧
      Held m₀ base nmemb size tmp xs order i j
        (write m (base + (j + 1) * size) (key size xs (order.getD j j))) := by
  have hsrc := h.low j (Nat.lt_succ_self j)
  have hbase := hlayout.base_end
  have hjend := slot_end base size (show j < nmemb by omega)
  have hjend' := slot_end base size (show j + 1 < nmemb by omega)
  constructor
  · rw [hlayout.slot_plus (by omega) hsize, hlayout.slot_plus (by omega) hsize]
    have hcopy := memcpy_eq hsrc (by rw [hlen]; exact h.hole)
      (by rw [hlen]; exact slots_apart (Nat.ne_of_lt (Nat.lt_succ_self j)))
      (by rw [hlen]; omega) (by rw [hlen]; omega) (hlayout.slot_ne _) (hlayout.slot_ne _)
    rw [hlen] at hcopy
    exact hcopy
  · constructor
    · intro k hk
      refine (h.low k (by omega)).write ?_
      rw [hlen, hlen]
      exact slots_apart (by omega)
    · intro k hjk hki
      rcases Nat.eq_or_lt_of_le hjk with rfl | hlt
      · exact holds_write _ _ _
      · refine (h.high k hlt hki).write ?_
        rw [hlen, hlen]
        exact slots_apart (by omega)
    · intro k hik hkn
      refine (h.rest k hik hkn).write ?_
      rw [hlen, hlen]
      exact slots_apart (by omega)
    · refine h.scratch.write ?_
      rw [hlen, hlen]
      exact (hlayout.slot_apart (by omega)).symm
    · have hmapped := hsrc.mapped
      rw [hlen] at hmapped
      exact hmapped.write
    · intro q hq
      rw [write_frame hlen (Or.inr ⟨j + 1, by omega, rfl⟩) hq]
      exact h.frame q hq

variable (compar) in
/-- The inner loop ends where the element belongs. -/
theorem shift_spec {m : Memory} {order : List ℕ} {i j : ℕ} (hi : i < nmemb) (hj : j ≤ i)
    (h : Held m₀ base nmemb size tmp xs order i j m) :
    ∃ j' m', shift compar base tmp size j m = .ok (j', m') ∧ j' ≤ j ∧
      Held m₀ base nmemb size tmp xs order i j' m' ∧
      (∀ k, j' ≤ k → k < j → ¬ noGreater compar size xs (order.getD k k) i) ∧
      (∀ k, j' = k + 1 → noGreater compar size xs (order.getD k k) i) := by
  induction j generalizing m with
  | zero => exact ⟨0, m, rfl, Nat.le_refl 0, h, by omega, by omega⟩
  | succ j ih =>
      have hcall := compar_slot compar hlayout hsize hlen (show j < nmemb by omega)
        (h.low j (Nat.lt_succ_self j)) h.scratch
      rw [shift, hcall]
      by_cases hle : noGreater compar size xs (order.getD j j) i
      · refine ⟨j + 1, m, ?_, Nat.le_refl _, h, by omega, ?_⟩
        · exact if_pos hle
        · intro k hk
          obtain rfl : j = k := by omega
          exact hle
      · obtain ⟨hmove, hheld⟩ := held_move hlayout hsize hlen hi (by omega) h
        obtain ⟨j', m', hrun, hj', hheld', hhigh, hlow⟩ := ih (by omega) hheld
        refine ⟨j', m', ?_, by omega, hheld', ?_, hlow⟩
        · have hgreater : ¬ compar (key size xs (order.getD j j)) (key size xs i) ≤ 0 := hle
          change (if _ then _ else _) = _
          rw [if_neg hgreater, hmove]
          exact hrun
        · intro k hk hkj
          rcases Nat.eq_or_lt_of_le (Nat.le_of_lt_succ hkj) with rfl | hlt
          · exact hle
          · exact hhigh k hk hlt

/-- A round puts the element `i` behind those in front that are no greater. -/
theorem place_spec {m : Memory} {order : List ℕ} {i : ℕ} (hi : i < nmemb)
    (hpre : TotalPreorder compar size)
    (horder : StableOrder (noGreater compar size xs) i order)
    (h : Arranged m₀ base nmemb size tmp xs order m) :
    ∃ m' order', place compar base tmp size i m = .ok m' ∧
      StableOrder (noGreater compar size xs) (i + 1) order' ∧
      Arranged m₀ base nmemb size tmp xs order' m' := by
  have hlength := horder.length
  have hself : ∀ k, i ≤ k → order.getD k k = k := by
    intro k hk
    rw [List.getD_eq_getElem?_getD, List.getElem?_eq_none (by omega)]
    rfl
  have hbase := hlayout.base_end
  have hiend := slot_end base size hi
  have hslot := h.slots i hi
  rw [hself i (Nat.le_refl i)] at hslot
  -- the element is taken out
  have htake := memcpy_eq hslot (by rw [hlen]; exact h.scratch)
    (by rw [hlen]; exact hlayout.slot_apart hi) (by rw [hlen]; omega)
    (by rw [hlen]; exact hlayout.tmp_end) hlayout.tmp_ne (hlayout.slot_ne i)
  rw [hlen] at htake
  have hheld : Held m₀ base nmemb size tmp xs order i i (write m tmp (key size xs i)) := by
    have hkeep : ∀ k < nmemb, Holds (write m tmp (key size xs i)) (base + k * size)
        (key size xs (order.getD k k)) := by
      intro k hk
      refine (h.slots k hk).write ?_
      rw [hlen, hlen]
      exact hlayout.slot_apart hk
    refine ⟨fun k hk => hkeep k (by omega), by omega, ?_, holds_write _ _ _, ?_, ?_⟩
    · intro k hik hkn
      have hafter := hkeep k hkn
      rw [hself k (by omega)] at hafter
      exact hafter
    · have hmapped := (hkeep i hi).mapped
      rw [hlen] at hmapped
      exact hmapped
    · intro q hq
      rw [write_frame hlen (Or.inl rfl) hq]
      exact h.frame q hq
  obtain ⟨j, m₂, hshift, hj, hheld₂, hhigh, hlow⟩ :=
    shift_spec compar hlayout hsize hlen hi (Nat.le_refl i) hheld
  have hjend := slot_end base size (show j < nmemb by omega)
  -- and put where the loop has made room
  have hput := memcpy_eq hheld₂.scratch (by rw [hlen]; exact hheld₂.hole)
    (by rw [hlen]; exact (hlayout.slot_apart (show j < nmemb by omega)).symm)
    (by rw [hlen]; exact hlayout.tmp_end) (by rw [hlen]; omega) (hlayout.slot_ne j)
    hlayout.tmp_ne
  rw [hlen] at hput
  refine ⟨write m₂ (base + j * size) (key size xs i), order.take j ++ i :: order.drop j,
    ?_, ?_, ?_⟩
  · rw [place, hlayout.slot_plus hi hsize, htake]
    change (shift compar base tmp size i _ >>= _) = _
    rw [hshift]
    change memcpy (plus base (j * size)) tmp size m₂ = _
    rw [hlayout.slot_plus (by omega) hsize, hput]
  · refine horder.insert (noGreater_total hpre hlen) ?_ ?_
    · intro k hk
      cases j with
      | zero => simp at hk
      | succ j =>
          have hbelow := hlow j rfl
          rw [List.getD_eq_getElem order j (by omega)] at hbelow
          exact horder.take_le (noGreater_trans hpre hlen) (by omega) hbelow k hk
    · intro k hk
      obtain ⟨t, ht, rfl⟩ := List.mem_iff_getElem.mp hk
      rw [List.length_drop] at ht
      have habove := hhigh (j + t) (by omega) (by omega)
      rw [List.getD_eq_getElem order (j + t) (by omega)] at habove
      rw [List.getElem_drop]
      exact habove
  · have hapart : ∀ k, k ≠ j → Apart (base + k * size) size (base + j * size) size :=
      fun k hk => slots_apart hk
    have hkeep : ∀ k x, k ≠ j → x.length = size → Holds m₂ (base + k * size) x →
        Holds (write m₂ (base + j * size) (key size xs i)) (base + k * size) x := by
      intro k x hk hx hholds
      refine hholds.write ?_
      rw [hlen, hx]
      exact hapart k hk
    refine ⟨?_, ?_, ?_⟩
    · intro k hk
      rw [getD_insert (by omega)]
      rcases Nat.lt_trichotomy k j with hlt | rfl | hgt
      · rw [if_pos hlt]
        exact hkeep k _ (by omega) (hlen _) (hheld₂.low k hlt)
      · rw [if_neg (Nat.lt_irrefl k), if_pos rfl]
        exact holds_write _ _ _
      · rw [if_neg (by omega), if_neg (by omega)]
        obtain ⟨k, rfl⟩ := Nat.exists_eq_add_of_le' (show 1 ≤ k by omega)
        rw [Nat.add_sub_cancel]
        rcases Nat.lt_or_ge k i with hki | hki
        · rw [List.getD_eq_getElem order _ (by omega),
            ← List.getD_eq_getElem order k (by omega)]
          exact hkeep (k + 1) _ (by omega) (hlen _) (hheld₂.high k (by omega) hki)
        · rw [List.getD_eq_default _ _ (by omega)]
          exact hkeep (k + 1) _ (by omega) (hlen _) (hheld₂.rest (k + 1) (by omega) hk)
    · have hmapped := hheld₂.scratch.mapped
      rw [hlen] at hmapped
      exact hmapped.write
    · intro q hq
      rw [write_frame hlen (Or.inr ⟨j, by omega, rfl⟩) hq]
      exact hheld₂.frame q hq

theorem placeFrom_spec (hpre : TotalPreorder compar size) {rounds i : ℕ}
    (hrounds : i + rounds = nmemb) {m : Memory} {order : List ℕ}
    (horder : StableOrder (noGreater compar size xs) i order)
    (h : Arranged m₀ base nmemb size tmp xs order m) :
    ∃ m' order', placeFrom compar base tmp size rounds i m = .ok m' ∧
      StableOrder (noGreater compar size xs) nmemb order' ∧
      Arranged m₀ base nmemb size tmp xs order' m' := by
  induction rounds generalizing i m order with
  | zero =>
      obtain rfl : i = nmemb := by omega
      exact ⟨m, order, rfl, horder, h⟩
  | succ rounds ih =>
      obtain ⟨m₁, order₁, hplace, horder₁, h₁⟩ :=
        place_spec hlayout hsize hlen (show i < nmemb by omega) hpre horder h
      obtain ⟨m', order', hrest, hdone⟩ := ih (by omega) horder₁ h₁
      refine ⟨m', order', ?_, hdone⟩
      rw [placeFrom, hplace]
      exact hrest

end Loops

section Whole

variable {compar : List UInt8 → List UInt8 → ℤ} {base size : ℕ} {xs : List (List UInt8)}

theorem map_key (size : ℕ) (xs : List (List UInt8)) :
    (List.range xs.length).map (key size xs) = xs := by
  apply List.ext_getElem (by simp)
  intro i hi hi'
  rw [List.getElem_map, List.getElem_range, key, List.getD_eq_getElem xs _ hi']

/-- Sorted, and in the old order where the comparator finds two elements equal. -/
def Stably (compar : List UInt8 → List UInt8 → ℤ) (size : ℕ) (xs : List (List UInt8))
    (i j : ℕ) : Prop :=
  compar (key size xs i) (key size xs j) < 0 ∨
    compar (key size xs i) (key size xs j) = 0 ∧ i < j

theorem Before.stably (hpre : TotalPreorder compar size)
    (hlen : ∀ i, (key size xs i).length = size) {i j : ℕ}
    (h : Before (noGreater compar size xs) i j) : Stably compar size xs i j := by
  obtain ⟨hle, hlt⟩ := h
  rcases Int.lt_or_eq_of_le hle with hless | heq
  · exact Or.inl hless
  · exact Or.inr ⟨heq, hlt ((hpre.flip _ _ (hlen j) (hlen i)).mpr (Int.le_of_eq heq.symm))⟩

theorem Arranged.elements {m₀ m : Memory} {nmemb tmp : ℕ} {order : List ℕ}
    (h : Arranged m₀ base nmemb size tmp xs order m)
    (hlen : ∀ i, (key size xs i).length = size) (hlength : order.length = nmemb) :
    Elements m base size (order.map (key size xs)) := by
  intro k x hx
  rw [List.getElem?_map] at hx
  obtain ⟨i, hi, rfl⟩ := Option.map_eq_some_iff.mp hx
  obtain ⟨hk, rfl⟩ := List.getElem?_eq_some_iff.mp hi
  have hslot := h.slots k (by omega)
  rw [List.getD_eq_getElem order k hk] at hslot
  exact ⟨hlen _, hslot⟩

/-- `qsort` sorts the array and keeps the order of equal elements.  It touches nothing
but the array and the memory that it takes, whatever else is mapped. -/
theorem qsort_sorts {malloc : ℕ → ℕ} {nmemb : ℕ} {m : Memory} (hpre : TotalPreorder compar size)
    (hnmemb : xs.length = nmemb) (harray : Elements m base size xs)
    (hscratch : 2 ≤ nmemb → 0 < size →
      Layout base nmemb size (malloc size) ∧ Mapped m (malloc size) size) :
    ∃ (m' : Memory) (order : List ℕ), qsort compar malloc base nmemb size m = .ok m' ∧
      order.Perm (List.range nmemb) ∧ Elements m' base size (order.map (key size xs)) ∧
      order.Pairwise (Stably compar size xs) ∧
      ∀ q, Outside base nmemb size (malloc size) q → m' q = m q := by
  have hlen := key_length harray
  have hunchanged : ∀ {n : ℕ}, StableOrder (noGreater compar size xs) n (List.range n) →
      n = nmemb → ∃ order : List ℕ, order.Perm (List.range nmemb) ∧
        Elements m base size (order.map (key size xs)) ∧
        order.Pairwise (Stably compar size xs) := by
    rintro n horder rfl
    refine ⟨_, horder.perm, ?_, horder.sorted.imp fun hij => Before.stably hpre hlen hij⟩
    rw [← hnmemb, map_key]
    exact harray
  by_cases hfew : nmemb < 2
  · obtain ⟨order, horder⟩ := hunchanged (StableOrder.small hfew) rfl
    exact ⟨m, order, if_pos hfew, horder.1, horder.2.1, horder.2.2, fun q _ => rfl⟩
  · by_cases hempty : size = 0
    · have hall : ∀ i j, noGreater compar size xs i j := by
        intro i j
        have hi := List.length_eq_zero_iff.mp ((hlen i).trans hempty)
        have hj := List.length_eq_zero_iff.mp ((hlen j).trans hempty)
        have htotal := noGreater_total hpre hlen i j
        rw [noGreater, noGreater, hi, hj, or_self] at htotal
        rw [noGreater, hi, hj]
        exact htotal
      obtain ⟨order, horder⟩ := hunchanged (StableOrder.range hall) rfl
      refine ⟨m, order, ?_, horder.1, horder.2.1, horder.2.2, fun q _ => rfl⟩
      rw [qsort, if_neg hfew, if_pos hempty]
    · have hsize : 0 < size := Nat.pos_of_ne_zero hempty
      obtain ⟨hlayout, hmapped⟩ := hscratch (Nat.le_of_not_lt hfew) hsize
      have hstart : Arranged m base nmemb size (malloc size) xs (List.range 1) m := by
        refine ⟨fun k hk => ?_, hmapped, fun q _ => rfl⟩
        have hself : (List.range 1).getD k k = k := by
          cases k <;> rfl
        have hx := List.getElem?_eq_getElem (show k < xs.length by omega)
        have hkey : key size xs k = xs[k] := List.getD_eq_getElem xs _ (by omega)
        rw [hself, hkey]
        exact (harray k _ hx).2
      obtain ⟨m', order, hrun, horder, hdone⟩ := placeFrom_spec hlayout hsize hlen hpre
        (show 1 + (nmemb - 1) = nmemb by omega)
        (StableOrder.small (Nat.one_lt_two)) hstart
      refine ⟨m', order, ?_, horder.perm, hdone.elements hlen horder.length,
        horder.sorted.imp fun hij => Before.stably hpre hlen hij, hdone.frame⟩
      rw [qsort, if_neg hfew, if_neg hempty]
      change (if malloc size = 0 then _ else _) = _
      rw [if_neg hlayout.tmp_ne]
      exact hrun

end Whole

/-- By the first of two bytes. -/
def byFirst (x y : List UInt8) : ℤ := (x.getD 0 0).toNat - (y.getD 0 0).toNat

def pairs : List (List UInt8) := [[2, 0], [1, 7], [2, 1]]

/-- Three pairs at 4096 and room for one at 8192, with nothing else mapped. -/
def pairMemory : Memory := fun q =>
  if 4096 ≤ q ∧ q < 4102 then pairs.flatten[q - 4096]?
  else if q = 8192 ∨ q = 8193 then some 0
  else none

theorem qsort_pairs : ∃ (m' : Memory) (order : List ℕ),
    qsort byFirst (fun _ => 8192) 4096 3 2 pairMemory = .ok m' ∧
      Elements m' 4096 2 (order.map (key 2 pairs)) := by
  have hpre : TotalPreorder byFirst 2 := by
    refine ⟨fun x y _ _ => ?_, fun x y z _ _ _ => ?_⟩
    · simp only [byFirst]
      omega
    · simp only [byFirst]
      omega
  have harray : Elements pairMemory 4096 2 pairs := by
    have hbytes : ∀ i < 3, (pairs.getD i []).length = 2 ∧ ∀ t < 2,
        pairMemory (4096 + i * 2 + t) = (pairs.getD i [])[t]? := by decide
    intro i x hx
    obtain ⟨hi, -⟩ := List.getElem?_eq_some_iff.mp hx
    obtain ⟨hlength, hall⟩ := hbytes i hi
    rw [List.getD_eq_getElem?_getD, hx, Option.getD_some] at hlength hall
    exact ⟨hlength, fun t ht => hall t (hlength ▸ ht)⟩
  have hlayout : Layout 4096 3 2 8192 ∧ Mapped pairMemory 8192 2 := by
    refine ⟨⟨by decide, by decide, by decide, by decide, ?_⟩, ?_⟩
    · exact Or.inl (by decide)
    · change ∀ t < 2, _
      decide
  obtain ⟨m', order, hrun, -, hsorted, -⟩ :=
    @qsort_sorts byFirst 4096 2 pairs (fun _ => 8192) 3 pairMemory hpre rfl harray fun _ _ =>
      hlayout
  exact ⟨m', order, hrun, hsorted⟩

end Veron.Qsort
