import TcpRaw.Lib.Go

/-!
# Go slices with spare capacity

A slice is a view of a backing array: `arr` is the array from the slice's first element on, so
its length is the slice's capacity, and `len` elements of it are in view (`Slice.data`).
Re-slicing (`upto`, `range`) may bring elements beyond `len` back into view; they hold whatever
was last written there, and `copyRange` is how a program writes them. Two slices of one array are
not tracked: a model uses this file where each array has one owner at a time.

`Slice.data_pad`: growing a slice and copying zeros over the new part pads its contents.
-/

namespace GoRt

universe u

/-- A slice: its backing array from its first element on, and its length. -/
structure Slice (α : Type u) where
  arr : List α
  len : Nat
  le_cap : len ≤ arr.length
  deriving DecidableEq, Repr

namespace Slice

variable {α : Type u}

/-- `cap(s)` -/
def cap (s : Slice α) : Nat := s.arr.length

/-- The elements in view. -/
def data (s : Slice α) : List α := s.arr.take s.len

/-- A slice without spare capacity. -/
def ofList (l : List α) : Slice α := ⟨l, l.length, Nat.le_refl _⟩

/-- `s[:n]` -/
def upto (s : Slice α) (n : Nat) : Go (Slice α) :=
  if h : n ≤ s.arr.length then .ok ⟨s.arr, n, h⟩ else .error .sliceBounds

/-- `s[i:j]` -/
def range (s : Slice α) (i j : Nat) : Go (Slice α) :=
  if h : i ≤ j ∧ j ≤ s.arr.length then
    .ok ⟨s.arr.drop i, j - i, by rw [List.length_drop]; omega⟩
  else .error .sliceBounds

theorem length_overwrite_take {l src : List α} {i j : Nat} (h : i ≤ j ∧ j ≤ l.length) :
    (overwrite l i (src.take (j - i))).length = l.length :=
  length_overwrite (by rw [List.length_take]; omega)

/-- `copy(s[i:j], src)`, the slice `s` after it. -/
def copyRange (s : Slice α) (i j : Nat) (src : List α) : Go (Slice α) :=
  if h : i ≤ j ∧ j ≤ s.arr.length then
    .ok ⟨overwrite s.arr i (src.take (j - i)), s.len,
      by rw [length_overwrite_take h]; exact s.le_cap⟩
  else .error .sliceBounds

@[simp] theorem length_data (s : Slice α) : s.data.length = s.len := by
  simp [data, s.le_cap]

@[simp] theorem data_ofList (l : List α) : (ofList l).data = l := by simp [ofList, data]

theorem len_le_cap (s : Slice α) : s.len ≤ s.cap := s.le_cap

theorem upto_ok {s : Slice α} {n : Nat} (h : n ≤ s.cap) : s.upto n = .ok ⟨s.arr, n, h⟩ :=
  dif_pos h

theorem range_ok {s : Slice α} {i j : Nat} (hi : i ≤ j) (hj : j ≤ s.cap) :
    ∃ t, s.range i j = .ok t ∧ t.data = (s.arr.take j).drop i :=
  ⟨_, dif_pos ⟨hi, hj⟩, List.drop_take.symm⟩

theorem copyRange_ok {s : Slice α} {i j : Nat} (hi : i ≤ j) (hj : j ≤ s.cap) (src : List α) :
    ∃ t, s.copyRange i j src = .ok t ∧ t.arr = overwrite s.arr i (src.take (j - i)) ∧
      t.len = s.len ∧ t.cap = s.cap :=
  ⟨_, dif_pos ⟨hi, hj⟩, rfl, rfl, length_overwrite_take ⟨hi, hj⟩⟩

theorem take_overwrite_end {l xs : List α} {i n : Nat} (hi : i ≤ l.length)
    (hn : n = i + xs.length) : (overwrite l i xs).take n = l.take i ++ xs := by
  rw [overwrite, List.take_left' (by rw [List.length_append, List.length_take]; omega)]

theorem take_overwrite_zero {l xs : List α} {n : Nat} (hx : xs.length ≤ n) :
    (overwrite l 0 xs).take n = xs ++ (l.take n).drop xs.length := by
  rw [overwrite, List.take_zero, List.nil_append, List.take_append, List.take_of_length_le hx,
    Nat.zero_add, List.drop_take]

/-- A copy within the elements in view. -/
theorem copyRange_data {s : Slice α} {i j : Nat} {src : List α} (hj : j = i + src.length)
    (hs : j ≤ s.len) :
    ∃ t, s.copyRange i j src = .ok t ∧ t.data = overwrite s.data i src ∧ t.len = s.len ∧
      t.cap = s.cap ∧ t.arr = overwrite s.arr i src := by
  have hcap := s.le_cap
  obtain ⟨t, ht, harr, hl, hc⟩ :=
    copyRange_ok (s := s) (show i ≤ j by omega) (Nat.le_trans hs hcap) src
  rw [List.take_of_length_le (by omega)] at harr
  refine ⟨t, ht, ?_, hl, hc, harr⟩
  simp only [data, harr, hl, overwrite, List.take_append, List.take_take, List.length_append,
    List.length_take, List.drop_take]
  congr 2
  · congr 1
    omega
  · rw [List.take_of_length_le (by omega)]
  · congr 1
    omega

/-- **Padding**: `s` grown to `m` elements, with copies of `z` written over the new part. -/
theorem data_pad {s : Slice α} {m k : Nat} (z : α) (hs : s.len ≤ m) (hm : m ≤ s.cap)
    (hk : m - s.len ≤ k) :
    ∃ t, (s.upto m >>= fun t => t.copyRange s.len m (List.replicate k z)) = .ok t ∧
      t.data = s.data ++ List.replicate (m - s.len) z ∧ t.cap = s.cap ∧ t.len = m := by
  rw [upto_ok hm, ok_bind]
  obtain ⟨t, ht, harr, hl, hc⟩ :=
    copyRange_ok (s := ⟨s.arr, m, hm⟩) hs hm (List.replicate k z)
  refine ⟨t, ht, ?_, hc, hl⟩
  rw [data, hl, harr, List.take_replicate, Nat.min_eq_left hk]
  exact take_overwrite_end s.le_cap (by rw [List.length_replicate]; show m = _; omega)

/-- `copy(s[:len(src)], src)`: a slice cut to the length of `src` and filled with it. -/
theorem data_fill {s : Slice α} {src : List α} (h : src.length ≤ s.cap) :
    ∃ t, (s.upto src.length >>= fun t => t.copyRange 0 src.length src) = .ok t ∧
      t.data = src ∧ t.cap = s.cap ∧ t.len = src.length := by
  rw [upto_ok h, ok_bind]
  obtain ⟨t, ht, harr, hl, hc⟩ :=
    copyRange_ok (s := ⟨s.arr, src.length, h⟩) (i := 0) (Nat.zero_le _) h src
  refine ⟨t, ht, ?_, hc, hl⟩
  rw [data, hl, harr, Nat.sub_zero, List.take_length,
    take_overwrite_end (Nat.zero_le _) (Nat.zero_add _).symm]
  rfl

end Slice

end GoRt
