import Mathlib.Data.List.AList

/-!
# Go maps

A Go map is an association list with distinct keys (Mathlib's `AList`): `lookup` is `m[k]`, `insert`
is `m[k] = v`, `erase` is `delete(m, k)` and `entries` are what a `range` loop visits, in some
order. `eraseAll` is a loop of deletions.
-/

namespace GoRt

universe u v

/-- `map[κ]ν` -/
abbrev GoMap (κ : Type u) (ν : Type v) := AList fun _ : κ => ν

namespace GoMap

variable {κ : Type u} {ν : Type v} [DecidableEq κ]

theorem lookup_insert_of (m : GoMap κ ν) (k k' : κ) (v : ν) :
    (m.insert k v).lookup k' = if k' = k then some v else m.lookup k' := by
  split
  · rename_i h
    rw [h, AList.lookup_insert]
  · rename_i h
    rw [AList.lookup_insert_ne h]

theorem lookup_erase_of (m : GoMap κ ν) (k k' : κ) :
    (m.erase k).lookup k' = if k' = k then none else m.lookup k' := by
  split
  · rename_i h
    rw [h, AList.lookup_erase]
  · rename_i h
    rw [AList.lookup_erase_ne h]

/-- Delete the keys `ks` one after the other. -/
def eraseAll (m : GoMap κ ν) (ks : List κ) : GoMap κ ν := ks.foldl (fun m k => m.erase k) m

theorem lookup_eraseAll (ks : List κ) (m : GoMap κ ν) (k : κ) :
    (eraseAll m ks).lookup k = if k ∈ ks then none else m.lookup k := by
  induction ks generalizing m with
  | nil => rfl
  | cons k' ks ih =>
    rw [eraseAll, List.foldl_cons, ← eraseAll, ih, lookup_erase_of]
    by_cases h : k = k' <;> by_cases h' : k ∈ ks <;> simp [h, h']

theorem mem_eraseAll {ks : List κ} {m : GoMap κ ν} {k : κ} :
    k ∈ eraseAll m ks ↔ k ∈ m ∧ k ∉ ks := by
  rw [← AList.lookup_isSome, ← AList.lookup_isSome, lookup_eraseAll]
  split <;> simp_all

end GoMap

end GoRt
