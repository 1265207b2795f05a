import Mathlib.Algebra.Ring.Int.Defs
import Mathlib.Algebra.Ring.Nat
import Mathlib.Data.List.Basic

/-!
# The Go runtime

A Go computation either returns a value or panics (`Go`). The operations that may panic are
written out with their checks: indexing (`index`, `setIndex`), slicing a slice whose capacity is
its length (`sliceFrom`) and the fixed-width reads and writes of `encoding/binary`'s little
endian order (`leUint16`, `leBytes16` and so on). Slices with spare capacity are in
`Lib/Slice.lean`.

The lemmas split a computation at a bind (`bind_ok`) and say when each operation succeeds.
-/

namespace GoRt

universe u

/-- Why a goroutine panics. -/
inductive Panic where
  | indexOutOfRange
  | sliceBounds
  | nilDeref
  | explicit (msg : String)
  deriving DecidableEq, Repr

/-- A Go computation: a value, or a panic. -/
abbrev Go (α : Type u) := Except Panic α

/-- The contents of a `[]byte`. -/
abbrev Bytes := List UInt8

/-- A clock reading in nanoseconds. -/
abbrev Time := Nat

/-- `time.Second` -/
def second : Time := 1000000000

variable {α β : Type u}

/-- `l[i]` -/
def index (l : List α) (i : Nat) : Go α :=
  match l[i]? with
  | some a => .ok a
  | none => .error .indexOutOfRange

/-- `l[i] = a` -/
def setIndex (l : List α) (i : Nat) (a : α) : Go (List α) :=
  if i < l.length then .ok (l.set i a) else .error .indexOutOfRange

/-- `l[i:]` -/
def sliceFrom (l : List α) (i : Nat) : Go (List α) :=
  if i ≤ l.length then .ok (l.drop i) else .error .sliceBounds

/-- `l[i:j]` for a slice without spare capacity. -/
def sliceRange (l : List α) (i j : Nat) : Go (List α) :=
  if i ≤ j ∧ j ≤ l.length then .ok ((l.take j).drop i) else .error .sliceBounds

/-- The latest of some clock readings, from `now` on. -/
theorem le_foldl_max {κ : Type u} (clock : κ → Time) : ∀ (ks : List κ) (now : Time),
    now ≤ ks.foldl (fun t k => max t (clock k)) now ∧
      ∀ k ∈ ks, clock k ≤ ks.foldl (fun t k => max t (clock k)) now
  | [], now => ⟨Nat.le_refl now, fun k hk => absurd hk List.not_mem_nil⟩
  | k' :: ks, now => by
    obtain ⟨hnow, hread⟩ := le_foldl_max clock ks (max now (clock k'))
    refine ⟨Nat.le_trans (Nat.le_max_left _ _) hnow, fun k hk => ?_⟩
    rcases List.mem_cons.1 hk with rfl | hk
    · exact Nat.le_trans (Nat.le_max_right _ _) hnow
    · exact hread k hk

/-! ## Binds -/

theorem bind_ok {x : Go α} {f : α → Go β} {b : β} (h : x >>= f = .ok b) :
    ∃ a, x = .ok a ∧ f a = .ok b := by
  cases x with
  | error e => cases h
  | ok a => exact ⟨a, rfl, h⟩

theorem ok_of_toOption {x : Go α} {a : α} (h : x.toOption = some a) : x = .ok a := by
  cases x with
  | error e => cases h
  | ok a' => exact congrArg _ (Option.some.inj h)

@[simp] theorem ok_bind (a : α) (f : α → Go β) : ((Except.ok a : Go α) >>= f) = f a := rfl

@[simp] theorem error_bind (e : Panic) (f : α → Go β) :
    ((Except.error e : Go α) >>= f) = .error e := rfl

@[simp] theorem pure_eq_ok (a : α) : (pure a : Go α) = .ok a := rfl

/-- A computation returns: it does not panic. -/
def Returns (x : Go α) : Prop := ∃ a, x = .ok a

theorem returns_ok (a : α) : Returns (.ok a : Go α) := ⟨a, rfl⟩

theorem not_returns_error (e : Panic) : ¬ Returns (.error e : Go α) := fun ⟨_, h⟩ => nomatch h

theorem returns_bind {x : Go α} {f : α → Go β} :
    Returns (x >>= f) ↔ ∃ a, x = .ok a ∧ Returns (f a) := by
  constructor
  · rintro ⟨b, hb⟩
    obtain ⟨a, ha, hf⟩ := bind_ok hb
    exact ⟨a, ha, b, hf⟩
  · rintro ⟨a, rfl, b, hb⟩
    exact ⟨b, hb⟩

/-! ## Indexing -/

theorem index_eq_ok {l : List α} {i : Nat} {a : α} : index l i = .ok a ↔ l[i]? = some a := by
  unfold index
  split <;> simp_all

theorem index_ok {l : List α} {i : Nat} (h : i < l.length) : index l i = .ok l[i] :=
  index_eq_ok.2 (List.getElem?_eq_getElem h)

theorem setIndex_ok {l : List α} {i : Nat} (h : i < l.length) (a : α) :
    setIndex l i a = .ok (l.set i a) := by simp [setIndex, h]

theorem sliceFrom_ok {l : List α} {i : Nat} (h : i ≤ l.length) :
    sliceFrom l i = .ok (l.drop i) := by simp [sliceFrom, h]

theorem sliceRange_ok {l : List α} {i j : Nat} (hi : i ≤ j) (hj : j ≤ l.length) :
    sliceRange l i j = .ok ((l.take j).drop i) := by simp [sliceRange, hi, hj]

/-! ## Little endian -/

/-- The two bytes of `v`, low byte first. -/
def leBytes16 (v : UInt16) : Bytes := [UInt8.ofNat v.toNat, UInt8.ofNat (v.toNat / 2 ^ 8)]

/-- The four bytes of `v`, low byte first. -/
def leBytes32 (v : UInt32) : Bytes :=
  [UInt8.ofNat v.toNat, UInt8.ofNat (v.toNat / 2 ^ 8), UInt8.ofNat (v.toNat / 2 ^ 16),
    UInt8.ofNat (v.toNat / 2 ^ 24)]

/-- `binary.LittleEndian.Uint16` -/
def leUint16 : Bytes → Go UInt16
  | b0 :: b1 :: _ => .ok (UInt16.ofNat (b0.toNat + 2 ^ 8 * b1.toNat))
  | _ => .error .indexOutOfRange

/-- `binary.LittleEndian.Uint32` -/
def leUint32 : Bytes → Go UInt32
  | b0 :: b1 :: b2 :: b3 :: _ =>
    .ok (UInt32.ofNat (b0.toNat + 2 ^ 8 * b1.toNat + 2 ^ 16 * b2.toNat + 2 ^ 24 * b3.toNat))
  | _ => .error .indexOutOfRange

/-- `b` with `xs` written from index `i` on. -/
def overwrite (b : List α) (i : Nat) (xs : List α) : List α :=
  b.take i ++ xs ++ b.drop (i + xs.length)

@[simp] theorem length_leBytes16 (v : UInt16) : (leBytes16 v).length = 2 := rfl

@[simp] theorem length_leBytes32 (v : UInt32) : (leBytes32 v).length = 4 := rfl

theorem leUint16_append (v : UInt16) (rest : Bytes) : leUint16 (leBytes16 v ++ rest) = .ok v := by
  have hv := v.toNat_lt
  simp only [leBytes16, List.cons_append, List.nil_append, leUint16, Except.ok.injEq]
  apply UInt16.toNat_inj.1
  simp only [UInt8.toNat_ofNat', UInt16.toNat_ofNat']
  omega

theorem leUint32_append (v : UInt32) (rest : Bytes) : leUint32 (leBytes32 v ++ rest) = .ok v := by
  have hv := v.toNat_lt
  simp only [leBytes32, List.cons_append, List.nil_append, leUint32, Except.ok.injEq]
  apply UInt32.toNat_inj.1
  simp only [UInt8.toNat_ofNat', UInt32.toNat_ofNat']
  omega

theorem leUint16_returns {b : Bytes} : Returns (leUint16 b) ↔ 2 ≤ b.length := by
  match b with
  | [] | [_] => simp [leUint16, not_returns_error]
  | _ :: _ :: _ => simp [leUint16, returns_ok]

theorem leUint32_returns {b : Bytes} : Returns (leUint32 b) ↔ 4 ≤ b.length := by
  match b with
  | [] | [_] | [_, _] | [_, _, _] => simp [leUint32, not_returns_error]
  | _ :: _ :: _ :: _ :: _ => simp [leUint32, returns_ok]

theorem length_overwrite {b : List α} {i : Nat} {xs : List α} (h : i + xs.length ≤ b.length) :
    (overwrite b i xs).length = b.length := by
  simp only [overwrite, List.length_append, List.length_take, List.length_drop]
  omega

end GoRt
