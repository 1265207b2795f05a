import Mathlib.Data.List.Basic

/-!
# What a program has in its hands

A program takes things (it opens a file, it starts a thread) and gives them back. Each is named by a
number when it is taken; a `Store` is the things that are held, and the first number that was not
given out. A program over a store may stop early: it is an `EStateM`, and the store after it is
there also where it stopped.

`Released s s'`: whatever is held in `s'` was held in `s` before. `Keeps s s'`: what was held is
still held. A program that never gives back is `Keeping`, and that is found out part by part
(`keeping_bind`); whatever it takes is held at its end, and where it stops early that is a leak
(`Leaks`, `Leaks.not_released`).
-/

namespace Custody

variable {κ ε α β : Type}

/-- The things held, newest first, each with its number. -/
structure Store (κ : Type) where
  /-- The next number. -/
  next : Nat
  held : List (Nat × κ)
  named : ∀ x ∈ held, x.1 < next

/-- Nothing is held. -/
def Store.empty : Store κ := ⟨0, [], fun _ h => absurd h List.not_mem_nil⟩

theorem named_cons {next : Nat} {held : List (Nat × κ)} (h : ∀ x ∈ held, x.1 < next) (k : κ) :
    ∀ x ∈ (next, k) :: held, x.1 < next + 1 := by
  intro x hx
  rcases List.mem_cons.1 hx with rfl | hx
  · exact Nat.lt_succ_self next
  · exact Nat.lt_succ_of_lt (h x hx)

theorem named_filter {next : Nat} {held : List (Nat × κ)} (h : ∀ x ∈ held, x.1 < next)
    (p : Nat × κ → Bool) : ∀ x ∈ held.filter p, x.1 < next :=
  fun x hx => h x (List.mem_filter.1 hx).1

/-- Take a thing. -/
def Store.take (s : Store κ) (k : κ) : Store κ :=
  ⟨s.next + 1, (s.next, k) :: s.held, named_cons s.named k⟩

/-- Give back the thing of the number `i`. -/
def Store.giveBack (s : Store κ) (i : Nat) : Store κ :=
  ⟨s.next, s.held.filter (fun x => x.1 != i), named_filter s.named _⟩

/-! ## Stores before and after -/

section
variable {s s₁ s₂ s' : Store κ} {k : κ}

/-- Nothing is held but what was held before. -/
def Released (s s' : Store κ) : Prop := ∀ x ∈ s'.held, x ∈ s.held

/-- What was held is still held. -/
structure Keeps (s s' : Store κ) : Prop where
  next_le : s.next ≤ s'.next
  mem : ∀ x ∈ s.held, x ∈ s'.held

/-- Something is held that was taken after `s`. -/
def Leaks (s s' : Store κ) : Prop := ∃ x ∈ s'.held, s.next ≤ x.1

theorem released_refl (s : Store κ) : Released s s := fun _ hx => hx

/-- A thing that was taken and given back. -/
theorem released_giveBack (s : Store κ) (k : κ) : Released s ((s.take k).giveBack s.next) := by
  intro x hx
  obtain ⟨hx, hne⟩ := List.mem_filter.1 hx
  rcases List.mem_cons.1 hx with rfl | hx
  · simp at hne
  · exact hx

theorem keeps_refl (s : Store κ) : Keeps s s := ⟨Nat.le_refl _, fun _ hx => hx⟩

theorem Keeps.trans (h : Keeps s s₁) (h' : Keeps s₁ s₂) : Keeps s s₂ :=
  ⟨Nat.le_trans h.next_le h'.next_le, fun x hx => h'.mem x (h.mem x hx)⟩

theorem keeps_take (s : Store κ) (k : κ) : Keeps s (s.take k) :=
  ⟨Nat.le_succ _, fun _ hx => List.mem_cons_of_mem _ hx⟩

theorem leaks_take (s : Store κ) (k : κ) : Leaks s (s.take k) :=
  ⟨(s.next, k), List.mem_cons_self, Nat.le_refl _⟩

theorem Leaks.keeps (h : Leaks s s₁) (hk : Keeps s₁ s₂) : Leaks s s₂ := by
  obtain ⟨x, hx, hle⟩ := h
  exact ⟨x, hk.mem x hx, hle⟩

theorem Keeps.leaks (hk : Keeps s s₁) (h : Leaks s₁ s₂) : Leaks s s₂ := by
  obtain ⟨x, hx, hle⟩ := h
  exact ⟨x, hx, Nat.le_trans hk.next_le hle⟩

/-- Numbers are not given out twice. -/
theorem Leaks.not_released (h : Leaks s s') : ¬ Released s s' := by
  obtain ⟨x, hx, hle⟩ := h
  intro hrel
  exact Nat.not_lt.2 hle (s.named x (hrel x hx))

end

/-! ## Programs -/

/-- A program, which may stop early with an `ε`. -/
abbrev Prog (κ ε α : Type) := EStateM ε (Store κ) α

/-- Take a thing; its number. -/
def takes (k : κ) : Prog κ ε Nat := fun s => .ok s.next (s.take k)

/-- Give a thing back. -/
def givesBack (i : Nat) : Prog κ ε Unit := fun s => .ok () (s.giveBack i)

/-- The store at the end. -/
def after : EStateM.Result ε (Store κ) α → Store κ
  | .ok _ s => s
  | .error _ s => s

section
variable {m : Prog κ ε α} {f : α → Prog κ ε β} {s s' : Store κ} {a : α} {b : β} {e : ε}

theorem bind_of_ok (h : m s = .ok a s') : (m >>= f) s = f a s' := by
  change EStateM.bind m f s = _
  rw [EStateM.bind, h]

theorem bind_of_error (h : m s = .error e s') : (m >>= f) s = .error e s' := by
  change EStateM.bind m f s = _
  rw [EStateM.bind, h]

/-- A program that stops early stops in its first part, or after it. -/
theorem bind_error (h : (m >>= f) s = .error e s') :
    m s = .error e s' ∨ ∃ a s₁, m s = .ok a s₁ ∧ f a s₁ = .error e s' := by
  cases hm : m s with
  | ok a s₁ =>
    rw [bind_of_ok hm] at h
    exact .inr ⟨a, s₁, rfl, h⟩
  | error e' s₁ =>
    rw [bind_of_error hm] at h
    cases h
    exact .inl rfl

theorem bind_ok (h : (m >>= f) s = .ok b s') : ∃ a s₁, m s = .ok a s₁ ∧ f a s₁ = .ok b s' := by
  cases hm : m s with
  | ok a s₁ =>
    rw [bind_of_ok hm] at h
    exact ⟨a, s₁, rfl, h⟩
  | error e' s₁ =>
    rw [bind_of_error hm] at h
    cases h

/-- The program gives nothing back that it did not take itself. -/
def Keeping (m : Prog κ ε α) : Prop := ∀ s, Keeps s (after (m s))

theorem keeping_pure (a : α) : Keeping (pure a : Prog κ ε α) := fun s => keeps_refl s

theorem keeping_throw (e : ε) : Keeping (throw e : Prog κ ε α) := fun s => keeps_refl s

theorem keeping_takes (k : κ) : Keeping (takes k : Prog κ ε Nat) := fun s => keeps_take s k

theorem keeping_bind (hm : Keeping m) (hf : ∀ a, Keeping (f a)) : Keeping (m >>= f) := by
  intro s
  have hs := hm s
  cases hms : m s with
  | ok a s₁ =>
    rw [hms] at hs
    rw [bind_of_ok hms]
    exact hs.trans (hf a s₁)
  | error e s₁ =>
    rw [hms] at hs
    rw [bind_of_error hms]
    exact hs

theorem Keeping.error (hm : Keeping m) (h : m s = .error e s') : Keeps s s' := by
  have hs := hm s
  rw [h] at hs
  exact hs

/-- What the first part took and did not give back is held at the end. -/
theorem leaks_bind (h : Leaks s (after (m s))) (hf : ∀ a, Keeping (f a)) :
    Leaks s (after ((m >>= f) s)) := by
  cases hms : m s with
  | ok a s₁ =>
    rw [hms] at h
    rw [bind_of_ok hms]
    exact h.keeps (hf a s₁)
  | error e s₁ =>
    rw [hms] at h
    rw [bind_of_error hms]
    exact h

end

end Custody
