import Mathlib.Algebra.Ring.Nat
import Mathlib.Data.List.Induction
import Mathlib.Data.List.Nodup
import Mathlib.Data.List.Sort

/-!
# Lists in strict order of a key

A queue whose entries carry a number and are kept in its order. `Ordered key l` says the keys of `l`
strictly increase; then the entries with keys in an interval are contiguous (`Ordered.split`), there
are at most as many as the interval is long (`Ordered.length_le`), and fewer if a key is missing
(`Ordered.length_lt`).

`length_le_of_classes` bounds a list by the sizes of its classes, `length_le_countP` the number of
distinct positions that satisfy a predicate. `Ordered.filterMap_sublist` reads another list at the
keys: a sublist of it; `filterMap_split_perm` puts a list together from two sets of positions.

`ofSource i l` is what a list that merges several sources holds of the source `i`.
-/

namespace Keyed

universe u

variable {α : Type u} {key : α → Nat} {l : List α} {lo hi : Nat}

/-- The keys strictly increase. -/
def Ordered (key : α → Nat) (l : List α) : Prop := l.Pairwise fun a b => key a < key b

theorem Ordered.sublist {l' : List α} (h : Ordered key l) (hs : l'.Sublist l) : Ordered key l' :=
  List.Pairwise.sublist hs h

theorem Ordered.inj (h : Ordered key l) {a b : α} (ha : a ∈ l) (hb : b ∈ l)
    (hk : key a = key b) : a = b := by
  induction l with
  | nil => cases ha
  | cons x l ih =>
    obtain ⟨hx, hl⟩ := List.pairwise_cons.1 h
    rcases List.mem_cons.1 ha with ha' | ha' <;> rcases List.mem_cons.1 hb with hb' | hb'
    · rw [ha', hb']
    · have := hx b hb'
      rw [ha'] at hk
      omega
    · have := hx a ha'
      rw [hb'] at hk
      omega
    · exact ih hl ha' hb'

theorem Ordered.length_le (h : Ordered key l) (hk : ∀ a ∈ l, lo ≤ key a ∧ key a < hi) :
    l.length ≤ hi - lo := by
  induction l generalizing lo with
  | nil => exact Nat.zero_le _
  | cons x l ih =>
    obtain ⟨hx, hl⟩ := List.pairwise_cons.1 h
    have hkx := hk x (by simp)
    have hk' : ∀ a ∈ l, key x + 1 ≤ key a ∧ key a < hi := fun a ha =>
      ⟨hx a ha, (hk a (by simp [ha])).2⟩
    have := ih hl hk'
    rw [List.length_cons]
    omega

theorem Ordered.add_le (h : Ordered key l) {i j : Nat} {a b : α} (hij : i ≤ j) (ha : l[i]? = some a)
    (hb : l[j]? = some b) : key a + (j - i) ≤ key b := by
  obtain ⟨hi, rfl⟩ := List.getElem?_eq_some_iff.1 ha
  induction j, hij using Nat.le_induction generalizing b with
  | base =>
    obtain rfl := Option.some.inj (ha.symm.trans hb)
    omega
  | succ j hij ih =>
    obtain ⟨hj, rfl⟩ := List.getElem?_eq_some_iff.1 hb
    have hprev := ih (List.getElem?_eq_getElem (Nat.lt_of_succ_lt hj))
    have hlt :=
      List.pairwise_iff_getElem.1 h j (j + 1) (Nat.lt_of_succ_lt hj) hj (Nat.lt_succ_self j)
    omega

/-- An interval with a key that is missing is not full. -/
theorem Ordered.length_lt (h : Ordered key l) (hk : ∀ a ∈ l, lo ≤ key a ∧ key a < hi) {v : Nat}
    (hlo : lo ≤ v) (hhi : v < hi) (hv : ∀ a ∈ l, key a ≠ v) : l.length < hi - lo := by
  induction l generalizing lo with
  | nil =>
    rw [List.length_nil]
    omega
  | cons x l ih =>
    obtain ⟨hx, hl⟩ := List.pairwise_cons.1 h
    have hkx := hk x (by simp)
    have hvx := hv x (by simp)
    have hk' : ∀ a ∈ l, key x + 1 ≤ key a ∧ key a < hi := fun a ha =>
      ⟨hx a ha, (hk a (by simp [ha])).2⟩
    rw [List.length_cons]
    rcases Nat.lt_or_ge v (key x) with hlt | hge
    · have := Ordered.length_le hl hk'
      omega
    · have := ih hl hk' (by omega) fun a ha => hv a (by simp [ha])
      omega

/-- **The entries with keys in an interval are contiguous.** -/
theorem Ordered.split (h : Ordered key l) (lo hi : Nat) :
    ∃ before inside after, l = before ++ (inside ++ after) ∧ (∀ a ∈ before, key a < lo) ∧
      (∀ a ∈ inside, lo ≤ key a ∧ key a < hi) ∧ ∀ a ∈ after, hi ≤ key a := by
  induction l with
  | nil => exact ⟨[], [], [], rfl, by simp, by simp, by simp⟩
  | cons x l ih =>
    obtain ⟨hx, hl⟩ := List.pairwise_cons.1 h
    obtain ⟨before, inside, after, rfl, hb, hi', ha⟩ := ih hl
    by_cases h1 : key x < lo
    · exact ⟨x :: before, inside, after, rfl, List.forall_mem_cons.2 ⟨h1, hb⟩, hi', ha⟩
    have hbnil : before = [] := List.eq_nil_iff_forall_not_mem.2 fun a ha' => by
      have := hb a ha'
      have := hx a (by simp [ha'])
      omega
    subst hbnil
    by_cases h2 : key x < hi
    · exact ⟨[], x :: inside, after, rfl, by simp, List.forall_mem_cons.2 ⟨⟨by omega, h2⟩, hi'⟩, ha⟩
    have hinil : inside = [] := List.eq_nil_iff_forall_not_mem.2 fun a ha' => by
      have := (hi' a ha').2
      have := hx a (by simp [ha'])
      omega
    subst hinil
    exact ⟨[], [], x :: after, rfl, by simp, by simp, List.forall_mem_cons.2 ⟨by omega, ha⟩⟩

/-- The entries whose keys are in one block of `n` are contiguous. -/
theorem Ordered.split_div (h : Ordered key l) {n : Nat} (h0 : 0 < n) (b : Nat) :
    ∃ before inside after, l = before ++ (inside ++ after) ∧ (∀ a ∈ before, key a / n < b) ∧
      (∀ a ∈ inside, key a / n = b) ∧ ∀ a ∈ after, b < key a / n := by
  obtain ⟨before, inside, after, hl, hb, hi, ha⟩ := h.split (b * n) (b * n + n)
  refine ⟨before, inside, after, hl, fun a h => (Nat.div_lt_iff_lt_mul h0).2 (hb a h),
    fun a h => ?_, fun a h => (Nat.le_div_iff_mul_le h0).2 (by rw [Nat.succ_mul]; exact ha a h)⟩
  have := hi a h
  rw [Nat.div_eq_iff h0]
  omega

theorem filter_split {p : α → Bool} {before inside after : List α} (hb : ∀ a ∈ before, p a = false)
    (hi : ∀ a ∈ inside, p a = true) (ha : ∀ a ∈ after, p a = false) :
    (before ++ (inside ++ after)).filter p = inside ∧
      (before ++ (inside ++ after)).filter (fun a => !p a) = before ++ after := by
  simp only [List.filter_append]
  constructor
  · rw [List.filter_eq_nil_iff.2 fun a h => by simp [hb a h], List.filter_eq_self.2 hi,
      List.filter_eq_nil_iff.2 fun a h => by simp [ha a h], List.nil_append, List.append_nil]
  · rw [List.filter_eq_self.2 fun a h => by simp [hb a h],
      List.filter_eq_nil_iff.2 fun a h => by simp [hi a h],
      List.filter_eq_self.2 fun a h => by simp [ha a h], List.nil_append]

theorem length_le_of_classes {c : α → Nat} {B e : Nat} (he : ∀ b, l.countP (c · = b) ≤ e) (m : Nat)
    (hc : ∀ a ∈ l, B ≤ c a ∧ c a < B + m) : l.length ≤ m * e := by
  induction m generalizing l with
  | zero =>
    have : l = [] := List.eq_nil_iff_forall_not_mem.2 fun a ha => by
      have := hc a ha
      omega
    simp [this]
  | succ m ih =>
    have hrest := ih (l := l.filter (c · ≠ B + m))
      (fun b => Nat.le_trans (List.filter_sublist.countP_le) (he b)) fun a ha => by
        obtain ⟨ha, hne⟩ := List.mem_filter.1 ha
        have := hc a ha
        simp only [decide_not, Bool.not_eq_eq_eq_not, Bool.not_true, decide_eq_false_iff_not] at hne
        omega
    have hsum := List.length_eq_countP_add_countP (fun a => decide (c a = B + m)) (l := l)
    have hlast := he (B + m)
    have hlen : l.countP (fun a => ¬ (decide (c a = B + m)) = true)
        = (l.filter (c · ≠ B + m)).length := by
      rw [List.countP_eq_length_filter]
      congr 2
      funext a
      simp
    rw [Nat.add_one_mul]
    omega

theorem length_le_countP {p : α → Bool} {ks : List Nat} (hnd : ks.Nodup)
    (h : ∀ k ∈ ks, ∃ a, l[k]? = some a ∧ p a = true) : ks.length ≤ l.countP p := by
  induction l generalizing ks with
  | nil =>
    have : ks = [] := List.eq_nil_iff_forall_not_mem.2 fun k hk => by
      obtain ⟨a, ha, -⟩ := h k hk
      cases ha
    simp [this]
  | cons x l ih =>
    -- position 0 is the head; the others are positions of the tail, shifted
    have hnd' : ((ks.erase 0).map (· - 1)).Nodup := by
      refine List.Nodup.map_on (fun a ha b hb hab => ?_) (hnd.erase 0)
      have h1 := (hnd.mem_erase_iff.1 ha).1
      have h2 := (hnd.mem_erase_iff.1 hb).1
      omega
    have hih := ih hnd' fun k hk => by
      obtain ⟨k', hk', rfl⟩ := List.mem_map.1 hk
      obtain ⟨hne, hk'⟩ := hnd.mem_erase_iff.1 hk'
      obtain ⟨a, ha, hp⟩ := h k' hk'
      obtain ⟨m, rfl⟩ : ∃ m, k' = m + 1 := ⟨k' - 1, by omega⟩
      exact ⟨a, by simpa using ha, hp⟩
    rw [List.length_map] at hih
    rw [List.countP_cons]
    by_cases h0 : 0 ∈ ks
    · obtain ⟨a, ha, hp⟩ := h 0 h0
      have : x = a := by simpa using ha
      rw [List.length_erase_of_mem h0] at hih
      rw [this, if_pos hp]
      omega
    · rw [List.erase_of_not_mem h0] at hih
      omega

/-! ## Keys as positions -/

theorem filterMap_range_getElem? (l : List α) : (List.range l.length).filterMap (l[·]?) = l := by
  induction l using List.reverseRecOn with
  | nil => rfl
  | append_singleton l a ih =>
    have hleft : (List.range l.length).filterMap ((l ++ [a])[·]?) =
        (List.range l.length).filterMap (l[·]?) :=
      List.filterMap_congr fun i hi => List.getElem?_append_left (List.mem_range.1 hi)
    rw [List.length_append, List.length_singleton, List.range_succ, List.filterMap_append, hleft,
      ih]
    simp

/-- **A list in two parts**: its elements at the positions `ks`, which are those `f` holds of, and
its elements at the other positions. -/
theorem filterMap_split_perm {f : Nat → Bool} {ks : List Nat} (hnd : ks.Nodup)
    (hks : ∀ k, k ∈ ks ↔ k < l.length ∧ f k = true) :
    (ks.filterMap (l[·]?) ++
      (List.range l.length).filterMap fun k => if f k then none else l[k]?).Perm l := by
  have hin : ks.Perm ((List.range l.length).filter f) :=
    (List.perm_ext_iff_of_nodup hnd (List.nodup_range.filter _)).2 fun k => by
      rw [hks, List.mem_filter, List.mem_range]
  have hout : ((List.range l.length).filterMap fun k => if f k then none else l[k]?) =
      ((List.range l.length).filter fun k => !f k).filterMap (l[·]?) := by
    rw [List.filterMap_filter]
    refine List.filterMap_congr fun k _ => ?_
    cases f k <;> rfl
  have hall := ((hin.append_right _).trans
    (List.filter_append_perm f (List.range l.length))).filterMap (l[·]?)
  rwa [List.filterMap_append, filterMap_range_getElem?, ← hout] at hall

/-- **Read at increasing positions**, a list gives a sublist of its elements with a property that
all those read have. -/
theorem Ordered.filterMap_sublist {β : Type u} {r : List β} (h : Ordered key l) {q : β → Bool}
    (hq : ∀ a ∈ l, ∃ b, r[key a]? = some b ∧ q b = true) :
    (l.filterMap fun a => r[key a]?).Sublist (r.filter q) := by
  have hkeys : (l.map key).Sublist (List.range r.length) := by
    have hlt : (l.map key).Pairwise (· < ·) := List.pairwise_map.2 h
    refine List.sublist_of_subperm_of_pairwise (r := (· < ·))
      (List.subperm_of_subset (hlt.imp Nat.ne_of_lt) fun i hi => ?_) hlt List.pairwise_lt_range
    obtain ⟨a, ha, rfl⟩ := List.mem_map.1 hi
    obtain ⟨b, hb, -⟩ := hq a ha
    exact List.mem_range.2 (List.getElem?_eq_some_iff.1 hb).1
  have hself : (l.filterMap fun a => r[key a]?).filter q = l.filterMap fun a => r[key a]? := by
    refine List.filter_eq_self.2 fun b hb => ?_
    obtain ⟨a, ha, hab⟩ := List.mem_filterMap.1 hb
    obtain ⟨b', hb', hqb⟩ := hq a ha
    rw [hab] at hb'
    cases hb'
    exact hqb
  have hread := ((hkeys.filterMap (r[·]?)).filter q)
  rw [filterMap_range_getElem?, List.filterMap_map] at hread
  rw [← hself]
  exact hread

theorem sum_set (g : α → Nat) {i : Nat} {a : α} (b : α) : ∀ {l : List α}, l[i]? = some a →
    ((l.set i b).map g).sum + g a = (l.map g).sum + g b := by
  intro l
  induction l generalizing i with
  | nil => simp
  | cons c l ih =>
    intro h
    cases i with
    | zero =>
      cases h
      simp [Nat.add_comm, Nat.add_left_comm]
    | succ i =>
      have ih := ih h
      simp only [List.set_cons_succ, List.map_cons, List.sum_cons]
      omega

/-! ## Merged lists -/

/-- What a merged list holds of the source `i`. -/
def ofSource {β : Type u} (i : Nat) (l : List (Nat × β)) : List β :=
  (l.filter fun x => x.1 = i).map (·.2)

section
variable {β : Type u} {i : Nat}

theorem ofSource_append (i : Nat) (l l' : List (Nat × β)) :
    ofSource i (l ++ l') = ofSource i l ++ ofSource i l' := by
  simp [ofSource]

theorem ofSource_self (i : Nat) (b : β) : ofSource i [(i, b)] = [b] := by simp [ofSource]

theorem ofSource_ne {l : List (Nat × β)} (h : ∀ x ∈ l, x.1 ≠ i) : ofSource i l = [] := by
  refine List.map_eq_nil_iff.2 (List.filter_eq_nil_iff.2 fun x hx => ?_)
  simpa using h x hx

/-- A merged list repeats nothing if it repeats nothing of any one source. -/
theorem nodup_of_sources : ∀ {l : List (Nat × β)}, (∀ x ∈ l, (ofSource x.1 l).Nodup) → l.Nodup
  | [], _ => List.nodup_nil
  | x :: l, h => by
    refine List.nodup_cons.2 ⟨fun hx => ?_, nodup_of_sources fun y hy => ?_⟩
    · have hnd := h x List.mem_cons_self
      have hcons : ofSource x.1 (x :: l) = x.2 :: ofSource x.1 l := by simp [ofSource]
      rw [hcons] at hnd
      refine (List.nodup_cons.1 hnd).1 (List.mem_map.2 ⟨x, List.mem_filter.2 ⟨hx, ?_⟩, rfl⟩)
      exact decide_eq_true rfl
    · have hsub : (ofSource y.1 l).Sublist (ofSource y.1 (x :: l)) :=
        ((List.sublist_cons_self x l).filter _).map _
      exact (h y (List.mem_cons_of_mem _ hy)).sublist hsub

end

end Keyed
