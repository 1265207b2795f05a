import TcpRaw.Lib.Go

/-!
# Erasure codecs

A systematic erasure code of `d` data and `p` parity shards, as a program uses it through a codec
library: `encode` computes the parity shards of `d` data shards, `reconstructData` fills in the data
shards that are missing (`none`) among the `d + p` shards of a codeword. Both may report an error
(`none`). What a program relies on is `Codec.Lawful`: encoding succeeds on equal-length non-empty
shards, and any `d` shards of a codeword give the data shards back.

`Codec.Codeword` is one encoded block, `Part` a set of shards taken from it. A codec that works
column by column (`Codec.Columnwise`) also has its way with damaged shards: the columns in which
they agree with a codeword come back right (`Codec.Lawful.reconstruct_columns`).
-/

namespace Erasure

universe u

variable {α : Type u}

/-- A codec: the parity of data shards, and the data shards of an incomplete codeword. -/
structure Codec (α : Type u) where
  encode : List (List α) → Option (List (List α))
  reconstructData : List (Option (List α)) → Option (List (Option (List α)))

/-- The number of shards that are there. -/
def present (shards : List (Option (List α))) : Nat := shards.countP Option.isSome

/-- `data` and `parity` are one encoded block of shards of length `n`. -/
structure Codec.Codeword (c : Codec α) (d p n : Nat) (data parity : List (List α)) : Prop where
  data_length : data.length = d
  parity_length : parity.length = p
  data_size : ∀ s ∈ data, s.length = n
  parity_size : ∀ s ∈ parity, s.length = n
  encode : c.encode data = some parity

/-- Every shard of `shards` that is there is the one of `cw` at its position. -/
def Part (cw : List (List α)) (shards : List (Option (List α))) : Prop :=
  shards.length = cw.length ∧ ∀ (k : Nat) (s : List α), shards[k]? = some (some s) → cw[k]? = some s

/-- Encoding succeeds on equal-length non-empty data shards. -/
def Codec.Encodes (c : Codec α) (d p : Nat) : Prop :=
  ∀ {data : List (List α)} {n : Nat}, data.length = d → 0 < n → (∀ s ∈ data, s.length = n) →
    ∃ parity, c.Codeword d p n data parity

/-- What a program relies on of a codec for `d` data and `p` parity shards. -/
structure Codec.Lawful (c : Codec α) (d p : Nat) : Prop where
  /-- Encoding succeeds on equal-length non-empty data shards. -/
  encode_ok : ∀ {data : List (List α)} {n : Nat}, data.length = d → 0 < n →
    (∀ s ∈ data, s.length = n) → ∃ parity, c.Codeword d p n data parity
  /-- Any `d` shards of a codeword give its data shards back. -/
  reconstruct_ok : ∀ {data parity : List (List α)} {n : Nat} {shards : List (Option (List α))},
    0 < n → c.Codeword d p n data parity → Part (data ++ parity) shards → d ≤ present shards →
    ∃ out, c.reconstructData shards = some out ∧ ∀ k < d, out[k]? = data[k]?.map some
  /-- Fewer than `d` shards are an error. -/
  reconstruct_few : ∀ {n : Nat} {shards : List (Option (List α))}, 0 < n →
    shards.length = d + p → (∀ s, some s ∈ shards → s.length = n) → present shards < d →
    c.reconstructData shards = none

/-- Reconstruction does not change the length of the shards. -/
def Codec.Sized (c : Codec α) : Prop :=
  ∀ {shards out : List (Option (List α))} {n : Nat}, (∀ s, some s ∈ shards → s.length = n) →
    c.reconstructData shards = some out → ∀ s, some s ∈ out → s.length = n

/-- Reconstruction works column by column: it keeps the length of the shards, and from their first
`m` elements it computes the first `m` elements of its result. -/
structure Codec.Columnwise (c : Codec α) : Prop where
  sized : c.Sized
  take : ∀ {shards : List (Option (List α))} {n m : Nat}, 0 < m → m ≤ n →
    (∀ s, some s ∈ shards → s.length = n) →
    c.reconstructData (shards.map (Option.map (List.take m))) =
      (c.reconstructData shards).map (List.map (Option.map (List.take m)))

theorem Codec.Lawful.encodes {c : Codec α} {d p : Nat} (h : c.Lawful d p) : c.Encodes d p :=
  h.encode_ok

theorem Codec.Codeword.shard_size {c : Codec α} {d p n : Nat} {data parity : List (List α)}
    (h : c.Codeword d p n data parity) {s : List α} (hs : s ∈ data ++ parity) : s.length = n := by
  rcases List.mem_append.1 hs with hs | hs
  · exact h.data_size s hs
  · exact h.parity_size s hs

theorem Codec.Codeword.length {c : Codec α} {d p n : Nat} {data parity : List (List α)}
    (h : c.Codeword d p n data parity) : (data ++ parity).length = d + p := by
  rw [List.length_append, h.data_length, h.parity_length]

theorem Part.size {c : Codec α} {d p n : Nat} {data parity : List (List α)}
    {shards : List (Option (List α))} (h : Part (data ++ parity) shards)
    (hc : c.Codeword d p n data parity) {s : List α} (hs : some s ∈ shards) : s.length = n := by
  obtain ⟨k, hk⟩ := List.mem_iff_getElem?.1 hs
  exact hc.shard_size (List.mem_iff_getElem?.2 ⟨k, h.2 k s hk⟩)

/-- A block with a missing data shard and `d` shards there has a parity shard there. -/
theorem exists_parity {d : Nat} {shards : List (Option (List α))} (hd : d ≤ present shards)
    {k : Nat} (hk : k < d) (hn : ∀ s, shards[k]? ≠ some (some s)) :
    ∃ j s, d ≤ j ∧ shards[j]? = some (some s) := by
  by_contra hc
  push Not at hc
  -- otherwise every shard there is one of the other `d - 1` data shards
  have hdrop : (shards.drop d).countP Option.isSome = 0 := by
    rw [List.countP_eq_zero]
    intro o ho hs
    obtain ⟨s, rfl⟩ := Option.isSome_iff_exists.1 hs
    obtain ⟨j, hj⟩ := List.mem_iff_getElem?.1 ho
    rw [List.getElem?_drop] at hj
    exact hc (d + j) s (by omega) hj
  have htake : (shards.take d).countP Option.isSome < d := by
    have hle : (shards.take d).countP Option.isSome ≤ (shards.take d).length :=
      List.countP_le_length
    rw [List.length_take] at hle
    rcases Nat.lt_or_ge shards.length d with h | h
    · omega
    refine Nat.lt_of_le_of_ne (by omega) fun he => ?_
    have hall := List.countP_eq_length.1
      (show (shards.take d).countP Option.isSome = (shards.take d).length by
        rw [List.length_take]; omega)
    have hk' : k < shards.length := by omega
    have hm : shards[k] ∈ shards.take d :=
      List.mem_iff_getElem?.2
        ⟨k, by rw [List.getElem?_take, if_pos hk, List.getElem?_eq_getElem hk']⟩
    obtain ⟨s, hs⟩ := Option.isSome_iff_exists.1 (hall _ hm)
    exact hn s (by rw [List.getElem?_eq_getElem hk', hs])
  have : present shards = (shards.take d).countP Option.isSome
      + (shards.drop d).countP Option.isSome := by
    rw [present, ← List.countP_append, List.take_append_drop]
  omega

/-! ## Columns -/

/-- The shards of `cw` at the positions where `shards` has one. -/
def select (cw : List (List α)) (shards : List (Option (List α))) : List (Option (List α)) :=
  List.zipWith (fun o s => o.map fun _ => s) shards cw

theorem present_select {cw : List (List α)} : ∀ {shards : List (Option (List α))},
    shards.length = cw.length → present (select cw shards) = present shards := by
  induction cw with
  | nil =>
    intro shards h
    rw [List.eq_nil_of_length_eq_zero h]
    rfl
  | cons s cw ih =>
    intro shards h
    cases shards with
    | nil => cases h
    | cons o shards =>
      have := ih (Nat.succ.inj h)
      unfold present select at this ⊢
      rw [List.zipWith_cons_cons, List.countP_cons, List.countP_cons, this, Option.isSome_map]

theorem part_select {cw : List (List α)} {shards : List (Option (List α))}
    (h : shards.length = cw.length) : Part cw (select cw shards) := by
  refine ⟨by rw [select, List.length_zipWith, h, Nat.min_self], fun k s hk => ?_⟩
  rw [select, List.getElem?_zipWith_eq_some] at hk
  obtain ⟨o, s', -, hs', ho⟩ := hk
  obtain ⟨-, -, rfl⟩ := Option.map_eq_some_iff.1 ho
  exact hs'

/-- **Shards that agree with a codeword in their first columns** give its data shards back in these
columns, whatever the others hold. -/
theorem Codec.Lawful.reconstruct_columns {c : Codec α} {d p n n' m : Nat} (hlaw : c.Lawful d p)
    (hcol : c.Columnwise) {data parity : List (List α)} (hcw : c.Codeword d p n data parity)
    {shards : List (Option (List α))} (hlen : shards.length = d + p) (hd : d ≤ present shards)
    (hsize : ∀ s, some s ∈ shards → s.length = n') (hm : 0 < m) (hn : m ≤ n) (hn' : m ≤ n')
    (hagree : ∀ (k : Nat) (s : List α), shards[k]? = some (some s) →
      ∃ t : List α, (data ++ parity)[k]? = some t ∧ s.take m = t.take m) :
    ∃ out, c.reconstructData shards = some out ∧
      ∀ (k : Nat) (x : List α), k < d → data[k]? = some x →
        ∃ y : List α, out[k]? = some (some y) ∧ y.length = n' ∧ y.take m = x.take m := by
  have hlen' : shards.length = (data ++ parity).length := by rw [hlen, hcw.length]
  have hpart := part_select hlen'
  obtain ⟨out, hout, hget⟩ := hlaw.reconstruct_ok (by omega) hcw hpart
    (by rwa [present_select hlen'])
  -- in the first `m` columns the shards are those of the codeword
  have htake : shards.map (Option.map (List.take m)) =
      (select (data ++ parity) shards).map (Option.map (List.take m)) := by
    refine List.ext_getElem? fun k => ?_
    rw [List.getElem?_map, List.getElem?_map, select, List.getElem?_zipWith]
    cases hk : shards[k]? with
    | none => rfl
    | some o =>
      have hlt : k < (data ++ parity).length := hlen' ▸ (List.getElem?_eq_some_iff.1 hk).1
      rw [List.getElem?_eq_getElem hlt]
      cases o with
      | none => rfl
      | some s =>
        obtain ⟨t, ht, hst⟩ := hagree k s hk
        rw [List.getElem?_eq_getElem hlt, Option.some.injEq] at ht
        simp only [Option.map_some, hst, ht]
  have hcut := hcol.take hm hn' hsize
  rw [htake, hcol.take hm hn fun s hs => hpart.size hcw hs, hout, Option.map_some] at hcut
  obtain ⟨out', hout', he⟩ := Option.map_eq_some_iff.1 hcut.symm
  refine ⟨out', hout', fun k x hk hx => ?_⟩
  have hk' := congrArg (·[k]?) he
  simp only [List.getElem?_map, hget k hk, hx, Option.map_some] at hk'
  obtain ⟨o, ho, hoy⟩ := Option.map_eq_some_iff.1 hk'
  obtain ⟨y, rfl, hy⟩ := Option.map_eq_some_iff.1 hoy
  exact ⟨y, ho, hcol.sized hsize hout' y (List.mem_of_getElem? ho), hy⟩

end Erasure
