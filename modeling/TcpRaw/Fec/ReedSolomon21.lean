import TcpRaw.Fec.Encoder

/-!
# The codecs of up to three shards

What `reedsolomon.New(2, 1)` computes with: the field of 256 elements with polynomial `0x11d`, and
the matrix row `3, 2` for the parity shard. A missing data shard is solved for with the inverses of
`2` and `3`. `rs21_lawful` instantiates what the FEC layer relies on of its codec.

With one data shard every matrix row is `1`, so the parity shards are copies of the data (`rs1`).
-/

namespace Faketcp

open Erasure

/-- Multiplication in the field, the multiplier's lowest bit first. -/
def gfMulAux : Nat → UInt8 → UInt8 → UInt8
  | 0, _, _ => 0
  | fuel + 1, a, b =>
    let double := (b <<< 1) ^^^ (if b &&& 0x80 = 0 then 0 else 0x1d)
    (if a &&& 1 = 0 then 0 else b) ^^^ gfMulAux fuel (a >>> 1) double

/-- Multiplication in the field. -/
def gfMul (a b : UInt8) : UInt8 := gfMulAux 8 a b

theorem gfMul_inv {a b : UInt8}
    (h : ∀ n < 256, gfMul a (gfMul b (UInt8.ofNat n)) = UInt8.ofNat n) (x : UInt8) :
    gfMul a (gfMul b x) = x := by
  rw [← UInt8.ofNat_toNat (x := x)]
  exact h _ x.toNat_lt

theorem gfMul_inv_two : ∀ x, gfMul 0x8e (gfMul 2 x) = x := gfMul_inv (by decide +kernel)

theorem gfMul_inv_three : ∀ x, gfMul 0xf4 (gfMul 3 x) = x := gfMul_inv (by decide +kernel)

/-- The parity of two data shards. -/
def parity21 (a b : List UInt8) : List UInt8 :=
  List.zipWith (fun x y => gfMul 3 x ^^^ gfMul 2 y) a b

/-- The first data shard, from the second and the parity. -/
def solveFirst (b c : List UInt8) : List UInt8 :=
  List.zipWith (fun y z => gfMul 0xf4 (z ^^^ gfMul 2 y)) b c

/-- The second data shard, from the first and the parity. -/
def solveSecond (a c : List UInt8) : List UInt8 :=
  List.zipWith (fun x z => gfMul 0x8e (z ^^^ gfMul 3 x)) a c

/-- The shards that are there have one length, which is not zero. -/
def sizesOk (shards : List (Option (List UInt8))) : Bool :=
  match shards.filterMap id with
  | [] => false
  | s :: ss => decide (0 < s.length ∧ ∀ t ∈ ss, t.length = s.length)

/-- The codec that `reedsolomon.New(2, 1)` returns. -/
def rs21 : Codec UInt8 where
  encode
    | [a, b] => if a.length = b.length ∧ 0 < a.length then some [parity21 a b] else none
    | _ => none
  reconstructData shards :=
    if sizesOk shards then
      match shards with
      | [some a, some b, c] => some [some a, some b, c]
      | [some a, none, some c] => some [some a, some (solveSecond a c), some c]
      | [none, some b, some c] => some [some (solveFirst b c), some b, some c]
      | _ => none
    else none

/-- `reedsolomon.New`, for two data shards and one parity shard only. -/
def newRs21 : Nat → Nat → Option (Codec UInt8)
  | 2, 1 => some rs21
  | _, _ => none

theorem shardLimit_rs21 : ShardLimit newRs21 := by
  intro d p codec h
  unfold newRs21 at h
  split at h
  · omega
  · cases h

theorem xor_xor_cancel (x y : UInt8) : (x ^^^ y) ^^^ x = y := by
  rw [UInt8.xor_comm, ← UInt8.xor_assoc, UInt8.xor_self, UInt8.zero_xor]

theorem solveSecond_parity : ∀ {a b : List UInt8}, a.length = b.length →
    solveSecond a (parity21 a b) = b
  | [], [], _ => rfl
  | x :: a, y :: b, h => by
    have ih := solveSecond_parity (a := a) (b := b) (by simpa using h)
    unfold solveSecond parity21 at ih ⊢
    rw [List.zipWith_cons_cons, List.zipWith_cons_cons, ih, xor_xor_cancel, gfMul_inv_two]

theorem solveFirst_parity : ∀ {a b : List UInt8}, a.length = b.length →
    solveFirst b (parity21 a b) = a
  | [], [], _ => rfl
  | x :: a, y :: b, h => by
    have ih := solveFirst_parity (a := a) (b := b) (by simpa using h)
    unfold solveFirst parity21 at ih ⊢
    rw [List.zipWith_cons_cons, List.zipWith_cons_cons, ih, UInt8.xor_comm (gfMul 3 x),
      xor_xor_cancel, gfMul_inv_three]

theorem sizesOk_of {n : Nat} (hn : 0 < n) {shards : List (Option (List UInt8))}
    (h : ∀ s, some s ∈ shards → s.length = n) (hex : ∃ s, some s ∈ shards) :
    sizesOk shards = true := by
  have hmem : ∀ s ∈ shards.filterMap id, s.length = n := fun s hs => by
    obtain ⟨o, ho, rfl⟩ := List.mem_filterMap.1 hs
    exact h s ho
  unfold sizesOk
  split
  · rename_i hnil
    obtain ⟨s, hs⟩ := hex
    rw [List.filterMap_eq_nil_iff] at hnil
    cases hnil _ hs
  · rename_i s ss hcons
    rw [hcons] at hmem
    have hs := hmem s (by simp)
    rw [decide_eq_true_eq, hs]
    exact ⟨hn, fun t ht => hmem t (by simp [ht])⟩

theorem rs21_encode {a b : List UInt8} {n : Nat} (hn : 0 < n) (ha : a.length = n)
    (hb : b.length = n) : rs21.encode [a, b] = some [parity21 a b] := by
  simp only [rs21]
  rw [if_pos ⟨by rw [ha, hb], by omega⟩]

/-- Two of the three shards of a codeword give its data shards back. -/
theorem rs21_reconstruct {a b : List UInt8} (hab : a.length = b.length)
    {o1 o2 o3 : Option (List UInt8)} (h1 : ∀ s, o1 = some s → a = s) (h2 : ∀ s, o2 = some s → b = s)
    (h3 : ∀ s, o3 = some s → parity21 a b = s) (hok : sizesOk [o1, o2, o3] = true)
    (hd : 2 ≤ present [o1, o2, o3]) :
    ∃ o, rs21.reconstructData [o1, o2, o3] = some [some a, some b, o] := by
  simp only [rs21, hok, if_true]
  cases o1 with
  | none =>
    cases o2 with
    | none => cases o3 <;> simp [present] at hd
    | some s2 =>
      cases o3 with
      | none => simp [present] at hd
      | some s3 =>
        refine ⟨some s3, ?_⟩
        rw [← h2 _ rfl, ← h3 _ rfl]
        dsimp only
        rw [solveFirst_parity hab]
  | some s1 =>
    cases o2 with
    | none =>
      cases o3 with
      | none => simp [present] at hd
      | some s3 =>
        refine ⟨some s3, ?_⟩
        rw [← h1 _ rfl, ← h3 _ rfl]
        dsimp only
        rw [solveSecond_parity hab]
    | some s2 => exact ⟨o3, by rw [h1 _ rfl, h2 _ rfl]⟩

/-- **The codec is lawful.** -/
theorem rs21_lawful : rs21.Lawful 2 1 where
  encode_ok := by
    intro data n hlen hn hsize
    obtain ⟨a, b, rfl⟩ := List.length_eq_two.1 hlen
    have ha := hsize a (by simp)
    have hb := hsize b (by simp)
    refine ⟨[parity21 a b], rfl, rfl, hsize, ?_, rs21_encode hn ha hb⟩
    intro s hs
    rw [List.mem_singleton.1 hs, parity21, List.length_zipWith, ha, hb, Nat.min_self]
  reconstruct_ok := by
    intro data parity n shards hn hcw hpart hd
    have hsize : ∀ s, some s ∈ shards → s.length = n := fun s hs => hpart.size hcw hs
    obtain ⟨hlen, hget⟩ := hpart
    rw [hcw.length] at hlen
    obtain ⟨a, b, rfl⟩ := List.length_eq_two.1 hcw.data_length
    obtain ⟨c, rfl⟩ := List.length_eq_one_iff.1 hcw.parity_length
    obtain ⟨o1, o2, o3, rfl⟩ := List.length_eq_three.1 hlen
    have ha := hcw.data_size a (by simp)
    have hb := hcw.data_size b (by simp)
    have hc : parity21 a b = c := by
      simpa using (rs21_encode hn ha hb).symm.trans hcw.encode
    have hok : sizesOk [o1, o2, o3] = true := sizesOk_of hn hsize (by
      obtain ⟨o, ho, hs⟩ := List.countP_pos_iff.1 (Nat.lt_of_lt_of_le Nat.two_pos hd)
      obtain ⟨s, rfl⟩ := Option.isSome_iff_exists.1 hs
      exact ⟨s, ho⟩)
    obtain ⟨o, ho⟩ := rs21_reconstruct (by rw [ha, hb])
      (fun s hs => by simpa using hget 0 s (by simp [hs]))
      (fun s hs => by simpa using hget 1 s (by simp [hs]))
      (fun s hs => hc.trans (by simpa using hget 2 s (by simp [hs]))) hok hd
    refine ⟨_, ho, fun k hk => ?_⟩
    rcases Nat.le_one_iff_eq_zero_or_eq_one.1 (Nat.le_of_lt_succ hk) with rfl | rfl <;> rfl
  reconstruct_few := by
    intro n shards hn hlen hsize hd
    obtain ⟨o1, o2, o3, rfl⟩ := List.length_eq_three.1 hlen
    simp only [rs21]
    split
    · cases o1 <;> cases o2 <;> cases o3 <;> simp [present] at hd ⊢
    · rfl

/-- The codec keeps the length of the shards, whatever they hold. -/
theorem rs21_sized : rs21.Sized := by
  intro shards out n hsize hout
  simp only [rs21] at hout
  split at hout
  · split at hout
    · cases hout
      exact hsize
    · rename_i a c _
      cases hout
      have ha := hsize a (by simp)
      have hc := hsize c (by simp)
      simp [solveSecond, ha, hc]
    · rename_i b c _
      cases hout
      have hb := hsize b (by simp)
      have hc := hsize c (by simp)
      simp [solveFirst, hb, hc]
    · cases hout
  · cases hout

theorem sizesOk_iff {n : Nat} (hn : 0 < n) {shards : List (Option (List UInt8))}
    (h : ∀ s, some s ∈ shards → s.length = n) :
    sizesOk shards = true ↔ ∃ s, some s ∈ shards := by
  refine ⟨fun hok => ?_, sizesOk_of hn h⟩
  unfold sizesOk at hok
  split at hok
  · cases hok
  · rename_i s ss hcons
    obtain ⟨o, ho, hs⟩ := List.mem_filterMap.1 (show s ∈ shards.filterMap id by
      rw [hcons]
      exact List.mem_cons_self)
    exact ⟨s, hs ▸ ho⟩

theorem sizesOk_take {n m : Nat} (hm : 0 < m) (hmn : m ≤ n) {shards : List (Option (List UInt8))}
    (h : ∀ s, some s ∈ shards → s.length = n) :
    sizesOk (shards.map (Option.map (List.take m))) = sizesOk shards := by
  have hcut : ∀ s, some s ∈ shards.map (Option.map (List.take m)) → s.length = m := by
    intro s hs
    obtain ⟨o, ho, he⟩ := List.mem_map.1 hs
    obtain ⟨t, rfl, rfl⟩ := Option.map_eq_some_iff.1 he
    rw [List.length_take, h t ho, Nat.min_eq_left hmn]
  rw [Bool.eq_iff_iff, sizesOk_iff hm hcut, sizesOk_iff (by omega) h]
  constructor
  · rintro ⟨s, hs⟩
    obtain ⟨o, ho, he⟩ := List.mem_map.1 hs
    obtain ⟨t, rfl, -⟩ := Option.map_eq_some_iff.1 he
    exact ⟨t, ho⟩
  · rintro ⟨s, hs⟩
    exact ⟨s.take m, List.mem_map.2 ⟨some s, hs, rfl⟩⟩

/-- The codec computes each byte of a shard from the bytes at the same place. -/
theorem rs21_columnwise : rs21.Columnwise where
  sized := rs21_sized
  take := by
    intro shards n m hm hmn hsize
    simp only [rs21, sizesOk_take hm hmn hsize]
    split
    · rcases shards with _ | ⟨o1, _ | ⟨o2, _ | ⟨o3, _ | ⟨o4, shards⟩⟩⟩⟩
      · rfl
      · cases o1 <;> rfl
      · cases o1 <;> cases o2 <;> rfl
      · cases o1 <;> cases o2 <;> cases o3 <;>
          simp [solveFirst, solveSecond, List.take_zipWith]
      · cases o1 <;> cases o2 <;> cases o3 <;> rfl
    · rfl

/-! ## One data shard -/

/-- The codec that `reedsolomon.New(1, p)` returns. -/
def rs1 (p : Nat) : Codec UInt8 where
  encode
    | [a] => if 0 < a.length then some (List.replicate p a) else none
    | _ => none
  reconstructData shards :=
    if sizesOk shards ∧ shards.length = 1 + p then
      match shards with
      | none :: rest => (rest.findSome? id).map fun c => some c :: rest
      | _ => some shards
    else none

theorem rs1_reconstruct {p : Nat} {a s : List UInt8} {shards : List (Option (List UInt8))}
    (hok : sizesOk shards = true ∧ shards.length = 1 + p) (hcopy : ∀ s, some s ∈ shards → s = a)
    (hs : some s ∈ shards) :
    ∃ out, (rs1 p).reconstructData shards = some out ∧ out[0]? = some (some a) := by
  simp only [rs1, if_pos hok]
  cases shards with
  | nil => cases hs
  | cons o rest =>
    cases o with
    | some s' => exact ⟨_, rfl, congrArg (some ∘ some) (hcopy s' List.mem_cons_self)⟩
    | none =>
      have hrest : some s ∈ rest := (List.mem_cons.1 hs).resolve_left nofun
      obtain ⟨c, hc⟩ : ∃ c, rest.findSome? id = some c :=
        Option.isSome_iff_exists.1 (List.findSome?_isSome_iff.2 ⟨_, hrest, rfl⟩)
      obtain ⟨o, ho, rfl⟩ := List.exists_of_findSome?_eq_some hc
      refine ⟨some c :: rest, by simp only [hc, Option.map_some], ?_⟩
      exact congrArg (some ∘ some) (hcopy c (List.mem_cons_of_mem _ ho))

/-- **The copying codec is lawful.** -/
theorem rs1_lawful (p : Nat) : (rs1 p).Lawful 1 p where
  encode_ok := by
    intro data n hlen hn hsize
    obtain ⟨a, rfl⟩ := List.length_eq_one_iff.1 hlen
    have ha := hsize a List.mem_cons_self
    refine ⟨List.replicate p a, rfl, List.length_replicate, hsize, fun s hs => ?_,
      if_pos (by omega)⟩
    rw [List.eq_of_mem_replicate hs, ha]
  reconstruct_ok := by
    intro data parity n shards hn hcw hpart hd
    have hsize : ∀ s, some s ∈ shards → s.length = n := fun s hs => hpart.size hcw hs
    obtain ⟨hlen, hget⟩ := hpart
    rw [hcw.length] at hlen
    obtain ⟨a, rfl⟩ := List.length_eq_one_iff.1 hcw.data_length
    have ha := hcw.data_size a List.mem_cons_self
    have henc : (rs1 p).encode [a] = some (List.replicate p a) := if_pos (by omega)
    obtain rfl : List.replicate p a = parity := Option.some.inj (henc.symm.trans hcw.encode)
    -- every shard that is there is the data shard
    have hcopy : ∀ s, some s ∈ shards → s = a := by
      intro s hs
      obtain ⟨k, hk⟩ := List.mem_iff_getElem?.1 hs
      rcases List.mem_append.1 (List.mem_of_getElem? (hget k s hk)) with hmem | hmem
      · exact List.mem_singleton.1 hmem
      · exact List.eq_of_mem_replicate hmem
    obtain ⟨o, hs, hsome⟩ := List.countP_pos_iff.1 (Nat.lt_of_lt_of_le Nat.one_pos hd)
    obtain ⟨s, rfl⟩ := Option.isSome_iff_exists.1 hsome
    obtain ⟨out, hrec, hzero⟩ := rs1_reconstruct ⟨sizesOk_of hn hsize ⟨s, hs⟩, hlen⟩ hcopy hs
    refine ⟨out, hrec, fun k hk => ?_⟩
    obtain rfl : k = 0 := by omega
    exact hzero
  reconstruct_few := by
    intro n shards hn hlen hsize hd
    have hnone : shards.filterMap id = [] := by
      refine List.filterMap_eq_nil_iff.2 fun o ho => ?_
      have hzero : shards.countP Option.isSome = 0 := Nat.lt_one_iff.1 hd
      exact Option.not_isSome_iff_eq_none.1 (List.countP_eq_zero.1 hzero o ho)
    have hbad : sizesOk shards = false := by
      unfold sizesOk
      rw [hnone]
    simp only [rs1, hbad]
    rfl

/-- `reedsolomon.New`, for up to three shards. -/
def newRs3 : Nat → Nat → Option (Codec UInt8)
  | 1, 1 => some (rs1 1)
  | 1, 2 => some (rs1 2)
  | 2, 1 => some rs21
  | _, _ => none

theorem shardLimit_rs3 : ShardLimit newRs3 := by
  intro d p codec h
  unfold newRs3 at h
  split at h
  · omega
  · omega
  · omega
  · cases h

end Faketcp
