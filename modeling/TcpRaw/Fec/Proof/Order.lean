import TcpRaw.Lib.Keyed
import TcpRaw.Fec.Proof.Decode

/-!
# The receive queue in order

The cyclic comparison of sequence ids orders a stretch of a stream only. There a packet has a
position (`key`): the comparison is that of the positions (`Compared`), and the blocks are runs of
`n` positions (`Placed`). Packets with positions are inserted in strict order (`ordered_insertAt`),
so the packets of a block are contiguous, and the search range of an inserted packet holds all
packets of its block (`search_index`): those before it in the block are at most as many as its place
in the block, those after it at most as many as are left. So a call gathers and frees all packets of
the block (`gathered`).
-/

namespace Faketcp

open GoRt Erasure Keyed

/-- On the packets that `S` holds of, ids are compared as the positions are. -/
structure Compared (key : FecPacket → Nat) (S : FecPacket → Prop) : Prop where
  lt_iff : ∀ {q r : FecPacket}, S q → S r → (0 < itimediff q.seqid r.seqid ↔ key r < key q)
  eq_of_key : ∀ {q r : FecPacket}, S q → S r → key q = key r → q.seqid = r.seqid

/-- The blocks of `n` ids are those of `n` positions. -/
structure Placed (n : Nat) (key : FecPacket → Nat) (S : FecPacket → Prop) : Prop
    extends Compared key S where
  mod : ∀ {q : FecPacket}, S q → (q.seqid % UInt32.ofNat n).toNat = key q % n
  inBlock : ∀ {q r : FecPacket}, S q → S r →
    (InBlock (UInt32.ofNat n) q.seqid r.seqid ↔ key r / n = key q / n)

theorem Placed.mono {n : Nat} {key : FecPacket → Nat} {S T : FecPacket → Prop} (h : Placed n key S)
    (hT : ∀ q, T q → S q) : Placed n key T where
  lt_iff := fun hq hr => h.lt_iff (hT _ hq) (hT _ hr)
  eq_of_key := fun hq hr => h.eq_of_key (hT _ hq) (hT _ hr)
  mod := fun hq => h.mod (hT _ hq)
  inBlock := fun hq hr => h.inBlock (hT _ hq) (hT _ hr)

/-! ## Insertion -/

section
variable {key : FecPacket → Nat} {S : FecPacket → Prop} {rx : List FecPacket} {i : Nat}
  {pkt : FecPacket}

theorem Compared.scan_ordered (hc : Compared key S) (ho : Ordered key rx) (hS : ∀ q ∈ rx, S q)
    (hp : S pkt) (hsc : ScanAt rx pkt.seqid i) :
    (∀ q ∈ rx.take i, key q < key pkt) ∧ ∀ q ∈ rx.drop i, key pkt < key q := by
  constructor
  · intro q hq
    obtain ⟨m, hm⟩ := List.mem_iff_getElem?.1 hq
    rw [List.getElem?_take] at hm
    split at hm
    · rename_i hmi
      have hlast : i - 1 < rx.length := by
        have := hsc.le
        omega
      have hl := List.getElem?_eq_getElem hlast
      have hb := (hsc.before (i - 1) _ (by omega) hl).2
      rw [hc.lt_iff hp (hS _ (List.getElem_mem hlast))] at hb
      have := ho.add_le (show m ≤ i - 1 by omega) hm hl
      omega
    · cases hm
  · intro q hq
    obtain ⟨m, hm⟩ := List.mem_iff_getElem?.1 hq
    rw [List.getElem?_drop] at hm
    obtain ⟨hne, hnlt⟩ := hsc.after (i + m) q (Nat.le_add_right _ _) hm
    have hq := hS q (List.mem_of_getElem? hm)
    rw [hc.lt_iff hp hq] at hnlt
    have : key pkt ≠ key q := fun h => hne (hc.eq_of_key hp hq h)
    omega

theorem Compared.scan_new (hc : Compared key S) (ho : Ordered key rx) (hS : ∀ q ∈ rx, S q)
    (hp : S pkt) (hsc : ScanAt rx pkt.seqid i) : ∀ q ∈ rx, key q ≠ key pkt := by
  intro q hq
  obtain ⟨hbefore, hafter⟩ := hc.scan_ordered ho hS hp hsc
  rw [← List.take_append_drop i rx] at hq
  rcases List.mem_append.1 hq with hq | hq
  · exact Nat.ne_of_lt (hbefore q hq)
  · exact Nat.ne_of_gt (hafter q hq)

/-- **The insertion keeps the order.** -/
theorem Compared.ordered_insertAt (hc : Compared key S) (ho : Ordered key rx) (hS : ∀ q ∈ rx, S q)
    (hp : S pkt) (hsc : ScanAt rx pkt.seqid i) : Ordered key (insertAt rx i pkt) := by
  obtain ⟨hbefore, hafter⟩ := hc.scan_ordered ho hS hp hsc
  refine List.pairwise_append.2 ⟨ho.sublist (List.take_sublist _ _),
    List.pairwise_cons.2 ⟨hafter, ho.sublist (List.drop_sublist _ _)⟩, fun a ha b hb => ?_⟩
  rcases List.mem_cons.1 hb with rfl | hb
  · exact hbefore a ha
  · exact Nat.lt_trans (hbefore a ha) (hafter b hb)

theorem getElem?_insertAt (hi : i ≤ rx.length) : (insertAt rx i pkt)[i]? = some pkt := by
  rw [insertAt, List.getElem?_append_right (by simp), List.length_take, Nat.min_eq_left hi,
    Nat.sub_self, List.getElem?_cons_zero]

end

/-! ## The search range -/

theorem div_eq_iff_bounds {n b k : Nat} (h0 : 0 < n) :
    k / n = b ↔ n * b ≤ k ∧ k < n * b + n := by
  rw [Nat.div_eq_iff h0, Nat.mul_comm b n]
  omega

theorem lt_div_iff_bounds {n b k : Nat} (h0 : 0 < n) : b < k / n ↔ n * b + n ≤ k := by
  rw [← Nat.succ_le_iff, Nat.le_div_iff_mul_le h0, Nat.succ_mul, Nat.mul_comm b n]

/-- The assembly loop on a window of earlier packets, packets of the block and later packets. -/
theorem blockRun_split {n s : UInt32} {L M R : List FecPacket}
    (hL : ∀ q ∈ L, ¬ PastBlock n s q.seqid ∧ ¬ InBlock n s q.seqid)
    (hM : ∀ q ∈ M, InBlock n s q.seqid) (hR : ∀ q ∈ R, PastBlock n s q.seqid) :
    blockRun n s (L ++ (M ++ R)) = M ∧
      (M ≠ [] → skipped n s (L ++ (M ++ R)) = L.length) := by
  induction L with
  | nil =>
    induction M with
    | nil =>
      cases R with
      | nil => exact ⟨rfl, fun h => absurd rfl h⟩
      | cons q R => exact ⟨blockRun_cons_past R (hR q (by simp)), fun h => absurd rfl h⟩
    | cons q M ih =>
      have hq := hM q (by simp)
      have := (ih fun q' hq' => hM q' (by simp [hq'])).1
      rw [List.nil_append] at this
      refine ⟨?_, fun _ => skipped_cons_mem (M ++ R) hq⟩
      rw [List.nil_append, List.cons_append, blockRun_cons_mem _ hq, this]
  | cons q L ih =>
    obtain ⟨hp, hb⟩ := hL q (by simp)
    obtain ⟨hrun, hskip⟩ := ih fun q' hq' => hL q' (by simp [hq'])
    rw [List.cons_append, blockRun_cons_before _ hp hb, skipped_cons_of_not _ hb]
    exact ⟨hrun, fun h => congrArg (· + 1) (hskip h)⟩

section
variable {n : Nat} {key : FecPacket → Nat} {S : FecPacket → Prop} {l : List FecPacket} {i : Nat}
  {pkt : FecPacket}

/-- **The search range holds the block of an inserted packet.** -/
theorem Placed.search_index (hpl : Placed n key S) (h0 : 0 < n) (ho : Ordered key l)
    (hi : l[i]? = some pkt) (hp : S pkt) {j : Nat} {q : FecPacket} (hj : l[j]? = some q)
    (hb : key q / n = key pkt / n) :
    searchBegin (UInt32.ofNat n) pkt.seqid i ≤ j ∧
      j ≤ searchEnd n (searchBegin (UInt32.ofNat n) pkt.seqid i) l.length := by
  have hmod := Nat.div_add_mod (key pkt) n
  have hlt := Nat.mod_lt (key pkt) h0
  rw [div_eq_iff_bounds h0] at hb
  have hjl := (List.getElem?_eq_some_iff.1 hj).1
  have hle : i - key pkt % n ≤ j ∧ j ≤ i - key pkt % n + n - 1 := by
    rcases Nat.le_total i j with hij | hji
    · have := ho.add_le hij hi hj
      omega
    · have := ho.add_le hji hj hi
      omega
  unfold searchBegin searchEnd
  rw [hpl.mod hp]
  refine ⟨hle.1, ?_⟩
  split <;> omega

theorem cut_split (L M R : List FecPacket) : cut L.length M.length (L ++ (M ++ R)) = L ++ R := by
  rw [cut, List.take_left, ← List.drop_drop, List.drop_left, List.drop_left]

theorem drop_take_split {L M R : List FecPacket} {sb w : Nat} (hsb : sb ≤ L.length)
    (hw : L.length + M.length ≤ sb + w) : ((L ++ (M ++ R)).drop sb).take w =
      L.drop sb ++ (M ++ R.take (w - (L.length - sb) - M.length)) := by
  rw [List.drop_append_of_le_length hsb, List.take_append, List.length_drop,
    List.take_of_length_le (by rw [List.length_drop]; omega), List.take_append,
    List.take_of_length_le (by omega)]

/-- The window of an inserted packet around the packets `M` of its block. -/
theorem Placed.window_split (hpl : Placed n key S) (h0 : 0 < n) {dec : FecDecoder}
    (hsize : dec.shardSize = n) {L M R : List FecPacket} (ho : Ordered key (L ++ (M ++ R)))
    (hi : (L ++ (M ++ R))[i]? = some pkt) (hp : S pkt) (hM : ∀ q ∈ M, key q / n = key pkt / n)
    (hne : M ≠ []) :
    searchBegin (UInt32.ofNat n) pkt.seqid i ≤ L.length ∧
      ∃ w, dec.window pkt.seqid i (L ++ (M ++ R)) =
        L.drop (searchBegin (UInt32.ofNat n) pkt.seqid i) ++ (M ++ R.take w) := by
  -- the first and the last packet of the block are in the search range
  have hrange : ∀ m < M.length, searchBegin (UInt32.ofNat n) pkt.seqid i ≤ L.length + m ∧
      L.length + m ≤
        searchEnd n (searchBegin (UInt32.ofNat n) pkt.seqid i) (L ++ (M ++ R)).length :=
      fun m hm => by
    refine hpl.search_index h0 ho hi hp ?_ (hM M[m] (List.getElem_mem hm))
    rw [List.getElem?_append_right (Nat.le_add_right _ _), Nat.add_sub_cancel_left,
      List.getElem?_append_left hm, List.getElem?_eq_getElem hm]
  have hpos := List.length_pos_iff.2 hne
  have hfirst : searchBegin (UInt32.ofNat n) pkt.seqid i ≤ L.length := (hrange 0 hpos).1
  have hlast := (hrange (M.length - 1) (by omega)).2
  rw [FecDecoder.window, hsize]
  exact ⟨hfirst, _, drop_take_split hfirst (by omega)⟩

/-- **A call gathers the block of the inserted packet**, and what it frees is the block. -/
theorem Placed.gathered (hpl : Placed n key S) (h0 : 0 < n) {dec : FecDecoder}
    (hsize : dec.shardSize = n) (ho : Ordered key l) (hS : ∀ q ∈ l, S q) (hi : l[i]? = some pkt)
    (hpast : ∀ q ∈ l, PastBlock (UInt32.ofNat n) pkt.seqid q.seqid ↔ key pkt / n < key q / n)
    {ts : List FecPacket} {a : Assembly} (hG : Gathered dec pkt.seqid i l ts a) :
    ts = l.filter (fun q => key q / n = key pkt / n) ∧
      cut a.first ts.length l = l.filter fun q => key q / n ≠ key pkt / n := by
  have hmem := List.mem_of_getElem? hi
  have hp := hS pkt hmem
  obtain ⟨L, M, R, rfl, hL, hM, hR⟩ := ho.split_div h0 (key pkt / n)
  -- the inserted packet itself is of the block
  have hne : M ≠ [] := by
    rintro rfl
    rcases List.mem_append.1 hmem with h | h
    · exact absurd (hL pkt h) (Nat.lt_irrefl _)
    · exact absurd (hR pkt h) (Nat.lt_irrefl _)
  obtain ⟨hfirst, w, hwin⟩ := hpl.window_split h0 hsize ho hi hp hM hne
  obtain ⟨hrun, hskip⟩ := blockRun_split
    (L := L.drop (searchBegin (UInt32.ofNat n) pkt.seqid i)) (M := M) (R := R.take w)
    (fun q hq => by
      have hq := List.mem_of_mem_drop hq
      have := hL q hq
      rw [hpast q (by simp [hq]), hpl.inBlock hp (hS q (by simp [hq]))]
      omega)
    (fun q hq => (hpl.inBlock hp (hS q (by simp [hq]))).2 (hM q hq))
    (fun q hq => by
      have hq := List.mem_of_mem_take hq
      exact (hpast q (by simp [hq])).2 (hR q hq))
  have hts := hG.ts_eq
  rw [hwin, hsize, hrun] at hts
  subst hts
  have hat := hG.first hne
  rw [hwin, hsize, hskip hne, List.length_drop, Nat.add_sub_cancel' hfirst] at hat
  obtain ⟨hfilter, hrest⟩ := filter_split (p := fun q => decide (key q / n = key pkt / n))
    (fun q hq => decide_eq_false (Nat.ne_of_lt (hL q hq))) (fun q hq => decide_eq_true (hM q hq))
    (fun q hq => decide_eq_false (Nat.ne_of_gt (hR q hq)))
  refine ⟨hfilter.symm, ?_⟩
  rw [hat, cut_split, ← hrest]
  simp only [ne_eq, decide_not]

end

/-! ## The queue between calls -/

/-- The queue between calls: in order, and fewer than `d` packets of each block. -/
structure InOrder (n d : Nat) (key : FecPacket → Nat) (S : FecPacket → Prop) (rx : List FecPacket) :
    Prop where
  ordered : Ordered key rx
  placed : ∀ q ∈ rx, S q
  few : ∀ b, rx.countP (fun q => key q / n = b) < d

section
variable {n d : Nat} {key : FecPacket → Nat} {S : FecPacket → Prop} {rx : List FecPacket} {i : Nat}
  {pkt : FecPacket}

theorem InOrder.sublist (h : InOrder n d key S rx) {rx' : List FecPacket} (hs : rx'.Sublist rx) :
    InOrder n d key S rx' :=
  ⟨h.ordered.sublist hs, fun q hq => h.placed q (hs.mem hq),
    fun b => Nat.lt_of_le_of_lt hs.countP_le (h.few b)⟩

theorem countP_insertAt_of_ne {b : Nat} (hb : key pkt / n ≠ b) :
    (insertAt rx i pkt).countP (fun q => key q / n = b) = rx.countP (fun q => key q / n = b) := by
  rw [insertAt, List.countP_append, List.countP_cons, if_neg (by simpa using hb), Nat.add_zero,
    ← List.countP_append, List.take_append_drop]

theorem InOrder.placed_insertAt (h : InOrder n d key S rx) (hp : S pkt) :
    ∀ q ∈ insertAt rx i pkt, S q := by
  intro q hq
  rcases mem_insertAt.1 hq with rfl | hq
  · exact hp
  · exact h.placed q hq

theorem InOrder.insert (hc : Compared key S) (h : InOrder n d key S rx) (hp : S pkt)
    (hsc : ScanAt rx pkt.seqid i)
    (hfew : (insertAt rx i pkt).countP (fun q => key q / n = key pkt / n) < d) :
    InOrder n d key S (insertAt rx i pkt) := by
  refine ⟨hc.ordered_insertAt h.ordered h.placed hp hsc, h.placed_insertAt hp, fun b => ?_⟩
  by_cases hb : key pkt / n = b
  · exact hb ▸ hfew
  · rw [countP_insertAt_of_ne hb]
    exact h.few b

theorem InOrder.filter (hc : Compared key S) (h : InOrder n d key S rx) (hd : 0 < d) (hp : S pkt)
    (hsc : ScanAt rx pkt.seqid i) :
    InOrder n d key S ((insertAt rx i pkt).filter fun q => key q / n ≠ key pkt / n) := by
  have hsub : ((insertAt rx i pkt).filter fun q => key q / n ≠ key pkt / n).Sublist _ :=
    List.filter_sublist
  refine ⟨(hc.ordered_insertAt h.ordered h.placed hp hsc).sublist hsub,
    fun q hq => h.placed_insertAt hp q (hsub.mem hq), fun b => ?_⟩
  by_cases hb : key pkt / n = b
  · rw [List.countP_eq_zero.2 fun q hq => by
      have := (List.mem_filter.1 hq).2
      simpa [hb] using this]
    exact hd
  · have := h.few b
    rw [← countP_insertAt_of_ne (i := i) hb] at this
    exact Nat.lt_of_le_of_lt hsub.countP_le this

/-- **The queue after an insertion.** -/
theorem Placed.step (hpl : Placed n key S) (h0 : 0 < n) (hd : 0 < d) {dec : FecDecoder}
    (hsize : dec.shardSize = n) (hdata : dec.dataShards = d) (h : InOrder n d key S dec.rx)
    (hp : S pkt)
    (hpast : ∀ q, S q → (PastBlock (UInt32.ofNat n) pkt.seqid q.seqid ↔ key pkt / n < key q / n))
    (hsc : ScanAt dec.rx pkt.seqid i) {ts : List FecPacket} {a : Assembly}
    (hG : Gathered dec pkt.seqid i (insertAt dec.rx i pkt) ts a) :
    InOrder n d key S (dec.outcome a (insertAt dec.rx i pkt)).2 ∧
      (dec.outcome a (insertAt dec.rx i pkt)).2 = if d ≤ ts.length
        then (insertAt dec.rx i pkt).filter fun q => key q / n ≠ key pkt / n
        else insertAt dec.rx i pkt := by
  have hS := h.placed_insertAt hp (i := i)
  obtain ⟨hts, hcut⟩ := hpl.gathered h0 hsize (hpl.ordered_insertAt h.ordered h.placed hp hsc) hS
    (getElem?_insertAt hsc.le) (fun q hq => hpast q (hS q hq)) hG
  rw [outcome_snd hG, hdata, hcut]
  refine ⟨?_, rfl⟩
  by_cases hfull : d ≤ ts.length
  · rw [if_pos hfull]
    exact InOrder.filter hpl.toCompared h hd hp hsc
  · rw [if_neg hfull]
    refine InOrder.insert hpl.toCompared h hp hsc ?_
    rw [List.countP_eq_length_filter, ← hts]
    omega

end

end Faketcp
