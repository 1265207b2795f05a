import TcpRaw.Fec.Proof.Block

/-!
# Runs of `EncodeData` and `DecodeData`

`encodeCalls_stream`: what a run of `EncodeData` calls hands to the network is in the stream of its
payloads, whichever send calls fail.

`decodeData_pop` to `decodeData_parity` are the branches of `DecodeData`, `decodeData_induct` the
rule of a call that returns. `decodeCalls_rule` is the invariant rule for runs of calls: an
invariant of the `Fec`, the arrivals left and the payloads returned so far, kept by the steps of the
loop (take a payload from `dataCh`; skip an empty arrival; decode one while `dataCh` is empty),
holds after the run, which does not panic and stops early only when everything is consumed.
-/

namespace Faketcp

open GoRt Erasure

/-! ## Encoding -/

section
variable {codec : Codec UInt8} {d p : Nat}

theorem mem_send {x y : Bytes} {w : Wire} (h : y ∈ (Wire.send x w).2.sent) :
    y ∈ w.sent ∨ y = x := by
  unfold Wire.send at h
  split at h
  · exact .inl h
  · exact (List.mem_append.1 h).imp_right List.mem_singleton.1

theorem mem_sendParity {y : Bytes} : ∀ (xs : List Bytes) (tx : UInt64) (w : Wire),
    y ∈ (sendParity Wire.send xs tx w).2.2.sent → y ∈ w.sent ∨ y ∈ xs
  | [], _, _, h => .inl h
  | x :: xs, tx, w, h => by
    unfold sendParity at h
    split at h
    · rename_i err w' hw
      rcases mem_send (x := x) (w := w) (by rw [hw]; exact h) with h | h
      · exact .inl h
      · exact .inr (by simp [h])
    · rename_i w' hw
      rcases mem_sendParity xs _ w' h with h | h
      · rcases mem_send (x := x) (w := w) (by rw [hw]; exact h) with h | h
        · exact .inl h
        · exact .inr (by simp [h])
      · exact .inr (by simp [h])

/-- One call of `EncodeData`: the packets it sends are the next ones of the stream. -/
theorem encodeData_stream (hlaw : codec.Lawful d p) (h0 : 0 < d) (hp : 0 < p) (hd : d + p ≤ 256)
    {fec : Fec} {ps : List Bytes} (h : StreamAt codec d p fec.encoder ps) {b : Bytes}
    (hb : b.length ≤ maxPayload) (w : Wire) :
    ∃ err fec' w', fec.encodeData Wire.send b w = .ok (err, fec', w') ∧
      StreamAt codec d p fec'.encoder (ps ++ [b]) ∧
      ∀ x ∈ w'.sent, x ∈ w.sent ∨ ∃ k < streamLength d p (ps.length + 1),
        streamPacket codec d p (ps ++ [b]) k = some x := by
  obtain ⟨s, pss, enc', he, hat, hlen, hpkt⟩ := encode_stream hlaw.encodes h0 hp hd h hb
  have hstream : ∀ x ∈ s.data :: pss.map Slice.data, ∃ k < streamLength d p (ps.length + 1),
      streamPacket codec d p (ps ++ [b]) k = some x := by
    intro x hx
    obtain ⟨i, hi⟩ := List.mem_iff_getElem?.1 hx
    have := (List.getElem?_eq_some_iff.1 hi).1
    exact ⟨streamLength d p ps.length + i, by omega, hpkt i x hi⟩
  unfold Fec.encodeData
  dsimp only
  rw [he, ok_bind]
  dsimp only
  split
  · rename_i err w' hw
    refine ⟨_, _, _, rfl, hat, fun x hx => ?_⟩
    rcases mem_send (x := s.data) (w := w) (by rw [hw]; exact hx) with hx | rfl
    · exact .inl hx
    · exact .inr (hstream _ (by simp))
  · rename_i w' hw
    refine ⟨_, _, _, rfl, hat, fun x hx => ?_⟩
    rcases mem_sendParity _ _ _ hx with hx | hx
    · rcases mem_send (x := s.data) (w := w) (by rw [hw]; exact hx) with hx | rfl
      · exact .inl hx
      · exact .inr (hstream _ (by simp))
    · exact .inr (hstream x (List.mem_cons_of_mem _ hx))

theorem streamLength_mono (d p : Nat) {m m' : Nat} (h : m ≤ m') :
    streamLength d p m ≤ streamLength d p m' := by
  unfold streamLength
  exact Nat.add_le_add h (Nat.mul_le_mul_right p (Nat.div_le_div_right h))

/-- **A run of `EncodeData` calls** sends packets of the stream only. -/
theorem encodeCalls_stream (hlaw : codec.Lawful d p) (h0 : 0 < d) (hp : 0 < p)
    (hd : d + p ≤ 256) : ∀ (bs : List Bytes) {fec : Fec} {ps : List Bytes} (w : Wire),
    StreamAt codec d p fec.encoder ps → (∀ b ∈ bs, b.length ≤ maxPayload) →
    ∃ fec' w', fec.encodeCalls Wire.send bs w = .ok (fec', w') ∧
      StreamAt codec d p fec'.encoder (ps ++ bs) ∧
      ∀ x ∈ w'.sent, x ∈ w.sent ∨ ∃ k < streamLength d p (ps ++ bs).length,
        streamPacket codec d p (ps ++ bs) k = some x := by
  intro bs
  induction bs with
  | nil =>
    intro fec ps w h _
    exact ⟨fec, w, rfl, by rwa [List.append_nil], fun x hx => .inl hx⟩
  | cons b bs ih =>
    intro fec ps w h hbs
    obtain ⟨err, fec1, w1, h1, hat1, hsent1⟩ :=
      encodeData_stream hlaw h0 hp hd h (hbs b (by simp)) w
    obtain ⟨fec2, w2, h2, hat2, hsent2⟩ := ih w1 hat1 fun b' hb' => hbs b' (by simp [hb'])
    rw [List.append_assoc, List.singleton_append] at hat2 hsent2
    refine ⟨fec2, w2, ?_, hat2, fun x hx => ?_⟩
    · rw [Fec.encodeCalls, h1, ok_bind]
      exact h2
    · rcases hsent2 x hx with hx | hx
      · rcases hsent1 x hx with hx | ⟨k, hk, hx⟩
        · exact .inl hx
        · refine .inr ⟨k, Nat.lt_of_lt_of_le hk (streamLength_mono d p (by simp)), ?_⟩
          have := streamPacket_mono bs hx
          rwa [List.append_assoc, List.singleton_append] at this
      · exact .inr hx

end

/-! ## One call -/

section
variable {fec fec' : Fec} {a : Arrival}

/-- `fec` after the first payload in `dataCh` was read. -/
def Fec.pop (fec : Fec) (data : Bytes) (dataCh : List Bytes) : Fec :=
  { fec with dataCh, rxBytes := fec.rxBytes + UInt64.ofNat data.length }

theorem decodeData_pop {data : Bytes} {dataCh : List Bytes} (h : fec.dataCh = data :: dataCh)
    (arrivals : List Arrival) :
    fec.decodeData arrivals = .ok (some data, fec.pop data dataCh, arrivals) := by
  unfold Fec.decodeData
  cases arrivals <;> rw [h] <;> rfl

theorem decodeData_nil (h : fec.dataCh = []) : fec.decodeData [] = .ok (none, fec, []) := by
  unfold Fec.decodeData
  rw [h]
  rfl

theorem decodeData_skip (h : fec.dataCh = []) (hlen : a.data.length = 0)
    (arrivals : List Arrival) : fec.decodeData (a :: arrivals) = fec.decodeData arrivals := by
  rw [Fec.decodeData.eq_def]
  simp only [h, if_pos hlen]

theorem decodeData_error {e : Panic} (h : fec.dataCh = []) (hlen : a.data.length ≠ 0)
    (hd : fec.decode a = .error e) (arrivals : List Arrival) :
    fec.decodeData (a :: arrivals) = .error e := by
  rw [Fec.decodeData.eq_def]
  simp only [h, if_neg hlen, hd, error_bind]

theorem decodeData_data {data : Bytes} (h : fec.dataCh = []) (hlen : a.data.length ≠ 0)
    (hd : fec.decode a = .ok (some data, fec')) (arrivals : List Arrival) :
    fec.decodeData (a :: arrivals) = .ok (some data, fec', arrivals) := by
  rw [Fec.decodeData.eq_def]
  simp only [h, if_neg hlen, hd, ok_bind, pure_eq_ok]

theorem decodeData_parity (h : fec.dataCh = []) (hlen : a.data.length ≠ 0)
    (hd : fec.decode a = .ok (none, fec')) (arrivals : List Arrival) :
    fec.decodeData (a :: arrivals) = fec'.decodeData arrivals := by
  rw [Fec.decodeData.eq_def]
  simp only [h, if_neg hlen, hd, ok_bind]

end

/-- **The rule of one call** that returns: what holds where it finds a payload in `dataCh` or no
arrival is carried back over the arrivals that it consumed. -/
theorem decodeData_induct {P : Fec → List Arrival → Option Bytes → Fec → List Arrival → Prop}
    (pop : ∀ fec b dataCh xs, fec.dataCh = b :: dataCh → P fec xs (some b) (fec.pop b dataCh) xs)
    (none : ∀ fec, fec.dataCh = [] → P fec [] none fec [])
    (skip : ∀ fec a xs data fec' rest, fec.dataCh = [] → a.data.length = 0 →
      P fec xs data fec' rest → P fec (a :: xs) data fec' rest)
    (some : ∀ fec a xs b fec', fec.dataCh = [] → a.data.length ≠ 0 →
      fec.decode a = .ok (some b, fec') → P fec (a :: xs) (some b) fec' xs)
    (parity : ∀ fec a xs fec1 data fec' rest, fec.dataCh = [] → a.data.length ≠ 0 →
      fec.decode a = .ok (.none, fec1) → P fec1 xs data fec' rest →
      P fec (a :: xs) data fec' rest) :
    ∀ (xs : List Arrival) {fec fec' : Fec} {data : Option Bytes} {rest : List Arrival},
      fec.decodeData xs = .ok (data, fec', rest) → P fec xs data fec' rest := by
  intro xs
  induction xs with
  | nil =>
    intro fec fec' data rest h
    cases hch : fec.dataCh with
    | cons b dataCh =>
      rw [decodeData_pop hch] at h
      cases h
      exact pop _ _ _ _ hch
    | nil =>
      rw [decodeData_nil hch] at h
      cases h
      exact none _ hch
  | cons a xs ih =>
    intro fec fec' data rest h
    cases hch : fec.dataCh with
    | cons b dataCh =>
      rw [decodeData_pop hch] at h
      cases h
      exact pop _ _ _ _ hch
    | nil =>
      by_cases hlen : a.data.length = 0
      · rw [decodeData_skip hch hlen] at h
        exact skip _ _ _ _ _ _ hch hlen (ih h)
      cases hd : fec.decode a with
      | error e =>
        rw [decodeData_error hch hlen hd] at h
        cases h
      | ok r =>
        obtain ⟨data', fec1⟩ := r
        cases data' with
        | some b =>
          rw [decodeData_data hch hlen hd] at h
          cases h
          exact some _ _ _ _ _ hch hlen hd
        | none =>
          rw [decodeData_parity hch hlen hd] at h
          exact parity _ _ _ _ _ _ _ hch hlen hd (ih h)

/-! ## Runs of calls -/

section
variable {I : Fec → List Arrival → List Bytes → Prop}
  (pop : ∀ fec arrivals out data dataCh, I fec arrivals out → fec.dataCh = data :: dataCh →
    I { fec with dataCh, rxBytes := fec.rxBytes + UInt64.ofNat data.length } arrivals
      (out ++ [data]))
  (skip : ∀ fec a arrivals out, I fec (a :: arrivals) out → a.data.length = 0 →
    I fec arrivals out)
  (step : ∀ fec a arrivals out, I fec (a :: arrivals) out → fec.dataCh = [] →
    a.data.length ≠ 0 → ∃ data fec', fec.decode a = .ok (data, fec') ∧
      I fec' arrivals (out ++ data.toList))
include pop skip step

theorem decodeData_rule : ∀ (arrivals : List Arrival) (fec : Fec) (out : List Bytes),
    I fec arrivals out → ∃ data fec' rest, fec.decodeData arrivals = .ok (data, fec', rest) ∧
      I fec' rest (out ++ data.toList) ∧ (data = none → rest = [] ∧ fec'.dataCh = []) := by
  intro arrivals
  induction arrivals with
  | nil =>
    intro fec out h
    cases hch : fec.dataCh with
    | nil => exact ⟨none, fec, [], decodeData_nil hch, by simpa using h, fun _ => ⟨rfl, hch⟩⟩
    | cons data dataCh =>
      exact ⟨some data, _, [], decodeData_pop hch [], pop fec [] out data dataCh h hch, nofun⟩
  | cons a arrivals ih =>
    intro fec out h
    cases hch : fec.dataCh with
    | cons data dataCh =>
      exact ⟨some data, _, _, decodeData_pop hch _, pop fec _ out data dataCh h hch, nofun⟩
    | nil =>
      by_cases hlen : a.data.length = 0
      · rw [decodeData_skip hch hlen]
        exact ih fec out (skip fec a arrivals out h hlen)
      · obtain ⟨data, fec', hd, hI⟩ := step fec a arrivals out h hch hlen
        cases data with
        | some data => exact ⟨some data, fec', arrivals, decodeData_data hch hlen hd _, hI, nofun⟩
        | none =>
          rw [Option.toList_none, List.append_nil] at hI
          rw [decodeData_parity hch hlen hd]
          exact ih fec' out hI

/-- **The invariant rule for runs of `DecodeData`.** -/
theorem decodeCalls_rule : ∀ (n : Nat) (fec : Fec) (arrivals : List Arrival) (out : List Bytes),
    I fec arrivals out →
    ∃ outs fec' rest, Fec.decodeCalls n fec arrivals = .ok (outs, fec', rest) ∧
      I fec' rest (out ++ outs) ∧ (outs.length = n ∨ rest = [] ∧ fec'.dataCh = []) := by
  intro n
  induction n with
  | zero =>
    intro fec arrivals out h
    exact ⟨[], fec, arrivals, rfl, by simpa using h, .inl rfl⟩
  | succ n ih =>
    intro fec arrivals out h
    obtain ⟨data, fec1, rest1, h1, hI1, hnone⟩ := decodeData_rule pop skip step arrivals fec out h
    unfold Fec.decodeCalls
    rw [h1, ok_bind]
    cases data with
    | none => exact ⟨[], fec1, rest1, rfl, hI1, .inr (hnone rfl)⟩
    | some data =>
      obtain ⟨outs, fec2, rest2, h2, hI2, hend⟩ := ih fec1 rest1 _ hI1
      dsimp only
      rw [h2]
      refine ⟨data :: outs, fec2, rest2, rfl, by simpa using hI2, ?_⟩
      exact hend.imp_left fun h => congrArg (· + 1) h

end

end Faketcp
