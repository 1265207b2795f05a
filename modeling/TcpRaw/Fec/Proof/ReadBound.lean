import TcpRaw.Fec.Client
import TcpRaw.Fec.Proof.Drain
import TcpRaw.Fec.Proof.Hostile

/-!
# The length that `Client.Read` reports

The packet that a call decodes was cut to the call's buffer, so its payload fits. A payload from
`dataCh` was put together from shards that earlier calls read, into buffers of their own. `Fits W`
says that no shard in the queue and no payload in `dataCh` is longer than a buffer of `W` bytes
allows; decoding packets that were cut to such a buffer keeps it (`fits_decode`), whatever they are
and even if a cut-off part makes the codec restore garbage, since the codec does not lengthen
shards. So `Read` keeps to its buffer when no earlier call has read more of a message than this
one's buffer holds (`read_bounded`), and else may report more bytes than its buffer has
(`read_overruns`).
-/

namespace Faketcp

open GoRt Erasure Trans

section
variable {codec : Codec UInt8} {d p W : Nat}

/-- No shard and no waiting payload is longer than a buffer of `W` bytes allows. -/
structure Fits (codec : Codec UInt8) (d p W : Nat) (fec : Fec) : Prop where
  dec : DecAt codec d p fec.decoder
  queue : ∀ q ∈ fec.decoder.rx, q.data.len ≤ W + 2
  ready : ∀ x ∈ fec.dataCh, x.length ≤ W

/-! ## One packet -/

theorem length_recovered (hsize : codec.Sized) {dec : FecDecoder} (hdec : DecAt codec d p dec)
    {seqid : UInt32} {i : Nat} {rx ts : List FecPacket} {asm : Assembly}
    (hG : Gathered dec seqid i rx ts asm) (hrx : ∀ q ∈ rx, q.data.len ≤ W + 2) :
    ∀ x ∈ (dec.outcome asm rx).1, x.length ≤ W + 2 := by
  have hmax : asm.maxlen ≤ W + 2 := by
    rcases hG.asm.maxlen with h | ⟨q, hq, h⟩
    · omega
    · rw [← h]
      exact hrx q (hG.mem hq).1
  have hpadded : ∀ s, some s ∈ asm.padded → s.length = asm.maxlen := by
    intro s hs
    obtain ⟨o, ho, he⟩ := List.mem_map.1 hs
    obtain ⟨t, rfl, rfl⟩ := Option.map_eq_some_iff.1 he
    obtain ⟨k, hk⟩ := List.mem_iff_getElem?.1 ho
    obtain ⟨q, hq, -, rfl⟩ := hG.asm.of_shard k t hk
    exact length_padTo (by rw [Slice.length_data]; exact hG.asm.le_maxlen q hq)
  have hrec : ∀ x ∈ dec.recovered asm, x.length ≤ W + 2 := by
    intro x hx
    unfold FecDecoder.recovered at hx
    split at hx
    · rename_i out hout
      obtain ⟨k, -, hk⟩ := List.mem_filterMap.1 hx
      split at hk
      · cases hk
      · -- a shard of the codec's, or an absent one
        rw [Option.some.injEq] at hk
        subst hk
        cases ho : out[k]?.join with
        | none => exact Nat.zero_le _
        | some s =>
          rw [hdec.codec] at hout
          have := hsize hpadded hout s (List.mem_of_getElem? (Option.join_eq_some_iff.1 ho))
          rw [Option.getD_some]
          omega
    · cases hx
  unfold FecDecoder.outcome
  split
  · nofun
  · split
    · exact hrec
    · nofun

theorem fits_pushRecovered : ∀ (rs : List Bytes) {fec fec' : Fec},
    (∀ r ∈ rs, r.length ≤ W + 2) → Fec.pushRecovered rs fec = .ok fec' →
    (∀ x ∈ fec.dataCh, x.length ≤ W) → ∀ x ∈ fec'.dataCh, x.length ≤ W := by
  intro rs
  induction rs with
  | nil =>
    intro fec fec' _ h hready
    cases h
    exact hready
  | cons r rs ih =>
    intro fec fec' hrs h hready
    have hr := hrs r (by simp)
    have hrest : ∀ r' ∈ rs, r'.length ≤ W + 2 := fun r' hr' => hrs r' (by simp [hr'])
    unfold Fec.pushRecovered at h
    split at h
    · exact ih hrest h hready
    · obtain ⟨sz, -, h⟩ := bind_ok h
      split at h
      · cases h
      · rename_i hsz
        obtain ⟨s, hs, h⟩ := bind_ok h
        split at h
        · refine ih hrest h fun x hx => ?_
          rcases List.mem_append.1 hx with hx | hx
          · exact hready x hx
          · have htwo : ¬ sz.toNat < 2 := fun hlt => hsz (.inl (UInt16.lt_iff_toNat_lt.2 hlt))
            rw [sliceRange_ok (by omega) (by omega)] at hs
            cases hs
            rw [List.mem_singleton.1 hx, List.length_drop, List.length_take]
            omega
        · cases h

/-- **A packet that was cut to a buffer of `W` bytes**: its payload fits, and so does what it makes
recoverable. -/
theorem fits_decode (hsize : codec.Sized) {fec fec' : Fec} (h : Fits codec d p W fec) {a : Arrival}
    (ha : a.data.length ≤ W + fecHeaderSizePlus2) {data : Option Bytes}
    (hd : fec.decode a = .ok (data, fec')) :
    Fits codec d p W fec' ∧ ∀ x, data = some x → x.length ≤ W := by
  unfold Fec.decode at hd
  obtain ⟨pkt, hpkt, hd⟩ := bind_ok hd
  obtain ⟨data', hdata, hd⟩ := bind_ok hd
  obtain ⟨⟨recovered, decoder⟩, hdec, hd⟩ := bind_ok hd
  obtain ⟨fec1, hpush, hd⟩ := bind_ok hd
  cases hd
  obtain ⟨-, -, hcap, hlen⟩ := decodeFecPacket_fields hpkt
  have hpktlen : pkt.data.len ≤ W + 2 := by
    unfold fecHeaderSizePlus2 fecHeaderSize at ha
    omega
  have hdecoder : DecAt codec d p decoder ∧ (∀ q ∈ decoder.rx, q.data.len ≤ W + 2) ∧
      ∀ r ∈ recovered, r.length ≤ W + 2 := by
    rcases decode_cases h.dec.sane hcap with ⟨-, hcase⟩ | ⟨i, ts, asm, -, hG, hcase⟩
    · rw [hcase] at hdec
      cases hdec
      exact ⟨h.dec, h.queue, nofun⟩
    · rw [hcase] at hdec
      cases hdec
      have hins : ∀ q ∈ insertAt fec.decoder.rx i pkt, q.data.len ≤ W + 2 := fun q hq => by
        rcases mem_insertAt.1 hq with rfl | hq
        · exact hpktlen
        · exact h.queue q hq
      exact ⟨h.dec.after hcap asm,
        fun q hq => hins q (((limited_sublist _ _).trans (outcome_sublist _ _ _)).mem hq),
        length_recovered hsize h.dec hG hins⟩
  refine ⟨⟨?_, ?_, fits_pushRecovered recovered hdecoder.2.2 hpush h.ready⟩, ?_⟩
  · rw [pushRecovered_decoder recovered hpush]
    exact hdecoder.1
  · rw [pushRecovered_decoder recovered hpush]
    exact hdecoder.2.1
  · rintro x rfl
    unfold packetPayload at hdata
    split at hdata
    · obtain ⟨payload, hpay, hdata⟩ := bind_ok hdata
      cases hdata
      unfold sliceFrom at hpay
      split at hpay
      · cases hpay
        rw [List.length_drop]
        omega
      · cases hpay
    · split at hdata
      · cases hdata
      · cases hdata

/-! ## One call -/

/-- **A call of `DecodeData`** on packets that were cut to a buffer of `W` bytes. -/
theorem fits_decodeData (hsize : codec.Sized) (arrivals : List Arrival) {fec fec' : Fec}
    {data : Option Bytes} {rest : List Arrival}
    (h : fec.decodeData arrivals = .ok (data, fec', rest)) :
    ∃ used, arrivals = used ++ rest ∧ ∀ W, Fits codec d p W fec →
      (∀ a ∈ used, a.data.length ≤ W + fecHeaderSizePlus2) →
      Fits codec d p W fec' ∧ ∀ x, data = some x → x.length ≤ W := by
  refine decodeData_induct (P := fun fec arrivals data fec' rest =>
    ∃ used, arrivals = used ++ rest ∧ ∀ W, Fits codec d p W fec →
      (∀ a ∈ used, a.data.length ≤ W + fecHeaderSizePlus2) →
      Fits codec d p W fec' ∧ ∀ x, data = some x → x.length ≤ W) ?_ ?_ ?_ ?_ ?_ arrivals h
  · intro fec b dataCh arrivals hch
    refine ⟨[], rfl, fun W hf _ => ⟨⟨hf.dec, hf.queue, fun x hx => ?_⟩, fun x hx => ?_⟩⟩
    · exact hf.ready x (by rw [hch]; exact List.mem_cons_of_mem _ hx)
    · cases hx
      exact hf.ready b (by rw [hch]; exact List.mem_cons_self)
  · intro fec _
    exact ⟨[], rfl, fun W hf _ => ⟨hf, nofun⟩⟩
  · rintro fec a arrivals data fec' rest - - ⟨used, rfl, hused⟩
    exact ⟨a :: used, rfl, fun W hf hle => hused W hf fun a' ha' => hle a' (by simp [ha'])⟩
  · intro fec a arrivals b fec' _ _ hd
    exact ⟨[a], rfl, fun W hf hle => fits_decode hsize hf (hle a (by simp)) hd⟩
  · rintro fec a arrivals fec1 data fec' rest - - hd ⟨used, rfl, hused⟩
    exact ⟨a :: used, rfl, fun W hf hle =>
      hused W (fits_decode hsize hf (hle a (by simp)) hd).1 fun a' ha' => hle a' (by simp [ha'])⟩

theorem fits_read (hsize : codec.Sized) {c c' : Client} {fec : Fec} (hfec : c.fec = some fec)
    {b : Bytes} {inbox inbox' : List Arrival} {res : Option (Nat × Bytes)}
    (h : c.read b inbox = .ok (res, c', inbox')) :
    ∃ data fec' left, c'.fec = some fec' ∧
      fec.decodeData (inbox.map (Arrival.readFrom (b.length + fecHeaderSizePlus2))) =
        .ok (data, fec', left) ∧
      res = data.map (fun x => (x.length, copyTo b x)) ∧
      ∀ W, Fits codec d p W fec →
        (∀ a ∈ inbox.take (inbox.length - inbox'.length),
          b.length ≤ W ∨ a.data.length ≤ W + fecHeaderSizePlus2) →
        Fits codec d p W fec' ∧ ∀ x, data = some x → x.length ≤ W := by
  unfold Client.read at h
  rw [hfec] at h
  obtain ⟨r, hr, h⟩ := bind_ok h
  obtain ⟨data, fec', left⟩ := r
  obtain ⟨used, hused, hfits⟩ := fits_decodeData hsize _ hr
  have hlen := congrArg List.length hused
  rw [List.length_map, List.length_append] at hlen
  -- the messages read are those that `DecodeData` consumed, before they were cut
  have htake : (inbox.take (inbox.length - left.length)).map
      (Arrival.readFrom (b.length + fecHeaderSizePlus2)) = used := by
    rw [List.map_take, hused, show inbox.length - left.length = used.length by omega,
      List.take_left]
  have hdrop : inbox.length - (inbox.drop (inbox.length - left.length)).length =
      inbox.length - left.length := by
    rw [List.length_drop]
    omega
  have hbound : ∀ W, Fits codec d p W fec →
      (∀ a ∈ inbox.take (inbox.length - (inbox.drop (inbox.length - left.length)).length),
        b.length ≤ W ∨ a.data.length ≤ W + fecHeaderSizePlus2) →
      Fits codec d p W fec' ∧ ∀ x, data = some x → x.length ≤ W := by
    intro W hf hle
    rw [hdrop] at hle
    refine hfits W hf fun a ha => ?_
    rw [← htake] at ha
    obtain ⟨a', ha', rfl⟩ := List.mem_map.1 ha
    have := hle a' ha'
    show (a'.data.take _).length ≤ _
    rw [List.length_take]
    omega
  cases data with
  | none =>
    cases h
    exact ⟨none, fec', left, rfl, hr, rfl, hbound⟩
  | some x =>
    cases h
    exact ⟨some x, fec', left, rfl, hr, rfl, hbound⟩

/-! ## Every run -/

/-- A client's `Fec` holds no more than its calls have read. -/
def Bounded (codec : Codec UInt8) (d p : Nat) (r : Reader) : Prop :=
  ∃ fec, r.client.fec = some fec ∧ ∀ W,
    (∀ t ∈ r.taken, t.len ≤ W ∨ t.msg.length ≤ W + fecHeaderSizePlus2) → Fits codec d p W fec

theorem bounded_step (hsize : codec.Sized) {r r' : Reader} (h : Bounded codec d p r)
    {e : Reader.Event} (hstep : r.step e = .ok r') : Bounded codec d p r' := by
  cases e with
  | arrive a =>
    cases hstep
    exact h
  | read b =>
    obtain ⟨fec, hfec, hfits⟩ := h
    obtain ⟨res, hres, hstep⟩ := bind_ok hstep
    obtain ⟨out, c', inbox'⟩ := res
    cases hstep
    obtain ⟨data, fec', left, hfec', -, -, hbound⟩ := fits_read (d := d) (p := p) hsize hfec hres
    refine ⟨fec', hfec', fun W ht => ?_⟩
    refine (hbound W (hfits W fun t htm => ht t (List.mem_append_left _ htm)) fun a ha => ?_).1
    exact ht ⟨a.data, b.length⟩ (List.mem_append_right _ (List.mem_map.2 ⟨a, ha, rfl⟩))

/-- **When `Read` keeps to its buffer.** A client with FEC, any messages, and any sequence of `Read`
calls: a call with the buffer `b` that returns without an error reports at most `len(b)` bytes, and
`b` holds the payload, provided that each message which an earlier call took was read into a buffer
no longer than `b`, or itself fits a call with `b`. -/
theorem read_bounded {rs : Nat → Nat → Option (Codec UInt8)} (hrs : rs d p = some codec)
    (hsize : codec.Sized) (h0 : 1 ≤ d) (hp : 1 ≤ p) (hd : d + p ≤ 256) {fec : Fec}
    (hnew : newFec rs d p 0 = some fec) {r : Reader} (hr : Reader.Reachable fec r) (b : Bytes)
    (htaken : ∀ t ∈ r.taken, t.len ≤ b.length ∨ t.msg.length ≤ b.length + 8) {n : Nat} {b' : Bytes}
    {c' : Client} {inbox' : List Arrival}
    (hread : r.client.read b r.inbox = .ok (some (n, b'), c', inbox')) :
    n ≤ b.length ∧ ∃ cur data fec' left, r.client.fec = some cur ∧
      cur.decodeData (r.inbox.map (Arrival.readFrom (b.length + 8))) = .ok (some data, fec', left) ∧
      n = data.length ∧ b'.take n = data := by
  obtain ⟨fec₀, hnew₀, -, hf, hrx, -, hch⟩ := newFec_ok h0 hp hd hrs
  obtain rfl : fec₀ = fec := Option.some.inj (hnew₀.symm.trans hnew)
  have hbounded : Bounded codec d p r := hr.invariant
    (fun s hs => hs ▸ ⟨fec₀, rfl, fun W _ => ⟨hf.dec, by rw [hrx]; nofun, by rw [hch]; nofun⟩⟩)
    fun s e t hs hstep => bounded_step hsize hs hstep
  obtain ⟨cur, hcur, hfits⟩ := hbounded
  obtain ⟨data, fec', left, -, hdata, hres, hbound⟩ := fits_read (d := d) (p := p) hsize hcur hread
  cases data with
  | none => cases hres
  | some data =>
    have hle := (hbound b.length (hfits b.length htaken) fun _ _ => .inl (Nat.le_refl _)).2 data rfl
    cases hres
    refine ⟨hle, cur, data, fec', left, hcur, hdata, rfl, ?_⟩
    rw [copyTo, List.take_of_length_le hle, List.take_left]

end

/-- Two payloads with the codec of two data shards and one parity shard, the second data packet
lost: a call with a buffer of two bytes returns the first payload, a second one the restored
payload. -/
theorem read_bounded_rs21 :
    ∃ fec r c' inbox', newFec newRs21 2 1 0 = some fec ∧ Reader.Reachable fec r ∧
      r.client.read [0, 0] r.inbox = .ok (some (2, [8, 9]), c', inbox') ∧ 2 ≤ [0, 0].length := by
  have hrun : ((newFec newRs21 2 1 0).bind fun fec =>
      (exec (fun r e => (Reader.step r e).toOption)
        [.arrive ⟨[2, 0, 0, 0, 0xf2, 0, 13, 0, 25, 18], .new⟩,
          .arrive ⟨[0, 0, 0, 0, 0xf1, 0, 3, 0, 7], .new⟩, .read [0, 0]]
        ⟨newClient (some fec), [], []⟩).bind fun r =>
        (r.client.read [0, 0] r.inbox).toOption.map fun res =>
          (res.1, decide (∀ t ∈ r.taken, t.len ≤ 2 ∨ t.msg.length ≤ 2 + 8))) =
      some (some (2, [8, 9]), true) := by decide +kernel
  obtain ⟨fec, hnew, hrun⟩ := Option.bind_eq_some_iff.1 hrun
  obtain ⟨r, hr, hrun⟩ := Option.bind_eq_some_iff.1 hrun
  obtain ⟨res, hres, hrun⟩ := Option.map_eq_some_iff.1 hrun
  obtain ⟨out, c', inbox'⟩ := res
  obtain ⟨rfl, htaken⟩ := Prod.mk.inj hrun
  have hreach : Reader.Reachable fec r := Reach.exec (fun _ _ _ => ok_of_toOption) (.init rfl) hr
  exact ⟨fec, r, c', inbox', hnew, hreach, ok_of_toOption hres,
    (read_bounded (show newRs21 2 1 = some rs21 from rfl) rs21_sized (by decide) (by decide)
      (by decide) hnew hreach [0, 0] (of_decide_eq_true htaken) (ok_of_toOption hres)).1⟩

/-- **`Read` reports more bytes than its buffer holds**: the first call, with a buffer of two bytes,
leaves the restored payload in `dataCh`; the second has a buffer of one byte. -/
theorem read_overruns :
    ∃ fec fec' wire r c' inbox', newFec newRs21 2 1 0 = some fec ∧
      fec.encodeCalls Wire.send [[7], [8, 9]] (Wire.new fun _ => false) = .ok (fec', wire) ∧
      [2, 0, 0, 0, 0xf2, 0, 13, 0, 25, 18] ∈ wire.sent ∧
      [0, 0, 0, 0, 0xf1, 0, 3, 0, 7] ∈ wire.sent ∧
      exec (fun r e => (Reader.step r e).toOption)
        [.arrive ⟨[2, 0, 0, 0, 0xf2, 0, 13, 0, 25, 18], .new⟩,
          .arrive ⟨[0, 0, 0, 0, 0xf1, 0, 3, 0, 7], .new⟩, .read [0, 0]]
        ⟨newClient (some fec), [], []⟩ = some r ∧
      r.client.read [0] r.inbox = .ok (some (2, [8]), c', inbox') := by
  have hrun : ((newFec newRs21 2 1 0).bind fun fec =>
      (fec.encodeCalls Wire.send [[7], [8, 9]] (Wire.new fun _ => false)).toOption.bind fun enc =>
      (exec (fun r e => (Reader.step r e).toOption)
        [.arrive ⟨[2, 0, 0, 0, 0xf2, 0, 13, 0, 25, 18], .new⟩,
          .arrive ⟨[0, 0, 0, 0, 0xf1, 0, 3, 0, 7], .new⟩, .read [0, 0]]
        ⟨newClient (some fec), [], []⟩).bind fun r =>
        (r.client.read [0] r.inbox).toOption.map fun res =>
          (decide ([2, 0, 0, 0, 0xf2, 0, 13, 0, 25, 18] ∈ enc.2.sent),
            decide ([0, 0, 0, 0, 0xf1, 0, 3, 0, 7] ∈ enc.2.sent), res.1)) =
      some (true, true, some (2, [8])) := by decide +kernel
  obtain ⟨fec, hnew, hrun⟩ := Option.bind_eq_some_iff.1 hrun
  obtain ⟨enc, henc, hrun⟩ := Option.bind_eq_some_iff.1 hrun
  obtain ⟨r, hr, hrun⟩ := Option.bind_eq_some_iff.1 hrun
  obtain ⟨res, hres, hrun⟩ := Option.map_eq_some_iff.1 hrun
  obtain ⟨out, c', inbox'⟩ := res
  simp only [Prod.mk.injEq, decide_eq_true_eq] at hrun
  obtain ⟨h2, h0, rfl⟩ := hrun
  exact ⟨fec, enc.1, enc.2, r, c', inbox', hnew, ok_of_toOption henc, h2, h0, hr,
    ok_of_toOption hres⟩

end Faketcp
