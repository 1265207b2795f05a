import TcpRaw.Fec.Proof.Wrap

/-!
# What the encoder produces

`Fec.encodeLog` is a run of `EncodeData` calls together with the packets that `FecEncoder.Encode`
returns in it, whether they are sent or not. The encoder does not see what happens to its packets
(`encodeData_encoder`), so the log is the stream of the payloads (`encodeLog_stream`): packet `k` is
packet `k` of the stream, for runs of any length. `encoder_spec` says in full what that is, and that
sequence ids keep their order and the blocks their alignment where the ids wrap.
-/

namespace Faketcp

open GoRt Erasure

/-- The calls of `EncodeData` with `payloads` in turn, with the packets that `Encode` returns. -/
def Fec.encodeLog {σ ε : Type} (send : Bytes → σ → Option ε × σ) :
    List Bytes → Fec → σ → Go (List Bytes × Fec × σ)
  | [], fec, s => pure ([], fec, s)
  | b :: payloads, fec, s => do
    let encoded ← fec.encoder.encode (Slice.ofList (List.replicate fecHeaderSizePlus2 0 ++ b))
    let call ← fec.encodeData send b s
    let rest ← Fec.encodeLog send payloads call.2.1 call.2.2
    pure (encoded.1.data :: encoded.2.1.map Slice.data ++ rest.1, rest.2)

section
variable {codec : Codec UInt8} {d p : Nat} {σ ε : Type} (send : Bytes → σ → Option ε × σ)

theorem encodeData_encoder {fec : Fec} {b : Bytes} {buf : Slice UInt8} {ps : List (Slice UInt8)}
    {enc : FecEncoder}
    (h : fec.encoder.encode (Slice.ofList (List.replicate fecHeaderSizePlus2 0 ++ b)) =
      .ok (buf, ps, enc)) (s : σ) :
    ∃ err fec' s', fec.encodeData send b s = .ok (err, fec', s') ∧ fec'.encoder = enc := by
  unfold Fec.encodeData
  dsimp only
  rw [h, ok_bind]
  dsimp only
  split
  · exact ⟨_, _, _, rfl, rfl⟩
  · exact ⟨_, _, _, rfl, rfl⟩

/-- **A run of `EncodeData` calls produces the stream**, from where the encoder is. -/
theorem encodeLog_stream (henc : codec.Encodes d p) (h0 : 0 < d) (hp : 0 < p) (hd : d + p ≤ 256) :
    ∀ (bs : List Bytes) {fec : Fec} {ps : List Bytes} (s : σ), StreamAt codec d p fec.encoder ps →
      (∀ b ∈ bs, b.length ≤ maxPayload) →
      ∃ out fec' s', fec.encodeLog send bs s = .ok (out, fec', s') ∧
        fec.encodeCalls send bs s = .ok (fec', s') ∧
        streamLength d p ps.length + out.length = streamLength d p (ps ++ bs).length ∧
        ∀ i x, out[i]? = some x →
          streamPacket codec d p (ps ++ bs) (streamLength d p ps.length + i) = some x := by
  intro bs
  induction bs with
  | nil =>
    intro fec ps s _ _
    refine ⟨[], fec, s, rfl, rfl, by simp, fun i x hx => ?_⟩
    cases hx
  | cons b bs ih =>
    intro fec ps s h hbs
    obtain ⟨buf, pss, enc, he, hat, hlen, hpkt⟩ :=
      encode_stream henc h0 hp hd h (hbs b (by simp))
    obtain ⟨err, fec1, s1, hcall, rfl⟩ := encodeData_encoder send he s
    obtain ⟨out, fec2, s2, hlog, hcalls, hlen2, hpkt2⟩ :=
      ih s1 hat fun b' hb' => hbs b' (by simp [hb'])
    rw [List.append_assoc, List.singleton_append] at hlen2 hpkt2
    have hcount : (ps ++ [b]).length = ps.length + 1 := by simp
    rw [hcount] at hlen2 hpkt2
    refine ⟨buf.data :: pss.map Slice.data ++ out, fec2, s2, ?_, ?_, ?_, fun i x hx => ?_⟩
    · rw [Fec.encodeLog, he, ok_bind, hcall, ok_bind]
      dsimp only
      rw [hlog]
      rfl
    · rw [Fec.encodeCalls, hcall, ok_bind]
      exact hcalls
    · rw [List.length_append]
      omega
    · -- a packet of this call, or of a later one
      rcases Nat.lt_or_ge i (buf.data :: pss.map Slice.data).length with hi | hi
      · rw [List.getElem?_append_left hi] at hx
        have := streamPacket_mono bs (hpkt i x hx)
        rwa [List.append_assoc, List.singleton_append] at this
      · rw [List.getElem?_append_right hi] at hx
        have := hpkt2 _ x hx
        rwa [← hlen, show streamLength d p ps.length + (buf.data :: pss.map Slice.data).length
          + (i - (buf.data :: pss.map Slice.data).length) = streamLength d p ps.length + i by omega]
          at this

theorem encodeLog_new (henc : codec.Encodes d p) (h0 : 0 < d) (hp : 0 < p) (hd : d + p ≤ 256)
    {fec : Fec} (hat : StreamAt codec d p fec.encoder []) (bs : List Bytes) (s : σ)
    (hbs : ∀ b ∈ bs, b.length ≤ maxPayload) :
    ∃ out fec' s', fec.encodeLog send bs s = .ok (out, fec', s') ∧
      fec.encodeCalls send bs s = .ok (fec', s') ∧ out.length = streamLength d p bs.length ∧
      ∀ i x, out[i]? = some x → streamPacket codec d p bs i = some x := by
  obtain ⟨out, fec', s', hlog, hcalls, hlen, hpkt⟩ :=
    encodeLog_stream send henc h0 hp hd bs s hat hbs
  have hstart : streamLength d p ([] : List Bytes).length = 0 := by simp [streamLength]
  simp only [hstart, List.nil_append, Nat.zero_add] at hlen hpkt
  exact ⟨out, fec', s', hlog, hcalls, hlen, hpkt⟩

end

/-! ## Sequence ids -/

/-- **Consecutive sequence ids are in order**, also where they wrap. -/
theorem itimediff_succ {n : Nat} (h0 : 0 < n) (hn : n ≤ 256) (k : Nat) :
    0 < itimediff (UInt32.ofNat ((k + 1) % pawsOf n)) (UInt32.ofNat (k % pawsOf n)) :=
  (itimediff_streamId h0 hn (by omega) (by omega)).1.2 (Nat.lt_succ_self k)

section
variable {codec : Codec UInt8} {d p : Nat} {σ ε : Type}

/-- **The encoder's specification.** Payloads of up to `mtuLimit - 8` bytes are encoded in a run of
any length, `send` doing what it likes. The packets that `Encode` produces are, in order: packet `k`
carries sequence id `k` modulo `paws`, and is a data packet exactly if `k` is at one of the first
`d` positions of its block; a data packet holds the size and the payload, a parity packet the parity
of its block's data shards, padded to the longest of them. Sequence ids keep the alignment of the
blocks and their order where they wrap. -/
theorem encoder_spec {rs : Nat → Nat → Option (Codec UInt8)} (hrs : rs d p = some codec)
    (henc : codec.Encodes d p) (h0 : 1 ≤ d) (hp : 1 ≤ p) (hd : d + p ≤ 256) (payloads : List Bytes)
    (hpay : ∀ b ∈ payloads, b.length ≤ mtuLimit - 8) (send : Bytes → σ → Option ε × σ) (s : σ) :
    ∃ fec out fec' s', newFec rs d p 0 = some fec ∧
      fec.encodeLog send payloads s = .ok (out, fec', s') ∧
      fec.encodeCalls send payloads s = .ok (fec', s') ∧
      out.length = payloads.length + payloads.length / d * p ∧
      (∀ k x, out[k]? = some x →
        ∃ body, x = leBytes32 (UInt32.ofNat (k % ((0xffffffff / (d + p) - 1) * (d + p)))) ++
            leBytes16 (if k % (d + p) < d then typeData else typeFEC) ++ body ∧
          (k % (d + p) < d → ∃ b, payloads[d * (k / (d + p)) + k % (d + p)]? = some b ∧
            body = leBytes16 (UInt16.ofNat (b.length + 2)) ++ b) ∧
          (d ≤ k % (d + p) → ∃ parity, (blockOf d (k / (d + p)) payloads).length = d ∧
            codec.encode (paddedData (blockOf d (k / (d + p)) payloads)) = some parity ∧
            parity[k % (d + p) - d]? = some body)) ∧
      (∀ k, k % pawsOf (d + p) % (d + p) = k % (d + p)) ∧
      ∀ k, 0 < itimediff (UInt32.ofNat ((k + 1) % pawsOf (d + p)))
        (UInt32.ofNat (k % pawsOf (d + p))) := by
  obtain ⟨fec, hnew, hat, -⟩ := newFec_ok h0 hp hd hrs
  obtain ⟨out, fec', s', hlog, hcalls, hlen, hpkt⟩ :=
    encodeLog_new send henc h0 hp hd hat payloads s hpay
  refine ⟨fec, out, fec', s', hnew, hlog, hcalls, hlen, fun k x hx => ?_,
    fun k => mod_pawsOf_mod k _, fun k => itimediff_succ (by omega) hd k⟩
  obtain ⟨body, hbody, rfl⟩ := Option.map_eq_some_iff.1 (hpkt k x hx)
  refine ⟨body, rfl, fun hdata => ?_, fun hpar => ?_⟩
  · rw [blockShard, if_pos hdata] at hbody
    obtain ⟨b, hb, rfl⟩ := Option.map_eq_some_iff.1 hbody
    rw [getElem?_blockOf hdata] at hb
    exact ⟨b, hb, rfl⟩
  · rw [blockShard, if_neg (by omega)] at hbody
    split at hbody
    · rename_i hfull
      obtain ⟨parity, hparity, hbody⟩ := Option.bind_eq_some_iff.1 hbody
      exact ⟨parity, hfull, hparity, hbody⟩
    · cases hbody

end

/-- Three payloads with the codec of two data shards and one parity shard, every second send call
failing. -/
theorem encoder_spec_rs21 :
    ∃ fec out fec' s', newFec newRs21 2 1 0 = some fec ∧
      fec.encodeLog Wire.send [[7], [], [1, 2, 3]] (Wire.new (· % 2 = 1)) = .ok (out, fec', s') ∧
      fec.encodeCalls Wire.send [[7], [], [1, 2, 3]] (Wire.new (· % 2 = 1)) = .ok (fec', s') ∧
      out.length = 4 ∧
      ∀ k x, out[k]? = some x →
        ∃ body, x = leBytes32 (UInt32.ofNat (k % ((0xffffffff / 3 - 1) * 3))) ++
            leBytes16 (if k % 3 < 2 then typeData else typeFEC) ++ body ∧
          (k % 3 < 2 → ∃ b, [[7], [], [1, 2, 3]][2 * (k / 3) + k % 3]? = some b ∧
            body = leBytes16 (UInt16.ofNat (b.length + 2)) ++ b) ∧
          (2 ≤ k % 3 → ∃ parity, (blockOf 2 (k / 3) [[7], [], [1, 2, 3]]).length = 2 ∧
            rs21.encode (paddedData (blockOf 2 (k / 3) [[7], [], [1, 2, 3]])) = some parity ∧
            parity[k % 3 - 2]? = some body) := by
  obtain ⟨fec, out, fec', s', hnew, hlog, hcalls, hlen, hpkt, -⟩ :=
    encoder_spec (show newRs21 2 1 = some rs21 from rfl)
      rs21_lawful.encodes (by decide) (by decide) (by decide) [[7], [], [1, 2, 3]]
      (by decide) Wire.send
      (Wire.new (· % 2 = 1))
  exact ⟨fec, out, fec', s', hnew, hlog, hcalls, hlen, hpkt⟩

end Faketcp
