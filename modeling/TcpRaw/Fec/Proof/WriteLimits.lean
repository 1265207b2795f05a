import TcpRaw.Fec.Proof.EncoderSafe

/-!
# The two write paths and their limits

What `Client.Write` and `FakeConn.Write` make of a payload with FEC, for every encoder in use and
whatever the connection below answers. `writes_agree_iff`: they treat it alike, and as a write
should be treated, exactly for the lengths 1 to 1530. An empty payload is dropped by `Client.Write`
without an error and sent by `FakeConn.Write`; from 1531 bytes on `Client.Write` fails, where
`FakeConn.Write` sends up to `maxPayload` bytes and panics beyond.
-/

namespace Faketcp

open GoRt Erasure

section
variable {ε : Type}

/-- The call offered packets to the connection. -/
def Written.Accepted (r : Written (Outbox ε) ε) (o : Outbox ε) : Prop := r.env.offered ≠ o.offered

/-- How a call should treat the payload `b`: either it fails, offers nothing and leaves the encoder
as it is, or the first packet that it offers has the size of the payload, plus 2, in its size
field. -/
structure Written.Treats (r : Written (Outbox ε) ε) (enc : FecEncoder) (b : Bytes) (o : Outbox ε) :
    Prop where
  rejected : ¬ r.Accepted o → r.err ≠ none ∧ r.writer.fec.map Fec.encoder = some enc
  accepted : r.Accepted o → ∃ x rest size, r.env.offered = o.offered ++ x :: rest ∧
    leUint16 (x.drop fecHeaderSize) = .ok size ∧ size.toNat = b.length + 2

/-- Both calls return, accept or reject the payload alike, and treat it as they should. -/
def WritesAgree (fec : Fec) (txBytes : UInt64) (b : Bytes) (o : Outbox ε) : Prop :=
  ∃ rc rf, Writer.clientWrite Outbox.writeTo { fec := some fec, txBytes } b o = .ok rc ∧
    Writer.fakeConnWriteTo Outbox.writeTo { fec := some fec, txBytes } b o = .ok rf ∧
    (rc.Accepted o ↔ rf.Accepted o) ∧
    rc.Treats fec.encoder b o ∧ rf.Treats fec.encoder b o

/-! ## What a write offers -/

theorem countedSend_offered (p : Bytes) (s : UInt64 × Outbox ε) :
    (countedSend Outbox.writeTo p s).2.2.offered = s.2.offered ++ [p] := by
  have hlog : (Outbox.writeTo p s.2).2.offered = s.2.offered ++ [p] := rfl
  unfold countedSend
  split <;> rename_i heq <;> rw [heq] at hlog <;> exact hlog

theorem sendParity_offered : ∀ (ps : List Bytes) (tx : UInt64) (s : UInt64 × Outbox ε),
    ∃ rest, (sendParity (countedSend Outbox.writeTo) ps tx s).2.2.2.offered = s.2.offered ++ rest
  | [], _, s => ⟨[], (List.append_nil _).symm⟩
  | p :: ps, tx, s => by
    have hp := countedSend_offered p s
    rw [sendParity]
    split
    · rename_i heq
      rw [heq] at hp
      exact ⟨[p], hp⟩
    · rename_i s' heq
      rw [heq] at hp
      obtain ⟨rest, hrest⟩ := sendParity_offered ps (tx + UInt64.ofNat p.length) s'
      exact ⟨p :: rest, by rw [hrest, hp, List.append_assoc]; rfl⟩

theorem encodeData_offered {fec : Fec} {b : Bytes} {buf : Slice UInt8} {ps : List (Slice UInt8)}
    {enc : FecEncoder} (h : fec.encoder.encode (fecBuf b) = .ok (buf, ps, enc))
    (s : UInt64 × Outbox ε) :
    ∃ r rest, fec.encodeData (countedSend Outbox.writeTo) b s = .ok r ∧
      r.2.2.2.offered = s.2.offered ++ buf.data :: rest := by
  have hp := countedSend_offered buf.data s
  unfold Fec.encodeData
  dsimp only
  unfold fecBuf at h
  rw [h, ok_bind]
  dsimp only
  split
  · rename_i heq
    rw [heq] at hp
    exact ⟨_, [], rfl, hp⟩
  · rename_i s' heq
    rw [heq] at hp
    obtain ⟨rest, hrest⟩ := sendParity_offered (ps.map Slice.data) fec.txBytes s'
    exact ⟨_, rest, rfl, by rw [hrest, hp, List.append_assoc]; rfl⟩

variable {fec : Fec} {b : Bytes}

/-- **A payload that fits** is offered by `FakeConn.Write`. -/
theorem fakeConnWriteTo_short (h : fec.encoder.Ready) (hb : b.length ≤ maxPayload)
    (txBytes : UInt64) (o : Outbox ε) :
    ∃ r rest, Writer.fakeConnWriteTo Outbox.writeTo { fec := some fec, txBytes } b o = .ok r ∧
      r.env.offered = o.offered ++ packet fec.encoder.next typeData (sized b) :: rest := by
  obtain ⟨buf, ps, enc, henc, hdata, -⟩ := encode_ready h hb
  obtain ⟨r, rest, hr, hoff⟩ := encodeData_offered henc (txBytes, o)
  rw [hdata] at hoff
  unfold Writer.fakeConnWriteTo
  dsimp only
  rw [hr, ok_bind]
  split
  · exact ⟨_, rest, rfl, hoff⟩
  · exact ⟨_, rest, rfl, hoff⟩

/-- **A payload that does not fit** makes `FakeConn.Write` panic. -/
theorem fakeConnWriteTo_long (h : fec.encoder.Ready) (hb : maxPayload < b.length)
    (txBytes : UInt64) (o : Outbox ε) :
    Writer.fakeConnWriteTo Outbox.writeTo { fec := some fec, txBytes } b o =
      .error .sliceBounds := by
  have henc := encode_long h hb
  unfold fecBuf at henc
  unfold Writer.fakeConnWriteTo
  dsimp only
  unfold Fec.encodeData
  dsimp only
  rw [henc]
  rfl

theorem leUint16_packet (seqid : UInt32) (flag : UInt16) (b : Bytes) :
    leUint16 ((packet seqid flag (sized b)).drop fecHeaderSize) =
      .ok (UInt16.ofNat (b.length + 2)) := by
  have hdrop : (packet seqid flag (sized b)).drop fecHeaderSize = sized b :=
    List.drop_left' (show (leBytes32 seqid ++ leBytes16 flag).length = fecHeaderSize from rfl)
  rw [hdrop, sized, leUint16_append]

theorem Written.accepted_of {r : Written (Outbox ε) ε} {o : Outbox ε} {x : Bytes}
    {rest : List Bytes} (h : r.env.offered = o.offered ++ x :: rest) : r.Accepted o := by
  intro heq
  rw [heq] at h
  have hlen := congrArg List.length h
  rw [List.length_append, List.length_cons] at hlen
  omega

/-- **Both write paths reject what they cannot encode, for the lengths 1 to 1530 and no others.**
For every encoder in use, of any block size that the library accepts and with any codec, every
payload and every behaviour of the connection below. -/
theorem writes_agree_iff {rs : Nat → Nat → Option (Codec UInt8)} (hlib : ShardLimit rs) {d p : Nat}
    (h : FecEncoder.Reachable rs d p fec.encoder) (txBytes : UInt64) (b : Bytes) (o : Outbox ε) :
    WritesAgree fec txBytes b o ↔ 1 ≤ b.length ∧ b.length ≤ 1530 := by
  have hready := h.ready hlib
  constructor
  · rintro ⟨rc, rf, hrc, hrf, hsame, hc, -⟩
    have hpos : b.length ≠ 0 := by
      intro hempty
      -- the client returns without an error, and offers nothing
      rw [Writer.clientWrite, if_pos hempty] at hrc
      cases hrc
      exact (hc.rejected fun hacc => hacc rfl).1 rfl
    refine ⟨by omega, Nat.le_of_not_lt fun hlong => ?_⟩
    have hno : ¬ rc.Accepted o := by
      rw [Writer.clientWrite, if_neg hpos, if_pos hlong] at hrc
      cases hrc
      exact fun hacc => hacc rfl
    rcases Nat.lt_or_ge maxPayload b.length with hpanic | hfits
    · rw [fakeConnWriteTo_long hready hpanic] at hrf
      cases hrf
    · obtain ⟨r, rest, hr, hoff⟩ := fakeConnWriteTo_short hready hfits txBytes o
      rw [hrf] at hr
      cases hr
      exact hno (hsame.2 (Written.accepted_of hoff))
  · rintro ⟨hpos, hmax⟩
    have hfits : b.length ≤ maxPayload := by
      unfold maxPayload fecHeaderSizePlus2 fecHeaderSize mtuLimit
      omega
    obtain ⟨r, rest, hr, hoff⟩ := fakeConnWriteTo_short hready hfits txBytes o
    have hacc := Written.accepted_of hoff
    have htreats : r.Treats fec.encoder b o :=
      ⟨fun hno => absurd hacc hno, fun _ => ⟨_, rest, _, hoff, leUint16_packet _ _ _, by
        rw [UInt16.toNat_ofNat', Nat.mod_eq_of_lt (by omega)]⟩⟩
    refine ⟨r, r, ?_, hr, Iff.rfl, htreats, htreats⟩
    rw [Writer.clientWrite, if_neg (by omega), if_neg (by omega)]
    exact hr

end

/-- A payload of 100 bytes, with the encoder of a new `Fec`. -/
theorem writes_agree_rs21 :
    ∃ fec, newFec newRs21 2 1 0 = some fec ∧
      WritesAgree (ε := Unit) fec 0 (List.replicate 100 7) ⟨fun _ => (0, none), []⟩ := by
  have hnew : (newFec newRs21 2 1 0).isSome = true := by decide +kernel
  obtain ⟨fec, hfec⟩ := Option.isSome_iff_exists.1 hnew
  have hreach : FecEncoder.Reachable newRs21 2 1 fec.encoder := .init (newFec_encoder hfec)
  refine ⟨fec, hfec, (writes_agree_iff shardLimit_rs21 hreach 0 _ _).2 ?_⟩
  rw [List.length_replicate]
  omega

/-- **Where they part**: an empty payload returns 0 without an error from `Client.Write`, and
`FakeConn.Write` sends a packet of 8 bytes for it; a payload of 2041 bytes is an error of
`Client.Write` and a panic of `FakeConn.Write`. -/
theorem writes_part :
    ∃ fec, newFec newRs21 2 1 0 = some fec ∧
      (∃ r, Writer.clientWrite (ε := Unit) Outbox.writeTo { fec := some fec, txBytes := 0 } []
          ⟨fun _ => (0, none), []⟩ = .ok r ∧ r.n = 0 ∧ r.err.isNone ∧ r.env.offered = []) ∧
      (∃ r, Writer.fakeConnWriteTo (ε := Unit) Outbox.writeTo { fec := some fec, txBytes := 0 } []
          ⟨fun _ => (0, none), []⟩ = .ok r ∧
        r.env.offered = [[0, 0, 0, 0, 0xf1, 0, 2, 0]]) ∧
      (∃ r, Writer.clientWrite (ε := Unit) Outbox.writeTo { fec := some fec, txBytes := 0 }
          (List.replicate 2041 7) ⟨fun _ => (0, none), []⟩ = .ok r ∧ r.err.isSome) ∧
      Writer.fakeConnWriteTo (ε := Unit) Outbox.writeTo { fec := some fec, txBytes := 0 }
        (List.replicate 2041 7) ⟨fun _ => (0, none), []⟩ = .error .sliceBounds := by
  have hrun : (newFec newRs21 2 1 0).map (fun fec =>
      ((Writer.fakeConnWriteTo (ε := Unit) Outbox.writeTo { fec := some fec, txBytes := 0 } []
        ⟨fun _ => (0, none), []⟩).toOption.map fun r => r.env.offered)) =
      some (some [[0, 0, 0, 0, 0xf1, 0, 2, 0]]) := by decide +kernel
  obtain ⟨fec, hfec, hrun⟩ := Option.map_eq_some_iff.1 hrun
  obtain ⟨r, hr, hoff⟩ := Option.map_eq_some_iff.1 hrun
  have hready := newFECEncoder_ready shardLimit_rs21 (newFec_encoder hfec)
  have hlong : maxPayload < (List.replicate 2041 (7 : UInt8)).length := by
    rw [List.length_replicate]
    decide
  refine ⟨fec, hfec, ⟨_, rfl, rfl, rfl, rfl⟩, ⟨r, ok_of_toOption hr, hoff⟩, ?_,
    fakeConnWriteTo_long hready hlong 0 _⟩
  refine ⟨⟨0, some (.packetSize 2041), ⟨some fec, 0⟩, ⟨fun _ => (0, none), []⟩⟩, ?_, rfl⟩
  rw [Writer.clientWrite, List.length_replicate, if_neg (by decide), if_pos (by decide)]
  rfl

end Faketcp
