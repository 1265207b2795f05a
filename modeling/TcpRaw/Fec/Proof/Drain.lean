import TcpRaw.Fec.Proof.Queue

/-!
# All that `DecodeData` returns

`Fec.drain` runs the decoder over a list of arrivals and collects what the calls of `DecodeData`
return for them: the payload of each packet, and behind it what the packet made recoverable. `n`
calls return the first `n` of these (`decodeCalls_drain`), so statements about all calls are
statements about one list. `drain_rule` is its invariant rule.

`Aligned` is what arrivals from a stream keep: the queue in order, with packets of the stream only.
-/

namespace Faketcp

open GoRt Erasure Keyed

/-- The payloads in `dataCh` have been read. -/
def Fec.flush (fec : Fec) : Fec :=
  { fec with
    dataCh := []
    rxBytes := fec.dataCh.foldl (fun rx data => rx + UInt64.ofNat data.length) fec.rxBytes }

/-- What the calls of `DecodeData` return for the arrivals, and the state after the last of them. -/
def Fec.drain : Fec → List Arrival → Go (List Bytes × Fec)
  | fec, [] => pure ([], fec)
  | fec, a :: arrivals =>
    if a.data.length = 0 then Fec.drain fec arrivals
    else do
      let r ← fec.decode a
      let rest ← Fec.drain r.2.flush arrivals
      pure (r.1.toList ++ r.2.dataCh ++ rest.1, rest.2)

theorem flush_of_nil {fec : Fec} (h : fec.dataCh = []) : fec.flush = fec := by
  cases fec
  simp_all [Fec.flush]

theorem drain_skip {fec : Fec} {a : Arrival} (arrivals : List Arrival) (h : a.data.length = 0) :
    fec.drain (a :: arrivals) = fec.drain arrivals := by
  rw [Fec.drain, if_pos h]

theorem drain_decode {fec fec' : Fec} {a : Arrival} {data : Option Bytes} (arrivals : List Arrival)
    (h : a.data.length ≠ 0) (hd : fec.decode a = .ok (data, fec')) :
    fec.drain (a :: arrivals) = (fec'.flush.drain arrivals).bind fun rest =>
      .ok (data.toList ++ fec'.dataCh ++ rest.1, rest.2) := by
  rw [Fec.drain, if_neg h, hd]
  rfl

theorem drain_append : ∀ (as bs : List Arrival) {fec fec' : Fec} {out : List Bytes},
    fec.drain as = .ok (out, fec') →
    fec.drain (as ++ bs) = (fec'.drain bs).bind fun rest => .ok (out ++ rest.1, rest.2) := by
  intro as
  induction as with
  | nil =>
    intro bs fec fec' out h
    cases h
    rw [List.nil_append]
    cases fec.drain bs <;> rfl
  | cons a as ih =>
    intro bs fec fec' out h
    rw [List.cons_append]
    by_cases hlen : a.data.length = 0
    · rw [drain_skip _ hlen] at h ⊢
      exact ih bs h
    · rw [Fec.drain, if_neg hlen] at h ⊢
      obtain ⟨r, hr, h⟩ := bind_ok h
      obtain ⟨rest, hrest, h⟩ := bind_ok h
      cases h
      rw [hr, ok_bind, ih bs hrest]
      cases rest.2.drain bs with
      | error e => rfl
      | ok x => simp [Except.bind, bind, pure, Except.pure]

/-! ## The calls -/

/-- A call of `DecodeData` returns the first of what is to come, `out` behind what is waiting, and
leaves the rest; it returns nothing only if nothing is to come. -/
def CallReturns (fec : Fec) (arrivals : List Arrival) (out : List Bytes) (fec' : Fec) : Prop :=
  ∃ data fec1 rest out1, fec.decodeData arrivals = .ok (data, fec1, rest) ∧
    fec1.flush.drain rest = .ok (out1, fec') ∧
    fec.dataCh ++ out = data.toList ++ (fec1.dataCh ++ out1) ∧
    (data = none → rest = [] ∧ fec1.dataCh = [] ∧ out1 = [])

theorem callReturns_waiting {arrivals : List Arrival} {fec fec' : Fec} {out : List Bytes}
    {data : Bytes} {dataCh : List Bytes} (hch : fec.dataCh = data :: dataCh)
    (h : fec.flush.drain arrivals = .ok (out, fec')) : CallReturns fec arrivals out fec' := by
  refine ⟨some data, fec.pop data dataCh, arrivals, out, decodeData_pop hch arrivals, ?_,
    by rw [hch]; rfl, nofun⟩
  have hflush : (fec.pop data dataCh).flush = fec.flush := by simp [Fec.pop, Fec.flush, hch]
  rw [hflush]
  exact h

/-- **One call of `DecodeData`** returns the first of what is to come. -/
theorem decodeData_drain : ∀ (arrivals : List Arrival) {fec fec' : Fec} {out : List Bytes},
    fec.flush.drain arrivals = .ok (out, fec') → CallReturns fec arrivals out fec' := by
  intro arrivals
  induction arrivals with
  | nil =>
    intro fec fec' out h
    cases hch : fec.dataCh with
    | cons data dataCh =>
      exact callReturns_waiting hch h
    | nil =>
      rw [flush_of_nil hch] at h
      cases h
      refine ⟨none, fec, [], [], decodeData_nil hch, ?_, by simp [hch], fun _ => ⟨rfl, hch, rfl⟩⟩
      rw [flush_of_nil hch]
      rfl
  | cons a arrivals ih =>
    intro fec fec' out h
    cases hch : fec.dataCh with
    | cons data dataCh =>
      exact callReturns_waiting hch h
    | nil =>
      rw [flush_of_nil hch] at h
      by_cases hlen : a.data.length = 0
      · rw [drain_skip _ hlen] at h
        obtain ⟨data, fec1, rest, out1, h1, h2, h3, h4⟩ := ih (by rw [flush_of_nil hch]; exact h)
        refine ⟨data, fec1, rest, out1, ?_, h2, h3, h4⟩
        rw [decodeData_skip hch hlen, h1]
      · rw [Fec.drain, if_neg hlen] at h
        obtain ⟨r, hr, h⟩ := bind_ok h
        obtain ⟨rest, hrest, h⟩ := bind_ok h
        cases h
        obtain ⟨data, fec1⟩ := r
        cases data with
        | some data =>
          exact ⟨some data, fec1, arrivals, rest.1, decodeData_data hch hlen hr arrivals, hrest,
            by simp [hch], nofun⟩
        | none =>
          obtain ⟨data, fec2, rest2, out2, h1, h2, h3, h4⟩ := ih hrest
          refine ⟨data, fec2, rest2, out2, ?_, h2, by simpa [hch] using h3, h4⟩
          rw [decodeData_parity hch hlen hr, h1]

/-- **`n` calls of `DecodeData`** return the first `n` payloads; when they return fewer, the
arrivals are consumed. -/
theorem decodeCalls_drain : ∀ (n : Nat) {fec fec' : Fec} {arrivals : List Arrival}
    {out : List Bytes}, fec.flush.drain arrivals = .ok (out, fec') →
    ∃ fec'' rest, Fec.decodeCalls n fec arrivals = .ok ((fec.dataCh ++ out).take n, fec'', rest) ∧
      ((fec.dataCh ++ out).length < n → rest = []) := by
  intro n
  induction n with
  | zero =>
    intro fec fec' arrivals out h
    exact ⟨fec, arrivals, rfl, fun h => absurd h (Nat.not_lt_zero _)⟩
  | succ n ih =>
    intro fec fec' arrivals out h
    obtain ⟨data, fec1, rest1, out1, h1, h2, h3, h4⟩ := decodeData_drain arrivals h
    unfold Fec.decodeCalls
    rw [h1, ok_bind]
    cases data with
    | none =>
      obtain ⟨hrest, hch, hout⟩ := h4 rfl
      refine ⟨fec1, rest1, ?_, fun _ => hrest⟩
      rw [h3, hch, hout]
      rfl
    | some data =>
      obtain ⟨fec2, rest2, hcalls, hend⟩ := ih h2
      dsimp only
      rw [hcalls, h3]
      refine ⟨fec2, rest2, rfl, fun hlt => hend ?_⟩
      rw [Option.toList_some, List.singleton_append, List.length_cons] at hlt
      omega

/-! ## More arrivals -/

/-- **A call and later arrivals**: one that found too few goes on with them, one that returned
leaves them alone. -/
theorem decodeData_append (xs : List Arrival) {fec fec' : Fec} {data : Option Bytes}
    {rest : List Arrival} (h : fec.decodeData xs = .ok (data, fec', rest)) :
    (data = none → fec'.dataCh = [] ∧ rest = [] ∧
      ∀ ys, fec.decodeData (xs ++ ys) = fec'.decodeData ys) ∧
    (data.isSome → ∀ ys, fec.decodeData (xs ++ ys) = .ok (data, fec', rest ++ ys)) := by
  refine decodeData_induct (P := fun fec xs data fec' rest =>
    (data = none → fec'.dataCh = [] ∧ rest = [] ∧
      ∀ ys, fec.decodeData (xs ++ ys) = fec'.decodeData ys) ∧
    (data.isSome → ∀ ys, fec.decodeData (xs ++ ys) = .ok (data, fec', rest ++ ys)))
    ?_ ?_ ?_ ?_ ?_ xs h
  · intro fec b dataCh xs hch
    exact ⟨nofun, fun _ ys => decodeData_pop hch _⟩
  · intro fec hch
    exact ⟨fun _ => ⟨hch, rfl, fun ys => rfl⟩, nofun⟩
  · intro fec a xs data fec' rest hch hlen ih
    simp only [List.cons_append, decodeData_skip hch hlen]
    exact ih
  · intro fec a xs b fec' hch hlen hd
    exact ⟨nofun, fun _ ys => decodeData_data hch hlen hd _⟩
  · intro fec a xs fec1 data fec' rest hch hlen hd ih
    simp only [List.cons_append, decodeData_parity hch hlen hd]
    exact ih

theorem decodeData_rest_nil {fec fec' : Fec} {data : Option Bytes} {rest : List Arrival}
    (h : fec.decodeData [] = .ok (data, fec', rest)) : rest = [] := by
  cases hch : fec.dataCh with
  | nil =>
    rw [decodeData_nil hch] at h
    cases h
    rfl
  | cons b dataCh =>
    rw [decodeData_pop hch] at h
    cases h
    rfl

theorem decodeData_rest_singleton {fec fec' : Fec} {a : Arrival} {data : Option Bytes}
    {rest : List Arrival} (hch : fec.dataCh = [])
    (h : fec.decodeData [a] = .ok (data, fec', rest)) : rest = [] := by
  by_cases hlen : a.data.length = 0
  · rw [decodeData_skip hch hlen] at h
    exact decodeData_rest_nil h
  cases hd : fec.decode a with
  | error e =>
    rw [decodeData_error hch hlen hd] at h
    cases h
  | ok r =>
    obtain ⟨data', fec1⟩ := r
    cases data' with
    | some b =>
      rw [decodeData_data hch hlen hd] at h
      cases h
      rfl
    | none =>
      rw [decodeData_parity hch hlen hd] at h
      exact decodeData_rest_nil h

theorem decodeCalls_append : ∀ (n : Nat) {fec fec' : Fec} {xs rest : List Arrival}
    {out : List Bytes}, Fec.decodeCalls n fec xs = .ok (out, fec', rest) → out.length = n →
    ∀ ys, Fec.decodeCalls n fec (xs ++ ys) = .ok (out, fec', rest ++ ys) := by
  intro n
  induction n with
  | zero =>
    intro fec fec' xs rest out h _ ys
    cases h
    rfl
  | succ n ih =>
    intro fec fec' xs rest out h hlen ys
    unfold Fec.decodeCalls at h ⊢
    obtain ⟨r, hr, h⟩ := bind_ok h
    obtain ⟨data, fec1, rest1⟩ := r
    cases data with
    | none =>
      cases h
      cases hlen
    | some data =>
      obtain ⟨r2, hr2, h⟩ := bind_ok h
      cases h
      rw [(decodeData_append xs hr).2 rfl ys, ok_bind]
      dsimp only
      rw [ih hr2 (by simpa using hlen) ys]
      rfl

theorem decodeCalls_succ : ∀ (n : Nat) {fec fec' fec'' : Fec} {xs rest rest' : List Arrival}
    {out : List Bytes} {data : Bytes}, Fec.decodeCalls n fec xs = .ok (out, fec', rest) →
    out.length = n → fec'.decodeData rest = .ok (some data, fec'', rest') →
    Fec.decodeCalls (n + 1) fec xs = .ok (out ++ [data], fec'', rest') := by
  intro n
  induction n with
  | zero =>
    intro fec fec' fec'' xs rest rest' out data h _ hd
    cases h
    rw [Fec.decodeCalls, hd]
    rfl
  | succ n ih =>
    intro fec fec' fec'' xs rest rest' out data h hlen hd
    rw [Fec.decodeCalls] at h ⊢
    obtain ⟨r, hr, h⟩ := bind_ok h
    obtain ⟨data', fec1, rest1⟩ := r
    cases data' with
    | none =>
      cases h
      cases hlen
    | some data' =>
      obtain ⟨r2, hr2, h⟩ := bind_ok h
      cases h
      rw [hr, ok_bind]
      dsimp only
      rw [ih hr2 (by simpa using hlen) hd]
      rfl

/-! ## The invariant rule -/

/-- **The invariant rule of `drain`**: an invariant of the state between arrivals, the arrivals left
and what has been returned. -/
theorem drain_rule {I : Fec → List Arrival → List Bytes → Prop}
    (step : ∀ fec a arrivals out, I fec (a :: arrivals) out → a.data.length ≠ 0 ∧
      ∃ data fec', fec.decode a = .ok (data, fec') ∧
        I fec'.flush arrivals (out ++ (data.toList ++ fec'.dataCh))) :
    ∀ (arrivals : List Arrival) (out : List Bytes) {fec : Fec}, I fec arrivals out →
      ∃ out' fec', fec.drain arrivals = .ok (out', fec') ∧ I fec' [] (out ++ out') := by
  intro arrivals
  induction arrivals with
  | nil =>
    intro out fec h
    exact ⟨[], fec, rfl, by rwa [List.append_nil]⟩
  | cons a arrivals ih =>
    intro out fec h
    obtain ⟨hlen, data, fec1, hd, h1⟩ := step fec a arrivals out h
    obtain ⟨out', fec2, hrest, h2⟩ := ih _ h1
    refine ⟨data.toList ++ fec1.dataCh ++ out', fec2, ?_, ?_⟩
    · rw [drain_decode _ hlen hd, hrest]
      rfl
    · rwa [← List.append_assoc]

/-! ## Arrivals of a stream -/

section
variable {codec : Codec UInt8} {d p : Nat} {ps : List Bytes}

theorem length_streamPacket_ne {k : Nat} {x : Bytes} (hx : streamPacket codec d p ps k = some x) :
    x.length ≠ 0 := by
  obtain ⟨shard, -, rfl⟩ := Option.map_eq_some_iff.1 hx
  simp [packet]

/-- A decoder between arrivals of the stream of `ps`. -/
structure Aligned (codec : Codec UInt8) (d p : Nat) (ps : List Bytes) (fec : Fec) : Prop where
  at_fec : FecAt codec d p fec
  limit : fec.decoder.rxlimit = 3 * (d + p)
  queue : Queue codec d p ps fec.decoder.rx
  drained : fec.dataCh = []

theorem Aligned.flush {fec : Fec} (hf : FecAt codec d p fec)
    (hlim : fec.decoder.rxlimit = 3 * (d + p)) (hq : Queue codec d p ps fec.decoder.rx) :
    Aligned codec d p ps fec.flush :=
  ⟨⟨hf.dec, hf.cap⟩, hlim, hq, rfl⟩

/-- **A packet of the stream decoded** by an aligned decoder: it is in the queue and nothing
changes, or it is inserted. -/
theorem aligned_step (hlaw : codec.Lawful d p) (h0 : 0 < d) (hd : d + p ≤ 256)
    (hpay : ∀ b ∈ ps, b.length ≤ maxPayload) (hcount : streamLength d p ps.length < 2 ^ 31)
    {fec : Fec} (h : Aligned codec d p ps fec) {a : Arrival} {k : Nat} (hk : k < 2 ^ 31)
    (hx : streamPacket codec d p ps k = some a.data) :
    ∃ pkt fec', pkt.seq = k ∧ wireSeqid a.data = k ∧ OfStream codec d p ps pkt ∧
      fec.decode a = .ok (streamPayload d p ps k, fec') ∧ Aligned codec d p ps fec'.flush ∧
      (((∃ q ∈ fec.decoder.rx, q.seq = k) ∧ fec' = fec) ∨
        (∀ q ∈ fec.decoder.rx, q.seq ≠ k) ∧
          ∃ i ts asm, Inserted d (blockOf d (k / (d + p)) ps) fec fec' pkt i ts asm) := by
  obtain ⟨pkt, fec', hseq, hwire, hpkt, hdec, hf', hcase⟩ :=
    stream_step hlaw h0 hd hpay h.at_fec h.queue.ofStream h.drained hk hx
  refine ⟨pkt, fec', hseq, hwire, hpkt, hdec, ?_, ?_⟩
  · apply Aligned.flush hf'
    · rw [hcase.rxlimit, h.limit]
    · rcases hcase with ⟨-, rfl⟩ | ⟨i, ts, asm, hI⟩
      · exact h.queue
      · rw [hI.decoder]
        exact (queue_step h.at_fec.dec h0 hd hcount h.queue hpkt hI.scan hI.gathered).1.sublist
          (limited_sublist _ _)
  · rcases hcase with ⟨⟨q, hq, hs⟩, he⟩ | ⟨i, ts, asm, hI⟩
    · exact .inl ⟨⟨q, hq, by rw [FecPacket.seq, hs, hseq]⟩, he⟩
    · have hlt : ∀ q ∈ fec.decoder.rx, q.seq < 2 ^ 31 := fun q hq => (h.queue.ofStream q hq).lt
      refine .inr ⟨fun q hq hqk => ?_, i, ts, asm, hI⟩
      exact compared_seq.scan_new h.queue.ordered hlt hpkt.lt hI.scan q hq (hqk.trans hseq.symm)

theorem aligned_new {rs : Nat → Nat → Option (Codec UInt8)} (h0 : 0 < d) (hp : 0 < p)
    (hd : d + p ≤ 256) (hrs : rs d p = some codec) (ps : List Bytes) {fec : Fec}
    (hnew : newFec rs d p 0 = some fec) :
    StreamAt codec d p fec.encoder [] ∧ Aligned codec d p ps fec ∧ fec.decoder.rx = [] := by
  obtain ⟨fec', hnew', hat, hf, hrx, hlim, hch⟩ := newFec_ok h0 hp hd hrs
  obtain rfl : fec' = fec := Option.some.inj (hnew'.symm.trans hnew)
  refine ⟨hat, ⟨hf, hlim, ⟨?_, ?_, ?_⟩, hch⟩, hrx⟩
  · rw [hrx]
    exact List.Pairwise.nil
  · simp [hrx]
  · intro b
    rw [hrx]
    exact h0

end

end Faketcp
