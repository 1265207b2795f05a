import TcpRaw.Fec.Proof.Drain
import TcpRaw.Listener.Proof.Registry
import TcpRaw.Listener.Read

/-!
# `FakeConn.Read` as a byte stream

`Read` cuts the slices of its source into the lengths its callers ask for. The source is `recvch`
without FEC and the calls of `DecodeData` with FEC (`Reading.source`); what the calls returned,
followed by `recvLeft`, is always the concatenation of what the source gave (`Lossless.stream`). A
call that waits has nothing left over, and with FEC its `DecodeData` call has consumed the slices
received since it started (`Fed`), so the calls of `DecodeData` are those on the slices in the order
they were pushed.

`lossless_step` keeps this at every step, `read_lossless` says it of every interleaving.
-/

namespace Faketcp

open GoRt Common Trans

/-- The slices that the calls of `Read` are served from. -/
def Reading.source (r : Reading) : List Bytes :=
  match r.fec with
  | none => r.received.map (·.data)
  | some _ => r.decoded

/-- The bytes that the calls returned. -/
def Reading.returned (r : Reading) : Bytes := (r.reads.map (·.data)).flatten

/-- The calls of `DecodeData` with `fec` on the slices received: those that returned, and the one
that waits. -/
def Fed (fec : Fec) (r : Reading) : Prop :=
  ∃ cur start pending, r.fec = some cur ∧
    Fec.decodeCalls r.decoded.length fec r.received = .ok (r.decoded, start, pending) ∧
    (r.waiting = none → start = cur ∧ pending = []) ∧
    (r.waiting.isSome → start.decodeData pending = .ok (none, cur, []))

/-- The calls keep to their buffers, the channel to its order, and the counters count. -/
structure Counted (r : Reading) : Prop where
  results : ∀ c ∈ r.reads, c.n ≤ c.len ∧ c.data.length = c.n
  channel : r.accepted = r.received.map (·.data) ++ r.conn.recvch
  rxBytes : r.rxBytes = UInt64.ofNat (r.reads.map (·.n)).sum
  dropRxBytes : r.conn.dropRxBytes = UInt64.ofNat r.refused.flatten.length

/-- What holds of a `FakeConn` that was made with `fec`. -/
structure Lossless (fec : Option Fec) (r : Reading) : Prop extends Counted r where
  kind : fec = none → r.fec = none
  stream : r.returned ++ r.recvLeft = r.source.flatten
  left : r.waiting.isSome → r.recvLeft = []
  fed : ∀ f, fec = some f → Fed f r

section
variable {fec : Option Fec} {r r' : Reading}

/-! ## A call returns -/

theorem returned_ret (r : Reading) (len : Nat) (data : Bytes) :
    (r.ret len data).returned ++ data.drop (min len data.length) = r.returned ++ data := by
  simp [Reading.ret, Reading.returned]

theorem Counted.ret (h : Counted r) (len : Nat) (data left : Bytes) :
    Counted { r.ret len data with recvLeft := left } where
  results c hc := by
    rcases List.mem_append.1 hc with hc | hc
    · exact h.results c hc
    · rw [List.mem_singleton.1 hc]
      exact ⟨Nat.min_le_left _ _, by simp⟩
  channel := h.channel
  rxBytes := by
    simp only [Reading.ret, h.rxBytes, List.map_append, List.sum_append, List.map_singleton,
      List.sum_singleton, UInt64.ofNat_add]
  dropRxBytes := h.dropRxBytes

theorem Counted.finish (h : Counted r) (len : Nat) (data : Bytes) : Counted (r.finish len data) :=
  h.ret len data _

/-- **The end of a call**: what `copy` left of the slice is in `recvLeft`. -/
theorem stream_finish (hleft : r.recvLeft = []) (len : Nat) {data : Bytes}
    (hstream : r.returned ++ data = r.source.flatten) :
    (r.finish len data).returned ++ (r.finish len data).recvLeft =
      (r.finish len data).source.flatten := by
  have hrest : (r.finish len data).recvLeft = data.drop (min len data.length) := by
    simp only [Reading.finish]
    split
    · rfl
    · rw [hleft, List.drop_eq_nil_of_le (by omega)]
  rw [hrest]
  exact (returned_ret r len data).trans hstream

/-! ## The steps -/

theorem lossless_new (addr : Peer) (fec : Option Fec) : Lossless fec (Reading.new addr fec) where
  results := nofun
  channel := rfl
  rxBytes := rfl
  dropRxBytes := rfl
  kind := id
  stream := by cases fec <;> rfl
  left := nofun
  fed f hf := ⟨f, f, [], hf, rfl, fun _ => ⟨rfl, rfl⟩, nofun⟩

theorem lossless_push (h : Lossless fec r) (now : Time) (b : Bytes) :
    Lossless fec (r.push now b) := by
  unfold Reading.push FakeConn.push
  by_cases hroom : r.conn.recvch.length < recvchCap
  · rw [if_pos hroom, if_pos hroom]
    exact ⟨⟨h.results, by rw [h.channel, List.append_assoc], h.rxBytes, h.dropRxBytes⟩, h.kind,
      h.stream, h.left, h.fed⟩
  · rw [if_neg hroom, if_neg hroom]
    refine ⟨⟨h.results, h.channel, h.rxBytes, ?_⟩, h.kind, h.stream, h.left, h.fed⟩
    rw [List.flatten_append, List.length_append, UInt64.ofNat_add, ← h.dropRxBytes,
      List.flatten_singleton]

/-- **`DecodeData` in a call** that was started on `start` and has received `pending`. -/
theorem lossless_decodeData {f cur start : Fec} {len : Nat} {slices pending : List Arrival}
    (hcount : Counted r) (hleft : r.recvLeft = []) (hstream : r.returned = r.decoded.flatten)
    (hcalls : Fec.decodeCalls r.decoded.length f r.received = .ok (r.decoded, start, pending))
    (hstart : start.decodeData pending = cur.decodeData slices)
    (hrest : ∀ data cur' rest, cur.decodeData slices = .ok (data, cur', rest) → rest = [])
    (hstep : r.decodeData len cur slices = .ok r') : Lossless (some f) r' := by
  unfold Reading.decodeData at hstep
  obtain ⟨d, hd, hstep⟩ := bind_ok hstep
  obtain ⟨data, cur', rest⟩ := d
  obtain rfl := hrest data cur' rest hd
  rw [hd] at hstart
  have hcount' : Counted (r.decode cur' data) :=
    ⟨hcount.results, hcount.channel, hcount.rxBytes, hcount.dropRxBytes⟩
  have hleft' : (r.decode cur' data).recvLeft = [] := hleft
  cases data with
  | none =>
    -- the call waits
    cases hstep
    refine ⟨⟨hcount'.results, hcount'.channel, hcount'.rxBytes, hcount'.dropRxBytes⟩, nofun, ?_,
      fun _ => hleft, fun f' hf' => ?_⟩
    · show r.returned ++ r.recvLeft = (r.decoded ++ []).flatten
      rw [hleft, List.append_nil, List.append_nil]
      exact hstream
    · obtain rfl := Option.some.inj hf'
      refine ⟨cur', start, pending, rfl, ?_, nofun, fun _ => hstart⟩
      show Fec.decodeCalls (r.decoded ++ []).length f r.received =
        .ok (r.decoded ++ [], start, pending)
      rwa [List.append_nil]
  | some data =>
    cases hstep
    refine ⟨hcount'.finish len data, nofun, stream_finish hleft' len ?_, nofun, fun f' hf' => ?_⟩
    · show r.returned ++ data = (r.decoded ++ [data]).flatten
      rw [hstream, List.flatten_append, List.flatten_singleton]
    · obtain rfl := Option.some.inj hf'
      refine ⟨cur', cur', [], rfl, ?_, fun _ => ⟨rfl, rfl⟩, nofun⟩
      show Fec.decodeCalls (r.decoded ++ [data]).length f r.received =
        .ok (r.decoded ++ [data], cur', [])
      rw [List.length_append, List.length_singleton]
      exact decodeCalls_succ r.decoded.length hcalls rfl hstart

theorem lossless_read (h : Lossless fec r) (hidle : r.waiting = none) {len : Nat}
    (hstep : r.read len = .ok r') : Lossless fec r' := by
  unfold Reading.read at hstep
  split at hstep
  · -- from what is left
    cases hstep
    exact ⟨h.toCounted.ret len r.recvLeft _, h.kind, (returned_ret r len _).trans h.stream, nofun,
      fun f hf => by
        obtain ⟨cur, start, pending, hcur, hcalls, hcase, -⟩ := h.fed f hf
        exact ⟨cur, start, pending, hcur, hcalls, fun _ => hcase hidle, nofun⟩⟩
  · rename_i hlen
    have hleft : r.recvLeft = [] := List.eq_nil_of_length_eq_zero (by omega)
    cases fec with
    | none =>
      rw [h.kind rfl] at hstep
      cases hstep
      exact ⟨⟨h.results, h.channel, h.rxBytes, h.dropRxBytes⟩, h.kind, h.stream, fun _ => hleft,
        nofun⟩
    | some f =>
      obtain ⟨cur, start, pending, hcur, hcalls, hcase, -⟩ := h.fed f rfl
      obtain ⟨rfl, rfl⟩ := hcase hidle
      rw [hcur] at hstep
      have hstream := h.stream
      rw [hleft, List.append_nil, Reading.source, hcur] at hstream
      exact lossless_decodeData h.toCounted hleft hstream hcalls rfl
        (fun _ _ _ hd => decodeData_rest_nil hd) hstep

theorem lossless_receive (h : Lossless fec r) {len : Nat} (hwait : r.waiting = some len)
    {a : Arrival} {recvch : List Bytes} (hch : r.conn.recvch = a.data :: recvch)
    (hstep : (r.recv a recvch).receive len a = .ok r') : Lossless fec r' := by
  have hleft := h.left (by rw [hwait]; rfl)
  have hstream := h.stream
  rw [hleft, List.append_nil] at hstream
  have hcount : Counted (r.recv a recvch) := by
    refine ⟨h.results, ?_, h.rxBytes, h.dropRxBytes⟩
    rw [Reading.recv, h.channel, hch]
    simp
  unfold Reading.receive at hstep
  cases fec with
  | none =>
    have hr : (r.recv a recvch).fec = none := h.kind rfl
    have hleft' : (r.recv a recvch).recvLeft = [] := hleft
    rw [hr] at hstep
    cases hstep
    refine ⟨hcount.finish len a.data, fun _ => hr, stream_finish hleft' len ?_, nofun, nofun⟩
    rw [Reading.source, h.kind rfl] at hstream
    rw [Reading.source, hr]
    show r.returned ++ a.data = ((r.received ++ [a]).map (·.data)).flatten
    rw [hstream, List.map_append, List.flatten_append]
    simp
  | some f =>
    obtain ⟨cur, start, pending, hcur, hcalls, -, hcase⟩ := h.fed f rfl
    have hnone := hcase (by rw [hwait]; rfl)
    obtain ⟨hdata, -, hmore⟩ := (decodeData_append pending hnone).1 rfl
    rw [show (r.recv a recvch).fec = some cur from hcur] at hstep
    rw [Reading.source, hcur] at hstream
    exact lossless_decodeData hcount hleft hstream (decodeCalls_append _ hcalls rfl [a]) (hmore _)
      (fun _ _ _ hd => decodeData_rest_singleton hdata hd) hstep

/-- **Each step keeps the stream.** -/
theorem lossless_step (h : Lossless fec r) {e : Reading.Event} (hstep : r.step e = .ok r') :
    Lossless fec r' := by
  cases e with
  | push now b =>
    cases hstep
    exact lossless_push h now b
  | read len =>
    simp only [Reading.step] at hstep
    cases hwait : r.waiting with
    | none =>
      rw [hwait] at hstep
      exact lossless_read h hwait hstep
    | some len' =>
      rw [hwait] at hstep
      cases hstep
      exact h
  | receive buf =>
    simp only [Reading.step] at hstep
    split at hstep
    · rename_i len b recvch hwait hch
      exact lossless_receive h hwait hch hstep
    · cases hstep
      exact h

end

/-- **`FakeConn.Read` is a lossless byte stream.** For every interleaving of `Push` and `Read` calls
on a new `FakeConn`, with any slices and buffer lengths: a call returns at most as many bytes as its
buffer holds; without FEC the bytes returned, followed by `recvLeft` and the contents of `recvch`,
are those of the slices that `Push` accepted, in order; with FEC the bytes returned, followed by
`recvLeft`, are those of the slices that `DecodeData` returned, and these are what as many calls on
the received slices return, which with the contents of `recvch` are the accepted ones. `rxBytes`
counts the bytes returned, `dropRxBytes` those of the slices that `Push` refused. -/
theorem read_lossless {addr : Peer} {fec : Option Fec} {r : Reading}
    (h : Reading.Reachable addr fec r) :
    (∀ c ∈ r.reads, c.n ≤ c.len ∧ c.data.length = c.n) ∧
      (fec = none → (r.reads.map (·.data)).flatten ++ r.recvLeft ++ r.conn.recvch.flatten =
        r.accepted.flatten) ∧
      (∀ f, fec = some f → (r.reads.map (·.data)).flatten ++ r.recvLeft = r.decoded.flatten ∧
        (∃ f' rest, Fec.decodeCalls r.decoded.length f r.received = .ok (r.decoded, f', rest)) ∧
        r.received.map (·.data) ++ r.conn.recvch = r.accepted) ∧
      r.rxBytes = UInt64.ofNat (r.reads.map (·.n)).sum ∧
      r.conn.dropRxBytes = UInt64.ofNat (r.refused.map List.length).sum := by
  have hl : Lossless fec r := h.invariant (fun s hs => hs ▸ lossless_new addr fec)
    fun s e t hs hstep => lossless_step hs hstep
  refine ⟨hl.results, fun hfec => ?_, fun f hf => ?_, hl.rxBytes, ?_⟩
  · have hstream := hl.stream
    rw [Reading.source, hl.kind hfec] at hstream
    rw [hl.channel, List.flatten_append, ← hstream]
    rfl
  · obtain ⟨cur, start, pending, hcur, hcalls, -, -⟩ := hl.fed f hf
    have hstream := hl.stream
    rw [Reading.source, hcur] at hstream
    exact ⟨hstream, ⟨start, pending, hcalls⟩, hl.channel.symm⟩
  · rw [hl.dropRxBytes, List.length_flatten]

/-- Three bytes pushed, read with a buffer of two and then of five bytes, and a read of an empty
slice with an empty buffer. -/
theorem read_lossless_cut :
    ∃ r : Reading, Reading.Reachable peerA none r ∧
      r.reads = [⟨2, 2, [1, 2]⟩, ⟨5, 1, [3]⟩, ⟨0, 0, []⟩] ∧
      (r.reads.map (·.data)).flatten ++ r.recvLeft ++ r.conn.recvch.flatten = r.accepted.flatten ∧
      r.rxBytes = UInt64.ofNat 3 := by
  have hrun : ((exec (fun r e => (Reading.step r e).toOption)
      [.push 0 [1, 2, 3], .read 2, .receive .new, .read 5, .push 1 [], .read 0, .receive .new]
      (Reading.new peerA none)).map (·.reads)) =
      some [⟨2, 2, [1, 2]⟩, ⟨5, 1, [3]⟩, ⟨0, 0, []⟩] := by decide +kernel
  obtain ⟨r, hr, hreads⟩ := Option.map_eq_some_iff.1 hrun
  have hreach : Reading.Reachable peerA none r :=
    Reach.exec (fun _ _ _ => ok_of_toOption) (.init rfl) hr
  obtain ⟨-, hstream, -, hrx, -⟩ := read_lossless hreach
  exact ⟨r, hreach, hreads, hstream rfl, by rw [hrx, hreads]; rfl⟩

end Faketcp
