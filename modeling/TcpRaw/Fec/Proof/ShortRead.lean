import TcpRaw.Fec.Proof.Mirror
import TcpRaw.Fec.ReedSolomon21
import TcpRaw.Fec.Proof.Encode

/-!
# Short reads do no harm to packets that they cover

The two calls of `DecodeData` of a client and its twin take the same messages (`mirror_decodeData`),
so the two stay in step over a run of careful calls (`matched_step`): `short_reads_match` says what
each call of such a run delivers, and that a call which starves panics. `short_reads_damage` is a
run with a call that is not careful.
-/

namespace Faketcp

open GoRt Erasure Keyed Trans

section
variable {codec : Codec UInt8} {d p : Nat} {ps : List Bytes}

/-! ## Calls -/

/-- What a call with a buffer of `m` bytes decodes, next to what its twin is given. -/
inductive Shown (ps : List Bytes) (m : Nat) : Option Bytes → Option Bytes → Prop
  | none : Shown ps m none none
  | restored {b : Bytes} : b ∈ ps → Shown ps m (some b) (some b)
  | cut {b : Bytes} : b ∈ ps → Shown ps m (some (b.take m)) (some b)

theorem length_readFrom_ne {k : Nat} {a : Arrival} (hx : streamPacket codec d p ps k = some a.data)
    (n : Nat) : (a.readFrom (n + fecHeaderSizePlus2)).data.length ≠ 0 := by
  have := length_streamPacket_ne hx
  show (a.data.take _).length ≠ 0
  rw [List.length_take]
  unfold fecHeaderSizePlus2
  omega

/-- What a call of `DecodeData` in each of the two comes to: both take the messages of `inbox` up to
`left`. -/
def SameCall (codec : Codec UInt8) (d p : Nat) (ps : List Bytes) (m M : Nat) (inbox : List Arrival)
    (f g : Fec) : Prop :=
  ∃ (data full : Option Bytes) (f' g' : Fec) (left : List Arrival),
    f.decodeData (inbox.map (Arrival.readFrom (m + fecHeaderSizePlus2))) =
      .ok (data, f', left.map (Arrival.readFrom (m + fecHeaderSizePlus2))) ∧
    g.decodeData (inbox.map (Arrival.readFrom (M + fecHeaderSizePlus2))) =
      .ok (full, g', left.map (Arrival.readFrom (M + fecHeaderSizePlus2))) ∧
    Mirror codec d p ps f' g' ∧ Shown ps m data full

theorem Mirror.sameCall_pop {f g : Fec} (h : Mirror codec d p ps f g) {b : Bytes}
    {dataCh : List Bytes} (hch : f.dataCh = b :: dataCh) (m M : Nat) (inbox : List Arrival) :
    SameCall codec d p ps m M inbox f g := by
  have hch' : g.dataCh = b :: dataCh := h.ready ▸ hch
  exact ⟨_, _, _, _, inbox, decodeData_pop hch _, decodeData_pop hch' _, h.pop hch',
    .restored (h.sent b (by rw [hch']; exact List.mem_cons_self))⟩

/-- **One call of `DecodeData` in both**, by induction on the messages that wait: a parity packet
goes to both decoders and the loop goes on. -/
theorem mirror_decodeData (H : Coding codec d p ps) {m M : Nat} (hM : mtuLimit ≤ M) :
    ∀ (inbox : List Arrival) {f g : Fec}, Mirror codec d p ps f g →
    (∀ a ∈ inbox, ∃ k < 2 ^ 31, streamPacket codec d p ps k = some a.data) →
    (∀ x ∈ f.decodings (inbox.map (Arrival.readFrom (m + fecHeaderSizePlus2))),
      x.1.Covers d p ps x.2) →
    SameCall codec d p ps m M inbox f g := by
  intro inbox
  induction inbox with
  | nil =>
    intro f g h _ _
    cases hch : f.dataCh with
    | cons b dataCh => exact h.sameCall_pop hch m M []
    | nil => exact ⟨_, _, _, _, [], decodeData_nil hch, decodeData_nil (h.ready ▸ hch), h, .none⟩
  | cons a inbox ih =>
    intro f g h hin hcov
    cases hch : f.dataCh with
    | cons b dataCh => exact h.sameCall_pop hch m M (a :: inbox)
    | nil =>
      have hch' : g.dataCh = [] := h.ready ▸ hch
      obtain ⟨k, hk, hx⟩ := hin a List.mem_cons_self
      have hne := length_readFrom_ne hx
      rw [List.map_cons, Fec.decodings, if_pos hch, if_neg (hne m)] at hcov
      obtain ⟨f', g', hdec, hdec', hmirror⟩ :=
        mirror_decode H h hch hk hx hM (hcov _ List.mem_cons_self)
      unfold SameCall
      rw [List.map_cons, List.map_cons]
      cases hpl : streamPayload d p ps k with
      | some b =>
        rw [hpl] at hdec hdec'
        exact ⟨_, _, f', g', inbox, decodeData_data hch (hne m) hdec _,
          decodeData_data hch' (hne M) hdec' _, hmirror, .cut (mem_of_streamPayload hpl)⟩
      | none =>
        rw [hpl] at hdec hdec'
        rw [decodeData_parity hch (hne m) hdec, decodeData_parity hch' (hne M) hdec']
        refine ih hmirror (fun a' ha' => hin a' (List.mem_cons_of_mem _ ha')) fun x hx' => hcov x ?_
        rw [hdec]
        exact List.mem_cons_of_mem _ hx'

/-- **A call up to a packet that starves** panics. -/
theorem starve_decodeData (H : Coding codec d p ps) {m : Nat} :
    ∀ (inbox : List Arrival) {f g : Fec}, Mirror codec d p ps f g →
    (∀ a ∈ inbox, ∃ k < 2 ^ 31, streamPacket codec d p ps k = some a.data) →
    ∀ {pre post : List (Fec × Arrival)} {x : Fec × Arrival},
      f.decodings (inbox.map (Arrival.readFrom (m + fecHeaderSizePlus2))) = pre ++ x :: post →
      (∀ y ∈ pre, y.1.Covers d p ps y.2) → x.1.Starves d p ps x.2 →
      ∃ e, f.decodeData (inbox.map (Arrival.readFrom (m + fecHeaderSizePlus2))) = .error e := by
  intro inbox
  induction inbox with
  | nil =>
    intro f g _ _ pre post x hpre
    cases pre <;> cases hpre
  | cons a inbox ih =>
    intro f g h hin pre post x hpre hcov hst
    rw [List.map_cons] at hpre ⊢
    rw [Fec.decodings] at hpre
    by_cases hch : f.dataCh = []
    · obtain ⟨k, hk, hx⟩ := hin a List.mem_cons_self
      have hne := length_readFrom_ne hx m
      rw [if_pos hch, if_neg hne] at hpre
      cases pre with
      | nil =>
        obtain ⟨rfl, -⟩ := List.cons.inj hpre
        obtain ⟨e, he⟩ := starve_decode H h.short h.queue hk hx rfl hst
        exact ⟨e, decodeData_error hch hne he _⟩
      | cons y pre =>
        obtain ⟨rfl, hrest⟩ := List.cons.inj hpre
        obtain ⟨f', g', hdec, -, hmirror⟩ := mirror_decode H h hch hk hx
          (Nat.le_refl _) (hcov _ List.mem_cons_self)
        rw [hdec] at hrest
        cases hpl : streamPayload d p ps k with
        | some b =>
          rw [hpl] at hrest
          cases pre <;> cases hrest
        | none =>
          rw [hpl] at hrest hdec
          rw [decodeData_parity hch hne hdec]
          exact ih hmirror (fun a' ha' => hin a' (List.mem_cons_of_mem _ ha')) hrest
            (fun y hy => hcov y (List.mem_cons_of_mem _ hy)) hst
    · rw [if_neg hch] at hpre
      cases pre <;> cases hpre

theorem read_decodeData {c : Client} {fec fec' : Fec} (hfec : c.fec = some fec) {b : Bytes}
    {inbox rest : List Arrival} {data : Option Bytes}
    (h : fec.decodeData (inbox.map (Arrival.readFrom (b.length + fecHeaderSizePlus2))) =
      .ok (data, fec', rest)) :
    ∃ c', c'.fec = some fec' ∧ c.read b inbox =
      .ok (data.map fun x => (x.length, copyTo b x), c',
        inbox.drop (inbox.length - rest.length)) := by
  unfold Client.read
  rw [hfec]
  dsimp only
  rw [h, ok_bind]
  cases data with
  | none => exact ⟨_, rfl, rfl⟩
  | some x => exact ⟨_, rfl, rfl⟩

theorem take_copyTo (b x : Bytes) : (copyTo b x).take x.length = x.take b.length := by
  unfold copyTo
  rcases Nat.le_total x.length b.length with hle | hle
  · rw [List.take_of_length_le hle, List.take_left]
  · rw [List.drop_of_length_le hle, List.append_nil, List.take_take, Nat.min_eq_right hle]

/-- A client and its twin between calls. -/
structure Matched (codec : Codec UInt8) (d p : Nat) (ps : List Bytes) (t : Twin) : Prop where
  inbox : t.short.inbox = t.ample.inbox
  emitted : ∀ a ∈ t.short.inbox, ∃ k < 2 ^ 31, streamPacket codec d p ps k = some a.data
  fecs : ∃ f g, t.short.client.fec = some f ∧ t.ample.client.fec = some g ∧ Mirror codec d p ps f g

theorem length_widen (b : Bytes) : (widen b).length = b.length + mtuLimit := by
  rw [widen, List.length_append, List.length_replicate]

/-- **One careful call of `Read` in both.** -/
theorem matched_read (H : Coding codec d p ps) {t : Twin} (h : Matched codec d p ps t) {b : Bytes}
    (hb : t.Careful d p ps (.read b)) :
    ∃ (data full : Option Bytes) (c c' : Client) (f g : Fec) (inbox : List Arrival),
      t.short.client.read b t.short.inbox =
        .ok (data.map fun x => (x.length, copyTo b x), c, inbox) ∧
      t.ample.client.read (widen b) t.ample.inbox =
        .ok (full.map fun x => (x.length, copyTo (widen b) x), c', inbox) ∧
      c.fec = some f ∧ c'.fec = some g ∧ Mirror codec d p ps f g ∧ Shown ps b.length data full ∧
      ∀ a ∈ inbox, a ∈ t.short.inbox := by
  obtain ⟨f, g, hf, hg, hmirror⟩ := h.fecs
  obtain ⟨data, full, f', g', left, hdec, hdec', hmirror', hshown⟩ :=
    mirror_decodeData H (m := b.length) (M := (widen b).length) (by rw [length_widen]; omega)
      t.short.inbox hmirror h.emitted (hb f (by rw [hf]; rfl))
  obtain ⟨c, hc, hread⟩ := read_decodeData hf hdec
  rw [h.inbox] at hdec'
  obtain ⟨c', hc', hread'⟩ := read_decodeData hg hdec'
  rw [List.length_map] at hread hread'
  rw [← h.inbox] at hread'
  rw [← h.inbox]
  exact ⟨data, full, c, c', f', g', _, hread, hread', hc, hc', hmirror', hshown,
    fun a ha => List.mem_of_mem_drop ha⟩

/-! ## Every run -/

theorem stepCarefully_ok {sent : List Bytes} {t t' : Twin} {e : Reader.Event}
    (h : t.stepCarefully d p ps sent e = some t') :
    Twin.Possible sent e ∧ t.Careful d p ps e ∧ t.step e = .ok t' := by
  unfold Twin.stepCarefully at h
  split at h
  · rename_i hc
    exact ⟨hc.1, hc.2, ok_of_toOption h⟩
  · cases h

theorem matched_step (H : Coding codec d p ps) {sent : List Bytes}
    (hsent : ∀ x ∈ sent, ∃ k < 2 ^ 31, streamPacket codec d p ps k = some x) {t t' : Twin}
    {e : Reader.Event} (h : Matched codec d p ps t)
    (hstep : t.stepCarefully d p ps sent e = some t') : Matched codec d p ps t' := by
  obtain ⟨hposs, hcare, hstep⟩ := stepCarefully_ok hstep
  cases e with
  | arrive a =>
    cases hstep
    refine ⟨congrArg (· ++ [a]) h.inbox, fun a' ha' => ?_, h.fecs⟩
    rcases List.mem_append.1 ha' with ha' | ha'
    · exact h.emitted a' ha'
    · rw [List.mem_singleton.1 ha']
      exact hsent _ hposs
  | read b =>
    obtain ⟨data, full, c, c', f, g, inbox, hread, hread', hf, hg, hmirror, -, hsub⟩ :=
      matched_read H h hcare
    obtain ⟨short, hshort, hstep⟩ := bind_ok hstep
    obtain ⟨ample, hample, hstep⟩ := bind_ok hstep
    cases hstep
    obtain ⟨res, hres, hshort⟩ := bind_ok hshort
    rw [hread] at hres
    cases hres
    cases hshort
    obtain ⟨res', hres', hample⟩ := bind_ok hample
    rw [hread'] at hres'
    cases hres'
    cases hample
    exact ⟨rfl, fun a ha => h.emitted a (hsub a ha), f, g, hf, hg, hmirror⟩

theorem matched_reachable (H : Coding codec d p ps) {fec : Fec} (hf : FecAt codec d p fec)
    (hrx : fec.decoder.rx = []) (hch : fec.dataCh = []) {sent : List Bytes}
    (hsent : ∀ x ∈ sent, ∃ k < 2 ^ 31, streamPacket codec d p ps k = some x) {t : Twin}
    (ht : Twin.CarefullyReachable d p ps sent fec t) : Matched codec d p ps t := by
  refine Reach.invariant ?_ ?_ ht
  · rintro s rfl
    exact ⟨rfl, nofun, fec, fec, rfl, rfl, .new hf hrx hch⟩
  · exact fun s e s' hs hstep => matched_step H hsent hs hstep

/-- **A starved call panics.** -/
theorem matched_starved (H : Coding codec d p ps) {t : Twin} (h : Matched codec d p ps t)
    {b : Bytes} (hb : t.Starved d p ps b) :
    ∃ e, t.short.client.read b t.short.inbox = .error e := by
  obtain ⟨f, hfec, x, hfind, hst⟩ := hb
  obtain ⟨f', g, hf', -, hmirror⟩ := h.fecs
  obtain rfl : f = f' := Option.some.inj (hfec.symm.trans hf')
  obtain ⟨-, pre, post, hpre, hcov⟩ := List.find?_eq_some_iff_append.1 hfind
  obtain ⟨e, he⟩ := starve_decodeData H t.short.inbox hmirror h.emitted hpre
    (fun y hy => by simpa using hcov y hy) hst
  refine ⟨e, ?_⟩
  unfold Client.read
  rw [hfec]
  dsimp only
  rw [he]
  rfl

/-- **When short reads do no harm.** A client with FEC and its twin make the same calls of `Read`,
the client with buffers of any lengths, while packets that the peer's encoder sent arrive in any
order, some never, some more than once. As long as each payload that is restored lies within what
was read of each packet it is restored from, a call does not panic, the bytes it delivers are the
beginning of the payload that the twin is given, which was encoded, and the same restored payloads
wait for later calls. Where a payload is restored to whose end no packet of its block was read, the
call panics. -/
theorem short_reads_match {rs : Nat → Nat → Option (Codec UInt8)} (hrs : rs d p = some codec)
    (hlaw : codec.Lawful d p) (hcol : codec.Columnwise) (h0 : 1 ≤ d) (hp : 1 ≤ p) (hd : d + p ≤ 256)
    (hpay : ∀ b ∈ ps, b.length ≤ mtuLimit - 8) (hcount : streamLength d p ps.length < 2 ^ 31)
    {fec fec' : Fec} {fails : Nat → Bool} {wire : Wire} (hnew : newFec rs d p 0 = some fec)
    (henc : fec.encodeCalls Wire.send ps (Wire.new fails) = .ok (fec', wire)) {t : Twin}
    (ht : Twin.CarefullyReachable d p ps wire.sent fec t) (b : Bytes) :
    (t.Careful d p ps (.read b) → ∃ res full c c' inbox,
      t.short.client.read b t.short.inbox = .ok (res, c, inbox) ∧
      t.ample.client.read (widen b) t.ample.inbox = .ok (full, c', inbox) ∧
      c.recovered = c'.recovered ∧
      ((res = none ∧ full = none) ∨ ∃ x ∈ ps, ∃ n b', full = some (x.length, copyTo (widen b) x) ∧
        res = some (n, b') ∧ b'.take n = x.take b.length)) ∧
    (t.Starved d p ps b → ∃ e, t.short.client.read b t.short.inbox = .error e) := by
  have H : Coding codec d p ps := ⟨hlaw, hcol, h0, hd, hpay, hcount⟩
  obtain ⟨fec₀, hnew₀, hat, hf, hrx, -, hch⟩ := newFec_ok h0 hp hd hrs
  obtain rfl : fec₀ = fec := Option.some.inj (hnew₀.symm.trans hnew)
  obtain ⟨fec₁, wire₁, hrun, -, hsent⟩ :=
    encodeCalls_stream hlaw h0 hp hd ps (Wire.new fails) hat hpay
  rw [hrun, Except.ok.injEq] at henc
  cases henc
  have hemitted : ∀ x ∈ wire.sent, ∃ k < 2 ^ 31, streamPacket codec d p ps k = some x := by
    intro x hx
    rcases hsent x hx with h | ⟨k, hk, hx⟩
    · cases h
    · exact ⟨k, Nat.lt_trans hk hcount, hx⟩
  have hmatched := matched_reachable H hf hrx hch hemitted ht
  constructor
  · intro hcare
    obtain ⟨data, full, c, c', f, g, inbox, hread, hread', hfc, hgc, hmirror, hshown, -⟩ :=
      matched_read H hmatched hcare
    refine ⟨_, _, c, c', inbox, hread, hread', ?_, ?_⟩
    · rw [Client.recovered, Client.recovered, hfc, hgc]
      exact hmirror.ready
    · cases hshown with
      | none => exact .inl ⟨rfl, rfl⟩
      | @restored x hx => exact .inr ⟨x, hx, x.length, copyTo b x, rfl, rfl, take_copyTo b x⟩
      | @cut x hx =>
        refine .inr ⟨x, hx, _, _, rfl, rfl, ?_⟩
        rw [take_copyTo, List.take_take, Nat.min_self]
  · exact matched_starved H hmatched

end

/-- Two runs with the codec of two data shards and one parity shard, whose first calls have a buffer
of one byte. The first data packet of `[7, 7, 7]` and `[8]` is cut to it, which is all that the lost
payload `[8]` needs; that of `[1, 2, 3]` and `[4, 5, 6]` and their parity packet are cut to it, and
neither goes to the end of the lost payload. -/
theorem short_reads_match_rs21 :
    (∃ fec fec' wire t, newFec newRs21 2 1 0 = some fec ∧
      fec.encodeCalls Wire.send [[7, 7, 7], [8]] (Wire.new fun _ => false) = .ok (fec', wire) ∧
      Twin.CarefullyReachable 2 1 [[7, 7, 7], [8]] wire.sent fec t ∧ t.short.taken ≠ [] ∧
      ∃ res full c c' inbox, t.short.client.read [0, 0] t.short.inbox = .ok (res, c, inbox) ∧
        t.ample.client.read (widen [0, 0]) t.ample.inbox = .ok (full, c', inbox) ∧
        c.recovered = c'.recovered ∧ ((res = none ∧ full = none) ∨
          ∃ x ∈ ([[7, 7, 7], [8]] : List Bytes), ∃ n b',
            full = some (x.length, copyTo (widen [0, 0]) x) ∧ res = some (n, b') ∧
            b'.take n = x.take 2)) ∧
    ∃ fec fec' wire t e, newFec newRs21 2 1 0 = some fec ∧
      fec.encodeCalls Wire.send [[1, 2, 3], [4, 5, 6]] (Wire.new fun _ => false) =
        .ok (fec', wire) ∧
      Twin.CarefullyReachable 2 1 [[1, 2, 3], [4, 5, 6]] wire.sent fec t ∧
      t.short.client.read [0] t.short.inbox = .error e := by
  have hrs : newRs21 2 1 = some rs21 := rfl
  have hrun : ((newFec newRs21 2 1 0).bind fun fec =>
      (fec.encodeCalls Wire.send [[7, 7, 7], [8]]
        (Wire.new fun _ => false)).toOption.bind fun enc =>
      (exec (Twin.stepCarefully 2 1 [[7, 7, 7], [8]] enc.2.sent)
        [.arrive ⟨[0, 0, 0, 0, 0xf1, 0, 5, 0, 7, 7, 7], .new⟩, .read [0],
          .arrive ⟨[2, 0, 0, 0, 0xf2, 0, 9, 0, 25, 9, 9], .new⟩] (Twin.new fec)).map fun t =>
        (decide (t.Careful 2 1 [[7, 7, 7], [8]] (.read [0, 0])), t.short.taken.length)) =
      some (true, 1) := by decide +kernel
  have hrun' : ((newFec newRs21 2 1 0).bind fun fec =>
      (fec.encodeCalls Wire.send [[1, 2, 3], [4, 5, 6]]
        (Wire.new fun _ => false)).toOption.bind fun enc =>
      (exec (Twin.stepCarefully 2 1 [[1, 2, 3], [4, 5, 6]] enc.2.sent)
        [.arrive ⟨[0, 0, 0, 0, 0xf1, 0, 5, 0, 1, 2, 3], .new⟩, .read [0],
          .arrive ⟨[2, 0, 0, 0, 0xf2, 0, 5, 0, 11, 12, 9], .new⟩] (Twin.new fec)).map fun t =>
        decide (t.Starved 2 1 [[1, 2, 3], [4, 5, 6]] [0])) = some true := by decide +kernel
  obtain ⟨fec, hnew, hrun⟩ := Option.bind_eq_some_iff.1 hrun
  obtain ⟨enc, henc, hrun⟩ := Option.bind_eq_some_iff.1 hrun
  obtain ⟨t, ht, hrun⟩ := Option.map_eq_some_iff.1 hrun
  obtain ⟨hcare, htaken⟩ := Prod.mk.inj hrun
  obtain ⟨fec₁, hnew₁, hrun'⟩ := Option.bind_eq_some_iff.1 hrun'
  obtain ⟨enc₁, henc₁, hrun'⟩ := Option.bind_eq_some_iff.1 hrun'
  obtain ⟨t₁, ht₁, hstarved⟩ := Option.map_eq_some_iff.1 hrun'
  have hreach : Twin.CarefullyReachable 2 1 [[7, 7, 7], [8]] enc.2.sent fec t :=
    Reach.exec (fun _ _ _ h => h) (.init rfl) ht
  have hreach₁ : Twin.CarefullyReachable 2 1 [[1, 2, 3], [4, 5, 6]] enc₁.2.sent fec₁ t₁ :=
    Reach.exec (fun _ _ _ h => h) (.init rfl) ht₁
  obtain ⟨e, he⟩ :=
    (short_reads_match hrs rs21_lawful rs21_columnwise (by decide) (by decide) (by decide)
      (by decide) (by decide) hnew₁ (ok_of_toOption henc₁) hreach₁ [0]).2
      (of_decide_eq_true hstarved)
  refine ⟨⟨fec, enc.1, enc.2, t, hnew, ok_of_toOption henc, hreach, fun h => ?_, ?_⟩,
    fec₁, enc₁.1, enc₁.2, t₁, e, hnew₁, ok_of_toOption henc₁, hreach₁, he⟩
  · rw [h] at htaken
    cases htaken
  · exact (short_reads_match hrs rs21_lawful rs21_columnwise (by decide) (by decide) (by decide)
      (by decide) (by decide) hnew (ok_of_toOption henc) hreach [0, 0]).1 (of_decide_eq_true hcare)

/-- **A short read damages another packet.** The payloads `[1, 2, 3]` and `[4, 5, 6]` are encoded,
the second data packet is lost. A call with a buffer of one byte takes the first data packet. The
next call gets bytes that nobody sent; had the first one had room for its packet, it would get
`[4, 5, 6]`. With a buffer of one byte the next call panics. -/
theorem short_reads_damage :
    ∃ fec fec' wire r r' c c' inbox inbox' e, newFec newRs21 2 1 0 = some fec ∧
      fec.encodeCalls Wire.send [[1, 2, 3], [4, 5, 6]] (Wire.new fun _ => false) =
        .ok (fec', wire) ∧
      [0, 0, 0, 0, 0xf1, 0, 5, 0, 1, 2, 3] ∈ wire.sent ∧
      [2, 0, 0, 0, 0xf2, 0, 5, 0, 11, 12, 9] ∈ wire.sent ∧
      exec (fun r e => (Reader.step r e).toOption)
        [.arrive ⟨[0, 0, 0, 0, 0xf1, 0, 5, 0, 1, 2, 3], .new⟩, .read [0],
          .arrive ⟨[2, 0, 0, 0, 0xf2, 0, 5, 0, 11, 12, 9], .new⟩]
        ⟨newClient (some fec), [], []⟩ = some r ∧
      exec (fun r e => (Reader.step r e).toOption)
        [.arrive ⟨[0, 0, 0, 0, 0xf1, 0, 5, 0, 1, 2, 3], .new⟩, .read [0, 0, 0],
          .arrive ⟨[2, 0, 0, 0, 0xf2, 0, 5, 0, 11, 12, 9], .new⟩]
        ⟨newClient (some fec), [], []⟩ = some r' ∧
      r.client.read [0, 0, 0] r.inbox = .ok (some (3, [4, 6, 138]), c, inbox) ∧
      r'.client.read [0, 0, 0] r'.inbox = .ok (some (3, [4, 5, 6]), c', inbox') ∧
      r.client.read [0] r.inbox = .error e := by
  have hrun : ((newFec newRs21 2 1 0).bind fun fec =>
      (fec.encodeCalls Wire.send [[1, 2, 3], [4, 5, 6]]
        (Wire.new fun _ => false)).toOption.bind fun enc =>
      (exec (fun r e => (Reader.step r e).toOption)
        [.arrive ⟨[0, 0, 0, 0, 0xf1, 0, 5, 0, 1, 2, 3], .new⟩, .read [0],
          .arrive ⟨[2, 0, 0, 0, 0xf2, 0, 5, 0, 11, 12, 9], .new⟩]
        ⟨newClient (some fec), [], []⟩).bind fun r =>
      (exec (fun r e => (Reader.step r e).toOption)
        [.arrive ⟨[0, 0, 0, 0, 0xf1, 0, 5, 0, 1, 2, 3], .new⟩, .read [0, 0, 0],
          .arrive ⟨[2, 0, 0, 0, 0xf2, 0, 5, 0, 11, 12, 9], .new⟩]
        ⟨newClient (some fec), [], []⟩).bind fun r' =>
      (r.client.read [0, 0, 0] r.inbox).toOption.bind fun res =>
      (r'.client.read [0, 0, 0] r'.inbox).toOption.map fun res' =>
        (decide ([0, 0, 0, 0, 0xf1, 0, 5, 0, 1, 2, 3] ∈ enc.2.sent ∧
          [2, 0, 0, 0, 0xf2, 0, 5, 0, 11, 12, 9] ∈ enc.2.sent ∧
          (r.client.read [0] r.inbox).toOption.isNone), [res.1, res'.1])) =
      some (true, [some (3, [4, 6, 138]), some (3, [4, 5, 6])]) := by decide +kernel
  obtain ⟨fec, hnew, hrun⟩ := Option.bind_eq_some_iff.1 hrun
  obtain ⟨enc, henc, hrun⟩ := Option.bind_eq_some_iff.1 hrun
  obtain ⟨r, hr, hrun⟩ := Option.bind_eq_some_iff.1 hrun
  obtain ⟨r', hr', hrun⟩ := Option.bind_eq_some_iff.1 hrun
  obtain ⟨res, hres, hrun⟩ := Option.bind_eq_some_iff.1 hrun
  obtain ⟨res', hres', hrun⟩ := Option.map_eq_some_iff.1 hrun
  obtain ⟨out, c, inbox⟩ := res
  obtain ⟨out', c', inbox'⟩ := res'
  simp only [Prod.mk.injEq, decide_eq_true_eq, List.cons.injEq, and_true] at hrun
  obtain ⟨⟨h0, h2, hpanic⟩, rfl, rfl⟩ := hrun
  cases hread : r.client.read [0] r.inbox with
  | ok res =>
    rw [hread] at hpanic
    cases hpanic
  | error e =>
    exact ⟨fec, enc.1, enc.2, r, r', c, c', inbox, inbox', e, hnew, ok_of_toOption henc, h0, h2, hr,
      hr', ok_of_toOption hres, ok_of_toOption hres', hread⟩

end Faketcp
