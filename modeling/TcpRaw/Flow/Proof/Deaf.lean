import TcpRaw.Flow.Client
import TcpRaw.Lib.Trans
import Mathlib.Data.List.Induction

/-!
# Deaf clients

The entry of the remote is bound once, by `Dial`. It behaves as a lease (`lease_step`): a segment of
the remote renews it, the cleaner ends it after `expire` of silence, and the next segment opens a
new one, which nobody binds. So a dialed connection hears its remote throughout a run exactly if no
segment of the remote is captured after its entry has expired (`hears_remote_iff`). From then on the
segments of the remote are orphans, while `WriteTo` finds the new entry and sends.
-/

namespace Tcpraw

open GoRt Trans

/-! ## Leases -/

section
variable {conn : TcpConn} {k : AddrKey}

theorem TcpConn.lease_of_lookup {e : Nat} {flow : TcpFlow} (he : conn.table.lookup k = some e)
    {k' : AddrKey} (hf : conn.flows[e]? = some (k', flow)) :
    conn.lease k = some { conn := flow.conn, ts := flow.ts } := by
  simp [TcpConn.lease, he, hf]

theorem TcpConn.lease_congr {conn' : TcpConn} (ht : conn'.table = conn.table)
    (hf : conn'.flows = conn.flows) (k : AddrKey) : conn'.lease k = conn.lease k := by
  unfold TcpConn.lease
  rw [ht, hf]

theorem TcpConn.Owned.lookup_of_lease (h : conn.Owned) {l : Lease} (hl : conn.lease k = some l) :
    ∃ e flow, conn.table.lookup k = some e ∧ conn.flows[e]? = some (k, flow) ∧
      l = { conn := flow.conn, ts := flow.ts } := by
  obtain ⟨e, he, hl⟩ := Option.bind_eq_some_iff.1 hl
  obtain ⟨flow, hf⟩ := h k e he
  rw [hf] at hl
  cases hl
  exact ⟨e, flow, he, hf, rfl⟩

theorem TcpConn.Owned.lookup_of_lease_none (h : conn.Owned) (hl : conn.lease k = none) :
    conn.table.lookup k = none := by
  cases he : conn.table.lookup k with
  | none => rfl
  | some e =>
    obtain ⟨flow, hf⟩ := h k e he
    rw [TcpConn.lease_of_lookup he hf] at hl
    cases hl

theorem TcpConn.Owned.lease_lockflow (h : conn.Owned) (key : AddrKey) (now : Time) (k : AddrKey) :
    (conn.lockflow key now).2.lease k =
      if k = key ∧ conn.lease k = none then some { conn := none, ts := now } else conn.lease k := by
  cases hl : conn.lease k with
  | some l =>
    obtain ⟨e, flow, he, hf, rfl⟩ := h.lookup_of_lease hl
    have he' : (conn.lockflow key now).2.table.lookup k = some e := by
      rw [TcpConn.lookup_lockflow]
      split
      case isFalse => exact he
      case isTrue hk =>
        subst hk
        obtain ⟨⟨hl, -⟩ | ⟨hl, -⟩, -⟩ := conn.lockflow_cases k now
        · exact hl.symm.trans he
        · rw [he] at hl
          cases hl
    simpa using TcpConn.lease_of_lookup he' (TcpConn.lockflow_flow hf)
  | none =>
    have he := h.lookup_of_lease_none hl
    by_cases hk : k = key
    · subst hk
      obtain ⟨⟨hl, -⟩ | ⟨-, hptr, hf⟩, -⟩ := conn.lockflow_cases k now
      · rw [he] at hl
        cases hl
      · have hnew : (conn.lockflow k now).2.flows[(conn.lockflow k now).1]? =
            some (k, TcpFlow.new now) := by
          rw [hf, hptr]
          exact List.getElem?_concat_length
        have hlook := (conn.lookup_lockflow k now k).trans (if_pos rfl)
        exact (TcpConn.lease_of_lookup hlook hnew).trans (if_pos ⟨rfl, rfl⟩).symm
    · have hlook := (conn.lookup_lockflow key now k).trans (if_neg hk)
      simp [TcpConn.lease, hlook, he, hk]

theorem TcpConn.lease_modifyFlow_of {e : Nat} {g : TcpFlow → TcpFlow}
    (hg : ∀ k' flow, conn.flows[e]? = some (k', flow) →
      (g flow).conn = flow.conn ∧ (g flow).ts = flow.ts) (k : AddrKey) :
    (conn.modifyFlow e g).lease k = conn.lease k := by
  unfold TcpConn.lease
  congr 1
  funext i
  rw [TcpConn.getElem?_modifyFlow]
  split
  case isFalse => rfl
  case isTrue hi =>
    subst hi
    cases hf : conn.flows[i]? with
    | none => rfl
    | some x =>
      obtain ⟨k', flow⟩ := x
      obtain ⟨hc, ht⟩ := hg k' flow hf
      simp [hc, ht]

theorem TcpConn.Owned.lease_capture (h : conn.Owned) {key : AddrKey} {e : Nat}
    (he : conn.table.lookup key = some e) (tcp : Segment) (handle : Nat) (now : Time)
    (k : AddrKey) :
    (conn.modifyFlow e fun flow => flow.capture tcp handle now).lease k =
      if k = key then (conn.lease k).map fun l => { l with ts := now } else conn.lease k := by
  cases hi : conn.table.lookup k with
  | none =>
    have hnone : conn.lease k = none := by simp [TcpConn.lease, hi]
    rw [hnone]
    simp [TcpConn.lease, TcpConn.modifyFlow, hi]
  | some i =>
    obtain ⟨flow, hf⟩ := h k i hi
    have hi' :
        (conn.modifyFlow e fun flow => flow.capture tcp handle now).table.lookup k = some i := hi
    have hf' := conn.getElem?_modifyFlow e (fun flow => flow.capture tcp handle now) i
    rw [hf] at hf'
    rw [TcpConn.lease_of_lookup hi hf]
    by_cases hk : k = key
    · subst hk
      rw [he] at hi
      cases hi
      rw [if_pos rfl] at hf'
      rw [TcpConn.lease_of_lookup hi' hf']
      simp [TcpFlow.capture_conn, TcpFlow.capture_ts]
    · -- another key has another entry
      have hne : i ≠ e := fun hie => hk ((h k i hi).unique (hie ▸ h key e he))
      rw [if_neg hne] at hf'
      rw [TcpConn.lease_of_lookup hi' hf', if_neg hk]

theorem TcpConn.lease_clean (conn : TcpConn) (clock : AddrKey → Time) (k : AddrKey) :
    (conn.clean clock).lease k =
      (conn.lease k).filter fun l => decide (clock k ≤ l.ts + expire) := by
  unfold TcpConn.lease
  rw [TcpConn.lookup_clean, TcpConn.flows_clean]
  cases conn.table.lookup k with
  | none => rfl
  | some e =>
    cases hf : conn.flows[e]? with
    | none => simp [Option.filter_some, TcpConn.stale, staleIn, hf]
    | some x =>
      obtain ⟨k', flow⟩ := x
      by_cases ht : clock k ≤ flow.ts + expire
      · simp [Option.filter_some, TcpConn.stale, staleIn, hf, ht]
      · simp [Option.filter_some, TcpConn.stale, staleIn, hf, ht, Nat.lt_of_not_le ht]

/-- **`decodeTCPPacket`** of a segment for the port: it fetches an entry, renews it, and the segment
is an orphan exactly if the entry is not bound. -/
theorem TcpConn.decodeTCPPacket_spec (conn : TcpConn) {port : UInt16} (handle : Nat) (ip : UInt32)
    {tcp : Segment} (now : Time) (hport : tcp.dstPort = port) :
    let fetched := conn.lockflow { dip := ip, dport := tcp.srcPort } now
    let renewed := fetched.2.modifyFlow fetched.1 fun flow => flow.capture tcp handle now
    (conn.decodeTCPPacket port handle ip tcp now).2.table = renewed.table ∧
      (conn.decodeTCPPacket port handle ip tcp now).2.flows = renewed.flows ∧
      ((conn.decodeTCPPacket port handle ip tcp now).1 = .orphan ↔
        fetched.2.orphan fetched.1 = true) := by
  unfold TcpConn.decodeTCPPacket TcpConn.decodeSegment
  rw [if_neg (not_not.2 hport)]
  dsimp only
  cases ho : (conn.lockflow { dip := ip, dport := tcp.srcPort } now).2.orphan
      (conn.lockflow { dip := ip, dport := tcp.srcPort } now).1
  · simp only [Bool.false_eq_true, if_false]
    repeat' split
    all_goals simp
  · exact ⟨rfl, rfl, by simp⟩

theorem TcpConn.writeTo_keeps (conn : TcpConn) (lport : UInt16) (p : Bytes) (addr : AddrKey) :
    (conn.Owned → (conn.writeTo lport p addr).2.Owned) ∧
      ∀ k, (conn.writeTo lport p addr).2.lease k = conn.lease k := by
  unfold TcpConn.writeTo
  split
  · exact ⟨id, fun k => rfl⟩
  split
  · exact ⟨id, fun k => rfl⟩
  split
  · exact ⟨id, fun k => rfl⟩
  rename_i e _ _ flow hf
  split
  · exact ⟨id, fun k => rfl⟩
  case h_2 tcp flow' hemit =>
    refine ⟨fun h => h.modifyFlow _ _, TcpConn.lease_modifyFlow_of fun k' f hf' => ?_⟩
    rw [hf] at hf'
    cases hf'
    unfold TcpFlow.emit at hemit
    split at hemit
    · cases hemit
    · cases hemit
      exact ⟨rfl, rfl⟩

end

/-! ## The lease of the remote -/

section
variable {c : Client} {conn : TcpConn}

theorem remote_eq {tcp : Segment} (h : tcp.srcPort = c.remote.dport) :
    ({ dip := c.remote.dip, dport := tcp.srcPort } : AddrKey) = c.remote := by
  rw [h]

theorem decode_lease (h : conn.Owned) (tcp : Segment) (now : Time) :
    (c.decode conn tcp now).2.Owned ∧
      (c.decode conn tcp now).2.lease c.remote =
        c.renew (conn.lease c.remote) (.capture tcp now) := by
  by_cases hport : tcp.dstPort = c.lport
  · obtain ⟨htab, hflows, -⟩ := conn.decodeTCPPacket_spec c.handle c.remote.dip now hport
    have hfetch := h.lockflow { dip := c.remote.dip, dport := tcp.srcPort } now
    have hlook := (conn.lookup_lockflow { dip := c.remote.dip, dport := tcp.srcPort } now _).trans
      (if_pos rfl)
    constructor
    · intro k e he
      obtain ⟨flow, hf⟩ := hfetch.modifyFlow _ _ k e (htab ▸ he)
      exact ⟨flow, hflows ▸ hf⟩
    · have hlease := (TcpConn.lease_congr htab hflows c.remote).trans
        (hfetch.lease_capture hlook tcp c.handle now c.remote)
      refine hlease.trans ?_
      rw [h.lease_lockflow]
      by_cases hsrc : tcp.srcPort = c.remote.dport
      · rw [remote_eq hsrc]
        cases conn.lease c.remote <;> simp [Client.renew, Client.FromRemote, hport, hsrc]
      · have hne : c.remote ≠ { dip := c.remote.dip, dport := tcp.srcPort } :=
          fun hk => hsrc (congrArg AddrKey.dport hk).symm
        simp [Client.renew, Client.FromRemote, hsrc, hne]
  · have hother : (c.decode conn tcp now).2 = conn := by
      simp [Client.decode, TcpConn.decodeTCPPacket, TcpConn.decodeSegment, hport]
    rw [hother]
    exact ⟨h, by simp [Client.renew, Client.FromRemote, hport]⟩

/-- **One event of a dialed `tcpConn`** is an event of the lease of its remote. -/
theorem lease_step (h : conn.Owned) (e : ClientEvent) :
    (c.step conn e).Owned ∧ (c.step conn e).lease c.remote = c.renew (conn.lease c.remote) e := by
  cases e with
  | capture tcp now => exact decode_lease h tcp now
  | writeTo p addr =>
    obtain ⟨howned, hlease⟩ := conn.writeTo_keeps c.lport p addr
    exact ⟨howned h, hlease c.remote⟩
  | tick clock =>
    refine ⟨fun k e he => ?_, conn.lease_clean clock c.remote⟩
    change (conn.clean clock).table.lookup k = some e at he
    rw [TcpConn.lookup_clean, Option.filter_eq_some_iff] at he
    obtain ⟨flow, hf⟩ := h k e he.1
    exact ⟨flow, (conn.flows_clean clock).symm ▸ hf⟩

theorem dial_lease (c : Client) (t₀ : Time) :
    (c.dial t₀).Owned ∧ (c.dial t₀).lease c.remote = some { conn := some c.tcpconn, ts := t₀ } := by
  have hnew : (TcpConn.new 1 Nat.one_pos).Owned := by
    intro k e he
    rw [show (TcpConn.new 1 Nat.one_pos).table.lookup k = none from
      FlowTable.lookup_init 1 Nat.one_pos k] at he
    cases he
  refine ⟨(hnew.lockflow c.remote t₀).modifyFlow _ _, ?_⟩
  have hnone := FlowTable.lookup_init 1 Nat.one_pos c.remote
  simp [TcpConn.lease, Client.dial, TcpConn.lockflow, TcpConn.modifyFlow, TcpConn.new, hnone,
    FlowTable.lookup_store, TcpFlow.new]

/-- **Every run of a dialed `tcpConn`** is a run of the lease of its remote. -/
theorem lease_run (c : Client) (t₀ : Time) (es : List ClientEvent) :
    (es.foldl c.step (c.dial t₀)).Owned ∧ (es.foldl c.step (c.dial t₀)).lease c.remote =
      es.foldl c.renew (some { conn := some c.tcpconn, ts := t₀ }) := by
  obtain ⟨howned, hlease⟩ := dial_lease c t₀
  rw [← hlease]
  exact foldl_simulates (I := TcpConn.Owned) (α := fun conn => conn.lease c.remote)
    (fun _ e h => (lease_step h e).1) (fun _ e h => (lease_step h e).2) es _ howned

theorem bound_iff_lease (h : conn.Owned) :
    c.Bound conn ↔ ∀ l, conn.lease c.remote = some l → l.conn ≠ none := by
  constructor
  · intro hb l hl
    obtain ⟨e, flow, he, hf, rfl⟩ := h.lookup_of_lease hl
    obtain ⟨flow', hf', hn⟩ := hb e he
    rw [hf] at hf'
    cases hf'
    exact hn
  · intro hl e he
    obtain ⟨flow, hf⟩ := h c.remote e he
    exact ⟨flow, hf, hl _ (TcpConn.lease_of_lookup he hf)⟩

/-- A segment of the remote is an orphan exactly if the remote has no lease that is bound. -/
theorem orphan_iff_lease (h : conn.Owned) {tcp : Segment} (htcp : c.FromRemote tcp) (now : Time) :
    (c.decode conn tcp now).1 = .orphan ↔ (conn.lease c.remote).bind (·.conn) = none := by
  obtain ⟨hport, hsrc⟩ := htcp
  obtain ⟨-, -, horphan⟩ := conn.decodeTCPPacket_spec c.handle c.remote.dip now hport
  refine horphan.trans ?_
  rw [remote_eq hsrc]
  -- the orphan test reads the lease that `lockflow` left
  have hlook := (conn.lookup_lockflow c.remote now c.remote).trans (if_pos rfl)
  obtain ⟨flow, hf⟩ := h.lockflow c.remote now _ _ hlook
  have hlease := h.lease_lockflow c.remote now c.remote
  rw [TcpConn.lease_of_lookup hlook hf] at hlease
  cases hl : conn.lease c.remote with
  | none =>
    rw [hl, if_pos ⟨rfl, rfl⟩] at hlease
    simp only [Option.some.injEq, Lease.mk.injEq] at hlease
    simp [TcpConn.orphan, hf, hlease.1]
  | some l =>
    rw [hl, if_neg (by simp)] at hlease
    cases hlease
    simp [TcpConn.orphan, hf]

/-! ## Expiry -/

theorem lastSeen_concat (t₀ : Time) (es : List ClientEvent) (e : ClientEvent) :
    c.lastSeen t₀ (es ++ [e]) = (c.heard e).getD (c.lastSeen t₀ es) := by
  simp [Client.lastSeen]

theorem expired_concat {t₀ : Time} {es : List ClientEvent} {e : ClientEvent} :
    c.Expired t₀ (es ++ [e]) ↔ c.Expired t₀ es ∧ c.heard e = none ∨
      ∃ clock, e = .tick clock ∧ c.lastSeen t₀ es + expire < clock c.remote := by
  constructor
  · rintro ⟨pre, clock, post, hes, hlt, hpost⟩
    rcases List.eq_nil_or_concat post with rfl | ⟨post', e', rfl⟩
    · obtain ⟨rfl, he⟩ := List.append_inj' hes rfl
      exact .inr ⟨clock, (List.cons.inj he).1, hlt⟩
    · have hes' : es ++ [e] = (pre ++ .tick clock :: post') ++ [e'] := by simpa using hes
      obtain ⟨rfl, he⟩ := List.append_inj' hes' rfl
      cases he
      refine .inl ⟨⟨pre, clock, post', rfl, hlt, fun x hx => hpost x ?_⟩, hpost e ?_⟩
      · simp [hx]
      · simp
  · rintro (⟨⟨pre, clock, post, rfl, hlt, hpost⟩, he⟩ | ⟨clock, rfl, hlt⟩)
    · refine ⟨pre, clock, post ++ [e], by simp, hlt, fun x hx => ?_⟩
      rcases List.mem_append.1 hx with hx | hx
      · exact hpost x hx
      · rw [List.mem_singleton.1 hx]
        exact he
    · exact ⟨es, clock, [], rfl, hlt, by simp⟩

/-- The lease of a run: when it was renewed, and that it is gone exactly if it expired. -/
theorem renew_run (n : Option Nat) (t₀ : Time) (es : List ClientEvent) :
    (∀ l, es.foldl c.renew (some { conn := n, ts := t₀ }) = some l → l.ts = c.lastSeen t₀ es) ∧
      (es.foldl c.renew (some { conn := n, ts := t₀ }) = none ↔ c.Expired t₀ es) := by
  induction es using List.reverseRecOn with
  | nil => simp [Client.lastSeen, Client.Expired]
  | append_singleton es e ih =>
    obtain ⟨hts, hgone⟩ := ih
    rw [List.foldl_append, lastSeen_concat, expired_concat, List.foldl_cons, List.foldl_nil]
    cases e with
    | capture tcp now =>
      by_cases htcp : c.FromRemote tcp
      · simp [Client.renew, Client.heard, htcp]
      · simpa [Client.renew, Client.heard, htcp] using ⟨hts, hgone⟩
    | writeTo p addr => simpa [Client.renew, Client.heard] using ⟨hts, hgone⟩
    | tick clock =>
      cases hl : es.foldl c.renew (some { conn := n, ts := t₀ }) with
      | none => simp [Client.renew, Client.heard, hgone.1 hl]
      | some l =>
        have hne : ¬ c.Expired t₀ es := fun hx => by simp [hgone.2 hx] at hl
        have hl' := hts l hl
        by_cases ht : clock c.remote ≤ l.ts + expire
        · simp [Client.renew, Client.heard, Option.filter_some, ht, hne, ← hl']
        · simp [Client.renew, Client.heard, Option.filter_some, ht, ← hl', Nat.lt_of_not_le ht]

theorem lease_bound (c : Client) (t₀ : Time) {es : List ClientEvent}
    (hquiet : ∀ pre tcp now post, es = pre ++ .capture tcp now :: post → c.FromRemote tcp →
      ¬ c.Expired t₀ pre) :
    ∀ pre post, es = pre ++ post → ∀ l,
      pre.foldl c.renew (some { conn := some c.tcpconn, ts := t₀ }) = some l →
        l.conn = some c.tcpconn := by
  intro pre
  induction pre using List.reverseRecOn with
  | nil =>
    intro post _ l hl
    cases hl
    rfl
  | append_singleton pre e ih =>
    intro post hes l hl
    have hes' : es = pre ++ e :: post := by simpa using hes
    have ih := ih _ hes'
    rw [List.foldl_append, List.foldl_cons, List.foldl_nil] at hl
    cases e with
    | capture tcp now =>
      by_cases htcp : c.FromRemote tcp
      · -- the lease is there, and is renewed
        have hnot := hquiet pre tcp now post hes' htcp
        rw [← (renew_run (some c.tcpconn) t₀ pre).2] at hnot
        obtain ⟨l', hl'⟩ := Option.ne_none_iff_exists'.1 hnot
        rw [hl'] at hl
        simp only [Client.renew, htcp, if_true, Option.some.injEq] at hl
        rw [← hl]
        exact ih l' hl'
      · simp only [Client.renew, htcp, if_false] at hl
        exact ih l hl
    | writeTo p addr => exact ih l hl
    | tick clock => exact ih l (Option.filter_eq_some_iff.1 hl).1

end

/-- **A dialed connection is deaf after a silence.** Throughout a run the entry of the remote is
bound and no segment of the remote is an orphan, exactly if no segment of the remote is captured
when its entry has expired. -/
theorem hears_remote_iff (c : Client) (t₀ : Time) (es : List ClientEvent) :
    (Always c.step c.Bound (c.dial t₀) es ∧
      ∀ pre tcp now post, es = pre ++ .capture tcp now :: post → c.FromRemote tcp →
        (c.decode (pre.foldl c.step (c.dial t₀)) tcp now).1 ≠ .orphan) ↔
      ∀ pre tcp now post, es = pre ++ .capture tcp now :: post → c.FromRemote tcp →
        ¬ c.Expired t₀ pre := by
  constructor
  · rintro ⟨-, hno⟩ pre tcp now post hes htcp hexp
    obtain ⟨howned, hlease⟩ := lease_run c t₀ pre
    apply hno pre tcp now post hes htcp
    rw [orphan_iff_lease howned htcp, hlease, (renew_run _ t₀ pre).2.2 hexp]
    rfl
  · intro hquiet
    have hbound := lease_bound c t₀ hquiet
    refine ⟨fun pre post hes => ?_, fun pre tcp now post hes htcp horphan => ?_⟩
    · obtain ⟨howned, hlease⟩ := lease_run c t₀ pre
      rw [bound_iff_lease howned, hlease]
      intro l hl
      simp [hbound pre post hes l hl]
    · obtain ⟨howned, hlease⟩ := lease_run c t₀ pre
      rw [orphan_iff_lease howned htcp, hlease] at horphan
      cases hl : pre.foldl c.renew (some { conn := some c.tcpconn, ts := t₀ }) with
      | none => exact hquiet pre tcp now post hes htcp ((renew_run _ t₀ pre).2.1 hl)
      | some l =>
        rw [hl] at horphan
        simp [hbound pre _ hes l hl] at horphan

/-- A client of 10.0.0.1:80. -/
def deafClient : Client where
  lport := 4000
  remote := { dip := 0x0a000001, dport := 80 }
  tcpconn := 1
  handle := 0

/-- A data segment of its remote. -/
def deafSegment : Segment where
  srcPort := 80
  dstPort := 4000
  SYN := false
  ACK := true
  PSH := true
  seq := 1
  ack := 1
  payload := [42]

/-- The remote is heard after a second, and then silent over two ticks of the cleaner. -/
def deafRun : TcpConn :=
  [.capture deafSegment second, .tick fun _ => 33 * second, .tick fun _ => 66 * second].foldl
    deafClient.step (deafClient.dial 0)

/-- After the silence the next segment of the remote is an orphan and reaches nobody, its entry is
not bound, and `WriteTo` to the remote still sends. -/
theorem dialed_deaf :
    let heard := deafClient.decode deafRun deafSegment (70 * second)
    deafClient.FromRemote deafSegment ∧ heard.1 = .orphan ∧
      heard.2.chMessage = deafRun.chMessage ∧ ¬ deafClient.Bound heard.2 ∧
      (heard.2.writeTo 4000 [7] deafClient.remote).1 =
        .sent ⟨4000, 80, false, true, true, 1, 0, [7]⟩ := by
  refine ⟨by decide, by decide +kernel, by decide +kernel, ?_, by decide +kernel⟩
  intro hbound
  have hlook : (deafClient.decode deafRun deafSegment (70 * second)).2.table.lookup
      deafClient.remote = some 1 := by
    decide +kernel
  have hconn : ((deafClient.decode deafRun deafSegment (70 * second)).2.flows[1]?).map (·.2.conn) =
      some none := by
    decide +kernel
  obtain ⟨flow, hf, hn⟩ := hbound 1 hlook
  rw [hf] at hconn
  exact hn (Option.some.inj hconn)

end Tcpraw
