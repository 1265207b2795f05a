import TcpRaw.Firewall.Proof.DropRule
import TcpRaw.Lib.Ledger

/-!
# What closing leaves in the chains

Each chain is a ledger (`Lib/Ledger`): a connection owns the rule that it recorded, if it is open.
The rules against resets are appended and never recorded, so they are the loose additions of the
IPv4 chain, and the IPv6 chain has none (`Book`, kept by every operation). Once all connections are
closed the IPv6 chain is the old one, and the IPv4 chain is the old one exactly if it had all of
those rules before (`chains_restored_iff`).
-/

namespace Tcpraw

open Ledger

/-! ## Rules by their first argument -/

/-- The rule that an operation appends without recording it. -/
def Op.resetRule : Op → Option Rule
  | .dial a => some (rstRule a)
  | .listen port => some (listenRstRule port)
  | .close _ => none

theorem head_resetRule {op : Op} {r : Rule} (h : op.resetRule = some r) : r.head? = some "-p" := by
  cases op with
  | dial a =>
    cases h
    rfl
  | listen port =>
    cases h
    rfl
  | close i => cases h

/-! ## Who owns a rule -/

/-- The rule that connection `i` will delete on `Close`. -/
def recorded (rule : Conn → Option Rule) (conns : List Conn) (i : Nat) : Option Rule :=
  (conns[i]?).bind fun c => if c.closed then none else rule c

section
variable {rule : Conn → Option Rule} {conns : List Conn} {c : Conn} {i : Nat}

theorem recorded_append_self (hc : c.closed = false) :
    recorded rule (conns ++ [c]) conns.length = rule c := by
  simp [recorded, hc]

theorem recorded_append_ne (h : i ≠ conns.length) :
    recorded rule (conns ++ [c]) i = recorded rule conns i := by
  unfold recorded
  rw [List.getElem?_append]
  split
  · rfl
  · rw [List.getElem?_eq_none (l := conns) (by omega), List.getElem?_eq_none (by
      rw [List.length_singleton]
      omega)]

theorem recorded_length : recorded rule conns conns.length = none := by
  simp [recorded]

theorem recorded_of_open (hi : conns[i]? = some c) (hc : c.closed = false) :
    recorded rule conns i = rule c := by
  simp [recorded, hi, hc]

theorem recorded_set_self (hi : conns[i]? = some c) :
    recorded rule (conns.set i { c with closed := true }) i = none := by
  rw [recorded, List.getElem?_set_self (List.getElem?_eq_some_iff.1 hi).1]
  rfl

theorem recorded_set_ne {j : Nat} (h : j ≠ i) (x : Conn) :
    recorded rule (conns.set i x) j = recorded rule conns j := by
  rw [recorded, recorded, List.getElem?_set_ne (Ne.symm h)]

end

/-! ## One chain -/

section
variable {base chain : Chain} {rule : Conn → Option Rule} {conns : List Conn} {loose : Rule → Prop}

/-- A new connection ensures a rule, and records it if it was missing. -/
theorem kept_ensure (h : Kept base chain (recorded rule conns) loose) (r : Rule) {c : Conn}
    (hc : c.closed = false) (hrule : rule c = (chain.ensure r).2) :
    Kept base (chain.ensure r).1 (recorded rule (conns ++ [c])) loose := by
  rcases ensure_cases chain r with ⟨-, he⟩ | ⟨hnot, he⟩
  · rw [he] at hrule ⊢
    apply h.mono _ fun a ha => ha
    intro i
    by_cases hi : i = conns.length
    · rw [hi, recorded_append_self hc, hrule, recorded_length]
    · exact recorded_append_ne hi
  · rw [he] at hrule ⊢
    apply h.add_owned hnot (i := conns.length)
    · rw [recorded_append_self hc, hrule]
    · exact recorded_length
    · intro j hj
      exact recorded_append_ne hj

theorem kept_ensure_loose {owner : Nat → Option Rule} (h : Kept base chain owner loose) {r : Rule}
    (hr : loose r) : Kept base (chain.ensure r).1 owner loose := by
  rcases ensure_cases chain r with ⟨-, he⟩ | ⟨hnot, he⟩
  · rw [he]
    exact h
  · rw [he]
    exact h.add_loose hnot hr

/-- A connection is closed and releases the rule that it recorded. -/
theorem kept_release (h : Kept base chain (recorded rule conns) loose) {i : Nat} {c : Conn}
    (hi : conns[i]? = some c) (hc : c.closed = false) :
    Kept base (chain.release (rule c)) (recorded rule (conns.set i { c with closed := true }))
      loose := by
  have hown : recorded rule conns i = rule c := recorded_of_open hi hc
  have hrest : ∀ j, j ≠ i →
      recorded rule (conns.set i { c with closed := true }) j = recorded rule conns j :=
    fun j hj => recorded_set_ne hj _
  cases hr : rule c with
  | none =>
    apply h.mono _ fun a ha => ha
    intro j
    by_cases hj : j = i
    · rw [hj, recorded_set_self hi, hown, hr]
    · exact hrest j hj
  | some r => exact h.remove (hown.trans hr) (recorded_set_self hi) hrest

end

/-! ## Both chains -/

/-- The chains of a host after the operations `done`. -/
structure Book (c4 c6 : Chain) (done : List Op) (h : Host) : Prop where
  out4 : Kept c4 h.out4 (recorded Conn.iprule h.conns) fun r => ∃ op ∈ done, op.resetRule = some r
  out6 : Kept c6 h.out6 (recorded Conn.ip6rule h.conns) fun _ => False
  resets : ∀ op ∈ done, ∀ r, op.resetRule = some r → r ∈ h.out4
  /-- No connection records a rule against resets. -/
  kinds : ∀ i r, recorded Conn.iprule h.conns i = some r → r.head? = some "-m"

section
variable {c4 c6 : Chain} {done : List Op} {h : Host}

theorem book_addConn (hb : Book c4 c6 done h) {op : Op} {client : Bool} {ttl rst hl : Rule}
    (hrst : op.resetRule = some rst) (httl : ttl.head? = some "-m") :
    Book c4 c6 (done ++ [op]) (h.addConn client ttl rst hl) := by
  have hloose : ∀ r, (∃ op ∈ done, op.resetRule = some r) →
      ∃ op' ∈ done ++ [op], op'.resetRule = some r := by
    rintro r ⟨op', hop', hr⟩
    exact ⟨op', List.mem_append_left _ hop', hr⟩
  refine ⟨?_, kept_ensure hb.out6 hl rfl rfl, fun op' hop' r hr => ?_, fun i r hi => ?_⟩
  · apply kept_ensure_loose
    · apply Kept.mono _ (fun i => rfl) hloose
      exact kept_ensure hb.out4 ttl rfl rfl
    · exact ⟨op, by simp, hrst⟩
  · rcases List.mem_append.1 hop' with hop' | hop'
    · apply mem_out4_addConn
      have hmem := hb.resets op' hop' r hr
      rcases ensure_cases h.out4 ttl with ⟨-, he⟩ | ⟨-, he⟩
      · rw [he]
        exact hmem
      · rw [he]
        exact List.mem_append_left _ hmem
    · obtain rfl := List.mem_singleton.1 hop'
      rw [hrst] at hr
      cases hr
      exact mem_ensure _ _
  · rw [conns_addConn] at hi
    by_cases hlen : i = h.conns.length
    · rw [hlen, recorded_append_self rfl] at hi
      rcases ensure_cases h.out4 ttl with ⟨-, he⟩ | ⟨-, he⟩
      · rw [he] at hi
        cases hi
      · rw [he] at hi
        cases hi
        exact httl
    · rw [recorded_append_ne hlen] at hi
      exact hb.kinds i r hi

theorem book_close (hb : Book c4 c6 done h) (i : Nat) :
    Book c4 c6 (done ++ [.close i]) (h.close i) := by
  have hloose : ∀ r, (∃ op ∈ done, op.resetRule = some r) →
      ∃ op ∈ done ++ [Op.close i], op.resetRule = some r := by
    rintro r ⟨op, hop, hr⟩
    exact ⟨op, List.mem_append_left _ hop, hr⟩
  have hold : ∀ op ∈ done ++ [Op.close i], ∀ r, op.resetRule = some r → r ∈ h.out4 := by
    intro op hop r hr
    rcases List.mem_append.1 hop with hop | hop
    · exact hb.resets op hop r hr
    · rw [List.mem_singleton.1 hop] at hr
      cases hr
  rcases close_cases h i with ⟨he, -⟩ | ⟨c, hc, hcl, he⟩
  · rw [he]
    exact ⟨hb.out4.mono (fun _ => rfl) hloose, hb.out6, hold, hb.kinds⟩
  · rw [he]
    refine ⟨(kept_release hb.out4 hc hcl).mono (fun _ => rfl) hloose, kept_release hb.out6 hc hcl,
      fun op hop r hr => ?_, fun j r hj => ?_⟩
    · -- what is released is no rule against resets
      have hne : c.iprule ≠ some r := by
        intro hcr
        have hm := hb.kinds i r ((recorded_of_open hc hcl).trans hcr)
        rw [head_resetRule hr] at hm
        exact absurd hm (by decide)
      rw [← List.count_pos_iff]
      dsimp only
      rw [count_release hne, List.count_pos_iff]
      exact hold op hop r hr
    · by_cases hji : j = i
      · rw [hji, recorded_set_self hc] at hj
        cases hj
      · rw [recorded_set_ne hji] at hj
        exact hb.kinds j r hj

/-- **One operation keeps the books.** -/
theorem book_step (hb : Book c4 c6 done h) (op : Op) : Book c4 c6 (done ++ [op]) (h.step op) := by
  cases op with
  | dial a => exact book_addConn hb rfl rfl
  | listen port => exact book_addConn hb rfl rfl
  | close i => exact book_close hb i

theorem book_run : ∀ (ops : List Op) {done : List Op} {h : Host}, Book c4 c6 done h →
    Book c4 c6 (done ++ ops) (h.run ops)
  | [], done, h, hb => by
    rw [List.append_nil]
    exact hb
  | op :: ops, done, h, hb => by
    have hrun := book_run ops (book_step hb op)
    rw [List.append_assoc] at hrun
    exact hrun

theorem book_init (c4 c6 : Chain) : Book c4 c6 [] (Host.init c4 c6) where
  out4 := Kept.refl c4 _
  out6 := Kept.refl c6 _
  resets _ h := by cases h
  kinds _ _ h := by cases h

theorem Book.restored_iff (hb : Book c4 c6 done h) (hclosed : ∀ c ∈ h.conns, c.closed = true) :
    (h.out4 = c4 ∧ h.out6 = c6) ↔ ∀ op ∈ done, ∀ r, op.resetRule = some r → r ∈ c4 := by
  have hnone : ∀ rule i, recorded rule h.conns i = none := by
    intro rule i
    rw [recorded, Option.bind_eq_none_iff]
    intro c hc
    rw [if_pos (hclosed c (List.mem_of_getElem? hc))]
  obtain ⟨mine4, h4, hmine4⟩ := hb.out4.settled (hnone _)
  obtain ⟨mine6, h6, hmine6⟩ := hb.out6.settled (hnone _)
  have hnil6 : mine6 = [] :=
    List.eq_nil_iff_forall_not_mem.2 fun a ha => (hmine6 a ha).2
  constructor
  · rintro ⟨he, -⟩ op hop r hr
    rw [← he]
    exact hb.resets op hop r hr
  · intro hall
    have hnil4 : mine4 = [] := by
      refine List.eq_nil_iff_forall_not_mem.2 fun a ha => ?_
      obtain ⟨hnot, op, hop, hr⟩ := hmine4 a ha
      exact hnot (hall op hop a hr)
    rw [h4, h6, hnil4, hnil6]
    simp

end

/-! ## After closing everything -/

theorem iptablesReset_eq_run (h : Host) (order : List Nat) :
    h.iptablesReset order = h.run (order.map .close) := by
  rw [Host.iptablesReset, Host.run, List.foldl_map]
  rfl

/-- What is open after a close was open before and is another connection. -/
theorem open_close {h : Host} {k i : Nat} {c : Conn} (hc : (h.close k).conns[i]? = some c)
    (hcl : c.closed = false) : i ≠ k ∧ h.conns[i]? = some c := by
  unfold Host.close at hc
  cases hk : h.conns[k]? with
  | none =>
    rw [hk] at hc
    refine ⟨?_, hc⟩
    rintro rfl
    rw [show h.conns[i]? = some c from hc] at hk
    cases hk
  | some x =>
    rw [hk] at hc
    dsimp only at hc
    by_cases hik : i = k
    · subst hik
      split at hc
      · rename_i hx
        rw [hk] at hc
        cases hc
        rw [hcl] at hx
        cases hx
      · dsimp only at hc
        rw [List.getElem?_set_self (List.getElem?_eq_some_iff.1 hk).1] at hc
        cases hc
        cases hcl
    · refine ⟨hik, ?_⟩
      split at hc
      · exact hc
      · dsimp only at hc
        rwa [List.getElem?_set_ne (Ne.symm hik)] at hc

theorem open_iptablesReset {i : Nat} {c : Conn} : ∀ (order : List Nat) {h : Host},
    (h.iptablesReset order).conns[i]? = some c → c.closed = false →
      i ∉ order ∧ h.conns[i]? = some c
  | [], _, hc, _ => ⟨List.not_mem_nil, hc⟩
  | k :: order, h, hc, hcl => by
    obtain ⟨hnot, hc⟩ := open_iptablesReset order (h := h.close k) hc hcl
    obtain ⟨hik, hc⟩ := open_close hc hcl
    exact ⟨fun hmem => (List.mem_cons.1 hmem).elim hik hnot, hc⟩

theorem closed_iptablesReset {h : Host} {order : List Nat} (horder : order.Perm h.connList) :
    ∀ c ∈ (h.iptablesReset order).conns, c.closed = true := by
  intro c hmem
  obtain ⟨i, hc⟩ := List.mem_iff_getElem?.1 hmem
  by_contra hcl
  obtain ⟨hnot, hc⟩ := open_iptablesReset order hc (by simpa using hcl)
  apply hnot
  rw [horder.mem_iff, Host.connList, List.mem_filter, List.mem_range]
  exact ⟨(List.getElem?_eq_some_iff.1 hc).1, by simp [hc, hcl]⟩

/-- **What closing restores.** For every sequence of operations from any chains, whether all
connections have been closed or `IPTablesReset` has run after it: both chains are what they were
before exactly if the IPv4 chain had the rule against resets of every `Dial` and `Listen` already.
The old rules are in place at any time. -/
theorem chains_restored_iff (c4 c6 : Chain) (ops : List Op) :
    let h := (Host.init c4 c6).run ops
    ((∀ c ∈ h.conns, c.closed = true) →
        ((h.out4 = c4 ∧ h.out6 = c6) ↔ ∀ op ∈ ops, ∀ r, op.resetRule = some r → r ∈ c4)) ∧
      (∀ order, order.Perm h.connList →
        (((h.iptablesReset order).out4 = c4 ∧ (h.iptablesReset order).out6 = c6) ↔
          ∀ op ∈ ops, ∀ r, op.resetRule = some r → r ∈ c4)) ∧
      c4 <+: h.out4 ∧ c6 <+: h.out6 := by
  intro h
  have hbook : Book c4 c6 ops h := book_run ops (book_init c4 c6)
  refine ⟨hbook.restored_iff, fun order horder => ?_, ?_, ?_⟩
  · have hreset : Book c4 c6 (ops ++ order.map .close) (h.iptablesReset order) := by
      rw [iptablesReset_eq_run]
      exact book_run _ hbook
    rw [hreset.restored_iff (closed_iptablesReset horder)]
    constructor
    · intro hall op hop
      exact hall op (List.mem_append_left _ hop)
    · intro hall op hop r hr
      rcases List.mem_append.1 hop with hop | hop
      · exact hall op hop r hr
      · obtain ⟨i, -, rfl⟩ := List.mem_map.1 hop
        cases hr
  · obtain ⟨mine, he, -⟩ := hbook.out4.added
    exact ⟨mine, he.symm⟩
  · obtain ⟨mine, he, -⟩ := hbook.out6.added
    exact ⟨mine, he.symm⟩

/-- A remote whose rule against resets is in the chain from before. -/
def knownRemote : DialAddr := ⟨"10.0.0.1", "40000", "10.0.0.9", 80⟩

/-- A connection to a remote with a rule in the chain is dialed and closed. -/
theorem chains_restored_known :
    let h := (Host.init [rstRule knownRemote] []).run [.dial knownRemote, .close 0]
    (h.out4 = [rstRule knownRemote] ∧ h.out6 = []) ∧
      ((∀ c ∈ h.conns, c.closed = true) →
        ((h.out4 = [rstRule knownRemote] ∧ h.out6 = []) ↔
          ∀ op ∈ [Op.dial knownRemote, .close 0], ∀ r, op.resetRule = some r →
            r ∈ [rstRule knownRemote])) := by
  intro h
  have hall := chains_restored_iff [rstRule knownRemote] [] [.dial knownRemote, .close 0]
  have hclosed : ∀ c ∈ h.conns, c.closed = true := by decide +kernel
  refine ⟨(hall.1 hclosed).2 ?_, hall.1⟩
  intro op hop r hr
  rcases List.mem_cons.1 hop with rfl | hop
  · cases hr
    exact List.mem_singleton_self _
  · rw [List.mem_singleton.1 hop] at hr
    cases hr

/-- **A rule stays behind**: after a `Dial` and its `Close` on a host without rules, the chain has
the rule against resets. -/
theorem chains_not_restored :
    let h := (Host.init [] []).run [.dial knownRemote, .close 0]
    (∀ c ∈ h.conns, c.closed = true) ∧ h.out4 = [rstRule knownRemote] ∧ h.out4 ≠ [] := by
  decide +kernel

end Tcpraw
