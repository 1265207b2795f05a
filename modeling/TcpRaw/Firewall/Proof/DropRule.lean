import TcpRaw.Firewall.Rules
import TcpRaw.Lib.Trans

/-!
# The shared drop rule

All dialed connections rely on one rule, `ttlRule`, but only the connection that appended it deletes
it. At most one open connection owns the rule, and then the chain has it once (`Sole`), so closing
the owner takes the rule away from every other connection: the rule protects the open connections
throughout a run exactly if each owner is closed when no other dialed connection is open
(`dropRule_protects_iff`).
-/

namespace Tcpraw

open Trans

/-! ## Chains -/

theorem ensure_cases (c : Chain) (rule : Rule) :
    rule ∈ c ∧ c.ensure rule = (c, none) ∨ rule ∉ c ∧ c.ensure rule = (c ++ [rule], some rule) := by
  unfold Chain.ensure Chain.ruleExists Chain.append
  by_cases h : rule ∈ c
  · exact .inl ⟨h, if_pos (by simpa using h)⟩
  · exact .inr ⟨h, if_neg (by simpa using h)⟩

theorem mem_ensure (c : Chain) (rule : Rule) : rule ∈ (c.ensure rule).1 := by
  rcases ensure_cases c rule with ⟨h, he⟩ | ⟨-, he⟩
  · rw [he]
    exact h
  · simp [he]

theorem count_ensure {rule t : Rule} (hne : rule ≠ t) (c : Chain) :
    (c.ensure rule).1.count t = c.count t := by
  rcases ensure_cases c rule with ⟨-, he⟩ | ⟨-, he⟩
  · rw [he]
  · rw [he, List.count_append, List.count_singleton]
    simp [hne]

theorem count_release {o : Option Rule} {t : Rule} (ho : o ≠ some t) (c : Chain) :
    (c.release o).count t = c.count t := by
  cases o with
  | none => rfl
  | some rule => exact List.count_erase_of_ne (fun h => ho (by rw [h]))

theorem ne_ttlRule {rule : Rule} (h : 8 < rule.length) : rule ≠ ttlRule := by
  rintro rfl
  exact absurd h (by decide)

/-! ## Owners -/

/-- Connection `i` is open and will delete `ttlRule`. -/
def Owner (conns : List Conn) (i : Nat) : Prop :=
  ∃ c, conns[i]? = some c ∧ c.closed = false ∧ c.iprule = some ttlRule

/-- Connection `i` was dialed and is open. -/
def OpenDialed (conns : List Conn) (i : Nat) : Prop :=
  ∃ c, conns[i]? = some c ∧ c.closed = false ∧ c.client = true

/-- While a dialed connection is open, the chain has the shared rule. -/
def Protected (h : Host) : Prop := (∃ i, OpenDialed h.conns i) → ttlRule ∈ h.out4

/-- A connection that appended the rule is closed when no other dialed connection is open. -/
def OwnerLast (h : Host) : Op → Prop
  | .close i => Owner h.conns i → ∀ j, OpenDialed h.conns j → j = i
  | _ => True

/-- At most one open connection owns the rule, and then it is in the chain once. -/
structure Sole (h : Host) : Prop where
  once : ∀ i, Owner h.conns i → h.out4.count ttlRule = 1
  unique : ∀ i j, Owner h.conns i → Owner h.conns j → i = j

/-- A property of the fields of connection `i`, once a connection is added. -/
theorem exists_append {P : Conn → Prop} {conns : List Conn} {c : Conn} {i : Nat} :
    (∃ x, (conns ++ [c])[i]? = some x ∧ P x) ↔
      (∃ x, conns[i]? = some x ∧ P x) ∨ i = conns.length ∧ P c := by
  rw [List.getElem?_append]
  split
  · rename_i hlt
    exact ⟨.inl, fun h => h.resolve_right fun h => absurd h.1 (by omega)⟩
  · rename_i hge
    rw [List.getElem?_eq_none (l := conns) (by omega), List.getElem?_singleton]
    by_cases hi : i = conns.length
    · simp [hi]
    · simp [hi, show i - conns.length ≠ 0 by omega]

theorem exists_set_closed {P : Conn → Prop} {conns : List Conn} {c : Conn} {k i : Nat}
    (hk : conns[k]? = some c) :
    (∃ x, (conns.set k { c with closed := true })[i]? = some x ∧ x.closed = false ∧ P x) ↔
      i ≠ k ∧ ∃ x, conns[i]? = some x ∧ x.closed = false ∧ P x := by
  have hlt := (List.getElem?_eq_some_iff.1 hk).1
  by_cases hi : i = k
  · subst hi
    rw [List.getElem?_set_self hlt]
    simp
  · rw [List.getElem?_set_ne (Ne.symm hi)]
    simp [hi]

theorem close_cases (h : Host) (i : Nat) :
    h.close i = h ∧ (¬ Owner h.conns i) ∨
      ∃ c, h.conns[i]? = some c ∧ c.closed = false ∧
        h.close i = { out4 := h.out4.release c.iprule, out6 := h.out6.release c.ip6rule,
                      conns := h.conns.set i { c with closed := true } } := by
  unfold Host.close
  cases hc : h.conns[i]? with
  | none => exact .inl ⟨rfl, fun ⟨c, he, _⟩ => by rw [hc] at he; cases he⟩
  | some c =>
    dsimp only
    split
    · rename_i hcl
      refine .inl ⟨rfl, fun ⟨c', he, ho, _⟩ => ?_⟩
      rw [hc] at he
      cases he
      rw [ho] at hcl
      cases hcl
    · rename_i hcl
      exact .inr ⟨c, rfl, by simpa using hcl, rfl⟩

/-! ## Steps -/

theorem conns_addConn (h : Host) (client : Bool) (ttl rst hl : Rule) :
    (h.addConn client ttl rst hl).conns =
      h.conns ++ [⟨client, false, (h.out4.ensure ttl).2, (h.out6.ensure hl).2⟩] :=
  rfl

theorem sole_addConn {h : Host} (hs : Sole h) (client : Bool) (ttl hl : Rule) {rst : Rule}
    (hrst : rst ≠ ttlRule) : Sole (h.addConn client ttl rst hl) := by
  have hown : ∀ i, Owner (h.addConn client ttl rst hl).conns i ↔
      Owner h.conns i ∨ i = h.conns.length ∧ (h.out4.ensure ttl).2 = some ttlRule := by
    intro i
    rw [conns_addConn]
    refine exists_append.trans ?_
    simp [Owner]
  have hcount : (h.addConn client ttl rst hl).out4.count ttlRule =
      (h.out4.ensure ttl).1.count ttlRule := count_ensure hrst _
  rcases ensure_cases h.out4 ttl with ⟨-, he⟩ | ⟨hnot, he⟩
  · simp only [he, reduceCtorEq, and_false, or_false] at hown hcount
    constructor
    · intro i hi
      rw [hcount]
      exact hs.once i ((hown i).1 hi)
    · intro i j hi hj
      exact hs.unique i j ((hown i).1 hi) ((hown j).1 hj)
  · simp only [he, Option.some.injEq] at hown hcount
    rw [List.count_append, List.count_singleton] at hcount
    by_cases ht : ttl = ttlRule
    · -- the rule was missing, so it had no owner before
      subst ht
      have hzero : h.out4.count ttlRule = 0 := List.count_eq_zero.2 hnot
      have hnone : ∀ i, ¬ Owner h.conns i := fun i hi => by
        have := hs.once i hi
        omega
      simp only [hnone, false_or, and_true] at hown
      constructor
      · intro i _
        rw [hcount, hzero]
        simp
      · intro i j hi hj
        rw [(hown i).1 hi, (hown j).1 hj]
    · simp only [ht, and_false, or_false, beq_iff_eq, if_false, Nat.add_zero] at hown hcount
      constructor
      · intro i hi
        rw [hcount]
        exact hs.once i ((hown i).1 hi)
      · intro i j hi hj
        exact hs.unique i j ((hown i).1 hi) ((hown j).1 hj)

theorem sole_close {h : Host} (hs : Sole h) (i : Nat) : Sole (h.close i) := by
  rcases close_cases h i with ⟨he, -⟩ | ⟨c, hc, hcl, he⟩
  · rw [he]
    exact hs
  · rw [he]
    have hown : ∀ j, Owner (h.conns.set i { c with closed := true }) j ↔ j ≠ i ∧ Owner h.conns j :=
      fun j => exists_set_closed hc
    constructor
    · intro j hj
      obtain ⟨hji, hj⟩ := (hown j).1 hj
      have hrule : c.iprule ≠ some ttlRule := fun hr => hji (hs.unique j i hj ⟨c, hc, hcl, hr⟩)
      exact (count_release hrule h.out4).trans (hs.once j hj)
    · intro j k hj hk
      exact hs.unique j k ((hown j).1 hj).2 ((hown k).1 hk).2

theorem sole_step {h : Host} (hs : Sole h) (op : Op) : Sole (h.step op) := by
  cases op with
  | dial a => exact sole_addConn hs _ _ _ (ne_ttlRule (by simp [rstRule]))
  | listen port => exact sole_addConn hs _ _ _ (ne_ttlRule (by simp [listenRstRule]))
  | close i => exact sole_close hs i

theorem mem_out4_addConn {h : Host} {client : Bool} {ttl rst hl : Rule} {t : Rule}
    (ht : t ∈ (h.out4.ensure ttl).1) : t ∈ (h.addConn client ttl rst hl).out4 := by
  show t ∈ ((h.out4.ensure ttl).1.ensure rst).1
  rcases ensure_cases (h.out4.ensure ttl).1 rst with ⟨-, he⟩ | ⟨-, he⟩
  · rw [he]
    exact ht
  · rw [he]
    exact List.mem_append_left _ ht

/-- **A close keeps the open connections protected** exactly if the rule's owner is closed last. -/
theorem protected_close {h : Host} (hs : Sole h) (hp : Protected h) (i : Nat) :
    Protected (h.close i) ↔ OwnerLast h (.close i) := by
  rcases close_cases h i with ⟨he, hno⟩ | ⟨c, hc, hcl, he⟩
  · rw [he]
    exact iff_of_true hp fun ho => absurd ho hno
  · have hopen : ∀ j, OpenDialed (h.close i).conns j ↔ j ≠ i ∧ OpenDialed h.conns j := fun j => by
      rw [he]
      exact exists_set_closed hc
    have hout : (h.close i).out4 = h.out4.release c.iprule := by rw [he]
    by_cases hr : c.iprule = some ttlRule
    · -- the owner: the only copy of the rule goes
      have howner : Owner h.conns i := ⟨c, hc, hcl, hr⟩
      have hgone : ttlRule ∉ (h.close i).out4 := by
        rw [hout, hr, ← List.count_eq_zero]
        show (h.out4.erase ttlRule).count ttlRule = 0
        rw [List.count_erase_self, hs.once i howner]
      constructor
      · intro hprot _ j hj
        by_contra hne
        exact hgone (hprot ⟨j, (hopen j).2 ⟨hne, hj⟩⟩)
      · rintro hlast ⟨j, hj⟩
        obtain ⟨hne, hj⟩ := (hopen j).1 hj
        exact absurd (hlast howner j hj) hne
    · refine iff_of_true ?_ fun ⟨c', hc', _, hr'⟩ => ?_
      · rintro ⟨j, hj⟩
        have hmem := hp ⟨j, ((hopen j).1 hj).2⟩
        rw [← List.count_pos_iff] at hmem ⊢
        rwa [hout, count_release hr]
      · rw [hc] at hc'
        cases hc'
        exact absurd hr' hr

/-- **One operation** keeps the open connections protected exactly if it meets the condition. -/
theorem protected_step {h : Host} (hs : Sole h) (hp : Protected h) (op : Op) :
    Protected (h.step op) ↔ OwnerLast h op := by
  cases op with
  | dial a => exact iff_of_true (fun _ => mem_out4_addConn (mem_ensure _ _)) trivial
  | listen port =>
    refine iff_of_true ?_ trivial
    rintro ⟨j, hj⟩
    rcases exists_append.1 hj with hj | ⟨-, -, hclient⟩
    · have hmem := hp ⟨j, hj⟩
      refine mem_out4_addConn ?_
      rw [← List.count_pos_iff] at hmem ⊢
      rwa [count_ensure (ne_ttlRule (by simp [listenTtlRule]))]
    · cases hclient
  | close i => exact protected_close hs hp i

/-- **When the drop rule protects.** From any chains, for every sequence of operations: while a
dialed connection is open the chain has the shared rule, in every state, exactly if each connection
that appended the rule is closed when no other dialed connection is open. -/
theorem dropRule_protects_iff (c4 c6 : Chain) (ops : List Op) :
    Always Host.step Protected (Host.init c4 c6) ops ↔
      Steps Host.step OwnerLast (Host.init c4 c6) ops := by
  refine always_iff_steps (fun h op hs => sole_step hs op)
    (fun h op hs hp => protected_step hs hp op) ops (Host.init c4 c6) ⟨?_, ?_⟩ ?_
  · rintro i ⟨c, hc, -⟩
    cases hc
  · rintro i j ⟨c, hc, -⟩
    cases hc
  · rintro ⟨i, c, hc, -⟩
    cases hc

/-- **The rule is gone with its first user**: two connections are dialed, the first is closed, the
second is open without the rule. -/
theorem dropRule_lost :
    let h := (Host.init [] []).run
      [.dial ⟨"10.0.0.1", "40000", "10.0.0.9", 80⟩, .dial ⟨"10.0.0.1", "40001", "10.0.0.9", 80⟩,
        .close 0]
    OpenDialed h.conns 1 ∧ ttlRule ∉ h.out4 ∧ ¬ Protected h := by
  intro h
  have hopen : OpenDialed h.conns 1 := ⟨_, rfl, rfl, rfl⟩
  have hgone : ttlRule ∉ h.out4 := by decide +kernel
  exact ⟨hopen, hgone, fun hp => hgone (hp ⟨1, hopen⟩)⟩

end Tcpraw
