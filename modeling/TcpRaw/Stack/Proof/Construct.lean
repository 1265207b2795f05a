import TcpRaw.Stack.Construct

/-!
# A constructor that fails

No constructor gives back what it opened, but for `tcpraw.Dial` in one place: where `DialTCP` fails
it closes the raw handle. So an error leaves nothing behind exactly where it came before that
(`Dial`), or before the first raw handle (`Listen`); an error of `faketcp.Dial` after its
`tcpraw.Dial` leaves the whole connection behind, and one of `FakeTcpListeners` leaves the listeners
of the addresses before (`construction_releases_iff`).
-/

namespace Stack

open GoRt Custody

variable {α : Type} {s s' : Store Kind} {e : NetErr}

/-- The call returns an error. -/
def Failed (r : Except NetErr α) : Prop := ∃ e, r = .error e

/-- The calls of `tcpraw.Dial` succeed to the point where both sockets are open. -/
def DialCalls.Connects (c : DialCalls) : Prop :=
  ∃ handleAddr remoteAddr,
    c.resolveTCPAddr = .ok () ∧ c.dialIP = .ok handleAddr ∧ c.dialTCP = .ok remoteAddr

/-- `ListenIP` succeeds for an address. -/
def AnyListens (ifaces : List (Except NetErr (List IfaceAddr))) : Prop :=
  ∃ addrs, .ok addrs ∈ ifaces ∧ .ipNet (.ok ()) ∈ addrs

/-- The calls of `tcpraw.Listen` succeed to the point where a raw handle is open. -/
def ListenCalls.OpensHandle (c : ListenCalls) : Prop :=
  ∃ unspecified ifaces, c.resolveTCPAddr = .ok unspecified ∧ c.interfaces = .ok ifaces ∧
    if unspecified then AnyListens ifaces else c.listenIP = .ok ()

/-! ## Nothing is given back -/

theorem keeping_call (r : Except NetErr α) : Keeping (call r) := by
  cases r with
  | ok a => exact keeping_pure a
  | error e => exact keeping_throw _

theorem keeping_addRstRule (c : RstRuleCalls) : Keeping (addRstRule c) := by
  unfold addRstRule
  split
  · exact keeping_pure _
  · split
    · exact keeping_throw _
    · exact keeping_pure _
    · exact keeping_throw _
    · exact keeping_pure _

theorem keeping_tcprawDialOn (c : DialCalls) (conn : Dialed) (handleAddr : String) :
    Keeping (tcprawDialOn c conn handleAddr) := by
  refine keeping_bind (keeping_call _) fun laddr => ?_
  split
  · exact keeping_throw _
  · refine keeping_bind (keeping_call _) fun _ => ?_
    refine keeping_bind (keeping_takes _) fun _ => ?_
    refine keeping_bind (keeping_takes _) fun _ => ?_
    refine keeping_bind (keeping_call _) fun _ => ?_
    refine keeping_bind (keeping_addRstRule _) fun _ => ?_
    exact keeping_pure conn

/-- A loop over addresses, from `v` and `s` on: it ends, and has opened handles exactly if
`ListenIP` succeeded for one of them. -/
def Loops (opens : Prop) (v : Captured) (s : Store Kind)
    (r : EStateM.Result Fail (Store Kind) Captured) : Prop :=
  ∃ v' s', r = .ok v' s' ∧ Keeps s s' ∧ (opens → Leaks s s') ∧
    (¬ opens → s' = s ∧ v'.handles = v.handles)

theorem captureAddrs_loops (addrs : List IfaceAddr) (v : Captured) (s : Store Kind) :
    Loops (.ipNet (.ok ()) ∈ addrs) v s (captureAddrs addrs v s) := by
  induction addrs generalizing v s with
  | nil =>
    refine ⟨v, s, rfl, keeps_refl s, fun h => ?_, fun _ => ⟨rfl, rfl⟩⟩
    cases h
  | cons addr addrs ih =>
    rcases addr with (e | u) | -
    · obtain ⟨v', s', hr, hkeep, hleak, hnone⟩ := ih { v with lasterr := some e } s
      refine ⟨v', s', hr, hkeep, fun h => hleak ?_, fun h => hnone ?_⟩
      · simpa using h
      · simpa using h
    · obtain ⟨v', s', hr, hkeep, -⟩ :=
        ih { v with handles := v.handles ++ [s.next] } ((s.take .handle).take (.captureFlow s.next))
      have hkeep' : Keeps (s.take .handle) s' := (keeps_take _ _).trans hkeep
      refine ⟨v', s', hr, (keeps_take _ _).trans hkeep', fun _ => ?_, fun h => ?_⟩
      · exact (leaks_take s _).keeps hkeep'
      · exact absurd List.mem_cons_self h
    · obtain ⟨v', s', hr, hkeep, hleak, hnone⟩ := ih v s
      refine ⟨v', s', hr, hkeep, fun h => hleak ?_, fun h => hnone ?_⟩
      · simpa using h
      · simpa using h

theorem captureIfaces_loops (ifaces : List (Except NetErr (List IfaceAddr))) (v : Captured)
    (s : Store Kind) : Loops (AnyListens ifaces) v s (captureIfaces ifaces v s) := by
  induction ifaces generalizing v s with
  | nil =>
    refine ⟨v, s, rfl, keeps_refl s, fun h => ?_, fun _ => ⟨rfl, rfl⟩⟩
    obtain ⟨addrs, hmem, -⟩ := h
    cases hmem
  | cons iface ifaces ih =>
    cases iface with
    | error e =>
      obtain ⟨v', s', hr, hkeep, hleak, hnone⟩ := ih v s
      have hiff : AnyListens (.error e :: ifaces) ↔ AnyListens ifaces := by
        simp [AnyListens]
      exact ⟨v', s', hr, hkeep, fun h => hleak (hiff.1 h), fun h => hnone fun h' => h (hiff.2 h')⟩
    | ok addrs =>
      obtain ⟨v₁, s₁, hr₁, hkeep₁, hleak₁, hnone₁⟩ := captureAddrs_loops addrs v s
      obtain ⟨v', s', hr, hkeep, hleak, hnone⟩ := ih v₁ s₁
      have hiff : AnyListens (.ok addrs :: ifaces) ↔
          .ipNet (.ok ()) ∈ addrs ∨ AnyListens ifaces := by
        simp [AnyListens]
      refine ⟨v', s', (bind_of_ok hr₁).trans hr, hkeep₁.trans hkeep, fun h => ?_, fun h => ?_⟩
      · rcases hiff.1 h with h | h
        · exact (hleak₁ h).keeps hkeep
        · exact hkeep₁.leaks (hleak h)
      · obtain ⟨hs, hhandles⟩ := hnone fun h' => h (hiff.2 (.inr h'))
        obtain ⟨hs₁, hhandles₁⟩ := hnone₁ fun h' => h (hiff.2 (.inl h'))
        exact ⟨hs.trans hs₁, hhandles.trans hhandles₁⟩

theorem keeping_captureIfaces (ifaces : List (Except NetErr (List IfaceAddr))) (v : Captured) :
    Keeping (captureIfaces ifaces v) := by
  intro s
  obtain ⟨v', s', hr, hkeep, -⟩ := captureIfaces_loops ifaces v s
  rw [hr]
  exact hkeep

theorem keeping_tcprawListenOn (c : ListenCalls) (handles : List Nat) :
    Keeping (tcprawListenOn c handles) := by
  refine keeping_bind (keeping_call _) fun _ => ?_
  refine keeping_bind (keeping_takes _) fun _ => ?_
  refine keeping_bind (keeping_takes _) fun _ => ?_
  refine keeping_bind (keeping_addRstRule _) fun _ => ?_
  refine keeping_bind (keeping_takes _) fun _ => ?_
  exact keeping_pure _

theorem keeping_tcprawListenAll (c : ListenCalls) (v : Captured) :
    Keeping (tcprawListenAll c v) := by
  unfold tcprawListenAll
  split
  · exact keeping_throw _
  · exact keeping_pure _
  · exact keeping_tcprawListenOn c _

theorem keeping_captureHandle (c : ListenCalls) (handle : Nat) :
    Keeping (captureHandle c handle) := by
  apply keeping_bind (keeping_call _)
  intro _
  split
  · exact keeping_throw _
  · apply keeping_bind (keeping_call _)
    intro _
    apply keeping_bind (keeping_takes _)
    intro _
    exact keeping_pure _

theorem keeping_captureIP (c : ListenCalls) : Keeping (captureIP c) := by
  apply keeping_bind (keeping_call _)
  intro _
  exact keeping_bind (keeping_takes _) fun handle => keeping_captureHandle c handle

theorem keeping_tcprawListen (c : ListenCalls) : Keeping (tcprawListen c) := by
  refine keeping_bind (keeping_call _) fun unspecified => ?_
  refine keeping_bind (keeping_call _) fun ifaces => ?_
  split
  · exact keeping_bind (keeping_captureIfaces ifaces _) fun v => keeping_tcprawListenAll c v
  · exact keeping_bind (keeping_captureIP c) fun _ => keeping_tcprawListenOn c _

theorem keeping_applyOptions : ∀ opts : List FecOption, Keeping (applyOptions opts)
  | [] => keeping_pure ()
  | opt :: opts => by
    unfold applyOptions
    split
    · exact keeping_throw _
    · exact keeping_applyOptions opts

theorem after_orPanic (m : Build α) (s : Store Kind) : after (orPanic m s) = after (m s) := by
  unfold orPanic
  split
  · rename_i h
    rw [h]
    rfl
  · rfl

theorem keeping_listenerListenOn (c : FakeListenCalls) (conn : Option Listening) :
    Keeping (listenerListenOn c conn) := by
  cases conn with
  | none => exact keeping_throw _
  | some conn =>
    apply keeping_bind (keeping_pure _)
    intro _
    apply keeping_bind (keeping_pure _)
    intro _
    apply keeping_bind (keeping_takes _)
    intro _
    apply keeping_bind (keeping_takes _)
    intro _
    exact keeping_pure _

theorem keeping_listenerListen (c : FakeListenCalls) : Keeping (listenerListen c) := by
  apply keeping_bind (keeping_call _)
  intro _
  apply keeping_bind _ (keeping_listenerListenOn c)
  intro s
  rw [after_orPanic]
  exact keeping_tcprawListen c.listen s

theorem keeping_fakeTcpListeners (opts : List FecOption) :
    ∀ cs : List FakeListenCalls, Keeping (fakeTcpListeners opts cs)
  | [] => keeping_pure []
  | c :: cs => by
    refine keeping_bind ?_ fun listener => ?_
    · exact keeping_bind (keeping_applyOptions opts) fun _ => keeping_listenerListen c
    · exact keeping_bind (keeping_fakeTcpListeners opts cs) fun _ => keeping_pure _

/-! ## What is left -/

/-- **`tcpraw.Dial` once both sockets are open** leaves them behind, however it ends. -/
theorem tcprawDial_leaks {c : DialCalls} (h : c.Connects) (s : Store Kind) :
    Leaks s (after (tcprawDial c s)) := by
  obtain ⟨handleAddr, remoteAddr, hresolve, hip, htcp⟩ := h
  unfold tcprawDial
  rw [hresolve, hip, htcp]
  -- the calls before the second socket return
  change Leaks s (after (tcprawDialOn c ⟨s.next, s.next + 1, remoteAddr⟩ handleAddr
    ((s.take .handle).take .tcpConn)))
  apply Leaks.keeps _ (keeping_tcprawDialOn c _ _ _)
  exact (keeps_take s .handle).leaks (leaks_take _ _)

theorem tcprawDial_released {c : DialCalls} (h : ¬ c.Connects) (s : Store Kind) :
    ∃ e s', tcprawDial c s = .error (.err e) s' ∧ Released s s' := by
  unfold tcprawDial
  cases hresolve : c.resolveTCPAddr with
  | error e => exact ⟨e, s, rfl, released_refl s⟩
  | ok u =>
    cases hip : c.dialIP with
    | error e => exact ⟨e, s, rfl, released_refl s⟩
    | ok handleAddr =>
      cases htcp : c.dialTCP with
      | error e => exact ⟨e, _, rfl, released_giveBack s .handle⟩
      | ok remoteAddr => exact absurd ⟨handleAddr, remoteAddr, hresolve, hip, htcp⟩ h

/-- `tcpraw.Listen` with a raw handle open leaves it behind, however it ends. -/
theorem tcprawListen_leaks {c : ListenCalls} (h : c.OpensHandle) (s : Store Kind) :
    Leaks s (after (tcprawListen c s)) := by
  obtain ⟨unspecified, ifaces, hresolve, hifaces, hopens⟩ := h
  unfold tcprawListen
  rw [hresolve, hifaces]
  cases unspecified with
  | true =>
    obtain ⟨v', s', hr, -, hleak, -⟩ :=
      captureIfaces_loops ifaces { handles := [], lasterr := none } s
    apply leaks_bind (m := captureIfaces ifaces _) _ (keeping_tcprawListenAll c)
    rw [hr]
    exact hleak hopens
  | false =>
    apply leaks_bind (m := captureIP c) _ fun _ => keeping_tcprawListenOn c _
    unfold captureIP
    rw [show c.listenIP = .ok () from hopens]
    exact leaks_bind (m := takes .handle) (leaks_take s _) (keeping_captureHandle c)

theorem tcprawListen_released {c : ListenCalls} (h : ¬ c.OpensHandle) (s : Store Kind) :
    Released s (after (tcprawListen c s)) := by
  unfold tcprawListen
  cases hresolve : c.resolveTCPAddr with
  | error e => exact released_refl s
  | ok unspecified =>
    cases hifaces : c.interfaces with
    | error e => exact released_refl s
    | ok ifaces =>
      have hopens : ¬ if unspecified then AnyListens ifaces else c.listenIP = .ok () :=
        fun h' => h ⟨unspecified, ifaces, hresolve, hifaces, h'⟩
      cases unspecified with
      | true =>
        obtain ⟨v', s', hr, -, -, hnone⟩ :=
          captureIfaces_loops ifaces { handles := [], lasterr := none } s
        obtain ⟨rfl, hhandles⟩ := hnone hopens
        change Released s' (after ((captureIfaces ifaces _ >>= tcprawListenAll c) s'))
        rw [bind_of_ok hr]
        unfold tcprawListenAll
        rw [hhandles]
        cases v'.lasterr with
        | some e => exact released_refl s'
        | none => exact released_refl s'
      | false =>
        change Released s (after ((captureIP c >>= fun handle => tcprawListenOn c [handle]) s))
        unfold captureIP
        cases hip : c.listenIP with
        | error e => exact released_refl s
        | ok u => exact absurd hip hopens

/-! ## The listeners -/

theorem applyOptions_cases (opts : List FecOption) (s : Store Kind) :
    applyOptions opts s = .ok () s ∨ ∃ p, applyOptions opts s = .error (.panic p) s := by
  induction opts with
  | nil => exact .inl rfl
  | cons opt opts ih =>
    unfold applyOptions
    split
    · exact .inr ⟨_, rfl⟩
    · exact ih

theorem orPanic_ne_err (m : Build α) : orPanic m s ≠ .error (.err e) s' := by
  intro h
  unfold orPanic at h
  split at h
  · cases h
  · rename_i hne
    exact hne e s' h

/-- The only error that `FakeTcpListen` returns is that of its address. -/
theorem fakeTcpListen_err {opts : List FecOption} {c : FakeListenCalls}
    (h : fakeTcpListen opts c s = .error (.err e) s') :
    s' = s ∧ Failed c.resolveTCPAddr := by
  rcases applyOptions_cases opts s with hopts | ⟨p, hopts⟩
  · rw [fakeTcpListen, bind_of_ok hopts] at h
    rcases bind_error h with h | ⟨u, s₁, -, h⟩
    · cases hresolve : c.resolveTCPAddr with
      | ok u => rw [hresolve] at h; cases h
      | error e' =>
        rw [hresolve] at h
        cases h
        exact ⟨rfl, e, rfl⟩
    · rcases bind_error h with h | ⟨conn, s₂, -, h⟩
      · exact absurd h (orPanic_ne_err _)
      · cases conn with
        | none => cases h
        | some conn => cases h
  · rw [fakeTcpListen, bind_of_error hopts] at h
    cases h

theorem fakeTcpListen_ok {opts : List FecOption} {c : FakeListenCalls} {l : Listening}
    (h : fakeTcpListen opts c s = .ok l s') : ¬ Failed c.resolveTCPAddr ∧ Leaks s s' := by
  obtain ⟨u, s₁, hopts, h⟩ := bind_ok h
  obtain ⟨u', s₂, hresolve, h⟩ := bind_ok h
  obtain ⟨conn, s₃, hlisten, h⟩ := bind_ok h
  have hkeep : Keeps s s₃ := by
    have h₁ := keeping_applyOptions opts s
    have h₂ := keeping_call c.resolveTCPAddr s₁
    have h₃ := keeping_tcprawListen c.listen s₂
    rw [← after_orPanic, hlisten] at h₃
    rw [hopts] at h₁
    rw [hresolve] at h₂
    exact (h₁.trans h₂).trans h₃
  cases conn with
  | none => cases h
  | some conn =>
    cases h
    refine ⟨fun hfail => ?_, hkeep.leaks ((leaks_take s₃ _).keeps (keeps_take _ _))⟩
    obtain ⟨e, hfail⟩ := hfail
    rw [hfail] at hresolve
    cases hresolve

/-! ## The constructors -/

/-- A program that leaves something behind if `P`, and nothing else if not. -/
theorem released_iff_not {m : Build α} {P : Prop} (hleak : P → Leaks s (after (m s)))
    (hrel : ¬ P → Released s (after (m s))) {f : Fail} (h : m s = .error f s') :
    Released s s' ↔ ¬ P := by
  rw [h] at hleak hrel
  exact ⟨fun hs hp => (hleak hp).not_released hs, hrel⟩

theorem keeping_faketcpDialOn (c : ClientCalls) (opts : List FecOption) (conn : Dialed) :
    Keeping (faketcpDialOn c opts conn) := by
  apply keeping_bind (keeping_call _)
  intro _
  apply keeping_bind (keeping_call _)
  intro _
  apply keeping_bind (keeping_call _)
  intro remoteAddr
  split
  · exact keeping_throw _
  · exact keeping_bind (keeping_applyOptions opts) fun _ => keeping_pure _

/-- An error of `faketcp.Dial` is one of its `tcpraw.Dial`, or leaves the connection behind. -/
theorem faketcpDial_err {c : ClientCalls} {opts : List FecOption}
    (h : faketcpDial c opts s = .error (.err e) s') : Released s s' ↔ ¬ c.dial.Connects := by
  refine released_iff_not (fun hc => ?_) (fun hc => ?_) h
  · exact leaks_bind (tcprawDial_leaks hc s) (keeping_faketcpDialOn c opts)
  · obtain ⟨e', s₁, hdial, hrel⟩ := tcprawDial_released hc s
    rw [faketcpDial, bind_of_error hdial]
    exact hrel

/-- An error of `FakeTcpListeners` comes from an address, and the listeners before it run on. -/
theorem fakeTcpListeners_err {opts : List FecOption} {addrs : List FakeListenCalls}
    (h : fakeTcpListeners opts addrs s = .error (.err e) s') :
    Released s s' ↔ ∃ a rest, addrs = a :: rest ∧ Failed a.resolveTCPAddr := by
  cases addrs with
  | nil => cases h
  | cons a rest =>
    rcases bind_error h with h | ⟨l, s₁, hl, h⟩
    · obtain ⟨rfl, hfail⟩ := fakeTcpListen_err h
      exact ⟨fun _ => ⟨a, rest, rfl, hfail⟩, fun _ => released_refl s'⟩
    · obtain ⟨hok, hleak⟩ := fakeTcpListen_ok hl
      have hkeep : Keeps s₁ s' :=
        (keeping_bind (keeping_fakeTcpListeners opts rest) fun _ => keeping_pure _).error h
      refine ⟨fun hrel => absurd hrel (hleak.keeps hkeep).not_released, fun hfirst => ?_⟩
      obtain ⟨a', rest', heq, hfail⟩ := hfirst
      cases heq
      exact absurd hfail hok

/-- **When a failed constructor leaves nothing behind.** If a constructor returns an error, all that
it opened is closed and none of its loops runs exactly if: for `tcpraw.Dial`, and for the one in
`faketcp.Dial`, a call failed before both sockets were open; for `tcpraw.Listen`, before a raw
handle was; for `FakeTcpListeners`, it is the first address that cannot be resolved. -/
theorem construction_releases_iff (d : DialCalls) (l : ListenCalls) (c : ClientCalls)
    (opts : List FecOption) (addrs : List FakeListenCalls) (s s' : Store Kind) (e : NetErr) :
    (tcprawDial d s = .error (.err e) s' → (Released s s' ↔ ¬ d.Connects)) ∧
      (tcprawListen l s = .error (.err e) s' → (Released s s' ↔ ¬ l.OpensHandle)) ∧
      (faketcpDial c opts s = .error (.err e) s' → (Released s s' ↔ ¬ c.dial.Connects)) ∧
      (fakeTcpListeners opts addrs s = .error (.err e) s' →
        (Released s s' ↔ ∃ a rest, addrs = a :: rest ∧ Failed a.resolveTCPAddr)) := by
  refine ⟨fun h => ?_, fun h => ?_, faketcpDial_err, fakeTcpListeners_err⟩
  · refine released_iff_not (fun hc => tcprawDial_leaks hc s) (fun hc => ?_) h
    obtain ⟨e', s₁, hdial, hrel⟩ := tcprawDial_released hc s
    rw [hdial]
    exact hrel
  · exact released_iff_not (fun hc => tcprawListen_leaks hc s)
      (fun hc => tcprawListen_released hc s) h

/-- The calls of a `tcpraw.Dial` whose remote refuses the connection. -/
def refused : DialCalls where
  resolveTCPAddr := .ok ()
  dialIP := .ok "192.0.2.1"
  dialTCP := .error "connect: connection refused"
  splitHostPort := .ok "192.0.2.1"
  setBPF := .ok ()
  setTTL := .ok ()
  rstRule := ⟨.ok (), .ok true, .ok ()⟩

/-- The calls of a `tcpraw.Listen` on an IP with a port that is in use. -/
def portInUse : ListenCalls where
  resolveTCPAddr := .ok false
  interfaces := .ok []
  listenIP := .ok ()
  syscallConn := .ok ()
  setReusePort := .ok ()
  setBPF := .ok ()
  listenTCP := .error "bind: address already in use"
  rstRule := ⟨.ok (), .ok true, .ok ()⟩

/-- A refused connection: the raw handle is closed. -/
theorem refused_releases : ∃ s', tcprawDial refused Store.empty =
    .error (.err "connect: connection refused") s' ∧ Released Store.empty s' := by
  refine ⟨_, rfl, ((construction_releases_iff refused portInUse
    ⟨refused, .ok (), .ok (), .ok ""⟩ [] [] _ _ _).1 rfl).2 ?_⟩
  rintro ⟨handleAddr, remoteAddr, -, -, hdial⟩
  cases hdial

/-- **A port in use**: `tcpraw.Listen` returns the error of `ListenTCP`; its raw handle stays open,
and the capture on it goes on. -/
theorem port_in_use_leaks : ∃ s', tcprawListen portInUse Store.empty =
      .error (.err "bind: address already in use") s' ∧
    s'.held = [(1, .captureFlow 0), (0, .handle)] ∧ ¬ Released Store.empty s' := by
  refine ⟨_, rfl, rfl, ?_⟩
  exact ((leaks_take Store.empty Kind.handle).keeps (keeps_take _ _)).not_released

end Stack
