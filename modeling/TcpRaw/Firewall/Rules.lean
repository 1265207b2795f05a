import Mathlib.Data.List.Basic

/-!
# The firewall rules of `Dial`, `Listen`, `Close` (`tcp_linux.go`) and `IPTablesReset` (`clear.go`)

A dialed connection and a listener keep the kernel's own segments off the wire with rules of the
`OUTPUT` chain of `iptables`. A chain is the list of its rules; `Exists`, `Append` and `Delete` of
go-iptables act on it and succeed. The IPv4 and the IPv6 chain are separate.

A connection deletes on `Close` the rules that it appended itself: `iprule` and `ip6rule` are set
only where the rule was missing. The rules against resets are never recorded.
-/

namespace Tcpraw

/-- The arguments of one rule. -/
abbrev Rule := List String

/-- A chain: its rules in order. -/
abbrev Chain := List Rule

/-- `Exists` -/
def Chain.ruleExists (c : Chain) (rule : Rule) : Bool := c.contains rule

/-- `Append` -/
def Chain.append (c : Chain) (rule : Rule) : Chain := c ++ [rule]

/-- `Delete`: the first rule that matches. -/
def Chain.delete (c : Chain) (rule : Rule) : Chain := c.erase rule

/-- Append a rule that is missing, and record it. -/
def Chain.ensure (c : Chain) (rule : Rule) : Chain × Option Rule :=
  if c.ruleExists rule then (c, none) else (c.append rule, some rule)

/-- Delete a rule that was recorded. -/
def Chain.release (c : Chain) : Option Rule → Chain
  | none => c
  | some rule => c.delete rule

/-! ## The rules -/

/-- The addresses of a dialed connection, as `Dial` prints them. -/
structure DialAddr where
  laddr : String
  lport : String
  rip : String
  rport : Nat

/-- The rule of all dialed connections: segments of the kernel's sockets, whose TTL is 1. -/
def ttlRule : Rule := ["-m", "ttl", "--ttl-eq", "1", "-p", "tcp", "-j", "DROP"]

/-- Resets to the remote. -/
def rstRule (a : DialAddr) : Rule :=
  ["-p", "tcp", "-d", a.rip, "--dport", toString a.rport, "--tcp-flags", "ALL", "RST", "-j", "DROP"]

/-- Segments of the connection's kernel socket, over IPv6. -/
def hlRule (a : DialAddr) : Rule :=
  ["-m", "hl", "--hl-eq", "1", "-p", "tcp", "-s", a.laddr, "--sport", a.lport, "-d", a.rip,
    "--dport", toString a.rport, "-j", "DROP"]

/-- Segments of the listener's kernel sockets. -/
def listenTtlRule (port : Nat) : Rule :=
  ["-m", "ttl", "--ttl-eq", "1", "-p", "tcp", "--sport", toString port, "-j", "DROP"]

/-- Resets from the listening port. -/
def listenRstRule (port : Nat) : Rule :=
  ["-p", "tcp", "--sport", toString port, "--tcp-flags", "ALL", "RST", "-j", "DROP"]

/-- Segments of the listener's kernel sockets, over IPv6. -/
def listenHlRule (port : Nat) : Rule :=
  ["-m", "hl", "--hl-eq", "1", "-p", "tcp", "--sport", toString port, "-j", "DROP"]

/-! ## Connections -/

/-- What `Close` of a `tcpConn` reads: a rule is recorded with its `iptables`. -/
structure Conn where
  /-- A dialed connection, not a listener. -/
  client : Bool
  /-- `dieOnce` is done. -/
  closed : Bool
  iprule : Option Rule
  ip6rule : Option Rule
  deriving DecidableEq, Repr

/-- The chains of a host and the connections made on it. -/
structure Host where
  out4 : Chain
  out6 : Chain
  conns : List Conn
  deriving DecidableEq, Repr

/-- What a `Dial` or a `Listen` does with its rules. -/
def Host.addConn (h : Host) (client : Bool) (ttl rst hl : Rule) : Host :=
  let (out4, iprule) := h.out4.ensure ttl
  let (out4, _) := out4.ensure rst
  let (out6, ip6rule) := h.out6.ensure hl
  { out4, out6, conns := h.conns ++ [{ client, closed := false, iprule, ip6rule }] }

/-- `Dial` -/
def Host.dial (h : Host) (a : DialAddr) : Host := h.addConn true ttlRule (rstRule a) (hlRule a)

/-- `Listen` -/
def Host.listen (h : Host) (port : Nat) : Host :=
  h.addConn false (listenTtlRule port) (listenRstRule port) (listenHlRule port)

/-- `tcpConn.Close` of the `i`-th connection; a second call does nothing. -/
def Host.close (h : Host) (i : Nat) : Host :=
  match h.conns[i]? with
  | some c =>
    if c.closed then h
    else
      { out4 := h.out4.release c.iprule
        out6 := h.out6.release c.ip6rule
        conns := h.conns.set i { c with closed := true } }
  | none => h

/-- An operation on a host. -/
inductive Op where
  | dial (a : DialAddr)
  | listen (port : Nat)
  | close (i : Nat)

/-- One operation. -/
def Host.step (h : Host) : Op → Host
  | .dial a => h.dial a
  | .listen port => h.listen port
  | .close i => h.close i

/-- A host with the IPv4 chain `c4` and the IPv6 chain `c6`, before the first operation. -/
def Host.init (c4 c6 : Chain) : Host := { out4 := c4, out6 := c6, conns := [] }

/-- The operations in turn. -/
def Host.run (h : Host) (ops : List Op) : Host := ops.foldl Host.step h

/-- `connList`: `Dial` and `Listen` add a connection, `Close` removes it. -/
def Host.connList (h : Host) : List Nat :=
  (List.range h.conns.length).filter fun i => ((h.conns[i]?).map (·.closed)) == some false

/-- `IPTablesReset` closes the connections of `connList`, each in a goroutine of its own: in an
`order` that is not determined. -/
def Host.iptablesReset (h : Host) (order : List Nat) : Host := order.foldl Host.close h

end Tcpraw
