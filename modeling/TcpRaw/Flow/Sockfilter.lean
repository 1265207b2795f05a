import TcpRaw.Lib.Bpf

/-!
# The socket filters (`sockfilter.go`)

The classic BPF programs that the package attaches to its sockets, as the raw instructions of the
source. Packets on a raw socket start at the IPv4 header.

`setBPFFilterPortByPacketConn` is installed on the raw sockets: the listing of `tcpdump` for "ip and
tcp dst port", without the test of the Ethernet type and with its offsets 14 bytes less.
`attachBPFFilter` is attached to the kernel's own TCP connections.
-/

namespace Tcpraw

open Bpf

/-- `SetBPFFilterPortByPacketConn`: the program that it installs. -/
def setBPFFilterPortByPacketConn (port : UInt32) : List RawInstruction :=
  [{ op := 0x30, jt := 0, jf := 0, k := 0x00000009 }, -- the IP protocol
    { op := 0x15, jt := 0, jf := 6, k := 0x00000006 },
    { op := 0x28, jt := 0, jf := 0, k := 0x00000006 }, -- flags and fragment offset
    { op := 0x45, jt := 4, jf := 0, k := 0x00001fff },
    { op := 0xb1, jt := 0, jf := 0, k := 0x00000000 }, -- the length of the IPv4 header
    { op := 0x48, jt := 0, jf := 0, k := 0x00000002 }, -- the TCP destination port
    { op := 0x15, jt := 0, jf := 1, k := port },
    { op := 0x6, jt := 0, jf := 0, k := 0x00040000 },
    { op := 0x6, jt := 0, jf := 0, k := 0x00000000 }]

/-- `attachBPFFilter`: the program that it attaches. -/
def attachBPFFilter : List RawInstruction := [{ op := 0x06, jt := 0, jf := 0, k := 0 }]

end Tcpraw
