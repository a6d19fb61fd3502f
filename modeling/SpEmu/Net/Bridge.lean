import SpEmu.Net.Frames
import SpEmu.Net.RxQueue

/-!
# The host network bridge

The bridge is the neighbour of the SP on the management link and relays UDP between the SP's
sockets and clients of the host. Each bound host socket stands for one port of the SP on one VLAN.
A datagram of a client becomes a frame whose UDP source port is the client's; a UDP frame of the
SP goes to that port at the address of the last client heard on the same VLAN and SP port.
-/

set_option autoImplicit false

namespace SpEmu

open ByteMem FlowQueue Frames

/-- An address of the host's network. -/
inductive IpAddr where
  | v4 (bits : BitVec 32)
  | v6 (bits : BitVec 128)
  deriving DecidableEq

structure SocketAddr where
  ip : IpAddr
  port : Half
  deriving DecidableEq

/-- A bound UDP socket with the VLAN and the SP port that it relays. -/
structure BoundSock where
  sock : SocketAddr
  vid : Half
  spPort : Half

/-- A datagram that the bridge received, and the index of the socket on which it arrived. -/
structure Datagram where
  sock : Nat
  vid : Half
  spPort : Half
  src : SocketAddr
  data : List Byte

/-- A datagram that the bridge sends through a socket. -/
structure Sent where
  sock : Nat
  dst : SocketAddr
  payload : List Byte

structure Bridge where
  socks : List BoundSock
  me : Identity
  /-- The SP's MAC and link-local address on each VLAN. -/
  spByVid : Half → Option (Mac × Ip6)
  /-- The last client heard for each VLAN and SP port. -/
  peerByVid : Half × Half → Option SocketAddr
  rx : RxQueue
  nRecv : BitVec 64
  /-- Ping the SP once it is learned. -/
  pingtest : Bool

namespace Bridge

def spPort : Half := 11111
def ereportPort : Half := 57005
def ereportOffset : Half := 11100

def vidSwitch0 : Half := 0x301
def vidSwitch1 : Half := 0x302
def vidSidecar0 : Half := 0x130

/-- The VLAN ids of the two switch views: those of the board, or the configured ones. -/
def defaultVids (sidecar : Bool) (vid0 vid1 : Option Half) : Half × Half :=
  (vid0.getD (if sidecar then vidSidecar0 else vidSwitch0), vid1.getD vidSwitch1)

/-- A receive buffer of the bridge. -/
def recvBytes : Nat := 2048

/-! ## Sockets -/

/-- The sockets of one switch view: the management socket, and the ereport relay where it binds. -/
def viewSocks (bind : SocketAddr → Bool) (base : SocketAddr) (off vid : Half) :
    Option (List BoundSock) :=
  let a := { base with port := base.port + off }
  let ea := { base with port := base.port + off + ereportOffset }
  if bind a then
    some (⟨a, vid, spPort⟩ :: if bind ea then [⟨ea, vid, ereportPort⟩] else [])
  else none

/-- The sockets of a bridge with port offsets: two switch views, and the SP's own ereport port
where it binds. `none` is a management port that does not bind. -/
def newSocks (bind : SocketAddr → Bool) (base : SocketAddr) (vid0 vid1 : Half) :
    Option (List BoundSock) := do
  let view0 ← viewSocks bind base 0 vid0
  let view1 ← viewSocks bind base 1 vid1
  let ra := { base with port := ereportPort }
  return view0 ++ view1 ++ if bind ra then [⟨ra, vid0, ereportPort⟩] else []

/-- The sockets in well-known-port mode: the SP's ports on the address of each view, those that
bind. -/
def wellKnownSocks (bind : SocketAddr → Bool) (views : List (SocketAddr × Half))
    (ports : List Half) : List BoundSock :=
  views.flatMap fun view => ports.filterMap fun port =>
    let a := { view.1 with port := port }
    if bind a then some ⟨a, view.2, port⟩ else none

/-- The bridge around a bound socket set. -/
def fromSocks (socks : List BoundSock) (pingtest : Bool) : Bridge where
  socks := socks
  me := Identity.bridge
  spByVid := fun _ => none
  peerByVid := fun _ => none
  rx := RxQueue.new
  nRecv := 0
  pingtest := pingtest

variable (b : Bridge)

def pushRx (orders : Nat → IterOrder FlowKey) (flow : FlowKey) (frame : Frame) : Bridge :=
  { b with rx := b.rx.pushRx orders flow frame }

/-! ## From the SP to the host -/

/-- Learn the SP's identity on a VLAN from its link-local traffic. The first frame is answered by an
unsolicited neighbour advertisement. `orders` are the iteration orders of the two pushes. -/
def learn (orders : Nat → Nat → IterOrder FlowKey) (tx : TxFrame) : Bridge :=
  if isLinkLocal tx.srcIp then
    let first := (b.spByVid tx.vid).isNone
    let b := { b with spByVid := Function.update b.spByVid tx.vid (some (tx.srcMac, tx.srcIp)) }
    if first then
      let b := b.pushRx (orders 0) 0 (b.me.buildNeighborAdvert tx.vid tx.srcMac tx.srcIp)
      if b.pingtest then b.pushRx (orders 1) 0 (b.me.buildEchoRequest tx.vid tx.srcMac tx.srcIp)
      else b
    else b
  else b

/-- Answer a neighbour solicitation for the bridge, and pings. -/
def handleIcmp6 (orders : Nat → IterOrder FlowKey) (vid : Half) (srcIp : Ip6) (p : List Byte) :
    Option Bridge :=
  if p.length < 4 then some b
  else match b.spByVid vid with
    | none => some b
    | some (spMac, _) => do
        let kind : Byte ← p[0]?
        if kind = icmp6NeighborSolicit ∧ 24 ≤ p.length then
          let target ← arrayAt 16 p 8
          if target = b.me.myIp then
            some (b.pushRx orders 0 (b.me.buildNeighborAdvert vid spMac srcIp))
          else some b
        else if kind = icmp6EchoRequest then
          some (b.pushRx orders 0 (b.me.buildEchoReply vid spMac srcIp p))
        else some b

/-- Relay a UDP datagram of the SP: through the first socket of its VLAN and source port, to the
destination port at the address of the last client heard there. -/
def handleUdpTx (vid : Half) (udp : List Byte) : Option (Option Sent) := do
  if udp.length < 8 then return none
  let srcPort ← be16At udp 0
  if !b.socks.any (fun s => s.vid = vid ∧ s.spPort = srcPort) then return none
  let dstPort ← be16At udp 2
  match b.peerByVid (vid, srcPort) with
  | none => return none
  | some p =>
      let peer : SocketAddr := ⟨p.ip, dstPort⟩
      let payload ← sliceFrom udp 8
      return (b.socks.findIdx? fun s => s.vid = vid ∧ s.spPort = srcPort).map fun i =>
        ⟨i, peer, payload⟩

/-- A frame that the SP transmits. -/
def handleTx (orders : Nat → Nat → IterOrder FlowKey) (f : List Byte) :
    Option (Bridge × Option Sent) := do
  match ← parseTx f with
  | none => return (b, none)
  | some tx =>
      let b := b.learn orders tx
      if tx.nextHdr = ipprotoIcmpv6 then
        return (← b.handleIcmp6 (orders 2) tx.vid tx.srcIp tx.payload, none)
      else if tx.nextHdr = ipprotoUdp then return (b, ← b.handleUdpTx tx.vid tx.payload)
      else return (b, none)

/-! ## From the host to the SP -/

/-- The datagrams read in one poll: socket by socket, those of each in the order of arrival. -/
def received (arrived : Nat → List (SocketAddr × List Byte)) : List Datagram :=
  b.socks.zipIdx.flatMap fun (bs, i) => (arrived i).map fun (src, data) =>
    ⟨i, bs.vid, bs.spPort, src, data.take recvBytes⟩

/-- Remember the client, and queue its datagram once the SP is learned. -/
def relay (orders : Nat → IterOrder FlowKey) (d : Datagram) : Bridge :=
  let b := { b with peerByVid := Function.update b.peerByVid (d.vid, d.spPort) (some d.src) }
  match b.spByVid d.vid with
  | none => b
  | some (spMac, spIp) =>
      b.pushRx orders d.src.port (b.me.buildUdp6 d.vid spMac spIp d.spPort d.src.port d.data)

/-- Relay each datagram; each push has its own iteration orders. -/
def relayAll (orders : Nat → Nat → IterOrder FlowKey) : List Datagram → Bridge → Bridge
  | [], b => b
  | d :: ds, b => relayAll (fun k => orders (k + 1)) ds (b.relay (orders 0) d)

def pollHost (orders : Nat → Nat → IterOrder FlowKey)
    (arrived : Nat → List (SocketAddr × List Byte)) : Bridge :=
  let got := b.received arrived
  relayAll orders got { b with nRecv := b.nRecv + BitVec.ofNat 64 got.length }

/-- The SP takes a frame. -/
def ethRx : Option Frame × Bridge :=
  let (x, rx) := b.rx.ethRx
  (x.map Prod.snd, { b with rx := rx })

end Bridge

end SpEmu
