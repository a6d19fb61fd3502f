import SpEmu.Net.Bridge
import SpEmu.Lib.Runs

/-!
# Reply routing

A reply of the SP names its VLAN, the SP's port and the client's port; the bridge has to find the
client's address and the socket from these. It takes the address of the last client heard on that
VLAN and SP port and the first socket bound for them. `routed_iff` says for every run which replies
go back to their client through the socket of the request.
-/

set_option autoImplicit false

namespace SpEmu

open ByteMem FlowQueue Frames

/-- What the routing tables know a datagram by. -/
def Datagram.key (d : Datagram) : Half × Half := (d.vid, d.spPort)

def BoundSock.key (bs : BoundSock) : Half × Half := (bs.vid, bs.spPort)

namespace Bridge

/-- The socket relays this VLAN and SP port. -/
def relays (k : Half × Half) (bs : BoundSock) : Bool := bs.vid = k.1 ∧ bs.spPort = k.2

/-- The last client heard for a VLAN and SP port among the requests. -/
def lastClient (k : Half × Half) (requests : List Datagram) : Option SocketAddr :=
  (requests.filter fun d => d.key = k).getLast?.map Datagram.src

/-- The requests name the sockets on which they arrived, and the table of peers the last client of
each VLAN and SP port. -/
structure Heard (b : Bridge) (requests : List Datagram) : Prop where
  socks : ∀ d ∈ requests, ∃ bs, b.socks[d.sock]? = some bs ∧ relays d.key bs = true
  peers : ∀ k, b.peerByVid k = lastClient k requests

variable {b b' : Bridge} {requests : List Datagram}

/-- Nothing else than the sockets and the table of peers matters. -/
theorem Heard.congr (h : b.Heard requests) (hsocks : b'.socks = b.socks)
    (hpeers : b'.peerByVid = b.peerByVid) : b'.Heard requests :=
  ⟨hsocks.symm ▸ h.socks, hpeers.symm ▸ h.peers⟩

/-! ## What the SP's frames leave alone -/

theorem learn_tables (b : Bridge) (orders : Nat → Nat → IterOrder FlowKey) (tx : TxFrame) :
    (b.learn orders tx).socks = b.socks ∧ (b.learn orders tx).peerByVid = b.peerByVid := by
  rw [learn]
  split
  · dsimp only
    split
    · split <;> exact ⟨rfl, rfl⟩
    · exact ⟨rfl, rfl⟩
  · exact ⟨rfl, rfl⟩

theorem learn_heard (h : b.Heard requests) (orders : Nat → Nat → IterOrder FlowKey)
    (tx : TxFrame) : (b.learn orders tx).Heard requests :=
  h.congr (b.learn_tables orders tx).1 (b.learn_tables orders tx).2

theorem handleIcmp6_heard (h : b.Heard requests) {orders : Nat → IterOrder FlowKey} {vid : Half}
    {srcIp : Ip6} {p : List Byte} (hb' : b.handleIcmp6 orders vid srcIp p = some b') :
    b'.Heard requests := by
  rw [handleIcmp6] at hb'
  split at hb'
  · exact Option.some.inj hb' ▸ h
  split at hb'
  · exact Option.some.inj hb' ▸ h
  obtain ⟨kind, -, hb'⟩ := Option.bind_eq_some_iff.mp hb'
  split at hb'
  · obtain ⟨target, -, hb'⟩ := Option.bind_eq_some_iff.mp hb'
    split at hb'
    · exact Option.some.inj hb' ▸ h.congr rfl rfl
    · exact Option.some.inj hb' ▸ h
  split at hb'
  · exact Option.some.inj hb' ▸ h.congr rfl rfl
  · exact Option.some.inj hb' ▸ h

theorem handleTx_heard (h : b.Heard requests) {orders : Nat → Nat → IterOrder FlowKey}
    {f : Frame} {out : Bridge × Option Sent} (hout : b.handleTx orders f = some out) :
    out.1.Heard requests := by
  obtain ⟨parsed, -, hout⟩ := Option.bind_eq_some_iff.mp hout
  cases parsed with
  | none => exact Option.some.inj hout ▸ h
  | some tx =>
      have hlearn := learn_heard h orders tx
      dsimp only at hout
      split at hout
      · obtain ⟨b', hb', hout⟩ := Option.bind_eq_some_iff.mp hout
        exact Option.some.inj hout ▸ handleIcmp6_heard hlearn hb'
      split at hout
      · obtain ⟨sent, -, hout⟩ := Option.bind_eq_some_iff.mp hout
        exact Option.some.inj hout ▸ hlearn
      · exact Option.some.inj hout ▸ hlearn

/-! ## What a poll hears -/

theorem lastClient_append (k : Half × Half) (requests : List Datagram) (d : Datagram) :
    lastClient k (requests ++ [d]) = if d.key = k then some d.src else lastClient k requests := by
  rw [lastClient, List.filter_append]
  by_cases hk : d.key = k
  · rw [if_pos hk, List.filter_cons_of_pos (by simpa using hk)]
    simp
  · rw [if_neg hk, List.filter_cons_of_neg (by simpa using hk)]
    simp [lastClient]

theorem relay_heard (h : b.Heard requests) (orders : Nat → IterOrder FlowKey) {d : Datagram}
    (hd : ∃ bs, b.socks[d.sock]? = some bs ∧ relays d.key bs = true) :
    (b.relay orders d).socks = b.socks ∧ (b.relay orders d).Heard (requests ++ [d]) := by
  have hsocks : (b.relay orders d).socks = b.socks := by
    rw [relay]
    dsimp only
    split <;> rfl
  have hpeers : (b.relay orders d).peerByVid = Function.update b.peerByVid d.key (some d.src) := by
    rw [relay]
    dsimp only
    split <;> rfl
  refine ⟨hsocks, ⟨fun e he => ?_, fun k => ?_⟩⟩
  · rw [hsocks]
    rcases List.mem_append.mp he with he | he
    · exact h.socks e he
    · rw [List.mem_singleton.mp he]
      exact hd
  · rw [hpeers, lastClient_append]
    by_cases hk : d.key = k
    · subst hk
      rw [if_pos rfl, Function.update_self]
    · rw [if_neg hk, Function.update_of_ne (Ne.symm hk), h.peers k]

theorem relayAll_heard (ds : List Datagram) :
    ∀ {b : Bridge} {requests : List Datagram} (orders : Nat → Nat → IterOrder FlowKey),
      b.Heard requests →
      (∀ d ∈ ds, ∃ bs, b.socks[d.sock]? = some bs ∧ relays d.key bs = true) →
        (relayAll orders ds b).Heard (requests ++ ds) := by
  induction ds with
  | nil =>
      intro b requests orders h _
      rw [List.append_nil]
      exact h
  | cons d ds ih =>
      intro b requests orders h hds
      obtain ⟨hsocks, hd⟩ := relay_heard h (orders 0) (hds d List.mem_cons_self)
      have hrest := ih (fun k => orders (k + 1)) hd fun e he => by
        rw [hsocks]
        exact hds e (List.mem_cons_of_mem d he)
      rw [List.append_assoc, List.singleton_append] at hrest
      exact hrest

theorem mem_received {arrived : Nat → List (SocketAddr × List Byte)} {d : Datagram}
    (hd : d ∈ b.received arrived) : ∃ bs, b.socks[d.sock]? = some bs ∧ relays d.key bs = true := by
  obtain ⟨⟨bs, i⟩, hbs, hd⟩ := List.mem_flatMap.mp hd
  obtain ⟨⟨src, data⟩, -, rfl⟩ := List.mem_map.mp hd
  exact ⟨bs, List.mem_zipIdx_iff_getElem?.mp hbs, by simp [relays, Datagram.key]⟩

theorem pollHost_heard (h : b.Heard requests) (orders : Nat → Nat → IterOrder FlowKey)
    (arrived : Nat → List (SocketAddr × List Byte)) :
    (b.pollHost orders arrived).Heard (requests ++ b.received arrived) :=
  relayAll_heard _ orders (h.congr rfl rfl) fun _ hd => mem_received hd

/-! ## Which socket stands for a VLAN and SP port -/

/-- Where no two sockets relay the same VLAN and SP port, each is the first of its own. -/
theorem findIdx_relays_of_nodup {socks : List BoundSock}
    (hnodup : (socks.map BoundSock.key).Nodup) {i : Nat} {bs : BoundSock}
    (hi : socks[i]? = some bs) : socks.findIdx? (relays bs.key) = some i := by
  obtain ⟨hlt, hbs⟩ := List.getElem?_eq_some_iff.mp hi
  refine List.findIdx?_eq_some_iff_getElem.mpr ⟨hlt, ?_, fun j hj hrelays => ?_⟩
  · simp [hbs, relays, BoundSock.key]
  have hjlt : j < socks.length := Nat.lt_trans hj hlt
  have hmapi : i < (socks.map BoundSock.key).length := by rwa [List.length_map]
  have hmapj : j < (socks.map BoundSock.key).length := by rwa [List.length_map]
  have hkey : (socks.map BoundSock.key)[j] = (socks.map BoundSock.key)[i] := by
    obtain ⟨hvid, hport⟩ := of_decide_eq_true hrelays
    rw [List.getElem_map, List.getElem_map, BoundSock.key, hvid, hport, hbs]
  exact absurd (hnodup.getElem_inj_iff.mp hkey) (Nat.ne_of_lt hj)

/-- The sockets of a view relay some of the ports on its VLAN. -/
theorem viewKeys_sublist (bind : SocketAddr → Bool) (view : SocketAddr × Half) (ports : List Half) :
    ((wellKnownSocks bind [view] ports).map BoundSock.key).Sublist
      (ports.map fun port => (view.2, port)) := by
  rw [wellKnownSocks, List.flatMap_singleton, List.map_filterMap]
  induction ports with
  | nil => exact List.Sublist.refl _
  | cons port ports ih =>
      cases hbind : bind { view.1 with port := port } with
      | true =>
          rw [List.filterMap_cons_some (by simp [hbind]; rfl)]
          exact ih.cons_cons _
      | false =>
          rw [List.filterMap_cons_none (by simp [hbind])]
          exact ih.cons _

/-- In well-known-port mode that is so as soon as each view has a VLAN of its own. -/
theorem wellKnownSocks_nodup (bind : SocketAddr → Bool) {views : List (SocketAddr × Half)}
    {ports : List Half} (hviews : (views.map Prod.snd).Nodup) (hports : ports.Nodup) :
    ((wellKnownSocks bind views ports).map BoundSock.key).Nodup := by
  -- the keys are among the pairs of a VLAN and a port, in order
  have hsub : ((wellKnownSocks bind views ports).map BoundSock.key).Sublist
      ((views.map Prod.snd).product ports) := by
    induction views with
    | nil => exact List.Sublist.refl _
    | cons view views ih =>
        have htail := ih (List.nodup_cons.mp hviews).2
        have hhead := viewKeys_sublist bind view ports
        rw [wellKnownSocks, List.flatMap_singleton] at hhead
        rw [wellKnownSocks, List.flatMap_cons, List.map_append]
        exact hhead.append htail
  exact (hviews.product hports).sublist hsub

/-! ## Where a reply goes -/

/-- The frame is a UDP datagram from the socket of the SP that got the request, to the port of the
client that sent it. -/
def IsReply (f : Frame) (req : Datagram) : Prop :=
  ∃ tx ∈ (parseTx f).join, tx.nextHdr = ipprotoUdp ∧ tx.vid = req.vid ∧ 8 ≤ tx.payload.length ∧
    be16At tx.payload 0 = some req.spPort ∧ be16At tx.payload 2 = some req.src.port

instance (f : Frame) (req : Datagram) : Decidable (IsReply f req) :=
  inferInstanceAs (Decidable (∃ tx ∈ (parseTx f).join, _))

/-- A request was heard from some client, on a socket that relays its VLAN and SP port. -/
theorem Heard.of_mem (h : b.Heard requests) {req : Datagram} (hreq : req ∈ requests) :
    ∃ i last, b.socks.findIdx? (relays req.key) = some i ∧
      lastClient req.key requests = some last := by
  obtain ⟨bs, hbs, hrelays⟩ := h.socks req hreq
  have hsome : (b.socks.findIdx? (relays req.key)).isSome := by
    rw [List.findIdx?_isSome]
    exact List.any_eq_true.mpr ⟨bs, List.mem_of_getElem? hbs, hrelays⟩
  obtain ⟨i, hi⟩ := Option.isSome_iff_exists.mp hsome
  have hmem : req ∈ requests.filter fun d => d.key = req.key :=
    List.mem_filter.mpr ⟨hreq, decide_eq_true rfl⟩
  -- the request itself is among those of its key
  have hlast : lastClient req.key requests =
      some ((requests.filter fun d => d.key = req.key).getLast (List.ne_nil_of_mem hmem)).src := by
    rw [lastClient, List.getLast?_eq_some_getLast (List.ne_nil_of_mem hmem)]
    rfl
  exact ⟨i, _, hi, hlast⟩

theorem handleUdpTx_reply {k : Half × Half} {i : Nat} {last : SocketAddr}
    (hsock : b.socks.findIdx? (relays k) = some i) (hpeer : b.peerByVid k = some last)
    {udp : List Byte} {port : Half} (hlen : 8 ≤ udp.length) (hsrc : be16At udp 0 = some k.2)
    (hdst : be16At udp 2 = some port) :
    b.handleUdpTx k.1 udp = some (some ⟨i, ⟨last.ip, port⟩, udp.drop 8⟩) := by
  have hany : b.socks.any (relays k) = true := by
    rw [← List.findIdx?_isSome, hsock]
    rfl
  have hslice : sliceFrom udp 8 = some (udp.drop 8) := if_pos hlen
  have hfind : (b.socks.findIdx? fun s => decide (s.vid = k.1 ∧ s.spPort = k.2)) = some i := hsock
  have hguard : (!b.socks.any fun s => decide (s.vid = k.1 ∧ s.spPort = k.2)) = false :=
    congrArg not hany
  have hkey : b.peerByVid (k.1, k.2) = some last := hpeer
  simp only [handleUdpTx, if_neg (Nat.not_lt_of_le hlen), hsrc, hdst, Option.bind_eq_bind,
    Option.bind_some, hguard, Bool.false_eq_true, if_false, hkey, hslice, hfind, Option.map_some,
    Option.pure_def]

/-- A reply goes to the client's port at the address of the last client heard, through the first
socket of its VLAN and SP port. -/
theorem handleTx_reply (h : b.Heard requests) {req : Datagram} {i : Nat} {last : SocketAddr}
    (hsock : b.socks.findIdx? (relays req.key) = some i)
    (hlast : lastClient req.key requests = some last)
    (orders : Nat → Nat → IterOrder FlowKey) {f : Frame} (hf : IsReply f req) :
    ∃ b' payload, b.handleTx orders f =
      some (b', some ⟨i, ⟨last.ip, req.src.port⟩, payload⟩) := by
  obtain ⟨tx, htx, hudp, hvid, hlen, hsrc, hdst⟩ := hf
  have hparse := Option.join_eq_some_iff.mp htx
  -- the bridge learns from the frame first, and no client from it
  have hlearn := learn_heard h orders tx
  have hrelay := handleUdpTx_reply ((b.learn_tables orders tx).1 ▸ hsock)
    ((hlearn.peers req.key).trans hlast) hlen hsrc hdst
  have hkind : ¬ ipprotoUdp = ipprotoIcmpv6 := by decide
  refine ⟨b.learn orders tx, tx.payload.drop 8, ?_⟩
  rw [handleTx, hparse]
  simp only [Option.bind_eq_bind, Option.bind_some, hudp, if_neg hkind, if_pos, hvid,
    Option.pure_def]
  rw [show req.vid = req.key.1 from rfl, hrelay]
  rfl

end Bridge

/-! ## Runs -/

/-- The bridge with the requests that it has heard, oldest first. -/
structure RelayRun where
  bridge : Bridge
  requests : List Datagram

/-- The bridge polls its sockets, the SP transmits a frame, in answer to the request of an index
where it is a reply, or the SP takes a frame. -/
inductive RelayEvent where
  | poll (orders : Nat → Nat → IterOrder FlowKey) (arrived : Nat → List (SocketAddr × List Byte))
  | ethTx (orders : Nat → Nat → IterOrder FlowKey) (frame : Frame) (answers : Option Nat)
  | ethRx

namespace RelayRun

open Bridge

def start (socks : List BoundSock) (pingtest : Bool) : RelayRun := ⟨fromSocks socks pingtest, []⟩

def step (s : RelayRun) : RelayEvent → Option RelayRun
  | .poll orders arrived =>
      some ⟨s.bridge.pollHost orders arrived, s.requests ++ s.bridge.received arrived⟩
  | .ethTx orders frame _ =>
      (s.bridge.handleTx orders frame).map fun out => { s with bridge := out.1 }
  | .ethRx => some { s with bridge := s.bridge.ethRx.2 }

section

variable (s : RelayRun)

/-- `P` holds of the request that a frame of the SP answers. -/
def OnReply (P : (Nat → Nat → IterOrder FlowKey) → Frame → Datagram → Prop) : RelayEvent → Prop
  | .ethTx orders frame (some r) => ∀ req ∈ s.requests[r]?, P orders frame req
  | _ => True

instance (P : (Nat → Nat → IterOrder FlowKey) → Frame → Datagram → Prop)
    [∀ orders frame req, Decidable (P orders frame req)] : (e : RelayEvent) →
      Decidable (s.OnReply P e)
  | .ethTx orders frame (some r) =>
      inferInstanceAs (Decidable (∀ req ∈ s.requests[r]?, P orders frame req))
  | .ethTx _ _ none => isTrue trivial
  | .poll _ _ => isTrue trivial
  | .ethRx => isTrue trivial

/-- The SP answers a request from the socket that got it, to the port that it came from. -/
def Answers (e : RelayEvent) : Prop := s.OnReply (fun _ frame req => IsReply frame req) e

instance (e : RelayEvent) : Decidable (s.Answers e) :=
  inferInstanceAs (Decidable (s.OnReply _ e))

/-- A reply goes to the client whose request it answers, through the socket of the request. -/
def Routed (e : RelayEvent) : Prop :=
  s.OnReply (fun orders frame req => ∃ out ∈ s.bridge.handleTx orders frame, ∃ sent ∈ out.2,
    sent.sock = req.sock ∧ sent.dst = req.src) e

instance (e : RelayEvent) : Decidable (s.Routed e) := inferInstanceAs (Decidable (s.OnReply _ e))

/-- The request arrived on the first socket of its VLAN and SP port, and the last client heard for
them has the address of the client that sent it. -/
def Unambiguous (e : RelayEvent) : Prop :=
  s.OnReply (fun _ _ req => s.bridge.socks.findIdx? (relays req.key) = some req.sock ∧
    ∀ last ∈ lastClient req.key s.requests, last.ip = req.src.ip) e

instance (e : RelayEvent) : Decidable (s.Unambiguous e) :=
  inferInstanceAs (Decidable (s.OnReply _ e))

def Heard : Prop := s.bridge.Heard s.requests

end

variable {s s' : RelayRun}

theorem heard_step {e : RelayEvent} (h : s.Heard) (hstep : s.step e = some s') : s'.Heard := by
  cases e with
  | poll orders arrived =>
      obtain rfl := Option.some.inj hstep
      exact pollHost_heard h orders arrived
  | ethTx orders frame answers =>
      obtain ⟨out, hout, rfl⟩ := Option.map_eq_some_iff.mp hstep
      exact handleTx_heard h hout
  | ethRx =>
      obtain rfl := Option.some.inj hstep
      exact h.congr rfl rfl

theorem heard_start (socks : List BoundSock) (pingtest : Bool) : (start socks pingtest).Heard :=
  ⟨nofun, fun _ => rfl⟩

theorem routed_iff_unambiguous (h : s.Heard) {e : RelayEvent} (hans : s.Answers e) :
    s.Routed e ↔ s.Unambiguous e := by
  cases e with
  | poll orders arrived => exact Iff.rfl
  | ethRx => exact Iff.rfl
  | ethTx orders frame answers =>
      cases answers with
      | none => exact Iff.rfl
      | some r =>
          refine forall₂_congr fun req hreq => ?_
          obtain ⟨i, last, hsock, hlast⟩ := Bridge.Heard.of_mem h (List.mem_of_getElem? hreq)
          -- so the reply goes somewhere; the question is where
          obtain ⟨b', payload, htx⟩ := handleTx_reply h hsock hlast orders (hans req hreq)
          dsimp only
          rw [htx, hsock, hlast]
          constructor
          · rintro ⟨out, hout, sent, hsent, hi, hdst⟩
            obtain rfl := Option.some.inj hout
            obtain rfl := Option.some.inj hsent
            refine ⟨congrArg some hi, fun last' hlast' => ?_⟩
            obtain rfl := Option.some.inj hlast'
            have hip := congrArg SocketAddr.ip hdst
            exact hip
          · rintro ⟨hi, hip⟩
            refine ⟨_, rfl, _, rfl, Option.some.inj hi, ?_⟩
            rw [hip last rfl]

/-- In every interleaving of clients, polls and disciplined replies of the SP, on any sockets: the
replies are routed if and only if each of them is unambiguous. -/
theorem routed_iff (socks : List BoundSock) (pingtest : Bool) (es : List RelayEvent)
    (hans : Runs.Along step Answers es (start socks pingtest)) :
    Runs.Along step Routed es (start socks pingtest) ↔
      Runs.Along step Unambiguous es (start socks pingtest) :=
  Runs.along_iff_of_along (fun _ _ _ h _ _ => heard_step h)
    (fun _ _ h hans => routed_iff_unambiguous h hans) (heard_start socks pingtest) hans

/-! A bridge on the loopback address at its default port, and an SP behind it. -/

def loopback : IpAddr := .v6 1

def loopbackSocks : List BoundSock :=
  let vids := defaultVids false none none
  (newSocks (fun _ => true) ⟨loopback, 33300⟩ vids.1 vids.2).getD []

/-- The SP's network stack on the first switch view. -/
def spIdentity : Identity :=
  ⟨⟨[0x0E, 0, 0, 0, 0, 2], rfl⟩, ⟨[0xFE, 0x80, 0, 0, 0, 0, 0, 0, 0, 0, 0, 0, 0, 0, 0, 2], rfl⟩⟩

def asIs : Nat → Nat → IterOrder FlowKey := fun _ _ => IterOrder.asIs FlowKey

/-- The SP transmits, clients send one datagram each through the socket `i`, the SP takes the frames
and answers the first of them from its port `p`. -/
def exchange (i : Nat) (p : Half) (clients : List SocketAddr) : List RelayEvent :=
  let me := Identity.bridge
  [.ethTx asIs (spIdentity.buildNeighborAdvert vidSwitch0 me.myMac me.myIp) none,
    .poll asIs (fun j => if j = i then clients.map fun c => (c, [1]) else []),
    .ethRx, .ethRx, .ethRx,
    .ethTx asIs (spIdentity.buildUdp6 vidSwitch0 me.myMac me.myIp
      (clients.headD ⟨loopback, 0⟩).port p [2]) (some 0)]

/-- One client on the management socket. -/
theorem routed_iff_exchange :
    Runs.Along step Routed (exchange 0 spPort [⟨loopback, 50000⟩]) (start loopbackSocks false) ↔
      Runs.Along step Unambiguous (exchange 0 spPort [⟨loopback, 50000⟩])
        (start loopbackSocks false) :=
  routed_iff loopbackSocks false _ (by decide +kernel)

/-- The reply to a request on the SP's own ereport port leaves through the relay of that port. The
reply to the first of two clients goes to the address of the second. -/
theorem exchange_misrouted :
    (Runs.Along step Answers (exchange 4 ereportPort [⟨loopback, 50000⟩])
          (start loopbackSocks false) ∧
        ¬ Runs.Along step Routed (exchange 4 ereportPort [⟨loopback, 50000⟩])
          (start loopbackSocks false)) ∧
      Runs.Along step Answers (exchange 0 spPort [⟨.v6 2, 50000⟩, ⟨.v6 3, 50001⟩])
          (start loopbackSocks false) ∧
        ¬ Runs.Along step Routed (exchange 0 spPort [⟨.v6 2, 50000⟩, ⟨.v6 3, 50001⟩])
          (start loopbackSocks false) := by
  refine ⟨⟨?_, ?_⟩, ?_, ?_⟩
  · decide +kernel
  · decide +kernel
  · decide +kernel
  · decide +kernel

end RelayRun

end SpEmu
