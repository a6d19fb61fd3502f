import SpEmu.Sprot.Wires
import SpEmu.Lib.Runs

/-!
# Serving the SP from a shared RoT

Without a RoT core of its own the serve loop is the SP's link peer: a poll collects the bytes that
the SP clocked out, sends them to the shared RoT once the SP has released its chip select, and puts
the reply into the queue from which the SP clocks it in.

`SharedRot` is the link with the poll, the client and the service behind it, and the SP as it
drives the bus; the bytes of each transfer are kept for the statements. The loop takes everything
that it finds for one request and everything that comes while a reply is out for dummy bytes:
`Serves` is what the SP expects, and `Safe` says which steps keep it.
-/

set_option autoImplicit false

namespace SpEmu

open ByteMem Sprot

/-! ## The service -/

/-- The longest frame on the service's socket. -/
def maxFrame : Nat := 4096

/-- The service's worker: the RoT and the replies that it remembers. -/
structure RotWorker (R : Type) where
  rot : R
  cache : List Byte → Option (List Byte)

namespace RotWorker

variable {R : Type} (rotExchange : R → List Byte → List Byte × R) (w : RotWorker R)

/-- The answer to a request, from the cache or from the RoT; an empty reply is not remembered. -/
def answer (req : List Byte) : List Byte × RotWorker R :=
  match w.cache req with
  | some reply => (reply, w)
  | none =>
      let (reply, rot) := rotExchange w.rot req
      (reply, if reply ≠ [] then ⟨rot, Function.update w.cache req (some reply)⟩
        else { w with rot := rot })

/-- One attempt of the client on a connection without errors: the reply, if the client gets one,
and the exchanges that the worker has seen. Either side drops the connection at a frame that is
too long. -/
def attempt (req : List Byte) :
    Option (List Byte) × RotWorker R × List (List Byte × List Byte) :=
  let n := req.length % 2 ^ 32
  if maxFrame < n then (none, w, [])
  else
    let (reply, w) := w.answer rotExchange (req.take n)
    let k := reply.length % 2 ^ 32
    (if k ≤ maxFrame then some (reply.take k) else none, w, [(req.take n, reply)])

/-- `RotClient::exchange`: a second attempt after the first one, and an empty reply after that. -/
def exchange (req : List Byte) : List Byte × RotWorker R × List (List Byte × List Byte) :=
  match w.attempt rotExchange req with
  | (some reply, w, log) => (reply, w, log)
  | (none, w, log) =>
      let (reply, w, log') := w.attempt rotExchange req
      (reply.getD [], w, log ++ log')

/-- Both frames fit. -/
def Fits (req : List Byte) : Prop :=
  req.length ≤ maxFrame ∧ (w.answer rotExchange req).1.length ≤ maxFrame

theorem exchange_of_fits {req : List Byte} (h : w.Fits rotExchange req) :
    w.exchange rotExchange req =
      ((w.answer rotExchange req).1, (w.answer rotExchange req).2,
        [(req, (w.answer rotExchange req).1)]) := by
  obtain ⟨hreq, hreply⟩ := h
  have hmax : maxFrame < 2 ^ 32 := by decide
  have hn : req.length % 2 ^ 32 = req.length := Nat.mod_eq_of_lt (by omega)
  have hk : (w.answer rotExchange req).1.length % 2 ^ 32 = (w.answer rotExchange req).1.length :=
    Nat.mod_eq_of_lt (by omega)
  have hattempt : w.attempt rotExchange req =
      (some (w.answer rotExchange req).1, (w.answer rotExchange req).2,
        [(req, (w.answer rotExchange req).1)]) := by
    rw [attempt]
    dsimp only
    rw [hn, if_neg (Nat.not_lt.mpr hreq), List.take_length, hk, if_pos hreply, List.take_length]
  rw [exchange, hattempt]

end RotWorker

/-! ## The serve loop and the SP -/

/-- What the SP does on the bus: the bytes out in a request, the bytes in while it reads a
reply. -/
inductive SpTransfer where
  | idle
  | request (out : List Byte)
  | read (inb : List Byte)

/-- The bytes of a request under way. -/
def SpTransfer.out : SpTransfer → List Byte
  | .request out => out
  | _ => []

structure SharedRot (R : Type) where
  link : SprotLink
  reqBuf : List Byte
  awaitingReply : Bool
  worker : RotWorker R
  /-- The requests that the worker has got, with its replies. -/
  handed : List (List Byte × List Byte)
  sp : SpTransfer
  /-- The requests that the SP has clocked out completely. -/
  sent : List (List Byte)
  /-- The bytes that it has clocked in, for each reply that it has read. -/
  got : List (List Byte)

inductive SharedEvent where
  | assert (reading : Bool)
  | clock (out : Byte)
  | release
  | poll
  /-- The worker answers another client. -/
  | other (req : List Byte)
  /-- The worker finds no request, and the RoT runs on. -/
  | keepAlive

namespace SharedRot

variable {R : Type} (rotExchange : R → List Byte → List Byte × R) (runQuantum : R → R)
  (s : SharedRot R)

def start (w : RotWorker R) : SharedRot R where
  link := SprotLink.new false
  reqBuf := []
  awaitingReply := false
  worker := w
  handed := []
  sp := .idle
  sent := []
  got := []

/-- Collect what the SP clocked out; behind a request these are dummy bytes. -/
def drain : SharedRot R :=
  if s.awaitingReply then { s with link := { s.link with mosi := [] } }
  else { s with link := { s.link with mosi := [] }, reqBuf := s.reqBuf ++ s.link.mosi }

/-- Send the request, and put the reply out. -/
def handOver : SharedRot R :=
  let link := { s.link with ssa := false, ssd := false, sotPending := false }
  let (reply, worker, log) := s.worker.exchange rotExchange s.reqBuf
  { s with
    link := { link with miso := reply, rotIrq := true, requestInFlight := false }
    reqBuf := []
    awaitingReply := true
    worker := worker
    handed := s.handed ++ log }

/-- The reply has been read. -/
def finish : SharedRot R :=
  { s with
    link := { s.link with rotIrq := false, ssa := false, ssd := false, miso := [] }
    awaitingReply := false }

/-- One pass of the serve loop. -/
def poll : SharedRot R :=
  let s := s.drain
  if s.link.ssd = true ∧ s.awaitingReply = false ∧ s.reqBuf ≠ [] then s.handOver rotExchange
  else if s.awaitingReply = true ∧ s.link.ssd = true then s.finish
  else s

/-- The SP asserts the chip select for a request, or to read a reply once it sees ROT_IRQ; it
clocks bytes and releases the chip select. The service's worker has other clients as well, and the
RoT runs between their requests. -/
def step : SharedEvent → Option (SharedRot R)
  | .assert reading =>
      if s.link.cs = false ∧ (reading = true → s.link.rotIrq = true) then
        some { s with
          link := s.link.driveCs true
          sp := if reading then .read [] else .request [] }
      else none
  | .clock out =>
      let (inb, link) := s.link.clock out
      match s.sp with
      | .idle => none
      | .request bytes => some { s with link := link, sp := .request (bytes ++ [out]) }
      | .read bytes => some { s with link := link, sp := .read (bytes ++ [inb]) }
  | .release =>
      match s.sp with
      | .idle => none
      | .request bytes =>
          some { s with
            link := s.link.driveCs false
            sp := .idle
            sent := if bytes = [] then s.sent else s.sent ++ [bytes] }
      | .read bytes =>
          some { s with link := s.link.driveCs false, sp := .idle, got := s.got ++ [bytes] }
  | .poll => some (s.poll rotExchange)
  | .other req => some { s with worker := (s.worker.answer rotExchange req).2 }
  | .keepAlive => some { s with worker := { s.worker with rot := runQuantum s.worker.rot } }

/-! ## What the SP expects, and when it holds -/

/-- The bytes that the loop would take for a request now. -/
def collected : List Byte := s.reqBuf ++ s.link.mosi

/-- The complete request that waits for the next poll. -/
def outstanding : List (List Byte) :=
  if s.awaitingReply = false ∧ s.sp.out = [] ∧ s.collected ≠ [] then [s.collected] else []

/-- What `n` clocks read of a reply. -/
def received (reply : List Byte) (n : Nat) : List Byte := (List.range n).map (reply.getD · 0)

/-- Every complete request is handed over once and unmodified, in order, but for one that waits for
the next poll; and each reply is read once. -/
structure Serves : Prop where
  requests : s.sent = s.handed.map Prod.fst ++ s.outstanding
  replies : s.got.length ≤ s.handed.length ∧ s.handed.length ≤ s.got.length + 1
  returned : ∀ (i : Nat) (bytes : List Byte), s.got[i]? = some bytes →
    ∃ req reply, s.handed[i]? = some (req, reply) ∧ bytes = received reply bytes.length

/-- The steps that keep it: a request is clocked while no reply is out, the byte queue has room and
the request before has been handed over, and no poll in its middle finds the latch of an earlier
release; a reply is read after the poll that put it out; and the frames fit the socket. -/
def Safe : SharedEvent → Prop
  | .assert reading => reading = true → s.link.ssd = false
  | .clock _ => ∀ out, s.sp = .request out →
      s.awaitingReply = false ∧ s.link.mosi.length < fifoBytes ∧ (out = [] → s.collected = [])
  | .release => ∀ out, s.sp = .request out → s.awaitingReply = false
  | .poll => (s.sp.out ≠ [] → s.link.ssd = false) ∧
      (s.outstanding = [s.collected] → s.worker.Fits rotExchange s.collected)
  | .other _ => True
  | .keepAlive => True

/-! ## The invariant -/

variable {s}

/-- Where the loop and the SP stand. -/
inductive Phase (s : SharedRot R) : Prop where
  /-- No request is complete; what has been collected is the one under way. -/
  | gathering (hawait : s.awaitingReply = false) (hmiso : s.link.miso = [])
      (hread : ∀ inb, s.sp ≠ .read inb) (hcollected : s.collected = s.sp.out)
      (hsent : s.sent = s.handed.map Prod.fst) (hgot : s.got.length = s.handed.length)
  /-- A complete request waits for the poll. -/
  | complete (hawait : s.awaitingReply = false) (hmiso : s.link.miso = [])
      (hread : ∀ inb, s.sp ≠ .read inb) (hout : s.sp.out = []) (hsome : s.collected ≠ [])
      (hssd : s.link.ssd = true) (hsent : s.sent = s.handed.map Prod.fst ++ [s.collected])
      (hgot : s.got.length = s.handed.length)
  /-- The last reply is out, and has not been read. -/
  | replying (req reply : List Byte) (l : List (List Byte × List Byte))
      (hawait : s.awaitingReply = true) (hbuf : s.reqBuf = []) (hssd : s.link.ssd = false)
      (hread : ∀ inb, s.sp ≠ .read inb) (hout : s.sp.out = [])
      (hmiso : s.link.miso = reply) (hhanded : s.handed = l ++ [(req, reply)])
      (hsent : s.sent = s.handed.map Prod.fst) (hgot : s.got.length = l.length)
  /-- It is being read. -/
  | reading (req reply inb : List Byte) (l : List (List Byte × List Byte))
      (hawait : s.awaitingReply = true) (hbuf : s.reqBuf = []) (hssd : s.link.ssd = false)
      (hread : s.sp = .read inb) (hinb : inb = received reply inb.length)
      (hmiso : s.link.miso = reply.drop inb.length) (hhanded : s.handed = l ++ [(req, reply)])
      (hsent : s.sent = s.handed.map Prod.fst) (hgot : s.got.length = l.length)
  /-- It has been read. -/
  | behind (hawait : s.awaitingReply = true) (hbuf : s.reqBuf = []) (hssd : s.link.ssd = true)
      (hread : ∀ inb, s.sp ≠ .read inb) (hout : s.sp.out = [])
      (hsent : s.sent = s.handed.map Prod.fst) (hgot : s.got.length = s.handed.length)

structure Inv (s : SharedRot R) : Prop where
  live : s.link.rotLive = false
  irq : s.link.rotIrq = s.awaitingReply
  cs : s.link.cs = false ↔ s.sp = .idle
  returned : ∀ (i : Nat) (bytes : List Byte), s.got[i]? = some bytes →
    ∃ req reply, s.handed[i]? = some (req, reply) ∧ bytes = received reply bytes.length
  phase : s.Phase

theorem inv_start (w : RotWorker R) : (start w).Inv where
  live := rfl
  irq := rfl
  cs := iff_of_true rfl rfl
  returned _ _ h := by cases h
  phase := .gathering rfl rfl nofun rfl rfl rfl

theorem received_succ (reply : List Byte) (n : Nat) :
    received reply n ++ [(reply.drop n).headD 0] = received reply (n + 1) := by
  rw [received, received, List.range_succ, List.map_append, List.headD_eq_head?_getD,
    List.head?_drop, ← List.getD_eq_getElem?_getD]
  rfl

/-! ### What a poll does -/

/-- While no reply is out, what has been clocked is collected. -/
theorem drain_of_gathering (hawait : s.awaitingReply = false) :
    s.drain = { s with link := { s.link with mosi := [] }, reqBuf := s.collected } :=
  if_neg (by rw [hawait]; exact Bool.false_ne_true)

theorem poll_of_no_request (hawait : s.awaitingReply = false)
    (hnone : s.link.ssd = true → s.collected = []) :
    s.poll rotExchange = { s with link := { s.link with mosi := [] }, reqBuf := s.collected } := by
  rw [SharedRot.poll, drain_of_gathering hawait]
  dsimp only
  rw [if_neg, if_neg]
  · rintro ⟨hawait', -⟩
    rw [hawait] at hawait'
    cases hawait'
  · rintro ⟨hssd, -, hsome⟩
    exact hsome (hnone hssd)

/-- A complete request is handed over as it is, and its reply put out. -/
theorem poll_of_request (hawait : s.awaitingReply = false) (hssd : s.link.ssd = true)
    (hsome : s.collected ≠ []) (hfits : s.worker.Fits rotExchange s.collected) :
    s.poll rotExchange =
      { s with
        link := { s.link with
          mosi := [], ssa := false, ssd := false, sotPending := false,
          miso := (s.worker.answer rotExchange s.collected).1, rotIrq := true,
          requestInFlight := false }
        reqBuf := []
        awaitingReply := true
        worker := (s.worker.answer rotExchange s.collected).2
        handed := s.handed ++
          [(s.collected, (s.worker.answer rotExchange s.collected).1)] } := by
  rw [SharedRot.poll, drain_of_gathering hawait]
  dsimp only
  rw [if_pos ⟨hssd, hawait, hsome⟩, handOver]
  dsimp only
  rw [s.worker.exchange_of_fits rotExchange hfits]

theorem poll_of_reply (hawait : s.awaitingReply = true) (hssd : s.link.ssd = false) :
    s.poll rotExchange = { s with link := { s.link with mosi := [] } } := by
  have hlatch : s.link.ssd ≠ true := by
    rw [hssd]
    exact Bool.false_ne_true
  rw [SharedRot.poll, drain, if_pos hawait]
  dsimp only
  rw [if_neg (fun hall => hlatch hall.1), if_neg (fun hall => hlatch hall.2)]

theorem poll_of_read (hawait : s.awaitingReply = true) (hssd : s.link.ssd = true) :
    s.poll rotExchange = finish { s with link := { s.link with mosi := [] } } := by
  rw [SharedRot.poll, drain, if_pos hawait]
  dsimp only
  rw [if_neg, if_pos ⟨hawait, hssd⟩]
  rintro ⟨-, hawait', -⟩
  rw [hawait] at hawait'
  cases hawait'

/-! ### The steps keep it -/

section Steps

variable {s' : SharedRot R} (h : s.Inv)

include h

/-- Asserting the chip select. -/
theorem Inv.assert {reading : Bool} (hsafe : s.Safe rotExchange (.assert reading))
    (hstep : s.step rotExchange runQuantum (.assert reading) = some s') : s'.Inv := by
  rw [step] at hstep
  split at hstep
  case isFalse => cases hstep
  next hguard =>
  obtain ⟨hcs, hirq⟩ := hguard
  cases hstep
  have hidle : s.sp = .idle := h.cs.mp hcs
  have hedge : s.link.driveCs true =
      { s.link with ssa := true, sotPending := true, cs := true } := by
    rcases s.link.driveCs_cases true with ⟨heq, -⟩ | ⟨-, -, heq⟩ | ⟨-, heq, -⟩
    · rw [hcs] at heq
      cases heq
    · rw [heq, if_neg (by rw [h.live]; exact Bool.false_ne_true)]
    · cases heq
  rw [hedge]
  refine ⟨h.live, h.irq, ?_, h.returned, ?_⟩
  · refine iff_of_false nofun ?_
    cases reading <;> exact nofun
  cases reading with
  | false =>
      cases h.phase with
      | gathering hawait hmiso hread hcollected hsent hgot =>
          rw [hidle] at hcollected
          exact .gathering hawait hmiso nofun hcollected hsent hgot
      | complete hawait hmiso hread hout hsome hssd hsent hgot =>
          exact .complete hawait hmiso nofun rfl hsome hssd hsent hgot
      | replying req reply l hawait hbuf hssd hread hout hmiso hhanded hsent hgot =>
          exact .replying req reply l hawait hbuf hssd nofun rfl hmiso hhanded hsent hgot
      | reading _ _ _ _ _ _ _ hread => rw [hidle] at hread; cases hread
      | behind hawait hbuf hssd hread hout hsent hgot =>
          exact .behind hawait hbuf hssd nofun rfl hsent hgot
  | true =>
      -- the SP sees ROT_IRQ, so that a reply is out
      have hawaiting : s.awaitingReply = true := h.irq.symm.trans (hirq rfl)
      cases h.phase with
      | gathering hawait => rw [hawait] at hawaiting; cases hawaiting
      | complete hawait => rw [hawait] at hawaiting; cases hawaiting
      | replying req reply l hawait hbuf hssd hread hout hmiso hhanded hsent hgot =>
          exact .reading req reply [] l hawait hbuf hssd rfl rfl hmiso hhanded hsent hgot
      | reading _ _ _ _ _ _ _ hread => rw [hidle] at hread; cases hread
      | behind _ _ hssd => rw [hsafe rfl] at hssd; cases hssd

/-- Clocking a byte. -/
theorem Inv.clock {b : Byte} (hsafe : s.Safe rotExchange (.clock b))
    (hstep : s.step rotExchange runQuantum (.clock b) = some s') : s'.Inv := by
  have hlink := s.link.clock_link b
  rw [step] at hstep
  dsimp only at hstep
  split at hstep
  · cases hstep
  · next out hsp =>
      cases hstep
      obtain ⟨hawaiting, hroom, hfirst⟩ := hsafe out hsp
      rw [hlink, if_pos hroom]
      refine ⟨h.live, h.irq, ?_, h.returned, ?_⟩
      · refine iff_of_false (fun hcs => ?_) nofun
        have hidle := h.cs.mp hcs
        rw [hsp] at hidle
        cases hidle
      cases h.phase with
      | gathering hawait hmiso hread hcollected hsent hgot =>
          refine .gathering hawait ?_ nofun ?_ hsent hgot
          · rw [hmiso]
            rfl
          · rw [collected] at hcollected ⊢
            rw [← List.append_assoc, hcollected, hsp]
            rfl
      | complete _ _ _ hout hsome =>
          rw [hsp] at hout
          exact absurd (hfirst hout) hsome
      | replying _ _ _ hawait => rw [hawait] at hawaiting; cases hawaiting
      | reading _ _ _ _ hawait => rw [hawait] at hawaiting; cases hawaiting
      | behind hawait => rw [hawait] at hawaiting; cases hawaiting
  · next bytes hsp =>
      cases hstep
      refine ⟨?_, ?_, ?_, h.returned, ?_⟩
      · rw [hlink]
        exact h.live
      · rw [hlink]
        exact h.irq
      · rw [hlink]
        refine iff_of_false (fun hcs => ?_) nofun
        have hidle := h.cs.mp hcs
        rw [hsp] at hidle
        cases hidle
      cases h.phase with
      | gathering _ _ hread => exact absurd hsp (hread bytes)
      | complete _ _ hread => exact absurd hsp (hread bytes)
      | replying _ _ _ _ _ _ hread => exact absurd hsp (hread bytes)
      | behind _ _ _ hread => exact absurd hsp (hread bytes)
      | reading req reply inb l hawait hbuf hssd hread hinb hmiso hhanded hsent hgot =>
          rw [hsp] at hread
          cases hread
          have hin : (s.link.clock b).1 = (reply.drop bytes.length).headD 0 := by
            rw [← hmiso]
            rw [SprotLink.clock]
            split <;> rfl
          refine .reading req reply (bytes ++ [(s.link.clock b).1]) l hawait hbuf ?_ rfl ?_ ?_
            hhanded hsent hgot
          · rw [hlink]
            exact hssd
          · rw [List.length_append, List.length_singleton, ← received_succ, hin, ← hinb]
          · rw [hlink, hmiso, List.length_append, List.length_singleton, List.tail_drop]

/-- Releasing the chip select. -/
theorem Inv.release (hsafe : s.Safe rotExchange .release)
    (hstep : s.step rotExchange runQuantum .release = some s') : s'.Inv := by
  have hedge : s.sp ≠ .idle → s.link.driveCs false = { s.link with ssd := true, cs := false } := by
    intro hbusy
    have hcs : s.link.cs = true := Bool.eq_true_of_not_eq_false fun hcs => hbusy (h.cs.mp hcs)
    rcases s.link.driveCs_cases false with ⟨heq, -⟩ | ⟨-, heq, -⟩ | ⟨-, -, heq⟩
    · rw [hcs] at heq
      cases heq
    · cases heq
    · exact heq
  rw [step] at hstep
  split at hstep
  · cases hstep
  · next out hsp =>
      cases hstep
      have hawaiting : s.awaitingReply = false := hsafe out hsp
      rw [hedge (by rw [hsp]; exact nofun)]
      refine ⟨h.live, h.irq, iff_of_true rfl rfl, h.returned, ?_⟩
      cases h.phase with
      | gathering hawait hmiso hread hcollected hsent hgot =>
          rw [hsp] at hcollected
          split
          · next hempty =>
              exact .gathering hawait hmiso nofun (hcollected.trans hempty) hsent hgot
          · next hsome =>
              -- the request is complete
              refine .complete hawait hmiso nofun rfl ?_ rfl ?_ hgot
              · exact fun hnil => hsome (hcollected.symm.trans hnil)
              · show s.sent ++ [out] = s.handed.map Prod.fst ++ [s.collected]
                rw [hsent, hcollected]
                rfl
      | complete hawait hmiso hread hout hsome hssd hsent hgot =>
          rw [hsp] at hout
          rw [if_pos (show out = [] from hout)]
          exact .complete hawait hmiso nofun rfl hsome rfl hsent hgot
      | replying _ _ _ hawait => rw [hawait] at hawaiting; cases hawaiting
      | reading _ _ _ _ hawait => rw [hawait] at hawaiting; cases hawaiting
      | behind hawait => rw [hawait] at hawaiting; cases hawaiting
  · next bytes hsp =>
      cases hstep
      rw [hedge (by rw [hsp]; exact nofun)]
      cases h.phase with
      | gathering _ _ hread => exact absurd hsp (hread bytes)
      | complete _ _ hread => exact absurd hsp (hread bytes)
      | replying _ _ _ _ _ _ hread => exact absurd hsp (hread bytes)
      | behind _ _ _ hread => exact absurd hsp (hread bytes)
      | reading req reply inb l hawait hbuf hssd hread hinb hmiso hhanded hsent hgot =>
          rw [hsp] at hread
          cases hread
          refine ⟨h.live, h.irq, iff_of_true rfl rfl, ?_, ?_⟩
          · intro i read hget
            rcases Runs.getElem?_log_concat hget with hold | ⟨rfl, rfl⟩
            · exact h.returned i read hold
            · refine ⟨req, reply, ?_, hinb⟩
              show s.handed[s.got.length]? = some (req, reply)
              rw [hgot, hhanded, List.getElem?_concat_length]
          · refine .behind hawait hbuf rfl nofun rfl hsent ?_
            rw [List.length_append, List.length_singleton, hgot]
            show l.length + 1 = s.handed.length
            rw [hhanded, List.length_append, List.length_singleton]

/-- The worker's own steps. -/
theorem Inv.setWorker (w : RotWorker R) : ({ s with worker := w } : SharedRot R).Inv := by
  refine ⟨h.live, h.irq, h.cs, h.returned, ?_⟩
  cases h.phase with
  | gathering hawait hmiso hread hcollected hsent hgot =>
      exact .gathering hawait hmiso hread hcollected hsent hgot
  | complete hawait hmiso hread hout hsome hssd hsent hgot =>
      exact .complete hawait hmiso hread hout hsome hssd hsent hgot
  | replying req reply l hawait hbuf hssd hread hout hmiso hhanded hsent hgot =>
      exact .replying req reply l hawait hbuf hssd hread hout hmiso hhanded hsent hgot
  | reading req reply inb l hawait hbuf hssd hread hinb hmiso hhanded hsent hgot =>
      exact .reading req reply inb l hawait hbuf hssd hread hinb hmiso hhanded hsent hgot
  | behind hawait hbuf hssd hread hout hsent hgot =>
      exact .behind hawait hbuf hssd hread hout hsent hgot

/-- A poll. -/
theorem Inv.poll (hsafe : s.Safe rotExchange .poll) : (s.poll rotExchange).Inv := by
  obtain ⟨hlatch, hfits⟩ := hsafe
  cases h.phase with
  | gathering hawait hmiso hread hcollected hsent hgot =>
      rw [poll_of_no_request rotExchange hawait
        (fun hssd => by_contra fun hsome => by
          rw [hlatch (fun hout => hsome (hcollected.trans hout))] at hssd
          cases hssd)]
      refine ⟨h.live, h.irq, h.cs, h.returned, .gathering hawait hmiso hread ?_ hsent hgot⟩
      exact (List.append_nil _).trans hcollected
  | complete hawait hmiso hread hout hsome hssd hsent hgot =>
      rw [poll_of_request rotExchange hawait hssd hsome (hfits (if_pos ⟨hawait, hout, hsome⟩))]
      refine ⟨h.live, rfl, h.cs, ?_, ?_⟩
      · intro i bytes hget
        obtain ⟨req, reply, hhanded, hbytes⟩ := h.returned i bytes hget
        refine ⟨req, reply, ?_, hbytes⟩
        rw [List.getElem?_append_left (List.getElem?_eq_some_iff.mp hhanded).1, hhanded]
      · refine .replying _ _ s.handed rfl rfl rfl hread hout rfl rfl ?_ hgot
        rw [List.map_append]
        exact hsent
  | replying req reply l hawait hbuf hssd hread hout hmiso hhanded hsent hgot =>
      rw [poll_of_reply rotExchange hawait hssd]
      exact ⟨h.live, h.irq, h.cs, h.returned,
        .replying req reply l hawait hbuf hssd hread hout hmiso hhanded hsent hgot⟩
  | reading req reply inb l hawait hbuf hssd hread hinb hmiso hhanded hsent hgot =>
      rw [poll_of_reply rotExchange hawait hssd]
      exact ⟨h.live, h.irq, h.cs, h.returned,
        .reading req reply inb l hawait hbuf hssd hread hinb hmiso hhanded hsent hgot⟩
  | behind hawait hbuf hssd hread hout hsent hgot =>
      rw [poll_of_read rotExchange hawait hssd]
      refine ⟨h.live, rfl, h.cs, h.returned, .gathering rfl rfl hread ?_ hsent hgot⟩
      show s.reqBuf ++ [] = s.sp.out
      rw [hbuf, hout]
      rfl

/-- After a poll no complete request waits. -/
theorem Inv.poll_requests (hsafe : s.Safe rotExchange .poll) :
    (s.poll rotExchange).sent = (s.poll rotExchange).handed.map Prod.fst := by
  obtain ⟨hlatch, hfits⟩ := hsafe
  cases h.phase with
  | gathering hawait hmiso hread hcollected hsent =>
      rw [poll_of_no_request rotExchange hawait
        (fun hssd => by_contra fun hsome => by
          rw [hlatch (fun hout => hsome (hcollected.trans hout))] at hssd
          cases hssd)]
      exact hsent
  | complete hawait hmiso hread hout hsome hssd hsent =>
      rw [poll_of_request rotExchange hawait hssd hsome (hfits (if_pos ⟨hawait, hout, hsome⟩))]
      show s.sent = (s.handed ++ [_]).map Prod.fst
      rw [List.map_append]
      exact hsent
  | replying _ _ _ hawait _ hssd _ _ _ _ hsent =>
      rw [poll_of_reply rotExchange hawait hssd]
      exact hsent
  | reading _ _ _ _ hawait _ hssd _ _ _ _ hsent =>
      rw [poll_of_reply rotExchange hawait hssd]
      exact hsent
  | behind hawait _ hssd _ _ hsent =>
      rw [poll_of_read rotExchange hawait hssd]
      exact hsent

theorem Inv.step {e : SharedEvent} (hsafe : s.Safe rotExchange e)
    (hstep : s.step rotExchange runQuantum e = some s') : s'.Inv := by
  cases e with
  | assert reading => exact h.assert rotExchange runQuantum hsafe hstep
  | clock b => exact h.clock rotExchange runQuantum hsafe hstep
  | release => exact h.release rotExchange runQuantum hsafe hstep
  | poll =>
      cases hstep
      exact h.poll rotExchange hsafe
  | other req =>
      cases hstep
      exact h.setWorker _
  | keepAlive =>
      cases hstep
      exact h.setWorker _

/-- The invariant says what the SP expects. -/
theorem Inv.serves : s.Serves := by
  refine ⟨?_, ?_, h.returned⟩
  · rw [outstanding]
    cases h.phase with
    | gathering hawait hmiso hread hcollected hsent hgot =>
        rw [if_neg (fun hall => hall.2.2 (hcollected.trans hall.2.1)), List.append_nil]
        exact hsent
    | complete hawait hmiso hread hout hsome hssd hsent hgot =>
        rw [if_pos ⟨hawait, hout, hsome⟩]
        exact hsent
    | replying _ _ _ hawait _ _ _ _ _ _ hsent =>
        rw [if_neg (fun hall => absurd (hawait.symm.trans hall.1) (by decide)), List.append_nil]
        exact hsent
    | reading _ _ _ _ hawait _ _ _ _ _ _ hsent =>
        rw [if_neg (fun hall => absurd (hawait.symm.trans hall.1) (by decide)), List.append_nil]
        exact hsent
    | behind hawait _ _ _ _ hsent =>
        rw [if_neg (fun hall => absurd (hawait.symm.trans hall.1) (by decide)), List.append_nil]
        exact hsent
  · cases h.phase with
    | gathering _ _ _ _ _ hgot => omega
    | complete _ _ _ _ _ _ _ hgot => omega
    | replying _ _ l _ _ _ _ _ _ hhanded _ hgot =>
        rw [hhanded, List.length_append, List.length_singleton]
        omega
    | reading _ _ _ l _ _ _ _ _ _ hhanded _ hgot =>
        rw [hhanded, List.length_append, List.length_singleton]
        omega
    | behind _ _ _ _ _ _ hgot => omega

end Steps

/-! ## Runs -/

/-- In every interleaving of the SP, the polls and the service whose steps are all safe, the
requests are handed over once, unmodified and in order, and each reply is read once; a safe poll
leaves no complete request waiting. -/
theorem serves_of_safe {es : List SharedEvent} {w : RotWorker R}
    (hsafe : Runs.Along (SharedRot.step rotExchange runQuantum) (Safe rotExchange) es (start w))
    (hrun : Runs.run (SharedRot.step rotExchange runQuantum) es (start w) = some s) :
    s.Serves ∧ (s.Safe rotExchange .poll →
      (s.poll rotExchange).sent = (s.poll rotExchange).handed.map Prod.fst) := by
  have h : s.Inv :=
    Runs.invariant_of_along (fun _ _ _ h => Inv.step rotExchange runQuantum h) (inv_start w)
      hsafe hrun
  exact ⟨h.serves, h.poll_requests rotExchange⟩

instance decidableRequest (sp : SpTransfer) (P : List Byte → Prop) [DecidablePred P] :
    Decidable (∀ out, sp = .request out → P out) :=
  match sp with
  | .idle => isTrue nofun
  | .request out => decidable_of_iff (P out) ⟨fun h _ hsp => SpTransfer.request.inj hsp ▸ h,
      fun h => h out rfl⟩
  | .read _ => isTrue nofun

instance decidableSafe (s : SharedRot R) : (e : SharedEvent) → Decidable (s.Safe rotExchange e)
  | .assert reading => inferInstanceAs (Decidable (reading = true → s.link.ssd = false))
  | .clock _ => inferInstanceAs (Decidable (∀ out, s.sp = .request out → _ ∧ _))
  | .release => inferInstanceAs (Decidable (∀ out, s.sp = .request out → _))
  | .poll => inferInstanceAs (Decidable ((s.sp.out ≠ [] → s.link.ssd = false) ∧
      (s.outstanding = [s.collected] →
        s.collected.length ≤ maxFrame ∧
          (s.worker.answer rotExchange s.collected).1.length ≤ maxFrame)))
  | .other _ => isTrue trivial
  | .keepAlive => isTrue trivial

/-- A RoT that sends each request back. -/
def echo (_ : Unit) (req : List Byte) : List Byte × Unit := (req, ())

/-- Behind it, a worker that has seen no request. -/
def echoWorker : RotWorker Unit := ⟨(), fun _ => none⟩

/-- A request of two bytes with a poll between them, and its reply, with another client's request
before it. -/
def exchangeRun : List SharedEvent :=
  [.assert false, .clock 0x06, .poll, .clock 0xB1, .release, .other [0x07], .poll,
    .assert true, .clock 0, .poll, .keepAlive, .clock 0, .release, .poll]

theorem serves_of_safe_exchangeRun :
    ∃ s, Runs.run (SharedRot.step echo id) exchangeRun (start echoWorker) = some s ∧
      (s.sent = [[0x06, 0xB1]] ∧ s.got = [[0x06, 0xB1]]) ∧
      s.Serves ∧ (s.Safe echo .poll →
        (s.poll echo).sent = (s.poll echo).handed.map Prod.fst) := by
  have hends : (Runs.run (SharedRot.step echo id) exchangeRun (start echoWorker)).map
      (fun s => (s.sent, s.got)) = some ([[0x06, 0xB1]], [[0x06, 0xB1]]) := by
    decide +kernel
  obtain ⟨s, hrun, hs⟩ := Option.map_eq_some_iff.mp hends
  exact ⟨s, hrun, Prod.mk.inj hs, serves_of_safe echo id (by decide +kernel) hrun⟩

/-- A run at whose end nothing waits, and other requests have been handed over than were sent. -/
theorem not_serves_of_run {es : List SharedEvent} {sent handed : List (List Byte)}
    (hends : (Runs.run (SharedRot.step echo id) es (start echoWorker)).map
      (fun s => (s.sent, s.handed.map Prod.fst, s.outstanding)) = some (sent, handed, []))
    (hne : sent ≠ handed) :
    ∃ s, Runs.run (SharedRot.step echo id) es (start echoWorker) = some s ∧
      s.sent = sent ∧ s.handed.map Prod.fst = handed ∧ ¬ s.Serves := by
  obtain ⟨s, hrun, hs⟩ := Option.map_eq_some_iff.mp hends
  obtain ⟨hsent, hrest⟩ := Prod.mk.inj hs
  obtain ⟨hhanded, hout⟩ := Prod.mk.inj hrest
  refine ⟨s, hrun, hsent, hhanded, fun h => hne ?_⟩
  have hrequests := h.requests
  rw [hsent, hhanded, hout, List.append_nil] at hrequests
  exact hrequests

/-- The SP clocks 17 bytes between two polls. -/
def burst : List SharedEvent :=
  .assert false :: (List.replicate 17 (.clock 0xA5) ++ [.release, .poll])

/-- The SP reads a reply and begins the next request before the poll that sees the release. -/
def earlyRequest : List SharedEvent :=
  [.assert false, .clock 0x06, .release, .poll, .assert true, .clock 0, .release,
    .assert false, .clock 0x07, .poll, .clock 0x08, .release, .poll]

/-- Of a burst the last byte is lost, and of an early request what comes before the poll. -/
theorem burst_not_served :
    (∃ s, Runs.run (SharedRot.step echo id) burst (start echoWorker) = some s ∧
      s.sent = [List.replicate 17 0xA5] ∧ s.handed.map Prod.fst = [List.replicate 16 0xA5] ∧
      ¬ s.Serves) ∧
    ∃ s, Runs.run (SharedRot.step echo id) earlyRequest (start echoWorker) = some s ∧
      s.sent = [[0x06], [0x07, 0x08]] ∧ s.handed.map Prod.fst = [[0x06], [0x08]] ∧
      ¬ s.Serves :=
  ⟨not_serves_of_run (by decide +kernel) (by decide),
    not_serves_of_run (by decide +kernel) (by decide)⟩

end SharedRot

end SpEmu
