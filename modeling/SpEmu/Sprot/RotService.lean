import SpEmu.Sprot.SharedRot
import Mathlib.Data.List.GetD

/-!
# The exchange of the RoT service

`rotExchange` drives the RoT through one transaction: it feeds the request as the RoT takes it,
waits for ROT_IRQ, and collects the bytes that the RoT clocks out until the reply is complete. How
the RoT runs in between is a parameter: a quantum may do anything to the link.

The bytes come in as they are, with dummy bytes before the reply and idle ones behind it, and with
any number of them in a pass; `drained` keeps them all. `Collected` relates them to what has been
made of them, and `reply_extracted` is what every exchange has extracted after each of its passes.
-/

set_option autoImplicit false

namespace SpEmu

open ByteMem

namespace RotService

/-- The longest reply: header, body and CRC. -/
def maxResp : Nat := 2048

/-- The passes of an exchange at most. -/
def maxPasses : Nat := 200000

/-- The first nonzero byte. -/
def firstNonzero (buf : List Byte) : Option Nat := buf.findIdx? fun b => b != 0

/-- The body size in the header at `start`. -/
def bodySize (resp : List Byte) (start : Nat) : Nat :=
  (resp.getD (start + 4) 0).toNat + 256 * (resp.getD (start + 5) 0).toNat

/-- Where the reply ends, once its header is there and states a size that can be trusted. -/
def replyEnd (resp : List Byte) : Option Nat :=
  match firstNonzero resp with
  | some start =>
      if start + 6 ≤ resp.length then
        if bodySize resp start + 8 ≤ maxResp then some (start + 6 + bodySize resp start + 2)
        else none
      else none
  | none => none

end RotService

open RotService

/-- An exchange under way. -/
structure Exchange (R : Type) where
  rot : R
  link : SprotLink
  /-- The bytes of the request that are in. -/
  fed : Nat
  deasserted : Bool
  /-- The RoT has raised ROT_IRQ, and the reply is being read. -/
  phase2 : Bool
  resp : List Byte
  /-- The end of the reply in `resp`. -/
  total : Option Nat
  done : Bool
  /-- Passes in a row in which the RoT idled. -/
  quiet : Nat
  /-- All bytes that were taken off the link. -/
  drained : List Byte

namespace Exchange

variable {R : Type} (quantum : Bool → R → SprotLink → Bool × R × SprotLink) (req : List Byte)
  (s : Exchange R)

def start (rot : R) (link : SprotLink) : Exchange R where
  rot := rot
  link := { link with
    mosi := [], miso := [], cs := true, ssa := true, ssd := false, sotPending := true
    rotIrq := false, requestInFlight := false, spRotIrqPending := false }
  fed := 0
  deasserted := false
  phase2 := false
  resp := []
  total := none
  done := false
  quiet := 0
  drained := []

/-- Feed the request as far as the FIFO has room; release the chip select once all of it is in and
nearly taken. -/
def feedRequest : Exchange R :=
  if s.deasserted then s
  else
    let chunk := (req.drop s.fed).take (16 - s.link.mosi.length)
    let link : SprotLink := { s.link with mosi := s.link.mosi ++ chunk }
    let fed := s.fed + chunk.length
    if req.length ≤ fed ∧ link.mosi.length ≤ 2 then
      { s with link := { link with cs := false, ssd := true }, fed := fed, deasserted := true }
    else { s with link := link, fed := fed }

/-- Run the RoT, woken while the bus is active. The result says whether it idled. -/
def runQuantum : Bool × Exchange R :=
  let (idled, rot, link) := quantum (s.link.ssa || s.link.cs || s.link.rotIrq) s.rot s.link
  (idled, { s with rot := rot, link := link })

/-- Assert the chip select for the reply. -/
def enterPhase2 : Exchange R :=
  { s with phase2 := true, link := { s.link with cs := true, ssa := true, ssd := false } }

/-- Take what the RoT clocked out; behind a complete reply it is discarded. -/
def collect : Exchange R :=
  if s.phase2 then
    { s with
      resp := if s.done then s.resp else s.resp ++ s.link.miso
      drained := s.drained ++ s.link.miso
      link := { s.link with miso := [] } }
  else s

def boundReply : Exchange R :=
  if s.phase2 ∧ s.total = none then { s with total := replyEnd s.resp } else s

/-- A complete reply is cut out, and the chip select is released. -/
def completeReply : Exchange R :=
  match s.total with
  | some t =>
      if t ≤ s.resp.length ∧ s.done = false then
        let first := (firstNonzero s.resp).getD 0
        { s with
          resp := (s.resp.drop first).take (t - first)
          link := { s.link with cs := false, ssa := false, ssd := true }
          done := true }
      else s
  | none => s

/-- What a pass makes of the bytes on the link. -/
def extract : Exchange R := s.collect.boundReply.completeReply

/-- One pass. The result says whether the exchange ends with it: the RoT has seen the end of the
transfer, or it idles without giving anything for too long. -/
def pass : Bool × Exchange R :=
  let (idled, s) := (s.feedRequest req).runQuantum quantum
  -- the RoT runs with the chip select asserted before anything is collected
  if s.phase2 = false ∧ s.link.rotIrq = true then (false, s.enterPhase2)
  else
    let s := s.extract
    if s.done = true ∧ s.link.rotIrq = false then (true, s)
    else if s.phase2 = true ∧ idled = true ∧ s.link.miso = [] then
      (decide (8 ≤ s.quiet + 1), { s with quiet := s.quiet + 1 })
    else (false, { s with quiet := 0 })

/-- At most `n` passes. -/
def passes : (n : Nat) → Exchange R → Exchange R
  | 0, s => s
  | n + 1, s =>
      let (ends, s) := s.pass quantum req
      if ends then s else passes n s

end Exchange

/-- One transaction with the RoT: the reply, the RoT and the link. -/
def rotExchange {R : Type} (quantum : Bool → R → SprotLink → Bool × R × SprotLink)
    (w : R × SprotLink) (req : List Byte) : List Byte × R × SprotLink :=
  let e := (Exchange.start w.1 w.2).passes quantum req maxPasses
  (e.resp, e.rot, e.link)

/-! ## Replies in a stream -/

/-- A header that starts with a nonzero byte, a body of the length that it states, and a CRC. -/
structure IsReply (reply : List Byte) : Prop where
  starts : ∃ b rest, reply = b :: rest ∧ b ≠ 0
  header : 6 ≤ reply.length
  length : reply.length = 6 + bodySize reply 0 + 2
  bounded : reply.length ≤ maxResp

/-- The stream has a reply behind `n` zero bytes. -/
structure ReplyAt (stream : List Byte) (n : Nat) (reply : List Byte) : Prop where
  split : ∃ trailing, stream = List.replicate n 0 ++ reply ++ trailing
  isReply : IsReply reply

namespace RotService

theorem firstNonzero_zeros {n : Nat} {b : Byte} (hb : b ≠ 0) (rest : List Byte) :
    firstNonzero (List.replicate n 0 ++ b :: rest) = some n := by
  have hzeros : (List.replicate n (0 : Byte)).findIdx? (fun b => b != 0) = none := by
    rw [List.findIdx?_eq_none_iff]
    intro x hx
    rw [List.eq_of_mem_replicate hx]
    rfl
  rw [firstNonzero, List.findIdx?_append, hzeros, List.findIdx?_cons,
    if_pos (by simpa using hb), List.length_replicate]
  simp

theorem eq_of_firstNonzero {buf : List Byte} {n : Nat} (h : firstNonzero buf = some n) :
    ∃ b rest, buf = List.replicate n 0 ++ b :: rest ∧ b ≠ 0 := by
  induction buf generalizing n with
  | nil => cases h
  | cons x buf ih =>
      rw [firstNonzero, List.findIdx?_cons] at h
      by_cases hx : x = 0
      · subst hx
        obtain ⟨m, hm, rfl⟩ := Option.map_eq_some_iff.mp (by simpa using h)
        obtain ⟨b, rest, rfl, hb⟩ := ih hm
        exact ⟨b, rest, rfl, hb⟩
      · have hpos : (x != 0) = true := by simpa using hx
        rw [if_pos hpos] at h
        cases h
        exact ⟨x, buf, rfl, hx⟩

theorem bodySize_append (resp more : List Byte) {start : Nat} (h : start + 6 ≤ resp.length) :
    bodySize (resp ++ more) start = bodySize resp start := by
  rw [bodySize, bodySize, List.getD_append _ _ _ _ (by omega), List.getD_append _ _ _ _ (by omega)]

theorem bodySize_zeros (n : Nat) (resp : List Byte) :
    bodySize (List.replicate n 0 ++ resp) n = bodySize resp 0 := by
  have hget : ∀ i, (List.replicate n 0 ++ resp).getD (n + i) 0 = resp.getD i 0 := by
    intro i
    rw [List.getD_append_right _ _ _ _ (by simp), List.length_replicate, Nat.add_sub_cancel_left]
  rw [bodySize, bodySize, hget, hget, Nat.zero_add, Nat.zero_add]

/-- What is found stays where it is when the stream goes on. -/
theorem firstNonzero_append {resp : List Byte} {n : Nat} (h : firstNonzero resp = some n)
    (more : List Byte) : firstNonzero (resp ++ more) = some n := by
  rw [firstNonzero, List.findIdx?_append, show resp.findIdx? (fun b => b != 0) = some n from h]
  rfl

theorem replyEnd_eq_some {resp : List Byte} {t : Nat} :
    replyEnd resp = some t ↔ ∃ start, firstNonzero resp = some start ∧ start + 6 ≤ resp.length ∧
      bodySize resp start + 8 ≤ maxResp ∧ t = start + 6 + bodySize resp start + 2 := by
  rw [replyEnd]
  cases hfirst : firstNonzero resp with
  | none =>
      refine iff_of_false (fun h => by cases h) ?_
      rintro ⟨start, h, -⟩
      cases h
  | some start =>
      constructor
      · intro h
        simp only at h
        split at h
        · next hlen =>
            split at h
            · next hmax => exact ⟨start, rfl, hlen, hmax, (Option.some.inj h).symm⟩
            · cases h
        · cases h
      · rintro ⟨start', heq, hlen, hmax, rfl⟩
        cases heq
        simp only [if_pos hlen, if_pos hmax]

theorem replyEnd_append {resp : List Byte} {t : Nat} (h : replyEnd resp = some t)
    (more : List Byte) : replyEnd (resp ++ more) = some t := by
  obtain ⟨start, hfirst, hlen, hmax, rfl⟩ := replyEnd_eq_some.mp h
  have hbody := bodySize_append resp more hlen
  refine replyEnd_eq_some.mpr ⟨start, firstNonzero_append hfirst more, ?_, ?_, ?_⟩
  · rw [List.length_append]
    omega
  · rwa [hbody]
  · rw [hbody]

end RotService

namespace ReplyAt

variable {stream reply : List Byte} {n : Nat}

theorem append (h : ReplyAt stream n reply) (more : List Byte) :
    ReplyAt (stream ++ more) n reply := by
  obtain ⟨trailing, hsplit⟩ := h.split
  exact ⟨⟨trailing ++ more, by rw [hsplit, List.append_assoc]⟩, h.isReply⟩

/-- The header of a reply in a stream. -/
theorem bodySize_eq (h : ReplyAt stream n reply) : bodySize stream n = bodySize reply 0 := by
  obtain ⟨trailing, rfl⟩ := h.split
  have hheader : 0 + 6 ≤ reply.length := by
    rw [Nat.zero_add]
    exact h.isReply.header
  rw [List.append_assoc, bodySize_zeros, bodySize_append reply trailing hheader]

theorem firstNonzero_eq (h : ReplyAt stream n reply) : firstNonzero stream = some n := by
  obtain ⟨trailing, rfl⟩ := h.split
  obtain ⟨b, rest, rfl, hb⟩ := h.isReply.starts
  rw [List.append_assoc, List.cons_append]
  exact firstNonzero_zeros hb _

theorem length_le (h : ReplyAt stream n reply) : n + reply.length ≤ stream.length := by
  obtain ⟨trailing, rfl⟩ := h.split
  rw [List.length_append, List.length_append, List.length_replicate]
  omega

theorem replyEnd_eq (h : ReplyAt stream n reply) : replyEnd stream = some (n + reply.length) := by
  have hlen := h.isReply.length
  have hmax := h.isReply.bounded
  have hbody := h.bodySize_eq
  have hstream := h.length_le
  exact replyEnd_eq_some.mpr ⟨n, h.firstNonzero_eq, by omega, by omega, by omega⟩

/-- What `completeReply` cuts out. -/
theorem cut_eq (h : ReplyAt stream n reply) : (stream.drop n).take reply.length = reply := by
  obtain ⟨trailing, rfl⟩ := h.split
  rw [List.append_assoc, List.drop_left' List.length_replicate, List.take_left]

/-- A stream has one reply at most. -/
theorem unique {m : Nat} {other : List Byte} (h : ReplyAt stream n reply)
    (h' : ReplyAt stream m other) : reply = other := by
  have hn := Option.some.inj (h.firstNonzero_eq.symm.trans h'.firstNonzero_eq)
  have ht := Option.some.inj (h.replyEnd_eq.symm.trans h'.replyEnd_eq)
  have hlen : reply.length = other.length := by omega
  rw [← h.cut_eq, ← h'.cut_eq, hn, hlen]

/-- The bytes up to the end of the reply make it. -/
theorem of_replyEnd {t : Nat} (h : replyEnd stream = some t) (ht : t ≤ stream.length) :
    ∃ n reply, ReplyAt stream n reply ∧ firstNonzero stream = some n ∧
      t = n + reply.length := by
  obtain ⟨n, hfirst, hlen, hmax, rfl⟩ := replyEnd_eq_some.mp h
  obtain ⟨b, rest, rfl, hb⟩ := eq_of_firstNonzero hfirst
  rw [bodySize_zeros] at hmax ht ⊢
  rw [List.length_append, List.length_replicate] at hlen ht
  refine ⟨n, (b :: rest).take (6 + bodySize (b :: rest) 0 + 2),
    ⟨⟨(b :: rest).drop (6 + bodySize (b :: rest) 0 + 2), ?_⟩, ?_⟩, hfirst, ?_⟩
  · rw [List.append_assoc, List.take_append_drop]
  · have htake : ((b :: rest).take (6 + bodySize (b :: rest) 0 + 2)).length =
        6 + bodySize (b :: rest) 0 + 2 := by
      rw [List.length_take]
      omega
    have hsame : bodySize ((b :: rest).take (6 + bodySize (b :: rest) 0 + 2)) 0 =
        bodySize (b :: rest) 0 := by
      have happ := bodySize_append ((b :: rest).take (6 + bodySize (b :: rest) 0 + 2))
        ((b :: rest).drop (6 + bodySize (b :: rest) 0 + 2)) (show 0 + 6 ≤ _ by omega)
      rw [List.take_append_drop] at happ
      exact happ.symm
    refine ⟨⟨b, rest.take (6 + bodySize (b :: rest) 0 + 1), rfl, hb⟩, by omega, ?_, by omega⟩
    rw [hsame, htake]
  · rw [List.length_take]
    omega

end ReplyAt

/-! ## What the passes collect -/

namespace Exchange

variable {R : Type} {quantum : Bool → R → SprotLink → Bool × R × SprotLink} {req : List Byte}
  {s : Exchange R}

/-- What an exchange has made of the bytes that it has taken: all of them, as long as they have no
complete reply, and then the reply. -/
structure Collected (s : Exchange R) : Prop where
  before : s.phase2 = false → s.drained = []
  partly : s.done = false → s.resp = s.drained ∧ s.total = replyEnd s.drained ∧
    ∀ t, s.total = some t → s.drained.length < t
  complete : s.done = true → ∃ n, ReplyAt s.drained n s.resp

theorem collected_start (rot : R) (link : SprotLink) : (start rot link).Collected where
  before _ := rfl
  partly _ := ⟨rfl, rfl, fun _ h => by cases h⟩
  complete h := by cases h

/-- A change that leaves the collected bytes alone. -/
theorem Collected.congr {s' : Exchange R} (h : s.Collected)
    (hphase : s'.phase2 = false → s.phase2 = false) (hresp : s'.resp = s.resp)
    (htotal : s'.total = s.total) (hdone : s'.done = s.done) (hdrained : s'.drained = s.drained) :
    s'.Collected where
  before hp := hdrained.trans (h.before (hphase hp))
  partly hd := by
    rw [hresp, htotal, hdrained]
    exact h.partly (hdone ▸ hd)
  complete hd := by
    rw [hresp, hdrained]
    exact h.complete (hdone ▸ hd)

theorem Collected.feedRequest (h : s.Collected) : (s.feedRequest req).Collected := by
  rw [Exchange.feedRequest]
  split
  · exact h
  · dsimp only
    split
    · exact h.congr id rfl rfl rfl rfl
    · exact h.congr id rfl rfl rfl rfl

theorem Collected.runQuantum (h : s.Collected) : (s.runQuantum quantum).2.Collected :=
  h.congr id rfl rfl rfl rfl

theorem completeReply_of_done (h : s.done = true) : s.completeReply = s := by
  rw [completeReply]
  cases s.total with
  | none => rfl
  | some t => exact if_neg fun hc => Bool.false_ne_true (hc.2.symm.trans h)

/-- Looking for the end of the reply changes nothing else. -/
theorem boundReply_eq (s : Exchange R) : ∃ total, s.boundReply = { s with total := total } := by
  rw [boundReply]
  split
  · exact ⟨_, rfl⟩
  · exact ⟨s.total, rfl⟩

/-- Cutting out the reply, when everything that was taken is still there. -/
theorem collected_completeReply (hphase : s.phase2 = true) (hdone : s.done = false)
    (hresp : s.resp = s.drained) (htotal : s.total = replyEnd s.drained) :
    s.completeReply.Collected := by
  cases hend : replyEnd s.drained with
  | none =>
      rw [hend] at htotal
      rw [completeReply, htotal]
      refine ⟨fun hp => ?_, fun _ => ⟨hresp, htotal.trans hend.symm, fun t ht => ?_⟩, fun hd => ?_⟩
      · rw [hphase] at hp
        cases hp
      · rw [htotal] at ht
        cases ht
      · rw [hdone] at hd
        cases hd
  | some t =>
      rw [hend] at htotal
      rw [completeReply, htotal]
      simp only [hdone, and_true]
      split
      · next hlen =>
          rw [hresp] at hlen
          obtain ⟨n, reply, hreply, hfirst, rfl⟩ := ReplyAt.of_replyEnd hend hlen
          refine ⟨fun hp => ?_, fun hd => (by cases hd), fun _ => ⟨n, ?_⟩⟩
          · rw [hphase] at hp
            cases hp
          · show ReplyAt s.drained n ((s.resp.drop _).take _)
            rw [hresp, hfirst, Option.getD_some, Nat.add_sub_cancel_left, hreply.cut_eq]
            exact hreply
      · next hlen =>
          rw [hresp] at hlen
          refine ⟨fun hp => ?_, fun _ => ⟨hresp, htotal.trans hend.symm, fun t' ht => ?_⟩,
            fun hd => ?_⟩
          · rw [hphase] at hp
            cases hp
          · rw [htotal] at ht
            cases ht
            omega
          · rw [hdone] at hd
            cases hd

/-- Behind a complete reply, what comes is taken and discarded. -/
theorem extract_of_done (hphase : s.phase2 = true) (hdone : s.done = true) :
    ∃ total, s.extract = { s with
      drained := s.drained ++ s.link.miso, link := { s.link with miso := [] }
      total := total } := by
  have hcollect : s.collect = { s with
      drained := s.drained ++ s.link.miso, link := { s.link with miso := [] } } := by
    rw [collect, if_pos hphase, if_pos hdone]
  obtain ⟨total, hbound⟩ := boundReply_eq { s with
    drained := s.drained ++ s.link.miso, link := { s.link with miso := [] } }
  refine ⟨total, ?_⟩
  rw [extract, hcollect, hbound]
  exact completeReply_of_done hdone

/-- Before that, what comes is kept, and the end of the reply is looked for in all of it. -/
theorem extract_of_partly (hphase : s.phase2 = true) (hdone : s.done = false)
    (hresp : s.resp = s.drained) (htotal : s.total = replyEnd s.drained) :
    s.extract = completeReply { s with
      resp := s.drained ++ s.link.miso
      drained := s.drained ++ s.link.miso
      link := { s.link with miso := [] }
      total := replyEnd (s.drained ++ s.link.miso) } := by
  have hcollect : s.collect = { s with
      resp := s.drained ++ s.link.miso
      drained := s.drained ++ s.link.miso
      link := { s.link with miso := [] } } := by
    rw [collect, if_pos hphase, if_neg (by rw [hdone]; exact Bool.false_ne_true), hresp]
  rw [extract, hcollect, boundReply]
  cases htot : s.total with
  | none => rw [if_pos ⟨hphase, rfl⟩]
  | some t =>
      -- the end that was found before is the end still
      rw [htot] at htotal
      rw [if_neg fun hc => (by cases hc.2), replyEnd_append htotal.symm]

/-- Before the reply phase there is no reply. -/
theorem Collected.done_of_before (h : s.Collected) (hphase : s.phase2 = false) :
    s.done = false := by
  rw [← Bool.not_eq_true]
  intro hdone
  obtain ⟨n, hreply⟩ := h.complete hdone
  have hheader := hreply.isReply.header
  have hle := hreply.length_le
  rw [h.before hphase, List.length_nil] at hle
  omega

/-- Nothing is taken before the reply phase. -/
theorem Collected.extract_eq_self (h : s.Collected) (hphase : s.phase2 = false) :
    s.extract = s := by
  obtain ⟨-, htotal, -⟩ := h.partly (h.done_of_before hphase)
  rw [h.before hphase] at htotal
  have hnone : s.total = none := htotal
  have hcollect : s.collect = s := if_neg (by rw [hphase]; exact Bool.false_ne_true)
  have hbound : s.boundReply = s := if_neg fun hc => by
    rw [hphase] at hc
    exact Bool.false_ne_true hc.1
  rw [extract, hcollect, hbound, completeReply, hnone]

/-- Taking bytes, finding the end of the reply and cutting it out. -/
theorem Collected.extract (h : s.Collected) : s.extract.Collected := by
  cases hphase : s.phase2 with
  | false =>
      rw [h.extract_eq_self hphase]
      exact h
  | true =>
      cases hdone : s.done with
      | false =>
          obtain ⟨hresp, htotal, -⟩ := h.partly hdone
          rw [extract_of_partly hphase hdone hresp htotal]
          exact collected_completeReply hphase hdone rfl rfl
      | true =>
          obtain ⟨n, hreply⟩ := h.complete hdone
          obtain ⟨total, heq⟩ := extract_of_done hphase hdone
          rw [heq]
          refine ⟨fun hp => ?_, fun hd => ?_, fun _ => ⟨n, hreply.append _⟩⟩
          · exact absurd (hp.symm.trans hphase) Bool.false_ne_true
          · exact absurd (hd.symm.trans hdone) Bool.false_ne_true

theorem Collected.pass (h : s.Collected) : (s.pass quantum req).2.Collected := by
  have hrun : ((s.feedRequest req).runQuantum quantum).2.Collected := h.feedRequest.runQuantum
  have hcut := hrun.extract
  rw [Exchange.pass]
  dsimp only
  split
  · exact hrun.congr (fun hp => by cases hp) rfl rfl rfl rfl
  · split
    · exact hcut
    · split
      · exact hcut.congr id rfl rfl rfl rfl
      · exact hcut.congr id rfl rfl rfl rfl

/-- `n` passes, whether or not the exchange ends with one of them. -/
def advance (quantum : Bool → R → SprotLink → Bool × R × SprotLink) (req : List Byte) :
    (n : Nat) → Exchange R → Exchange R
  | 0, s => s
  | n + 1, s => ((advance quantum req n s).pass quantum req).2

theorem advance_succ (n : Nat) :
    s.advance quantum req (n + 1) = (s.pass quantum req).2.advance quantum req n := by
  induction n with
  | zero => rfl
  | succ n ih =>
      rw [advance, ih]
      rfl

theorem Collected.advance (h : s.Collected) (n : Nat) : (s.advance quantum req n).Collected := by
  induction n with
  | zero => exact h
  | succ n ih => exact ih.pass

variable (quantum req) in
/-- An exchange is its passes up to the first one that ends it. -/
theorem passes_eq (s : Exchange R) (n : Nat) :
    ∃ m, m ≤ n ∧ s.passes quantum req n = s.advance quantum req m ∧
      (∀ i, i < m → ((s.advance quantum req i).pass quantum req).1 = true → i + 1 = m) ∧
      (m = n ∨ ∃ i, i + 1 = m ∧ ((s.advance quantum req i).pass quantum req).1 = true) := by
  induction n generalizing s with
  | zero => exact ⟨0, Nat.le_refl _, rfl, fun i hi => absurd hi (Nat.not_lt_zero _), Or.inl rfl⟩
  | succ n ih =>
      by_cases hends : (s.pass quantum req).1 = true
      · refine ⟨1, by omega, ?_, fun i hi _ => by omega, Or.inr ⟨0, rfl, hends⟩⟩
        rw [passes]
        dsimp only
        rw [if_pos hends]
        rfl
      · obtain ⟨m, hm, heq, hfirst, hlast⟩ := ih (s.pass quantum req).2
        refine ⟨m + 1, by omega, ?_, ?_, ?_⟩
        · rw [passes]
          dsimp only
          rw [if_neg hends, heq, advance_succ]
        · rintro (_ | i) hi hi'
          · exact absurd hi' hends
          · rw [advance_succ] at hi'
            have := hfirst i (by omega) hi'
            omega
        · rcases hlast with rfl | ⟨i, rfl, hi⟩
          · exact Or.inl rfl
          · refine Or.inr ⟨i + 1, rfl, ?_⟩
            rw [advance_succ]
            exact hi

/-! ## When the exchange is given up -/

/-- The bytes that were taken have a complete reply. -/
def HasReply (s : Exchange R) : Prop := ∃ n reply, ReplyAt s.drained n reply

/-- The reply is complete exactly when the bytes so far have it. -/
theorem Collected.done_iff (h : s.Collected) : s.done = true ↔ s.HasReply := by
  constructor
  · intro hdone
    obtain ⟨n, hreply⟩ := h.complete hdone
    exact ⟨n, s.resp, hreply⟩
  · rintro ⟨n, reply, hreply⟩
    by_contra hdone
    rw [Bool.not_eq_true] at hdone
    obtain ⟨-, htotal, hshort⟩ := h.partly hdone
    have hlt := hshort _ (htotal.trans hreply.replyEnd_eq)
    have hle := hreply.length_le
    omega

theorem Collected.done_eq_false (h : s.Collected) (hpart : ¬ s.HasReply) : s.done = false := by
  rw [← Bool.not_eq_true, h.done_iff]
  exact hpart

/-- The next pass is one of the reply phase, and the RoT idles in it. -/
def IdlesNext (quantum : Bool → R → SprotLink → Bool × R × SprotLink) (req : List Byte)
    (s : Exchange R) : Prop :=
  s.phase2 = true ∧ ((s.feedRequest req).runQuantum quantum).1 = true

/-- Collecting takes bytes off the link; looking for the reply only cuts it out. -/
theorem extract_frame (s : Exchange R) :
    (∃ more, s.extract.drained = s.drained ++ more) ∧
      s.extract.quiet = s.quiet ∧
      s.extract.phase2 = s.phase2 ∧
      (s.phase2 = true → s.extract.link.miso = []) := by
  have hcut : ∀ e : Exchange R, e.completeReply.drained = e.drained ∧
      e.completeReply.quiet = e.quiet ∧ e.completeReply.phase2 = e.phase2 ∧
      e.completeReply.link.miso = e.link.miso := by
    intro e
    rw [completeReply]
    cases e.total with
    | none => exact ⟨rfl, rfl, rfl, rfl⟩
    | some t =>
        dsimp only
        split
        · exact ⟨rfl, rfl, rfl, rfl⟩
        · exact ⟨rfl, rfl, rfl, rfl⟩
  rw [extract]
  obtain ⟨total, hbound⟩ := boundReply_eq s.collect
  obtain ⟨hdrained, hquiet, hphase, hmiso⟩ := hcut s.collect.boundReply
  rw [hdrained, hquiet, hphase, hmiso, hbound]
  by_cases hp : s.phase2 = true
  · rw [collect, if_pos hp]
    exact ⟨⟨s.link.miso, rfl⟩, rfl, rfl, fun _ => rfl⟩
  · rw [collect, if_neg hp]
    exact ⟨⟨[], (List.append_nil _).symm⟩, rfl, rfl, fun h => absurd h hp⟩

theorem feedRequest_frame (req : List Byte) (s : Exchange R) :
    (s.feedRequest req).drained = s.drained ∧ (s.feedRequest req).quiet = s.quiet ∧
      (s.feedRequest req).phase2 = s.phase2 := by
  rw [feedRequest]
  split
  · exact ⟨rfl, rfl, rfl⟩
  · dsimp only
    split
    · exact ⟨rfl, rfl, rfl⟩
    · exact ⟨rfl, rfl, rfl⟩

variable (quantum req) in
/-- What one pass adds to the bytes. -/
theorem drained_pass (s : Exchange R) :
    ∃ more, (s.pass quantum req).2.drained = s.drained ++ more := by
  obtain ⟨hdrained, -, -⟩ := feedRequest_frame req s
  obtain ⟨⟨more, hmore⟩, -⟩ := extract_frame ((s.feedRequest req).runQuantum quantum).2
  rw [show ((s.feedRequest req).runQuantum quantum).2.drained = s.drained from hdrained] at hmore
  rw [pass]
  dsimp only
  split
  · exact ⟨[], hdrained.trans (List.append_nil _).symm⟩
  · split
    · exact ⟨more, hmore⟩
    · split
      · exact ⟨more, hmore⟩
      · exact ⟨more, hmore⟩

/-- While the reply is not complete a pass counts the idle ones before it, and ends the exchange
with the eighth in a row. -/
theorem quiet_pass (hcount : s.phase2 = false → s.quiet = 0)
    (hdone : (s.pass quantum req).2.done = false) :
    ((s.pass quantum req).2.phase2 = false → (s.pass quantum req).2.quiet = 0) ∧
      (IdlesNext quantum req s → (s.pass quantum req).2.quiet = s.quiet + 1 ∧
        ((s.pass quantum req).1 = true ↔ 8 ≤ s.quiet + 1)) ∧
      (¬ IdlesNext quantum req s → (s.pass quantum req).2.quiet = 0 ∧
        (s.pass quantum req).1 = false) := by
  obtain ⟨-, hquiet, hphase⟩ := feedRequest_frame req s
  obtain ⟨-, hquiet', hphase', hmiso⟩ := extract_frame ((s.feedRequest req).runQuantum quantum).2
  rw [show ((s.feedRequest req).runQuantum quantum).2.quiet = s.quiet from hquiet] at hquiet'
  rw [show ((s.feedRequest req).runQuantum quantum).2.phase2 = s.phase2 from hphase]
    at hphase' hmiso
  rw [pass] at hdone ⊢
  dsimp only at hdone ⊢
  split at hdone
  · next henter =>
      have hp : s.phase2 = false := hphase.symm.trans henter.1
      rw [if_pos henter]
      refine ⟨fun h => (by cases h), fun hidle => ?_, fun _ => ⟨?_, rfl⟩⟩
      · exact absurd (hp.symm.trans hidle.1) Bool.false_ne_true
      · exact hquiet.trans (hcount hp)
  · next henter =>
      rw [if_neg henter]
      split at hdone
      · next hend => exact absurd (hdone.symm.trans hend.1) Bool.false_ne_true
      · next hend =>
          rw [if_neg hend]
          by_cases hidle : IdlesNext quantum req s
          · have hcond : ((s.feedRequest req).runQuantum quantum).2.extract.phase2
                = true ∧ ((s.feedRequest req).runQuantum quantum).1 = true ∧
                ((s.feedRequest req).runQuantum quantum).2.extract.link.miso
                  = [] := ⟨hphase'.trans hidle.1, hidle.2, hmiso hidle.1⟩
            rw [if_pos hcond]
            refine ⟨fun h => ?_, fun _ => ⟨?_, ?_⟩, fun h => absurd hidle h⟩
            · exact absurd (h.symm.trans hcond.1) Bool.false_ne_true
            · exact congrArg (· + 1) hquiet'
            · rw [hquiet']
              exact decide_eq_true_iff
          · rw [if_neg fun hc => hidle ⟨hphase'.symm.trans hc.1, hc.2.1⟩]
            exact ⟨fun _ => rfl, fun h => absurd h hidle, fun _ => ⟨rfl, rfl⟩⟩

variable (quantum req) in
/-- The bytes of a pass come behind those before it. -/
theorem drained_advance (s : Exchange R) {i j : Nat} (hij : i ≤ j) :
    ∃ more, (s.advance quantum req j).drained = (s.advance quantum req i).drained ++ more := by
  induction j with
  | zero =>
      obtain rfl : i = 0 := Nat.le_zero.mp hij
      exact ⟨[], (List.append_nil _).symm⟩
  | succ j ih =>
      rcases Nat.lt_or_eq_of_le hij with hlt | rfl
      · obtain ⟨more, hmore⟩ := ih (by omega)
        obtain ⟨last, hlast⟩ := drained_pass quantum req
          (s.advance quantum req j)
        refine ⟨more ++ last, ?_⟩
        rw [advance, hlast, hmore, List.append_assoc]
      · exact ⟨[], (List.append_nil _).symm⟩

theorem HasReply.advance {i j : Nat} (h : (s.advance quantum req i).HasReply) (hij : i ≤ j) :
    (s.advance quantum req j).HasReply := by
  obtain ⟨n, reply, hreply⟩ := h
  obtain ⟨more, hmore⟩ := drained_advance quantum req s hij
  exact ⟨n, reply, hmore ▸ hreply.append more⟩

/-- While the reply is not complete, the counter is the number of idle passes in a row. -/
theorem quiet_advance (hs : s.Collected) (hcount : s.quiet = 0) {j : Nat}
    (hpart : ¬ (s.advance quantum req j).HasReply) :
    ((s.advance quantum req j).phase2 = false → (s.advance quantum req j).quiet = 0) ∧
      ∀ m, m ≤ (s.advance quantum req j).quiet ↔
        m ≤ j ∧ ∀ i, j - m ≤ i → i < j → IdlesNext quantum req (s.advance quantum req i) := by
  induction j with
  | zero =>
      refine ⟨fun _ => hcount, fun m => ?_⟩
      rw [advance, hcount]
      exact ⟨fun hm => ⟨hm, fun i _ hi => absurd hi (Nat.not_lt_zero _)⟩, fun h => h.1⟩
  | succ j ih =>
      obtain ⟨hzero, hquiet⟩ := ih fun h => hpart (h.advance (Nat.le_succ j))
      have hdone := (hs.advance (j + 1)).done_eq_false hpart
      obtain ⟨hphase, hidle, hbusy⟩ := quiet_pass hzero hdone
      refine ⟨hphase, fun m => ?_⟩
      rw [advance]
      by_cases hnext : IdlesNext quantum req (s.advance quantum req j)
      · rw [(hidle hnext).1]
        cases m with
        | zero => exact iff_of_true (Nat.zero_le _) ⟨Nat.zero_le _, fun i hlo hi => by omega⟩
        | succ m =>
            rw [Nat.succ_le_succ_iff, hquiet m]
            constructor
            · rintro ⟨hm, hall⟩
              refine ⟨Nat.succ_le_succ hm, fun i hlo hi => ?_⟩
              rcases Nat.lt_or_eq_of_le (Nat.le_of_lt_succ hi) with hlt | rfl
              · exact hall i (by omega) hlt
              · exact hnext
            · rintro ⟨hm, hall⟩
              exact ⟨Nat.le_of_succ_le_succ hm, fun i hlo hi => hall i (by omega) (by omega)⟩
      · rw [(hbusy hnext).1]
        cases m with
        | zero => exact iff_of_true (Nat.zero_le _) ⟨Nat.zero_le _, fun i hlo hi => by omega⟩
        | succ m =>
            refine iff_of_false (Nat.not_succ_le_zero m) fun h => hnext ?_
            exact h.2 j (by omega) (Nat.lt_succ_self j)

/-- A pass without a complete reply ends the exchange exactly if it is the eighth idle one. -/
theorem ends_iff (hs : s.Collected) (hcount : s.quiet = 0) {i : Nat}
    (hpart : ¬ (s.advance quantum req (i + 1)).HasReply) :
    ((s.advance quantum req i).pass quantum req).1 = true ↔
      8 ≤ i + 1 ∧ ∀ k, i + 1 - 8 ≤ k → k < i + 1 →
        IdlesNext quantum req (s.advance quantum req k) := by
  have hbefore : ¬ (s.advance quantum req i).HasReply := fun h =>
    hpart (h.advance (Nat.le_succ i))
  have hdone := (hs.advance (i + 1)).done_eq_false hpart
  obtain ⟨-, hidle, hbusy⟩ := quiet_pass (quiet_advance hs hcount hbefore).1 hdone
  by_cases hnext : IdlesNext quantum req (s.advance quantum req i)
  · obtain ⟨hquiet, hends⟩ := hidle hnext
    rw [hends, ← hquiet]
    exact (quiet_advance hs hcount hpart).2 8
  · rw [(hbusy hnext).2]
    exact iff_of_false Bool.false_ne_true fun h => hnext (h.2 i (by omega) (Nat.lt_succ_self i))

end Exchange

open Exchange

section Extraction

variable {R : Type} (quantum : Bool → R → SprotLink → Bool × R × SprotLink) (w : R × SprotLink)
  (req : List Byte)

/-- The exchange after `n` passes, as it goes on with the RoT. -/
def exchangeAfter (n : Nat) : Exchange R := (Exchange.start w.1 w.2).advance quantum req n

/-- The reply phase lasts for `n` passes: an exchange has that many, and the RoT does not idle
through eight of them in a row without clocking out a byte. -/
structure Lasts (n : Nat) : Prop where
  bounded : n ≤ maxPasses
  heard : ∀ i, i + 8 ≤ n → ∃ d, d < 8 ∧
    ¬ (IdlesNext quantum req (exchangeAfter quantum w req (i + d)) ∧
      (exchangeAfter quantum w req (i + d + 1)).drained =
        (exchangeAfter quantum w req (i + d)).drained)

/-- Whatever reply the RoT clocks out in the reply phase, behind zero bytes and with any bytes
behind it, the exchange returns exactly that reply, and has it with the pass that takes its last
byte. -/
def Extracts : Prop :=
  ∀ (n zeros : Nat) (reply trailing : List Byte), Lasts quantum w req n →
    (exchangeAfter quantum w req n).drained = List.replicate zeros 0 ++ reply ++ trailing →
      IsReply reply →
        (exchangeAfter quantum w req n).done = true ∧
          (exchangeAfter quantum w req n).resp = reply ∧
          (rotExchange quantum w req).1 = reply

/-- A reply that the RoT clocks out in the reply phase is complete by the end of any eight passes in
a row in which the RoT idles, also if it clocks out bytes in them. -/
def Timely : Prop :=
  (∃ n, Lasts quantum w req n ∧ (exchangeAfter quantum w req n).HasReply) →
    ∀ i, (∀ d, d < 8 → IdlesNext quantum req (exchangeAfter quantum w req (i + d))) →
      (exchangeAfter quantum w req (i + 8)).HasReply

/-- An exchange has returned the reply exactly if the reply was complete when it ended. -/
theorem resp_eq_iff {e e' : Exchange R} (he : e.Collected) {more : List Byte}
    (hmore : e'.drained = e.drained ++ more) {n : Nat} {reply : List Byte}
    (hreply : ReplyAt e'.drained n reply) : e.resp = reply ↔ e.HasReply := by
  constructor
  · rintro rfl
    by_contra hpart
    -- all that was taken is the reply itself
    rw [(he.partly (he.done_eq_false hpart)).1] at hreply
    exact hpart ⟨0, e.drained, ⟨[], by simp⟩, hreply.isReply⟩
  · intro hhas
    obtain ⟨m, hresp⟩ := he.complete (he.done_iff.mpr hhas)
    exact (hresp.append more).unique (hmore ▸ hreply)

theorem collected_exchangeAfter (n : Nat) : (exchangeAfter quantum w req n).Collected :=
  (collected_start w.1 w.2).advance n

/-- Stopped after `m` passes, an exchange has returned a reply of the phase exactly if the reply was
complete by then. -/
theorem resp_exchangeAfter_iff (m : Nat) {n zeros : Nat} {reply : List Byte}
    (hreply : ReplyAt (exchangeAfter quantum w req n).drained zeros reply) :
    (exchangeAfter quantum w req m).resp = reply ↔ (exchangeAfter quantum w req m).HasReply := by
  -- both are compared with the bytes of the later one of the two
  obtain ⟨more, hmore⟩ := drained_advance quantum req
    (Exchange.start w.1 w.2) (Nat.le_max_left n m)
  obtain ⟨rest, hrest⟩ := drained_advance quantum req
    (Exchange.start w.1 w.2) (Nat.le_max_right n m)
  have hlater : ReplyAt (exchangeAfter quantum w req (max n m)).drained zeros reply :=
    hmore ▸ hreply.append more
  exact resp_eq_iff (collected_exchangeAfter quantum w req m) hrest hlater

/-- The exchange returns what the RoT clocks out as its reply, whatever the RoT does on the link,
exactly when it does not take a RoT that idles between its bursts for one that is quiet. -/
theorem reply_extracted_iff : Extracts quantum w req ↔ Timely quantum w req := by
  have hstart := collected_start w.1 w.2
  obtain ⟨m, hm, heq, hfirst, hlast⟩ := passes_eq quantum req (Exchange.start w.1 w.2)
    maxPasses
  have hresp : (rotExchange quantum w req).1 = (exchangeAfter quantum w req m).resp := by
    rw [rotExchange]
    exact congrArg Exchange.resp heq
  constructor
  · rintro hextracts ⟨n, hlasts, zeros, reply, hreply⟩ i hidle
    obtain ⟨trailing, hsplit⟩ := hreply.split
    obtain ⟨-, -, hout⟩ := hextracts _ _ _ _ hlasts hsplit hreply.isReply
    have hhas : (exchangeAfter quantum w req m).HasReply :=
      (resp_exchangeAfter_iff quantum w req m hreply).mp (hresp.symm.trans hout)
    by_contra hpart
    -- the eighth idle pass would have ended the exchange, and so before the reply was complete
    have hstop := (ends_iff hstart rfl hpart).mpr ⟨by omega, fun k hlo hhi => by
      have hk := hidle (k - i) (by omega)
      rwa [Nat.add_sub_cancel' (by omega)] at hk⟩
    refine hpart (hhas.advance ?_)
    by_contra hlt
    have hlast := hfirst (i + 7) (by omega) hstop
    omega
  · intro htimely n zeros reply trailing hlasts hsplit hreply
    have hat : ReplyAt (exchangeAfter quantum w req n).drained zeros reply :=
      ⟨⟨trailing, hsplit⟩, hreply⟩
    have hcollected := collected_exchangeAfter quantum w req n
    have hdone := hcollected.done_iff.mpr ⟨zeros, reply, hat⟩
    obtain ⟨k, hk⟩ := hcollected.complete hdone
    refine ⟨hdone, hk.unique hat, ?_⟩
    rw [hresp, resp_exchangeAfter_iff quantum w req m hat]
    rcases hlast with rfl | ⟨i, rfl, hstop⟩
    · exact HasReply.advance ⟨zeros, reply, hat⟩ hlasts.bounded
    · -- an exchange that was given up has idled through its last eight passes
      by_contra hpart
      obtain ⟨hlong, hall⟩ := (ends_iff hstart rfl hpart).mp hstop
      have hhas := htimely ⟨n, hlasts, zeros, reply, hat⟩ (i + 1 - 8) fun d hd =>
        hall _ (by omega) (by omega)
      rw [Nat.sub_add_cancel hlong] at hhas
      exact hpart hhas

end Extraction

/-! ### A reply in twelve bursts -/

/-- A RoT that raises ROT_IRQ behind the request, then clocks out one burst in each quantum and
idles behind it. -/
def burstRot (_awake : Bool) (bursts : List (List Byte)) (link : SprotLink) :
    Bool × List (List Byte) × SprotLink :=
  if link.cs then
    match bursts with
    | burst :: rest => (true, rest, { link with miso := link.miso ++ burst })
    | [] => (true, [], link)
  else (true, bursts, { link with rotIrq := link.ssa })

/-- A reply with a body of sixteen bytes. -/
def longReply : List Byte := [6, 0, 0, 0, 16, 0] ++ List.replicate 16 1 ++ [0xab, 0xcd]

def longBursts : List (List Byte) :=
  [6, 0] :: [0, 0] :: [16, 0] :: List.replicate 8 [1, 1] ++ [[0xab, 0xcd]]

/-- The exchange is given up with the eighth burst, as the RoT has idled behind each of them. -/
theorem not_extracts : ¬ ∀ (w : List (List Byte) × SprotLink) (req : List Byte),
    Extracts burstRot w req := by
  intro h
  have hreply : IsReply longReply :=
    ⟨⟨6, longReply.tail, rfl, by decide⟩, by decide, by decide, by decide⟩
  have hlasts : Lasts burstRot (longBursts, SprotLink.new false) [] 13 := by
    have hheard : ∀ i : Fin 6,
        (exchangeAfter burstRot (longBursts, SprotLink.new false) [] (i + 1 + 1)).drained ≠
          (exchangeAfter burstRot (longBursts, SprotLink.new false) [] (i + 1)).drained := by
      decide +kernel
    exact ⟨by decide, fun i hi => ⟨1, by decide, fun hquiet => hheard ⟨i, by omega⟩ hquiet.2⟩⟩
  obtain ⟨-, -, hout⟩ := h (longBursts, SprotLink.new false) [] 13 0 longReply [] hlasts
    (by decide +kernel) hreply
  have hshort : (rotExchange burstRot (longBursts, SprotLink.new false) []).1 ≠ longReply := by
    decide +kernel
  exact hshort hout

end SpEmu
