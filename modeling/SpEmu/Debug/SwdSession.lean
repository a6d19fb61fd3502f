import SpEmu.Debug.RotSwd
import SpEmu.Lib.Runs

/-!
# SWD sessions

The RoT's firmware is the SWD master: it clocks out one transaction after the other, in frames of
its choice, and reads what the engine has for it. `SwdSession` puts it together with the engine,
the link and the serve loop, which takes a transfer off the queue, runs it and hands the result
back in two steps of its own; a run is any interleaving of the accesses and these steps.

`Inv` says where the two sides stand in a transaction. `swd_transactions` concludes that the
transfers that are queued are exactly the transactions that were clocked out, in order, and that
every read decodes to what the serve loop returned for it.
-/

set_option autoImplicit false

namespace SpEmu

open ByteMem RotSwdSpi

/-! ## The firmware -/

/-- A transaction as the master clocks it out. The engine looks at neither parity bit nor at the
turnaround. -/
structure Transaction where
  ap : Bool
  rnw : Bool
  a2 : Bool
  a3 : Bool
  requestParity : Bool
  turnaround : Bool
  wdata : Word
  dataParity : Bool
  deriving DecidableEq

namespace Transaction

variable (t : Transaction)

/-- The request byte: start, APnDP, RnW, the address, parity, stop and park. -/
def request : List Bool := [true, t.ap, t.rnw, t.a2, t.a3, t.requestParity, false, true]

/-- The data phase of a write. -/
def stream : List Bool := [t.turnaround] ++ BitStream.lsbFirst t.wdata ++ [t.dataParity]

/-- The transfer that it asks for. -/
def req : SwdReq := ⟨t.ap, t.rnw, address t.a2 t.a3, if t.rnw then 0 else t.wdata⟩

/-- The frames that the master reads: the acknowledge, and the data of a read. -/
def pops : Nat := if t.rnw then 5 else 1

end Transaction

/-- The bits of the frame that a FIFOWR write clocks out. -/
def frameBits (val : Word) : List Bool := BitStream.frame (frameLen val) (frameData val)

/-- A transaction under way: the data bits sent and the frames read so far. -/
structure Underway where
  t : Transaction
  sent : List Bool
  popped : List Half

def Underway.Finished (u : Underway) : Prop :=
  u.popped.length = u.t.pops ∧ (u.t.rnw = true ∨ u.sent = u.t.stream)

instance (u : Underway) : Decidable u.Finished := inferInstanceAs (Decidable (_ ∧ _))

structure SwdMaster where
  todo : List Transaction
  cur : Option Underway
  /-- The transactions behind it, with the frames read. -/
  done : List (Transaction × List Half)

namespace SwdMaster

variable (m : SwdMaster)

/-- Go on with a transaction, or put it behind. -/
def proceed (u : Underway) : SwdMaster :=
  if u.Finished then { m with cur := none, done := m.done ++ [(u.t, u.popped)] }
  else { m with cur := some u }

/-- A frame that the master may clock out: the next request; idle frames between transactions and
in a read; the 4-bit frame behind which the acknowledge of a write is read, and any other part of
its data. -/
def send (val : Word) : Option SwdMaster :=
  match m.cur with
  | none =>
      if IsRequest val then
        match m.todo with
        | t :: todo =>
            if frameBits val = t.request then some { m with todo := todo, cur := some ⟨t, [], []⟩ }
            else none
        | [] => none
      else some m
  | some u =>
      if u.t.rnw then if IsRequest val then none else some m
      else if frameLen val = 4 then some m
      else if (u.sent ++ frameBits val) <+: u.t.stream then
        some (m.proceed { u with sent := u.sent ++ frameBits val })
      else none

/-- Read a frame, where the transaction has one more. -/
def pop (v : Half) : Option SwdMaster :=
  match m.cur with
  | some u =>
      if u.popped.length < u.t.pops then some (m.proceed { u with popped := u.popped ++ [v] })
      else none
  | none => none

/-- The transactions that have been clocked out: a read with its request, a write with its
data. -/
def clocked : List Transaction :=
  m.done.map Prod.fst ++
    match m.cur with
    | some u => if u.t.rnw = true ∨ u.sent = u.t.stream then [u.t] else []
    | none => []

end SwdMaster

/-! ## The serve loop, and the session -/

/-- What runs the transfers: a read has a result, a write has none. -/
structure SwdHost (H : Type) where
  transfer : H → SwdReq → Option (Option Word × H)
  answers : ∀ h r out h', transfer h r = some (out, h') → (out.isSome = true ↔ r.rnw = true)

structure SwdSession (H : Type) where
  engine : RotSwdSpi
  link : SwdLink
  /-- The transfer that the serve loop has taken off the queue. -/
  inHand : Option SwdReq
  host : H
  /-- The transfers run so far, with their results. -/
  served : List (SwdReq × Option Word)
  master : SwdMaster

inductive SwdEvent where
  | fifowr (val : Word)
  | poll
  | pop
  | take
  | answer

namespace SwdSession

variable {H : Type}

def start (txs : List Transaction) (h : H) : SwdSession H where
  engine := RotSwdSpi.new
  link := ⟨[], none⟩
  inHand := none
  host := h
  served := []
  master := ⟨txs, none, []⟩

def step (host : SwdHost H) (s : SwdSession H) : SwdEvent → Option (SwdSession H)
  | .fifowr val => do
      let master ← s.master.send val
      let (engine, link) := s.engine.write s.link fifowrAddr val
      some { s with engine := engine, link := link, master := master }
  | .poll =>
      let (_, engine, link) := s.engine.read s.link fifostat
      some { s with engine := engine, link := link }
  | .pop => do
      -- The firmware reads a frame only where FIFOSTAT says that there is one.
      let (status, _, _) := s.engine.read s.link fifostat
      let (v, engine, link) := s.engine.read s.link fiford
      if status &&& fifostatRxnotempty = 0 then none
      else
        let master ← s.master.pop (v.setWidth 16)
        some { s with engine := engine, link := link, master := master }
  | .take =>
      match s.inHand, s.link.req with
      | none, r :: req => some { s with inHand := some r, link := { s.link with req := req } }
      | _, _ => none
  | .answer => do
      let r ← s.inHand
      let (out, h) ← host.transfer s.host r
      some { s with
        inHand := none
        host := h
        served := s.served ++ [(r, out)]
        link := { s.link with resp := out.or s.link.resp } }

/-- The transfers queued and not yet run. -/
def pending (s : SwdSession H) : List SwdReq := s.inHand.toList ++ s.link.req

/-- All transfers that were ever queued for the debug port. -/
def queued (s : SwdSession H) : List SwdReq := s.served.map Prod.fst ++ s.pending

end SwdSession

/-- The debug port answers a read, and no write. -/
theorem SwDp.dpTransfer_answers (p : SwDp) (rnw : Bool) (a : Byte) (wdata : Word) :
    (p.dpTransfer rnw a wdata).1.isSome = true ↔ rnw = true := by
  have haddr : ∀ a : Byte, (a &&& 0x0C).toNat = 0 ∨ (a &&& 0x0C).toNat = 4 ∨
      (a &&& 0x0C).toNat = 8 ∨ (a &&& 0x0C).toNat = 12 := by decide
  cases rnw with
  | true =>
      rcases haddr a with h | h | h | h
      all_goals
        simp only [SwDp.dpTransfer, h]
        exact iff_of_true rfl trivial
  | false =>
      rcases haddr a with h | h | h | h
      all_goals
        simp only [SwDp.dpTransfer, h]
        exact iff_of_false Bool.false_ne_true Bool.false_ne_true

theorem DebugTarget.transfer_answers {δ : Type} [Mmio δ] {t t' : DebugTarget δ} {ap rnw : Bool}
    {a : Byte} {wdata : Word} {out : Option Word}
    (h : t.transfer ap rnw a wdata = some (out, t')) : out.isSome = true ↔ rnw = true := by
  rw [DebugTarget.transfer] at h
  split at h
  · rw [DebugTarget.apTransfer] at h
    dsimp only at h
    cases rnw with
    | true =>
        rw [if_pos rfl] at h
        have hout : out = some t.port.posted := by
          repeat' split at h
          all_goals
            obtain ⟨_, -, heq⟩ := Option.bind_eq_some_iff.mp h
            cases heq
            rfl
        exact iff_of_true (hout ▸ rfl) rfl
    | false =>
        rw [if_neg Bool.false_ne_true] at h
        have hout : out = none := by
          repeat' split at h
          all_goals
            obtain ⟨_, -, heq⟩ := Option.bind_eq_some_iff.mp h
            cases heq
            rfl
        rw [hout]
        exact iff_of_false Bool.false_ne_true Bool.false_ne_true
  · have hout : (t.port.dpTransfer rnw a wdata).1 = out := by
      have hpair := Option.some.inj h
      exact congrArg Prod.fst hpair
    rw [← hout]
    exact t.port.dpTransfer_answers rnw a wdata

/-- The debug port in front of a core runs the transfers. -/
def DebugTarget.swdHost (δ : Type) [Mmio δ] : SwdHost (DebugTarget δ) where
  transfer t r := t.transfer r.ap r.rnw r.a r.wdata
  answers _ _ _ _ h := DebugTarget.transfer_answers h

/-! ## What the engine makes of a frame -/

section Frames

variable {val : Word}

theorem frameLen_pos (val : Word) : 0 < frameLen val := Nat.succ_pos _

theorem frameLen_le (val : Word) : frameLen val ≤ 16 := by
  have hnib : ((val >>> 24) &&& 0xF).toNat ≤ 15 := by
    rw [BitVec.toNat_and]
    exact Nat.and_le_right
  exact Nat.succ_le_succ hnib

/-- The bits of a request frame. -/
theorem request_bits {t : Transaction} (h : frameBits val = t.request) :
    frameLen val = 8 ∧ ∀ i, i < 8 → (frameData val).getLsbD i = t.request.getD (7 - i) false := by
  have hlen : frameLen val = 8 := by
    have hlength := congrArg List.length h
    rwa [frameBits, BitStream.length_frame] at hlength
  refine ⟨hlen, fun i hi => ?_⟩
  rw [← h, frameBits, hlen, BitStream.getD_frame _ hi]

/-- An idle engine decodes a request into the transaction that it asks for. -/
theorem fifowr_request {s : RotSwdSpi} {lk : SwdLink} {t : Transaction} (hidle : s.phase = .idle)
    (h : frameBits val = t.request) : s.fifowr lk val =
      if t.rnw = true then
        (⟨s.rx ++ [ackOk], .readData⟩, { lk with req := lk.req ++ [t.req] })
      else (⟨s.rx ++ [ackOk], .writeData 0 0 t.ap (address t.a2 t.a3)⟩, lk) := by
  obtain ⟨hlen, hbits⟩ := request_bits h
  have hrequest : IsRequest val :=
    ⟨hlen, (isRequest_bits _).mpr ⟨hbits 7 (by decide), hbits 1 (by decide), hbits 0 (by decide)⟩⟩
  have hap : (frameData val).getLsbD 6 = t.ap := hbits 6 (by decide)
  have hrnw : (frameData val).getLsbD 5 = t.rnw := hbits 5 (by decide)
  have ha2 : (frameData val).getLsbD 4 = t.a2 := hbits 4 (by decide)
  have ha3 : (frameData val).getLsbD 3 = t.a3 := hbits 3 (by decide)
  rw [fifowr, hidle]
  dsimp only
  rw [if_pos hrequest, bit_ne_zero, bit_ne_zero, address_eq, hap, hrnw, ha2, ha3]
  split
  · next hread =>
      rw [Transaction.req, if_pos hread, hread]
  · rfl

/-- Anything else leaves an idle engine alone, and so does any frame in a read. -/
theorem fifowr_idle {s : RotSwdSpi} {lk : SwdLink} (hidle : s.phase = .idle)
    (h : ¬ IsRequest val) : s.fifowr lk val = (s, lk) := by
  rw [fifowr, hidle]
  exact if_neg h

theorem fifowr_readData {s : RotSwdSpi} {lk : SwdLink} (hread : s.phase = .readData) :
    s.fifowr lk val = (s, lk) := by
  rw [fifowr, hread]

/-- The frame behind which the acknowledge of a write is read. -/
theorem fifowr_four {s : RotSwdSpi} {lk : SwdLink} (hphase : s.phase ≠ .readData)
    (h : frameLen val = 4) : s.fifowr lk val = (s, lk) := by
  have hnot : ¬ IsRequest val := fun hreq => by
    have hlen := hreq.1
    omega
  cases hs : s.phase with
  | idle => exact fifowr_idle hs hnot
  | readData => exact absurd hs hphase
  | writeData acc bits ap a =>
      rw [fifowr, hs]
      exact if_pos h

theorem length_stream (t : Transaction) : t.stream.length = 34 := by
  rw [Transaction.stream, List.length_append, List.length_append, BitStream.length_lsbFirst]
  rfl

/-- Part of the data of a write, which is complete with the whole stream. -/
theorem fifowr_data {s : RotSwdSpi} {lk : SwdLink} {t : Transaction} {sent : List Bool} {a : Byte}
    (hphase : s.phase = .writeData (BitStream.shifted 64 sent) sent.length t.ap a)
    (hfour : frameLen val ≠ 4) (hsent : (sent ++ frameBits val) <+: t.stream) :
    s.fifowr lk val =
      if sent ++ frameBits val = t.stream then
        (⟨s.rx, .idle⟩, { lk with req := lk.req ++ [⟨t.ap, false, a, t.wdata⟩] })
      else (⟨s.rx, .writeData (BitStream.shifted 64 (sent ++ frameBits val))
        (sent ++ frameBits val).length t.ap a⟩, lk) := by
  have hlen := frameLen_le val
  have hacc := BitStream.shifted_append (w := 64) sent (frameData val)
    (show frameLen val < 64 by omega)
  have hlength : (sent ++ frameBits val).length = sent.length + frameLen val := by
    rw [List.length_append, frameBits, BitStream.length_frame]
  have hfull : 34 ≤ sent.length + frameLen val ↔ sent ++ frameBits val = t.stream := by
    rw [← hlength, ← length_stream t]
    exact ⟨fun hle => hsent.eq_of_length_le hle, fun heq => le_of_eq (congrArg _ heq.symm)⟩
  rw [fifowr, hphase]
  dsimp only
  rw [if_neg hfour, ← hacc, ← frameBits]
  by_cases heq : sent ++ frameBits val = t.stream
  · have hmask : ∀ x : BitVec 64, ((x &&& 0xFFFFFFFF).setWidth 32 : Word) = x.setWidth 32 := by
      intro x
      apply BitVec.eq_of_getLsbD_eq
      intro i hi
      have hone : (0xFFFFFFFF : BitVec 64).getLsbD i = true := by
        rw [show (0xFFFFFFFF : BitVec 64) = BitVec.ofNat 64 (2 ^ 32 - 1) from rfl,
          BitVec.getLsbD_ofNat, Nat.testBit_two_pow_sub_one, decide_eq_true hi,
          decide_eq_true (show i < 64 by omega)]
        rfl
      rw [BitVec.getLsbD_setWidth, BitVec.getLsbD_setWidth, BitVec.getLsbD_and, hone,
        Bool.and_true]
    have hfield : ((BitStream.shifted 64 t.stream >>> 1).setWidth 32).reverse = t.wdata :=
      BitStream.reverse_field [t.turnaround] [t.dataParity] t.wdata
        (show 1 + 32 + 1 ≤ 64 by decide)
    rw [if_pos (hfull.mpr heq), if_pos heq, hmask, heq, hfield]
  · rw [if_neg (fun hle => heq (hfull.mp hle)), if_neg heq, hlength]

end Frames

namespace SwdSession

variable {H : Type} {s : SwdSession H}

/-! ## The invariant -/

/-- Only writes are queued. -/
def Writes (rs : List SwdReq) : Prop := ∀ r ∈ rs, r.rnw = false

/-- The read `t` is the last transfer that is queued, or it has been run and its result waits. -/
inductive Awaits (s : SwdSession H) (t : Transaction) : Prop where
  | queued (ws : List SwdReq) (hpending : s.pending = ws ++ [t.req]) (hwrites : Writes ws)
      (hresp : s.link.resp = none)
  | answered (d : Word) (l : List (SwdReq × Option Word)) (hpending : s.pending = [])
      (hserved : s.served = l ++ [(t.req, some d)]) (hresp : s.link.resp = some d)

/-- Where the engine and the serve loop stand in a transaction. -/
inductive Engaged (s : SwdSession H) (u : Underway) : Prop where
  /-- A write, part of whose data is sent. -/
  | filling (hwrite : u.t.rnw = false) (hsent : u.sent <+: u.t.stream) (hpart : u.sent ≠ u.t.stream)
      (hphase : s.engine.phase = .writeData (BitStream.shifted 64 u.sent) u.sent.length u.t.ap
        (address u.t.a2 u.t.a3))
      (hrx : u.popped ++ s.engine.rx = [ackOk]) (hresp : s.link.resp = none)
      (hwrites : Writes s.pending)
  /-- A write, all of whose data is sent. -/
  | filled (hwrite : u.t.rnw = false) (hsent : u.sent = u.t.stream)
      (hphase : s.engine.phase = .idle) (hrx : u.popped ++ s.engine.rx = [ackOk])
      (hresp : s.link.resp = none) (hwrites : Writes s.pending)
  /-- A read, before its data is supplied. -/
  | asking (hread : u.t.rnw = true) (hphase : s.engine.phase = .readData)
      (hrx : u.popped ++ s.engine.rx = [ackOk]) (hawaits : s.Awaits u.t)
  /-- A read, after that. -/
  | reading (d : Word) (l : List (SwdReq × Option Word)) (hread : u.t.rnw = true)
      (hphase : s.engine.phase = .idle) (hrx : u.popped ++ s.engine.rx = ackOk :: readFrames d)
      (hresp : s.link.resp = none) (hpending : s.pending = [])
      (hserved : s.served = l ++ [(u.t.req, some d)])

/-- Between two transactions. -/
structure Quiet (s : SwdSession H) : Prop where
  engine : s.engine = RotSwdSpi.new
  resp : s.link.resp = none
  writes : Writes s.pending

/-- Every read that is done has read the result that the serve loop had for it. -/
def Results (s : SwdSession H) (done : List (Transaction × List Half)) : Prop :=
  ∀ (i : Nat) (t : Transaction) (frames : List Half), done[i]? = some (t, frames) →
    t.rnw = true → ∃ d, s.served[i]? = some (t.req, some d) ∧ frames = ackOk :: readFrames d

structure Inv (txs : List Transaction) (s : SwdSession H) : Prop where
  order : txs = s.master.done.map Prod.fst ++ (s.master.cur.map Underway.t).toList ++
    s.master.todo
  queued : s.queued = s.master.clocked.map Transaction.req
  results : s.Results s.master.done
  engaged : ∀ u, s.master.cur = some u → s.Engaged u
  quiet : s.master.cur = none → s.Quiet

theorem inv_start (txs : List Transaction) (h : H) : Inv txs (start txs h) where
  order := rfl
  queued := rfl
  results _ _ _ hget _ := by cases hget
  engaged _ hcur := by cases hcur
  quiet _ := ⟨rfl, rfl, fun _ hr => by cases hr⟩

/-! ## Transactions that end -/

/-- A finished transaction leaves the engine idle. -/
theorem Engaged.quiet {u : Underway} (h : s.Engaged u) (hfin : u.Finished) : s.Quiet := by
  obtain ⟨hlen, hdata⟩ := hfin
  have hdrained : ∀ {l : List Half}, u.popped ++ s.engine.rx = l → l.length = u.popped.length →
      s.engine.rx = [] := by
    intro l heq hl
    have hsum := congrArg List.length heq
    rw [List.length_append] at hsum
    exact List.eq_nil_of_length_eq_zero (by omega)
  have hengine : s.engine.phase = .idle → s.engine.rx = [] → s.engine = RotSwdSpi.new := by
    intro hphase hrx
    rw [RotSwdSpi.new, ← hphase, ← hrx]
  rw [Transaction.pops] at hlen
  cases h with
  | filling hwrite hsent hpart hphase hrx hresp hwrites =>
      rw [hwrite] at hdata
      exact absurd (hdata.resolve_left Bool.false_ne_true) hpart
  | filled hwrite hsent hphase hrx hresp hwrites =>
      rw [hwrite] at hlen
      exact ⟨hengine hphase (hdrained hrx hlen.symm), hresp, hwrites⟩
  | asking hread hphase hrx hawaits =>
      -- one frame is there, and five have been read
      rw [hread, if_pos rfl] at hlen
      have hsum := congrArg List.length hrx
      rw [List.length_append, List.length_singleton] at hsum
      omega
  | reading d l hread hphase hrx hresp hpending hserved =>
      rw [hread, if_pos rfl] at hlen
      refine ⟨hengine hphase (hdrained hrx hlen.symm), hresp, ?_⟩
      rw [hpending]
      exact fun _ hr => absurd hr List.not_mem_nil

/-- A finished read has read what was served last. -/
theorem Engaged.result {u : Underway} (h : s.Engaged u) (hfin : u.Finished)
    (hread : u.t.rnw = true) : ∃ d l, s.served = l ++ [(u.t.req, some d)] ∧ s.pending = [] ∧
      u.popped = ackOk :: readFrames d := by
  have hquiet := h.quiet hfin
  cases h with
  | filling hwrite => exact absurd (hread.symm.trans hwrite) Bool.noConfusion
  | filled hwrite => exact absurd (hread.symm.trans hwrite) Bool.noConfusion
  | asking _ hphase =>
      rw [hquiet.engine] at hphase
      cases hphase
  | reading d l _ _ hrx _ hpending hserved =>
      refine ⟨d, l, hserved, hpending, ?_⟩
      rw [hquiet.engine] at hrx
      rwa [RotSwdSpi.new, List.append_nil] at hrx

/-- The invariant once the master has gone on with a transaction. -/
theorem Inv.of_proceed {txs : List Transaction} {m : SwdMaster} {u : Underway}
    (hm : s.master = m.proceed u) (horder : txs = m.done.map Prod.fst ++ [u.t] ++ m.todo)
    (hqueued : s.queued = (m.done.map Prod.fst ++
      if u.t.rnw = true ∨ u.sent = u.t.stream then [u.t] else []).map Transaction.req)
    (hresults : s.Results m.done) (hengaged : s.Engaged u) : Inv txs s := by
  rw [SwdMaster.proceed] at hm
  by_cases hfin : u.Finished
  · -- it ends here
    rw [if_pos hfin] at hm
    rw [if_pos hfin.2] at hqueued
    have hclocked : s.master.clocked = m.done.map Prod.fst ++ [u.t] := by
      rw [hm, SwdMaster.clocked, List.map_append, List.append_nil]
      rfl
    refine ⟨?_, ?_, ?_, ?_, fun _ => hengaged.quiet hfin⟩
    · rw [hm, horder, List.map_append, Option.map_none, Option.toList_none, List.append_nil]
      rfl
    · rw [hqueued, hclocked]
    · rw [hm]
      intro i t frames hget hread
      rcases Runs.getElem?_log_concat hget with hold | ⟨rfl, hlast⟩
      · exact hresults i t frames hold hread
      · cases hlast
        obtain ⟨d, l, hserved, hpending, hpopped⟩ := hengaged.result hfin hread
        have hlength : l.length = m.done.length := by
          have hlen := congrArg List.length hqueued
          rw [SwdSession.queued, hpending, hserved] at hlen
          simp only [List.append_nil, List.length_map, List.length_append,
            List.length_singleton] at hlen
          omega
        refine ⟨d, ?_, hpopped⟩
        rw [hserved, ← hlength, List.getElem?_concat_length]
    · intro u' hu'
      rw [hm] at hu'
      cases hu'
  · rw [if_neg hfin] at hm
    refine ⟨?_, ?_, ?_, ?_, ?_⟩
    · rw [hm]
      exact horder
    · rw [hm]
      exact hqueued
    · rw [hm]
      exact hresults
    · intro u' hu'
      rw [hm] at hu'
      cases hu'
      exact hengaged
    · intro hnone
      rw [hm] at hnone
      cases hnone

/-! ## The steps -/

section Steps

variable {txs : List Transaction} (h : Inv txs s)

include h

theorem Inv.order_of {u : Underway} (hcur : s.master.cur = some u) :
    txs = s.master.done.map Prod.fst ++ [u.t] ++ s.master.todo := by
  have horder := h.order
  rw [hcur] at horder
  exact horder

theorem Inv.queued_of {u : Underway} (hcur : s.master.cur = some u) :
    s.queued = (s.master.done.map Prod.fst ++
      if u.t.rnw = true ∨ u.sent = u.t.stream then [u.t] else []).map Transaction.req := by
  have hqueued := h.queued
  rw [SwdMaster.clocked, hcur] at hqueued
  exact hqueued

omit h in
theorem supply_cases (e : RotSwdSpi) (lk : SwdLink) :
    (∃ d, e.phase = .readData ∧ e.rx = [] ∧ lk.resp = some d ∧
      e.maybeSupplyReadData lk = (⟨readFrames d, .idle⟩, { lk with resp := none })) ∨
    (e.maybeSupplyReadData lk = (e, lk) ∧
      (e.phase = .readData → e.rx = [] → lk.resp = none)) := by
  rw [maybeSupplyReadData]
  split
  · next data hphase hrx hresp => exact Or.inl ⟨data, hphase, hrx, hresp, rfl⟩
  · next hnot =>
      refine Or.inr ⟨rfl, fun hphase hrx => ?_⟩
      cases hresp : lk.resp with
      | none => rfl
      | some d => exact absurd hresp (hnot d hphase hrx)

/-- Supplying the data of a read. -/
theorem Inv.supply : Inv txs { s with
    engine := (s.engine.maybeSupplyReadData s.link).1
    link := (s.engine.maybeSupplyReadData s.link).2 } := by
  rcases supply_cases s.engine s.link with ⟨d, hphase, hrx, hresp, heq⟩ | ⟨heq, -⟩
  · rw [heq]
    refine ⟨h.order, h.queued, h.results, fun u hcur => ?_, fun hcur => ?_⟩
    · -- only a read whose acknowledge has been read gets its data
      cases h.engaged u hcur with
      | filling _ _ _ hphase' => rw [hphase] at hphase'; cases hphase'
      | filled _ _ hphase' => rw [hphase] at hphase'; cases hphase'
      | reading _ _ _ hphase' => rw [hphase] at hphase'; cases hphase'
      | asking hread _ hpopped hawaits =>
          cases hawaits with
          | queued _ _ _ hnone => rw [hresp] at hnone; cases hnone
          | answered d' l hpending hserved hresp' =>
              rw [hresp] at hresp'
              cases hresp'
              rw [hrx, List.append_nil] at hpopped
              exact .reading d l hread rfl (by rw [hpopped]; rfl) rfl hpending hserved
    · rw [(h.quiet hcur).engine] at hphase
      cases hphase
  · rw [heq]
    exact h

/-- Reading a frame that is there. -/
theorem Inv.popFrame {v : Half} {rest : List Half} {m : SwdMaster} (hrx : s.engine.rx = v :: rest)
    (hpop : s.master.pop v = some m) :
    Inv txs { s with engine := ⟨rest, s.engine.phase⟩, master := m } := by
  rw [SwdMaster.pop] at hpop
  cases hcur : s.master.cur with
  | none =>
      rw [hcur] at hpop
      cases hpop
  | some u =>
      rw [hcur] at hpop
      dsimp only at hpop
      split at hpop
      case isFalse => cases hpop
      cases hpop
      have hmove : ∀ {l : List Half}, u.popped ++ s.engine.rx = l →
          (u.popped ++ [v]) ++ rest = l := by
        intro l heq
        rw [List.append_assoc, List.singleton_append, ← hrx]
        exact heq
      have horder := h.order_of hcur
      have hqueued := h.queued_of hcur
      refine Inv.of_proceed (m := s.master) (u := { u with popped := u.popped ++ [v] }) rfl
        horder hqueued h.results ?_
      cases h.engaged u hcur with
      | filling hwrite hsent hpart hphase hpopped hresp hwrites =>
          exact .filling hwrite hsent hpart hphase (hmove hpopped) hresp hwrites
      | filled hwrite hsent hphase hpopped hresp hwrites =>
          exact .filled hwrite hsent hphase (hmove hpopped) hresp hwrites
      | asking hread hphase hpopped hawaits =>
          refine .asking hread hphase (hmove hpopped) ?_
          cases hawaits with
          | queued ws hpending hwrites hresp => exact .queued ws hpending hwrites hresp
          | answered d l hpending hserved hresp => exact .answered d l hpending hserved hresp
      | reading d l hread hphase hpopped hresp hpending hserved =>
          exact .reading d l hread hphase (hmove hpopped) hresp hpending hserved

/-- Taking a transfer off the queue. -/
theorem Inv.take {r : SwdReq} {req : List SwdReq} (hhand : s.inHand = none)
    (hreq : s.link.req = r :: req) :
    Inv txs { s with inHand := some r, link := { s.link with req := req } } := by
  have hpending : ({ s with inHand := some r, link := { s.link with req := req } } :
      SwdSession H).pending = s.pending := by
    rw [pending, pending, hhand, hreq]
    rfl
  refine ⟨h.order, ?_, h.results, fun u hcur => ?_, fun hcur => ?_⟩
  · rw [SwdSession.queued, hpending]
    exact h.queued
  · cases h.engaged u hcur with
    | filling hwrite hsent hpart hphase hrx hresp hwrites =>
        exact .filling hwrite hsent hpart hphase hrx hresp (hpending ▸ hwrites)
    | filled hwrite hsent hphase hrx hresp hwrites =>
        exact .filled hwrite hsent hphase hrx hresp (hpending ▸ hwrites)
    | asking hread hphase hrx hawaits =>
        refine .asking hread hphase hrx ?_
        cases hawaits with
        | queued ws hlast hwrites hresp => exact .queued ws (hpending.trans hlast) hwrites hresp
        | answered d l hnone hserved hresp =>
            exact .answered d l (hpending.trans hnone) hserved hresp
    | reading d l hread hphase hrx hresp hnone hserved =>
        exact .reading d l hread hphase hrx hresp (hpending.trans hnone) hserved
  · have hquiet := h.quiet hcur
    exact ⟨hquiet.engine, hquiet.resp, hpending ▸ hquiet.writes⟩

/-- Handing a result back. -/
theorem Inv.answer {r : SwdReq} {out : Option Word} {host : H} (hhand : s.inHand = some r)
    (hanswers : out.isSome = true ↔ r.rnw = true) :
    Inv txs { s with
      inHand := none
      host := host
      served := s.served ++ [(r, out)]
      link := { s.link with resp := out.or s.link.resp } } := by
  have hpending : s.pending = r :: s.link.req := by
    rw [pending, hhand]
    rfl
  -- a write has no result
  have hnone : r.rnw = false → out = none := by
    intro hwrite
    cases out with
    | none => rfl
    | some d => exact absurd (hwrite.symm.trans (hanswers.mp rfl)) Bool.false_ne_true
  have hrest : ∀ {rs : List SwdReq}, s.pending = rs → Writes rs →
      r.rnw = false ∧ Writes s.link.req := by
    intro rs heq hwrites
    rw [← heq, hpending] at hwrites
    exact ⟨hwrites r List.mem_cons_self, fun r' hr' => hwrites r' (List.mem_cons_of_mem r hr')⟩
  refine ⟨h.order, ?_, ?_, fun u hcur => ?_, fun hcur => ?_⟩
  · have hqueued := h.queued
    rw [SwdSession.queued, hpending] at hqueued
    rw [← hqueued, SwdSession.queued, pending, List.map_append, List.append_assoc]
    rfl
  · intro i t frames hget hread
    obtain ⟨d, hserved, hframes⟩ := h.results i t frames hget hread
    refine ⟨d, ?_, hframes⟩
    rw [List.getElem?_append_left (List.getElem?_eq_some_iff.mp hserved).1, hserved]
  · cases h.engaged u hcur with
    | filling hwrite hsent hpart hphase hrx hresp hwrites =>
        obtain ⟨hr, hlink⟩ := hrest rfl hwrites
        cases hnone hr
        exact .filling hwrite hsent hpart hphase hrx hresp hlink
    | filled hwrite hsent hphase hrx hresp hwrites =>
        obtain ⟨hr, hlink⟩ := hrest rfl hwrites
        cases hnone hr
        exact .filled hwrite hsent hphase hrx hresp hlink
    | asking hread hphase hrx hawaits =>
        refine .asking hread hphase hrx ?_
        cases hawaits with
        | queued ws hlast hwrites hresp =>
            rw [hpending] at hlast
            cases ws with
            | nil =>
                -- the read itself
                obtain ⟨rfl, hreq⟩ := List.cons.inj hlast
                obtain ⟨d, rfl⟩ := Option.isSome_iff_exists.mp (hanswers.mpr hread)
                exact .answered d s.served hreq rfl rfl
            | cons w ws =>
                -- a write before it
                obtain ⟨rfl, hreq⟩ := List.cons.inj hlast
                cases hnone (hwrites r List.mem_cons_self)
                exact .queued ws hreq (fun r' hr' => hwrites r' (List.mem_cons_of_mem r hr')) hresp
        | answered d l hempty hserved hresp =>
            rw [hpending] at hempty
            cases hempty
    | reading d l hread hphase hrx hresp hempty hserved =>
        rw [hpending] at hempty
        cases hempty
  · have hquiet := h.quiet hcur
    obtain ⟨hr, hlink⟩ := hrest rfl hquiet.writes
    cases hnone hr
    exact ⟨hquiet.engine, hquiet.resp, hlink⟩

/-- The next request. -/
theorem Inv.request {val : Word} {t : Transaction} {todo : List Transaction}
    (hcur : s.master.cur = none) (htodo : s.master.todo = t :: todo)
    (hrequest : frameBits val = t.request) :
    Inv txs { s with
      engine := (s.engine.fifowr s.link val).1
      link := (s.engine.fifowr s.link val).2
      master := { s.master with todo := todo, cur := some ⟨t, [], []⟩ } } := by
  have hquiet := h.quiet hcur
  have hidle : s.engine.phase = .idle := by rw [hquiet.engine]; rfl
  have hrx : s.engine.rx = [] := by rw [hquiet.engine]; rfl
  have hstart : ({ s.master with todo := todo, cur := some ⟨t, [], []⟩ } : SwdMaster) =
      ({ s.master with todo := todo } : SwdMaster).proceed ⟨t, [], []⟩ := by
    have hnot : ¬ (⟨t, [], []⟩ : Underway).Finished := by
      rintro ⟨hlen, -⟩
      rw [Transaction.pops] at hlen
      split at hlen <;> cases hlen
    exact (if_neg hnot).symm
  have horder : txs = s.master.done.map Prod.fst ++ [t] ++ todo := by
    have horder := h.order
    rw [hcur, htodo, Option.map_none, Option.toList_none, List.append_nil] at horder
    rw [horder, List.append_assoc, List.singleton_append]
  have hqueued : s.queued = (s.master.done.map Prod.fst).map Transaction.req := by
    have hqueued := h.queued
    rw [SwdMaster.clocked, hcur, List.append_nil] at hqueued
    exact hqueued
  have hempty : [] ≠ t.stream := by
    intro heq
    have hlen := congrArg List.length heq
    rw [length_stream] at hlen
    cases hlen
  refine Inv.of_proceed hstart horder ?_ h.results ?_
  · rw [fifowr_request hidle hrequest]
    dsimp only
    split
    · next hread =>
        rw [if_pos (Or.inl hread), List.map_append, ← hqueued, SwdSession.queued,
          SwdSession.queued, pending, pending, List.append_assoc, List.append_assoc]
        rfl
    · next hwrite =>
        rw [if_neg (fun hor => hor.elim hwrite hempty), List.append_nil, ← hqueued]
        rfl
  · rw [fifowr_request hidle hrequest, hrx]
    split
    · next hread =>
        refine .asking hread rfl rfl (.queued s.pending ?_ hquiet.writes hquiet.resp)
        rw [pending, pending, List.append_assoc]
    · next hwrite =>
        refine .filling (Bool.eq_false_of_not_eq_true hwrite) List.nil_prefix hempty ?_ rfl
          hquiet.resp hquiet.writes
        rw [BitStream.shifted_nil]
        rfl

/-- Part of the data of a write. -/
theorem Inv.data {val : Word} {u : Underway} (hcur : s.master.cur = some u)
    (hwrite : u.t.rnw = false) (hfour : frameLen val ≠ 4)
    (hsent : (u.sent ++ frameBits val) <+: u.t.stream) :
    Inv txs { s with
      engine := (s.engine.fifowr s.link val).1
      link := (s.engine.fifowr s.link val).2
      master := s.master.proceed { u with sent := u.sent ++ frameBits val } } := by
  have hpos : 0 < (frameBits val).length := by
    rw [frameBits, BitStream.length_frame]
    exact frameLen_pos val
  have horder := h.order_of hcur
  have hqueued := h.queued_of hcur
  have hnot : ¬ u.t.rnw = true := by
    rw [hwrite]
    exact Bool.false_ne_true
  cases h.engaged u hcur with
  | filled _ hall =>
      -- there is no bit left to send
      have hle := hsent.length_le
      rw [List.length_append, hall] at hle
      omega
  | asking hread => exact absurd hread hnot
  | reading _ _ hread => exact absurd hread hnot
  | filling _ hpre hpart hphase hrx hresp hwrites =>
      have hbefore : s.queued = (s.master.done.map Prod.fst).map Transaction.req := by
        rw [if_neg (fun hor => hor.elim hnot hpart), List.append_nil] at hqueued
        exact hqueued
      refine Inv.of_proceed (m := s.master) (u := { u with sent := u.sent ++ frameBits val }) rfl
        horder ?_ h.results ?_
      · rw [fifowr_data hphase hfour hsent]
        dsimp only
        split
        · next hall =>
            rw [if_pos (Or.inr hall), List.map_append, ← hbefore, SwdSession.queued,
              SwdSession.queued, pending, pending, List.append_assoc, List.append_assoc,
              List.map_singleton, Transaction.req, if_neg hnot, hwrite]
        · next hmore =>
            rw [if_neg (fun hor => hor.elim hnot hmore), List.append_nil, ← hbefore]
            rfl
      · rw [fifowr_data hphase hfour hsent]
        split
        · next hall =>
            refine .filled hwrite hall rfl hrx hresp ?_
            intro r hr
            rw [pending, ← List.append_assoc] at hr
            rcases List.mem_append.mp hr with hold | hnew
            · exact hwrites r hold
            · rw [List.mem_singleton.mp hnew]
        · next hmore => exact .filling hwrite hsent hmore rfl hrx hresp hwrites

/-- Clocking a frame out. -/
theorem Inv.fifowr {val : Word} {m : SwdMaster} (hsend : s.master.send val = some m) :
    Inv txs { s with
      engine := (s.engine.fifowr s.link val).1
      link := (s.engine.fifowr s.link val).2
      master := m } := by
  -- a frame that neither side acts on
  have hskip : s.engine.fifowr s.link val = (s.engine, s.link) → Inv txs { s with
      engine := (s.engine.fifowr s.link val).1
      link := (s.engine.fifowr s.link val).2
      master := s.master } := by
    intro heq
    rw [heq]
    exact h
  rw [SwdMaster.send] at hsend
  cases hcur : s.master.cur with
  | none =>
      rw [hcur] at hsend
      dsimp only at hsend
      split at hsend
      · cases htodo : s.master.todo with
        | nil =>
            rw [htodo] at hsend
            cases hsend
        | cons t todo =>
            rw [htodo] at hsend
            dsimp only at hsend
            split at hsend
            · next hrequest =>
                cases hsend
                exact h.request hcur htodo hrequest
            · cases hsend
      · next hidle =>
          cases hsend
          exact hskip (fifowr_idle (by rw [(h.quiet hcur).engine]; rfl) hidle)
  | some u =>
      rw [hcur] at hsend
      dsimp only at hsend
      split at hsend
      · next hread =>
          split at hsend
          · cases hsend
          · next hidle =>
              cases hsend
              cases h.engaged u hcur with
              | filling hwrite => exact absurd (hread.symm.trans hwrite) Bool.noConfusion
              | filled hwrite => exact absurd (hread.symm.trans hwrite) Bool.noConfusion
              | asking _ hphase => exact hskip (fifowr_readData hphase)
              | reading _ _ _ hphase => exact hskip (fifowr_idle hphase hidle)
      · next hwrite =>
          split at hsend
          · next hfour =>
              cases hsend
              refine hskip (fifowr_four (fun hphase' => ?_) hfour)
              cases h.engaged u hcur with
              | filling _ _ _ hphase => rw [hphase] at hphase'; cases hphase'
              | filled _ _ hphase => rw [hphase] at hphase'; cases hphase'
              | asking hread => exact hwrite hread
              | reading _ _ hread => exact hwrite hread
          · next hfour =>
              split at hsend
              · next hsent =>
                  cases hsend
                  exact h.data hcur (Bool.eq_false_of_not_eq_true hwrite) hfour hsent
              · cases hsend

end Steps

/-! ## Whole sessions -/

variable {host : SwdHost H} {txs : List Transaction}

theorem step_pop {s' : SwdSession H} (h : s.step host .pop = some s') :
    ∃ v rest m, (s.engine.maybeSupplyReadData s.link).1.rx = v :: rest ∧
      s.master.pop v = some m ∧ s' = { s with
        engine := ⟨rest, (s.engine.maybeSupplyReadData s.link).1.phase⟩
        link := (s.engine.maybeSupplyReadData s.link).2
        master := m } := by
  have hfiford : s.engine.read s.link fiford =
      (((s.engine.maybeSupplyReadData s.link).1.rx.headD 0).setWidth 32,
        ⟨(s.engine.maybeSupplyReadData s.link).1.rx.tail,
          (s.engine.maybeSupplyReadData s.link).1.phase⟩,
        (s.engine.maybeSupplyReadData s.link).2) := rfl
  have hstatus : (s.engine.read s.link fifostat).1 = fifostatTxnotfull |||
      if (s.engine.maybeSupplyReadData s.link).1.rx = [] then 0 else fifostatRxnotempty := rfl
  rw [step] at h
  dsimp only at h
  rw [hfiford, hstatus] at h
  cases hrx : (s.engine.maybeSupplyReadData s.link).1.rx with
  | nil =>
      rw [hrx, if_pos rfl, if_pos (by decide)] at h
      cases h
  | cons v rest =>
      rw [hrx, if_neg (List.cons_ne_nil v rest), if_neg (by decide)] at h
      obtain ⟨m, hm, heq⟩ := Option.bind_eq_some_iff.mp h
      have hwiden : ((v.setWidth 32 : Word).setWidth 16) = v := by
        rw [BitVec.setWidth_setWidth_of_le v (by decide), BitVec.setWidth_eq]
      refine ⟨v, rest, m, rfl, ?_, (Option.some.inj heq).symm⟩
      rw [← hwiden]
      exact hm

theorem Inv.step {s' : SwdSession H} {e : SwdEvent} (h : Inv txs s)
    (he : s.step host e = some s') : Inv txs s' := by
  cases e with
  | fifowr val =>
      obtain ⟨m, hm, heq⟩ := Option.bind_eq_some_iff.mp he
      cases heq
      exact h.fifowr hm
  | poll =>
      cases he
      exact h.supply
  | pop =>
      obtain ⟨v, rest, m, hrx, hm, rfl⟩ := step_pop he
      exact h.supply.popFrame hrx hm
  | take =>
      rw [SwdSession.step] at he
      split at he
      · next r req hhand hreq =>
          cases he
          exact h.take hhand hreq
      · cases he
  | answer =>
      obtain ⟨r, hhand, hrest⟩ := Option.bind_eq_some_iff.mp he
      obtain ⟨⟨out, host'⟩, htransfer, heq⟩ := Option.bind_eq_some_iff.mp hrest
      cases heq
      exact h.answer hhand (host.answers _ _ _ _ htransfer)

/-- The engine has a frame for the RoT. -/
def Ready (s : SwdSession H) : Prop :=
  (s.engine.read s.link fifostat).1 &&& fifostatRxnotempty ≠ 0

theorem ready_of_ne_nil (h : (s.engine.maybeSupplyReadData s.link).1.rx ≠ []) : s.Ready := by
  have hstatus : (s.engine.read s.link fifostat).1 = fifostatTxnotfull |||
      if (s.engine.maybeSupplyReadData s.link).1.rx = [] then 0 else fifostatRxnotempty := rfl
  rw [Ready, hstatus, if_neg h]
  decide

/-- Once the queue is drained, a transaction never waits for a frame in vain. -/
theorem Engaged.ready {u : Underway} (h : s.Engaged u) (hmore : u.popped.length < u.t.pops)
    (hpending : s.pending = []) : s.Ready := by
  have hthere : ∀ {l : List Half}, u.popped ++ s.engine.rx = l → u.popped.length < l.length →
      (s.engine.maybeSupplyReadData s.link).1.rx ≠ [] := by
    intro l heq hlt
    have hne : s.engine.rx ≠ [] := by
      intro hnil
      rw [hnil, List.append_nil] at heq
      rw [heq] at hlt
      exact Nat.lt_irrefl _ hlt
    rcases supply_cases s.engine s.link with ⟨_, -, hnil, -⟩ | ⟨hsame, -⟩
    · exact absurd hnil hne
    · rw [hsame]
      exact hne
  apply ready_of_ne_nil
  rw [Transaction.pops] at hmore
  cases h with
  | filling hwrite _ _ _ hrx =>
      rw [hwrite] at hmore
      exact hthere hrx hmore
  | filled hwrite _ _ hrx =>
      rw [hwrite] at hmore
      exact hthere hrx hmore
  | reading d l hread _ hrx =>
      rw [if_pos hread] at hmore
      exact hthere hrx hmore
  | asking hread hphase hrx hawaits =>
      cases hawaits with
      | queued ws hlast =>
          rw [hpending] at hlast
          exact absurd hlast.symm (List.append_ne_nil_of_right_ne_nil ws (List.cons_ne_nil _ _))
      | answered d l _ _ hresp =>
          rcases supply_cases s.engine s.link with ⟨_, -, -, -, heq⟩ | ⟨hsame, hwaits⟩
          · rw [heq]
            exact List.cons_ne_nil _ _
          · rw [hsame]
            intro hnil
            rw [hwaits hphase hnil] at hresp
            cases hresp

end SwdSession

/-- In every session the transfers that were queued for the debug port are the transactions that
the master has clocked out, once each, in order and with their data; a read that is done has the
data that the serve loop had for it, with its parity; and a transaction whose transfers have been
run has a frame to read as long as it needs one. -/
theorem swd_transactions {H : Type} {host : SwdHost H} {txs : List Transaction} {h : H}
    {es : List SwdEvent} {s : SwdSession H}
    (hrun : Runs.run (SwdSession.step host) es (SwdSession.start txs h) = some s) :
    s.queued = s.master.clocked.map Transaction.req ∧ s.master.clocked <+: txs ∧
      (s.master.cur = none → s.master.todo = [] → s.master.clocked = txs) ∧
      (∀ (i : Nat) (t : Transaction) (frames : List Half), s.master.done[i]? = some (t, frames) →
        t.rnw = true → ∃ d, s.served[i]? = some (t.req, some d) ∧
          decodeRead frames = some (d, parity d)) ∧
      ∀ u, s.master.cur = some u → u.popped.length < u.t.pops → s.pending = [] → s.Ready := by
  have hinv : SwdSession.Inv txs s := Runs.invariant_of_run (I := SwdSession.Inv txs)
    (fun _ _ _ hI he => hI.step he) (SwdSession.inv_start txs h) hrun
  refine ⟨hinv.queued, ?_, ?_, ?_, fun u hcur => (hinv.engaged u hcur).ready⟩
  · have horder := hinv.order
    rw [SwdMaster.clocked]
    cases hcur : s.master.cur with
    | none =>
        rw [hcur] at horder
        rw [List.append_nil]
        exact ⟨_, (horder.trans (List.append_assoc ..)).symm⟩
    | some u =>
        rw [hcur] at horder
        dsimp only
        split
        · exact ⟨_, horder.symm⟩
        · rw [List.append_nil]
          exact ⟨_, (horder.trans (List.append_assoc ..)).symm⟩
  · intro hcur htodo
    have horder := hinv.order
    rw [hcur, htodo, List.append_nil] at horder
    rw [SwdMaster.clocked, hcur]
    exact horder.symm
  · intro i t frames hget hread
    obtain ⟨d, hserved, rfl⟩ := hinv.results i t frames hget hread
    exact ⟨d, hserved, decodeRead_readFrames d⟩

/-- A power-up request, and a read of DPIDR. -/
def powerUp : List Transaction :=
  [⟨false, false, true, false, true, false, 0x50000000, false⟩,
    ⟨false, true, false, false, true, false, 0, false⟩]

/-- A session that clocks them out, the data of the write in frames of 16, 9 and 9 bits. -/
def powerUpSession : Option (SwdSession (DebugTarget Unit)) :=
  Runs.run (SwdSession.step (DebugTarget.swdHost Unit))
    [.fifowr 0x07000095, .fifowr 0x03000000, .pop, .fifowr 0x0F000000, .fifowr 0x08000000,
      .fifowr 0x08000014, .fifowr 0x070000A5, .take, .answer, .pop, .take, .answer, .poll, .pop,
      .pop, .pop, .pop]
    (SwdSession.start powerUp ⟨SwDp.new, Core.new, Bus.new ()⟩)

theorem swd_transactions_powerUp :
    ∃ s, powerUpSession = some s ∧
      s.queued = [⟨false, false, 4, 0x50000000⟩, ⟨false, true, 0, 0⟩] ∧
      ∃ t frames d, s.master.done[1]? = some (t, frames) ∧
        s.served[1]? = some (⟨false, true, 0, 0⟩, some d) ∧
          decodeRead frames = some (d, parity d) := by
  have hvalues : powerUpSession.map (fun s => (s.master.cur.isNone, s.master.todo,
      s.master.done[1]?.map Prod.fst)) = some (true, [], powerUp[1]?) := by decide +kernel
  obtain ⟨s, hs, heq⟩ := Option.map_eq_some_iff.mp hvalues
  simp only [Prod.mk.injEq, Option.isNone_iff_eq_none] at heq
  obtain ⟨hcur, htodo, hdone⟩ := heq
  obtain ⟨⟨t, frames⟩, hget, rfl⟩ := Option.map_eq_some_iff.mp hdone
  obtain ⟨hqueued, -, hall, hreads, -⟩ := swd_transactions hs
  obtain ⟨d, hserved, hdecode⟩ := hreads 1 _ frames hget rfl
  refine ⟨s, hs, ?_, _, frames, d, hget, hserved, hdecode⟩
  rw [hqueued, hall hcur htodo]
  rfl

end SpEmu
