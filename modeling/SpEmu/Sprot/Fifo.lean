import SpEmu.Sprot.Wires
import SpEmu.Lib.Runs

/-!
# The depth of the sprot queues

Both queues stand for FIFOs of `fifoBytes` bytes. The master drops a byte that finds `mosi` full;
the slave trusts the RoT to look at TXNOTFULL before it queues a reply frame. TXNOTFULL is set
while a byte fits, and a frame is two bytes: `fifo_bounds_iff` shows that the one frame that
overfills `miso` is the one queued behind fifteen bytes.
-/

set_option autoImplicit false

namespace SpEmu

open ByteMem Sprot

namespace SprotLink

/-! ## Queue depths after one operation -/

variable (lk : SprotLink)

theorem clock_depth (hmosi : lk.mosi.length ≤ fifoBytes) (out : Byte) :
    (lk.clock out).2.mosi.length ≤ fifoBytes ∧
      (lk.clock out).2.miso.length ≤ lk.miso.length := by
  simp only [clock]
  split
  · next hroom =>
      refine ⟨?_, List.length_tail.symm ▸ Nat.sub_le _ _⟩
      rw [List.length_append, List.length_singleton]
      exact hroom
  · exact ⟨hmosi, List.length_tail.symm ▸ Nat.sub_le _ _⟩

theorem driveCs_depth (newCs : Bool) :
    (lk.driveCs newCs).mosi.length ≤ lk.mosi.length ∧ (lk.driveCs newCs).miso = lk.miso := by
  rw [driveCs]
  split
  · exact ⟨Nat.le_refl _, rfl⟩
  split
  · cases hlive : lk.rotLive with
    | true => exact ⟨Nat.zero_le _, rfl⟩
    | false => exact ⟨Nat.le_refl _, rfl⟩
  · exact ⟨Nat.le_refl _, rfl⟩

theorem readFrame_depth :
    lk.readFrame.2.mosi.length ≤ lk.mosi.length ∧ lk.readFrame.2.miso = lk.miso := by
  refine ⟨?_, rfl⟩
  rw [readFrame, List.length_tail, List.length_tail]
  omega

theorem writeFrame_depth (frame : Half) :
    (lk.writeFrame frame).mosi = lk.mosi ∧
      (lk.writeFrame frame).miso.length = lk.miso.length + 2 := by
  refine ⟨rfl, ?_⟩
  rw [writeFrame, List.length_append]
  rfl

theorem length_empty_le (flush : Bool) (q : List Byte) :
    (if flush then [] else q).length ≤ q.length := by
  cases flush with
  | true => exact Nat.zero_le _
  | false => exact Nat.le_refl _

/-- TXNOTFULL. -/
def txNotFull : Bool := lk.fifoStat &&& ((1 : Word) <<< 5) != 0

theorem txNotFull_iff : lk.txNotFull = true ↔ lk.miso.length < fifoBytes := by
  rw [txNotFull, fifoStat]
  by_cases ht : lk.miso.length < fifoBytes
  · rw [if_pos ht]
    refine iff_of_true ?_ ht
    split <;> rfl
  · rw [if_neg ht]
    refine iff_of_false ?_ ht
    split <;> exact Bool.false_ne_true

end SprotLink

/-- The operation queues a frame. -/
def LinkOp.queues : LinkOp → Bool
  | .writeFrame _ => true
  | _ => false

/-- Any other operation leaves no more bytes for the SP than there were. -/
theorem LinkOp.apply_depth {lk : SprotLink} (hmosi : lk.mosi.length ≤ fifoBytes) {op : LinkOp}
    (hop : op.queues = false) :
    (op.apply lk).mosi.length ≤ fifoBytes ∧ (op.apply lk).miso.length ≤ lk.miso.length := by
  cases op with
  | none => exact ⟨hmosi, Nat.le_refl _⟩
  | clock out => exact lk.clock_depth hmosi out
  | driveCs newCs =>
      obtain ⟨hle, hmiso⟩ := lk.driveCs_depth newCs
      exact ⟨Nat.le_trans hle hmosi, Nat.le_of_eq (congrArg List.length hmiso)⟩
  | readStat => exact ⟨hmosi, Nat.le_refl _⟩
  | readFrame =>
      obtain ⟨hle, hmiso⟩ := lk.readFrame_depth
      exact ⟨Nat.le_trans hle hmosi, Nat.le_of_eq (congrArg List.length hmiso)⟩
  | clearStat ssa ssd => exact ⟨hmosi, Nat.le_refl _⟩
  | emptyFifo tx rx =>
      constructor
      · exact Nat.le_trans (SprotLink.length_empty_le rx lk.mosi) hmosi
      · exact SprotLink.length_empty_le tx lk.miso
  | writeFrame frame => exact nomatch hop

/-! ## The RoT's discipline -/

/-- The wires, and whether the last FIFOSTAT read showed TXNOTFULL with no FIFOWR since. -/
structure TxRun where
  wires : Wires
  txReady : Bool

namespace TxRun

/-- What the RoT knows about TXNOTFULL after an operation. -/
def readyAfter (s : TxRun) : LinkOp → Bool
  | .readStat => s.wires.link.txNotFull
  | .writeFrame _ => false
  | _ => s.txReady

def step (s : TxRun) (e : WireEvent) : Option TxRun :=
  some ⟨s.wires.access e, s.readyAfter (s.wires.linkOp e)⟩

/-- A FIFOWR. -/
def QueuesFrame (s : TxRun) (e : WireEvent) : Prop := (s.wires.linkOp e).queues = true

instance (s : TxRun) (e : WireEvent) : Decidable (s.QueuesFrame e) :=
  inferInstanceAs (Decidable (_ = true))

/-- The RoT queues a frame only after its last FIFOSTAT read showed TXNOTFULL, with no other frame
in between. -/
def Disciplined (s : TxRun) (e : WireEvent) : Prop := s.QueuesFrame e → s.txReady = true

instance (s : TxRun) (e : WireEvent) : Decidable (s.Disciplined e) :=
  inferInstanceAs (Decidable (s.QueuesFrame e → s.txReady = true))

def InBounds (s : TxRun) : Prop :=
  s.wires.link.mosi.length ≤ fifoBytes ∧ s.wires.link.miso.length ≤ fifoBytes

instance (s : TxRun) : Decidable s.InBounds := inferInstanceAs (Decidable (_ ∧ _))

/-- Neither queue holds more than the FIFO once the access is done. -/
def KeepsBounds (s : TxRun) (e : WireEvent) : Prop := ∀ s' ∈ s.step e, s'.InBounds

instance (s : TxRun) (e : WireEvent) : Decidable (s.KeepsBounds e) :=
  inferInstanceAs (Decidable (∀ s' ∈ s.step e, s'.InBounds))

/-- A frame is queued behind fifteen bytes. -/
def Overfills (s : TxRun) (e : WireEvent) : Prop :=
  s.QueuesFrame e ∧ s.wires.link.miso.length = fifoBytes - 1

/-- What a disciplined run keeps. -/
structure Bounded (s : TxRun) : Prop where
  inBounds : s.InBounds
  ready : s.txReady = true → s.wires.link.miso.length < fifoBytes

variable {s s' : TxRun}

/-- The RoT reads TXNOTFULL off the link; no other operation tells it more. -/
theorem readyAfter_cases {op : LinkOp} (hop : op.queues = false) :
    s.readyAfter op = s.txReady ∨
      (s.readyAfter op = s.wires.link.txNotFull ∧ op.apply s.wires.link = s.wires.link) := by
  cases op with
  | readStat => exact Or.inr ⟨rfl, rfl⟩
  | writeFrame frame => exact nomatch hop
  | none => exact Or.inl rfl
  | clock out => exact Or.inl rfl
  | driveCs newCs => exact Or.inl rfl
  | readFrame => exact Or.inl rfl
  | clearStat ssa ssd => exact Or.inl rfl
  | emptyFifo tx rx => exact Or.inl rfl

theorem bounded_access {e : WireEvent} (h : s.Bounded) (hno : ¬ s.QueuesFrame e)
    (hstep : s.step e = some s') : s'.Bounded := by
  obtain rfl := Option.some.inj hstep
  have hop : (s.wires.linkOp e).queues = false := Bool.eq_false_iff.mpr hno
  have hlink := s.wires.access_link e
  obtain ⟨hmosi, hmiso⟩ := LinkOp.apply_depth h.inBounds.1 hop
  rw [← hlink] at hmosi hmiso
  refine ⟨⟨hmosi, Nat.le_trans hmiso h.inBounds.2⟩, fun hready => ?_⟩
  rcases readyAfter_cases (s := s) hop with hsame | ⟨hstat, hkeep⟩
  · exact Nat.lt_of_le_of_lt hmiso (h.ready (hsame.symm.trans hready))
  · have hroom := (SprotLink.txNotFull_iff _).mp (hstat.symm.trans hready)
    rw [← hkeep, ← hlink] at hroom
    exact hroom

/-- A FIFOWR adds two bytes. -/
theorem queues_spec {e : WireEvent} (hq : s.QueuesFrame e) (hstep : s.step e = some s') :
    s'.txReady = false ∧ s'.wires.link.mosi = s.wires.link.mosi ∧
      s'.wires.link.miso.length = s.wires.link.miso.length + 2 := by
  obtain rfl := Option.some.inj hstep
  have hlink := s.wires.access_link e
  rw [QueuesFrame] at hq
  cases hop : s.wires.linkOp e with
  | writeFrame frame =>
      rw [hop] at hlink
      obtain ⟨hmosi, hmiso⟩ := s.wires.link.writeFrame_depth frame
      refine ⟨rfl, ?_, ?_⟩
      · exact (congrArg SprotLink.mosi hlink).trans hmosi
      · exact (congrArg (fun lk => lk.miso.length) hlink).trans hmiso
  | none => exact nomatch hop ▸ hq
  | clock out => exact nomatch hop ▸ hq
  | driveCs newCs => exact nomatch hop ▸ hq
  | readStat => exact nomatch hop ▸ hq
  | readFrame => exact nomatch hop ▸ hq
  | clearStat ssa ssd => exact nomatch hop ▸ hq
  | emptyFifo tx rx => exact nomatch hop ▸ hq

theorem inBounds_iff_not_overfills {e : WireEvent} (h : s.Bounded) (hd : s.Disciplined e)
    (hstep : s.step e = some s') : s'.InBounds ↔ ¬ s.Overfills e := by
  by_cases hq : s.QueuesFrame e
  · obtain ⟨-, hmosi, hmiso⟩ := queues_spec hq hstep
    have hroom := h.ready (hd hq)
    have hfull := h.inBounds.1
    simp only [InBounds, hmosi, hmiso, Overfills, hq, true_and]
    omega
  · exact iff_of_true (bounded_access h hq hstep).inBounds fun hover => hq hover.1

theorem bounded_step {e : WireEvent} (h : s.Bounded) (hin : s'.InBounds)
    (hstep : s.step e = some s') : s'.Bounded := by
  by_cases hq : s.QueuesFrame e
  · obtain ⟨hready, -⟩ := queues_spec hq hstep
    exact ⟨hin, fun hr => absurd (hready.symm.trans hr) Bool.false_ne_true⟩
  · exact bounded_access h hq hstep

/-- The idle wires, with nothing known about TXNOTFULL. -/
def start (rotLive : Bool) : TxRun := ⟨Wires.new rotLive, false⟩

/-- In every interleaving of a disciplined RoT with the SP: neither queue exceeds the FIFO if and
only if no frame is queued behind fifteen bytes. -/
theorem fifo_bounds_iff (rotLive : Bool) (es : List WireEvent)
    (hd : Runs.Along step Disciplined es (start rotLive)) :
    Runs.Along step KeepsBounds es (start rotLive) ↔
      Runs.Along step (fun s e => ¬ s.Overfills e) es (start rotLive) := by
  refine Runs.along_iff_of_along (I := Bounded) ?_ ?_ ?_ hd
  · exact fun s e s' h _ hin hstep => bounded_step h (hin s' hstep) hstep
  · intro s e h hdisc
    constructor
    · exact fun hin => (inBounds_iff_not_overfills h hdisc rfl).mp (hin _ rfl)
    · exact fun hover s' hstep => (inBounds_iff_not_overfills h hdisc hstep).mpr hover
  · exact ⟨⟨Nat.zero_le _, Nat.zero_le _⟩, nofun⟩

/-- The RoT queues a frame after a look at FIFOSTAT. -/
def oneFrame : List WireEvent := [.flexRead 0xE04, .flexWrite 0xE20 0xABCD]

/-- One frame into the empty FIFO. -/
theorem fifo_bounds_iff_oneFrame :
    Runs.Along step KeepsBounds oneFrame (start true) ↔
      Runs.Along step (fun s e => ¬ s.Overfills e) oneFrame (start true) :=
  fifo_bounds_iff true oneFrame (by decide +kernel)

/-- Eight frames fill the FIFO, the SP clocks one byte out of it, and a ninth frame follows. -/
def ninthFrame : List WireEvent :=
  (List.replicate 8 oneFrame).flatten ++ [.spiWrite 0x20 0] ++ oneFrame

/-- TXNOTFULL is set behind fifteen bytes, and the ninth frame makes them seventeen. -/
theorem ninthFrame_overfills :
    Runs.Along step Disciplined ninthFrame (start true) ∧
      ¬ Runs.Along step KeepsBounds ninthFrame (start true) := by
  constructor
  · decide +kernel
  · decide +kernel

end TxRun

end SpEmu
