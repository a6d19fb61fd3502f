import SpEmu.Sprot.Wires
import SpEmu.Lib.Runs

/-!
# Transfer framing on the sprot link

A chip-select assert opens a transfer. The driver latches the edges, empties the receive FIFO of
the live RoT and arms the start-of-transfer mark for the next FIFORD, whichever it is: a FIFORD
that the assert overtook reads the emptied FIFO and takes the mark with it, and a byte clocked
after the de-assert completes the frame of a transfer that had one byte.
`framed_of_wholeFirstFrame` shows that the framing holds in every run whose first FIFORD of each
transfer finds the first two bytes of that transfer clocked and not emptied.
-/

set_option autoImplicit false

namespace SpEmu

open ByteMem Sprot

namespace SprotLink

variable (lk : SprotLink)

/-- The mark of a frame. -/
def sotBit : Word := (1 : Word) <<< 20

/-- The frame of two wire bytes. -/
def frame (hi lo : Byte) : Word := ((hi.setWidth 32 : Word) <<< 8) ||| lo.setWidth 32

/-- RXNOTEMPTY. -/
def rxNotEmpty : Bool := lk.fifoStat &&& ((1 : Word) <<< 6) != 0

/-- The mark lies above the sixteen bits of a frame. -/
theorem frame_and_sotBit (hi lo : Byte) : frame hi lo &&& sotBit = 0 := by
  apply BitVec.eq_of_getLsbD_eq
  intro i _
  simp only [frame, sotBit, BitVec.getLsbD_and, BitVec.getLsbD_or, BitVec.getLsbD_shiftLeft,
    BitVec.getLsbD_setWidth]
  by_cases hbit : i = 20
  · subst hbit
    simp [BitVec.getLsbD_of_ge]
  · simp [BitVec.getLsbD_one]
    omega

theorem readFrame_unmarked (hsot : lk.sotPending = false) : lk.readFrame.1 &&& sotBit = 0 := by
  have hframe : lk.readFrame.1 = frame (lk.mosi.headD 0) (lk.mosi.tail.headD 0) := by
    rw [readFrame, hsot]
    exact BitVec.or_zero
  rw [hframe, frame_and_sotBit]

theorem readFrame_marked {hi lo : Byte} {rest : List Byte} (hmosi : lk.mosi = hi :: lo :: rest)
    (hsot : lk.sotPending = true) : lk.readFrame.1 = frame hi lo ||| sotBit := by
  rw [readFrame, hmosi, hsot]
  rfl

end SprotLink

/-! ## The edge latches -/

namespace LinkOp

variable {lk : SprotLink} {op : LinkOp}

/-- Only a write of one to SSA clears it. -/
theorem apply_ssa (hssa : lk.ssa = true) :
    (op.apply lk).ssa = true ∨ ∃ ssd, op = .clearStat true ssd := by
  cases op with
  | clearStat ssa ssd =>
      cases ssa with
      | true => exact Or.inr ⟨ssd, rfl⟩
      | false => exact Or.inl ((Bool.and_true _).trans hssa)
  | clock out => exact Or.inl ((congrArg SprotLink.ssa (lk.clock_link out)).trans hssa)
  | driveCs newCs =>
      left
      rw [apply]
      rcases lk.driveCs_cases newCs with ⟨-, hlk⟩ | ⟨-, -, hlk⟩ | ⟨-, -, hlk⟩
      · rw [hlk, hssa]
      · rw [hlk]
      · rw [hlk, hssa]
  | none => exact Or.inl hssa
  | readStat => exact Or.inl hssa
  | readFrame => exact Or.inl hssa
  | emptyFifo tx rx => exact Or.inl hssa
  | writeFrame frame => exact Or.inl hssa

/-- Only a write of one to SSD clears it. -/
theorem apply_ssd (hssd : lk.ssd = true) :
    (op.apply lk).ssd = true ∨ ∃ ssa, op = .clearStat ssa true := by
  cases op with
  | clearStat ssa ssd =>
      cases ssd with
      | true => exact Or.inr ⟨ssa, rfl⟩
      | false => exact Or.inl ((Bool.and_true _).trans hssd)
  | clock out => exact Or.inl ((congrArg SprotLink.ssd (lk.clock_link out)).trans hssd)
  | driveCs newCs =>
      left
      rw [apply]
      rcases lk.driveCs_cases newCs with ⟨-, hlk⟩ | ⟨-, -, hlk⟩ | ⟨-, -, hlk⟩
      · rw [hlk, hssd]
      · rw [hlk, hssd]
      · rw [hlk]
  | none => exact Or.inl hssd
  | readStat => exact Or.inl hssd
  | readFrame => exact Or.inl hssd
  | emptyFifo tx rx => exact Or.inl hssd
  | writeFrame frame => exact Or.inl hssd

/-- An edge of the chip select latches its flag. -/
theorem apply_edge (hedge : (op.apply lk).cs ≠ lk.cs) :
    (lk.cs = false ∧ (op.apply lk).ssa = true) ∨ (lk.cs = true ∧ (op.apply lk).ssd = true) := by
  cases op with
  | driveCs newCs =>
      rw [apply] at hedge ⊢
      rcases lk.driveCs_cases newCs with ⟨-, hlk⟩ | ⟨hcs, -, hlk⟩ | ⟨hcs, -, hlk⟩
      · exact absurd (congrArg SprotLink.cs hlk) hedge
      · exact Or.inl ⟨hcs, congrArg SprotLink.ssa hlk⟩
      · exact Or.inr ⟨hcs, congrArg SprotLink.ssd hlk⟩
  | clock out => exact absurd (congrArg SprotLink.cs (lk.clock_link out)) hedge
  | none => exact absurd rfl hedge
  | readStat => exact absurd rfl hedge
  | readFrame => exact absurd rfl hedge
  | clearStat ssa ssd => exact absurd rfl hedge
  | emptyFifo tx rx => exact absurd rfl hedge
  | writeFrame frame => exact absurd rfl hedge

end LinkOp

/-! ## The transfer that the wires are in -/

/-- The wires with the history of their last transfer. -/
structure Transfer where
  wires : Wires
  /-- A chip-select assert has opened a transfer. -/
  opened : Bool
  /-- The bytes clocked under that assert. -/
  clocked : List Byte
  /-- The FIFORD reads since that assert. -/
  reads : Nat
  /-- The RoT emptied its receive FIFO after the first of these bytes. -/
  emptied : Bool
  /-- The last FIFOSTAT read showed RXNOTEMPTY, with no FIFORD since. -/
  rxReady : Bool

namespace Transfer

variable (s : Transfer)

def note : LinkOp → Transfer
  | .clock out => if s.wires.link.cs then { s with clocked := s.clocked ++ [out] } else s
  | .driveCs newCs =>
      if !s.wires.link.cs && newCs then
        { s with opened := true, clocked := [], reads := 0, emptied := false }
      else s
  | .readStat => { s with rxReady := s.wires.link.rxNotEmpty }
  | .readFrame => { s with reads := s.reads + 1, rxReady := false }
  | .emptyFifo _ rx => { s with emptied := s.emptied || (rx && !s.clocked.isEmpty) }
  | .none => s
  | .clearStat _ _ => s
  | .writeFrame _ => s

def step (s : Transfer) (e : WireEvent) : Option Transfer :=
  some { s.note (s.wires.linkOp e) with wires := s.wires.access e }

/-- The idle wires with a live RoT. -/
def start : Transfer := ⟨Wires.new true, false, [], 0, false, false⟩

/-- A FIFORD at `off`. -/
def ReadsFrame (e : WireEvent) (off : Word) : Prop :=
  e = .flexRead off ∧ s.wires.linkOp e = .readFrame

/-- The RoT reads FIFORD only when its last FIFOSTAT read showed RXNOTEMPTY, and does not empty its
receive FIFO under an asserted chip select. -/
def Disciplined (e : WireEvent) : Prop :=
  (s.wires.linkOp e = .readFrame → s.rxReady = true) ∧
    ∀ tx, s.wires.linkOp e = .emptyFifo tx true → s.wires.link.cs = false

instance (e : WireEvent) : Decidable (s.Disciplined e) :=
  inferInstanceAs (Decidable (_ ∧ ∀ _ : Bool, _))

/-- The framing of transfers, at one access. -/
structure Framed (e : WireEvent) : Prop where
  edge_latches : (s.wires.access e).link.cs ≠ s.wires.link.cs →
    (s.wires.link.cs = false ∧ (s.wires.access e).link.ssa = true) ∨
      (s.wires.link.cs = true ∧ (s.wires.access e).link.ssd = true)
  ssa_kept : s.wires.link.ssa = true →
    (s.wires.access e).link.ssa = true ∨ ∃ ssd, s.wires.linkOp e = .clearStat true ssd
  ssd_kept : s.wires.link.ssd = true →
    (s.wires.access e).link.ssd = true ∨ ∃ ssa, s.wires.linkOp e = .clearStat ssa true
  first_frame : ∀ off, s.ReadsFrame e off → s.opened = true → s.reads = 0 →
    ∃ hi lo rest, s.clocked = hi :: lo :: rest ∧
      (RotSpiSlave.read s.wires.link off).1 = SprotLink.frame hi lo ||| SprotLink.sotBit
  later_frame : ∀ off, s.ReadsFrame e off → s.opened = true → s.reads ≠ 0 →
    (RotSpiSlave.read s.wires.link off).1 &&& SprotLink.sotBit = 0

/-- The first FIFORD after an assert. -/
def FirstRead (e : WireEvent) : Prop :=
  s.wires.linkOp e = .readFrame ∧ s.opened = true ∧ s.reads = 0

instance (e : WireEvent) : Decidable (s.FirstRead e) := inferInstanceAs (Decidable (_ ∧ _))

/-- The first FIFORD after an assert finds two bytes clocked under it, and not emptied. -/
def WholeFirstFrame (e : WireEvent) : Prop :=
  s.FirstRead e → 2 ≤ s.clocked.length ∧ s.emptied = false

instance (e : WireEvent) : Decidable (s.WholeFirstFrame e) :=
  inferInstanceAs (Decidable (_ → _ ∧ _))

/-- The mark waits for the first FIFORD of a transfer, and the receive FIFO begins with the bytes
of that transfer. -/
structure Whole : Prop where
  live : s.wires.link.rotLive = true
  marked : s.wires.link.sotPending = (s.opened && s.reads == 0)
  queue : s.opened = true → s.reads = 0 → s.emptied = false →
    ∃ rest, s.wires.link.mosi = s.clocked.take fifoBytes ++ rest ∧
      (s.wires.link.cs = true → rest = [])

variable {s}

/-- A byte goes behind the transfer's bytes, or is dropped where the FIFO is full. -/
theorem whole_clock (h : s.Whole) (out : Byte) {w : Wires}
    (hlink : w.link = (s.wires.link.clock out).2) :
    ({ s.note (.clock out) with wires := w } : Transfer).Whole := by
  rw [SprotLink.clock_link] at hlink
  have hmosi := congrArg SprotLink.mosi hlink
  have hcs' := congrArg SprotLink.cs hlink
  dsimp only at hmosi hcs'
  cases hcs : s.wires.link.cs with
  -- during a transfer nothing stands behind its bytes
  | true =>
      rw [note, if_pos hcs]
      refine ⟨?_, ?_, fun hopen hreads hempty => ?_⟩
      · exact (congrArg SprotLink.rotLive hlink).trans h.live
      · exact (congrArg SprotLink.sotPending hlink).trans h.marked
      obtain ⟨rest, hq, hrest⟩ := h.queue hopen hreads hempty
      obtain rfl := hrest hcs
      rw [List.append_nil] at hq
      refine ⟨[], ?_, fun _ => rfl⟩
      rw [hmosi, hq, List.append_nil, List.length_take]
      dsimp only
      split
      · next hroom =>
          have hlen : s.clocked.length < fifoBytes := by omega
          rw [List.take_of_length_le (Nat.le_of_lt hlen), List.take_of_length_le]
          rw [List.length_append]
          exact hlen
      · -- the FIFO holds the first bytes of the transfer already
        next hfull =>
          rw [List.take_append_of_le_length (by omega)]
  -- with the select released a byte goes into `rest`
  | false =>
      rw [note, if_neg (hcs ▸ nofun)]
      refine ⟨?_, ?_, fun hopen hreads hempty => ?_⟩
      · exact (congrArg SprotLink.rotLive hlink).trans h.live
      · exact (congrArg SprotLink.sotPending hlink).trans h.marked
      obtain ⟨rest, hq, -⟩ := h.queue hopen hreads hempty
      have hdead : ∀ {q : List Byte}, w.link.cs = true → q = [] :=
        fun hw => absurd (hcs.symm.trans (hcs'.symm.trans hw)) nofun
      dsimp only
      rw [hmosi]
      split
      · exact ⟨rest ++ [out], by rw [hq, List.append_assoc], hdead⟩
      · exact ⟨rest, hq, hdead⟩

/-- An assert opens an empty transfer. -/
theorem whole_driveCs (h : s.Whole) (newCs : Bool) {w : Wires}
    (hlink : w.link = s.wires.link.driveCs newCs) :
    ({ s.note (.driveCs newCs) with wires := w } : Transfer).Whole := by
  rcases s.wires.link.driveCs_cases newCs with ⟨hsame, hlk⟩ | ⟨hcs, hnew, hlk⟩ | ⟨hcs, hnew, hlk⟩
  · -- the level stays
    have hnote : s.note (.driveCs newCs) = s := by
      rw [note, hsame, if_neg]
      cases s.wires.link.cs <;> exact nofun
    rw [hnote]
    obtain ⟨hlive, hmark, hqueue⟩ := h
    rw [← hlk, ← hlink] at hlive hmark hqueue
    exact ⟨hlive, hmark, hqueue⟩
  · -- the assert edge clears the FIFO and sets the mark
    rw [hlk] at hlink
    rw [note, if_pos (by rw [hcs, hnew]; rfl)]
    refine ⟨?_, congrArg SprotLink.sotPending hlink, fun _ _ _ => ⟨[], ?_, fun _ => rfl⟩⟩
    · exact (congrArg SprotLink.rotLive hlink).trans h.live
    · exact (congrArg SprotLink.mosi hlink).trans (if_pos h.live)
  · -- the release edge
    rw [hlk] at hlink
    rw [note, if_neg (by rw [hcs]; nofun)]
    refine ⟨?_, ?_, fun hopen hreads hempty => ?_⟩
    · exact (congrArg SprotLink.rotLive hlink).trans h.live
    · exact (congrArg SprotLink.sotPending hlink).trans h.marked
    obtain ⟨rest, hq, -⟩ := h.queue hopen hreads hempty
    refine ⟨rest, (congrArg SprotLink.mosi hlink).trans hq, fun hw => ?_⟩
    exact absurd ((congrArg SprotLink.cs hlink).symm.trans hw) nofun

/-- A FIFORD takes the mark. -/
theorem whole_readFrame (h : s.Whole) {w : Wires} (hlink : w.link = s.wires.link.readFrame.2) :
    ({ s.note .readFrame with wires := w } : Transfer).Whole := by
  refine ⟨?_, ?_, fun _ hreads => absurd hreads (Nat.succ_ne_zero _)⟩
  · exact (congrArg SprotLink.rotLive hlink).trans h.live
  · exact (congrArg SprotLink.sotPending hlink).trans (Bool.and_false _).symm

/-- Emptying the receive FIFO before the first byte of a transfer takes nothing of it. -/
theorem whole_emptyFifo (h : s.Whole) (tx rx : Bool) {w : Wires}
    (hlink : w.link = (LinkOp.emptyFifo tx rx).apply s.wires.link) :
    ({ s.note (.emptyFifo tx rx) with wires := w } : Transfer).Whole := by
  refine ⟨?_, ?_, fun hopen hreads hempty => ?_⟩
  · exact (congrArg SprotLink.rotLive hlink).trans h.live
  · exact (congrArg SprotLink.sotPending hlink).trans h.marked
  have hkept := Bool.or_eq_false_iff.mp hempty
  have hmosi := congrArg SprotLink.mosi hlink
  have hcs : w.link.cs = s.wires.link.cs := (congrArg SprotLink.cs hlink).trans rfl
  cases rx with
  -- nothing was clocked yet, or `emptied` would be set
  | true =>
      have hnil : s.clocked = [] := by
        have hempt := hkept.2
        rw [Bool.true_and, Bool.not_eq_false', List.isEmpty_iff] at hempt
        exact hempt
      refine ⟨[], hmosi.trans ?_, fun _ => rfl⟩
      dsimp only [note]
      rw [hnil]
      rfl
  | false =>
      obtain ⟨rest, hq, hrest⟩ := h.queue hopen hreads hkept.1
      exact ⟨rest, hmosi.trans hq, fun hw => hrest (hcs.symm.trans hw)⟩

/-- The other operations leave the receive FIFO and the mark alone. -/
theorem whole_same (h : s.Whole) {t : Transfer}
    (hlive : t.wires.link.rotLive = s.wires.link.rotLive)
    (hmark : t.wires.link.sotPending = s.wires.link.sotPending)
    (hmosi : t.wires.link.mosi = s.wires.link.mosi) (hcs : t.wires.link.cs = s.wires.link.cs)
    (hopened : t.opened = s.opened) (hclocked : t.clocked = s.clocked) (hreads : t.reads = s.reads)
    (hemptied : t.emptied = s.emptied) : t.Whole := by
  constructor
  · rw [hlive, h.live]
  · rw [hmark, hopened, hreads, h.marked]
  · rw [hmosi, hcs, hopened, hclocked, hreads, hemptied]
    exact h.queue

theorem whole_step {e : WireEvent} {s' : Transfer} (h : s.Whole) (hstep : s.step e = some s') :
    s'.Whole := by
  obtain rfl := Option.some.inj hstep
  have hlink := s.wires.access_link e
  cases hop : s.wires.linkOp e with
  | clock out =>
      rw [hop] at hlink
      exact whole_clock h out hlink
  | driveCs newCs =>
      rw [hop] at hlink
      exact whole_driveCs h newCs hlink
  | readFrame =>
      rw [hop] at hlink
      exact whole_readFrame h hlink
  | emptyFifo tx rx =>
      rw [hop] at hlink
      exact whole_emptyFifo h tx rx hlink
  | none =>
      rw [hop] at hlink
      exact whole_same h (congrArg SprotLink.rotLive hlink) (congrArg SprotLink.sotPending hlink)
        (congrArg SprotLink.mosi hlink) (congrArg SprotLink.cs hlink) rfl rfl rfl rfl
  | readStat =>
      rw [hop] at hlink
      exact whole_same h (congrArg SprotLink.rotLive hlink) (congrArg SprotLink.sotPending hlink)
        (congrArg SprotLink.mosi hlink) (congrArg SprotLink.cs hlink) rfl rfl rfl rfl
  | clearStat ssa ssd =>
      rw [hop] at hlink
      refine whole_same h ?_ ?_ ?_ ?_ rfl rfl rfl rfl
      · exact (congrArg SprotLink.rotLive hlink).trans rfl
      · exact (congrArg SprotLink.sotPending hlink).trans rfl
      · exact (congrArg SprotLink.mosi hlink).trans rfl
      · exact (congrArg SprotLink.cs hlink).trans rfl
  | writeFrame frame =>
      rw [hop] at hlink
      refine whole_same h ?_ ?_ ?_ ?_ rfl rfl rfl rfl
      · exact (congrArg SprotLink.rotLive hlink).trans rfl
      · exact (congrArg SprotLink.sotPending hlink).trans rfl
      · exact (congrArg SprotLink.mosi hlink).trans rfl
      · exact (congrArg SprotLink.cs hlink).trans rfl

theorem whole_start : start.Whole := ⟨rfl, rfl, nofun⟩

/-- The first frame of a transfer. -/
theorem first_frame_of_whole {e : WireEvent} (h : s.Whole) (hfirst : s.WholeFirstFrame e)
    (off : Word)
    (hread : s.ReadsFrame e off) (hopen : s.opened = true) (hreads : s.reads = 0) :
    ∃ hi lo rest, s.clocked = hi :: lo :: rest ∧
      (RotSpiSlave.read s.wires.link off).1 = SprotLink.frame hi lo ||| SprotLink.sotBit := by
  obtain ⟨rfl, hop⟩ := hread
  obtain ⟨hlen, hempty⟩ := hfirst ⟨hop, hopen, hreads⟩
  obtain ⟨rest, hq, -⟩ := h.queue hopen hreads hempty
  have hmark : s.wires.link.sotPending = true := by rw [h.marked, hopen, hreads]; rfl
  -- two bytes make a frame
  match hclocked : s.clocked with
  | [] =>
      rw [hclocked] at hlen
      exact absurd hlen (Nat.not_succ_le_zero 1)
  | [b] =>
      rw [hclocked] at hlen
      exact absurd hlen (Nat.not_succ_le_self 1)
  | hi :: lo :: more =>
      rw [hclocked] at hq
      refine ⟨hi, lo, more, rfl, ?_⟩
      rw [Wires.read_readFrame _ hop]
      exact SprotLink.readFrame_marked _ hq hmark

theorem framed_of_whole {e : WireEvent} (h : s.Whole) (hfirst : s.WholeFirstFrame e) :
    s.Framed e where
  edge_latches hedge := by
    rw [s.wires.access_link e] at hedge ⊢
    exact LinkOp.apply_edge hedge
  ssa_kept hssa := by
    rw [s.wires.access_link e]
    exact LinkOp.apply_ssa hssa
  ssd_kept hssd := by
    rw [s.wires.access_link e]
    exact LinkOp.apply_ssd hssd
  first_frame := first_frame_of_whole h hfirst
  later_frame off hread hopen hreads := by
    obtain ⟨rfl, hop⟩ := hread
    have hmark : s.wires.link.sotPending = false := by
      rw [h.marked, hopen, Bool.true_and]
      exact beq_eq_false_iff_ne.mpr hreads
    rw [Wires.read_readFrame _ hop]
    exact SprotLink.readFrame_unmarked _ hmark

/-- In every interleaving of the SP and a live RoT where the first FIFORD after each assert finds
two bytes of its transfer, transfers are framed. -/
theorem framed_of_wholeFirstFrame (es : List WireEvent)
    (hfirst : Runs.Along step WholeFirstFrame es start) : Runs.Along step Framed es start :=
  hfirst.imp (fun _ _ _ h _ => whole_step h) (fun _ _ h => framed_of_whole h) whole_start

/-- The SP asserts the chip select, clocks two bytes out and de-asserts it, and the RoT reads the
frame. -/
def wholeTransfer : List WireEvent :=
  [.gpioWrite 0x1018 0x00100000, .spiWrite 0x20 0xB0, .spiWrite 0x20 0xB1, .gpioWrite 0x1018 0x10,
    .flexRead 0xE04, .flexRead 0xE30]

theorem framed_of_wholeFirstFrame_wholeTransfer : Runs.Along step Framed wholeTransfer start :=
  framed_of_wholeFirstFrame wholeTransfer (by decide +kernel)

/-- A framed first FIFORD has two bytes of its transfer to read. -/
theorem Framed.two_le_clocked {e : WireEvent} (h : s.Framed e) (hread : s.FirstRead e) :
    2 ≤ s.clocked.length := by
  obtain ⟨hop, hopen, hreads⟩ := hread
  obtain ⟨off, hoff⟩ := Wires.flexRead_of_readFrame _ hop
  obtain ⟨hi, lo, rest, hclocked, -⟩ := h.first_frame off ⟨hoff, hop⟩ hopen hreads
  rw [hclocked]
  exact Nat.le_add_left 2 rest.length

/-- The SP asserts the chip select between the RoT's look at FIFOSTAT and its FIFORD. -/
def overtakenRead : List WireEvent :=
  [.gpioWrite 0x1018 0x00100000, .spiWrite 0x20 0xA0, .spiWrite 0x20 0xA1, .gpioWrite 0x1018 0x10,
    .flexWrite 0x408 0x30, .flexRead 0xE04, .gpioWrite 0x1018 0x00100000, .flexRead 0xE30]

/-- The SP clocks one byte in a transfer and one after it. -/
def oneByteTransfer : List WireEvent :=
  [.gpioWrite 0x1018 0x00100000, .spiWrite 0x20 0xB0, .gpioWrite 0x1018 0x10, .spiWrite 0x20 0xB1,
    .flexRead 0xE04, .flexRead 0xE30]

/-- An overtaken FIFORD reads no byte of the transfer whose mark it takes. A FIFORD after a transfer
of one byte reads a byte from outside, with RXNOTEMPTY set at that moment. -/
theorem overtakenRead_not_framed :
    (Runs.Along step Disciplined overtakenRead start ∧
        ¬ Runs.Along step Framed overtakenRead start) ∧
      Runs.Along step (fun s e => s.Disciplined e ∧
          (s.wires.linkOp e = .readFrame → s.wires.link.rxNotEmpty = true)) oneByteTransfer start ∧
        ¬ Runs.Along step Framed oneByteTransfer start := by
  have htwo : ∀ (s : Transfer) (e : WireEvent), s.Framed e →
      (s.FirstRead e → 2 ≤ s.clocked.length) :=
    fun s e h => h.two_le_clocked
  refine ⟨⟨?_, fun h => absurd (h.mono htwo) ?_⟩, ?_, fun h => absurd (h.mono htwo) ?_⟩
  · decide +kernel
  · decide +kernel
  · decide +kernel
  · decide +kernel

end Transfer

end SpEmu
