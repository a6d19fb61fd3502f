import SpEmu.Lib.RegisterCommands
import SpEmu.Soc.Vsc7448

/-!
# The FPGAs behind SPI2 and SPI5

The sequencer of a gimlet and the mainboard FPGA of a sidecar take the same commands: an operation,
an address of two bytes and then data, one byte for each address. SPI2 ends a command when SPE
rises again, SPI5 when the chip select falls again: a command there may go over several SPE cycles,
and its data may be received without a byte being sent.

`fpga_agree` compares both with a register file that executes whole commands.
-/

set_option autoImplicit false

namespace SpEmu

open ByteMem Mem Transducer RegisterCommands

/-! ## The commands on a plain register file -/

namespace Fpga

/-- The registers, byte by byte. -/
abbrev File := Half → Byte

def write : Command Half Byte := ⟨fun a => a + 1, fun _ => 0, fun _ d => d⟩
def read : Command Half Byte := ⟨fun a => a + 1, fun cur => cur, fun cur _ => cur⟩
def bitSet : Command Half Byte := ⟨fun a => a + 1, fun _ => 0, fun cur d => cur ||| d⟩
def bitClear : Command Half Byte := ⟨fun a => a + 1, fun _ => 0, fun cur d => cur &&& ~~~d⟩

/-- The operations that stay at their address. -/
def writeNoAddrIncr : Command Half Byte := ⟨fun a => a, fun _ => 0, fun _ d => d⟩
def readNoAddrIncr : Command Half Byte := ⟨fun a => a, fun cur => cur, fun cur _ => cur⟩

/-- The operations of the sequencer, and those of the mainboard FPGA. -/
def sequencerOp (op : Byte) : Option (Command Half Byte) :=
  if op = 0 then some write
  else if op = 1 then some read
  else if op = 2 then some bitSet
  else if op = 3 then some bitClear
  else none

def mainboardOp (op : Byte) : Option (Command Half Byte) :=
  if op = 5 then some writeNoAddrIncr
  else if op = 6 then some readNoAddrIncr
  else sequencerOp op

/-- The bytes of one transaction. Nothing happens before the first byte of data. -/
def execute (decode : Byte → Option (Command Half Byte)) (file : File) :
    List Byte → List Byte × File
  | op :: hi :: lo :: data =>
      match decode op with
      | some c =>
          let r := access c data (hi ++ lo) file
          (0 :: 0 :: 0 :: r.1, r.2)
      | none => (List.replicate (data.length + 3) 0, file)
  | t => (List.replicate t.length 0, file)

/-- The register file takes one transaction after another. -/
def plain (decode : Byte → Option (Command Half Byte)) (file : File) (t : List Byte) :
    Option (List Byte × File) := some (execute decode file t)

/-- A transaction of the protocol: not too long, with a known operation, and with data for
addresses that have no special behaviour. -/
def Plain (decode : Byte → Option (Command Half Byte)) (special : Half → Bool) (t : List Byte) :
    Prop :=
  t.length ≤ 65535 ∧ ∀ op hi lo data, t = op :: hi :: lo :: data → ∃ c, decode op = some c ∧
    ∀ a, Covers c data.length (hi ++ lo) a → special a = false

/-- The address, the high byte first. -/
theorem addr_eq (hi lo : Byte) :
    (hi.setWidth 16 : Half) <<< 8 ||| lo.setWidth 16 = (hi ++ lo : Half) := by
  apply BitVec.eq_of_getLsbD_eq
  intro j hj
  rw [BitVec.getLsbD_or, BitVec.getLsbD_shiftLeft, BitVec.getLsbD_setWidth,
    BitVec.getLsbD_setWidth, BitVec.getLsbD_append]
  by_cases hlow : j < 8
  · simp [hlow, hj]
  · simp [hlow, hj, show j - 8 < 16 by omega, BitVec.getLsbD_of_ge lo j (by omega)]

theorem execute_data {decode : Byte → Option (Command Half Byte)} {c : Command Half Byte}
    {op hi lo : Byte} (h : decode op = some c) (data : List Byte) (file : File) :
    execute decode file (op :: hi :: lo :: data) =
      (0 :: 0 :: 0 :: (access c data (hi ++ lo) file).1, (access c data (hi ++ lo) file).2) := by
  simp only [execute, h]

/-- What an operation does, by its code. -/
theorem sequencerOp_eq {op : Byte} {c : Command Half Byte} (h : sequencerOp op = some c) :
    op ≠ 5 ∧ op ≠ 6 ∧ (∀ a, c.next a = a + 1) ∧ (∀ cur, c.out cur = if op = 1 then cur else 0) ∧
    ∀ cur d, c.store cur d = if op = 1 then cur else if op = 2 then cur ||| d
      else if op = 3 then cur &&& ~~~d else d := by
  unfold sequencerOp at h
  split at h
  · rename_i hop
    subst hop
    cases h
    exact ⟨by decide, by decide, fun _ => rfl, fun _ => rfl, fun _ _ => rfl⟩
  · split at h
    · rename_i hop
      subst hop
      cases h
      exact ⟨by decide, by decide, fun _ => rfl, fun _ => rfl, fun _ _ => rfl⟩
    · split at h
      · rename_i hop
        subst hop
        cases h
        exact ⟨by decide, by decide, fun _ => rfl, fun _ => rfl, fun _ _ => rfl⟩
      · split at h
        · rename_i hop
          subst hop
          cases h
          exact ⟨by decide, by decide, fun _ => rfl, fun _ => rfl, fun _ _ => rfl⟩
        · cases h

theorem mainboardOp_eq {op : Byte} {c : Command Half Byte} (h : mainboardOp op = some c) :
    (∀ a, c.next a = if op = 5 ∨ op = 6 then a else a + 1) ∧
    (∀ cur, c.out cur = if op = 1 ∨ op = 6 then cur else 0) ∧
    ∀ cur d, c.store cur d = if op = 1 ∨ op = 6 then cur else if op = 2 then cur ||| d
      else if op = 3 then cur &&& ~~~d else d := by
  unfold mainboardOp at h
  split at h
  · rename_i hop
    subst hop
    cases h
    exact ⟨fun _ => rfl, fun _ => rfl, fun _ _ => rfl⟩
  · split at h
    · rename_i hop
      subst hop
      cases h
      exact ⟨fun _ => rfl, fun _ => rfl, fun _ _ => rfl⟩
    · obtain ⟨h5, h6, hnext, hout, hstore⟩ := sequencerOp_eq h
      refine ⟨fun a => ?_, fun cur => ?_, fun cur d => ?_⟩
      · rw [hnext, if_neg (by tauto)]
      · simp only [hout, or_iff_left h6]
      · simp only [hstore, or_iff_left h6]

end Fpga

/-! ## SPI5: the mainboard FPGA -/

structure Spi5 where
  regs : RegFile
  rx : List Byte
  /-- The bytes of the header so far. -/
  idx : Nat
  op : Byte
  addr : Half
  /-- The bytes of data so far. -/
  dpos : Nat
  xferCnt : Nat
  /-- How often the chip select has fallen, and how often when the port was last written. -/
  cs : Word
  lastGen : Word
  fpga : Half → Byte
  dbgReq : List Byte
  dbgResp : List Byte
  tofinoRegs : Word → Word

namespace Spi5

def new (fpga : Half → Byte) : Spi5 where
  regs := fun _ => 0
  rx := []
  idx := 0
  op := 0
  addr := 0
  dpos := 0
  xferCnt := 0
  cs := 0
  lastGen := 0
  fpga := fpga
  dbgReq := []
  dbgResp := []
  tofinoRegs := fun _ => 0

variable (s : Spi5)

/-- The queued request of the Tofino debug port. -/
def tofinoDebugRequest : Spi5 :=
  let req := s.dbgReq
  let s := { s with dbgReq := [] }
  let s := match req with
    | opcode :: a₀ :: a₁ :: a₂ :: a₃ :: value =>
        let addr := fromLeBytes a₀ a₁ a₂ a₃
        if opcode = 0xA0 then { s with dbgResp := s.dbgResp ++ toLeBytes 4 (s.tofinoRegs addr) }
        else if opcode = 0x80 then
          match value with
          | v₀ :: v₁ :: v₂ :: v₃ :: _ =>
              { s with tofinoRegs := Function.update s.tofinoRegs addr (fromLeBytes v₀ v₁ v₂ v₃) }
          | _ => s
        else s
    | _ => s
  { s with fpga := Function.update s.fpga 0x201 0x05 }

/-- The chip select has fallen since the last write: a new command. -/
def checkCs : Spi5 :=
  if s.cs = s.lastGen then s
  else { s with
    idx := 0, dpos := 0, rx := [], op := 0, addr := 0, xferCnt := 0, lastGen := s.cs }

/-- TOFINO_SEQ_CTRL was written: the power state follows EN, and the command bits clear. -/
def tofinoSeqCtrlWritten : Spi5 :=
  let ctrl := s.fpga 0x100
  let en := ctrl &&& 0x02 ≠ 0
  let fpga := Function.update s.fpga 0x100 (ctrl &&& 0x02)
  let fpga := Function.update fpga 0x101 (if en then 2 else 1)
  let fpga := Function.update fpga 0x10c (if en then 0x88 else 0)
  let rail : Byte := if en then 0x03 else 0
  { s with fpga := fun a => if 0x106 ≤ a ∧ a ≤ 0x10b then rail else fpga a }

/-- The address of the next byte of data. -/
def dataAddr (incr : Bool) : Half := s.addr + if incr then BitVec.ofNat 16 s.dpos else 0

def nextData : Byte × Spi5 :=
  let a := s.dataAddr (s.op != 5 && s.op != 6)
  let s := { s with dpos := s.dpos + 1 }
  if a = 0x200 then
    match s.dbgResp with
    | [] => (0, s)
    | b :: dbgResp => (b, { s with dbgResp := dbgResp })
  else (s.fpga a, s)

/-- A byte of data of an operation that is not a read. -/
def storeData (b : Byte) : Spi5 :=
  let a := s.dataAddr (s.op != 5)
  let s := { s with dpos := s.dpos + 1 }
  if a = 0x200 then { s with dbgReq := s.dbgReq ++ [b] }
  else
    let cur := s.fpga a
    let nv := if s.op = 2 then cur ||| b else if s.op = 3 then cur &&& ~~~b else b
    let s := { s with fpga := Function.update s.fpga a nv }
    let s := if a = 0x100 then s.tofinoSeqCtrlWritten else s
    if a = 0x201 ∧ nv &&& 0x10 ≠ 0 then s.tofinoDebugRequest else s

/-- One byte through TXDR. -/
def xfer (b : Byte) : Byte × Spi5 :=
  let s := { s with xferCnt := s.xferCnt + 1 }
  match s.idx with
  | 0 => (0, { s with op := b, idx := s.idx + 1 })
  | 1 => (0, { s with addr := (b.setWidth 16 : Half) <<< 8, idx := s.idx + 1 })
  | 2 => (0, { s with addr := s.addr ||| b.setWidth 16, idx := s.idx + 1 })
  | _ => if s.op = 1 ∨ s.op = 6 then s.nextData else (0, s.storeData b)

/-- RXDR gives the byte that a write of TXDR left; behind the header of a read it receives. -/
def read (off : Word) : Word × Spi5 :=
  if alignWord off = Spi.sr then
    (Spi.spiSr (BitVec.ofNat 32 s.xferCnt) (s.regs Spi.cr2 &&& 0xFFFF) (!s.rx.isEmpty), s)
  else if alignWord off = Spi.rxdr then
    match s.rx with
    | b :: rx => (b.setWidth 32, { s with rx := rx })
    | [] =>
        if 3 ≤ s.idx ∧ (s.op = 1 ∨ s.op = 6) then
          let r := { s with xferCnt := s.xferCnt + 1 }.nextData
          (r.1.setWidth 32, r.2)
        else (0, s)
  else (s.regs (alignWord off), s)

def write (off val : Word) : Spi5 :=
  let s := s.checkCs
  if alignWord off = Spi.txdr then
    let r := s.xfer (val.setWidth 8)
    { r.2 with rx := r.2.rx ++ [r.1] }
  else if alignWord off = Spi.cr2 then
    { s with xferCnt := 0, regs := s.regs.set Spi.cr2 val }
  else { s with regs := s.regs.set (alignWord off) val }

/-- One byte on the bus: registers of the port may be written before, and it is sent, or received
only. -/
structure Clock where
  setup : List (Word × Word)
  sent : Option Byte

/-- What the FPGA sees. -/
def Clock.byte (c : Clock) : Byte := c.sent.getD 0

def clock (s : Spi5) (c : Clock) : Option (Byte × Spi5) :=
  let s := c.setup.foldl (fun s w => s.write w.1 w.2) s
  let s := match c.sent with
    | some b => s.write Spi.txdr (b.setWidth 32)
    | none => s
  let r := s.read Spi.rxdr
  some (r.1.setWidth 8, r.2)

/-- The chip select falls, the port is enabled, and any number of bytes is clocked. -/
def transact (s : Spi5) (t : List Clock) : Option (List Byte × Spi5) :=
  let s := { s with cs := s.cs + 1 }
  run clock t (s.write Spi.cr1 Spi.spe)

/-! ## The mainboard FPGA executes the commands -/

/-- The sequencing control and the debug port of the Tofino. -/
def special (a : Half) : Bool := decide (a = 0x100) || decide (a = 0x200) || decide (a = 0x201)

theorem ne_of_plain {a : Half} (h : special a = false) : a ≠ 0x100 ∧ a ≠ 0x200 ∧ a ≠ 0x201 := by
  simpa [special, and_assoc] using h

variable {s}

theorem checkCs_of_eq (h : s.lastGen = s.cs) : s.checkCs = s := by
  unfold checkCs
  rw [if_pos h.symm]

theorem write_of_ne (hgen : s.lastGen = s.cs) {off : Word} (val : Word)
    (hoff : alignWord off ≠ Spi.txdr) :
    ∃ regs n, s.write off val = { s with regs := regs, xferCnt := n } := by
  unfold write
  rw [checkCs_of_eq hgen]
  dsimp only
  rw [if_neg hoff]
  split
  · exact ⟨_, _, rfl⟩
  · exact ⟨_, s.xferCnt, rfl⟩

/-- Setting the port up in a command leaves the command alone. -/
theorem setup_eq (hgen : s.lastGen = s.cs) {ws : List (Word × Word)}
    (hws : ∀ w ∈ ws, alignWord w.1 ≠ Spi.txdr) :
    ∃ regs n, ws.foldl (fun s w => s.write w.1 w.2) s = { s with regs := regs, xferCnt := n } := by
  induction ws generalizing s with
  | nil => exact ⟨s.regs, s.xferCnt, rfl⟩
  | cons w ws ih =>
      obtain ⟨hw, hws⟩ := List.forall_mem_cons.mp hws
      obtain ⟨regs, n, hwrite⟩ := write_of_ne hgen w.2 hw
      obtain ⟨regs', n', hrest⟩ := ih (s := { s with regs := regs, xferCnt := n }) hgen hws
      exact ⟨regs', n', by rw [List.foldl_cons, hwrite, hrest]⟩

/-- A byte that is sent gives its byte at once. -/
theorem clock_sent (hgen : s.lastGen = s.cs) {k : Clock}
    (hk : ∀ w ∈ k.setup, alignWord w.1 ≠ Spi.txdr) {b : Byte} (hb : k.sent = some b) :
    ∃ regs n, ∀ o s', { s with regs := regs, xferCnt := n }.xfer b = (o, s') → s'.rx = [] →
      s.clock k = some (o, s') := by
  obtain ⟨regs, n, hsetup⟩ := setup_eq hgen hk
  refine ⟨regs, n, fun o s' hxfer hrx => ?_⟩
  have hwrite : ({ s with regs := regs, xferCnt := n } : Spi5).write Spi.txdr (b.setWidth 32) =
      { s' with rx := [o] } := by
    unfold write
    rw [checkCs_of_eq (s := { s with regs := regs, xferCnt := n }) hgen,
      BitVec.setWidth_setWidth_of_le b (by decide), BitVec.setWidth_eq]
    dsimp only
    rw [if_pos (by decide), hxfer, hrx, List.nil_append]
  have hread : ({ s' with rx := [o] } : Spi5).read Spi.rxdr = (o.setWidth 32, s') := by
    unfold read
    rw [if_neg (by decide), if_pos (by decide)]
    dsimp only
    rw [← hrx]
  unfold clock
  rw [hsetup, hb]
  dsimp only
  rw [hwrite, hread, BitVec.setWidth_setWidth_of_le o (by decide), BitVec.setWidth_eq]

/-- Behind the header of a read a byte is received as it is sent. -/
theorem clock_received (hgen : s.lastGen = s.cs) {k : Clock}
    (hk : ∀ w ∈ k.setup, alignWord w.1 ≠ Spi.txdr) (hb : k.sent = none) (hrx : s.rx = [])
    (hidx : s.idx = 3) (hop : s.op = 1 ∨ s.op = 6) :
    ∃ regs n, s.clock k = some ({ s with regs := regs, xferCnt := n }.nextData) := by
  obtain ⟨regs, n, hsetup⟩ := setup_eq hgen hk
  refine ⟨regs, n + 1, ?_⟩
  have hread : ({ s with regs := regs, xferCnt := n } : Spi5).read Spi.rxdr =
      (({ s with regs := regs, xferCnt := n + 1 } : Spi5).nextData.1.setWidth 32,
        ({ s with regs := regs, xferCnt := n + 1 } : Spi5).nextData.2) := by
    unfold read
    rw [if_neg (by decide), if_pos (by decide), hrx]
    dsimp only
    rw [if_pos ⟨Nat.le_of_eq hidx.symm, hop⟩]
  unfold clock
  rw [hsetup, hb]
  dsimp only
  rw [hread, BitVec.setWidth_setWidth_of_le _ (by decide), BitVec.setWidth_eq]

theorem nextData_of_plain {a : Half} (ha : s.dataAddr (s.op != 5 && s.op != 6) = a)
    (hplain : special a = false) :
    s.nextData = (s.fpga a, { s with dpos := s.dpos + 1 }) := by
  unfold nextData
  rw [ha]
  dsimp only
  rw [if_neg (ne_of_plain hplain).2.1]

theorem storeData_of_plain {a : Half} {b : Byte} (ha : s.dataAddr (s.op != 5) = a)
    (hplain : special a = false) : s.storeData b = { s with
      dpos := s.dpos + 1
      fpga := Function.update s.fpga a (if s.op = 2 then s.fpga a ||| b
        else if s.op = 3 then s.fpga a &&& ~~~b else b) } := by
  obtain ⟨hctrl, hbuffer, hstate⟩ := ne_of_plain hplain
  unfold storeData
  rw [ha]
  dsimp only
  rw [if_neg hbuffer, if_neg fun h => hstate h.1, if_neg hctrl]

/-! ### One transaction -/

/-- In the data of a command, at an address. -/
structure At (c : Command Half Byte) (a : Half) (data : List Clock) (s : Spi5) : Prop where
  idx : s.idx = 3
  rx : s.rx = []
  gen : s.lastGen = s.cs
  op : Fpga.mainboardOp s.op = some c
  addr : a = s.addr + if s.op = 5 ∨ s.op = 6 then 0 else BitVec.ofNat 16 s.dpos
  setup : ∀ k ∈ data, ∀ w ∈ k.setup, alignWord w.1 ≠ Spi.txdr
  sent : ∀ k ∈ data, k.sent = none → s.op = 1 ∨ s.op = 6
  plain : ∀ b, Covers c data.length a b → special b = false

theorem At.next {c : Command Half Byte} {a : Half} {k : Clock} {data : List Clock}
    (h : At c a (k :: data) s) {r : Spi5} (hidx : r.idx = s.idx) (hrx : r.rx = s.rx)
    (hgen : r.lastGen = s.lastGen) (hcs : r.cs = s.cs) (hop : r.op = s.op)
    (haddr : r.addr = s.addr) (hdpos : r.dpos = s.dpos + 1) : At c (c.next a) data r where
  idx := hidx.trans h.idx
  rx := hrx.trans h.rx
  gen := hgen.trans (h.gen.trans hcs.symm)
  op := hop ▸ h.op
  addr := by
    rw [(Fpga.mainboardOp_eq h.op).1, hop, haddr, hdpos, h.addr]
    by_cases hhold : s.op = 5 ∨ s.op = 6
    · simp only [if_pos hhold]
    · simp only [if_neg hhold]
      rw [BitVec.add_assoc, BitVec.ofNat_add]
      rfl
  setup := fun k' hk' => h.setup k' (List.mem_cons_of_mem k hk')
  sent := fun k' hk' hnone => hop ▸ h.sent k' (List.mem_cons_of_mem k hk') hnone
  plain := fun b hb => h.plain b (covers_succ hb)

/-- The address is the one that the port computes. -/
theorem At.dataAddr {c : Command Half Byte} {a : Half} {data : List Clock} (h : At c a data s)
    {incr : Bool} (hincr : incr = false ↔ s.op = 5 ∨ s.op = 6) : s.dataAddr incr = a := by
  rw [h.addr, Spi5.dataAddr]
  cases incr with
  | true => rw [if_pos rfl, if_neg fun hop => Bool.false_ne_true (hincr.mpr hop).symm]
  | false => rw [if_neg Bool.false_ne_true, if_pos (hincr.mp rfl)]

theorem xfer_data {b : Byte} (hidx : s.idx = 3) : s.xfer b =
    if s.op = 1 ∨ s.op = 6 then { s with xferCnt := s.xferCnt + 1 }.nextData
    else (0, { s with xferCnt := s.xferCnt + 1 }.storeData b) := by
  simp only [xfer, hidx]

/-- A read gives the byte at the address, whether one is sent for it or not. -/
theorem At.clock_read {c : Command Half Byte} {a : Half} {k : Clock} {data : List Clock}
    (h : At c a (k :: data) s) (hop : s.op = 1 ∨ s.op = 6) : ∃ regs n, s.clock k =
      some (s.fpga a, { s with regs := regs, xferCnt := n, dpos := s.dpos + 1 }) := by
  have hsetup := h.setup k List.mem_cons_self
  have hdata (regs : RegFile) (n : Nat) :
      ({ s with regs := regs, xferCnt := n } : Spi5).nextData =
        (s.fpga a, { s with regs := regs, xferCnt := n, dpos := s.dpos + 1 }) := by
    refine nextData_of_plain (h.dataAddr (s := s) ?_) (h.plain a (covers_self c data.length a))
    rw [Bool.and_eq_false_iff, bne_eq_false_iff_eq, bne_eq_false_iff_eq]
  cases hb : k.sent with
  | none =>
      obtain ⟨regs, n, hk⟩ := clock_received h.gen hsetup hb h.rx h.idx hop
      exact ⟨regs, n, hk.trans (congrArg some (hdata regs n))⟩
  | some b =>
      obtain ⟨regs, n, hk⟩ := clock_sent h.gen hsetup hb
      refine ⟨regs, n + 1, hk _ _ ?_ h.rx⟩
      rw [xfer_data (s := { s with regs := regs, xferCnt := n }) h.idx]
      exact (if_pos hop).trans (hdata regs (n + 1))

/-- Any other operation stores the byte that is sent. -/
theorem At.clock_store {c : Command Half Byte} {a : Half} {k : Clock} {data : List Clock}
    (h : At c a (k :: data) s) (hop : ¬ (s.op = 1 ∨ s.op = 6)) : ∃ regs n, s.clock k =
      some (0, { s with
        regs := regs
        xferCnt := n
        dpos := s.dpos + 1
        fpga := Function.update s.fpga a (if s.op = 2 then s.fpga a ||| k.byte
          else if s.op = 3 then s.fpga a &&& ~~~k.byte else k.byte) }) := by
  obtain ⟨b, hb⟩ : ∃ b, k.sent = some b :=
    Option.ne_none_iff_exists'.mp fun hnone => hop (h.sent k List.mem_cons_self hnone)
  have hbyte : k.byte = b := by
    rw [Clock.byte, hb]
    rfl
  rw [hbyte]
  obtain ⟨regs, n, hk⟩ := clock_sent h.gen (h.setup k List.mem_cons_self) hb
  have haddr : s.dataAddr (s.op != 5) = a := h.dataAddr (by
    rw [bne_eq_false_iff_eq, or_iff_left fun h6 => hop (.inr h6)])
  have hdata := storeData_of_plain (s := { s with regs := regs, xferCnt := n + 1 }) (b := b)
    haddr (h.plain a (covers_self c data.length a))
  refine ⟨regs, n + 1, hk 0 _ ?_ h.rx⟩
  rw [xfer_data (s := { s with regs := regs, xferCnt := n }) h.idx]
  exact (if_neg hop).trans (congrArg (Prod.mk 0) hdata)

theorem At.clock {c : Command Half Byte} {a : Half} {k : Clock} {data : List Clock}
    (h : At c a (k :: data) s) : ∃ s', s.clock k = some (c.out (s.fpga a), s') ∧
      At c (c.next a) data s' ∧
      s'.fpga = Function.update s.fpga a (c.store (s.fpga a) k.byte) := by
  obtain ⟨-, hout, hstore⟩ := Fpga.mainboardOp_eq h.op
  by_cases hop : s.op = 1 ∨ s.op = 6
  · obtain ⟨regs, n, hk⟩ := h.clock_read hop
    refine ⟨_, ?_, h.next (r := { s with regs := regs, xferCnt := n, dpos := s.dpos + 1 })
      rfl rfl rfl rfl rfl rfl rfl, ?_⟩
    · rw [hk, hout, if_pos hop]
    · rw [hstore, if_pos hop, Function.update_eq_self]
  · obtain ⟨regs, n, hk⟩ := h.clock_store hop
    refine ⟨_, ?_, h.next (r := { s with
      regs := regs
      xferCnt := n
      dpos := s.dpos + 1
      fpga := Function.update s.fpga a (if s.op = 2 then s.fpga a ||| k.byte
        else if s.op = 3 then s.fpga a &&& ~~~k.byte else k.byte) })
      rfl rfl rfl rfl rfl rfl rfl, ?_⟩
    · rw [hk, hout, if_neg hop]
    · rw [hstore, if_neg hop]

/-- A transaction of the protocol: bytes are received only in the data of a read. -/
def Clean (t : List Clock) : Prop :=
  Fpga.Plain Fpga.mainboardOp special (t.map Clock.byte) ∧
    (∀ k ∈ t, ∀ w ∈ k.setup, alignWord w.1 ≠ Spi.txdr) ∧
    (∀ k ∈ t.take 3, k.sent ≠ none) ∧
    ∀ k ∈ t, k.sent = none → ∃ op, (t.map Clock.byte).head? = some op ∧ (op = 1 ∨ op = 6)

theorem sent_of_ne {k : Clock} (h : k.sent ≠ none) : k.sent = some k.byte := by
  obtain ⟨b, hb⟩ := Option.ne_none_iff_exists'.mp h
  rw [Clock.byte, hb]
  rfl

/-- The bytes of the header are kept. -/
theorem clock_op (hidx : s.idx = 0) (hrx : s.rx = []) (hgen : s.lastGen = s.cs) {k : Clock}
    (hk : ∀ w ∈ k.setup, alignWord w.1 ≠ Spi.txdr) (hsent : k.sent ≠ none) :
    ∃ regs n, s.clock k =
      some (0, { s with regs := regs, xferCnt := n, op := k.byte, idx := 1 }) := by
  obtain ⟨regs, n, hclock⟩ := clock_sent hgen hk (sent_of_ne hsent)
  refine ⟨regs, n + 1, hclock _ _ ?_ hrx⟩
  simp only [xfer, hidx]

theorem clock_high (hidx : s.idx = 1) (hrx : s.rx = []) (hgen : s.lastGen = s.cs) {k : Clock}
    (hk : ∀ w ∈ k.setup, alignWord w.1 ≠ Spi.txdr) (hsent : k.sent ≠ none) :
    ∃ regs n, s.clock k = some (0, { s with
      regs := regs, xferCnt := n, addr := (k.byte.setWidth 16 : Half) <<< 8, idx := 2 }) := by
  obtain ⟨regs, n, hclock⟩ := clock_sent hgen hk (sent_of_ne hsent)
  refine ⟨regs, n + 1, hclock _ _ ?_ hrx⟩
  simp only [xfer, hidx]

theorem clock_low (hidx : s.idx = 2) (hrx : s.rx = []) (hgen : s.lastGen = s.cs) {k : Clock}
    (hk : ∀ w ∈ k.setup, alignWord w.1 ≠ Spi.txdr) (hsent : k.sent ≠ none) :
    ∃ regs n, s.clock k = some (0, { s with
      regs := regs, xferCnt := n, addr := s.addr ||| k.byte.setWidth 16, idx := 3 }) := by
  obtain ⟨regs, n, hclock⟩ := clock_sent hgen hk (sent_of_ne hsent)
  refine ⟨regs, n + 1, hclock _ _ ?_ hrx⟩
  simp only [xfer, hidx]

/-- The chip select has not fallen since the port was last written. -/
def Settled (s : Spi5) : Prop := s.lastGen = s.cs

/-- The port when the chip select has fallen and SPE is set. -/
def selected (s : Spi5) : Spi5 := { s with
  regs := s.regs.set Spi.cr1 Spi.spe, rx := [], idx := 0, op := 0, addr := 0, dpos := 0
  xferCnt := 0, cs := s.cs + 1, lastGen := s.cs + 1 }

theorem write_spe (hs : s.Settled) :
    ({ s with cs := s.cs + 1 } : Spi5).write Spi.cr1 Spi.spe = s.selected := by
  have hne : s.cs + 1 ≠ s.lastGen := by
    rw [hs]
    intro h
    simp at h
  unfold write checkCs
  dsimp only
  rw [if_neg hne, if_neg (by decide), if_neg (by decide)]
  rfl

theorem transact_agrees (hs : s.Settled) {t : List Clock} (ht : Clean t) :
    ∃ o s', s.transact t = some (o, s') ∧ s'.Settled ∧
      Fpga.execute Fpga.mainboardOp s.fpga (t.map Clock.byte) = (o, s'.fpga) := by
  obtain ⟨hplain, hsetup, hhead, hreceived⟩ := ht
  unfold transact
  dsimp only
  rw [write_spe hs]
  -- cut short in its header, a command gives zeros and touches nothing
  rcases t with _ | ⟨k₀, t⟩
  · exact ⟨[], s.selected, rfl, rfl, rfl⟩
  obtain ⟨regs₀, n₀, h₀⟩ := clock_op (s := s.selected) rfl rfl rfl
    (hsetup k₀ (by simp)) (hhead k₀ (by simp))
  rcases t with _ | ⟨k₁, t⟩
  · exact ⟨_, _, run_cons_eq_some.mpr ⟨_, _, _, h₀, rfl, rfl⟩, rfl, rfl⟩
  obtain ⟨regs₁, n₁, h₁⟩ := clock_high
    (s := { s.selected with regs := regs₀, xferCnt := n₀, op := k₀.byte, idx := 1 }) rfl rfl rfl
    (hsetup k₁ (by simp)) (hhead k₁ (by simp))
  rcases t with _ | ⟨k₂, data⟩
  · exact ⟨_, _, run_cons_eq_some.mpr ⟨_, _, _, h₀,
      run_cons_eq_some.mpr ⟨_, _, _, h₁, rfl, rfl⟩, rfl⟩, rfl, rfl⟩
  obtain ⟨regs₂, n₂, h₂⟩ := clock_low
    (s := { s.selected with
      regs := regs₁, xferCnt := n₁, op := k₀.byte, idx := 2
      addr := (k₁.byte.setWidth 16 : Half) <<< 8 }) rfl rfl rfl
    (hsetup k₂ (by simp)) (hhead k₂ (by simp))
  obtain ⟨c, hc, hcovers⟩ := hplain.2 k₀.byte k₁.byte k₂.byte (data.map Clock.byte) rfl
  have hat : At c (k₁.byte ++ k₂.byte) data { s.selected with
      regs := regs₂, xferCnt := n₂, op := k₀.byte, idx := 3
      addr := (k₁.byte.setWidth 16 : Half) <<< 8 ||| k₂.byte.setWidth 16 } :=
    { idx := rfl
      rx := rfl
      gen := rfl
      op := hc
      addr := by
        rw [Fpga.addr_eq]
        split <;> exact (BitVec.add_zero _).symm
      setup := fun k hk => hsetup k (by simp [hk])
      sent := fun k hk hnone => by
        obtain ⟨op, hop, hread⟩ := hreceived k (by simp [hk]) hnone
        cases hop
        exact hread
      plain := fun b hb => hcovers b (by rwa [List.length_map]) }
  obtain ⟨s', a', hrun, hend, hfile⟩ := run_access clock Clock.byte Spi5.fpga c
    (fun a k data s h => h.clock) hat
  refine ⟨_, s', run_cons_eq_some.mpr ⟨_, _, _, h₀, run_cons_eq_some.mpr ⟨_, _, _, h₁,
    run_cons_eq_some.mpr ⟨_, _, _, h₂, hrun, rfl⟩, rfl⟩, rfl⟩, hend.gen, ?_⟩
  rw [List.map_cons, List.map_cons, List.map_cons, Fpga.execute_data hc, hfile]
  rfl

/-! ### Sequences of transactions -/

theorem settled_tofinoDebugRequest (h : s.Settled) : s.tofinoDebugRequest.Settled := by
  unfold Settled tofinoDebugRequest
  dsimp only
  split
  · split
    · exact h
    · split
      · split <;> exact h
      · exact h
  · exact h

theorem settled_ite {p : Prop} [Decidable p] {r r' : Spi5} (h : r.Settled) (h' : r'.Settled) :
    (if p then r else r').Settled := by
  split
  · exact h
  · exact h'

theorem settled_nextData (h : s.Settled) : s.nextData.2.Settled := by
  unfold nextData
  dsimp only
  split
  · split <;> exact h
  · exact h

theorem settled_storeData (h : s.Settled) (b : Byte) : (s.storeData b).Settled :=
  settled_ite h (settled_ite (settled_tofinoDebugRequest (settled_ite h h)) (settled_ite h h))

theorem settled_xfer (h : s.Settled) (b : Byte) : (s.xfer b).2.Settled := by
  unfold xfer
  dsimp only
  split
  · exact h
  · exact h
  · exact h
  · split
    · exact settled_nextData h
    · exact settled_storeData (s := { s with xferCnt := s.xferCnt + 1 }) h b

/-- Any write of the port settles it. -/
theorem settled_write (s : Spi5) (off val : Word) : (s.write off val).Settled := by
  have hcheck : s.checkCs.Settled := by
    unfold checkCs
    split
    · rename_i h
      exact h.symm
    · rfl
  unfold write
  dsimp only
  split
  · exact settled_xfer hcheck (val.setWidth 8)
  · split <;> exact hcheck

theorem settled_read (h : s.Settled) (off : Word) : (s.read off).2.Settled := by
  unfold read
  split
  · exact h
  · split
    · split
      · exact h
      · split
        · exact settled_nextData h
        · exact h
    · exact h

theorem settled_setup (h : s.Settled) (ws : List (Word × Word)) :
    (ws.foldl (fun s w => s.write w.1 w.2) s).Settled := by
  induction ws generalizing s with
  | nil => exact h
  | cons w ws ih => exact ih (settled_write s w.1 w.2)

theorem settled_clock (h : s.Settled) {k : Clock} {o : Byte} {s' : Spi5}
    (hk : s.clock k = some (o, s')) : s'.Settled := by
  unfold clock at hk
  dsimp only at hk
  cases hk
  apply settled_read
  split
  · exact settled_write _ _ _
  · exact settled_setup h k.setup

theorem settled_transact {t : List Clock} {o : List Byte} {s' : Spi5}
    (h : s.transact t = some (o, s')) : s'.Settled :=
  invariant_of_run (I := fun _ s => s.Settled) (p := [])
    (fun _ _ _ _ _ hs hk => settled_clock hs hk)
    (settled_write { s with cs := s.cs + 1 } Spi.cr1 Spi.spe) h

/-- The FPGA gives what a register file gives, and their contents agree. -/
def Agrees (s : Spi5) (ts : List (List Clock)) : Prop :=
  ∃ outs s', run transact ts s = some (outs, s') ∧
    run (Fpga.plain Fpga.mainboardOp) (ts.map (List.map Clock.byte)) s.fpga =
      some (outs, s'.fpga)

theorem agrees_of_settled (hs : s.Settled) {ts : List (List Clock)} (hts : ∀ t ∈ ts, Clean t) :
    s.Agrees ts := by
  have hsim : ∃ outs s' file, run transact ts s = some (outs, s') ∧
      run (fun file (t : List Clock) => Fpga.plain Fpga.mainboardOp file (t.map Clock.byte)) ts
        s.fpga = some (outs, file) ∧ s'.Settled ∧ s'.fpga = file := by
    refine run_simulates (R := fun (s : Spi5) file => s.Settled ∧ s.fpga = file)
      (fun s file t hR ht => ?_) hts ⟨hs, rfl⟩
    obtain ⟨o, s', hrun, hs', hexec⟩ := transact_agrees hR.1 ht
    refine ⟨o, s', s'.fpga, hrun, ?_, hs', rfl⟩
    rw [← hR.2]
    exact congrArg some hexec
  obtain ⟨outs, s', file, hrun, hplain, -, rfl⟩ := hsim
  exact ⟨outs, s', hrun, (run_map _ _ _).trans hplain⟩

end Spi5

/-! ## SPI2: the sequencer -/

/-- The registers of the KSZ8463; the chip id and a valid MIB counter read as they are. -/
abbrev Ksz8463 := Half → Half

def Ksz8463.read (ksz : Ksz8463) (addr : Half) : Half :=
  if addr = 0x0C then 0x8452 else if addr = 0x2F0 then 0x4000 else ksz addr

def Ksz8463.write (ksz : Ksz8463) (addr val : Half) : Ksz8463 := Function.update ksz addr val

structure Spi2 where
  regs : RegFile
  /-- The device that the GPIOs select: 1 is the sequencer and 2 the switch. -/
  cs : Byte
  target : Byte
  idx : Nat
  rx : List Byte
  seq : Half → Byte
  seqCmd : Byte
  seqAddr : Half
  ksz : Ksz8463
  kcmd : Half
  kwrite : Bool
  kval : Half
  kdlo : Byte

namespace Spi2

def new : Spi2 where
  regs := fun _ => 0
  cs := 0
  target := 0
  idx := 0
  rx := []
  seq := fun _ => 0
  seqCmd := 0
  seqAddr := 0
  ksz := fun _ => 0
  kcmd := 0
  kwrite := false
  kval := 0
  kdlo := 0

variable (s : Spi2)

/-- The identity, the checksum of the bitstream and the power control read as they are. -/
def seqRead (addr : Half) : Byte :=
  if addr = 0x0 then 0xDE
  else if addr = 0x1 then 0x01
  else if addr = 0xa then 0x81
  else if addr = 0xb then 0x39
  else if addr = 0xc then 0x75
  else if addr = 0xd then 0x74
  else if addr = 0x13 then 0x00
  else s.seq addr

/-- One byte for the sequencer. Its place in the data is computed in sixteen bits. -/
def seqXfer (b : Byte) (pos : Nat) : Option (Byte × Spi2) :=
  match pos with
  | 0 => some (0, { s with seqCmd := b })
  | 1 => some (0, { s with seqAddr := (b.setWidth 16 : Half) <<< 8 })
  | 2 => some (0, { s with seqAddr := s.seqAddr ||| b.setWidth 16 })
  | n =>
      if n % 65536 < 3 then none
      else
        let a := s.seqAddr + BitVec.ofNat 16 (n % 65536 - 3)
        if s.seqCmd = 1 then some (s.seqRead a, s)
        else
          let cur := s.seq a
          let nv := if s.seqCmd = 2 then cur ||| b
            else if s.seqCmd = 3 then cur &&& ~~~b else b
          some (0, { s with seq := Function.update s.seq a nv })

/-- One byte for the switch. -/
def kszXfer (b : Byte) (pos : Nat) : Byte × Spi2 :=
  match pos % 4 with
  | 0 => (0, { s with kcmd := (b.setWidth 16 : Half) <<< 8 })
  | 1 =>
      let kcmd := s.kcmd ||| b.setWidth 16
      (0, { s with
        kcmd := kcmd, kwrite := kcmd &&& 0x8000 != 0, kval := s.ksz.read (kcmd &&& 0x7FFF) })
  | 2 => if s.kwrite then (0, { s with kdlo := b }) else ((s.kval &&& 0xFF).setWidth 8, s)
  | _ =>
      if s.kwrite then
        let val : Half := (b.setWidth 16) <<< 8 ||| s.kdlo.setWidth 16
        (0, { s with ksz := s.ksz.write (s.kcmd &&& 0x7FFF) val })
      else ((s.kval >>> 8).setWidth 8, s)

/-- The device is the one that is selected at the first byte. -/
def xfer (b : Byte) : Option (Byte × Spi2) :=
  let pos := s.idx
  let s := { s with idx := s.idx + 1 }
  let s := if pos = 0 then { s with target := s.cs } else s
  if s.target = 1 then s.seqXfer b pos
  else if s.target = 2 then some (s.kszXfer b pos)
  else some (0, s)

def read (off : Word) : Word × Spi2 :=
  if alignWord off = Spi.sr then
    (Spi.spiSr (BitVec.ofNat 32 s.idx) (s.regs Spi.cr2 &&& 0xFFFF) (!s.rx.isEmpty), s)
  else if alignWord off = Spi.rxdr then
    match s.rx with
    | [] => (0, s)
    | b :: rx => (b.setWidth 32, { s with rx := rx })
  else (s.regs (alignWord off), s)

def write (off val : Word) : Option Spi2 :=
  if alignWord off = Spi.txdr then do
    let (rx, s) ← s.xfer (val.setWidth 8)
    some { s with rx := s.rx ++ [rx] }
  else if alignWord off = Spi.cr1 then
    let was := s.regs Spi.cr1 &&& Spi.spe ≠ 0
    let s := { s with regs := s.regs.set Spi.cr1 val }
    if val &&& Spi.spe ≠ 0 ∧ ¬ was then some { s with idx := 0, rx := [] } else some s
  else some { s with regs := s.regs.set (alignWord off) val }

def clock (s : Spi2) (b : Byte) : Option (Byte × Spi2) := do
  let s ← s.write Spi.txdr (b.setWidth 32)
  let (v, s) := s.read Spi.rxdr
  some (v.setWidth 8, s)

/-- SPE falls and rises with the sequencer selected, and any number of bytes is clocked. -/
def transact (s : Spi2) (t : List Byte) : Option (List Byte × Spi2) := do
  let s ← { s with cs := 1 }.write Spi.cr1 0
  let s ← s.write Spi.cr1 Spi.spe
  run clock t s

/-! ## The sequencer executes the commands -/

/-- The registers that read as they are. -/
def special (a : Half) : Bool := decide (a ∈ [0x0, 0x1, 0xa, 0xb, 0xc, 0xd, 0x13])

theorem seqRead_of_plain {a : Half} (h : special a = false) : s.seqRead a = s.seq a := by
  simp only [special, List.mem_cons, List.not_mem_nil, or_false, decide_eq_false_iff_not,
    not_or] at h
  obtain ⟨h₀, h₁, ha, hb, hc, hd, hpwr⟩ := h
  unfold seqRead
  rw [if_neg h₀, if_neg h₁, if_neg ha, if_neg hb, if_neg hc, if_neg hd, if_neg hpwr]

variable {s}

/-- A byte gives its byte at once. -/
theorem clock_eq {b o : Byte} {s' : Spi2} (h : s.xfer b = some (o, s')) (hrx : s'.rx = []) :
    s.clock b = some (o, s') := by
  have hwrite : s.write Spi.txdr (b.setWidth 32) = some { s' with rx := [o] } := by
    unfold write
    rw [if_pos (by decide), BitVec.setWidth_setWidth_of_le b (by decide), BitVec.setWidth_eq, h]
    simp only [Option.bind_eq_bind, Option.bind_some, hrx, List.nil_append]
  have hread : ({ s' with rx := [o] } : Spi2).read Spi.rxdr = (o.setWidth 32, s') := by
    unfold read
    rw [if_neg (by decide), if_pos (by decide)]
    dsimp only
    rw [← hrx]
  unfold clock
  rw [hwrite]
  simp only [Option.bind_eq_bind, Option.bind_some, hread]
  rw [BitVec.setWidth_setWidth_of_le o (by decide), BitVec.setWidth_eq]

/-- In the data of a command, at an address. -/
structure At (c : Command Half Byte) (a : Half) (data : List Byte) (s : Spi2) : Prop where
  target : s.target = 1
  idx : 3 ≤ s.idx
  len : s.idx + data.length ≤ 65535
  rx : s.rx = []
  op : Fpga.sequencerOp s.seqCmd = some c
  addr : a = s.seqAddr + BitVec.ofNat 16 (s.idx - 3)
  plain : ∀ b, Covers c data.length a b → special b = false

theorem At.next {c : Command Half Byte} {a : Half} {b : Byte} {data : List Byte}
    (h : At c a (b :: data) s) {r : Spi2} (htarget : r.target = s.target)
    (hidx : r.idx = s.idx + 1) (hrx : r.rx = s.rx) (hop : r.seqCmd = s.seqCmd)
    (haddr : r.seqAddr = s.seqAddr) : At c (c.next a) data r where
  target := htarget.trans h.target
  idx := hidx ▸ Nat.le_succ_of_le h.idx
  len := by
    have hlen := h.len
    rw [List.length_cons] at hlen
    omega
  rx := hrx.trans h.rx
  op := hop ▸ h.op
  addr := by
    have hidx' : r.idx - 3 = s.idx - 3 + 1 := by
      have hpos := h.idx
      omega
    rw [(Fpga.sequencerOp_eq h.op).2.2.1, haddr, hidx', h.addr, BitVec.add_assoc,
      BitVec.ofNat_add]
    rfl
  plain := fun b hb => h.plain b (covers_succ hb)

/-- Up to the sixteen bits of a position, its place in the data is the one behind the header. -/
theorem seqXfer_data {b : Byte} {pos : Nat} (h₃ : 3 ≤ pos) (hpos : pos < 65536) :
    s.seqXfer b pos =
      let a := s.seqAddr + BitVec.ofNat 16 (pos - 3)
      if s.seqCmd = 1 then some (s.seqRead a, s)
      else some (0, { s with
        seq := Function.update s.seq a (if s.seqCmd = 2 then s.seq a ||| b
          else if s.seqCmd = 3 then s.seq a &&& ~~~b else b) }) := by
  obtain ⟨n, rfl⟩ : ∃ n, pos = n + 3 := ⟨pos - 3, by omega⟩
  simp only [seqXfer, Nat.mod_eq_of_lt hpos]
  rw [if_neg (by omega)]

theorem At.clock {c : Command Half Byte} {a : Half} {b : Byte} {data : List Byte}
    (h : At c a (b :: data) s) : ∃ s', s.clock b = some (c.out (s.seq a), s') ∧
      At c (c.next a) data s' ∧
      s'.seq = Function.update s.seq a (c.store (s.seq a) b) := by
  obtain ⟨-, -, -, hout, hstore⟩ := Fpga.sequencerOp_eq h.op
  have hplain : special a = false := h.plain a (covers_self c data.length a)
  have hidx := h.idx
  have hlen := h.len
  rw [List.length_cons] at hlen
  have hxfer : s.xfer b = ({ s with idx := s.idx + 1 } : Spi2).seqXfer b s.idx := by
    have hne : s.idx ≠ 0 := by omega
    simp only [xfer, if_neg hne, if_pos h.target]
  rw [seqXfer_data hidx (by omega)] at hxfer
  dsimp only at hxfer
  rw [← h.addr] at hxfer
  by_cases hop : s.seqCmd = 1
  · rw [if_pos hop, seqRead_of_plain _ hplain] at hxfer
    refine ⟨{ s with idx := s.idx + 1 }, ?_, h.next rfl rfl rfl rfl rfl, ?_⟩
    · rw [hout, if_pos hop]
      exact clock_eq hxfer h.rx
    · rw [hstore, if_pos hop, Function.update_eq_self]
  · rw [if_neg hop] at hxfer
    refine ⟨{ s with
      idx := s.idx + 1
      seq := Function.update s.seq a (if s.seqCmd = 2 then s.seq a ||| b
        else if s.seqCmd = 3 then s.seq a &&& ~~~b else b) }, ?_,
      h.next rfl rfl rfl rfl rfl, ?_⟩
    · rw [hout, if_neg hop]
      exact clock_eq hxfer h.rx
    · rw [hstore, if_neg hop]

/-- The port when SPE has risen with the sequencer selected. -/
def selected (s : Spi2) : Spi2 := { s with
  regs := (s.regs.set Spi.cr1 0).set Spi.cr1 Spi.spe, cs := 1, idx := 0, rx := [] }

theorem transact_eq (s : Spi2) (t : List Byte) : s.transact t = run clock t s.selected := by
  have hlow : ({ s with cs := 1 } : Spi2).write Spi.cr1 0 =
      some { s with cs := 1, regs := s.regs.set Spi.cr1 0 } := by
    unfold write
    rw [if_neg (by decide), if_pos (by decide)]
    simp
  have hhigh : ({ s with cs := 1, regs := s.regs.set Spi.cr1 0 } : Spi2).write Spi.cr1 Spi.spe =
      some s.selected := by
    unfold write
    rw [if_neg (by decide), if_pos (by decide)]
    dsimp only
    rw [if_pos ⟨by decide, by simp [RegFile.set]⟩]
    rfl
  unfold transact
  rw [hlow, Option.bind_eq_bind, Option.bind_some, hhigh]
  rfl

theorem transact_agrees (s : Spi2) {t : List Byte} (ht : Fpga.Plain Fpga.sequencerOp special t) :
    ∃ o s', s.transact t = some (o, s') ∧
      Fpga.execute Fpga.sequencerOp s.seq t = (o, s'.seq) := by
  obtain ⟨hlen, hdata⟩ := ht
  rw [transact_eq]
  -- cut short in its header, a command gives zeros and touches nothing
  rcases t with _ | ⟨b₀, t⟩
  · exact ⟨[], s.selected, rfl, rfl⟩
  have h₀ : s.selected.clock b₀ =
      some (0, { s.selected with idx := 1, target := 1, seqCmd := b₀ }) := clock_eq rfl rfl
  rcases t with _ | ⟨b₁, t⟩
  · exact ⟨_, _, run_cons_eq_some.mpr ⟨_, _, _, h₀, rfl, rfl⟩, rfl⟩
  have h₁ : ({ s.selected with idx := 1, target := 1, seqCmd := b₀ } : Spi2).clock b₁ =
      some (0, { s.selected with
        idx := 2, target := 1, seqCmd := b₀, seqAddr := (b₁.setWidth 16 : Half) <<< 8 }) :=
    clock_eq rfl rfl
  rcases t with _ | ⟨b₂, data⟩
  · exact ⟨_, _, run_cons_eq_some.mpr ⟨_, _, _, h₀,
      run_cons_eq_some.mpr ⟨_, _, _, h₁, rfl, rfl⟩, rfl⟩, rfl⟩
  have h₂ : ({ s.selected with
      idx := 2, target := 1, seqCmd := b₀,
      seqAddr := (b₁.setWidth 16 : Half) <<< 8 } : Spi2).clock b₂ = some (0, { s.selected with
        idx := 3, target := 1, seqCmd := b₀,
        seqAddr := (b₁.setWidth 16 : Half) <<< 8 ||| b₂.setWidth 16 }) :=
    clock_eq rfl rfl
  obtain ⟨c, hc, hcovers⟩ := hdata b₀ b₁ b₂ data rfl
  have hat : At c (b₁ ++ b₂) data { s.selected with
      idx := 3, target := 1, seqCmd := b₀,
      seqAddr := (b₁.setWidth 16 : Half) <<< 8 ||| b₂.setWidth 16 } :=
    { target := rfl
      idx := Nat.le_refl 3
      len := by
        simp only [List.length_cons] at hlen
        dsimp only
        omega
      rx := rfl
      op := hc
      addr := by
        rw [Fpga.addr_eq]
        exact (BitVec.add_zero _).symm
      plain := hcovers }
  obtain ⟨s', a', hrun, -, hfile⟩ := run_access clock id Spi2.seq c
    (fun a b data s h => h.clock) hat
  rw [List.map_id] at hrun hfile
  refine ⟨_, s', run_cons_eq_some.mpr ⟨_, _, _, h₀, run_cons_eq_some.mpr ⟨_, _, _, h₁,
    run_cons_eq_some.mpr ⟨_, _, _, h₂, hrun, rfl⟩, rfl⟩, rfl⟩, ?_⟩
  rw [Fpga.execute_data hc, hfile]
  rfl

/-- The sequencer gives what a register file gives, and their contents agree. -/
def Agrees (s : Spi2) (ts : List (List Byte)) : Prop :=
  ∃ outs s', run transact ts s = some (outs, s') ∧
    run (Fpga.plain Fpga.sequencerOp) ts s.seq = some (outs, s'.seq)

theorem agrees_of_plain (s : Spi2) {ts : List (List Byte)}
    (hts : ∀ t ∈ ts, Fpga.Plain Fpga.sequencerOp special t) : s.Agrees ts := by
  have hsim : ∃ outs s' file, run transact ts s = some (outs, s') ∧
      run (Fpga.plain Fpga.sequencerOp) ts s.seq = some (outs, file) ∧ s'.seq = file := by
    refine run_simulates (R := fun (s : Spi2) file => s.seq = file)
      (fun s file t hR ht => ?_) hts rfl
    obtain ⟨o, s', hrun, hexec⟩ := transact_agrees s ht
    refine ⟨o, s', s'.seq, hrun, ?_, rfl⟩
    rw [← hR]
    exact congrArg some hexec
  obtain ⟨outs, s', file, hrun, hplain, rfl⟩ := hsim
  exact ⟨outs, s', hrun, hplain⟩

end Spi2

/-- The FPGAs over SPI5 and SPI2 are register files that execute whole commands: after any
transactions, those of the protocol give the same bytes and leave the same contents. -/
theorem fpga_agree :
    (∀ fpga history outs s ts, run Spi5.transact history (Spi5.new fpga) = some (outs, s) →
      (∀ t ∈ ts, Spi5.Clean t) → s.Agrees ts) ∧
    ∀ (s : Spi2) ts, (∀ t ∈ ts, Fpga.Plain Fpga.sequencerOp Spi2.special t) → s.Agrees ts := by
  refine ⟨fun fpga history outs s ts hrun hts => ?_, fun s ts hts => s.agrees_of_plain hts⟩
  have hsettled : s.Settled :=
    invariant_of_run (I := fun _ s => s.Settled) (p := [])
      (fun _ _ _ _ _ _ h => Spi5.settled_transact h) rfl hrun
  exact Spi5.agrees_of_settled hsettled hts

/-- Bits are set in two registers, a read is cut short in its header, and a read gets its second
byte in an SPE cycle of its own. -/
theorem fpga_agree_bitSet :
    (Spi5.new fun _ => 0).Agrees
      [[⟨[], some 2⟩, ⟨[], some 3⟩, ⟨[], some 0⟩, ⟨[], some 9⟩, ⟨[], some 4⟩],
        [⟨[], some 1⟩, ⟨[], some 3⟩],
        [⟨[], some 1⟩, ⟨[], some 3⟩, ⟨[], some 0⟩, ⟨[], some 0⟩,
          ⟨[(Spi.cr1, 0), (Spi.cr1, Spi.spe)], none⟩]] ∧
    Spi2.new.Agrees [[2, 0, 0x20, 9, 4], [1, 0], [1, 0, 0x20, 0, 0]] := by
  have hdata {c : Command Half Byte} (hc : ∀ a, c.next a = a + 1) {special : Half → Bool}
      {a : Half} (h₀ : special a = false) (h₁ : special (a + 1) = false) :
      ∀ b, Covers c 2 a b → special b = false := by
    rintro b ⟨i, hi, rfl⟩
    interval_cases i
    · exact h₀
    · exact (congrArg special (hc a)).trans h₁
  have hcr1 : alignWord Spi.cr1 ≠ Spi.txdr := by decide
  constructor
  · refine fpga_agree.1 (fun _ => 0) [] [] (Spi5.new fun _ => 0) _ rfl ?_
    simp only [List.forall_mem_cons]
    refine ⟨⟨⟨by decide, fun op hi lo data h => ?_⟩, by simp, by simp, by simp⟩,
      ⟨⟨by decide, fun op hi lo data h => by cases h⟩, by simp, by simp, by simp⟩,
      ⟨⟨by decide, fun op hi lo data h => ?_⟩, ?_, by simp, ?_⟩,
      List.forall_mem_nil _⟩
    · cases h
      exact ⟨Fpga.bitSet, rfl, hdata (fun _ => rfl) (by decide) (by decide)⟩
    · cases h
      exact ⟨Fpga.read, rfl, hdata (fun _ => rfl) (by decide) (by decide)⟩
    · simp only [List.forall_mem_cons]
      exact ⟨List.forall_mem_nil _, List.forall_mem_nil _, List.forall_mem_nil _,
        List.forall_mem_nil _, ⟨hcr1, hcr1, List.forall_mem_nil _⟩, List.forall_mem_nil _⟩
    · exact fun k _ _ => ⟨1, rfl, .inl rfl⟩
  · refine fpga_agree.2 Spi2.new _ ?_
    simp only [List.forall_mem_cons]
    refine ⟨⟨by decide, fun op hi lo data h => ?_⟩,
      ⟨by decide, fun op hi lo data h => by cases h⟩,
      ⟨by decide, fun op hi lo data h => ?_⟩, List.forall_mem_nil _⟩
    · cases h
      exact ⟨Fpga.bitSet, rfl, hdata (fun _ => rfl) (by decide) (by decide)⟩
    · cases h
      exact ⟨Fpga.read, rfl, hdata (fun _ => rfl) (by decide) (by decide)⟩

end SpEmu
