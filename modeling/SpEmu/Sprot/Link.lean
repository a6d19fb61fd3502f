import SpEmu.Lib.Bytes

/-!
# The sprot link

The SPI link between the SP and the RoT: two byte queues, the chip select, the ROT_IRQ level and
the latches behind them are one `SprotLink` that both cores share. On the SP's side the SPI
master, the GPIO bank with the chip select and the EXTI drive it, on the RoT's side the SPI slave
and its GPIO.

A register access takes the link's lock, so that it is one step of an interleaving. The master
and the chip select may wait for the RoT while they hold it; a wait gives the lock away and only
looks at the link, so that the step begins when the wait ends, however it ends.
-/

set_option autoImplicit false

namespace SpEmu

open ByteMem

/-- A register file that reads 0 where nothing was written. -/
abbrev RegFile := Word → Word

def RegFile.set (regs : RegFile) (off val : Word) : RegFile := Function.update regs off val

/-- The state of the wires. -/
structure SprotLink where
  /-- SP to RoT: the bytes that the master clocked out. -/
  mosi : List Byte
  /-- RoT to SP: the bytes that the slave queued. -/
  miso : List Byte
  /-- Chip select asserted. -/
  cs : Bool
  /-- The RoT asserts ROT_IRQ. -/
  rotIrq : Bool
  /-- Slave-select asserted and de-asserted latches. -/
  ssa : Bool
  ssd : Bool
  /-- The next frame read carries the start-of-transfer mark. -/
  sotPending : Bool
  /-- EXTI pending latch of the ROT_IRQ line. -/
  spRotIrqPending : Bool
  requestInFlight : Bool
  /-- The RoT released the SP's reset pin. -/
  spResetRelease : Bool
  jtagDetect : Bool
  /-- The in-process RoT thread runs. -/
  rotLive : Bool
  /-- Activity counters. -/
  rxFrames : BitVec 64
  txFrames : BitVec 64
  spTxdr : BitVec 64

namespace Sprot

/-- The depth of the RoT's receive FIFO in bytes. -/
def fifoBytes : Nat := 16

/-- EXTI line 3. -/
def rotIrqExtiBit : Word := (1 : Word) <<< 3

end Sprot

open Sprot

namespace SprotLink

/-- The idle link. -/
def new (rotLive : Bool) : SprotLink where
  mosi := []
  miso := []
  cs := false
  rotIrq := false
  ssa := false
  ssd := false
  sotPending := false
  spRotIrqPending := false
  requestInFlight := false
  spResetRelease := false
  jtagDetect := false
  rotLive := rotLive
  rxFrames := 0
  txFrames := 0
  spTxdr := 0

variable (lk : SprotLink)

/-- Clock one byte out to the RoT and one in. A byte that finds the RoT's FIFO full is dropped,
and an empty reply reads 0. -/
def clock (out : Byte) : Byte × SprotLink :=
  let lk := if lk.mosi.length < fifoBytes then { lk with mosi := lk.mosi ++ [out] } else lk
  (lk.miso.headD 0, { lk with spTxdr := lk.spTxdr + 1, miso := lk.miso.tail })

/-- Drive the chip select. An edge latches SSA or SSD; at the start of a transfer the live RoT
loses the bytes it has not read, which belong to a dead transfer. -/
def driveCs (newCs : Bool) : SprotLink :=
  if newCs = lk.cs then lk
  else if newCs then
    let lk := if lk.rotLive then { lk with mosi := [] } else lk
    { lk with ssa := true, sotPending := true, cs := true }
  else { lk with ssd := true, cs := false }

/-- STAT and INTSTAT. -/
def stat : Word :=
  (if lk.ssa then (1 : Word) <<< 4 else 0) ||| (if lk.ssd then (1 : Word) <<< 5 else 0)

/-- FIFOSTAT: TXNOTFULL and RXNOTEMPTY. -/
def fifoStat : Word :=
  (if lk.miso.length < fifoBytes then (1 : Word) <<< 5 else 0) |||
    (if 2 ≤ lk.mosi.length then (1 : Word) <<< 6 else 0)

/-- FIFORD: a frame of two wire bytes, the first one in the upper half, and the mark in bit 20. -/
def readFrame : Word × SprotLink :=
  let hi := lk.mosi.headD 0
  let lo := lk.mosi.tail.headD 0
  let sot : Word := if lk.sotPending then (1 : Word) <<< 20 else 0
  (((hi.setWidth 32 : Word) <<< 8) ||| lo.setWidth 32 ||| sot,
    { lk with
      mosi := lk.mosi.tail.tail
      sotPending := false
      requestInFlight := true
      rxFrames := lk.rxFrames + 1 })

/-- FIFOWR: queue a frame, upper byte first. -/
def writeFrame (frame : Half) : SprotLink :=
  { lk with
    txFrames := lk.txFrames + 1
    miso := lk.miso ++ [(frame >>> 8).setWidth 8, frame.setWidth 8] }

end SprotLink

/-! ## The SP's side -/

/-- The SPI master: one byte out and one in for each TXDR write. -/
structure SpiMaster where
  tsize : Word
  sent : Word
  rx : List Byte
  spe : Bool

namespace SpiMaster

def new : SpiMaster := ⟨0, 0, [], false⟩

variable (m : SpiMaster)

/-- SR: TXP always; RXP, RXWNE and RXPLVL from the receive queue; EOT and TXC once TSIZE bytes
are clocked. -/
def sr : Word :=
  let sr : Word := (1 : Word) <<< 1
  let sr := if m.rx ≠ [] then sr ||| (1 : Word) <<< 0 else sr
  let sr :=
    if 4 ≤ m.rx.length then sr ||| (1 : Word) <<< 15
    else sr ||| ((BitVec.ofNat 32 m.rx.length &&& 0x3) <<< 13)
  if m.tsize ≠ 0 ∧ m.tsize ≤ m.sent then sr ||| ((1 : Word) <<< 3 ||| (1 : Word) <<< 12) else sr

def read (off : Word) : Word × SpiMaster :=
  let off := alignWord off
  if off = 0x14 then (m.sr, m)
  else if off = 0x30 then ((m.rx.headD 0).setWidth 32, { m with rx := m.rx.tail })
  else (0, m)

def write (lk : SprotLink) (off val : Word) : SpiMaster × SprotLink :=
  let off := alignWord off
  if off = 0x00 then
    let spe := val &&& 1 != 0
    (if spe && !m.spe then { m with spe := spe, sent := 0, rx := [] } else { m with spe := spe },
      lk)
  else if off = 0x04 then ({ m with tsize := val &&& 0xFFFF }, lk)
  else if off = 0x20 then
    let (inb, lk) := lk.clock (val.setWidth 8)
    ({ m with rx := m.rx ++ [inb], sent := m.sent + 1 }, lk)
  else (m, lk)

end SpiMaster

/-- The SP's GPIO ports, of which port E drives the chip select on pin 4. -/
structure GpioBank where
  regs : RegFile

namespace GpioBank

def new : GpioBank := ⟨fun _ => 0⟩

/-- The key of a port's ODR. -/
def odrKey (port : Word) : Word := port * 0x400 + 0x14

/-- A register write; BSRR is folded into ODR. -/
def write (g : GpioBank) (lk : SprotLink) (off val : Word) : GpioBank × SprotLink :=
  let port := off / 0x400
  let reg := off &&& 0x3FF &&& ~~~3
  let regs :=
    if reg = 0x18 then
      g.regs.set (odrKey port)
        ((g.regs (odrKey port) ||| (val &&& 0xFFFF)) &&& ~~~(val >>> 16))
    else g.regs.set (alignWord off) val
  (⟨regs⟩, if port = 4 then lk.driveCs ((regs (odrKey 4) >>> 4) &&& 1 == 0) else lk)

end GpioBank

/-- The SP's EXTI: CPUPR1 shows the ROT_IRQ latch, everything else is store and return. -/
structure SpExti where
  regs : RegFile

namespace SpExti

def new : SpExti := ⟨fun _ => 0⟩

def cpupr1 : Word := 0x88

def read (e : SpExti) (lk : SprotLink) (off : Word) : Word :=
  let off := alignWord off
  if off = cpupr1 then
    (e.regs off &&& ~~~rotIrqExtiBit) ||| (if lk.spRotIrqPending then rotIrqExtiBit else 0)
  else e.regs off

def write (e : SpExti) (lk : SprotLink) (off val : Word) : SpExti × SprotLink :=
  let off := alignWord off
  if off = cpupr1 then
    (e, if val &&& rotIrqExtiBit ≠ 0 then { lk with spRotIrqPending := false } else lk)
  else (⟨e.regs.set off val⟩, lk)

end SpExti

/-! ## The RoT's side -/

namespace RotSpiSlave

def read (lk : SprotLink) (off : Word) : Word × SprotLink :=
  let off := alignWord off
  if off = 0x408 ∨ off = 0x428 then (lk.stat, lk)
  else if off = 0xE04 then (lk.fifoStat, lk)
  else if off = 0xE30 then lk.readFrame
  else (0, lk)

def write (lk : SprotLink) (off val : Word) : SprotLink :=
  let off := alignWord off
  if off = 0x408 then
    -- Write one to clear.
    { lk with
      ssa := lk.ssa && !(val &&& ((1 : Word) <<< 4) != 0)
      ssd := lk.ssd && !(val &&& ((1 : Word) <<< 5) != 0) }
  else if off = 0xE00 then
    { lk with
      miso := if val &&& ((1 : Word) <<< 16) != 0 then [] else lk.miso
      mosi := if val &&& ((1 : Word) <<< 17) != 0 then [] else lk.mosi }
  else if off = 0xE20 then lk.writeFrame (val.setWidth 16)
  else lk

end RotSpiSlave

/-- The RoT's GPIO port 0: pin 18 is ROT_IRQ and pin 13 the SP's reset, both active low. -/
structure LpcGpio where
  p0 : Word
  spResetAsserted : Bool

namespace LpcGpio

def new : LpcGpio := ⟨0xFFFFFFFF, false⟩

variable (g : LpcGpio) (lk : SprotLink)

/-- Put the output levels on the wires. -/
def refresh : LpcGpio × SprotLink :=
  let asserted := (g.p0 >>> 18) &&& 1 == 0
  let resetAsserted := (g.p0 >>> 13) &&& 1 == 0
  let resetReleased := g.spResetAsserted && !resetAsserted
  ({ g with spResetAsserted := resetAsserted },
    { lk with
      spResetRelease := lk.spResetRelease || resetReleased
      requestInFlight := lk.requestInFlight && !asserted
      rotIrq := asserted })

def read (off : Word) : Word :=
  let off := alignWord off
  if off = 0x2100 then
    if lk.jtagDetect then g.p0 &&& ~~~((1 : Word) <<< 20) else g.p0 ||| (1 : Word) <<< 20
  else if off = 0x2104 then if lk.cs then 0 else (1 : Word) <<< 1
  else 0

/-- Set or clear one pin. -/
def setPin (pin : Nat) (high : Bool) : Word :=
  if high then g.p0 ||| (1 : Word) <<< pin else g.p0 &&& ~~~((1 : Word) <<< pin)

/-- The levels after a register write; `none` where no output register is. -/
def levels (off val : Word) : Option Word :=
  let off := alignWord off
  if off = 0x2100 then some val
  else if off = 0x2200 then some (g.p0 ||| val)
  else if off = 0x2280 then some (g.p0 &&& ~~~val)
  else if off = 0x2300 then some (g.p0 ^^^ val)
  else if off < 0x20 then some (g.setPin (off &&& 0x1F).toNat (val &&& 0xFF != 0))
  else if 0x1000 ≤ off ∧ off < 0x1080 then some (g.setPin ((off - 0x1000).toNat / 4) (val != 0))
  else none

def write (off val : Word) : LpcGpio × SprotLink :=
  match g.levels off val with
  | some p0 => ({ g with p0 := p0 }).refresh lk
  | none => (g, lk)

end LpcGpio

end SpEmu
