import SpEmu.Mem.Dispatch

/-!
# What the run loops ask of the bus

Between instructions the loops collect the interrupts that the devices, the Ethernet DMA, the
flash controller and the host UART raise, and pump frames between the host bridge and the
receive ring. At a reset they clear the exception sources and latch a committed bank swap.

The receive DMA keeps its position in the descriptor ring in `rxNext`. `ethRxInject` moves it;
no register write and no reset does.
-/

set_option autoImplicit false

namespace SpEmu

open ByteMem Mem

/-! ## Received frames -/

/-- A frame as the driver sees it in a receive buffer: the VLAN of its tag, or 0, and its
bytes without the tag. -/
structure RxFrame where
  vid : Word
  data : List Byte

namespace RxFrame

/-- The MAC strips the 802.1Q tag of a wire frame and reports its VID. -/
def ofWire (frame : List Byte) : RxFrame :=
  match frame.drop 12 with
  | t₁ :: t₀ :: v₁ :: v₀ :: rest =>
      if (t₁ ++ t₀ : Half) = vlanTpid then ⟨((v₁ ++ v₀ : Half) &&& 0xFFF).setWidth 32,
        frame.take 12 ++ rest⟩
      else ⟨0, frame⟩
  | _ => ⟨0, frame⟩

/-- The number of bytes that fit the receive buffer. -/
def fit (f : RxFrame) : Nat := min (f.data.length % 2 ^ 32) bufsz.toNat

/-- The frame cut to the receive buffer. -/
def cut (f : RxFrame) : RxFrame := { f with data := f.data.take f.fit }

/-- The status word that hands a descriptor back to the driver: FD, LD, a valid RDES0 and the
length. -/
def status (f : RxFrame) : Word :=
  (1 : Word) <<< 29 ||| (1 : Word) <<< 28 ||| (1 : Word) <<< 25 |||
    (BitVec.ofNat 32 f.fit &&& 0x7FFF)

end RxFrame

/-- A frame is in: the position moves on, and RI and the interrupt are raised. -/
def EthDma.received (e : EthDma) (ringLen : Word) : EthDma :=
  let e := { e with rxNext := (e.rxNext + 1) % ringLen }
  e.complete ((1 : Word) <<< 6 ||| (1 : Word) <<< 15)

namespace Bus

variable {δ : Type} [Mmio δ] (b : Bus δ)

/-- Whether the DMA owns the next receive descriptor. -/
def ethRxHasSpace : Option (Bool × Bus δ) :=
  let base := b.eth.ethReg dmacrxdlar
  if base = 0 then some (false, b)
  else do
    let d := base + b.eth.rxNext * 16
    let (rdes3, b) ← b.read32 (d + 12)
    some (rdes3 &&& Dma.ownBit != 0, b)

/-- Store bytes one by one from `a` on. -/
def writeBytes (a : Word) : List Byte → Bus δ → Option (Bus δ)
  | [], b => some b
  | byte :: bytes, b => do
      let b ← b.write8 a byte
      writeBytes (a + 1) bytes b

/-- Write a frame to the next receive descriptor and raise the interrupt; the flag says that
the frame was accepted. -/
def ethRxInject (frame : List Byte) : Option (Bool × Bus δ) :=
  let base := b.eth.ethReg dmacrxdlar
  if base = 0 then some (false, b)
  else do
    let ringLen := (b.eth.ethReg dmacrxrlr &&& 0xFFFF) + 1
    let d := base + b.eth.rxNext * 16
    let (rdes3, b) ← b.read32 (d + 12)
    if rdes3 &&& Dma.ownBit = 0 then some (false, b)
    else do
      let f := RxFrame.ofWire frame
      let (buf, b) ← b.read32 d
      let b ← b.writeBytes buf f.cut.data
      let b ← b.write32 d f.vid
      let b ← b.write32 (d + 12) f.status
      some (true, { b with eth := b.eth.received ringLen })

/-- Deliver queued frames while the ring has room; the result is what stays queued. -/
def pumpRx : List (List Byte) → Bus δ → Option (List (List Byte) × Bus δ)
  | [], b => b.ethRxHasSpace.map fun r => ([], r.2)
  | frame :: queue, b => do
      let (space, b) ← b.ethRxHasSpace
      if space then
        let (_, b) ← b.ethRxInject frame
        pumpRx queue b
      else some (frame :: queue, b)

/-- Exchange frames with the host bridge: the transmitted frames, what stays queued, and the
bus. -/
def pumpEth (queue : List (List Byte)) :
    Option (List (List Byte) × List (List Byte) × Bus δ) := do
  let (rest, b') ← pumpRx queue { b with eth := { b.eth with txFrames := [] } }
  some (b.eth.txFrames, rest, b')

/-! ## Interrupt collection -/

/-- Poll the devices `i, …, i + left - 1`, in order. -/
def pollIrqs : (left i : Nat) → δ → List Half × δ
  | 0, _, m => ([], m)
  | left + 1, i, m =>
      let (irq, m) := Mmio.takeIrq i m
      let (irqs, m) := pollIrqs left (i + 1) m
      (irq.toList ++ irqs, m)

/-- Pend a list of IRQs. -/
def pendAll (irqs : List Half) (b : Bus δ) : Option (Bus δ) :=
  irqs.foldlM (fun b irq => b.pendIrq irq) b

/-- The devices are polled only if one was accessed since the last collection, and at most
eight of the IRQs they return are kept. -/
def collectDevices : Option (Bus δ) :=
  if b.devTouched then
    let (irqs, m) := pollIrqs b.devs.length 0 b.mmio
    pendAll (irqs.take 8) { b with mmio := m, devTouched := false }
  else some b

def collectEth : Option (Bus δ) :=
  if b.eth.irq then { b with eth := { b.eth with irq := false } }.pendIrq ethIrq else some b

def collectFlash : Option (Bus δ) :=
  match b.flash with
  | some f =>
      let (irq, f) := f.takeEraseIrq
      let b := { b with flash := some f }
      if irq then b.pendIrq Mem.flashIrq else some b
  | none => some b

/-- The host UART keeps its IRQ pending while a byte waits. -/
def collectUart : Option (Bus δ) :=
  if Mmio.uartRxWaiting b.mmio then b.pendIrq uart7Irq else some b

def collectIrqs : Option (Bus δ) := do
  let b ← b.collectDevices
  let b ← b.collectEth
  let b ← b.collectFlash
  b.collectUart

/-- Whether an enabled IRQ or PendSV is pending. -/
def anyPendingIrq : Option (Bool × Bus δ) := do
  let b ← b.collectIrqs
  some (b.nextIrq.isSome || b.pendPendsv, b)

/-! ## Resets -/

/-- Disable and unpend every NVIC IRQ, drop PendSV, and clear the SysTick registers. -/
def resetExceptionSources : Option (Bus δ) := do
  let b := { b with nvicEn := fun _ => 0, nvicPend := fun _ => 0, pendPendsv := false }
  let b ← b.write32 systCsr 0
  let b ← b.write32 systRvr 0
  b.write32 systCvr 0

omit [Mmio δ] in
/-- Flush the flash to its backing file and latch a committed bank swap. -/
def flashResetLatch : Bus δ :=
  { b with flash := b.flash.map fun f => f.flush.resetLatch }

end Bus

end SpEmu
