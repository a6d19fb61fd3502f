import SpEmu.Flash.Controller
import SpEmu.Flash.RotFlash

/-!
# The state of the bus

`Bus` holds what the source's bus owns: the RAM regions, the list of device windows, the
NVIC registers, the Ethernet DMA, TIM5 and the two flash models. The devices behind the
windows, with whatever state they share, are one value of a type with an `Mmio` instance,
and a device is named by its position in the list. A RAM region carries the fact that it
ends within the 32-bit address space.

This module also has the register files that the bus itself implements: the NVIC, the
Ethernet MAC with its management PHY, and the boot-ROM pointer graph.
-/

set_option autoImplicit false

namespace SpEmu

open ByteMem

/-! ## Regions and devices -/

/-- A RAM region that does not wrap around the address space. -/
structure Ram where
  base : Word
  size : Word
  data : Bytes size.toNat
  fits : base.toNat + size.toNat ≤ 2 ^ 32

/-- A page at the bottom of SRAM. -/
theorem Ram.fits_page : (0x20000000 : Word).toNat + (0x1000 : Word).toNat ≤ 2 ^ 32 := by decide

/-- A device window. -/
structure Device where
  base : Word
  size : Word

/-- The devices of a bus, by their position in its device list. -/
class Mmio (δ : Type) where
  read : Nat → Word → δ → Word × δ
  write : Nat → Word → Word → δ → δ
  /-- Poll for an interrupt to raise. -/
  takeIrq : Nat → δ → Option Half × δ
  /-- A host byte waits in the receive queue of the host UART. -/
  uartRxWaiting : δ → Bool

/-- Ethernet MAC and DMA state; `regs` reads 0 where nothing was written. -/
structure EthDma where
  regs : Word → Word
  /-- Index into the receive descriptor ring. -/
  rxNext : Word
  txFrames : List (List Byte)
  irq : Bool
  pendingVid : Option Half
  mdioPage : Half

structure Bus (δ : Type) where
  rams : List Ram
  devs : List Device
  mmio : δ
  curCyc : BitVec 64
  devTouched : Bool
  /-- Record writes for the differential harness; suppresses the transmit DMA. -/
  recording : Bool
  nvicEn : Table 8 Word
  nvicPend : Table 8 Word
  nvicPrio : Table 256 Byte
  pendPendsv : Bool
  eth : EthDma
  tim5Base : BitVec 64
  tim5Regs : Table 256 Word
  resetPending : Bool
  flash : Option Flash
  rotFlash : Option RotFlash
  romEnabled : Bool
  secureAlias : Bool

namespace Bus

variable {δ : Type}

/-- The empty bus. -/
def new (mmio : δ) : Bus δ where
  rams := []
  devs := []
  mmio := mmio
  curCyc := 0
  devTouched := false
  recording := false
  nvicEn := fun _ => 0
  nvicPend := fun _ => 0
  nvicPrio := fun _ => 0
  pendPendsv := false
  eth := ⟨fun _ => 0, 0, [], false, none, 0⟩
  tim5Base := 0
  tim5Regs := fun _ => 0
  resetPending := false
  flash := none
  rotFlash := none
  romEnabled := false
  secureAlias := false

variable (b : Bus δ)

/-- Append a zeroed RAM region. -/
def addRam (base size : Word) (fits : base.toNat + size.toNat ≤ 2 ^ 32) : Bus δ :=
  { b with rams := b.rams ++ [⟨base, size, Bytes.const _ 0, fits⟩] }

/-- Append a device window; the device is the next one of the world. -/
def addDevice (base size : Word) : Bus δ := { b with devs := b.devs ++ [⟨base, size⟩] }

def installFlash (flash : Flash) : Bus δ := { b with flash := some flash }

def installRotFlash (flash : RotFlash) : Bus δ := { b with rotFlash := some flash }

end Bus

/-- The world of a bus without devices. -/
instance : Mmio Unit where
  read _ _ m := (0, m)
  write _ _ _ m := m
  takeIrq _ m := (none, m)
  uartRxWaiting _ := false

/-! ## Addresses -/

namespace Mem

def scbIcsr : Word := 0xE000ED04
def scbVtor : Word := 0xE000ED08
def scbAircr : Word := 0xE000ED0C
def aircrVectkey : Word := 0x05FA0000
def systCsr : Word := 0xE000E010
def systRvr : Word := 0xE000E014
def systCvr : Word := 0xE000E018

def lpc55SecureAliasBit : Word := 0x10000000
def lpc55SramBase : Word := 0x20000000
def lpc55SramSize : Word := 0x00080000

def flashWinLo : Word := 0x08000000
def flashWinHi : Word := 0x08200000
def flashRegLo : Word := 0x52002000
def flashRegHi : Word := 0x52004000
def rotFlashWinLo : Word := 0
def rotFlashWinHi : Word := 0x00100000
def rotFlashRegLo : Word := 0x40034000
def rotFlashRegHi : Word := 0x40035000

def ethBase : Word := 0x40028000
def ethEnd : Word := 0x4002A000
def ethIrq : Half := 61
def uart7Irq : Half := 82
def flashIrq : Half := 4
def macmdioar : Word := 0x0200
def macmdiodr : Word := 0x0204
def dmamr : Word := 0x1000
def dmaisr : Word := 0x1008
def dmactxdlar : Word := 0x1114
def dmacrxdlar : Word := 0x111C
def dmactxdtpr : Word := 0x1120
def dmactxrlr : Word := 0x112C
def dmacrxrlr : Word := 0x1130
def dmacsr : Word := 0x1160
def bufsz : Word := 1536
def vlanTpid : Half := 0x8100

def nvicLo : Word := 0xE000E100
def nvicHi : Word := 0xE000E500

def tim5BaseAddr : Word := 0x40000C00
def tim5End : Word := 0x40001000
def tim5Cnt : Word := 0x40000C24
def tim5Egr : Word := 0x40000C14

/-- Membership in a half-open address range. -/
def within (lo hi a : Word) : Bool := decide (lo ≤ a) && decide (a < hi)

end Mem

/-! ## The boot-ROM pointer graph -/

namespace Romapi

def lpc55RomTable : Word := 0x130010F0
def skbootPtrAddr : Word := lpc55RomTable + 10 * 4
def lpc55BootRom : Word := 0x03000000
def lpc55BootRomSize : Word := 0x00010000
def skbootFnsAddr : Word := lpc55BootRom
def authTrap : Word := lpc55BootRom + 0x100
def hashcryptTrap : Word := lpc55BootRom + 0x104

/-- The synthesized words of the pointer graph; `none` outside the ROM windows. -/
def romRead32 (a : Word) : Option Word :=
  if a = skbootPtrAddr then some skbootFnsAddr
  else if a = skbootFnsAddr then some (authTrap ||| 1)
  else if a = skbootFnsAddr + 4 then some (hashcryptTrap ||| 1)
  else if Mem.within lpc55RomTable (lpc55RomTable + 0x40) a then some 0
  else if Mem.within lpc55BootRom (lpc55BootRom + lpc55BootRomSize) a then some 0
  else none

/-- A boot-ROM trap entry. -/
def isTrap (pc : Word) : Bool := pc == authTrap || pc == hashcryptTrap

end Romapi

/-! ## Ethernet registers -/

namespace EthDma

open Mem

variable (e : EthDma)

def ethReg (off : Word) : Word := e.regs (alignWord off)

def setReg (off val : Word) : EthDma := { e with regs := Function.update e.regs off val }

def ethRead (off : Word) : Word :=
  let v := e.ethReg off
  if alignWord off = dmamr ∨ alignWord off = macmdioar then v &&& ~~~1 else v

/-- The key of a PHY register in the register store. -/
def phyKey (page : Half) (reg : Byte) : Word :=
  (0x10000 : Word) ||| (page.setWidth 32 <<< 8) ||| reg.setWidth 32

/-- The management PHY, read over MDIO. -/
def phyRead (page : Half) (reg : Byte) : Half :=
  if page = 0 ∧ reg = 0 then (e.regs 0x10000).setWidth 16 &&& ~~~0x8000
  else if page = 0 ∧ reg = 2 then 0x0007
  else if page = 0 ∧ reg = 3 then 0x04e2
  else if page = 1 ∧ reg = 23 then 0x0000
  else if page = 1 ∧ reg = 25 then 0x29e8
  else if page = 16 ∧ reg = 18 then (e.regs (phyKey 16 18)).setWidth 16 &&& 0x3FFF
  else if page = 16 ∧ reg = 30 then 0x0001
  else (e.regs (phyKey page reg)).setWidth 16

/-- The MDIO transaction that writing MACMDIOAR with MB starts. -/
def mdio (val : Word) : EthDma :=
  let goc := (val >>> 2) &&& 3
  let rda := ((val >>> 16) &&& 0x1F).setWidth 8
  let e :=
    if goc = 3 then e.setReg macmdiodr ((e.phyRead e.mdioPage rda).setWidth 32)
    else if goc = 1 then
      let data := (e.ethReg macmdiodr).setWidth 16
      if rda = 31 then { e with mdioPage := data }
      else e.setReg (phyKey e.mdioPage rda) (data.setWidth 32)
    else e
  e.setReg macmdioar (val &&& ~~~1)

/-- A register write; the flag says that it moved the transmit tail pointer, which hands
descriptors to the DMA. -/
def regWrite (off val : Word) : EthDma × Bool :=
  let off := alignWord off
  if off = macmdioar ∧ val &&& 1 ≠ 0 then (e.mdio val, false)
  else if off = dmacsr then (e.setReg dmacsr (e.ethReg dmacsr &&& ~~~val), false)
  else (e.setReg off val, off == dmactxdtpr)

/-- The status bits and the interrupt that a finished transfer raises. -/
def complete (bits : Word) : EthDma :=
  let e := e.setReg dmacsr (e.ethReg dmacsr ||| bits)
  let e := e.setReg dmaisr (e.ethReg dmaisr ||| 1)
  { e with irq := true }

end EthDma

/-! ## NVIC registers -/

namespace Bus

variable {δ : Type} (b : Bus δ)

/-- An NVIC register read at a word-aligned address; `some none` where no register is. -/
def nvicRead (addr : Word) : Option (Option Word) :=
  if 0xE000E100 ≤ addr ∧ addr ≤ 0xE000E11C then
    (b.nvicEn.index ((addr - 0xE000E100) / 4).toNat).map some
  else if 0xE000E180 ≤ addr ∧ addr ≤ 0xE000E19C then
    (b.nvicEn.index ((addr - 0xE000E180) / 4).toNat).map some
  else if 0xE000E200 ≤ addr ∧ addr ≤ 0xE000E21C then
    (b.nvicPend.index ((addr - 0xE000E200) / 4).toNat).map some
  else if 0xE000E280 ≤ addr ∧ addr ≤ 0xE000E29C then
    (b.nvicPend.index ((addr - 0xE000E280) / 4).toNat).map some
  else if 0xE000E300 ≤ addr ∧ addr ≤ 0xE000E31C then some (some 0)
  else if 0xE000E400 ≤ addr ∧ addr ≤ 0xE000E4EF then do
    let i := (addr - 0xE000E400).toNat
    let v ← [0, 1, 2, 3].foldlM (fun (v : Word) k => do
      let p ← b.nvicPrio.index (i + k)
      some (v ||| (p.setWidth 32 <<< (8 * k)))) 0
    some (some v)
  else some none

/-- An NVIC register write at a word-aligned address; `some none` where no register is. -/
def nvicWrite (addr val : Word) : Option (Option (Bus δ)) :=
  if 0xE000E100 ≤ addr ∧ addr ≤ 0xE000E11C then
    (b.nvicEn.modify ((addr - 0xE000E100) / 4).toNat (· ||| val)).map
      fun t => some { b with nvicEn := t }
  else if 0xE000E180 ≤ addr ∧ addr ≤ 0xE000E19C then
    (b.nvicEn.modify ((addr - 0xE000E180) / 4).toNat (· &&& ~~~val)).map
      fun t => some { b with nvicEn := t }
  else if 0xE000E200 ≤ addr ∧ addr ≤ 0xE000E21C then
    (b.nvicPend.modify ((addr - 0xE000E200) / 4).toNat (· ||| val)).map
      fun t => some { b with nvicPend := t }
  else if 0xE000E280 ≤ addr ∧ addr ≤ 0xE000E29C then
    (b.nvicPend.modify ((addr - 0xE000E280) / 4).toNat (· &&& ~~~val)).map
      fun t => some { b with nvicPend := t }
  else if 0xE000E400 ≤ addr ∧ addr ≤ 0xE000E4EF then do
    let i := (addr - 0xE000E400).toNat
    let t ← [0, 1, 2, 3].foldlM
      (fun t k => Table.modify t (i + k) fun _ => byteOf val k) b.nvicPrio
    some (some { b with nvicPrio := t })
  else some none

/-- Pend an external IRQ. -/
def pendIrq (irq : Half) : Option (Bus δ) := do
  let t ← b.nvicPend.modify (irq.toNat / 32) (· ||| ((1 : Word) <<< (irq.toNat % 32)))
  some { b with nvicPend := t }

/-- The lowest-numbered enabled and pending IRQ. -/
def nextIrq : Option Half :=
  (List.finRange 8).findSome? fun i =>
    let active := b.nvicEn i &&& b.nvicPend i
    if active = 0 then none
    else some (BitVec.ofNat 16 (i * 32 + active.ctz.toNat))

def irqPrio (irq : Half) : Option Byte := b.nvicPrio.index irq.toNat

def clearPending (irq : Half) : Option (Bus δ) := do
  let t ← b.nvicPend.modify (irq.toNat / 32) (· &&& ~~~((1 : Word) <<< (irq.toNat % 32)))
  some { b with nvicPend := t }

/-- Consume a pending PendSV. -/
def takePendsv : Bool × Bus δ := (b.pendPendsv, { b with pendPendsv := false })

end Bus

end SpEmu
