import SpEmu.Mem.Memory
import SpEmu.Lib.Prog

/-!
# Bus accesses

`read32`, `read16`, `read8` and the writes route an address through the windows of the bus
in the source's order: the flash apertures and their registers, the boot-ROM words, the
NVIC, ICSR, the Ethernet block, RAM, TIM5, the device list. An access that the windows leave
to nobody reads 0 or is dropped; `none` is a slice or an index out of bounds.

A write to the transmit tail pointer walks the descriptor ring, and the walk accesses memory
through the bus again. `ethTxWalk` is that walk as a program over bus accesses, and `write32N`
bounds how deep walks may nest. `write32N_eq` shows that two levels are all there are.
-/

set_option autoImplicit false

namespace SpEmu

open ByteMem Mem

/-! ## RAM and device windows -/

namespace Ram

/-- The region check of the source, whose end and limit are computed modulo 2^32. -/
def covers (r : Ram) (addr len : Word) : Bool :=
  decide (r.base ≤ addr) && decide (addr + len ≤ r.base + r.size)

end Ram

/-- The first region that the check accepts, with the offset into it. -/
def ramFor (rams : List Ram) (addr len : Word) : Option (Ram × Nat) :=
  (rams.find? (·.covers addr len)).map fun r => (r, (addr - r.base).toNat)

/-- Store into the first region that the check accepts. -/
def storeRam (addr : Word) (k : Nat) (val : Word) : List Ram → Option (List Ram)
  | [] => some []
  | r :: rs =>
      if r.covers addr (BitVec.ofNat 32 k) then do
        let data ← r.data.store k (addr - r.base).toNat val
        some ({ r with data := data } :: rs)
      else (storeRam addr k val rs).map (r :: ·)

/-- The first device window that contains an address, with the offset into it. -/
def devFor (addr : Word) : (i : Nat) → List Device → Option (Nat × Word)
  | _, [] => none
  | i, d :: ds =>
      if within d.base (d.base + d.size) addr then some (i, addr - d.base)
      else devFor addr (i + 1) ds

/-! ## The transmit walk -/

/-- The bus accesses and the frame bookkeeping of the transmit DMA. -/
inductive DmaCall where
  | read32 (a : Word)
  | read8 (a : Word)
  | write32 (a v : Word)
  | setVid (vid : Half)
  | takeVid
  | emit (frame : List Byte)

abbrev DmaCall.Answer : DmaCall → Type
  | .read32 _ => Word
  | .read8 _ => Byte
  | .write32 _ _ => Unit
  | .setVid _ => Unit
  | .takeVid => Option Half
  | .emit _ => Unit

abbrev Dma := Prog DmaCall DmaCall.Answer

namespace Dma

def ownBit : Word := (1 : Word) <<< 31
def contextBit : Word := (1 : Word) <<< 30
def vidBit : Word := (1 : Word) <<< 16

/-- `n` bytes from `a` on. -/
def readFrame (a : Word) : (n : Nat) → Dma (List Byte)
  | 0 => pure []
  | n + 1 => do
      let byte ← Prog.lift (DmaCall.read8 a)
      let rest ← readFrame (a + 1) n
      pure (byte :: rest)

/-- Insert the 802.1Q tag that the MAC adds after the two addresses. -/
def tagFrame (vid : Option Half) (frame : List Byte) : List Byte :=
  match vid with
  | some vid =>
      if 12 ≤ frame.length then
        frame.take 12 ++ [(vlanTpid >>> 8).setWidth 8, vlanTpid.setWidth 8,
          (vid >>> 8).setWidth 8, vid.setWidth 8] ++ frame.drop 12
      else frame
  | none => frame

/-- One descriptor of the ring: hand back an owned one, and emit its frame unless it is a
VLAN context descriptor. The result says that a frame was sent. -/
def txDescriptor (d : Word) : Dma Bool := do
  let tdes3 ← Prog.lift (DmaCall.read32 (d + 12))
  if tdes3 &&& ownBit = 0 then pure false
  else do
    Prog.lift (DmaCall.write32 (d + 12) (tdes3 &&& ~~~ownBit))
    if tdes3 &&& contextBit ≠ 0 then do
      if tdes3 &&& vidBit ≠ 0 then Prog.lift (DmaCall.setVid ((tdes3 &&& 0xFFF).setWidth 16))
      else pure ()
      pure false
    else do
      let buf ← Prog.lift (DmaCall.read32 d)
      let tdes2 ← Prog.lift (DmaCall.read32 (d + 8))
      let len := min (tdes2 &&& 0x3FFF).toNat bufsz.toNat
      let frame ← readFrame buf len
      let vid ← Prog.lift DmaCall.takeVid
      Prog.lift (DmaCall.emit (tagFrame vid frame))
      pure true

/-- The descriptors `i, …, i + left - 1` of the ring at `base`. -/
def txLoop (base : Word) : (left i : Nat) → (sent : Bool) → Dma Bool
  | 0, _, sent => pure sent
  | left + 1, i, sent => do
      let s ← txDescriptor (base + BitVec.ofNat 32 i * 16)
      txLoop base left (i + 1) (sent || s)

/-- The walk over the whole ring that the registers describe. -/
def ethTxWalk (e : EthDma) : Dma Bool :=
  txLoop (e.ethReg dmactxdlar) ((e.ethReg dmactxrlr &&& 0xFFFF).toNat + 1) 0 false

end Dma

/-! ## Reads -/

namespace Bus

variable {δ : Type} [Mmio δ]

section Windows

variable (b : Bus δ)

/-- Fold a secure-alias address onto its non-secure image while aliasing is on. -/
def fold (addr : Word) : Word :=
  if ¬ b.secureAlias then addr
  else if within lpc55SecureAliasBit (lpc55SecureAliasBit ||| BitVec.ofNat 32 RotFlash.size) addr ||
      within (lpc55SecureAliasBit ||| lpc55SramBase)
        (lpc55SecureAliasBit ||| (lpc55SramBase + lpc55SramSize)) addr then
    addr &&& ~~~lpc55SecureAliasBit
  else addr

/-- The flash model, if it is installed and the address lies in its aperture. -/
def flashWin (addr : Word) : Option Flash :=
  if within flashWinLo flashWinHi addr then b.flash else none

def flashRegs (addr : Word) : Option Flash :=
  if within flashRegLo flashRegHi addr then b.flash else none

def rotFlashWin (addr : Word) : Option RotFlash :=
  if within rotFlashWinLo rotFlashWinHi addr then b.rotFlash else none

def rotFlashRegs (addr : Word) : Option RotFlash :=
  if within rotFlashRegLo rotFlashRegHi addr then b.rotFlash else none

/-- RAM, TIM5, the devices, and nothing, in this order. -/
def readMemory (addr : Word) : Option (Word × Bus δ) :=
  match ramFor b.rams addr 4 with
  | some (r, off) => (r.data.load 4 off).map (·, b)
  | none =>
      if within tim5BaseAddr tim5End addr then
        if alignWord addr = tim5Cnt then some ((b.curCyc - b.tim5Base).setWidth 32, b)
        else (b.tim5Regs.index ((alignWord addr - tim5BaseAddr).toNat / 4)).map (·, b)
      else
        match devFor addr 0 b.devs with
        | some (i, off) =>
            let (v, m) := Mmio.read i (alignWord off) b.mmio
            some (v, { b with mmio := m, devTouched := true })
        | none => some (0, b)

/-- An NVIC register, if the address lies in the NVIC window and names one. -/
def nvicReadWin (addr : Word) : Option (Option Word) :=
  if within nvicLo nvicHi addr then b.nvicRead (alignWord addr) else some none

/-- The boot-ROM words and the system registers, then memory. -/
def readSystem (addr : Word) : Option (Word × Bus δ) :=
  match if b.romEnabled then Romapi.romRead32 (alignWord addr) else none with
  | some v => some (v, b)
  | none => do
      match ← b.nvicReadWin addr with
      | some v => some (v, b)
      | none =>
          if alignWord addr = scbIcsr then
            some (if b.pendPendsv then (1 : Word) <<< 28 else 0, b)
          else if within ethBase ethEnd addr then some (b.eth.ethRead (addr - ethBase), b)
          else b.readMemory addr

def read32 (addr : Word) : Option (Word × Bus δ) :=
  let addr := b.fold addr
  match b.flashWin addr with
  | some f => (f.readMem32 addr).map (·, b)
  | none =>
      match b.flashRegs addr with
      | some f => some (f.regRead (alignWord addr - flashRegLo), b)
      | none =>
          match b.rotFlashWin addr with
          | some f => (f.readMem32 addr).map (·, b)
          | none =>
              match b.rotFlashRegs addr with
              | some f => some (f.regRead (alignWord addr - rotFlashRegLo), b)
              | none => b.readSystem addr

def read16 (addr : Word) : Option (Half × Bus δ) :=
  let addr := b.fold addr
  match b.flashWin addr with
  | some f => (f.readMem16 addr).map (·, b)
  | none =>
      match b.rotFlashWin addr with
      | some f => (f.readMem16 addr).map (·, b)
      | none =>
          match ramFor b.rams addr 2 with
          | some (r, off) => (r.data.load 2 off).map fun v => (v.setWidth 16, b)
          | none => do
              let (w, b) ← b.read32 (alignWord addr)
              some ((w >>> (8 * (addr &&& 2).toNat)).setWidth 16, b)

def read8 (addr : Word) : Option (Byte × Bus δ) :=
  let addr := b.fold addr
  match b.flashWin addr with
  | some f => (f.readMem8 addr).map (·, b)
  | none =>
      match b.rotFlashWin addr with
      | some f => (f.readMem8 addr).map (·, b)
      | none =>
          match ramFor b.rams addr 1 with
          | some (r, off) => (r.data.load 1 off).map fun v => (v.setWidth 8, b)
          | none => do
              let (w, b) ← b.read32 (alignWord addr)
              some ((w >>> (8 * (addr &&& 3).toNat)).setWidth 8, b)

/-! ## Writes -/

/-- RAM, TIM5, the devices, and nothing, in this order. -/
def writeMemory (addr val : Word) : Option (Bus δ) :=
  match ramFor b.rams addr 4 with
  | some _ => (storeRam addr 4 val b.rams).map fun rams => { b with rams := rams }
  | none =>
      if within tim5BaseAddr tim5End addr then
        if alignWord addr = tim5Cnt then
          some { b with tim5Base := b.curCyc - val.setWidth 64 }
        else if alignWord addr = tim5Egr then
          some (if val &&& 1 ≠ 0 then { b with tim5Base := b.curCyc } else b)
        else do
          let t ← b.tim5Regs.modify ((alignWord addr - tim5BaseAddr).toNat / 4) fun _ => val
          some { b with tim5Regs := t }
      else
        match devFor addr 0 b.devs with
        | some (i, off) => some { b with
            mmio := Mmio.write i (alignWord off) val b.mmio
            devTouched := true }
        | none => some b

/-- A write to the Ethernet block, with `walk` for the transmit DMA. -/
def ethWrite (walk : Bus δ → Option (Bus δ)) (off val : Word) : Option (Bus δ) :=
  let (eth, tail) := b.eth.regWrite off val
  let b := { b with eth := eth }
  if tail && !b.recording then walk b else some b

def nvicWriteWin (addr val : Word) : Option (Option (Bus δ)) :=
  if within nvicLo nvicHi addr then b.nvicWrite (alignWord addr) val else some none

/-- The NVIC, ICSR, AIRCR and the Ethernet block, then memory. A reset request falls
through, so that the register is stored for reading back. -/
def writeSystem (walk : Bus δ → Option (Bus δ)) (addr val : Word) : Option (Bus δ) := do
  match ← b.nvicWriteWin addr val with
  | some b => some b
  | none =>
      if alignWord addr = scbIcsr then
        let b := if val &&& ((1 : Word) <<< 28) ≠ 0 then { b with pendPendsv := true } else b
        some (if val &&& ((1 : Word) <<< 27) ≠ 0 then { b with pendPendsv := false } else b)
      else
        let b :=
          if alignWord addr = scbAircr ∧ val &&& 0xFFFF0000 = aircrVectkey ∧
              val &&& ((1 : Word) <<< 2) ≠ 0 then
            { b with resetPending := true }
          else b
        if within ethBase ethEnd addr then b.ethWrite walk (addr - ethBase) val
        else b.writeMemory addr val

def write32With (walk : Bus δ → Option (Bus δ)) (addr val : Word) : Option (Bus δ) :=
  let addr := b.fold addr
  match b.flashWin addr with
  | some f => some { b with flash := some (f.writeMem addr val 4) }
  | none =>
      match b.flashRegs addr with
      | some f => do
          let f ← f.regWrite (alignWord addr - flashRegLo) val
          some { b with flash := some f }
      | none =>
          match b.rotFlashWin addr with
          | some f => some { b with rotFlash := some (f.writeMem addr val 4) }
          | none =>
              match b.rotFlashRegs addr with
              | some f => do
                  let f ← f.regWrite (alignWord addr - rotFlashRegLo) val
                  some { b with rotFlash := some f }
              | none => b.writeSystem walk addr val

end Windows

/-- The accesses of the transmit DMA on the bus, with `w32` for its word writes. -/
def dmaHandler (w32 : Word → Word → Bus δ → Option (Bus δ)) :
    Prog.Handler DmaCall DmaCall.Answer (Bus δ)
  | .read32 a, b => b.read32 a
  | .read8 a, b => b.read8 a
  | .write32 a v, b => (w32 a v b).map ((), ·)
  | .setVid vid, b => some ((), { b with eth := { b.eth with pendingVid := some vid } })
  | .takeVid, b => some (b.eth.pendingVid, { b with eth := { b.eth with pendingVid := none } })
  | .emit frame, b =>
      some ((), { b with eth := { b.eth with txFrames := b.eth.txFrames ++ [frame] } })

/-- The transmit walk on the bus; a frame sent raises TI and the interrupt. -/
def runTxWalk (w32 : Word → Word → Bus δ → Option (Bus δ)) (b : Bus δ) : Option (Bus δ) := do
  let (sent, b) ← (Dma.ethTxWalk b.eth).run (dmaHandler w32) b
  some (if sent then { b with eth := b.eth.complete ((1 : Word) <<< 0 ||| (1 : Word) <<< 15) }
    else b)

/-- A word write in which transmit walks nest at most `n` deep. -/
def write32N : (n : Nat) → Word → Word → Bus δ → Option (Bus δ)
  | 0, addr, val, b => b.write32With (fun _ => none) addr val
  | n + 1, addr, val, b => b.write32With (runTxWalk (write32N n)) addr val

section Writes

variable (b : Bus δ)

/-- Walks nest twice at most: the descriptor word that starts the inner one has lost its
OWN bit. -/
def write32 (addr val : Word) : Option (Bus δ) := write32N 2 addr val b

/-- The word `w` with the half at `addr` replaced. -/
def halfInWord (addr w : Word) (val : Half) : Word :=
  let sh := 8 * (addr &&& 2).toNat
  w &&& ~~~((0xffff : Word) <<< sh) ||| (val.setWidth 32 <<< sh)

/-- The word `w` with the byte at `addr` replaced. -/
def byteInWord (addr w : Word) (val : Byte) : Word :=
  let sh := 8 * (addr &&& 3).toNat
  w &&& ~~~((0xff : Word) <<< sh) ||| (val.setWidth 32 <<< sh)

def write16 (addr : Word) (val : Half) : Option (Bus δ) :=
  let addr := b.fold addr
  match ramFor b.rams addr 2 with
  | some _ => (storeRam addr 2 (val.setWidth 32) b.rams).map fun rams => { b with rams := rams }
  | none => do
      let (w, b) ← b.read32 (alignWord addr)
      b.write32 (alignWord addr) (halfInWord addr w val)

def write8 (addr : Word) (val : Byte) : Option (Bus δ) :=
  let addr := b.fold addr
  match ramFor b.rams addr 1 with
  | some _ => (storeRam addr 1 (val.setWidth 32) b.rams).map fun rams => { b with rams := rams }
  | none => do
      let (w, b) ← b.read32 (alignWord addr)
      b.write32 (alignWord addr) (byteInWord addr w val)

/-- A read of any width, zero-extended. -/
def read (w : Width) (addr : Word) : Option (Word × Bus δ) :=
  match w with
  | .word => b.read32 addr
  | .half => (b.read16 addr).map fun r => (r.1.setWidth 32, r.2)
  | .byte => (b.read8 addr).map fun r => (r.1.setWidth 32, r.2)

/-- A write of the low bits of `val`, of any width. -/
def write (w : Width) (addr val : Word) : Option (Bus δ) :=
  match w with
  | .word => b.write32 addr val
  | .half => b.write16 addr (val.setWidth 16)
  | .byte => b.write8 addr (val.setWidth 8)

end Writes

end Bus

end SpEmu
