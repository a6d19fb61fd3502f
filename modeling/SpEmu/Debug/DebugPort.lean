import SpEmu.Cpu.Core
import SpEmu.Mem.Service

/-!
# The debug port

An ADIv5 SW-DP with one MEM-AP and the CoreDebug registers behind it. `SwDp` is the state of the
port; `DebugTarget` puts it in front of a core and its bus, and `transfer` is one SWD register
transfer. A word access of the MEM-AP to a CoreDebug address never reaches the bus.

The port halts and resumes the core through the flags `halted` and `bkptHit`, and remembers in
`vcatchHalt` that a reset was caught. DFSR is put together from these flags at each read. Nothing
here touches a decode cache: the entries that an ITCM store drops are no part of `Core`.
-/

set_option autoImplicit false

namespace SpEmu

open ByteMem

structure SwDp where
  /-- APSEL, APBANKSEL and DPBANKSEL. -/
  select : Word
  /-- The last CTRL/STAT write. -/
  ctrlStat : Word
  /-- The pipelined result of the last AP read. -/
  posted : Word
  csw : Word
  tar : Word
  dcrdr : Word
  demcr : Word
  /-- C_DEBUGEN, C_HALT and C_MASKINTS, as DHCSR reads them back. -/
  dhcsrCtrl : Word
  /-- A reset happened since the last DHCSR read. -/
  resetSticky : Bool
  /-- The current halt came from a reset vector catch. -/
  vcatchHalt : Bool
  stepRequest : Bool

namespace SwDp

def dpidr : Word := 0x6BA02477
def apIdr : Word := 0x84770001

def cdbgpwrupreq : Word := (1 : Word) <<< 28
def cdbgpwrupack : Word := (1 : Word) <<< 29
def csyspwrupreq : Word := (1 : Word) <<< 30
def csyspwrupack : Word := (1 : Word) <<< 31

def dfsr : Word := 0xE000ED30
def dhcsr : Word := 0xE000EDF0
def dcrsr : Word := 0xE000EDF4
def dcrdrAddr : Word := 0xE000EDF8
def demcrAddr : Word := 0xE000EDFC
def aircr : Word := 0xE000ED0C

def dfsrHalted : Word := (1 : Word) <<< 0
def dfsrBkpt : Word := (1 : Word) <<< 1
def dfsrVcatch : Word := (1 : Word) <<< 3

def dbgkey : Word := 0xA05F
def cDebugen : Word := (1 : Word) <<< 0
def cHalt : Word := (1 : Word) <<< 1
def cStep : Word := (1 : Word) <<< 2
def cMaskints : Word := (1 : Word) <<< 3
def sRegrdy : Word := (1 : Word) <<< 16
def sHalt : Word := (1 : Word) <<< 17
def sResetSt : Word := (1 : Word) <<< 25

def aircrVectkey : Word := 0x05FA0000
def aircrSysresetreq : Word := (1 : Word) <<< 2
def vcCorereset : Word := (1 : Word) <<< 0
def vectorTable : Word := 0x08000000

def new : SwDp where
  select := 0
  ctrlStat := 0
  posted := 0
  csw := 0
  tar := 0
  dcrdr := 0
  demcr := 0
  dhcsrCtrl := 0
  resetSticky := false
  vcatchHalt := false
  stepRequest := false

variable (p : SwDp)

/-- A transfer to the debug port itself. -/
def dpTransfer (rnw : Bool) (a : Byte) (wdata : Word) : Option Word × SwDp :=
  match rnw, (a &&& 0x0C).toNat with
  | true, 0x0 => (some dpidr, p)
  | false, 0x0 => (none, p)
  | true, 0x4 =>
      -- The power-up requests are acknowledged at once.
      let v := p.ctrlStat
      let v := if v &&& cdbgpwrupreq != 0 then v ||| cdbgpwrupack else v
      (some (if v &&& csyspwrupreq != 0 then v ||| csyspwrupack else v), p)
  | false, 0x4 => (none, { p with ctrlStat := wdata })
  | false, 0x8 => (none, { p with select := wdata })
  | true, 0x8 => (some 0, p)
  | true, 0xC => (some p.posted, p)
  | false, 0xC => (none, p)
  | _, _ => (some 0, p)

/-- The bytes of a MEM-AP access; a reserved size is a word. -/
def accessSize : Word := (1 : Word) <<< (min (p.csw &&& 0x7).toNat 2)

/-- Move TAR on after an access, when CSW asks for it. -/
def autoInc : SwDp :=
  if (p.csw >>> 4) &&& 0x3 = 1 then { p with tar := p.tar + p.accessSize } else p

/-- The halt reason, from the live state of the port and the core. -/
def haltReason (c : Core) : Word :=
  if c.bkptHit then dfsrBkpt
  else if p.vcatchHalt && c.halted then dfsrVcatch
  else if c.halted then dfsrHalted
  else 0

/-- Halt a core that was reset, if the reset vector catch is armed. -/
def honorVectorCatch (c : Core) : Bool × SwDp × Core :=
  if p.demcr &&& vcCorereset != 0 then
    (true, { p with vcatchHalt := true, resetSticky := true }, { c with halted := true })
  else (false, p, c)

/-- A DHCSR write; without the key in its top half it has no effect. -/
def writeDhcsr (c : Core) (val : Word) : SwDp × Core :=
  if val >>> 16 ≠ dbgkey then (p, c)
  else
    let p := { p with dhcsrCtrl := val &&& (cDebugen ||| cHalt ||| cMaskints) }
    let c := { c with debugEn := val &&& cDebugen != 0 }
    if !c.debugEn then
      -- Leaving debug: the core runs on from where it was halted.
      ({ p with vcatchHalt := false, stepRequest := false },
        { c with halted := false, bkptHit := false })
    else if val &&& cHalt != 0 then ({ p with stepRequest := false }, { c with halted := true })
    else
      ({ p with vcatchHalt := false, stepRequest := val &&& cStep != 0 },
        { c with halted := false, bkptHit := false })

/-- A DCRSR write moves a core register to or from DCRDR. -/
def writeDcrsr (c : Core) (val : Word) : SwDp × Core :=
  let regsel := (val &&& 0x7F).toNat
  if val &&& ((1 : Word) <<< 16) != 0 then (p, c.setGdbReg regsel p.dcrdr)
  else ({ p with dcrdr := c.gdbReg regsel }, c)

end SwDp

/-- A BKPT at `pc`: halt into debug state, or a fault when no debugger is attached. -/
def Core.bkpt (c : Core) (pc : Word) : Option Core :=
  if c.debugEn then some { c with pc := pc, halted := true, bkptHit := true } else none

/-- A debug port in front of a core and its bus. -/
structure DebugTarget (δ : Type) where
  port : SwDp
  core : Core
  bus : Bus δ

namespace DebugTarget

open SwDp

variable {δ : Type} [Mmio δ] (t : DebugTarget δ)

/-- Read the vector table and reset the core and the exception sources; then catch the reset, if
armed. -/
def doReset : Option (DebugTarget δ) := do
  let (sp, bus) ← t.bus.read32 vectorTable
  let (pc, bus) ← bus.read32 (vectorTable + 4)
  let bus ← bus.resetExceptionSources
  let core := t.core.resetForReboot sp (pc &&& ~~~1)
  let (_, port, core) := { t.port with resetSticky := true }.honorVectorCatch core
  some ⟨port, core, bus⟩

/-- The reset pin. -/
def pinReset : Option (DebugTarget δ) := t.doReset

/-- A word read of the MEM-AP. -/
def memReadWord (addr : Word) : Option (Word × DebugTarget δ) :=
  if addr = dhcsr then
    let v := t.port.dhcsrCtrl ||| sRegrdy
    let v := if t.core.halted then v ||| sHalt else v
    -- The reset is reported once.
    some (if t.port.resetSticky then v ||| sResetSt else v,
      { t with port := { t.port with resetSticky := false } })
  else if addr = dcrdrAddr then some (t.port.dcrdr, t)
  else if addr = demcrAddr then some (t.port.demcr, t)
  else if addr = dcrsr then some (0, t)
  else if addr = dfsr then some (t.port.haltReason t.core, t)
  else (t.bus.read32 addr).map fun r => (r.1, { t with bus := r.2 })

/-- A word write of the MEM-AP. -/
def memWriteWord (addr val : Word) : Option (DebugTarget δ) :=
  if addr = dhcsr then
    let (port, core) := t.port.writeDhcsr t.core val
    some { t with port := port, core := core }
  else if addr = dcrsr then
    let (port, core) := t.port.writeDcrsr t.core val
    some { t with port := port, core := core }
  else if addr = dcrdrAddr then some { t with port := { t.port with dcrdr := val } }
  else if addr = demcrAddr then some { t with port := { t.port with demcr := val } }
  -- Write one to clear; a read reflects the live state.
  else if addr = dfsr then some t
  else if addr = aircr then
    if val &&& 0xFFFF0000 = aircrVectkey ∧ val &&& aircrSysresetreq ≠ 0 then t.doReset else some t
  else (t.bus.write32 addr val).map fun bus => { t with bus := bus }

/-- A read of the data register, of the size in CSW. -/
def drwRead : Option (Word × DebugTarget δ) := do
  let tar := t.port.tar
  let (data, t) ←
    if t.port.accessSize = 1 then do
      let (v, bus) ← t.bus.read8 tar
      some ((v.setWidth 32 : Word) <<< ((tar &&& 3) * 8).toNat, { t with bus := bus })
    else if t.port.accessSize = 2 then do
      let (v, bus) ← t.bus.read16 tar
      some ((v.setWidth 32 : Word) <<< ((tar &&& 2) * 8).toNat, { t with bus := bus })
    else t.memReadWord tar
  some (data, { t with port := t.port.autoInc })

/-- A write of the data register. -/
def drwWrite (wdata : Word) : Option (DebugTarget δ) := do
  let tar := t.port.tar
  let t ←
    if t.port.accessSize = 1 then
      (t.bus.write8 tar ((wdata >>> ((tar &&& 3) * 8).toNat).setWidth 8)).map
        fun bus => { t with bus := bus }
    else if t.port.accessSize = 2 then
      (t.bus.write16 tar ((wdata >>> ((tar &&& 2) * 8).toNat).setWidth 16)).map
        fun bus => { t with bus := bus }
    else t.memWriteWord tar wdata
  some { t with port := t.port.autoInc }

/-- A transfer to the MEM-AP. A read answers with the result of the read before it. -/
def apTransfer (rnw : Bool) (a : Byte) (wdata : Word) : Option (Option Word × DebugTarget δ) :=
  let reg := (((t.port.select >>> 4) &&& 0xF) <<< 4) ||| ((a.setWidth 32 : Word) &&& 0x0C)
  if rnw then do
    let out := t.port.posted
    let (v, t) ←
      if reg = 0x00 then some (t.port.csw, t)
      else if reg = 0x04 then some (t.port.tar, t)
      else if reg = 0x0C then t.drwRead
      else if reg = 0xFC then some (apIdr, t)
      else some (0, t)
    some (some out, { t with port := { t.port with posted := v } })
  else do
    let t ←
      if reg = 0x00 then some { t with port := { t.port with csw := wdata } }
      else if reg = 0x04 then some { t with port := { t.port with tar := wdata } }
      else if reg = 0x0C then t.drwWrite wdata
      else some t
    some (none, t)

/-- One SWD register transfer; a write answers with no data. -/
def transfer (ap rnw : Bool) (a : Byte) (wdata : Word) : Option (Option Word × DebugTarget δ) :=
  if ap then t.apTransfer rnw a wdata
  else
    let (out, port) := t.port.dpTransfer rnw a wdata
    some (out, { t with port := port })

variable {t}

/-- With a word size in CSW and bank 0 selected, a write transfer to the data register is a word
write at TAR. -/
theorem transfer_drw_word (hbank : (t.port.select >>> 4) &&& 0xF = 0)
    (hsize : 2 ≤ (t.port.csw &&& 0x7).toNat) (wdata : Word) :
    t.transfer true false 0x0C wdata = (t.memWriteWord t.port.tar wdata).map
      fun t' => (none, { t' with port := t'.port.autoInc }) := by
  have hword : t.port.accessSize = 4 := by
    rw [accessSize, Nat.min_eq_right hsize]
    rfl
  have hreg : (((t.port.select >>> 4) &&& 0xF) <<< 4) ||| (((0x0C : Byte).setWidth 32 : Word) &&&
      0x0C) = 0x0C := by
    rw [hbank]
    rfl
  have hdrw : t.drwWrite wdata =
      (t.memWriteWord t.port.tar wdata).map fun t' => { t' with port := t'.port.autoInc } := by
    rw [drwWrite, if_neg (by rw [hword]; decide), if_neg (by rw [hword]; decide)]
    cases t.memWriteWord t.port.tar wdata <;> rfl
  rw [transfer, if_pos rfl, apTransfer, if_neg nofun, hreg, if_neg (by decide), if_neg (by decide),
    if_pos rfl, hdrw]
  cases t.memWriteWord t.port.tar wdata <;> rfl

end DebugTarget

end SpEmu
