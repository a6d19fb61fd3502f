import SpEmu.Cpu.Exec

/-!
# Exception entry and return

Entry stacks a frame of eight words, or of twenty-six while CONTROL.FPCA is set, switches to
the main stack and jumps through the vector table. Return unstacks the frame that EXC_RETURN
describes: bit 2 names the stack, bit 3 the mode, and bit 4 is clear for the long frame.

SysTick and the NVIC are polled once per instruction; both enter an exception from Thread
mode only.
-/

set_option autoImplicit false

namespace SpEmu

open ByteMem

namespace Core

variable (c : Core)

/-! ## Entry -/

def fpca : Bool := bitSet c.control 2

/-- The length of the stacked frame in words. -/
def frameWords : Word := if c.fpca then 26 else 8

/-- r0 to r3, r12, LR, the return address and xPSR. -/
def basicFrame : List Word :=
  [c.r 0, c.r 1, c.r 2, c.r 3, c.r 12, c.r lr, c.pc, c.buildXpsr]

/-- s0 to s15. -/
def lowS : List Word := (List.finRange 16).map fun i => c.s (i.castLE (by decide))

/-- s0 to s15, FPSCR and a reserved word. -/
def fpFrame : List Word := c.lowS ++ [c.fpscr, 0]

def frame : List Word := c.basicFrame ++ if c.fpca then c.fpFrame else []

def frameBase : Word := c.r sp - 4 * c.frameWords

/-- The EXC_RETURN value that describes the frame. -/
def excReturn : Word :=
  let base : Word :=
    match c.mode, c.spIsPsp with
    | .handler, _ => 0xFFFFFFF1
    | .thread, false => 0xFFFFFFF9
    | .thread, true => 0xFFFFFFFD
  if c.fpca then base &&& ~~~0x10 else base

/-- The switch to Handler mode, with the frame stacked: the stack in use is banked below the
frame, and the main stack becomes active. -/
def enterHandler (vecnum : Word) : Core :=
  { (c.setR sp (if c.spIsPsp then c.msp else c.frameBase)).setR lr c.excReturn with
    psp := if c.spIsPsp then c.frameBase else c.psp
    msp := if c.spIsPsp then c.msp else c.frameBase
    spIsPsp := false
    mode := .handler
    ipsr := vecnum }

def exceptionEntry (vecnum : Word) : BusM Core := do
  BusM.writeWords c.frameBase c.frame
  let c := c.enterHandler vecnum
  let vtor ← BusM.read32 Mem.scbVtor
  let vtor := vtor &&& ~~~0x7f
  let vtor := if vtor = 0 then c.vtorFallback else vtor
  let pc ← BusM.read32 (vtor + vecnum * 4)
  pure { c with pc := pc &&& ~~~1, itstate := 0 }

/-! ## Return -/

/-- Whether an EXC_RETURN value names the process stack, Thread mode and the long frame. -/
def returnPsp (exc : Word) : Bool := bitSet exc 2
def toThread (exc : Word) : Bool := bitSet exc 3
def extended (exc : Word) : Bool := !bitSet exc 4

/-- Where the frame is read from: the bank of the stack that EXC_RETURN names. -/
def returnBase (exc : Word) : Word := if returnPsp exc then c.psp else c.msp

def withDumps (n : Word) : Core := { c with badRetDumps := n }

/-- The crash detector reads the memory around a frame whose return address is not code. -/
def crashDump (base pc : Word) : BusM Core :=
  if !c.isCode pc && decide (c.badRetDumps < 6) then do
    let _ ← BusM.readWords (base - 8) 18
    pure (c.withDumps (c.badRetDumps + 1))
  else pure c

/-- Unstack the registers of the basic frame. -/
def setBasic (r0 r1 r2 r3 r12 lr pc xpsr : Word) : Core :=
  let c := (((((c.setR 0 r0).setR 1 r1).setR 2 r2).setR 3 r3).setR 12 r12).setR Core.lr lr
  { { c with pc := pc &&& ~~~1 }.setXpsrFlags xpsr with
    itstate := itstateFromXpsr xpsr
    ipsr := xpsr &&& 0x1ff }

/-- Unstack s0 to s15 and FPSCR. -/
def setFp (ws : List Word) (fpscr : Word) : Core :=
  { c with
    s := fun i => if i.val < 16 then ws.getD i.val 0 else c.s i
    fpscr := fpscr }

/-- CONTROL after the return: FPCA from the frame, and SPSEL from the stack in Thread mode. -/
def returnControl (exc : Word) : Word :=
  let control := if extended exc then c.control ||| 4 else c.control &&& ~~~4
  if toThread exc then if returnPsp exc then control ||| 2 else control &&& ~~~2 else control

def returnMode (exc : Word) : Mode := if toThread exc then .thread else .handler

/-- Mode, CONTROL and the stack pointers after the frame up to `top` is unstacked. -/
def leaveHandler (exc top : Word) : Core :=
  let control := c.returnControl exc
  let thread := returnMode exc == .thread
  let psp := if returnPsp exc then top else c.psp
  let msp := if returnPsp exc then c.msp else top
  let spIsPsp := thread && bitSet control 1
  { c.setR sp (if spIsPsp then psp else msp) with
    control := control
    mode := returnMode exc
    psp := psp
    msp := msp
    spIsPsp := spIsPsp
    enteredTask := c.enteredTask || (thread && bitSet control 0) }

/-- Unstack the long part of the frame, if there is one; the result is its end. -/
def unstackFp (exc top : Word) : BusM (Core × Word) :=
  if extended exc then do
    let ws ← BusM.readWords top 16
    let fpscr ← BusM.read32 (top + 64)
    pure (c.setFp ws fpscr, top + 72)
  else pure (c, top)

def exceptionReturn (exc : Word) : BusM Core := do
  let base := c.returnBase exc
  let r0 ← BusM.read32 base
  let r1 ← BusM.read32 (base + 4)
  let r2 ← BusM.read32 (base + 8)
  let r3 ← BusM.read32 (base + 12)
  let r12 ← BusM.read32 (base + 16)
  let lr ← BusM.read32 (base + 20)
  let pc ← BusM.read32 (base + 24)
  let xpsr ← BusM.read32 (base + 28)
  let c ← c.crashDump base pc
  let (c, top) ← c.unstackFp exc (base + 0x20)
  pure ((c.setBasic r0 r1 r2 r3 r12 lr pc xpsr).leaveHandler exc top)

/-- A branch to `t`, which an EXC_RETURN value turns into an exception return. -/
def branchTo (t : Word) : BusM Core :=
  if t &&& 0xff000000 = 0xff000000 then c.exceptionReturn t
  else pure { c with pc := t &&& ~~~1 }

/-! ## SysTick and the NVIC -/

/-- Refresh the cached SysTick registers, every 256 instructions. -/
def refreshSyst : BusM Core :=
  if c.cycles &&& 0xFF = 0 then do
    let csr ← BusM.read32 Mem.systCsr
    let rvr ← BusM.read32 Mem.systRvr
    pure { c with systCsr := csr, systRvr := if rvr = 0 then 1 else rvr }
  else pure c

/-- The counter after one instruction; 0 reloads first. -/
def nextSystick : Word := (if c.systick = 0 then c.systRvr else c.systick) - 1

/-- Count down by one; the flag says that the counter underflowed. -/
def countDown : Core × Bool :=
  if c.nextSystick = 0 then
    ({ c with systick := c.systRvr, tickEvents := c.tickEvents + 1 }, true)
  else ({ c with systick := c.nextSystick }, false)

/-- Drive SysTick by one instruction; an underflow enters exception 15 from Thread mode. -/
def maybeTick : BusM Core := do
  let c ← c.refreshSyst
  if c.systCsr &&& 1 = 0 then pure c
  else if c.tickFrozen = true ∧ c.systick ≠ 1 then pure c
  else
    let (c, underflow) := c.countDown
    if underflow = true ∧ c.systCsr &&& 2 ≠ 0 ∧ c.mode = .thread ∧ c.primask = false then
      c.exceptionEntry 15
    else pure c

/-- Whether BASEPRI lets an IRQ through; its priority is read only while BASEPRI is in
force. -/
def passesBasepri (irq : Half) : BusM Bool :=
  if c.basepri = 0 then pure true
  else do
    let prio ← Prog.lift (BusCall.irqPrio irq)
    pure (decide (prio.setWidth 32 < c.basepri))

/-- PendSV, for when no IRQ is delivered. -/
def maybePendsv : BusM Core := do
  let pending ← Prog.lift BusCall.takePendsv
  if pending then c.exceptionEntry 14 else pure c

/-- Deliver an IRQ that BASEPRI lets through, else PendSV. -/
def deliver (irq : Half) : BusM Core := do
  let passes ← c.passesBasepri irq
  if passes then do
    Prog.lift (BusCall.clearPending irq)
    c.exceptionEntry (16 + irq.setWidth 32)
  else c.maybePendsv

/-- Deliver a pending interrupt, from Thread mode and unmasked. -/
def maybeInterrupt : BusM Core := do
  Prog.lift BusCall.collectIrqs
  if c.mode ≠ .thread ∨ c.primask = true ∨ c.faultmask = true then pure c
  else do
    let irq ← Prog.lift BusCall.nextIrq
    match irq with
    | some irq => c.deliver irq
    | none => c.maybePendsv

end Core

end SpEmu
