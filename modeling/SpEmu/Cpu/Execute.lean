import SpEmu.Cpu.Vfp
import SpEmu.Cpu.DecodeCache

/-!
# Executing an instruction

`Instruction.execute` decides whether the instruction sets the flags and runs its body, and
`Isa.bodies` are the bodies of the interpreter for a decoder and a floating-point unit.

WFI is where the run loops trade time: with the throttle on, an idle core turns a credited tick
into an armed countdown, waits for the other core, or skips to the next tick.
-/

set_option autoImplicit false

namespace SpEmu

open ByteMem

namespace Core

variable (c : Core)

/-- Nothing is pending under the throttle: a credit arms the countdown, a frozen clock waits, and
otherwise the countdown collapses. -/
def idle : Core :=
  if 0 < c.spTickCredit then { c with spTickCredit := c.spTickCredit - 1, systick := 1 }
  else if c.tickFrozen then { c with idleSkip := 1 }
  else { c with idleSkip := c.systick, systick := 1 }

/-- The throttle, while a countdown runs. -/
def throttle : BusM Core :=
  if c.wfiThrottle = true ∧ 1 < c.systick then do
    let pending ← Prog.lift BusCall.anyPendingIrq
    pure (if pending then c else c.idle)
  else pure c

/-- Note a genuine idle, whatever the throttle. -/
def waitForInterrupt : BusM Core := do
  let pending ← Prog.lift BusCall.anyPendingIrq
  (if pending then c else { c with wfiIdle := true }).throttle

/-- The state of an IT block from the operands of IT. -/
def setIt (firstcond mask : Word) : Core :=
  { c with
    itstate := ((firstcond &&& 0xF).setWidth 8 <<< 4) ||| (mask &&& 0xF).setWidth 8 }

/-- Halt at a breakpoint, which stays the next instruction. -/
def haltAt (pc : Word) : Core := { c with pc := pc, halted := true, bkptHit := true }

end Core

namespace Instruction

open Exec

variable (inst : Instruction)

def wfi : Exec Unit := ofCore fun c => c.waitForInterrupt

def it : Exec Unit := do
  let firstcond ← imm inst.op0
  let mask ← imm inst.op1
  modify fun c => c.setIt firstcond mask

/-- STM and LDM. -/
def multiple (raw len : Word) (store : Bool) : Exec Unit := do
  let (rn, wback) ← ofOption inst.op0.toRegwback
  let mask ← ofOption inst.op1.toReglist
  let (add, pre) := ldmStmMode raw len
  blockTransfer rn wback mask add pre store

/-! ## Branches -/

/-- CBZ and CBNZ. -/
def compareBranch (raw pc : Word) (taken : Word → Bool) : Exec Unit := do
  let v ← regVal inst.op0
  if taken v then modify fun c => { c with pc := cbzTarget raw pc }

def branch (pc len raw : Word) : Exec Unit := do
  let c ← get
  if c.condHolds inst.condition then modify fun c => { c with pc := thumbBranchTarget raw pc len }

def branchLink (pc len raw : Word) : Exec Unit :=
  modify fun c => { c.setR Core.lr ((pc + len) ||| 1) with pc := thumbBranchTarget raw pc len }

def blx (pc len : Word) : Exec Unit := do
  let t ← regVal inst.op0
  modify fun c => { c.setR Core.lr ((pc + len) ||| 1) with pc := t &&& ~~~1 }

def bx : Exec Unit := do
  let t ← regVal inst.op0
  branchTo t

/-- The base and the index register of a table branch. -/
def tableOperands : Option (Fin 16 × Fin 16) :=
  match inst.op0 with
  | .regDerefPreindexReg rn rm _ _ => some (rn, rm)
  | .regDerefPreindexRegShift rn (.regImm rm _ _) _ _ => some (rn, rm)
  | _ => none

/-- TBB, or TBH with halfword entries. -/
def tableBranch (w : Width) : Exec Unit := do
  let (rn, rm) ← ofOption inst.tableOperands
  let c ← get
  let base := if rn = 15 then c.curInsn + 4 else c.r rn
  let idx := c.r rm
  let offset ← Exec.read w (base + if w = .half then idx <<< 1 else idx)
  modify fun c => { c with pc := c.curInsn + 4 + (offset <<< 1) }

/-! ## System instructions -/

def mrs (raw : Word) : Exec Unit := do
  let c ← get
  writeReg (regField (raw >>> 24)) (c.readSpecial ((raw >>> 16).setWidth 8))

def msr (raw : Word) : Exec Unit := do
  let v ← readReg (regField raw)
  modify fun c => c.writeSpecial ((raw >>> 16).setWidth 8) v

def svc : Exec Unit := ofCore fun c => c.exceptionEntry 11

/-- With a debugger the core halts; without one a breakpoint is a fault. -/
def bkpt (pc : Word) : Exec Unit := do
  let c ← get
  if c.debugEn then modify fun c => c.haltAt pc else fail

/-! ## Dispatch -/

def body (pc len raw : Word) : Exec Unit :=
  match inst.opcode with
  | .nop | .dsb | .dmb | .isb | .yield | .wfe => pure ()
  | .wfi => wfi
  | .it => inst.it
  | .push => do stmdbRegs Core.sp (← ofOption inst.op0.toReglist) true
  | .pop => do ldmiaRegs Core.sp (← ofOption inst.op0.toReglist) true
  | .stm => inst.multiple raw len true
  | .ldm => inst.multiple raw len false
  | .mov => inst.mov
  | .movt => inst.movt
  | .mvn => inst.mvn
  | .add => inst.alu .add
  | .adc => inst.alu .adc
  | .sub => inst.alu .sub
  | .sbc => inst.alu .sbc
  | .rsb => inst.alu .rsb
  | .and => inst.alu .and
  | .orr => inst.alu .orr
  | .orn => inst.alu .orn
  | .eor => inst.alu .eor
  | .bic => inst.alu .bic
  | .lsl => inst.shiftOp .lsl
  | .lsr => inst.shiftOp .lsr
  | .asr => inst.shiftOp .asr
  | .ror => inst.shiftOp .ror
  | .rrx => inst.rrx
  | .cmp => inst.cmp
  | .cmn => inst.cmn
  | .tst => inst.tst
  | .teq => inst.teq
  | .uxtb => inst.extend 8 false false
  | .uxth => inst.extend 16 false false
  | .sxtb => inst.extend 8 true false
  | .sxth => inst.extend 16 true false
  | .uxtab => inst.extend 8 false true
  | .uxtah => inst.extend 16 false true
  | .sxtab => inst.extend 8 true true
  | .sxtah => inst.extend 16 true true
  | .uxtb16 => inst.extend16 false false
  | .sxtb16 => inst.extend16 true false
  | .uxtab16 => inst.extend16 false true
  | .sxtab16 => inst.extend16 true true
  | .mul => inst.mul
  | .mla => inst.mla
  | .mls => inst.mls
  | .umull => inst.umull
  | .smull => inst.smull
  | .umlal => inst.umlal
  | .smlal => inst.smlal
  | .umaal => inst.umaal
  | .udiv => inst.udiv
  | .sdiv => inst.sdiv
  | .smla nTop mTop => inst.smla nTop mTop
  | .clz => inst.clz
  | .rev => inst.rev
  | .rev16 => inst.rev16
  | .rbit => inst.rbit
  | .revsh => inst.revsh
  | .bfi => inst.bfi raw
  | .bfc => inst.bfc raw
  | .ubfx => inst.ubfx
  | .sbfx => inst.sbfx
  | .pkhbt | .pkhtb => pkh raw
  | .ldr | .ldrt => inst.load .word false raw len
  | .ldrb | .ldrbt => inst.load .byte false raw len
  | .ldrh | .ldrht => inst.load .half false raw len
  | .ldrsb | .ldrsbt => inst.load .byte true raw len
  | .ldrsh | .ldrsht => inst.load .half true raw len
  | .str | .strt => inst.store .word raw len
  | .strb | .strbt => inst.store .byte raw len
  | .strh | .strht => inst.store .half raw len
  | .ldrd => inst.loadDouble
  | .strd => inst.storeDouble
  | .ldrex => inst.loadExclusive .word
  | .ldrexb => inst.loadExclusive .byte
  | .ldrexh => inst.loadExclusive .half
  | .strex => inst.storeExclusive .word
  | .strexb => inst.storeExclusive .byte
  | .strexh => inst.storeExclusive .half
  | .ldaex | .ldaexb | .ldaexh | .stlex | .stlexb | .stlexh
  | .lda | .ldab | .ldah | .stl | .stlb | .stlh => tryV8m raw pc
  | .cbz => inst.compareBranch raw pc fun v => v == 0
  | .cbnz => inst.compareBranch raw pc fun v => v != 0
  | .b => inst.branch pc len raw
  | .bl => branchLink pc len raw
  | .blx => inst.blx pc len
  | .bx => inst.bx
  | .tbb => inst.tableBranch .byte
  | .tbh => inst.tableBranch .half
  | .mrs => mrs raw
  | .msr => msr raw
  | .cps disable => modify fun c => { c with primask := disable }
  | .svc => svc
  | .udf => fail
  | .bkpt => bkpt pc
  | .other => fail

/-- A 16-bit instruction in an IT block does not set the flags. -/
def setsFlags (len : Word) (c : Core) : Bool := inst.s && !(c.curInIt && len == 2)

def execute (pc len raw : Word) : Exec Unit := do
  modify fun c => { c with curSetflags := inst.setsFlags len c }
  inst.body pc len raw

/-! PUSH and POP, and STM and LDM, are block transfers. -/

theorem body_push {mask : Half} (hop : inst.opcode = .push)
    (hlist : inst.op0.toReglist = some mask) (pc len raw : Word) :
    inst.body pc len raw = stmdbRegs Core.sp mask true := by
  rw [body, hop]
  show (ofOption inst.op0.toReglist >>= fun mask => _) = _
  rw [hlist]
  rfl

theorem body_pop {mask : Half} (hop : inst.opcode = .pop)
    (hlist : inst.op0.toReglist = some mask) (pc len raw : Word) :
    inst.body pc len raw = ldmiaRegs Core.sp mask true := by
  rw [body, hop]
  show (ofOption inst.op0.toReglist >>= fun mask => _) = _
  rw [hlist]
  rfl

theorem multiple_eq {rn : Fin 16} {mask : Half} {add pre wback : Bool} {raw len : Word}
    (hbase : inst.op0.toRegwback = some (rn, wback)) (hlist : inst.op1.toReglist = some mask)
    (hmode : ldmStmMode raw len = (add, pre)) (isStore : Bool) :
    inst.multiple raw len isStore = blockTransfer rn wback mask add pre isStore := by
  rw [multiple, hbase, hlist]
  show blockTransfer rn wback mask (ldmStmMode raw len).1 (ldmStmMode raw len).2 isStore = _
  rw [hmode]

end Instruction

/-- The bodies of the interpreter. -/
def Isa.bodies (isa : Isa) : Bodies where
  execute inst pc len raw := inst.execute pc len raw
  fallback raw pc := Exec.fallback isa raw pc

end SpEmu
