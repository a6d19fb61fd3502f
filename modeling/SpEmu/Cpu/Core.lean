import SpEmu.Lib.Bytes

/-!
# The registers of the core

`Core` is the execution state of the interpreter without its decode cache. The main and the
process stack pointer are banked: r13 is the active one, `msp` and `psp` keep the values, and
`spIsPsp` says which bank r13 stands for. Nothing writes the active bank back on a push or a
pop, so `msp` is the main stack pointer only while the core uses the other one; `currentMsp`
resolves it.
-/

set_option autoImplicit false

namespace SpEmu

open ByteMem

inductive Mode where
  | thread
  | handler
  deriving DecidableEq, Repr

/-- The resumable state of an in-flight boot-ROM call. -/
inductive RomCall where
  | idle
  /-- The verdict is computed; the call stays parked for `left` more steps. -/
  | settling (left isVerifiedPtr : Word) (ok : Bool)
  deriving DecidableEq, Repr

/-- A half-open range of program counters. -/
structure PcRange where
  lo : Word
  hi : Word

def PcRange.contains (r : PcRange) (pc : Word) : Bool := decide (r.lo ≤ pc) && decide (pc < r.hi)

inductive ConditionCode where
  | eq | ne | hs | lo | mi | pl | vs | vc | hi | ls | ge | lt | gt | le | al
  deriving DecidableEq, Repr

structure Core where
  /-- r0 to r12, the active stack pointer, LR; the last entry is unused. -/
  r : Table 16 Word
  pc : Word
  n : Bool
  z : Bool
  c : Bool
  v : Bool
  q : Bool
  mode : Mode
  /-- Bit 0 nPRIV, bit 1 SPSEL, bit 2 FPCA. -/
  control : Word
  primask : Bool
  basepri : Word
  faultmask : Bool
  ipsr : Word
  msp : Word
  psp : Word
  spIsPsp : Bool
  itstate : Byte
  /-- The single-precision registers; a double is a pair. -/
  s : Table 32 Word
  fpscr : Word
  /-- The address of the instruction being executed. -/
  curInsn : Word
  cycles : BitVec 64
  enteredTask : Bool
  /-- Corrupt return addresses dumped so far. -/
  badRetDumps : Word
  curInIt : Bool
  /-- Whether the current instruction sets the flags. -/
  curSetflags : Bool
  /-- The SysTick down-counter. -/
  systick : Word
  wfiThrottle : Bool
  idleSkip : Word
  tickEvents : BitVec 64
  spTickCredit : Word
  tickFrozen : Bool
  halted : Bool
  debugEn : Bool
  bkptHit : Bool
  romTraps : Bool
  romCall : RomCall
  /-- Cached SYST_CSR and SYST_RVR. -/
  systCsr : Word
  systRvr : Word
  /-- The executable windows; a stacked return address outside them is reported. -/
  codeRanges : List PcRange
  /-- The vector table while VTOR reads 0. -/
  vtorFallback : Word
  wfiIdle : Bool

namespace Core

/-- The indices of the stack pointer and of the link register. -/
def sp : Fin 16 := 13
def lr : Fin 16 := 14

/-- The SP's flash as code window, and its ITCM. -/
def spCodeRange : PcRange := ⟨0x08000000, 0x08200000⟩
def flashLo : Word := 0x08000000
def flashHi : Word := 0x0A000000
def itcmHi : Word := 0x00010000

/-- The core as it is built. -/
def new : Core where
  r := fun _ => 0
  pc := 0
  n := false
  z := false
  c := false
  v := false
  q := false
  mode := .thread
  control := 0
  primask := false
  basepri := 0
  faultmask := false
  ipsr := 0
  msp := 0
  psp := 0
  spIsPsp := false
  itstate := 0
  s := fun _ => 0
  fpscr := 0
  curInsn := 0
  cycles := 0
  enteredTask := false
  badRetDumps := 0
  curInIt := false
  curSetflags := false
  systick := 0
  wfiThrottle := false
  idleSkip := 0
  tickEvents := 0
  spTickCredit := 0
  tickFrozen := false
  halted := false
  debugEn := false
  bkptHit := false
  romTraps := false
  romCall := .idle
  systCsr := 0
  systRvr := 1
  codeRanges := [⟨0, itcmHi⟩, spCodeRange]
  vtorFallback := flashLo
  wfiIdle := false

variable (c : Core)

/-! ## Registers -/

/-- Set a general register; r13 sets the active stack pointer. -/
def setR (i : Fin 16) (v : Word) : Core := { c with r := Function.update c.r i v }

@[simp] theorem setR_same (i : Fin 16) (v : Word) : (c.setR i v).r i = v := by
  rw [setR]
  exact Function.update_self ..

theorem setR_of_ne {i j : Fin 16} (v : Word) (h : j ≠ i) : (c.setR i v).r j = c.r j := by
  rw [setR]
  exact Function.update_of_ne h ..

/-- The PC reads as the address of the instruction plus 4. -/
def readReg (i : Fin 16) : Word := if i = 15 then c.curInsn + 4 else c.r i

/-- A write to the PC branches. -/
def writeReg (i : Fin 16) (v : Word) : Core :=
  if i = 15 then { c with pc := v &&& ~~~1 } else c.setR i v

/-- The stack pointers, whichever is active. -/
def currentMsp : Word := if c.spIsPsp then c.msp else c.r sp
def currentPsp : Word := if c.spIsPsp then c.r sp else c.psp

/-- Whether an address lies in one of the executable windows. -/
def isCode (pc : Word) : Bool := c.codeRanges.any (·.contains pc)

/-! ## Flags -/

/-- A flag at its bit of a status word. -/
def flagBit (b : Bool) (k : Nat) : Word := (if b then (1 : Word) else 0) <<< k

/-- Whether bit `k` of a word is set. -/
def bitSet (x : Word) (k : Nat) : Bool := x &&& ((1 : Word) <<< k) != 0

/-- NZCVQ in the top bits. -/
def apsr : Word :=
  flagBit c.n 31 ||| flagBit c.z 30 ||| flagBit c.c 29 ||| flagBit c.v 28 ||| flagBit c.q 27

/-- xPSR as a debugger sees it. -/
def xpsr : Word := c.apsr ||| (c.ipsr &&& 0x1ff) ||| ((1 : Word) <<< 24)

/-- xPSR as it is stacked, with ITSTATE split over bits 15..10 and 26..25. -/
def buildXpsr : Word :=
  let itHi : Word := ((c.itstate >>> 2) &&& 0x3F).setWidth 32
  let itLo : Word := (c.itstate &&& 0x3).setWidth 32
  flagBit c.n 31 ||| flagBit c.z 30 ||| flagBit c.c 29 ||| flagBit c.v 28 ||| flagBit c.q 27 |||
    (itLo <<< 25) ||| ((1 : Word) <<< 24) ||| (itHi <<< 10) ||| (c.ipsr &&& 0x1ff)

/-- ITSTATE from a stacked xPSR. -/
def itstateFromXpsr (x : Word) : Byte :=
  ((((x >>> 10) &&& 0x3F) <<< 2) ||| ((x >>> 25) &&& 0x3)).setWidth 8

def setXpsrFlags (x : Word) : Core :=
  { c with
    n := bitSet x 31, z := bitSet x 30, c := bitSet x 29, v := bitSet x 28, q := bitSet x 27 }

def setNz (v : Word) : Core := { c with n := v.slt 0, z := v == 0 }

def flagsAdd (a b : Word) : Core :=
  let res := a + b
  { c.setNz res with
    c := BitVec.uaddOverflow a b
    v := (((a ^^^ ~~~b) &&& (a ^^^ res)) >>> 31) &&& 1 != 0 }

def flagsSub (a b : Word) : Core :=
  let res := a - b
  { c.setNz res with
    c := !BitVec.usubOverflow a b
    v := (((a ^^^ b) &&& (a ^^^ res)) >>> 31) &&& 1 != 0 }

/-! ## Conditions and IT blocks -/

def condHolds : ConditionCode → Bool
  | .al => true
  | .eq => c.z
  | .ne => !c.z
  | .hs => c.c
  | .lo => !c.c
  | .mi => c.n
  | .pl => !c.n
  | .vs => c.v
  | .vc => !c.v
  | .hi => c.c && !c.z
  | .ls => !c.c || c.z
  | .ge => c.n == c.v
  | .lt => c.n != c.v
  | .gt => !c.z && (c.n == c.v)
  | .le => c.z || (c.n != c.v)

/-- The condition of a four-bit field. -/
def condFromBits (b : Byte) : ConditionCode :=
  match (b &&& 0xF).toNat with
  | 0 => .eq
  | 1 => .ne
  | 2 => .hs
  | 3 => .lo
  | 4 => .mi
  | 5 => .pl
  | 6 => .vs
  | 7 => .vc
  | 8 => .hi
  | 9 => .ls
  | 10 => .ge
  | 11 => .lt
  | 12 => .gt
  | 13 => .le
  | _ => .al

def itAdvance : Core :=
  if c.itstate &&& 0b111 = 0 then { c with itstate := 0 }
  else { c with
    itstate := (c.itstate &&& 0b11100000) ||| ((c.itstate <<< 1) &&& 0b00011111) }

/-! ## Special registers -/

/-- CONTROL decides the active stack pointer in Thread mode; a switch saves the bank in use
and loads the other one. -/
def setControl (v : Word) : Core :=
  let wasPsp := c.spIsPsp
  let c := { c with control := v &&& 0x7 }
  let nowPsp := c.mode == .thread && bitSet c.control 1
  if wasPsp = nowPsp then c
  else
    let c := if wasPsp then { c with psp := c.r sp } else { c with msp := c.r sp }
    { c.setR sp (if nowPsp then c.psp else c.msp) with spIsPsp := nowPsp }

/-- Set MSP: its bank, and r13 while it is the active one. -/
def setMsp (v : Word) : Core :=
  let c := { c with msp := v }
  if c.spIsPsp then c else c.setR sp v

def setPsp (v : Word) : Core :=
  let c := { c with psp := v }
  if c.spIsPsp then c.setR sp v else c

/-- MRS; an encoding that is not modelled reads 0. -/
def readSpecial (sysm : Byte) : Word :=
  match sysm.toNat with
  | 0 | 1 | 2 | 3 => c.buildXpsr
  | 5 => c.ipsr
  | 8 => c.msp
  | 9 => c.psp
  | 16 => flagBit c.primask 0
  | 17 | 18 => c.basepri
  | 19 => flagBit c.faultmask 0
  | 20 => c.control
  | _ => 0

/-- MSR; an encoding that is not modelled ignores the write. -/
def writeSpecial (sysm : Byte) (v : Word) : Core :=
  match sysm.toNat with
  | 0 | 1 | 2 | 3 => c.setXpsrFlags v
  | 8 => c.setMsp v
  | 9 => c.setPsp v
  | 16 => { c with primask := bitSet v 0 }
  | 17 | 18 => { c with basepri := v &&& 0xff }
  | 19 => { c with faultmask := bitSet v 0 }
  | 20 => c.setControl v
  | _ => c

/-! ## The register file as a debugger numbers it -/

def gdbReg (n : Nat) : Word :=
  if h : n ≤ 14 then c.r ⟨n, by omega⟩
  else if n = 15 then c.pc
  else if n = 16 then c.xpsr
  else if n = 17 then c.currentMsp
  else if n = 18 then c.currentPsp
  else if n = 20 then
    flagBit c.primask 0 ||| (c.basepri <<< 8) ||| flagBit c.faultmask 16 ||| (c.control <<< 24)
  else if n = 33 then c.fpscr
  else if h : 64 ≤ n ∧ n ≤ 95 then c.s ⟨n - 64, by omega⟩
  else 0

def setGdbReg (n : Nat) (v : Word) : Core :=
  if h : n ≤ 14 then c.setR ⟨n, by omega⟩ v
  else if n = 15 then { c with pc := v &&& ~~~1 }
  else if n = 16 then { c.setXpsrFlags v with ipsr := v &&& 0x1ff }
  else if n = 17 then c.setMsp v
  else if n = 18 then c.setPsp v
  else if n = 20 then
    { c with
      primask := bitSet v 0
      basepri := (v >>> 8) &&& 0xff
      faultmask := bitSet v 16 }.setControl (v >>> 24)
  else if n = 33 then { c with fpscr := v }
  else if h : 64 ≤ n ∧ n ≤ 95 then { c with s := Function.update c.s ⟨n - 64, by omega⟩ v }
  else c

/-! ## Resets -/

def reset (sp pc : Word) : Core :=
  { c.setR Core.sp sp with msp := sp, spIsPsp := false, pc := pc, mode := .thread }

/-- A system reset of the core: SP and PC from the vector table and the execution state back
at its reset values. -/
def resetForReboot (sp pc : Word) : Core :=
  { c.reset sp pc with
    control := 0
    primask := false
    basepri := 0
    faultmask := false
    ipsr := 0
    itstate := 0
    psp := 0
    n := false
    z := false
    c := false
    v := false
    q := false
    systick := 0
    systCsr := 0
    systRvr := 0
    halted := false
    bkptHit := false }

/-- Instructions per SysTick, once a plausible reload is configured. -/
def tickDivisor : Option Word := if 1000 ≤ c.systRvr then some (c.systRvr + 1) else none

end Core

end SpEmu
