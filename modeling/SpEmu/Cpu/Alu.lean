import SpEmu.Cpu.Exec

/-!
# Data processing

The bodies of the instructions that compute on registers: the ALU with a shifted operand, the
shifts, the extends, the multiplies, the divisions and the bit fields. None makes a bus access.

Whether an instruction sets the flags is `curSetflags`, which `execute` sets before it runs a
body.
-/

set_option autoImplicit false

namespace SpEmu

open ByteMem

inductive Alu where
  | add | adc | sub | sbc | rsb | and | orr | orn | eor | bic
  deriving DecidableEq, Repr

/-- The result of an ALU operation with the carry flag `cin`. -/
def Alu.result (op : Alu) (a b : Word) (cin : Bool) : Word :=
  match op with
  | .add => a + b
  | .sub => a - b
  | .rsb => b - a
  | .adc => a + b + Core.flagBit cin 0
  | .sbc => a - b - (1 - Core.flagBit cin 0)
  | .and => a &&& b
  | .orr => a ||| b
  | .orn => a ||| ~~~b
  | .eor => a ^^^ b
  | .bic => a &&& ~~~b

namespace Core

variable (c : Core)

/-- The value of a register, immediate or shifted-register operand. -/
def opval : Operand → Option Word
  | .reg r => some (c.readReg r)
  | .imm32 i => some i
  | .imm12 i => some (i.setWidth 32)
  | .regShift (.regImm rm stype imm) => some (doShift (c.readReg rm) stype imm.toNat c.c)
  | .regShift (.regReg rm stype rs) =>
      some (doShift (c.readReg rm) stype (c.readReg rs &&& 0xff).toNat c.c)
  | _ => none

/-- The flags of a sum in two steps, with the overflow rule of an addition of `a` and `b`. -/
def flagsChained (a b : Word) : Core :=
  let cin := flagBit c.c 0
  let r1 := a + b
  let r2 := r1 + cin
  { c.setNz r2 with
    c := BitVec.uaddOverflow a b || BitVec.uaddOverflow r1 cin
    v := (((a ^^^ ~~~b) &&& (a ^^^ r2)) >>> 31) &&& 1 != 0 }

/-- The flags of an ALU operation. SBC adds the complement, and the logical operations set N and
Z only. -/
def aluFlags (op : Alu) (a b res : Word) : Core :=
  match op with
  | .add => c.flagsAdd a b
  | .adc => c.flagsChained a b
  | .sub => c.flagsSub a b
  | .rsb => c.flagsSub b a
  | .sbc =>
      let cin := flagBit c.c 0
      let r1 := a + ~~~b
      let r2 := r1 + cin
      { c.setNz r2 with
        c := BitVec.uaddOverflow a (~~~b) || BitVec.uaddOverflow r1 cin
        v := (((a ^^^ b) &&& (a ^^^ r2)) >>> 31) &&& 1 != 0 }
  | _ => c.setNz res

end Core

namespace Exec

def reg (op : Operand) : Exec (Fin 16) := ofOption op.toReg

def imm (op : Operand) : Exec Word := ofOption op.immVal

/-- Read what there is to read from the core. -/
def query {α : Type} (f : Core → Option α) : Exec α := fun c => .ret (f c, c)

def opval (op : Operand) : Exec Word := query fun c => c.opval op

/-- A register operand, read. -/
def regVal (op : Operand) : Exec Word := do readReg (← reg op)

/-- Write a register operand. -/
def setReg (op : Operand) (v : Word) : Exec Unit := do writeReg (← reg op) v

/-- Run a body under a condition. -/
def onlyIf (b : Bool) (x : Exec Unit) : Exec Unit := if b then x else pure ()

/-- Run an update where the current instruction sets the flags. -/
def whenSetflags (f : Core → Core) : Exec Unit :=
  modify fun c => if c.curSetflags then f c else c

end Exec

namespace Instruction

open Exec

variable (inst : Instruction)

/-- The destination and the operands of an ALU instruction. With two operands the destination is
the first one; the PC reads word-aligned. -/
def aluOperands (c : Core) : Option (Fin 16 × Word × Word) := do
  let rd ← inst.op0.toReg
  if inst.op2 = .nothing then
    let b ← c.opval inst.op1
    some (rd, c.readReg rd, b)
  else
    let rn ← inst.op1.toReg
    let a := c.readReg rn
    let b ← c.opval inst.op2
    some (rd, if rn = 15 then a &&& ~~~3 else a, b)

def alu (op : Alu) : Exec Unit := do
  let (rd, a, b) ← query inst.aluOperands
  let c ← get
  let res := op.result a b c.c
  writeReg rd res
  whenSetflags fun c => c.aluFlags op a b res

/-- What a shift instruction shifts. -/
def shiftee (rd : Fin 16) : Exec Word :=
  if inst.op2 = .nothing then readReg rd else regVal inst.op1

def shiftOp (style : ShiftStyle) : Exec Unit := do
  let rd ← reg inst.op0
  let rm ← inst.shiftee rd
  let amt ← Exec.opval (if inst.op2 = .nothing then inst.op1 else inst.op2)
  let c ← get
  let r := shiftC rm style (amt &&& 0xff).toNat c.c
  writeReg rd r.1
  whenSetflags fun c => { c.setNz r.1 with c := r.2 }

/-! ## Moves, comparisons and tests -/

/-- The destination and the operand of a move. -/
def moveOperands (c : Core) : Option (Fin 16 × Word) := do
  let rd ← inst.op0.toReg
  let val ← c.opval inst.op1
  some (rd, val)

/-- MOV and MVN. -/
def move (f : Word → Word) : Exec Unit := do
  let (rd, val) ← query inst.moveOperands
  writeReg rd (f val)
  whenSetflags fun c => c.setNz (f val)

def mov : Exec Unit := inst.move fun val => val
def mvn : Exec Unit := inst.move fun val => ~~~val

def movt : Exec Unit := do
  let rd ← reg inst.op0
  let imm16 ← Exec.opval inst.op1
  let cur ← readReg rd
  writeReg rd ((cur &&& 0xffff) ||| (imm16 <<< 16))

/-- The operands of a comparison or a test. -/
def compareOperands (c : Core) : Option (Word × Word) := do
  let rn ← inst.op0.toReg
  let b ← c.opval inst.op1
  some (c.readReg rn, b)

/-- CMP, CMN, TST and TEQ set flags from a register and an operand, and nothing else. -/
def compare (flags : Core → Word → Word → Core) : Exec Unit := do
  let (a, b) ← query inst.compareOperands
  modify fun c => flags c a b

def cmp : Exec Unit := inst.compare fun c a b => c.flagsSub a b
def cmn : Exec Unit := inst.compare fun c a b => c.flagsAdd a b
def tst : Exec Unit := inst.compare fun c a b => c.setNz (a &&& b)
def teq : Exec Unit := inst.compare fun c a b => c.setNz (a ^^^ b)

def rrx : Exec Unit := do
  let rd ← reg inst.op0
  let v ← regVal inst.op1
  let c ← get
  let res := Core.flagBit c.c 31 ||| (v >>> 1)
  writeReg rd res
  whenSetflags fun c => { c.setNz res with c := v &&& 1 != 0 }

/-! ## Extends -/

/-- The register that the extend-and-add forms add to. -/
def extendAcc (add : Bool) : Exec Word := if add then regVal inst.op1 else pure 0

/-- That register, and the operand that is extended, rotated if the instruction says so. -/
def extendOperands (add : Bool) : Exec (Word × Word) := do
  let acc ← inst.extendAcc add
  let v ← Exec.opval (if add then inst.op2 else inst.op1)
  let rot := inst.rorAmount
  pure (acc, if rot = 0 then v else v.rotateRight rot.toNat)

def extend (bits : Nat) (signed add : Bool) : Exec Unit := do
  let rd ← reg inst.op0
  let (acc, v) ← inst.extendOperands add
  let masked := v &&& (((1 : Word) <<< bits) - 1)
  let m := (1 : Word) <<< (bits - 1)
  writeReg rd (acc + if signed then (masked ^^^ m) - m else masked)

/-- The two byte lanes, each added to its halfword of the register. -/
def extend16 (signed add : Bool) : Exec Unit := do
  let rd ← reg inst.op0
  let (acc, v) ← inst.extendOperands add
  let ext := fun b : Word =>
    if signed then ((b.setWidth 8).signExtend 32) &&& 0xFFFF else b &&& 0xFF
  let lo := (ext (v &&& 0xFF) + (acc &&& 0xFFFF)) &&& 0xFFFF
  let hi := (ext ((v >>> 16) &&& 0xFF) + ((acc >>> 16) &&& 0xFFFF)) &&& 0xFFFF
  writeReg rd ((hi <<< 16) ||| lo)

/-! ## Multiplies and divisions -/

def mul : Exec Unit := do
  let a ← regVal inst.op1
  let b ← regVal inst.op2
  setReg inst.op0 (a * b)
  whenSetflags fun c => c.setNz (a * b)

/-- Rd from Rn, Rm and Ra. -/
def mulAcc (f : Word → Word → Word → Word) : Exec Unit := do
  let a ← regVal inst.op1
  let b ← regVal inst.op2
  let c ← regVal inst.op3
  setReg inst.op0 (f a b c)

def mla : Exec Unit := inst.mulAcc fun a b c => a * b + c
def mls : Exec Unit := inst.mulAcc fun a b c => c - a * b

/-- SMLABB and its kin: the halfwords of Rn and Rm that the opcode selects, signed. -/
def smla (nTop mTop : Bool) : Exec Unit :=
  let sel := fun (v : Word) (top : Bool) =>
    ((if top then v >>> 16 else v).setWidth 16).signExtend 32
  inst.mulAcc fun a b c => sel a nTop * sel b mTop + c

/-- RdLo and RdHi as the two halves of a double word. -/
def setLong (p : BitVec 64) : Exec Unit := do
  setReg inst.op0 (p.setWidth 32)
  setReg inst.op1 ((p >>> 32).setWidth 32)

def mulLong (f : Word → Word → BitVec 64) : Exec Unit := do
  let a ← regVal inst.op2
  let b ← regVal inst.op3
  inst.setLong (f a b)

/-- The forms that add to what RdLo and RdHi hold. -/
def mulLongAcc (f : (rn rm hi lo : Word) → BitVec 64) : Exec Unit := do
  let a ← regVal inst.op2
  let b ← regVal inst.op3
  let hi ← regVal inst.op1
  let lo ← regVal inst.op0
  inst.setLong (f a b hi lo)

def umull : Exec Unit := inst.mulLong fun rn rm => rn.setWidth 64 * rm.setWidth 64
def smull : Exec Unit := inst.mulLong fun rn rm => rn.signExtend 64 * rm.signExtend 64
def umlal : Exec Unit := inst.mulLongAcc fun rn rm hi lo =>
  (hi ++ lo : BitVec 64) + rn.setWidth 64 * rm.setWidth 64
def smlal : Exec Unit := inst.mulLongAcc fun rn rm hi lo =>
  (hi ++ lo : BitVec 64) + rn.signExtend 64 * rm.signExtend 64
def umaal : Exec Unit := inst.mulLongAcc fun rn rm hi lo =>
  rn.setWidth 64 * rm.setWidth 64 + lo.setWidth 64 + hi.setWidth 64

/-- Rd from Rn and Rm. -/
def binary (f : Word → Word → Word) : Exec Unit := do
  let a ← regVal inst.op1
  let b ← regVal inst.op2
  setReg inst.op0 (f a b)

def udiv : Exec Unit := inst.binary fun a b => if b = 0 then 0 else a / b
def sdiv : Exec Unit := inst.binary fun a b => if b = 0 then 0 else a.sdiv b

/-! ## Bits and bytes of one register -/

/-- Rd from Rm. -/
def unary (f : Word → Word) : Exec Unit := do
  let v ← regVal inst.op1
  setReg inst.op0 (f v)

def clz : Exec Unit := inst.unary fun v => v.clz
def rev : Exec Unit := inst.unary fun v =>
  ((v &&& 0xff) <<< 24) ||| (((v >>> 8) &&& 0xff) <<< 16) ||| (((v >>> 16) &&& 0xff) <<< 8) |||
    (v >>> 24)
def rev16 : Exec Unit := inst.unary fun v =>
  ((v &&& 0xff) <<< 8) ||| ((v >>> 8) &&& 0xff) ||| ((v &&& 0xff0000) <<< 8) |||
    ((v >>> 8) &&& 0xff0000)
def rbit : Exec Unit := inst.unary fun v => v.reverse
def revsh : Exec Unit := inst.unary fun v =>
  ((((v &&& 0xff) <<< 8) ||| ((v >>> 8) &&& 0xff)).setWidth 16).signExtend 32

/-! ## Bit fields -/

def bfi (raw : Word) : Exec Unit := do
  let rd ← reg inst.op0
  let rn ← regVal inst.op1
  let (lsb, msb) := bfxLsbMsb raw
  let mask := bfxMask lsb msb
  let cur ← readReg rd
  writeReg rd ((cur &&& ~~~mask) ||| ((rn <<< lsb) &&& mask))

def bfc (raw : Word) : Exec Unit := do
  let rd ← reg inst.op0
  let (lsb, msb) := bfxLsbMsb raw
  let cur ← readReg rd
  writeReg rd (cur &&& ~~~bfxMask lsb msb)

/-- The register, the low bit and the width of a bit field to extract. A shift takes its amount
modulo 32. -/
def bfxOperands : Exec (Word × Nat × Word) := do
  let rn ← regVal inst.op1
  let lsb ← imm inst.op2
  let width ← imm inst.op3
  pure (rn, lsb.toNat % 32, width)

def ubfx : Exec Unit := do
  let (rn, lsb, width) ← inst.bfxOperands
  let mask := if 32 ≤ width then ~~~(0 : Word) else ((1 : Word) <<< width.toNat) - 1
  setReg inst.op0 ((rn >>> lsb) &&& mask)

def sbfx : Exec Unit := do
  let (rn, lsb, width) ← inst.bfxOperands
  let shifted := rn >>> lsb
  let m := (1 : Word) <<< ((width - 1).toNat % 32)
  setReg inst.op0 (if 32 ≤ width then shifted
    else ((shifted &&& (((1 : Word) <<< width.toNat) - 1)) ^^^ m) - m)

/-- PKHBT and PKHTB, from the raw word. -/
def pkh (raw : Word) : Exec Unit := do
  let h2 := hw2 raw
  let shift := ((((h2 >>> 12) &&& 0x7) <<< 2) ||| ((h2 >>> 6) &&& 0x3)).toNat
  let vn ← readReg (regField (hw1 raw))
  let vm ← readReg (regField h2)
  writeReg (regField (h2 >>> 8)) <|
    if (h2 >>> 5) &&& 1 = 0 then (vn &&& 0x0000FFFF) ||| ((vm <<< (shift % 32)) &&& 0xFFFF0000)
    else (vn &&& 0xFFFF0000) |||
      (vm.sshiftRight (min (if shift = 0 then 32 else shift) 31) &&& 0x0000FFFF)

end Instruction

end SpEmu
