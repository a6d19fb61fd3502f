import SpEmu.Cpu.Core

/-!
# Decoded instructions

The instruction decoder and the floating-point unit are the host's: `Isa` has them as
parameters. A decoder is any function of the four fetched bytes. The floating-point operations
work on bit patterns, and a sign change is the one operation that is not a parameter.

The fields that the source reads from the raw instruction word rather than from the decoded
operands are here too: branch targets, block-transfer modes and bit-field bounds.
-/

set_option autoImplicit false

namespace SpEmu

open ByteMem

inductive ShiftStyle where
  | lsl | lsr | asr | ror | rrx
  deriving DecidableEq, Repr

/-- A register shifted by an immediate or by a register. -/
inductive RegShift where
  | regImm (shiftee : Fin 16) (stype : ShiftStyle) (imm : Byte)
  | regReg (shiftee : Fin 16) (stype : ShiftStyle) (shifter : Fin 16)
  deriving DecidableEq, Repr

inductive Operand where
  | reg (r : Fin 16)
  | imm32 (i : Word)
  | imm12 (i : Half)
  | regShift (rs : RegShift)
  | regDeref (rn : Fin 16)
  | regDerefPreindexOffset (rn : Fin 16) (off : Half) (add wback : Bool)
  | regDerefPostindexOffset (rn : Fin 16) (off : Half) (add wback : Bool)
  | regDerefPreindexReg (rn rm : Fin 16) (add wback : Bool)
  | regDerefPreindexRegShift (rn : Fin 16) (rs : RegShift) (add wback : Bool)
  | regList (mask : Half)
  | regWBack (rn : Fin 16) (wback : Bool)
  | ror (amount : Byte)
  | nothing
  /-- An operand that no instruction body takes. -/
  | other
  deriving DecidableEq, Repr

inductive Opcode where
  | nop | dsb | dmb | isb | yield | wfe | wfi | it
  | push | pop | stm | ldm
  | mov | movt | mvn
  | add | adc | sub | sbc | rsb | and | orr | orn | eor | bic
  | lsl | lsr | asr | ror | rrx
  | cmp | cmn | tst | teq
  | uxtb | uxth | sxtb | sxth | uxtab | uxtah | sxtab | sxtah
  | uxtb16 | sxtb16 | uxtab16 | sxtab16
  | mul | mla | mls | umull | smull | umlal | smlal | umaal | udiv | sdiv
  | smla (nTop mTop : Bool)
  | clz | rev | rev16 | rbit | revsh
  | bfi | bfc | ubfx | sbfx | pkhbt | pkhtb
  | ldr | ldrb | ldrh | ldrsb | ldrsh | str | strb | strh | ldrd | strd
  | strbt | strht | strt | ldrbt | ldrht | ldrt | ldrsbt | ldrsht
  | ldrex | ldrexb | ldrexh | strex | strexb | strexh
  | ldaex | ldaexb | ldaexh | stlex | stlexb | stlexh | lda | ldab | ldah | stl | stlb | stlh
  | cbz | cbnz | b | bl | blx | bx | tbb | tbh
  | mrs | msr
  | cps (disable : Bool)
  | svc | udf | bkpt
  /-- An opcode that the interpreter does not implement. -/
  | other
  deriving DecidableEq, Repr

structure Instruction where
  opcode : Opcode
  condition : ConditionCode
  /-- The S bit of the encoding. -/
  s : Bool
  op0 : Operand
  op1 : Operand
  op2 : Operand
  op3 : Operand

namespace Operand

def toReg : Operand → Option (Fin 16)
  | .reg r => some r
  | _ => none

def immVal : Operand → Option Word
  | .imm32 i => some i
  | .imm12 i => some (i.setWidth 32)
  | _ => none

def toReglist : Operand → Option Half
  | .regList m => some m
  | _ => none

def toRegwback : Operand → Option (Fin 16 × Bool)
  | .regWBack r wb => some (r, wb)
  | _ => none

end Operand

/-- The optional rotation of the extend family. -/
def Instruction.rorAmount (inst : Instruction) : Word :=
  ([inst.op0, inst.op1, inst.op2, inst.op3].findSome? fun
    | .ror r => some (r.setWidth 32)
    | _ => none).getD 0

/-! ## The host's decoder and floating-point unit -/

/-- Arithmetic on the bit patterns of a floating-point format of `w` bits. -/
structure FloatOps (w : Nat) where
  add : BitVec w → BitVec w → BitVec w
  sub : BitVec w → BitVec w → BitVec w
  mul : BitVec w → BitVec w → BitVec w
  div : BitVec w → BitVec w → BitVec w
  sqrt : BitVec w → BitVec w
  isNan : BitVec w → Bool
  beq : BitVec w → BitVec w → Bool
  blt : BitVec w → BitVec w → Bool
  ofI32 : Word → BitVec w
  ofU32 : Word → BitVec w
  /-- Conversions that truncate and saturate. -/
  toI32 : BitVec w → Word
  toU32 : BitVec w → Word

namespace FloatOps

variable {w : Nat}

def neg (x : BitVec w) : BitVec w := x ^^^ ((1 : BitVec w) <<< (w - 1))

def abs (x : BitVec w) : BitVec w := x &&& ~~~((1 : BitVec w) <<< (w - 1))

end FloatOps

structure Isa where
  /-- The decoder: the instruction and its length, or an error. -/
  decode : Word → Option (Instruction × Word)
  f32 : FloatOps 32
  f64 : FloatOps 64

/-! ## Fields of the raw word -/

/-- The two halfwords of an instruction. -/
def hw1 (raw : Word) : Word := raw &&& 0xFFFF
def hw2 (raw : Word) : Word := (raw >>> 16) &&& 0xFFFF

/-- The register named by four bits of a word. -/
def regField (x : Word) : Fin 16 := Fin.ofNat 16 (x &&& 0xF).toNat

def thumbBranchTarget (raw pc len : Word) : Word :=
  let h1 := hw1 raw
  if len = 2 then
    if h1 &&& 0xF000 = 0xD000 then
      pc + 4 + (((h1 &&& 0xFF).setWidth 8).signExtend 32 <<< 1)
    else pc + 4 + (((h1 &&& 0x7FF) <<< 21).sshiftRight 21 <<< 1)
  else
    let h2 := hw2 raw
    let s := (h1 >>> 10) &&& 1
    let j1 := (h2 >>> 13) &&& 1
    let j2 := (h2 >>> 11) &&& 1
    let imm11 := h2 &&& 0x7FF
    if (h2 >>> 12) &&& 1 = 1 then
      let i1 := 1 - (j1 ^^^ s)
      let i2 := 1 - (j2 ^^^ s)
      let imm10 := h1 &&& 0x3FF
      let off := (s <<< 24) ||| (i1 <<< 23) ||| (i2 <<< 22) ||| (imm10 <<< 12) ||| (imm11 <<< 1)
      pc + 4 + (off <<< 7).sshiftRight 7
    else
      let imm6 := h1 &&& 0x3F
      let off := (s <<< 20) ||| (j2 <<< 19) ||| (j1 <<< 18) ||| (imm6 <<< 12) ||| (imm11 <<< 1)
      pc + 4 + (off <<< 11).sshiftRight 11

/-- CBZ and CBNZ branch forward. -/
def cbzTarget (raw pc : Word) : Word :=
  let h1 := hw1 raw
  let imm5 := (h1 >>> 3) &&& 0x1F
  let i := (h1 >>> 9) &&& 1
  pc + 4 + (((i <<< 5) ||| imm5) <<< 1)

/-- The addressing mode of a block transfer: increment, and before. -/
def ldmStmMode (raw len : Word) : Bool × Bool :=
  if len = 2 then (true, false) else ((raw >>> 7) &&& 1 != 0, (raw >>> 8) &&& 1 != 0)

def vfpExpandImm32 (imm8 : Word) : Word :=
  let sign := (imm8 >>> 7) &&& 1
  let b6 := (imm8 >>> 6) &&& 1
  let exp := ((1 - b6) <<< 7) ||| ((if b6 = 1 then (0x1F : Word) else 0) <<< 2) |||
    ((imm8 >>> 4) &&& 3)
  let frac := (imm8 &&& 0xF) <<< 19
  (sign <<< 31) ||| (exp <<< 23) ||| frac

/-- The lsb and the msb of a bit field. -/
def bfxLsbMsb (raw : Word) : Nat × Nat :=
  let h2 := raw >>> 16
  (((((h2 >>> 12) &&& 0x7) <<< 2) ||| ((h2 >>> 6) &&& 0x3)).toNat, (h2 &&& 0x1F).toNat)

/-- The mask of the bit field from `lsb` to `msb`; one bit when the bounds are reversed. -/
def bfxMask (lsb msb : Nat) : Word :=
  let width := msb - lsb + 1
  if 32 ≤ width then ~~~0 else (((1 : Word) <<< width) - 1) <<< lsb

/-! ## Shifts -/

/-- A shift with carry-out. RRX rotates by one bit whatever the amount. -/
def shiftC (v : Word) (style : ShiftStyle) (amt : Nat) (cin : Bool) : Word × Bool :=
  match style with
  | .rrx => (Core.flagBit cin 31 ||| (v >>> 1), v &&& 1 != 0)
  | .lsl =>
      if amt = 0 then (v, cin)
      else if amt < 32 then (v <<< amt, (v >>> (32 - amt)) &&& 1 != 0)
      else if amt = 32 then (0, v &&& 1 != 0)
      else (0, false)
  | .lsr =>
      if amt = 0 then (v, cin)
      else if amt < 32 then (v >>> amt, (v >>> (amt - 1)) &&& 1 != 0)
      else if amt = 32 then (0, (v >>> 31) &&& 1 != 0)
      else (0, false)
  | .asr =>
      if amt = 0 then (v, cin)
      else if amt < 32 then (v.sshiftRight amt, (v >>> (amt - 1)) &&& 1 != 0)
      else (v.sshiftRight 31, (v >>> 31) &&& 1 != 0)
  | .ror =>
      if amt = 0 then (v, cin)
      else if amt % 32 = 0 then (v, (v >>> 31) &&& 1 != 0)
      else
        let r := v.rotateRight (amt % 32)
        (r, (r >>> 31) &&& 1 != 0)

/-- A shift without its carry. -/
def doShift (v : Word) (style : ShiftStyle) (amt : Nat) (cin : Bool) : Word :=
  (shiftC v style amt cin).1

end SpEmu
