import SpEmu.Cpu.LoadStore

/-!
# Floating point

The floating-point instructions are decoded from the raw word: the loads and stores of the
extension registers, and data processing with the moves between core and extension registers. Any
of them marks the context as one with floating-point state (CONTROL.FPCA).

A double is a pair of single registers, the low word first.
-/

set_option autoImplicit false

namespace SpEmu

open ByteMem

namespace Core

variable (c : Core)

/-- Set an extension register. -/
def setS (i : Fin 32) (v : Word) : Core := { c with s := Function.update c.s i v }

/-- The extension register of a number, and the first of the pair of a double. -/
def sIndex (x : Nat) : Fin 32 := Fin.ofNat 32 x
def dIndex (x : Nat) : Fin 32 := Fin.ofNat 32 (x % 16 * 2)

def getD (i : Fin 32) : BitVec 64 := c.s (i + 1) ++ c.s i

def setD (i : Fin 32) (v : BitVec 64) : Core :=
  (c.setS i (v.setWidth 32)).setS (i + 1) ((v >>> 32).setWidth 32)

/-- The flags of a comparison, in FPSCR. -/
def fpCompare (ops : FloatOps 32) (a b : Word) : Core :=
  let nzcv : Word :=
    if ops.isNan a || ops.isNan b then flagBit true 29 ||| flagBit true 28
    else if ops.beq a b then flagBit true 30 ||| flagBit true 29
    else if ops.blt a b then flagBit true 31
    else flagBit true 29
  { c with fpscr := (c.fpscr &&& 0x0FFFFFFF) ||| nzcv }

/-- The flags of FPSCR, copied. -/
def flagsOfFpscr : Core :=
  { c with
    n := bitSet c.fpscr 31
    z := bitSet c.fpscr 30
    c := bitSet c.fpscr 29
    v := bitSet c.fpscr 28 }

/-- The arithmetic with three registers that all widths share: the result from the accumulator
and the operands. -/
def vfpArith {w : Nat} (ops : FloatOps w) (opc1 : Word) (op : Bool) (acc a b : BitVec w) :
    Option (BitVec w) :=
  match opc1.toNat with
  | 0b00 => some (if op then ops.sub acc (ops.mul a b) else ops.add acc (ops.mul a b))
  | 0b10 => some (if op then FloatOps.neg (ops.mul a b) else ops.mul a b)
  | 0b11 => some (if op then ops.sub a b else ops.add a b)
  | _ => none

/-- Double precision: VMLA, VMUL, VADD and their kin, VDIV, VMOV and VABS. -/
def vfpDouble (isa : Isa) (h1 h2 : Word) : Core :=
  let number := fun (x : Word) (b : Bool) =>
    dIndex (((flagBit b 4 ||| (x &&& 0xF)) : Word).toNat)
  let opc1 := (h1 >>> 4) &&& 3
  let vn := h1 &&& 0xF
  let op := bitSet h2 6
  let dd := number (h2 >>> 12) (bitSet h1 6)
  let a := c.getD (number h1 (bitSet h2 7))
  let b := c.getD (number h2 (bitSet h2 5))
  if bitSet h1 7 = false then
    c.setD dd ((vfpArith isa.f64 opc1 op (c.getD dd) a b).getD a)
  else if opc1 = 0 then c.setD dd (isa.f64.div a b)
  else if opc1 = 3 ∧ vn = 0 then c.setD dd (if op then FloatOps.abs b else b)
  else c

/-- Single precision, the forms with one operand, by the field `vn`. -/
def vfpUnary (isa : Isa) (vn : Word) (op : Bool) (sd sm : Fin 32) : Core :=
  match vn.toNat with
  | 0b0000 => c.setS sd (if op then FloatOps.abs (c.s sm) else c.s sm)
  | 0b0001 => c.setS sd (if op then isa.f32.sqrt (c.s sm) else FloatOps.neg (c.s sm))
  | 0b0100 => c.fpCompare isa.f32 (c.s sd) (c.s sm)
  | 0b0101 => c.fpCompare isa.f32 (c.s sd) 0
  | 0b1000 => c.setS sd (if op then isa.f32.ofI32 (c.s sm) else isa.f32.ofU32 (c.s sm))
  | 0b1100 => c.setS sd (isa.f32.toU32 (c.s sm))
  | 0b1101 => c.setS sd (isa.f32.toI32 (c.s sm))
  | _ => c

/-- Single precision. -/
def vfpSingle (isa : Isa) (h1 h2 : Word) : Core :=
  let number := fun (x : Word) (b : Bool) =>
    sIndex ((((x &&& 0xF) <<< 1) ||| flagBit b 0 : Word).toNat)
  let opc1 := (h1 >>> 4) &&& 3
  let vn := h1 &&& 0xF
  let op := bitSet h2 6
  let sd := number (h2 >>> 12) (bitSet h1 6)
  let sm := number h2 (bitSet h2 5)
  let a := c.s (number h1 (bitSet h2 7))
  let b := c.s sm
  let acc := c.s sd
  if bitSet h1 7 = false then
    -- VNMLS and VNMLA exist in single precision only
    if opc1 = 1 then
      c.setS sd (isa.f32.sub (if op then FloatOps.neg (isa.f32.mul a b) else isa.f32.mul a b) acc)
    else c.setS sd ((vfpArith isa.f32 opc1 op acc a b).getD a)
  else if opc1 = 0 then c.setS sd (isa.f32.div a b)
  else if opc1 = 3 then
    if h2 &&& 0xF0 = 0 then c.setS sd (vfpExpandImm32 (((h1 &&& 0xF) <<< 4) ||| (h2 &&& 0xF)))
    else c.vfpUnary isa vn op sd sm
  else c

/-- Data processing, and the moves between the core and FPSCR or a single register. -/
def execVfpDp (isa : Isa) (h1 h2 : Word) : Core :=
  let rt := regField (h2 >>> 12)
  if h1 = 0xEEF1 ∧ h2 &&& 0x0E00 = 0x0A00 ∧ h2 &&& 0x00F0 = 0x0010 then
    if rt = 15 then c.flagsOfFpscr else c.setR rt c.fpscr
  else if h1 = 0xEEE1 ∧ h2 &&& 0x0E00 = 0x0A00 then { c with fpscr := c.r rt }
  else if h1 &&& 0xFFE0 = 0xEE00 ∧ h2 &&& 0x0F7F = 0x0A10 then
    let sn := sIndex ((((h1 &&& 0xF) <<< 1) ||| ((h2 >>> 7) &&& 1)).toNat)
    if bitSet h1 4 then c.setR rt (c.s sn) else c.setS sn (c.r rt)
  else if bitSet h2 8 then c.vfpDouble isa h1 h2
  else c.vfpSingle isa h1 h2

/-- Executing floating point marks the context. -/
def markFpca : Core := { c with control := c.control ||| 4 }

end Core

namespace Exec

/-- Load or store a single register, by its number. -/
def transferSingle (load : Bool) (x : Nat) (addr : Word) : Exec Unit :=
  let i := Core.sIndex x
  if load then do
    let v ← Exec.read .word addr
    modify fun c => c.setS i v
  else do
    let c ← get
    Exec.write .word addr (c.s i)

/-- Load or store a double register: its words one after the other. -/
def transferDouble (load : Bool) (x : Nat) (addr : Word) : Exec Unit := do
  let i := Core.dIndex x
  transferSingle load i.val addr
  transferSingle load (i.val + 1) (addr + 4)

def transferExt (load single : Bool) (x : Nat) (addr : Word) : Exec Unit :=
  if single then transferSingle load x addr else transferDouble load x addr

/-- Load or store `count` extension registers from number `first` on. -/
def transferExts (load single : Bool) : (count first : Nat) → Word → Exec Unit
  | 0, _, _ => pure ()
  | count + 1, first, addr => do
      transferExt load single first addr
      transferExts load single count (first + 1) (addr + if single then 4 else 8)

/-- VLDR and VSTR, or the block transfers. -/
def vfpTransfer (h1 h2 : Word) : Exec Unit := do
  let u := Core.bitSet h1 7
  let w := Core.bitSet h1 5
  let load := Core.bitSet h1 4
  let d : Word := (h1 >>> 6) &&& 1
  let rn := regField h1
  let vd := (h2 >>> 12) &&& 0xF
  let single := !Core.bitSet h2 8
  let imm8 := h2 &&& 0xFF
  let number := (if single then (vd <<< 1) ||| d else (d <<< 4) ||| vd).toNat
  let c ← get
  if Core.bitSet h1 8 && !w then
    transferExt load single number (Core.offset (c.baseOrPc rn) (imm8 <<< 2) u)
  else
    let count := if single then imm8.toNat else imm8.toNat / 2
    let total := BitVec.ofNat 32 ((if single then 4 else 8) * count)
    let base := c.r rn
    transferExts load single count number (if u then base else base - total)
    onlyIf w (writeR rn (Core.offset base total u))

/-- The floating-point encodings, from the raw word; it fails on any other. -/
def execVfp (isa : Isa) (raw : Word) : Exec Unit :=
  let h1 := hw1 raw
  let h2 := hw2 raw
  if h1 >>> 9 = 0b1110110 then do
    modify fun c => c.markFpca
    vfpTransfer h1 h2
  else if h1 &&& 0xFF00 = 0xEE00 ∧ h2 &&& 0x0E00 = 0x0A00 then do
    modify fun c => c.markFpca
    modify fun c => c.execVfpDp isa h1 h2
  else fail

def tryVfp (isa : Isa) (raw pc : Word) : Exec Unit := do
  execVfp isa raw
  modify fun c => { c with pc := pc + 4 }

/-- What the decoder does not know: a load-acquire or store-release, or floating point. -/
def fallback (isa : Isa) (raw pc : Word) : Exec Unit := fun c =>
  (tryV8m raw pc c).bind fun
    | (some (), c) => .ret (some (), c)
    | (none, c) => tryVfp isa raw pc c

end Exec

end SpEmu
