import SpEmu.Cpu.Alu
import SpEmu.Cpu.Exceptions

/-!
# Loads and stores

The effective address comes from the decoded operand for the 16-bit encodings and from the raw
word for the 32-bit ones; both write the base register back where the encoding says so. A load
into the PC is a branch, which an EXC_RETURN value makes an exception return.

The base register is read without the rule for the PC, except where an addressing mode names it.
-/

set_option autoImplicit false

namespace SpEmu

open ByteMem

/-- A loaded value, sign-extended from the width of the access. -/
def loadExtend (w : Width) (signed : Bool) (v : Word) : Word :=
  match signed, w with
  | true, .byte => (v.setWidth 8).signExtend 32
  | true, .half => (v.setWidth 16).signExtend 32
  | _, _ => v

namespace Core

variable (c : Core)

/-- The PC of the current instruction plus 4, word-aligned. -/
def pcBase : Word := (c.curInsn + 4) &&& ~~~3

/-- The base of an addressing mode that takes the PC. -/
def baseOrPc (rn : Fin 16) : Word := if rn = 15 then c.pcBase else c.r rn

/-- An offset added to or subtracted from a base. -/
def offset (base off : Word) (add : Bool) : Word := if add then base + off else base - off

/-- Write a base register back; the PC is none. -/
def writeBack (rn : Fin 16) (wback : Bool) (ea : Word) : Core :=
  if wback = true ∧ rn ≠ 15 then c.setR rn ea else c

/-- The index register of a memory operand, shifted. -/
def shiftedIndex : RegShift → Word
  | .regImm rm stype imm => doShift (c.r rm) stype imm.toNat c.c
  | .regReg rm stype rs => doShift (c.r rm) stype (c.r rs &&& 0xff).toNat c.c

/-- The effective address of a memory operand, and the core with its base written back. -/
def memAddr : Operand → Option (Word × Core)
  | .regDeref rn => some (c.r rn, c)
  | .regDerefPreindexOffset rn off add wback =>
      let ea := offset (c.baseOrPc rn) (off.setWidth 32) add
      some (ea, c.writeBack rn wback ea)
  | .regDerefPostindexOffset rn off add _ =>
      some (c.r rn, c.setR rn (offset (c.r rn) (off.setWidth 32) add))
  | .regDerefPreindexReg rn rm add wback =>
      let ea := offset (c.baseOrPc rn) (c.r rm) add
      some (ea, c.writeBack rn wback ea)
  | .regDerefPreindexRegShift rn rs add wback =>
      let ea := offset (c.baseOrPc rn) (c.shiftedIndex rs) add
      some (ea, c.writeBack rn wback ea)
  | _ => none

/-- The effective address of a 32-bit single load or store, from the raw word: a positive 12-bit
immediate, an 8-bit one with index and write-back bits, or a shifted register. The PC takes the
literal form. -/
def memAddr32 (raw : Word) : Word × Core :=
  let h2 := hw2 raw
  let rn := regField (hw1 raw)
  let up := bitSet (hw1 raw) 7
  if rn = 15 then (offset c.pcBase (h2 &&& 0xFFF) up, c)
  else
    let base := c.r rn
    if up then (base + (h2 &&& 0xFFF), c)
    else if bitSet h2 11 then
      let offAddr := offset base (h2 &&& 0xFF) (bitSet h2 9)
      let p := bitSet h2 10
      (if p then offAddr else base, if bitSet h2 8 || !p then c.setR rn offAddr else c)
    else (base + (c.r (regField h2) <<< ((h2 >>> 4) &&& 3).toNat), c)

end Core

namespace Exec

/-- Compute an effective address. -/
def memAddr (op : Operand) : Exec Word := fun c =>
  match c.memAddr op with
  | some (ea, c) => .ret (some ea, c)
  | none => .ret (none, c)

def memAddr32 (raw : Word) : Exec Word := fun c =>
  .ret (some (c.memAddr32 raw).1, (c.memAddr32 raw).2)

/-- A branch to a value that came from memory or a register. -/
def branchTo (t : Word) : Exec Unit := ofCore fun c => c.branchTo t

/-- An array register, without the rule for the PC. -/
def readR (i : Fin 16) : Exec Word := fun c => .ret (some (c.r i), c)

def writeR (i : Fin 16) (v : Word) : Exec Unit := modify fun c => c.setR i v

end Exec

namespace Instruction

open Exec

variable (inst : Instruction)

/-- The address of a single load or store. -/
def singleAddr (raw len : Word) : Exec Word :=
  if len = 4 then Exec.memAddr32 raw else Exec.memAddr inst.op1

def load (w : Width) (signed : Bool) (raw len : Word) : Exec Unit := do
  let rt ← reg inst.op0
  let addr ← inst.singleAddr raw len
  let rv ← Exec.read w addr
  let val := loadExtend w signed rv
  if rt = 15 then Exec.branchTo val else writeReg rt val

def store (w : Width) (raw len : Word) : Exec Unit := do
  let rt ← reg inst.op0
  let addr ← inst.singleAddr raw len
  let v ← readReg rt
  Exec.write w addr v

def loadDouble : Exec Unit := do
  let rt ← reg inst.op0
  let rt2 ← reg inst.op1
  let addr ← Exec.memAddr inst.op2
  let a ← Exec.read .word addr
  let b ← Exec.read .word (addr + 4)
  writeReg rt a
  writeReg rt2 b

def storeDouble : Exec Unit := do
  let rt ← reg inst.op0
  let rt2 ← reg inst.op1
  let addr ← Exec.memAddr inst.op2
  let a ← readReg rt
  Exec.write .word addr a
  let b ← readReg rt2
  Exec.write .word (addr + 4) b

/-- An exclusive load is a plain one. -/
def loadExclusive (w : Width) : Exec Unit := do
  let addr ← Exec.memAddr inst.op1
  let v ← Exec.read w addr
  setReg inst.op0 v

/-- An exclusive store always succeeds. -/
def storeExclusive (w : Width) : Exec Unit := do
  let addr ← Exec.memAddr inst.op2
  let v ← regVal inst.op1
  Exec.write w addr v
  setReg inst.op0 0

end Instruction

namespace Exec

/-! ## Block transfers -/

/-- The registers of a mask, in order. -/
def maskRegs (mask : Half) : List (Fin 16) :=
  (List.finRange 16).filter fun i => mask.getLsbD i.val

/-- The registers of a block transfer one after the other; a loaded PC is the result. -/
def transferRegs (store : Bool) : List (Fin 16) → Word → Exec (Option Word)
  | [], _ => pure none
  | i :: is, addr => do
      if store then
        let v ← readReg i
        Exec.write .word addr v
        transferRegs store is (addr + 4)
      else
        let v ← Exec.read .word addr
        if i = 15 then
          let _ ← transferRegs store is (addr + 4)
          pure (some v)
        else
          writeR i v
          transferRegs store is (addr + 4)

/-- The lowest address of a block transfer. -/
def blockStart (base : Word) (count : Nat) (add pre : Bool) : Word :=
  match add, pre with
  | true, false => base
  | true, true => base + 4
  | false, true => base - BitVec.ofNat 32 (4 * count)
  | false, false => base - BitVec.ofNat 32 (4 * count) + 4

/-- Load or store several registers. The PC is loaded last, after the base is written back: an
exception return switches the stack pointer. -/
def blockTransfer (rn : Fin 16) (wback : Bool) (mask : Half) (add pre store : Bool) :
    Exec Unit := do
  let regs := maskRegs mask
  let base ← readR rn
  let pc ← transferRegs store regs (blockStart base regs.length add pre)
  onlyIf wback (writeR rn (Core.offset base (BitVec.ofNat 32 (4 * regs.length)) add))
  match pc with
  | some v => branchTo v
  | none => pure ()

/-- PUSH and POP. -/
def stmdbRegs (rn : Fin 16) (mask : Half) (wback : Bool) : Exec Unit :=
  blockTransfer rn wback mask false true true
def ldmiaRegs (rn : Fin 16) (mask : Half) (wback : Bool) : Exec Unit :=
  blockTransfer rn wback mask true false false

/-! ## Load-acquire and store-release -/

/-- The width of an ARMv8-M access, and whether it is exclusive. -/
def v8mSize (selector : Word) : Option (Width × Bool) :=
  match selector.toNat with
  | 0x8 => some (.byte, false)
  | 0x9 => some (.half, false)
  | 0xA => some (.word, false)
  | 0xC => some (.byte, true)
  | 0xD => some (.half, true)
  | 0xE => some (.word, true)
  | _ => none

/-- An acquiring load into `rt`. -/
def loadAcquire (w : Width) (rt : Fin 16) (addr : Word) : Exec Unit := do
  let v ← Exec.read w addr
  writeR rt v

/-- A releasing store of `rt`; an exclusive one reports success in `rd`. -/
def storeRelease (w : Width) (exclusive : Bool) (rt rd : Fin 16) (addr : Word) : Exec Unit := do
  let v ← readR rt
  Exec.write w addr v
  onlyIf exclusive (writeR rd 0)

def accessV8m (load : Bool) (w : Width) (exclusive : Bool) (rt rd : Fin 16) (addr : Word) :
    Exec Unit :=
  if load then loadAcquire w rt addr else storeRelease w exclusive rt rd addr

/-- The load-acquire and store-release family, from the raw word; it fails on any other
encoding. -/
def tryV8m (raw pc : Word) : Exec Unit :=
  let h1 := hw1 raw
  let h2 := hw2 raw
  if h1 &&& 0xFFE0 ≠ 0xE8C0 ∨ (h2 >>> 8) &&& 0xF ≠ 0xF then fail
  else do
    let (w, exclusive) ← ofOption (v8mSize ((h2 >>> 4) &&& 0xF))
    let rt := regField (h2 >>> 12)
    let addr ← readR (regField h1)
    accessV8m (Core.bitSet h1 4) w exclusive rt (regField h2) addr
    modify fun c => { c with pc := pc + 4 }

end Exec

end SpEmu
