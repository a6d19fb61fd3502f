import SpEmu.Lib.Mirror
import SpEmu.Lib.Text

/-!
# The STM32H7 flash and its controller

`Flash` is the 2 MB array of two banks with the FLASH register file: the bank-2 and
option-byte locks, the staged, committed and effective bank-swap bits, and the
write-through handle to the backing file. The aperture maps an address to a physical byte
through `physOff`, which exchanges the banks while the effective swap is set.

`writeMem` is a store into the aperture, `regWrite` a register write. A slice of the array
is checked where the source slices it.
-/

set_option autoImplicit false

namespace SpEmu

open ByteMem

namespace Flash

def flashBase : Word := 0x08000000
/-- 1 MB per bank. -/
def bankSize : Nat := 0x100000
/-- 2 MB across both banks. -/
def total : Nat := 2 * bankSize
/-- Erased flash reads as all ones. -/
def erasedByte : Byte := 0xFF

/-! ## Register offsets, control bits and keys -/

def regOptkeyr : Word := 0x08
def regOptcr : Word := 0x18
def regOptsrCur : Word := 0x1C
def regOptsrPrg : Word := 0x20
def regOptccr : Word := 0x24
def regKeyr2 : Word := 0x104
def regCr2 : Word := 0x10C
def regSr2 : Word := 0x110
def regCcr2 : Word := 0x114

def crLock : Word := (1 : Word) <<< 0
def crPg : Word := (1 : Word) <<< 1
def crBer : Word := (1 : Word) <<< 3
def crStart : Word := (1 : Word) <<< 7
def crEopie : Word := (1 : Word) <<< 16
def srEop : Word := (1 : Word) <<< 16
def optcrOptlock : Word := (1 : Word) <<< 0
def optcrOptstart : Word := (1 : Word) <<< 1
def optSwapBank : Word := (1 : Word) <<< 31

def key1 : Word := 0x45670123
def key2 : Word := 0xCDEF89AB
def optkey1 : Word := 0x08192A3B
def optkey2 : Word := 0x4C5D6E7F

/-- The NVIC line of the erase-completion interrupt. -/
def flashIrq : Nat := 4

end Flash

/-! ## Non-volatile register state -/

/-- The option bytes and the archive reference that survive a run. -/
structure NvState where
  swapBank : Bool
  archive : Option String

/-- The text that saving the non-volatile state writes. -/
def NvState.body (nv : NvState) : String :=
  let head := "# sp-emu flash non-volatile registers (see src/flash.rs)\nswap_bank = " ++
    (if nv.swapBank then "1" else "0") ++ "\n"
  match nv.archive with
  | none => head
  | some archive => head ++ "archive = \"" ++ archive ++ "\"\n"

/-- Read one line of the state file; a comment, a line without `=` and an unknown key change
nothing. -/
def NvState.readLine (nv : NvState) (line : List Char) : NvState :=
  let line := Text.trim line
  if line = [] ∨ line.head? = some '#' then nv
  else
    match Text.splitOnce '=' line with
    | none => nv
    | some (k, v) =>
        let k := Text.trim k
        let v := Text.trim v
        if k = "swap_bank".toList then
          { nv with swapBank := decide (v = "1".toList ∨ v = "true".toList) }
        else if k = "archive".toList then
          -- Quotes around the value are tolerated, and an empty value is none.
          let ref := Text.trimMatches '"' v
          { nv with archive := if ref = [] then none else some (String.ofList ref) }
        else nv

/-- Load the state file, or the defaults when it is missing. -/
def loadNv (text : Option String) : NvState :=
  match text with
  | none => ⟨false, none⟩
  | some text => (Text.lines text.toList).foldl NvState.readLine ⟨false, none⟩

/-- Which stowed archive each region of the RoT flash was seeded from. -/
structure RotMeta where
  slotAArchive : Option String
  slotBArchive : Option String
  stage0Archive : Option String

/-- The keys of the metadata file, with what is recorded under each. -/
def RotMeta.entries (m : RotMeta) : List (String × Option String) :=
  [("slot_a_archive", m.slotAArchive), ("slot_b_archive", m.slotBArchive),
    ("stage0_archive", m.stage0Archive)]

/-- Append the line of one key, if anything is recorded under it. -/
def RotMeta.pushEntry (body : String) (kv : String × Option String) : String :=
  match kv.2 with
  | some val => body ++ (kv.1 ++ " = \"" ++ val ++ "\"\n")
  | none => body

/-- The text that saving the RoT metadata writes. -/
def RotMeta.body (m : RotMeta) : String :=
  m.entries.foldl RotMeta.pushEntry
    "# sp-emu RoT instance metadata: Hubris archive per region (see src/flash.rs)\n"

def RotMeta.readLine (m : RotMeta) (line : List Char) : RotMeta :=
  let line := Text.trim line
  if line = [] ∨ line.head? = some '#' then m
  else
    match Text.splitOnce '=' line with
    | none => m
    | some (k, v) =>
        let ref := Text.trimMatches '"' (Text.trim v)
        let v := if ref = [] then none else some (String.ofList ref)
        let k := Text.trim k
        if k = "slot_a_archive".toList then { m with slotAArchive := v }
        else if k = "slot_b_archive".toList then { m with slotBArchive := v }
        else if k = "stage0_archive".toList then { m with stage0Archive := v }
        else m

/-- Load the RoT metadata; none of it without the file. -/
def loadRotMeta (text : Option String) : RotMeta :=
  match text with
  | none => ⟨none, none, none⟩
  | some text => (Text.lines text.toList).foldl RotMeta.readLine ⟨none, none, none⟩

/-- Load the flash image, or an erased one when there is none yet; a short file leaves the rest
erased. -/
def loadNvm (file : Option HostFile) : Bytes Flash.total :=
  match file with
  | none => Bytes.const _ Flash.erasedByte
  | some file => file.load Flash.total Flash.erasedByte

/-- The array, the controller's registers and the backing files. -/
structure Flash where
  mem : Bytes Flash.total
  /-- Write-through handle, dropped after the first host error. -/
  file : Option HostFile
  nvFile : TextFile
  archive : Option String
  /-- Drives the aperture; latched from `committedSwap` only at a reset. -/
  effectiveSwap : Bool
  /-- The non-volatile value of the option byte. -/
  committedSwap : Bool
  /-- What OPTSTART commits. -/
  stagedSwap : Bool
  bank2Locked : Bool
  optLocked : Bool
  key2State : Byte
  optkeyState : Byte
  cr2 : Word
  sr2 : Word
  eraseIrq : Bool
  /-- The store/return registers, 0 until written. -/
  regs : Word → Word

namespace Flash

variable (f : Flash)

/-! ## The aperture -/

/-- Which physical byte an aperture address maps to: swapping the banks is one exclusive or
with the bank size. -/
def physOff (addr : Word) : Nat :=
  let rel := (addr - flashBase).toNat
  if f.effectiveSwap then rel ^^^ bankSize else rel

/-- `k` bytes of the aperture at `addr`; bytes past the end of the array read as erased. -/
def readBytes (k : Nat) (addr : Word) : Option (Nat → Byte) :=
  let o := f.physOff addr
  let n := min (total - o) k
  if o + n ≤ total then some fun i => if i < n then f.mem.get (o + i) else erasedByte
  else none

def readMem32 (addr : Word) : Option Word := (f.readBytes 4 addr).map (leWord 4)

def readMem16 (addr : Word) : Option Half :=
  (f.readBytes 2 addr).map fun b => (leWord 2 b).setWidth 16

def readMem8 (addr : Word) : Option Byte :=
  if f.physOff addr < total then some (f.mem.get (f.physOff addr)) else none

/-! ## Persistence -/

/-- Write the window `mem[off .. off + len]` through to the backing file. -/
def writeThrough (off len : Nat) : Flash :=
  if len = 0 then f
  else
    match f.file with
    | none => f
    | some file =>
        let (ok, file) := file.attempt
        { f with file := if ok then file.writeAll off len f.mem.get else none }

/-- Sync the backing file; an error is only reported. -/
def flush : Flash := { f with file := f.file.map fun file => file.attempt.2 }

/-! ## Stores into the aperture -/

/-- Program the bytes `i, …, i + left - 1` of `val` at `o + i`, stopping at the end of the
array; the result counts the bytes programmed so far. -/
def programLoop (o : Nat) (val : Word) : (left i : Nat) → Bytes total → Bytes total × Nat
  | 0, i, mem => (mem, i)
  | left + 1, i, mem =>
      if o + i < total then
        programLoop o val left (i + 1)
          (mem.splice (o + i) 1 fun _ => mem.get (o + i) &&& byteOf val i)
      else (mem, i)

/-- A firmware store into the aperture, honored only while bank 2 is unlocked and PG is
set. -/
def writeMem (addr val : Word) (size : Nat) : Flash :=
  if f.bank2Locked || f.cr2 &&& crPg == 0 then f
  else
    let o := f.physOff addr
    let (mem, n) := programLoop o val size 0 f.mem
    { f with mem := mem }.writeThrough o n

/-- Raw image load at boot, past the lock; an image that does not fit is cut. -/
def loadImageAt (addr : Word) (bytes : List Byte) : Option Flash :=
  let o := f.physOff addr
  let n := min (total - o) bytes.length
  if o + n ≤ total then
    some (({ f with mem := f.mem.splice o n fun i => bytes.getD i 0 }).writeThrough o n)
  else none

/-- Whether an address lies in the aperture. -/
def inAperture (addr : Word) : Bool :=
  decide (flashBase ≤ addr) && decide (addr < flashBase + BitVec.ofNat 32 total)

/-- A store of any width into the aperture. The bus turns a narrow one into a
read-modify-write of the containing word. -/
def store (w : Width) (addr val : Word) : Option Flash :=
  match w with
  | .word => some (f.writeMem addr val 4)
  | .half => do
      let old ← f.readMem32 (alignWord addr)
      some (f.writeMem (alignWord addr)
        (mergeBytes 2 (addr &&& 2).toNat old ((val.setWidth 16).setWidth 32)) 4)
  | .byte => do
      let old ← f.readMem32 (alignWord addr)
      some (f.writeMem (alignWord addr)
        (mergeBytes 1 (addr &&& 3).toNat old ((val.setWidth 8).setWidth 32)) 4)

/-! ## The register file -/

def regRead (off : Word) : Word :=
  if off = regOptcr then
    (if f.optLocked then optcrOptlock else 0) ||| (if f.effectiveSwap then optSwapBank else 0)
  else if off = regOptsrCur then if f.committedSwap then optSwapBank else 0
  else if off = regOptsrPrg then if f.stagedSwap then optSwapBank else 0
  else if off = regCr2 then f.cr2 ||| (if f.bank2Locked then crLock else 0)
  else if off = regSr2 then f.sr2
  else f.regs off

/-- Erase the bank behind the bank-2 aperture, which is the inactive one. -/
def eraseBank2 : Option Flash := do
  let base := f.physOff (flashBase + BitVec.ofNat 32 bankSize)
  let mem ← f.mem.fill base (base + bankSize) erasedByte
  some ({ f with mem := mem }.writeThrough base bankSize)

/-- A write to KEYR2: KEY1 then KEY2 clears the bank-2 lock. -/
def writeKeyr2 (val : Word) : Flash :=
  if f.key2State = 0 ∧ val = key1 then { f with key2State := 1 }
  else if f.key2State = 1 ∧ val = key2 then { f with bank2Locked := false, key2State := 0 }
  else { f with key2State := 0 }

/-- A write to OPTKEYR: OPTKEY1 then OPTKEY2 clears the option lock. -/
def writeOptkeyr (val : Word) : Flash :=
  if f.optkeyState = 0 ∧ val = optkey1 then { f with optkeyState := 1 }
  else if f.optkeyState = 1 ∧ val = optkey2 then { f with optLocked := false, optkeyState := 0 }
  else { f with optkeyState := 0 }

/-- A write to CR2: LOCK first, then a bank erase on BER and START if the bank is still
unlocked. -/
def writeCr2 (val : Word) : Option Flash :=
  let f := { f with cr2 := val &&& ~~~crLock }
  let f := if val &&& crLock != 0 then { f with bank2Locked := true } else f
  if val &&& crBer != 0 && val &&& crStart != 0 && !f.bank2Locked then do
    let f ← f.eraseBank2
    let f := { f with sr2 := f.sr2 ||| srEop }
    some (if val &&& crEopie != 0 then { f with eraseIrq := true } else f)
  else some f

/-- A write to OPTCR: OPTLOCK first, then OPTSTART commits the staged swap if the option
registers are still unlocked. -/
def writeOptcr (val : Word) : Flash :=
  let f := if val &&& optcrOptlock != 0 then { f with optLocked := true } else f
  if val &&& optcrOptstart != 0 && !f.optLocked then
    let f := { f with committedSwap := f.stagedSwap }
    let nv : NvState := ⟨f.committedSwap, f.archive⟩
    { f with nvFile := f.nvFile.rewrite nv.body }
  else f

def regWrite (off val : Word) : Option Flash :=
  if off = regKeyr2 then some (f.writeKeyr2 val)
  else if off = regOptkeyr then some (f.writeOptkeyr val)
  else if off = regCr2 then f.writeCr2 val
  else if off = regSr2 then some { f with sr2 := val }
  else if off = regCcr2 then some { f with sr2 := f.sr2 &&& ~~~val }
  else if off = regOptsrPrg then some { f with
    stagedSwap := val &&& optSwapBank != 0
    regs := Function.update f.regs off val }
  else if off = regOptcr then some (f.writeOptcr val)
  else if off = regOptccr then some f
  else some { f with regs := Function.update f.regs off val }

/-! ## Interrupt and reset -/

/-- Consume a pending erase-completion interrupt. -/
def takeEraseIrq : Bool × Flash := (f.eraseIrq, { f with eraseIrq := false })

/-- Latch the effective mapping from the committed option byte. -/
def resetLatch : Flash := { f with effectiveSwap := f.committedSwap }

/-! ## The power-on state -/

/-- The flash built from an image and the saved option bytes. The backing file is seeded
with the whole image, and dropped when the host refuses. -/
def new (mem : Bytes total) (file : Option HostFile) (nvFile : TextFile) (nv : NvState) :
    Flash where
  mem := mem
  file := file.bind fun file =>
    let (ok, file) := file.attempt
    if ok then (file.writeAll 0 total mem.get).bind fun file =>
      let (ok, file) := file.attempt
      if ok then some { file with len := total } else none
    else none
  nvFile := nvFile
  archive := nv.archive
  effectiveSwap := nv.swapBank
  committedSwap := nv.swapBank
  stagedSwap := nv.swapBank
  bank2Locked := true
  optLocked := true
  key2State := 0
  optkeyState := 0
  cr2 := 0
  sr2 := 0
  eraseIrq := false
  regs := fun _ => 0

end Flash

end SpEmu
