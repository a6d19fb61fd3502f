import SpEmu.Lib.Bytes

/-!
# The LPC55 flash array and its command engine

`RotFlash` is the state of the RoT core's flash: the array, the packed per-page erased
bitset, the page buffer, the command registers and the two backing files. Slices and
indices are checked as in the source, and `none` is the panic of an index out of bounds.

`doCmd` runs one command; `regWrite` and `regRead` are the register file over it. The
blank-check loop is a recursion on the word number, whose termination is that of the
source's loop: the scan stops at the end of the array.
-/

set_option autoImplicit false

namespace SpEmu

open ByteMem

namespace RotFlash

/-- 1 MB window: the flash array and the protected flash region. -/
def size : Nat := 0x100000
def page : Nat := 512
def word : Nat := 16
def wordsPerPage : Nat := page / word
def npages : Nat := size / page
def erasedByte : Byte := 0xFF

/-! ## Register offsets, command codes and status bits -/

def regCmd : Word := 0x00
def regStarta : Word := 0x10
def regStopa : Word := 0x14
def regDataw : Word := 0x80
def regIntStatus : Word := 0xFE0
def regIntClrStatus : Word := 0xFE8
def regIntSetStatus : Word := 0xFEC

def cmdCodeRead : Word := 3
def cmdCodeErase : Word := 4
def cmdCodeBlank : Word := 5
def cmdCodeWrite : Word := 8
def cmdCodeProgram : Word := 12

def stFail : Word := (1 : Word) <<< 0
def stDone : Word := (1 : Word) <<< 2
def stEcc : Word := (1 : Word) <<< 3

end RotFlash

/-- The flash array, the command engine's registers and the backing files. -/
structure RotFlash where
  mem : Bytes RotFlash.size
  /-- Packed per-page bitset: a set bit is a page never programmed. -/
  erased : Bytes (RotFlash.npages / 8)
  pageBuf : Bytes RotFlash.page
  starta : Word
  stopa : Word
  dataw : Fin 8 → Word
  status : Word
  /-- Handle to the data file, dropped after the first host error. -/
  file : Option HostFile
  bitsetFile : HostFile
  unknownCmdsLogged : Half
  bitsetWriteFailed : Bool

namespace RotFlash

variable (f : RotFlash)

/-! ## The erased bitset -/

def isErased (page : Nat) : Option Bool :=
  if page / 8 < npages / 8 then some (f.erased.get (page / 8) &&& ((1 : Byte) <<< (page % 8)) != 0)
  else none

def setErased (page : Nat) (e : Bool) : Option RotFlash :=
  let i := page / 8
  let bit := (1 : Byte) <<< (page % 8)
  if i < npages / 8 then
    some { f with erased := f.erased.splice i 1 fun _ =>
      if e then f.erased.get i ||| bit else f.erased.get i &&& ~~~bit }
  else none

/-! ## Memory-mapped reads -/

/-- `k` bytes at `addr`; bytes past the end of the array read as erased. -/
def readBytes (k : Nat) (addr : Word) : Option (Nat → Byte) :=
  let o := addr.toNat
  let n := min (size - o) k
  if o + n ≤ size then some fun i => if i < n then f.mem.get (o + i) else erasedByte
  else none

def readMem32 (addr : Word) : Option Word := (f.readBytes 4 addr).map (leWord 4)

def readMem16 (addr : Word) : Option Half :=
  (f.readBytes 2 addr).map fun b => (leWord 2 b).setWidth 16

def readMem8 (addr : Word) : Option Byte :=
  if addr.toNat < size then some (f.mem.get addr.toNat) else none

/-- A store into the flash window: flash is programmed only by the command engine. -/
def writeMem (_addr _val : Word) (_size : Nat) : RotFlash := f

/-! ## Persistence -/

/-- Write the bitset file, and remember a failure so that it is reported once. -/
def persistBitset : RotFlash :=
  let (ok, file) := f.bitsetFile.rewrite (npages / 8) f.erased.get
  { f with
    bitsetFile := file
    bitsetWriteFailed := f.bitsetWriteFailed || !ok }

/-- Write the pages `first ..= last` through to the data file. The slice of the array is
taken after the seek, and a slice whose start lies past its end is a panic. -/
def persistPages (first last : Nat) : Option RotFlash :=
  match f.file with
  | none => some f.persistBitset
  | some file =>
      let off := first * page
      let stop := min ((last + 1) * page) size
      let (ok, file) := file.attempt
      if ok then
        if off ≤ stop then
          some ({ f with file := file.writeAll off (stop - off) f.mem.get }).persistBitset
        else none
      else some ({ f with file := none }).persistBitset

/-- Write the whole array to the data file, cut the file to the array, and write the bitset
file. -/
def persistAll : RotFlash :=
  let file := f.file.bind fun file =>
    let (ok, file) := file.attempt
    if ok then (file.writeAll 0 size f.mem.get).bind fun file =>
      let (ok, file) := file.attempt
      if ok then some { file with len := size } else none
    else none
  ({ f with file := file }).persistBitset

/-! ## Image loads -/

/-- Copy `bytes` to `off`, cut at the end of the array, and mark every page touched as
programmed. -/
def writePages (off : Nat) (bytes : List Byte) : Option RotFlash :=
  let n := min bytes.length (size - off)
  if n = 0 then some f
  else
    let first := off / page
    let last := (off + n - 1) / page
    (List.range' first (last + 1 - first)).foldlM (fun f p => setErased f p false)
      { f with mem := f.mem.splice off n fun i => bytes.getD i 0 }

/-- Load an image directly, as the boot loader does. -/
def loadImageAt (addr : Word) (bytes : List Byte) : Option RotFlash :=
  (f.writePages addr.toNat bytes).map persistAll

/-! ## Commands -/

/-- Erase `count` pages from `first` on. -/
def eraseLoop : (count first : Nat) → RotFlash → Option RotFlash
  | 0, _, f => some f
  | count + 1, first, f => do
      let base := first * page
      let mem ← f.mem.fill base (base + page) erasedByte
      let f ← setErased { f with mem := mem } first true
      eraseLoop count (first + 1) f

/-- EraseRange: erase every page that the word range [STARTA, STOPA] spans. -/
def cmdErase : Option RotFlash := do
  let lo := f.starta.toNat * word
  let hi := f.stopa.toNat * word
  let first := lo / page
  let last := hi / page
  let f ← eraseLoop (min last (npages - 1) + 1 - first) first f
  let f ← f.persistPages first last
  some { f with status := f.status ||| stDone }

/-- Write: load DATAW0..3 into the page-buffer row STARTA. -/
def cmdWrite : Option RotFlash := do
  let row := f.starta.toNat % wordsPerPage
  let buf ← [0, 1, 2, 3].foldlM
    (fun buf (i : Fin 8) => buf.store 4 (row * word + i * 4) (f.dataw i)) f.pageBuf
  some { f with pageBuf := buf, status := f.status ||| stDone }

/-- Program: commit the page buffer to the page of STARTA (bits only clear), mark the page
programmed and reset the buffer. -/
def cmdProgram : Option RotFlash := do
  let p := f.starta.toNat * word / page
  let f ←
    if p < npages then do
      let base := p * page
      let mem ← (List.range page).foldlM
        (fun mem i => mem.clearBits (base + i) (f.pageBuf.get i)) f.mem
      let f ← setErased { f with mem := mem } p false
      f.persistPages p p
    else some f
  some { f with pageBuf := Bytes.const page erasedByte, status := f.status ||| stDone }

/-- The blank-check scan from word `w` on. -/
def blankLoop (w : Word) : Option RotFlash :=
  if w ≤ f.stopa then
    let base := w.toNat * word
    if base + word > size then some { f with status := f.status ||| stDone }
    else
      match f.isErased (base / page) with
      | none => none
      | some false => some { f with
          dataw := Function.update f.dataw 0 w
          status := f.status ||| (stDone ||| stFail) }
      | some true => blankLoop (w + 1)
  else some { f with status := f.status ||| stDone }
termination_by size - w.toNat * word
decreasing_by
  have hend : ¬ w.toNat * word + word > size := by assumption
  simp only [word, size] at hend ⊢
  have hsucc : (w + 1).toNat = w.toNat + 1 := by
    rw [BitVec.toNat_add, show BitVec.toNat (1 : Word) = 1 from rfl]
    omega
  omega

/-- BlankCheck: FAIL at the first word of [STARTA, STOPA] that lies in a programmed page,
with its number in DATAW0. -/
def cmdBlank : Option RotFlash := f.blankLoop f.starta

/-- ReadSingleWord: the 16 bytes at STARTA into DATAW0..3, or ECC_ERR on an erased page. -/
def cmdRead : Option RotFlash := do
  let base := f.starta.toNat * word
  let p := base / page
  if p ≥ npages then some { f with status := f.status ||| (stDone ||| stEcc) }
  else
    if ← f.isErased p then some { f with status := f.status ||| (stDone ||| stEcc) }
    else
      let dataw ← [0, 1, 2, 3].foldlM (fun dataw (k : Fin 8) => do
        let v ← f.mem.load 4 (base + k * 4)
        some (Function.update dataw k v)) f.dataw
      some { f with dataw := dataw, status := f.status ||| stDone }

def doCmd (cmd : Word) : Option RotFlash :=
  let code := cmd &&& 0xF
  if code = cmdCodeErase then f.cmdErase
  else if code = cmdCodeWrite then f.cmdWrite
  else if code = cmdCodeProgram then f.cmdProgram
  else if code = cmdCodeBlank then f.cmdBlank
  else if code = cmdCodeRead then f.cmdRead
  else
    -- An unimplemented command reports failure, and is logged once.
    some { f with
      unknownCmdsLogged := f.unknownCmdsLogged ||| ((1 : Half) <<< code.toNat)
      status := f.status ||| (stDone ||| stFail) }

/-! ## The register file -/

/-- The DATAW register at offset `off`, for `off` in DATAW0..7. -/
def datawIndex (off : Word) : Option (Fin 8) :=
  if h : regDataw ≤ off ∧ off < regDataw + 32 then
    some ⟨((off - regDataw) / 4).toNat, by
      simp only [regDataw] at h ⊢
      have hsub : (off - 128).toNat < 32 := by bv_omega
      rw [BitVec.toNat_udiv, show BitVec.toNat (4 : Word) = 4 from rfl]
      omega⟩
  else none

def regRead (off : Word) : Word :=
  if off = regStarta then f.starta
  else if off = regStopa then f.stopa
  else if off = regIntStatus then f.status
  else
    match datawIndex off with
    | some i => f.dataw i
    | none => 0

def regWrite (off val : Word) : Option RotFlash :=
  if off = regCmd then f.doCmd val
  else if off = regStarta then some { f with starta := val }
  else if off = regStopa then some { f with stopa := val }
  else if off = regIntClrStatus then some { f with status := f.status &&& ~~~val }
  else if off = regIntSetStatus then some { f with status := f.status ||| val }
  else
    match datawIndex off with
    | some i => some { f with dataw := Function.update f.dataw i val }
    | none => some f

/-! ## Construction -/

/-- The model on a persisted pair of files. A short file leaves the end of the array, or of
the bitset, erased. -/
def ofFiles (data bits : HostFile) : RotFlash where
  mem := fun i => if i.val < data.len then data.byte i.val else erasedByte
  erased := fun i => if i.val < bits.len then bits.byte i.val else 0xFF
  pageBuf := Bytes.const page erasedByte
  starta := 0
  stopa := 0
  dataw := fun _ => 0
  status := 0
  file := some data
  bitsetFile := bits
  unknownCmdsLogged := 0
  bitsetWriteFailed := false

/-- The model on a fresh device with the given contents, which are written to its files. -/
def seeded (mem : Bytes size) (erased : Bytes (npages / 8)) (data bits : HostFile) : RotFlash :=
  ({ ofFiles data bits with mem := mem, erased := erased }).persistAll

end RotFlash

end SpEmu
