import SpEmu.Lib.Mirror
import SpEmu.Lib.Nor

/-!
# The QUADSPI controller and its NOR flash

`Qspi` is the register file, the transfer in progress and the 32 MiB array behind it. A command is
decoded from CCR; what still needs an address or data waits in `QspiXfer` for the AR and DR accesses
that complete it. `none` is the panic of a slice out of bounds.

A host operation that fails only ever drops the backing file: `writeThrough_eq` is the frame lemma
of the persistence, and `doErase_of_wel` and `doProgram_of_wel` are what the two commands do.
-/

set_option autoImplicit false

namespace SpEmu

open ByteMem Nor

namespace Qspi

def size : Nat := 32 * 1024 * 1024
def sector : Nat := 65536
def erasedByte : Byte := 0xFF

/-- An array address: `i & (QSPI_SIZE - 1)`. -/
def wrap (i : Nat) : Nat := i &&& (size - 1)

theorem wrap_eq_mod (i : Nat) : wrap i = i % size :=
  Nat.and_two_pow_sub_one_eq_mod i 25

theorem wrap_lt (i : Nat) : wrap i < size := by
  rw [wrap_eq_mod]
  exact Nat.mod_lt i (by decide)

/-! ## Registers and the fields of CCR -/

inductive Reg where
  | cr
  | dcr
  | sr
  | fcr
  | dlr
  | ccr
  | ar
  | dr
  | other
  deriving DecidableEq

/-- The register of a byte offset, which is matched with its two low bits cleared. -/
def regAt (off : Word) : Reg :=
  let o := alignWord off
  if o = 0x00 then .cr
  else if o = 0x04 then .dcr
  else if o = 0x08 then .sr
  else if o = 0x0C then .fcr
  else if o = 0x10 then .dlr
  else if o = 0x14 then .ccr
  else if o = 0x18 then .ar
  else if o = 0x20 then .dr
  else .other

def instruction (ccr : Word) : Byte := ccr.setWidth 8
def admode (ccr : Word) : Word := (ccr >>> 10) &&& 3
def dmode (ccr : Word) : Word := (ccr >>> 24) &&& 3
def fmode (ccr : Word) : Word := (ccr >>> 26) &&& 3

/-- Indirect read; every other functional mode is treated as an indirect write. -/
def isRead (ccr : Word) : Bool := fmode ccr == 1

end Qspi

/-- An indirect transfer decoded from CCR that still needs its address or its data. -/
inductive QspiXfer where
  | idle
  /-- Addressed read; the response is built once AR arrives. -/
  | readAtAddr (len : Nat)
  /-- Addressed write: at the AR write an erase executes, and a program starts to collect data. -/
  | writeAtAddr (instruction : Byte) (data : Bool)
  /-- A page program with its address, collecting its data bytes through DR. -/
  | writeData (remaining : Nat)
  deriving DecidableEq

/-- The registers, the transfer in progress, the array and its backing file. -/
structure Qspi where
  /-- Transfer length, less one. -/
  dlr : Word
  ar : Word
  resp : List Byte
  /-- Bytes drained from `resp`. -/
  respPos : Nat
  modeRead : Bool
  tcf : Bool
  cr : Word
  dcr : Word
  /-- The write-enable latch. -/
  wel : Bool
  xfer : QspiXfer
  /-- Page-program data collected so far. -/
  wrBuf : List Byte
  mem : Bytes Qspi.size
  /-- Write-through handle, opened at construction or on the first write. -/
  file : Option HostFile
  /-- Where the backing file is; dropped when a host operation fails. -/
  path : Option HostPath

namespace Qspi

/-- Build the model, loading a persisted array if there is one. -/
def withBacking (path : Option HostPath) : Qspi :=
  let erased : Bytes size := Bytes.const size erasedByte
  let (mem, file) : Bytes size × Option HostFile :=
    match path with
    | none => (erased, none)
    | some p =>
        if p.present then
          let (opened, f) := p.file.attempt
          if opened then
            let (ok, f) := f.attempt
            if ok then (f.load size erasedByte, some f) else (erased, none)
          else (erased, none)
        else (erased, none)
  { dlr := 0, ar := 0, resp := [], respPos := 0, modeRead := false, tcf := false, cr := 0
    dcr := 0, wel := false, xfer := .idle, wrBuf := [], mem := mem, file := file, path := path }

variable (q : Qspi)

/-! ## Read responses -/

/-- Response for a read command without an address: the flash id, the status register or `0xFF`. -/
def buildResponse (instruction : Byte) (len : Nat) : List Byte :=
  if instruction = 0x9F then (List.range len).map fun i => [0x20, 0xBA, 0x19].getD i 0
  else if instruction = 0x05 then
    (List.range len).map fun i => if i = 0 ∧ q.wel then 0x02 else 0
  else List.replicate len 0xFF

/-- Response for an addressed read: the array contents, wrapping at 32 MiB. -/
def readMem (addr : Word) (len : Nat) : List Byte :=
  (List.range len).map fun i => q.mem.get (wrap (addr.toNat + i))

/-! ## Persistence -/

/-- Open the backing file, creating and seeding it, on the first write; a failure clears the path,
so that a broken target is not tried again. -/
def ensureFile : Qspi :=
  match q.file with
  | some _ => q
  | none =>
      match q.path with
      | none => q
      | some p =>
          let (opened, f) := p.file.attempt
          let (sought, f) := f.attempt
          if opened && sought then
            match f.writeAll 0 size q.mem.get with
            | none => { q with path := none }
            | some f =>
                let (ok, f) := f.attempt
                if ok then { q with file := some { f with len := size } }
                else { q with path := none }
          else { q with path := none }

/-- Write the window `mem[off .. off + len]` through to the backing file. The window is sliced only
when there is a handle to write to. -/
def writeThrough (off len : Nat) : Option Qspi :=
  if len = 0 then some q
  else
    let q := q.ensureFile
    match q.file with
    | none => some q
    | some f =>
        let (sought, f) := f.attempt
        if sought then
          if off + len ≤ size then
            match f.writeAll off len q.mem.get with
            | some f => some { q with file := some f }
            | none => some { q with file := none, path := none }
          else none
        else some { q with file := none, path := none }

/-! ## Erase and program -/

/-- Sector or bulk erase at AR. It requires the latch, and consumes it. -/
def doErase (instruction : Byte) : Option Qspi :=
  if q.wel then
    let (base, len) :=
      if instruction = 0xC7 then (0, size)
      else (wrap q.ar.toNat / sector * sector, sector)
    let q := { q with wel := false, mem := q.mem.splice base len fun _ => erasedByte }
    (q.writeThrough base len).map fun q => { q with tcf := true }
  else some { q with tcf := true }

/-- The array after the bytes `data` are programmed from `base` on. -/
def programLoop : (data : List Byte) → (base : Nat) → Bytes size → Bytes size
  | [], _, mem => mem
  | b :: data, base, mem =>
      programLoop data (base + 1) (mem.splice (wrap base) 1 fun _ => mem.get (wrap base) &&& b)

/-- Page program of the collected bytes at AR. It requires the latch, and consumes it. -/
def doProgram : Option Qspi :=
  let buf := q.wrBuf
  let q := { q with wrBuf := [] }
  if q.wel then
    let base := wrap q.ar.toNat
    let q := { q with wel := false, mem := programLoop buf base q.mem }
    -- both segments, if the program wraps past the end
    let first := min buf.length (size - base)
    let done := (q.writeThrough base first).bind fun q =>
      if first < buf.length then q.writeThrough 0 (buf.length - first) else some q
    done.map fun q => { q with tcf := true }
  else some { q with tcf := true }

/-! ## What erase and program do -/

theorem ensureFile_eq : ∃ file path, q.ensureFile = { q with file := file, path := path } := by
  unfold ensureFile
  split
  · exact ⟨q.file, q.path, rfl⟩
  · split
    · exact ⟨q.file, q.path, rfl⟩
    -- created and seeded, or dropped at the host operation that fails
    · dsimp only
      split_ifs
      · split
        · exact ⟨q.file, none, rfl⟩
        · split_ifs
          · exact ⟨_, q.path, rfl⟩
          · exact ⟨q.file, none, rfl⟩
      · exact ⟨q.file, none, rfl⟩

/-- Writing a window through touches the backing file only. -/
theorem writeThrough_eq {q q' : Qspi} {off len : Nat} (h : q.writeThrough off len = some q') :
    ∃ file path, q' = { q with file := file, path := path } := by
  unfold writeThrough at h
  obtain ⟨file, path, hens⟩ := q.ensureFile_eq
  by_cases h0 : len = 0
  · rw [if_pos h0] at h
    exact ⟨q.file, q.path, (Option.some.inj h).symm⟩
  · rw [if_neg h0, hens] at h
    dsimp only at h
    split at h
    · exact ⟨none, path, (Option.some.inj h).symm⟩
    -- a write or a seek that fails drops the handle and the path
    · split_ifs at h
      · split at h
        · exact ⟨_, path, (Option.some.inj h).symm⟩
        · exact ⟨none, none, (Option.some.inj h).symm⟩
      · exact ⟨none, none, (Option.some.inj h).symm⟩

/-- A window of the array is always written through without a panic. -/
theorem isSome_writeThrough {off len : Nat} (h : off + len ≤ size) :
    (q.writeThrough off len).isSome := by
  unfold writeThrough
  split_ifs
  · rfl
  · dsimp only
    split
    · rfl
    · split_ifs
      · split <;> rfl
      · rfl

/-- Nothing is sliced when there is no backing file. -/
theorem writeThrough_of_none (hf : q.file = none) (hp : q.path = none) (off len : Nat) :
    q.writeThrough off len = some q := by
  simp [writeThrough, ensureFile, hf, hp]

theorem doErase_of_not_wel (hw : q.wel = false) (instr : Byte) :
    q.doErase instr = some { q with tcf := true } := by
  simp [doErase, hw]

theorem doProgram_of_not_wel (hw : q.wel = false) :
    q.doProgram = some { q with wrBuf := [], tcf := true } := by
  simp [doProgram, hw]

/-- The NOR instruction an erase command stands for. -/
def eraseOp (instr : Byte) (ar : Word) : Op :=
  if instr = 0xC7 then .bulkErase else .sectorErase ar.toNat

theorem splice_bulkErase (m : Bytes size) :
    (m.splice 0 size fun _ => erasedByte) = Op.bulkErase.apply sector m := by
  funext i
  exact if_pos ⟨Nat.zero_le _, by omega⟩

theorem splice_sectorErase (m : Bytes size) (a : Nat) :
    (m.splice (wrap a / sector * sector) sector fun _ => erasedByte) =
      (Op.sectorErase a).apply sector m := by
  funext i
  simp only [Bytes.splice, Op.apply, wrap_eq_mod]
  generalize a % size = b
  -- the window of the aligned base is the set of addresses in the same sector
  have hiff : b / sector * sector ≤ i.val ∧ i.val < b / sector * sector + sector ↔
      i.val / sector = b / sector := by
    simp only [sector]
    omega
  exact if_congr hiff rfl rfl

theorem sector_window (a : Nat) : wrap a / sector * sector + sector ≤ size := by
  have := wrap_lt a
  simp only [sector, size] at *
  omega

theorem doErase_of_wel (hw : q.wel = true) (instr : Byte) :
    ∃ file path, q.doErase instr = some { q with
      wel := false, mem := (eraseOp instr q.ar).apply sector q.mem, tcf := true
      file := file, path := path } := by
  simp only [doErase, hw, if_true, eraseOp]
  by_cases hc : instr = 0xC7
  · simp only [hc, if_true, splice_bulkErase]
    obtain ⟨q', hq'⟩ := Option.isSome_iff_exists.mp (isSome_writeThrough
      { q with wel := false, mem := Op.bulkErase.apply sector q.mem }
      (Nat.le_of_eq (Nat.zero_add size)))
    obtain ⟨file, path, rfl⟩ := writeThrough_eq hq'
    exact ⟨file, path, by rw [hq']; rfl⟩
  · simp only [hc, if_false, splice_sectorErase]
    obtain ⟨q', hq'⟩ := Option.isSome_iff_exists.mp (isSome_writeThrough
      { q with wel := false, mem := (Op.sectorErase q.ar.toNat).apply sector q.mem }
      (sector_window q.ar.toNat))
    obtain ⟨file, path, rfl⟩ := writeThrough_eq hq'
    exact ⟨file, path, by rw [hq']; rfl⟩

/-- The loop over the data is the page program of the NOR array. -/
theorem programLoop_eq (data : List Byte) (a : Nat) (m : Bytes size) :
    programLoop data a m = (Op.pageProgram a data).apply sector m := by
  induction data generalizing a m with
  | nil => rfl
  | cons b data ih => rw [apply_pageProgram_cons, programLoop, ih, wrap_eq_mod]

theorem landing_wrap (a j : Nat) (data : List Byte) :
    landing size (wrap a) j data = landing size a j data := by
  induction data generalizing a with
  | nil => rfl
  | cons b data ih =>
      have hnext : wrap (wrap a + 1) = wrap (a + 1) := by
        simp only [wrap_eq_mod, Nat.mod_add_mod]
      rw [landing_cons, landing_cons, ← ih (wrap a + 1), hnext, ih (a + 1), wrap_eq_mod,
        Nat.mod_mod]

theorem pageProgram_wrap (a : Nat) (data : List Byte) (m : Bytes size) :
    (Op.pageProgram (wrap a) data).apply sector m = (Op.pageProgram a data).apply sector m := by
  funext i
  simp only [Op.apply, landing_wrap]

/-- The windows of a program of `len` bytes at AR can be sliced: it wraps at most once, or there is
no backing file. -/
def ProgramFits (len : Nat) : Prop :=
  len ≤ size + (size - wrap q.ar.toNat) ∨ (q.file.isNone = true ∧ q.path.isNone = true)

instance (len : Nat) : Decidable (q.ProgramFits len) := by
  unfold ProgramFits
  infer_instance

/-- The state after a program with the latch, before it is written through. -/
def programmed : Qspi :=
  { q with
    wel := false, mem := (Op.pageProgram q.ar.toNat q.wrBuf).apply sector q.mem, wrBuf := [] }

theorem doProgram_of_wel (hw : q.wel = true) (hfits : q.ProgramFits q.wrBuf.length) :
    ∃ file path, q.doProgram =
      some { q.programmed with tcf := true, file := file, path := path } := by
  have hprog : { q with
      wel := false, mem := programLoop q.wrBuf (wrap q.ar.toNat) q.mem, wrBuf := [] } =
        q.programmed := by
    rw [programLoop_eq, pageProgram_wrap]
    rfl
  have hbase := wrap_lt q.ar.toNat
  simp only [doProgram, hw, if_true, hprog]
  -- the segment up to the end of the array
  obtain ⟨q₁, hq₁⟩ := Option.isSome_iff_exists.mp (isSome_writeThrough q.programmed
    (show wrap q.ar.toNat + min q.wrBuf.length (size - wrap q.ar.toNat) ≤ size by omega))
  obtain ⟨file₁, path₁, hframe₁⟩ := writeThrough_eq hq₁
  rw [hq₁, Option.bind_some]
  split_ifs with hlt
  -- the rest, from the start of the array on
  · have hsome : (q₁.writeThrough 0
        (q.wrBuf.length - min q.wrBuf.length (size - wrap q.ar.toNat))).isSome := by
      rcases hfits with hlen | ⟨hf, hp⟩
      · exact isSome_writeThrough q₁ (by omega)
      · rw [Option.isNone_iff_eq_none] at hf hp
        rw [writeThrough_of_none q.programmed hf hp] at hq₁
        rw [← Option.some.inj hq₁, writeThrough_of_none q.programmed hf hp]
        rfl
    obtain ⟨q₂, hq₂⟩ := Option.isSome_iff_exists.mp hsome
    obtain ⟨file₂, path₂, rfl⟩ := writeThrough_eq hq₂
    exact ⟨file₂, path₂, by rw [hq₂, hframe₁]; rfl⟩
  · exact ⟨file₁, path₁, by rw [hframe₁]; rfl⟩

/-! ## Register accesses -/

/-- The DR read: pop one byte of the response. -/
def readDr : Word × Qspi :=
  match q.resp[q.respPos]? with
  | some b => (b.setWidth 32, { q with respPos := q.respPos + 1 })
  | none => (0xFF, q)

def read (off : Word) : Word × Qspi :=
  match regAt off with
  | .cr => (q.cr, q)
  | .dcr => (q.dcr, q)
  | .sr =>
      let remaining := q.resp.length - q.respPos
      let q := if q.modeRead && remaining == 0 then { q with tcf := true } else q
      let flevel : Word := if q.modeRead then BitVec.ofNat 32 (min remaining 32) else 0
      let tcf : Word := if q.tcf then 1 <<< 1 else 0
      let ftf : Word := if !q.modeRead || 0 < remaining then 1 <<< 2 else 0
      (tcf ||| ftf ||| flevel <<< 8, q)
  | .dlr => (q.dlr, q)
  | .ar => (q.ar, q)
  | .dr => q.readDr
  | .fcr | .ccr | .other => (0, q)

/-- The CCR write: decode the command, and execute what needs neither address nor data. -/
def writeCcr (val : Word) : Option Qspi :=
  let instr := instruction val
  let len := q.dlr.toNat + 1
  if isRead val then
    let q :=
      if admode val ≠ 0 then { q with resp := [], xfer := .readAtAddr len }
      else { q with resp := q.buildResponse instr len, xfer := .idle }
    some { q with respPos := 0, modeRead := true, tcf := false }
  else
    let q := { q with modeRead := false, wrBuf := [] }
    if instr = 0x06 then some { q with wel := true, xfer := .idle, tcf := true }
    else if instr = 0x04 then some { q with wel := false, xfer := .idle, tcf := true }
    else if instr = 0xC7 then { q with xfer := .idle }.doErase instr
    else if admode val ≠ 0 then
      some { q with xfer := .writeAtAddr instr (dmode val != 0), tcf := false }
    -- an unknown write command without an address: accepted, and done
    else some { q with xfer := .idle, tcf := true }

/-- The AR write completes the address phase of the pending transfer. -/
def writeAr (val : Word) : Option Qspi :=
  let q := { q with ar := val }
  match q.xfer with
  | .readAtAddr len => some { q with resp := q.readMem val len, respPos := 0, xfer := .idle }
  | .writeAtAddr instr data =>
      if data then some { q with xfer := .writeData (q.dlr.toNat + 1) }
      else { q with xfer := .idle }.doErase instr
  | .idle | .writeData _ => some q

/-- The DR write: one data byte of a page program. -/
def writeDr (val : Word) : Option Qspi :=
  match q.xfer with
  | .writeData remaining =>
      let q := { q with wrBuf := q.wrBuf ++ [val.setWidth 8] }
      if remaining ≤ q.wrBuf.length then { q with xfer := .idle }.doProgram else some q
  | .idle | .readAtAddr _ | .writeAtAddr _ _ => some q

def write (off val : Word) : Option Qspi :=
  match regAt off with
  | .cr => some { q with cr := val }
  | .dcr => some { q with dcr := val }
  | .fcr => some (if val &&& (1 <<< 1) ≠ 0 then { q with tcf := false } else q)
  | .dlr => some { q with dlr := val }
  | .ccr => q.writeCcr val
  | .ar => q.writeAr val
  | .dr => q.writeDr val
  | .sr | .other => some q

/-- An access of the firmware to the register block. -/
inductive Access where
  | read (off : Word)
  | write (off val : Word)

def step (q : Qspi) : Access → Option Qspi
  | .read off => some (q.read off).2
  | .write off val => q.write off val

end Qspi

end SpEmu
