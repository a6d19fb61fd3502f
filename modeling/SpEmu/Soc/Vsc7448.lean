import SpEmu.Lib.Transducer
import SpEmu.Mem.Memory
import SpEmu.Sprot.Link

/-!
# The management switch behind SPI2

On a sidecar SPI2 carries the register protocol of the VSC7448: a word address of three bytes, whose
top bit says that a value of four bytes follows, and behind any other address a pad byte and the
register's value. Every byte that the master clocks out gives one back at once.

A byte is taken by its position in the transaction, and the shifts are computed from it by
subtraction: `none` is a subtraction or a shift out of range. `registers_sound_iff` says that this
happens exactly in a transaction that is longer than the protocol's, and that registers keep their
values otherwise.
-/

set_option autoImplicit false

namespace SpEmu

open ByteMem Mem Transducer

/-! ## The master's side -/

namespace Spi

/-- Offsets of the registers. -/
def cr1 : Word := 0x00
def cr2 : Word := 0x04
def sr : Word := 0x14
def txdr : Word := 0x20
def rxdr : Word := 0x30

/-- SPE, in CR1. -/
def spe : Word := 1

/-- The status: there is always room, and a transfer ends when its bytes are done. -/
def spiSr (doneCount tsize : Word) (rxNonempty : Bool) : Word :=
  let sr : Word := (1 : Word) <<< 1
  let sr := if rxNonempty then sr ||| (1 : Word) <<< 13 else sr
  let least := if tsize = 0 then 1 else tsize
  if least ≤ doneCount then sr ||| ((1 : Word) <<< 3 ||| (1 : Word) <<< 12) else sr

/-- A shift by the bytes from a position to the last one of a value, checked. -/
def byteShift (last pos : Nat) : Option Nat :=
  if pos ≤ last ∧ (last - pos) * 8 < 32 then some ((last - pos) * 8) else none

end Spi

open Spi

/-! ## The switch -/

structure Vsc7448 where
  regs : RegFile
  /-- The registers of the switch, by word address. -/
  vsc : Word → Word
  rx : List Byte
  /-- The position in the transaction. -/
  idx : Nat
  isWrite : Bool
  waddr : Word
  /-- The value that is read out. -/
  rval : Word
  /-- The value that is put together. -/
  wval : Word
  /-- The registers of the PHYs, by MIIM address, page and register. -/
  phyRegs : Byte × Half × Byte → Half
  phyPage : Byte → Half
  /-- The result of the last MIIM read. -/
  miiData : Word

namespace Vsc7448

def new : Vsc7448 where
  regs := fun _ => 0
  vsc := fun _ => 0
  rx := []
  idx := 0
  isWrite := false
  waddr := 0
  rval := 0
  wval := 0
  phyRegs := fun _ => 0
  phyPage := fun _ => 0
  miiData := 0

variable (s : Vsc7448)

/-- The register at a word address. -/
def regAddr (waddr : Word) : Word := 0x71000000 ||| (waddr <<< 2)

/-- CHIP_ID, the locked PLL and the MIIM status and data read as they are; the 10G serdes registers
report lock and calibration over what was stored. -/
def vscRead (waddr : Word) : Word :=
  if waddr = 0x4000 then 0x374680E9
  else if waddr = 0x11800f then (5 : Word) <<< 14
  else if waddr = 0x4032 then 0
  else if waddr = 0x4035 then s.miiData
  else
    let reg := regAddr waddr
    let stored := s.vsc waddr
    if within 0x71480000 0x714C0000 reg then
      if reg &&& 0xFFFF = 0x18c ∨ reg &&& 0xFFFF = 0xcc then stored ||| 0x80000000
      else if reg &&& 0xFFFF = 0x190 ∨ reg &&& 0xFFFF = 0xd0 then stored ||| 0xd
      else stored
    else if within 0x714C0000 0x71500000 reg ∧ reg &&& 0xFFFF = 0x20 then stored ||| 0x2
    else stored

/-! ## The PHYs -/

def phyRead (phy reg : Byte) : Half :=
  if reg = 31 then s.phyPage phy
  else
    let page := s.phyPage phy
    let stored := s.phyRegs (phy, page, reg)
    if page = 0 ∧ reg = 2 then 0x0007
    else if page = 0 ∧ reg = 3 then 0x04c2
    else if page = 1 ∧ reg = 23 then
      (stored &&& 0x07ff) ||| (((phy - 4).setWidth 16 &&& 0x1f) <<< 11)
    else if page = 16 ∧ reg = 30 then 0x0001
    else stored

/-- Resets and micro commands complete at once; the CRC command leaves the expected CRC. -/
def phyWrite (phy reg : Byte) (v : Half) : Vsc7448 :=
  if reg = 31 then { s with phyPage := Function.update s.phyPage phy v }
  else
    let page := s.phyPage phy
    if page = 0 ∧ reg = 0 then
      { s with phyRegs := Function.update s.phyRegs (phy, page, reg) (v &&& ~~~0x8000) }
    else if page = 16 ∧ reg = 18 then
      let regs := if v = 0x8008 then Function.update s.phyRegs (phy, 1, 25) 0x29E8 else s.phyRegs
      { s with phyRegs := Function.update regs (phy, page, reg) (v &&& ~~~0xC000) }
    else { s with phyRegs := Function.update s.phyRegs (phy, page, reg) v }

/-- MII_CMD was written: run the PHY access. -/
def miiCmd (v : Word) : Vsc7448 :=
  if v >>> 31 = 0 then s
  else
    let phy := ((v >>> 25) &&& 0x1f).setWidth 8
    let reg := ((v >>> 20) &&& 0x1f).setWidth 8
    if (v >>> 1) &&& 3 = 1 then s.phyWrite phy reg (((v >>> 4) &&& 0xffff).setWidth 16)
    else if (v >>> 1) &&& 3 = 2 then { s with miiData := (s.phyRead phy reg).setWidth 32 }
    else s

/-! ## Transactions -/

/-- The RAM_CTRL registers of QSYS, REW, VOP, ANA_AC, ASM and DSM. -/
def ramInitRegs : List Word :=
  [0x717e03ec, 0x71b53528, 0x71c43638, 0x71f94358, 0x714139b8, 0x71450008]

/-- The register write that the last byte completes. Strobes are stored cleared. -/
def vscWrite (a v : Word) : Vsc7448 :=
  let v := if regAddr a ∈ ramInitRegs then v &&& ~~~0x2 else v
  let v := if a = 0x11803a ∨ a = 0x11805a then v &&& ~~~0xC0000000 else v
  let s := if a = 0x4034 then s.miiCmd v else s
  { s with vsc := Function.update s.vsc a v }

/-- Clock one byte, by its position in the transaction. -/
def xferByte (b : Byte) : Option (Byte × Vsc7448) :=
  let pos := s.idx
  let s := { s with idx := s.idx + 1 }
  match pos with
  | 0 => some (0, { s with
      isWrite := b &&& 0x80 != 0, waddr := ((b &&& 0x7f).setWidth 32 : Word) <<< 16 })
  | 1 => some (0, { s with waddr := s.waddr ||| ((b.setWidth 32 : Word) <<< 8) })
  | 2 =>
      let s := { s with waddr := s.waddr ||| b.setWidth 32 }
      some (0, if s.isWrite then s else { s with rval := s.vscRead s.waddr })
  | pos => do
      if s.isWrite then
        let sh ← byteShift 6 pos
        let s := { s with
          wval := (s.wval &&& ~~~((0xFF : Word) <<< sh)) ||| ((b.setWidth 32 : Word) <<< sh) }
        some (0, if pos = 6 then s.vscWrite s.waddr s.wval else s)
      else if pos = 3 then some (0, s)
      else
        let sh ← byteShift 7 pos
        some (((s.rval >>> sh) &&& 0xFF).setWidth 8, s)

def read (off : Word) : Word × Vsc7448 :=
  if alignWord off = sr then
    (spiSr (BitVec.ofNat 32 s.idx) (s.regs cr2 &&& 0xFFFF) (!s.rx.isEmpty), s)
  else if alignWord off = rxdr then
    match s.rx with
    | [] => (0, s)
    | b :: rx => (b.setWidth 32, { s with rx := rx })
  else if alignWord off = txdr then (0, s)
  else (s.regs (alignWord off), s)

/-- A rise of SPE starts a transaction. -/
def write (off val : Word) : Option Vsc7448 :=
  if alignWord off = txdr then do
    let (rx, s) ← s.xferByte (val.setWidth 8)
    some { s with rx := s.rx ++ [rx] }
  else if alignWord off = cr1 then
    let wasSpe := s.regs cr1 &&& spe ≠ 0
    let s := { s with regs := s.regs.set cr1 val }
    if val &&& spe ≠ 0 ∧ ¬ wasSpe then
      some { s with idx := 0, rx := [], wval := 0, isWrite := false }
    else some s
  else some { s with regs := s.regs.set (alignWord off) val }

/-! ## The driver -/

/-- The driver sends a byte and takes the one that comes back. -/
def clock (s : Vsc7448) (b : Byte) : Option (Byte × Vsc7448) := do
  let s ← s.write txdr (b.setWidth 32)
  let (v, s) := s.read rxdr
  some (v.setWidth 8, s)

/-- One transaction: SPE falls and rises, and any number of bytes is clocked. -/
def transact (s : Vsc7448) (t : List Byte) : Option (List Byte × Vsc7448) := do
  let s ← s.write cr1 0
  let s ← s.write cr1 spe
  run clock t s

/-! ## What a transaction says -/

/-- The first byte asks for a write. -/
def writes : List Byte → Bool
  | [] => false
  | b :: _ => b &&& 0x80 != 0

/-- The word address that the first three bytes give. -/
def addrOf (b₀ b₁ b₂ : Byte) : Word :=
  ((b₀ &&& 0x7f).setWidth 32 : Word) <<< 16 ||| (b₁.setWidth 32 : Word) <<< 8 ||| b₂.setWidth 32

/-- A byte of a word, put at a shift. -/
def putByte (w : Word) (sh : Nat) (b : Byte) : Word :=
  (w &&& ~~~((0xFF : Word) <<< sh)) ||| ((b.setWidth 32 : Word) <<< sh)

/-- The value that the four bytes behind the address give. -/
def valueOf (b₃ b₄ b₅ b₆ : Byte) : Word :=
  putByte (putByte (putByte (putByte 0 24 b₃) 16 b₄) 8 b₅) 0 b₆

/-- The bytes of an address and of a value, the most significant first. -/
def addrBytes (flag : Byte) (a : Word) : List Byte :=
  [flag ||| byteOf a 2, byteOf a 1, byteOf a 0]

def valueBytes (v : Word) : List Byte := [byteOf v 3, byteOf v 2, byteOf v 1, byteOf v 0]

def writeTx (a v : Word) : List Byte := addrBytes 0x80 a ++ valueBytes v

/-- A read: a pad byte and four more are clocked after the address. -/
def readTx (a : Word) (fill : List Byte) : List Byte := addrBytes 0 a ++ fill

/-- No byte behind the value. -/
def Fits (t : List Byte) : Prop := t.length ≤ if writes t then 7 else 8

instance (t : List Byte) : Decidable (Fits t) := inferInstanceAs (Decidable (_ ≤ _))

theorem fits_of_length {t : List Byte} (h : t.length ≤ 7) : Fits t := by
  unfold Fits
  split
  · exact h
  · omega

theorem writes_append {p : List Byte} (hp : p ≠ []) (q : List Byte) :
    writes (p ++ q) = writes p := by
  cases p with
  | nil => exact absurd rfl hp
  | cons b p => rfl

theorem Fits.of_append {p q : List Byte} (h : Fits (p ++ q)) : Fits p := by
  rcases eq_or_ne p [] with rfl | hp
  · exact Nat.zero_le _
  · unfold Fits at h ⊢
    rw [writes_append hp, List.length_append] at h
    omega

/-! ## One byte -/

theorem byteShift_isSome {last pos : Nat} (hlast : last ≤ pos + 3) :
    (byteShift last pos).isSome ↔ pos ≤ last := by
  unfold byteShift
  constructor
  · intro h
    split at h
    · rename_i hpos
      exact hpos.1
    · cases h
  · intro h
    rw [if_pos ⟨h, by omega⟩]
    rfl

/-- In a transaction, behind the bytes `p`: no register is written before the last byte of a
value. -/
structure InTx (f : Word → Word) (p : List Byte) (s : Vsc7448) : Prop where
  idx : s.idx = p.length
  isWrite : s.isWrite = writes p
  rx : s.rx = []
  vsc : p.length < 7 ∨ writes p = false → s.vsc = f

/-- A PHY access changes nothing but the PHYs. -/
theorem phyWrite_eq (phy reg : Byte) (v : Half) :
    ∃ regs page, s.phyWrite phy reg v = { s with phyRegs := regs, phyPage := page } := by
  unfold phyWrite
  split
  · exact ⟨s.phyRegs, _, rfl⟩
  · dsimp only
    split
    · exact ⟨_, s.phyPage, rfl⟩
    · split
      · exact ⟨_, s.phyPage, rfl⟩
      · exact ⟨_, s.phyPage, rfl⟩

theorem miiCmd_eq (v : Word) :
    ∃ regs page d, s.miiCmd v = { s with phyRegs := regs, phyPage := page, miiData := d } := by
  unfold miiCmd
  split
  · exact ⟨s.phyRegs, s.phyPage, s.miiData, rfl⟩
  · dsimp only
    split
    · obtain ⟨regs, page, heq⟩ := s.phyWrite_eq (((v >>> 25) &&& 0x1f).setWidth 8)
        (((v >>> 20) &&& 0x1f).setWidth 8) (((v >>> 4) &&& 0xffff).setWidth 16)
      exact ⟨regs, page, s.miiData, heq⟩
    · split
      · exact ⟨s.phyRegs, s.phyPage, _, rfl⟩
      · exact ⟨s.phyRegs, s.phyPage, s.miiData, rfl⟩

/-- Some value is stored at the address, and only a PHY access may follow. -/
theorem vscWrite_eq (a v : Word) : ∃ w regs page d, s.vscWrite a v = { s with
    vsc := Function.update s.vsc a w, phyRegs := regs, phyPage := page, miiData := d } := by
  unfold vscWrite
  dsimp only
  split
  · generalize (if a = 0x11803a ∨ a = 0x11805a then _ else _ : Word) = w
    obtain ⟨regs, page, d, heq⟩ := s.miiCmd_eq w
    exact ⟨w, regs, page, d, by rw [heq]⟩
  · exact ⟨_, s.phyRegs, s.phyPage, s.miiData, rfl⟩

variable {s}

theorem xferByte_zero {b : Byte} (hidx : s.idx = 0) : s.xferByte b = some (0, { s with
    idx := 1, isWrite := b &&& 0x80 != 0,
    waddr := ((b &&& 0x7f).setWidth 32 : Word) <<< 16 }) := by
  simp only [xferByte, hidx]

theorem xferByte_one {b : Byte} (hidx : s.idx = 1) : s.xferByte b = some (0, { s with
    idx := 2, waddr := s.waddr ||| ((b.setWidth 32 : Word) <<< 8) }) := by
  simp only [xferByte, hidx]

theorem xferByte_two {b : Byte} (hidx : s.idx = 2) : s.xferByte b = some (0, { s with
    idx := 3, waddr := s.waddr ||| b.setWidth 32,
    rval := if s.isWrite then s.rval else s.vscRead (s.waddr ||| b.setWidth 32) }) := by
  cases hw : s.isWrite with
  | true => simp only [xferByte, hidx, hw, if_true]
  | false => simp only [xferByte, hidx, hw, Bool.false_eq_true, if_false]; rfl

/-- A byte of a value, and the write that the last one completes. -/
theorem xferByte_value {n : Nat} {b : Byte} (hidx : s.idx = n + 3) (hw : s.isWrite = true) :
    s.xferByte b = (byteShift 6 (n + 3)).map fun sh =>
      let w := (s.wval &&& ~~~((0xFF : Word) <<< sh)) ||| ((b.setWidth 32 : Word) <<< sh)
      let s' : Vsc7448 := { s with idx := n + 4, wval := w }
      (0, if n + 3 = 6 then s'.vscWrite s.waddr w else s') := by
  simp only [xferByte, hidx, hw, if_true, Option.map_eq_bind]
  rfl

theorem xferByte_pad {b : Byte} (hidx : s.idx = 3) (hw : s.isWrite = false) :
    s.xferByte b = some (0, { s with idx := 4 }) := by
  simp only [xferByte, hidx, hw, Bool.false_eq_true, if_false, if_true]

theorem xferByte_out {n : Nat} {b : Byte} (hidx : s.idx = n + 4) (hw : s.isWrite = false) :
    s.xferByte b = (byteShift 7 (n + 4)).map fun sh =>
      (((s.rval >>> sh) &&& 0xFF).setWidth 8, { s with idx := n + 5 }) := by
  simp only [xferByte, hidx, hw, Bool.false_eq_true, if_false, Option.map_eq_bind]
  rw [if_neg (by omega)]
  rfl

theorem InTx.next {f : Word → Word} {p : List Byte} {b o : Byte} {s' : Vsc7448}
    (h : InTx f p s) (hb : s.xferByte b = some (o, s')) : InTx f (p ++ [b]) s' := by
  have hidx := h.idx
  -- the three bytes of the address, and then those of a value
  rcases p with _ | ⟨b₀, _ | ⟨b₁, _ | ⟨b₂, p⟩⟩⟩
  · cases (xferByte_zero hidx).symm.trans hb
    exact ⟨rfl, rfl, h.rx, fun _ => h.vsc (.inl (by simp))⟩
  · cases (xferByte_one hidx).symm.trans hb
    exact ⟨rfl, h.isWrite, h.rx, fun _ => h.vsc (.inl (by simp))⟩
  · cases (xferByte_two hidx).symm.trans hb
    exact ⟨rfl, h.isWrite, h.rx, fun _ => h.vsc (.inl (by simp))⟩
  · have hlen : (b₀ :: b₁ :: b₂ :: p ++ [b]).length = p.length + 4 := by simp
    have hflag := h.isWrite
    cases hw : s.isWrite with
    | true =>
        rw [xferByte_value hidx hw] at hb
        obtain ⟨sh, -, heq⟩ := Option.map_eq_some_iff.mp hb
        dsimp only at heq
        split at heq
        -- the last byte of a value: nothing is claimed about the registers
        · rename_i hlast
          obtain ⟨w, regs, page, d, hwrite⟩ := vscWrite_eq (s := { s with
            idx := p.length + 4, wval := _ }) s.waddr _
          rw [hwrite] at heq
          cases heq
          refine ⟨hlen.symm, hflag, h.rx, fun hno => ?_⟩
          rcases hno with hno | hno
          · omega
          · exact absurd (hw.symm.trans (hflag.trans hno)) (by decide)
        · cases heq
          refine ⟨hlen.symm, hflag, h.rx, fun hno => h.vsc ?_⟩
          rcases hno with hno | hno
          · exact .inl (by simp at hno ⊢; omega)
          · exact .inr hno
    | false =>
        have hvsc := h.vsc (.inr (hflag.symm.trans hw))
        cases p with
        | nil =>
            cases (xferByte_pad hidx hw).symm.trans hb
            exact ⟨rfl, hflag, h.rx, fun _ => hvsc⟩
        | cons b₃ p =>
            rw [xferByte_out hidx hw] at hb
            obtain ⟨sh, -, heq⟩ := Option.map_eq_some_iff.mp hb
            cases heq
            exact ⟨hlen.symm, hflag, h.rx, fun _ => hvsc⟩

/-- The shifts are in range up to the last byte of the protocol. -/
theorem InTx.isSome_xferByte {f : Word → Word} {p : List Byte} {b : Byte} (h : InTx f p s)
    (hp : Fits p) : (s.xferByte b).isSome ↔ Fits (p ++ [b]) := by
  have hidx := h.idx
  rcases p with _ | ⟨b₀, _ | ⟨b₁, _ | ⟨b₂, p⟩⟩⟩
  · rw [xferByte_zero hidx]
    exact iff_of_true rfl (fits_of_length (by simp))
  · rw [xferByte_one hidx]
    exact iff_of_true rfl (fits_of_length (by simp))
  · rw [xferByte_two hidx]
    exact iff_of_true rfl (fits_of_length (by simp))
  · unfold Fits
    rw [writes_append (List.cons_ne_nil b₀ _), ← h.isWrite, List.length_append]
    cases hw : s.isWrite with
    | true =>
        rw [xferByte_value hidx hw, Option.isSome_map, byteShift_isSome (by omega), if_pos rfl]
        simp only [List.length_cons, List.length_nil]
        omega
    | false =>
        rw [if_neg Bool.false_ne_true]
        cases p with
        | nil =>
            rw [xferByte_pad hidx hw]
            exact iff_of_true rfl (by simp)
        | cons b₃ p =>
            rw [xferByte_out hidx hw, Option.isSome_map, byteShift_isSome (by omega)]
            simp only [List.length_cons, List.length_nil]
            omega

/-! ## One transaction -/

/-- The switch when SPE has risen. -/
def selected (s : Vsc7448) : Vsc7448 :=
  { s with regs := (s.regs.set cr1 0).set cr1 spe, idx := 0, rx := [], wval := 0, isWrite := false }

theorem inTx_selected (s : Vsc7448) : InTx s.vsc [] s.selected := ⟨rfl, rfl, rfl, fun _ => rfl⟩

theorem read_rxdr {b : Byte} (h : s.rx = [b]) :
    s.read rxdr = (b.setWidth 32, { s with rx := [] }) := by
  unfold read
  rw [if_neg (by decide), if_pos (by decide), h]

theorem write_txdr (b : Byte) : s.write txdr (b.setWidth 32) = (s.xferByte b).map fun r =>
    { r.2 with rx := r.2.rx ++ [r.1] } := by
  unfold write
  rw [if_pos (by decide), Option.map_eq_bind, BitVec.setWidth_setWidth_of_le b (by decide),
    BitVec.setWidth_eq]
  rfl

/-- What a byte gives is taken at once. -/
theorem InTx.clock_eq {f : Word → Word} {p : List Byte} {b : Byte} (h : InTx f p s) :
    s.clock b = s.xferByte b := by
  unfold clock
  rw [write_txdr]
  cases hb : s.xferByte b with
  | none => rfl
  | some r =>
      obtain ⟨o, s'⟩ := r
      have hrx : s'.rx = [] := (h.next hb).rx
      simp only [Option.map_some, Option.bind_eq_bind, Option.bind_some]
      rw [read_rxdr (s := { s' with rx := s'.rx ++ [o] }) (by rw [hrx, List.nil_append])]
      simp only [BitVec.setWidth_setWidth_of_le o (by decide : 8 ≤ 32), BitVec.setWidth_eq]
      rw [← hrx]

theorem transact_eq (s : Vsc7448) (t : List Byte) :
    s.transact t = run xferByte t s.selected := by
  have hlow : s.write cr1 0 = some { s with regs := s.regs.set cr1 0 } := by
    unfold write
    rw [if_neg (by decide), if_pos (by decide)]
    simp
  have hhigh : ({ s with regs := s.regs.set cr1 0 } : Vsc7448).write cr1 spe =
      some s.selected := by
    unfold write
    rw [if_neg (by decide), if_pos (by decide)]
    dsimp only
    rw [if_pos ⟨by decide, by simp [RegFile.set]⟩]
    rfl
  have hrun : run clock t s.selected = run xferByte t s.selected :=
    run_congr (I := InTx s.vsc) (fun p s b h => h.clock_eq) (fun p s b o s' h hb => h.next hb)
      s.inTx_selected
  unfold transact
  rw [hlow, Option.bind_eq_bind, Option.bind_some, hhigh]
  exact hrun

/-! ## Reads and writes of a register -/

theorem transact_isSome_iff (s : Vsc7448) (t : List Byte) :
    (s.transact t).isSome ↔ Fits t := by
  rw [transact_eq]
  exact isSome_run_iff (I := InTx s.vsc) (C := Fits) (fun p q h => h.of_append)
    (fun p s b h hp => h.isSome_xferByte hp) (fun p s b o s' h hb => h.next hb)
    s.inTx_selected (fits_of_length (by simp))

/-- A transaction that is cut short, or reads, writes no register. -/
theorem vsc_of_transact {t o : List Byte} {s' : Vsc7448}
    (h : s.transact t = some (o, s')) (ht : t.length < 7 ∨ writes t = false) : s'.vsc = s.vsc := by
  rw [transact_eq] at h
  exact (invariant_of_run (I := InTx s.vsc) (fun p s b o s' h hb => h.next hb)
    s.inTx_selected h).vsc ht

theorem xferByte_value_of_lt {n : Nat} {b : Byte} (hn : n < 3) (hidx : s.idx = n + 3)
    (hw : s.isWrite = true) : s.xferByte b =
      some (0, { s with idx := n + 4, wval := putByte s.wval ((3 - n) * 8) b }) := by
  have hsh : byteShift 6 (n + 3) = some ((3 - n) * 8) := by
    unfold byteShift
    rw [if_pos (by omega), show 6 - (n + 3) = 3 - n by omega]
  rw [xferByte_value hidx hw, hsh, Option.map_some]
  dsimp only
  rw [if_neg (by omega)]
  rfl

theorem xferByte_value_last {b : Byte} (hidx : s.idx = 6) (hw : s.isWrite = true) :
    s.xferByte b = some (0, ({ s with idx := 7, wval := putByte s.wval 0 b } : Vsc7448).vscWrite
      s.waddr (putByte s.wval 0 b)) := by
  rw [xferByte_value (n := 3) hidx hw]
  rfl

/-- The last byte of a value completes the write. -/
theorem transact_write (s : Vsc7448) {b₀ b₁ b₂ b₃ b₄ b₅ b₆ : Byte}
    (hw : writes [b₀, b₁, b₂, b₃, b₄, b₅, b₆] = true) : ∃ r : Vsc7448, r.vsc = s.vsc ∧
      s.transact [b₀, b₁, b₂, b₃, b₄, b₅, b₆] =
        some ([0, 0, 0, 0, 0, 0, 0], r.vscWrite (addrOf b₀ b₁ b₂) (valueOf b₃ b₄ b₅ b₆)) := by
  have hflag : (b₀ &&& 0x80 != 0) = true := hw
  refine ⟨{ s.selected with
    idx := 7, isWrite := true, waddr := addrOf b₀ b₁ b₂, wval := valueOf b₃ b₄ b₅ b₆ }, rfl, ?_⟩
  rw [transact_eq]
  simp only [run_cons, run_nil]
  rw [xferByte_zero rfl, Option.bind_some, xferByte_one rfl, Option.bind_some, xferByte_two rfl,
    Option.bind_some]
  simp only [hflag, if_true]
  rw [xferByte_value_of_lt (n := 0) (by decide) rfl rfl, Option.bind_some,
    xferByte_value_of_lt (n := 1) (by decide) rfl rfl, Option.bind_some,
    xferByte_value_of_lt (n := 2) (by decide) rfl rfl, Option.bind_some,
    xferByte_value_last rfl rfl, Option.bind_some]
  rfl

theorem xferByte_out_of_lt {n : Nat} {b : Byte} (hn : n < 4) (hidx : s.idx = n + 4)
    (hw : s.isWrite = false) :
    s.xferByte b = some (byteOf s.rval (3 - n), { s with idx := n + 5 }) := by
  have hsh : byteShift 7 (n + 4) = some ((3 - n) * 8) := by
    unfold byteShift
    rw [if_pos (by omega), show 7 - (n + 4) = 3 - n by omega]
  have hcut (w : Word) : (w &&& 0xFF).setWidth 8 = w.setWidth 8 := by
    rw [BitVec.setWidth_and, show (0xFF : Word).setWidth 8 = BitVec.allOnes 8 by decide,
      BitVec.and_allOnes]
  rw [xferByte_out hidx hw, hsh, Option.map_some, hcut, byteOf, Nat.mul_comm]

/-- A read gives a byte for the pad and the register's value. -/
theorem transact_read (s : Vsc7448) {b₀ b₁ b₂ b₃ b₄ b₅ b₆ b₇ : Byte}
    (hw : writes [b₀, b₁, b₂, b₃, b₄, b₅, b₆, b₇] = false) : ∃ r,
      s.transact [b₀, b₁, b₂, b₃, b₄, b₅, b₆, b₇] =
        some ([0, 0, 0, 0] ++ valueBytes (s.vscRead (addrOf b₀ b₁ b₂)), r) := by
  have hflag : (b₀ &&& 0x80 != 0) = false := hw
  rw [transact_eq]
  simp only [run_cons, run_nil]
  rw [xferByte_zero rfl, Option.bind_some, xferByte_one rfl, Option.bind_some, xferByte_two rfl,
    Option.bind_some]
  simp only [hflag, Bool.false_eq_true, if_false]
  rw [xferByte_pad rfl rfl, Option.bind_some,
    xferByte_out_of_lt (n := 0) (by decide) rfl rfl, Option.bind_some,
    xferByte_out_of_lt (n := 1) (by decide) rfl rfl, Option.bind_some,
    xferByte_out_of_lt (n := 2) (by decide) rfl rfl, Option.bind_some,
    xferByte_out_of_lt (n := 3) (by decide) rfl rfl, Option.bind_some]
  exact ⟨_, rfl⟩

/-! ## Registers keep their values -/

theorem byteOf_putByte (w : Word) (b : Byte) {k i : Nat} (hi : i < 4) :
    byteOf (putByte w (8 * k) b) i = if i = k then b else byteOf w i := by
  have hb : (b.setWidth 32 : Word).toNat < 2 ^ (8 * 1) := by
    rw [BitVec.toNat_setWidth_of_le (by decide)]
    exact b.isLt
  have hmerge : putByte w (8 * k) b = mergeBytes 1 k w (b.setWidth 32) := rfl
  rw [hmerge, byteOf_mergeBytes hb hi]
  by_cases hik : i = k
  · rw [if_pos hik, if_pos (by omega), hik, Nat.sub_self, byteOf_byte]
  · rw [if_neg hik, if_neg (by omega)]

theorem valueOf_valueBytes (v : Word) :
    valueOf (byteOf v 3) (byteOf v 2) (byteOf v 1) (byteOf v 0) = v := by
  rw [eq_iff_byteOf]
  intro i hi
  have hvalue : valueOf (byteOf v 3) (byteOf v 2) (byteOf v 1) (byteOf v 0) =
      putByte (putByte (putByte (putByte 0 (8 * 3) (byteOf v 3)) (8 * 2) (byteOf v 2)) (8 * 1)
        (byteOf v 1)) (8 * 0) (byteOf v 0) := rfl
  rw [hvalue, byteOf_putByte _ _ hi, byteOf_putByte _ _ hi, byteOf_putByte _ _ hi,
    byteOf_putByte _ _ hi]
  interval_cases i <;> rfl

theorem byteOf_two_lt {a : Word} (ha : a < 0x800000) : byteOf a 2 < 0x80 := by
  have hlt : a.toNat < 0x800000 := BitVec.lt_def.mp ha
  rw [BitVec.lt_def, byteOf, BitVec.toNat_setWidth, BitVec.toNat_ushiftRight,
    Nat.shiftRight_eq_div_pow, show BitVec.toNat (0x80 : Byte) = 128 from rfl]
  omega

theorem and_mask_of_lt {x : Byte} (hx : x < 0x80) : x &&& 0x7f = x := by
  apply BitVec.eq_of_toNat_eq
  have hlt : x.toNat < 2 ^ 7 := BitVec.lt_def.mp hx
  rw [BitVec.toNat_and, show BitVec.toNat (0x7f : Byte) = 2 ^ 7 - 1 from rfl,
    Nat.and_two_pow_sub_one_eq_mod, Nat.mod_eq_of_lt hlt]

theorem and_top_of_lt {x : Byte} (hx : x < 0x80) : x &&& 0x80 = 0 := by
  rw [← and_mask_of_lt hx, BitVec.and_assoc, show (0x7f : Byte) &&& 0x80 = 0 by decide]
  exact BitVec.and_zero

/-- The top bit of the first byte is not part of the address. -/
theorem addrOf_addrBytes {a : Word} (ha : a < 0x800000) {flag : Byte}
    (hflag : flag &&& 0x7f = 0) :
    addrOf (flag ||| byteOf a 2) (byteOf a 1) (byteOf a 0) = a := by
  have hfirst : (flag ||| byteOf a 2) &&& 0x7f = byteOf a 2 := by
    rw [BitVec.and_or_distrib_right, hflag, and_mask_of_lt (byteOf_two_lt ha)]
    exact BitVec.zero_or
  have hhigh (j : Nat) (hj : 23 ≤ j) : a.getLsbD j = false :=
    Nat.testBit_lt_two_pow (Nat.lt_of_lt_of_le (BitVec.lt_def.mp ha)
      (Nat.pow_le_pow_right (show 0 < 2 by decide) hj))
  rw [addrOf, hfirst]
  -- each bit by the byte that it lies in; the first bit of all is not there
  apply BitVec.eq_of_getLsbD_eq
  intro j hj
  simp only [BitVec.getLsbD_or, BitVec.getLsbD_shiftLeft, BitVec.getLsbD_setWidth,
    getLsbD_byteOf, hj]
  by_cases h8 : j < 8
  · simp [h8, show j < 16 by omega]
  · by_cases h16 : j < 16
    · simp [h8, h16, hj, show j - 8 < 8 by omega, show 8 + (j - 8) = j by omega]
      omega
    · by_cases h24 : j < 24
      · simp [h8, h16, hj, show ¬ j - 8 < 8 by omega, show j - 16 < 8 by omega,
          show 16 + (j - 16) = j by omega]
        omega
      · simp [h8, h16, hj, show ¬ j - 8 < 8 by omega, show ¬ j - 16 < 8 by omega]
        exact hhigh j (by omega)

theorem writes_addrBytes {a : Word} (ha : a < 0x800000) (flag : Byte) (rest : List Byte) :
    writes (addrBytes flag a ++ rest) = (flag &&& 0x80 != 0) := by
  have hfirst : (flag ||| byteOf a 2) &&& 0x80 = flag &&& 0x80 := by
    rw [BitVec.and_or_distrib_right, and_top_of_lt (byteOf_two_lt ha)]
    exact BitVec.or_zero
  exact congrArg (fun b => b != 0) hfirst

/-- Registers that do not just read what was written. -/
def special (waddr : Word) : Bool :=
  let reg := regAddr waddr
  decide (waddr ∈ [0x4000, 0x11800f, 0x4032, 0x4035, 0x11803a, 0x11805a]) ||
    decide (reg ∈ ramInitRegs) ||
    (within 0x71480000 0x714C0000 reg && decide (reg &&& 0xFFFF ∈ [0x18c, 0xcc, 0x190, 0xd0])) ||
    (within 0x714C0000 0x71500000 reg && decide (reg &&& 0xFFFF = 0x20))

theorem vscRead_of_plain {a : Word} (h : special a = false) : s.vscRead a = s.vsc a := by
  simp only [special, Bool.or_eq_false_iff, Bool.and_eq_false_iff, decide_eq_false_iff_not,
    List.mem_cons, List.not_mem_nil, or_false, not_or] at h
  obtain ⟨⟨⟨haddr, -⟩, hgana⟩, hgdig⟩ := h
  unfold vscRead
  rw [if_neg haddr.1, if_neg haddr.2.1, if_neg haddr.2.2.1, if_neg haddr.2.2.2.1]
  dsimp only
  split
  · rename_i hin
    obtain ⟨h₁, h₂, h₃, h₄⟩ :=
      hgana.resolve_left fun hno => Bool.false_ne_true (hno.symm.trans hin)
    rw [if_neg (by rintro (h | h); exacts [h₁ h, h₂ h]),
      if_neg (by rintro (h | h); exacts [h₃ h, h₄ h])]
  · split
    · rename_i hin
      have hother := hgdig.resolve_left fun hno => Bool.false_ne_true (hno.symm.trans hin.1)
      exact absurd hin.2 hother
    · rfl

theorem vscWrite_of_plain {a v : Word} (h : special a = false) :
    (s.vscWrite a v).vsc = Function.update s.vsc a v := by
  simp only [special, Bool.or_eq_false_iff, decide_eq_false_iff_not] at h
  obtain ⟨⟨⟨haddr, hram⟩, -⟩, -⟩ := h
  have hstrobe : ¬ (a = 0x11803a ∨ a = 0x11805a) := fun h =>
    haddr (by rcases h with rfl | rfl <;> decide)
  unfold vscWrite
  rw [if_neg hram]
  dsimp only
  rw [if_neg hstrobe]
  split
  · obtain ⟨regs, page, d, heq⟩ := s.miiCmd_eq v
    rw [heq]
  · rfl

/-- The transaction writes the register. -/
def WritesTo (a : Word) : List Byte → Prop
  | b₀ :: b₁ :: b₂ :: value =>
      writes [b₀] = true ∧ 4 ≤ value.length ∧ addrOf b₀ b₁ b₂ = a
  | _ => False

/-- A register that was written reads its value, other registers being written in between. -/
def ReadsBack (ts outs : List (List Byte)) : Prop :=
  ∀ before mid after a v fill, ts = before ++ writeTx a v :: (mid ++ readTx a fill :: after) →
    special a = false → a < 0x800000 → fill.length = 5 → (∀ t ∈ mid, ¬ WritesTo a t) →
    outs[before.length + 1 + mid.length]? = some ([0, 0, 0, 0] ++ valueBytes v)

/-- The transactions run, and what they read is what was written. -/
def Sound (s : Vsc7448) (ts : List (List Byte)) : Prop :=
  ∃ outs s', run transact ts s = some (outs, s') ∧ ReadsBack ts outs

/-- A register keeps its value unless the transaction writes it. -/
theorem vsc_of_not_writesTo {t o : List Byte} {s' : Vsc7448} {a : Word}
    (h : s.transact t = some (o, s')) (ha : ¬ WritesTo a t) : s'.vsc a = s.vsc a := by
  by_cases ht : t.length < 7 ∨ writes t = false
  · rw [vsc_of_transact h ht]
  · -- what is left is a complete write to another register
    have hfits : Fits t := (s.transact_isSome_iff t).mp (by rw [h]; rfl)
    have hw : writes t = true := Bool.eq_true_of_not_eq_false fun hno => ht (.inr hno)
    have hlen : t.length = 7 := by
      have hle : t.length ≤ 7 := by rwa [Fits, if_pos hw] at hfits
      have hge : ¬ t.length < 7 := fun hno => ht (.inl hno)
      omega
    obtain ⟨b₀, b₁, b₂, b₃, b₄, b₅, b₆, rfl⟩ : ∃ b₀ b₁ b₂ b₃ b₄ b₅ b₆,
        t = [b₀, b₁, b₂, b₃, b₄, b₅, b₆] := by
      rcases t with _ | ⟨b₀, _ | ⟨b₁, _ | ⟨b₂, _ | ⟨b₃, _ | ⟨b₄, _ | ⟨b₅, _ | ⟨b₆, t⟩⟩⟩⟩⟩⟩⟩ <;>
        simp only [List.length_cons, List.length_nil] at hlen <;> try omega
      obtain rfl : t = [] := List.length_eq_zero_iff.mp (by omega)
      exact ⟨b₀, b₁, b₂, b₃, b₄, b₅, b₆, rfl⟩
    obtain ⟨r, hr, heq⟩ := s.transact_write hw
    cases heq.symm.trans h
    obtain ⟨w, regs, page, d, hwrite⟩ := r.vscWrite_eq (addrOf b₀ b₁ b₂) (valueOf b₃ b₄ b₅ b₆)
    rw [hwrite]
    dsimp only
    rw [Function.update_of_ne (fun hne => ha ⟨hw, Nat.le_refl 4, hne.symm⟩), hr]

theorem vsc_of_run {ts outs : List (List Byte)} {s' : Vsc7448} {a : Word}
    (h : run transact ts s = some (outs, s')) (hts : ∀ t ∈ ts, ¬ WritesTo a t) :
    s'.vsc a = s.vsc a := by
  refine invariant_of_run (I := fun p r => (∀ t ∈ p, ¬ WritesTo a t) → r.vsc a = s.vsc a)
    (p := []) (fun p r t o r' hI hstep hp => ?_) (fun _ => rfl) h hts
  rw [vsc_of_not_writesTo hstep (hp t (List.mem_append_right p (List.mem_singleton_self t)))]
  exact hI fun t' ht' => hp t' (List.mem_append_left _ ht')

theorem run_isSome_iff (s : Vsc7448) (ts : List (List Byte)) :
    (run transact ts s).isSome ↔ ∀ t ∈ ts, Fits t := by
  refine isSome_run_iff (I := fun _ _ => True) (C := fun ts => ∀ t ∈ ts, Fits t) (p := [])
    (fun p q h t ht => h t (List.mem_append_left q ht)) (fun p s t _ hp => ?_)
    (fun _ _ _ _ _ _ _ => trivial) trivial (List.forall_mem_nil Fits)
  rw [transact_isSome_iff, List.forall_mem_append, List.forall_mem_singleton]
  exact ⟨fun h => ⟨hp, h⟩, fun h => h.2⟩

theorem readsBack_of_run {ts outs : List (List Byte)} {s' : Vsc7448}
    (h : run transact ts s = some (outs, s')) : ReadsBack ts outs := by
  rintro before mid after a v fill rfl hplain ha hfill hmid
  -- the run is cut at the write and at the read
  obtain ⟨outs₁, rest₁, s₁, hbefore, hrest₁, rfl⟩ := run_append_eq_some.mp h
  obtain ⟨o, rest₂, s₂, hwrite, hrest₂, rfl⟩ := run_cons_eq_some.mp hrest₁
  obtain ⟨outs₂, rest₃, s₃, hmid', hrest₃, rfl⟩ := run_append_eq_some.mp hrest₂
  obtain ⟨o', rest₄, s₄, hread, -, rfl⟩ := run_cons_eq_some.mp hrest₃
  have hstored : s₂.vsc a = v := by
    obtain ⟨r, -, heq⟩ := s₁.transact_write (writes_addrBytes ha 0x80 (valueBytes v))
    cases heq.symm.trans hwrite
    rw [addrOf_addrBytes ha (by decide), valueOf_valueBytes, vscWrite_of_plain hplain,
      Function.update_self]
  have hkept : s₃.vsc a = v := (vsc_of_run hmid' hmid).trans hstored
  have hout : o' = [0, 0, 0, 0] ++ valueBytes v := by
    obtain ⟨f₀, f₁, f₂, f₃, f₄, rfl⟩ : ∃ f₀ f₁ f₂ f₃ f₄, fill = [f₀, f₁, f₂, f₃, f₄] := by
      rcases fill with _ | ⟨f₀, _ | ⟨f₁, _ | ⟨f₂, _ | ⟨f₃, _ | ⟨f₄, fill⟩⟩⟩⟩⟩ <;>
        simp only [List.length_cons, List.length_nil] at hfill <;> try omega
      obtain rfl : fill = [] := List.length_eq_zero_iff.mp (by omega)
      exact ⟨f₀, f₁, f₂, f₃, f₄, rfl⟩
    obtain ⟨r, heq⟩ := s₃.transact_read (writes_addrBytes ha 0 [f₀, f₁, f₂, f₃, f₄])
    cases heq.symm.trans hread
    rw [addrOf_addrBytes ha (by decide), vscRead_of_plain hplain, hkept]
  have hlen : before.length + 1 + mid.length = (outs₁ ++ o :: outs₂).length := by
    rw [List.length_append, List.length_cons, length_of_run hbefore, length_of_run hmid']
    omega
  have hlist : outs₁ ++ o :: (outs₂ ++ o' :: rest₄) = (outs₁ ++ o :: outs₂) ++ o' :: rest₄ := by
    rw [List.append_assoc, List.cons_append]
  rw [hlen, hlist, List.getElem?_append_right (Nat.le_refl _), Nat.sub_self,
    List.getElem?_cons_zero, hout]

/-- The VSC7448 over a sequence of transactions, from any state: none of them shifts out of range,
and registers keep what is written to them, exactly when none is longer than an access. -/
theorem registers_sound_iff (s : Vsc7448) (ts : List (List Byte)) :
    Sound s ts ↔ ∀ t ∈ ts, Fits t := by
  have hruns := run_isSome_iff s ts
  constructor
  · rintro ⟨outs, s', hrun, -⟩
    exact hruns.mp (by rw [hrun]; rfl)
  · intro hts
    obtain ⟨⟨outs, s'⟩, hrun⟩ := Option.isSome_iff_exists.mp (hruns.mpr hts)
    exact ⟨outs, s', hrun, readsBack_of_run hrun⟩

/-- A byte behind a value asks for a negative shift. -/
theorem not_sound : ¬ Sound new [[0x80, 0, 0, 0, 0, 0, 0, 0]] := by
  rintro ⟨outs, s', hrun, -⟩
  have hruns := (run_isSome_iff new [[0x80, 0, 0, 0, 0, 0, 0, 0]]).mp (by rw [hrun]; rfl)
  exact absurd hruns (by decide)

end Vsc7448

end SpEmu
