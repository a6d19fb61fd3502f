import SpEmu.Debug.DebugPort
import SpEmu.Lib.BitStream

/-!
# The RoT's SWD engine

The RoT drives the SP's debug port over raw SWD, which its FLEXCOMM5 clocks out in frames of 1 to
16 bits. `RotSwdSpi` recovers the register transfers from the frames and queues them on the
`SwdLink`; the serve loop of the SP runs them and hands the result of a read back.

The acknowledge is queued at once, and always OK. A write is complete with its 34th data bit, a
read with the result, which becomes four frames as soon as the acknowledge has been read.
-/

set_option autoImplicit false

namespace SpEmu

open ByteMem

/-- A transfer to run against the SP. -/
structure SwdReq where
  ap : Bool
  rnw : Bool
  a : Byte
  wdata : Word
  deriving DecidableEq, Repr

structure SwdLink where
  /-- RoT to serve loop: the decoded transfers, in order. -/
  req : List SwdReq
  /-- Serve loop to RoT: the result of the outstanding read. -/
  resp : Option Word

/-- The phase of the decoder. -/
inductive SwdPhase where
  /-- Watching for a request byte. -/
  | idle
  /-- A read is in flight. -/
  | readData
  /-- A write is in flight, with the data bits so far and their number. -/
  | writeData (acc : BitVec 64) (bits : Nat) (ap : Bool) (a : Byte)

structure RotSwdSpi where
  /-- The frames that the RoT will read. -/
  rx : List Half
  phase : SwdPhase

namespace RotSwdSpi

def stat : Word := 0x408
def fifostat : Word := 0xE04
def fifowrAddr : Word := 0xE20
def fiford : Word := 0xE30

def statMstidle : Word := (1 : Word) <<< 8
def fifostatTxnotfull : Word := (1 : Word) <<< 5
def fifostatRxnotempty : Word := (1 : Word) <<< 6

/-- The acknowledge OK, as the RoT reads it. -/
def ackOk : Half := 0x4

def new : RotSwdSpi := ⟨[], .idle⟩

/-- The parity bit of a word. -/
def parity (data : Word) : Half := (data.cpop &&& 1).setWidth 16

/-- A read result as frames of 8, 8, 8 and 9 bits, each byte bit-reversed, with the parity bit
behind the last one. -/
def readFrames (data : Word) : List Half :=
  [(byteOf data 0).reverse.setWidth 16, (byteOf data 1).reverse.setWidth 16,
    (byteOf data 2).reverse.setWidth 16,
    ((byteOf data 3).reverse.setWidth 16 <<< 1) ||| parity data]

/-- The width and the data of a FIFOWR write. -/
def frameLen (val : Word) : Nat := ((val >>> 24) &&& 0xF).toNat + 1
def frameData (val : Word) : Half := val.setWidth 16

/-- Start, stop and park bits of a request byte. -/
def IsRequest (val : Word) : Prop := frameLen val = 8 ∧ frameData val &&& 0x83 = 0x81

instance (val : Word) : Decidable (IsRequest val) := inferInstanceAs (Decidable (_ ∧ _))

variable (s : RotSwdSpi) (lk : SwdLink)

/-- Turn the result of a read into frames, once the acknowledge has been read. -/
def maybeSupplyReadData : RotSwdSpi × SwdLink :=
  match s.phase, s.rx, lk.resp with
  | .readData, [], some data => (⟨readFrames data, .idle⟩, { lk with resp := none })
  | _, _, _ => (s, lk)

/-- FIFOWR: clock a frame out. -/
def fifowr (val : Word) : RotSwdSpi × SwdLink :=
  let len := frameLen val
  let data := frameData val
  match s.phase with
  | .idle =>
      if IsRequest val then
        let ap := (data >>> 6) &&& 1 != 0
        let rnw := (data >>> 5) &&& 1 != 0
        let a2 := (data >>> 4) &&& 1
        let a3 := (data >>> 3) &&& 1
        let a : Byte := ((a2 <<< 2) ||| (a3 <<< 3)).setWidth 8
        if rnw then
          (⟨s.rx ++ [ackOk], .readData⟩, { lk with req := lk.req ++ [⟨ap, true, a, 0⟩] })
        else (⟨s.rx ++ [ackOk], .writeData 0 0 ap a⟩, lk)
      else (s, lk)
  | .readData => (s, lk)
  | .writeData acc bits ap a =>
      -- The dummy frame behind which the acknowledge is read.
      if len = 4 then (s, lk)
      else
        let acc := (acc <<< len) ||| (data.setWidth 64 &&& ((1#64 <<< len) - 1#64))
        let bits := bits + len
        if 34 ≤ bits then
          let rev : Word := ((acc >>> 1) &&& 0xFFFFFFFF).setWidth 32
          (⟨s.rx, .idle⟩, { lk with req := lk.req ++ [⟨ap, false, a, rev.reverse⟩] })
        else (⟨s.rx, .writeData acc bits ap a⟩, lk)

/-- FIFORD: the next frame, or 0. -/
def popFrame : Half × RotSwdSpi := (s.rx.headD 0, { s with rx := s.rx.tail })

def read (off : Word) : Word × RotSwdSpi × SwdLink :=
  let off := alignWord off
  if off = stat then (statMstidle, s, lk)
  else if off = fifostat then
    let (s, lk) := s.maybeSupplyReadData lk
    (fifostatTxnotfull ||| if s.rx = [] then 0 else fifostatRxnotempty, s, lk)
  else if off = fiford then
    let (s, lk) := s.maybeSupplyReadData lk
    let (v, s) := s.popFrame
    (v.setWidth 32, s, lk)
  else (0, s, lk)

def write (off val : Word) : RotSwdSpi × SwdLink :=
  if alignWord off = fifowrAddr then s.fifowr lk val else (s, lk)

/-! ## Requests -/

variable {val : Word}

theorem shift_and_one (x : Half) (i : Nat) :
    (x >>> i) &&& 1 = if x.getLsbD i then 1 else 0 := by
  apply BitVec.eq_of_getLsbD_eq
  intro j hj
  rw [BitVec.getLsbD_and, BitVec.getLsbD_ushiftRight]
  cases j with
  | zero =>
      rw [Nat.add_zero]
      cases x.getLsbD i <;> rfl
  | succ j => cases x.getLsbD i <;> simp

theorem bit_ne_zero (x : Half) (i : Nat) : ((x >>> i) &&& 1 != 0) = x.getLsbD i := by
  rw [shift_and_one]
  cases x.getLsbD i <;> rfl

/-- The two address bits, in place. -/
def address (a2 a3 : Bool) : Byte := (if a2 then 4 else 0) ||| if a3 then 8 else 0

theorem address_eq (x : Half) : ((((x >>> 4) &&& 1) <<< 2) ||| (((x >>> 3) &&& 1) <<< 3)).setWidth 8
    = address (x.getLsbD 4) (x.getLsbD 3) := by
  rw [shift_and_one, shift_and_one]
  cases x.getLsbD 4 <;> cases x.getLsbD 3 <;> rfl

theorem isRequest_bits (x : Half) : x &&& 0x83 = 0x81 ↔
    x.getLsbD 7 = true ∧ x.getLsbD 1 = false ∧ x.getLsbD 0 = true := by
  constructor
  · intro h
    have hbit : ∀ i, (x.getLsbD i && (0x83 : Half).getLsbD i) = (0x81 : Half).getLsbD i := by
      intro i
      rw [← BitVec.getLsbD_and, h]
    have h7 := hbit 7
    have h1 := hbit 1
    have h0 := hbit 0
    rw [show (0x83 : Half).getLsbD 7 = true from rfl, Bool.and_true] at h7
    rw [show (0x83 : Half).getLsbD 1 = true from rfl, Bool.and_true] at h1
    rw [show (0x83 : Half).getLsbD 0 = true from rfl, Bool.and_true] at h0
    exact ⟨h7, h1, h0⟩
  · rintro ⟨h7, h1, h0⟩
    apply BitVec.eq_of_getLsbD_eq
    intro i hi
    have hrest : ∀ i, i < 16 → i ≠ 0 → i ≠ 1 → i ≠ 7 →
        (0x83 : Half).getLsbD i = false ∧ (0x81 : Half).getLsbD i = false := by decide
    rw [BitVec.getLsbD_and]
    rcases eq_or_ne i 0 with rfl | hi0
    · rw [h0]
      rfl
    rcases eq_or_ne i 1 with rfl | hi1
    · rw [h1]
      rfl
    rcases eq_or_ne i 7 with rfl | hi7
    · rw [h7]
      rfl
    · obtain ⟨hmask, hvalue⟩ := hrest i hi hi0 hi1 hi7
      rw [hmask, hvalue, Bool.and_false]

/-! ## Read results -/

/-- What the RoT makes of the frames of a read: the data and the parity bit. -/
def decodeRead : List Half → Option (Word × Half)
  | [ack, f₀, f₁, f₂, f₃] =>
      if ack = ackOk then
        some (fromLeBytes (f₀.setWidth 8).reverse (f₁.setWidth 8).reverse (f₂.setWidth 8).reverse
          ((f₃ >>> 1).setWidth 8).reverse, f₃ &&& 1)
      else none
  | _ => none

theorem parity_cases (d : Word) : parity d = 0 ∨ parity d = 1 := by
  have hlow : (d.cpop &&& 1).toNat = d.cpop.toNat % 2 := by
    rw [BitVec.toNat_and]
    exact Nat.and_one_is_mod _
  rcases Nat.mod_two_eq_zero_or_one d.cpop.toNat with hz | ho
  · left
    rw [parity, show d.cpop &&& 1 = 0 from BitVec.eq_of_toNat_eq (hlow.trans hz)]
    rfl
  · right
    rw [parity, show d.cpop &&& 1 = 1 from BitVec.eq_of_toNat_eq (hlow.trans ho)]
    rfl

/-- The last frame gives the byte and the parity bit back. -/
theorem lastFrame (b : Byte) {p : Half} (hp : p = 0 ∨ p = 1) :
    (((b.setWidth 16 <<< 1) ||| p) >>> 1).setWidth 8 = b ∧
      ((b.setWidth 16 <<< 1) ||| p) &&& 1 = p := by
  have hhigh : ∀ i, p.getLsbD (1 + i) = false := by
    intro i
    rcases hp with rfl | rfl <;> simp
  have hlow : ((b.setWidth 16 <<< 1) ||| p).getLsbD 0 = p.getLsbD 0 := by
    rw [BitVec.getLsbD_or, BitVec.getLsbD_shiftLeft]
    simp
  constructor
  · apply BitVec.eq_of_getLsbD_eq
    intro i hi
    rw [BitVec.getLsbD_setWidth, BitVec.getLsbD_ushiftRight, BitVec.getLsbD_or, hhigh,
      BitVec.getLsbD_shiftLeft, BitVec.getLsbD_setWidth, Nat.add_sub_cancel_left]
    have hin : 1 + i < 16 := by omega
    have hsmall : i < 16 := by omega
    simp [hi, hin, hsmall]
  · have hone := shift_and_one ((b.setWidth 16 <<< 1) ||| p) 0
    rw [hlow] at hone
    rw [← BitVec.ushiftRight_zero ((b.setWidth 16 <<< 1) ||| p), hone]
    rcases hp with rfl | rfl <;> rfl

/-- The frames of a read decode to its data, with the right parity. -/
theorem decodeRead_readFrames (d : Word) :
    decodeRead (ackOk :: readFrames d) = some (d, parity d) := by
  obtain ⟨hbyte, hparity⟩ := lastFrame (byteOf d 3).reverse (parity_cases d)
  have hwiden : ∀ b : Byte, (b.setWidth 16).setWidth 8 = b := by
    intro b
    rw [BitVec.setWidth_setWidth_of_le b (by decide), BitVec.setWidth_eq]
  rw [readFrames, decodeRead, if_pos rfl, hbyte, hparity, hwiden, hwiden, hwiden,
    BitVec.reverse_reverse_eq, BitVec.reverse_reverse_eq, BitVec.reverse_reverse_eq,
    BitVec.reverse_reverse_eq, fromLeBytes_byteOf]

end RotSwdSpi

end SpEmu
