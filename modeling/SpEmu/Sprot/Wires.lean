import SpEmu.Sprot.Link

/-!
# The wires between the two cores

`Wires` is the link with the SP's SPI master and its GPIO, the devices that move bytes over it. A
`WireEvent` is one register access of either core, and an interleaving is a list of them.
`linkOp` says what an access does to the link: `access_link` reduces every access to a `LinkOp`.
-/

set_option autoImplicit false

namespace SpEmu

open ByteMem Sprot

namespace SprotLink

variable (lk : SprotLink)

theorem clock_link (out : Byte) : (lk.clock out).2 =
    { lk with
      mosi := if lk.mosi.length < fifoBytes then lk.mosi ++ [out] else lk.mosi
      miso := lk.miso.tail
      spTxdr := lk.spTxdr + 1 } := by
  simp only [clock]
  split <;> rfl

/-- What driving the chip select does: nothing where the level stays, or one of two edges. -/
theorem driveCs_cases (newCs : Bool) :
    (newCs = lk.cs ∧ lk.driveCs newCs = lk) ∨
      (lk.cs = false ∧ newCs = true ∧ lk.driveCs newCs =
        { lk with
          mosi := if lk.rotLive then [] else lk.mosi
          ssa := true
          sotPending := true
          cs := true }) ∨
      (lk.cs = true ∧ newCs = false ∧ lk.driveCs newCs = { lk with ssd := true, cs := false }) := by
  by_cases hsame : newCs = lk.cs
  · exact Or.inl ⟨hsame, if_pos hsame⟩
  right
  cases hcs : newCs with
  -- assert
  | true =>
      have hold : lk.cs = false := by
        rw [hcs] at hsame
        exact Bool.eq_false_of_not_eq_true (Ne.symm hsame)
      refine Or.inl ⟨hold, rfl, ?_⟩
      rw [driveCs, if_neg (hold ▸ nofun), if_pos rfl]
      split_ifs <;> rfl
  -- release
  | false =>
      have hold : lk.cs = true := by
        rw [hcs] at hsame
        exact Bool.eq_true_of_not_eq_false (Ne.symm hsame)
      refine Or.inr ⟨hold, rfl, ?_⟩
      rw [driveCs, if_neg (hold ▸ nofun)]
      rfl

end SprotLink

/-- The link and the SP's devices on it. -/
structure Wires where
  link : SprotLink
  spi : SpiMaster
  gpio : GpioBank

/-- A register access of the SP to its SPI master or GPIO, or of the RoT to its SPI slave. -/
inductive WireEvent where
  | spiRead (off : Word)
  | spiWrite (off val : Word)
  | gpioWrite (off val : Word)
  | flexRead (off : Word)
  | flexWrite (off val : Word)

/-- What an access does to the link. -/
inductive LinkOp where
  | none
  | clock (out : Byte)
  | driveCs (newCs : Bool)
  | readStat
  | readFrame
  | clearStat (ssa ssd : Bool)
  | emptyFifo (tx rx : Bool)
  | writeFrame (frame : Half)
  deriving DecidableEq

namespace LinkOp

def apply (lk : SprotLink) : LinkOp → SprotLink
  | .none => lk
  | .clock out => (lk.clock out).2
  | .driveCs newCs => lk.driveCs newCs
  | .readStat => lk
  | .readFrame => lk.readFrame.2
  | .clearStat ssa ssd => { lk with ssa := lk.ssa && !ssa, ssd := lk.ssd && !ssd }
  | .emptyFifo tx rx =>
      { lk with miso := if tx then [] else lk.miso, mosi := if rx then [] else lk.mosi }
  | .writeFrame frame => lk.writeFrame frame

end LinkOp

namespace Wires

def new (rotLive : Bool) : Wires := ⟨SprotLink.new rotLive, SpiMaster.new, GpioBank.new⟩

variable (w : Wires)

def access : WireEvent → Wires
  | .spiRead off => { w with spi := (w.spi.read off).2 }
  | .spiWrite off val =>
      let (spi, link) := w.spi.write w.link off val
      { w with spi := spi, link := link }
  | .gpioWrite off val =>
      let (gpio, link) := w.gpio.write w.link off val
      { w with gpio := gpio, link := link }
  | .flexRead off => { w with link := (RotSpiSlave.read w.link off).2 }
  | .flexWrite off val => { w with link := RotSpiSlave.write w.link off val }

/-- The level that a GPIO write leaves on the chip-select pin, active low. -/
def csPin (off val : Word) : Bool :=
  ((w.gpio.write w.link off val).1.regs (GpioBank.odrKey 4) >>> 4) &&& 1 == 0

/-- TXDR clocks a byte, a write to port E drives the chip select, and FIFOSTAT, FIFORD, STAT,
FIFOCFG and FIFOWR are the slave's registers. -/
def linkOp : WireEvent → LinkOp
  | .spiRead _ => .none
  | .spiWrite off val => if alignWord off = 0x20 then .clock (val.setWidth 8) else .none
  | .gpioWrite off val => if off / 0x400 = 4 then .driveCs (w.csPin off val) else .none
  | .flexRead off =>
      if alignWord off = 0xE04 then .readStat
      else if alignWord off = 0xE30 then .readFrame
      else .none
  | .flexWrite off val =>
      if alignWord off = 0x408 then
        .clearStat (val &&& ((1 : Word) <<< 4) != 0) (val &&& ((1 : Word) <<< 5) != 0)
      else if alignWord off = 0xE00 then
        .emptyFifo (val &&& ((1 : Word) <<< 16) != 0) (val &&& ((1 : Word) <<< 17) != 0)
      else if alignWord off = 0xE20 then .writeFrame (val.setWidth 16)
      else .none

/-- An access does to the link what its `linkOp` says. -/
theorem access_link (e : WireEvent) : (w.access e).link = (w.linkOp e).apply w.link := by
  cases e with
  | spiRead off => rfl
  | spiWrite off val =>
      simp only [access, SpiMaster.write, linkOp]
      by_cases hoff : alignWord off = 0x20
      · simp only [hoff]
        rfl
      · rw [if_neg hoff, if_neg hoff]
        split_ifs <;> rfl
  | gpioWrite off val =>
      simp only [access, GpioBank.write, linkOp]
      split <;> rfl
  | flexRead off =>
      simp only [access, RotSpiSlave.read, linkOp]
      by_cases hstat : alignWord off = 0xE04
      · simp only [hstat]
        rfl
      · rw [if_neg hstat, if_neg hstat]
        by_cases hread : alignWord off = 0xE30
        · simp only [hread]
          rfl
        · rw [if_neg hread, if_neg hread]
          split <;> rfl
  | flexWrite off val =>
      simp only [access, RotSpiSlave.write, linkOp]
      by_cases hstat : alignWord off = 0x408
      · rw [if_pos hstat, if_pos hstat]
        rfl
      rw [if_neg hstat, if_neg hstat]
      by_cases hcfg : alignWord off = 0xE00
      · rw [if_pos hcfg, if_pos hcfg]
        rfl
      rw [if_neg hcfg, if_neg hcfg]
      split <;> rfl

/-- Only a read of the slave is a FIFORD. -/
theorem flexRead_of_readFrame {e : WireEvent} (hop : w.linkOp e = .readFrame) :
    ∃ off, e = .flexRead off := by
  cases e with
  | flexRead off => exact ⟨off, rfl⟩
  | spiRead off => exact LinkOp.noConfusion hop
  | spiWrite off val =>
      simp only [linkOp] at hop
      split at hop <;> exact LinkOp.noConfusion hop
  | gpioWrite off val =>
      simp only [linkOp] at hop
      split at hop <;> exact LinkOp.noConfusion hop
  | flexWrite off val =>
      simp only [linkOp] at hop
      split_ifs at hop

/-- A FIFORD returns the frame. -/
theorem read_readFrame {off : Word} (hop : w.linkOp (.flexRead off) = .readFrame) :
    (RotSpiSlave.read w.link off).1 = w.link.readFrame.1 := by
  simp only [linkOp] at hop
  split at hop
  · exact LinkOp.noConfusion hop
  split at hop
  · next hoff =>
      simp only [RotSpiSlave.read, hoff]
      rfl
  · exact LinkOp.noConfusion hop

end Wires

end SpEmu
