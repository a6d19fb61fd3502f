import SpEmu.Mem.IrqCollection
import SpEmu.Soc.ByteWise
import SpEmu.Sprot.Link

/-!
# Pin interrupts of the RoT

The SP thread raises two events on the link: its own reset, and a debug probe that attached. The
RoT thread delivers them between two quanta of the RoT core: it sets the pin's bit in the register
FALL of the PINT block, and pends the pin's IRQ. The block is part of a plain register file, which
keeps what was written last.

`edge_stays` is what this gives over whole runs: a delivered edge stays visible until the firmware
writes FALL without its bit.
-/

set_option autoImplicit false

namespace SpEmu

open ByteMem Mem

/-! ## The register file -/

namespace RegFile

/-- Registers are words. -/
def read (regs : RegFile) (off : Word) : Word := regs (alignWord off)

def write (regs : RegFile) (off val : Word) : RegFile := regs.set (alignWord off) val

end RegFile

/-- The devices of a RoT: the register file of the lower peripherals, and all others. -/
structure PeriphDevices (ρ : Type) where
  periphLo : RegFile
  others : ρ

namespace PeriphDevices

variable {ρ : Type} [Mmio ρ]

/-- The position of the register file in the device list. -/
def periphLoIndex : Nat := 6

instance : Mmio (PeriphDevices ρ) where
  read i off m :=
    if i = periphLoIndex then (m.periphLo.read off, m)
    else
      let (v, others) := Mmio.read i off m.others
      (v, { m with others := others })
  write i off val m :=
    if i = periphLoIndex then { m with periphLo := m.periphLo.write off val }
    else { m with others := Mmio.write i off val m.others }
  takeIrq i m :=
    if i = periphLoIndex then (none, m)
    else
      let (irq, others) := Mmio.takeIrq i m.others
      (irq, { m with others := others })
  uartRxWaiting m := Mmio.uartRxWaiting m.others

end PeriphDevices

namespace Bus

variable {δ : Type}

/-- The enable bit of an IRQ. -/
def irqEnabled (b : Bus δ) (irq : Half) : Option Bool :=
  (b.nvicEn.index (irq.toNat / 32)).map fun w => (w &&& ((1 : Word) <<< (irq.toNat % 32))) != 0

theorem irqEnabled_isSome (b : Bus δ) (irq : Half) (h : irq.toNat / 32 < 8) :
    ∃ e, b.irqEnabled irq = some e := by
  rw [irqEnabled, Table.index_of_lt _ h]
  exact ⟨_, rfl⟩

end Bus

/-! ## Delivering edges -/

namespace Pint

def jtagDetectIrq : Half := 5
def spResetIrq : Half := 4
/-- FALL. -/
def jtagDetectPintReg : Word := 0x40004020
def jtagDetectPintBit : Word := (1 : Word) <<< 1
def spResetPintBit : Word := (1 : Word) <<< 0

/-- The addresses of the PINT block. -/
abbrev Addr := { a : Word // 0x40004000 ≤ a.toNat ∧ a.toNat < 0x40005000 }

end Pint

open Pint

/-- Deliver a JTAG_DETECT edge, if the firmware has enabled the IRQ. The result says whether. -/
def injectJtagDetect {δ : Type} [Mmio δ] (rb : Bus δ) : Option (Bool × Bus δ) := do
  if ← rb.irqEnabled jtagDetectIrq then
    let (cur, rb) ← rb.read32 jtagDetectPintReg
    let rb ← rb.write32 jtagDetectPintReg (cur ||| jtagDetectPintBit)
    let rb ← rb.pendIrq jtagDetectIrq
    some (true, rb)
  else some (false, rb)

/-- What the RoT thread has for its edges: the bus, the events on the link, and the one edge that
may be asked for at startup. -/
structure PintLoop (ρ : Type) where
  rb : Bus (PeriphDevices ρ)
  spResetPint : Bool
  jtagPint : Bool
  swdTrigger : Bool
  swdTriggered : Bool

/-- An event of the SP thread, a delivery of the RoT thread, or an access of the RoT's firmware. A
probe that attaches or a reset during a delivery counts as one before or after it. -/
inductive PintEvent where
  | spReset
  | probeAttached
  | deliver
  | read (a : Addr)
  | write (a : Addr) (val : Word)
  /-- The firmware enables and acknowledges IRQs. -/
  | nvic (en pend : Table 8 Word)

namespace PintLoop

variable {ρ : Type} [Mmio ρ] (s : PintLoop ρ)

/-- The edge that the configuration asks for is due. -/
def synthetic : Option Bool := do
  let armed ← s.rb.irqEnabled spResetIrq
  some (s.swdTrigger && !s.swdTriggered && armed)

def deliverSpReset : Option (PintLoop ρ) := do
  if s.spResetPint || (← s.synthetic) then
    let rb ← s.rb.write32 jtagDetectPintReg spResetPintBit
    let rb ← rb.pendIrq spResetIrq
    some { s with rb := rb, spResetPint := false, swdTriggered := true }
  else some { s with spResetPint := false }

/-- An edge that comes before the firmware has enabled the IRQ waits on the link. -/
def deliverJtag : Option (PintLoop ρ) := do
  if s.jtagPint then
    let (injected, rb) ← injectJtagDetect s.rb
    some { s with rb := rb, jtagPint := !injected }
  else some s

def deliver : Option (PintLoop ρ) := do (← s.deliverSpReset).deliverJtag

def step : PintEvent → Option (PintLoop ρ)
  | .spReset => some { s with spResetPint := true }
  | .probeAttached => some { s with jtagPint := true }
  | .deliver => s.deliver
  | .read a => (s.rb.read32 a).map fun (_, rb) => { s with rb := rb }
  | .write a val => (s.rb.write32 a val).map fun rb => { s with rb := rb }
  | .nvic en pend => some { s with rb := { s.rb with nvicEn := en, nvicPend := pend } }

def run (s : PintLoop ρ) : List PintEvent → Option (PintLoop ρ)
  | [] => some s
  | e :: es => do (← s.step e).run es

end PintLoop

/-! ## The PINT block on the bus -/

namespace Pint

open Bus

def periphLoBase : Word := 0x40000000

/-- The system control space, the SPI slave, the GPIO, the SWD master, the PUF and HASHCRYPT come
before the register file. -/
def firstDevices : List Device :=
  [⟨0xE000E000, 0x1000⟩, ⟨0x4009F000, 0x1000⟩, ⟨0x4008C000, 0x4000⟩, ⟨0x40096000, 0x1000⟩,
    ⟨0x4003B000, 0x1000⟩, ⟨0x400A4000, 0x1000⟩, ⟨periphLoBase, 0x34000⟩]

/-- The memory map of a RoT in the two-core instance. -/
structure Board {ρ : Type} (b : Bus (PeriphDevices ρ)) : Prop where
  rams : b.rams.map Ram.window = Lpc55.ramWindows
  devs : ∃ more, b.devs = firstDevices ++ more
  flash : b.flash = none

variable {ρ : Type} {b : Bus (PeriphDevices ρ)}

theorem Board.devFor_pint (h : Board b) (a : Addr) :
    devFor a 0 b.devs = some (PeriphDevices.periphLoIndex, a.1 - periphLoBase) := by
  obtain ⟨a, hlo, hhi⟩ := a
  obtain ⟨more, hdevs⟩ := h.devs
  have hin : within periphLoBase (periphLoBase + 0x34000) a = true := by
    rw [within_iff, BitVec.le_def, BitVec.lt_def]
    exact ⟨Nat.le_trans (by decide) hlo, Nat.lt_trans hhi (by decide)⟩
  have hskip : ∀ {base size : Word} {i : Nat} {ds : List Device} (l u : Nat), base.toNat = l →
      (base + size).toNat = u → 0x40005000 ≤ l →
        devFor a i (⟨base, size⟩ :: ds) = devFor a (i + 1) ds := by
    intro base size i ds l u hl hu hle
    rw [devFor, within_eq_false l u hl hu (by omega), if_neg Bool.false_ne_true]
  rw [hdevs, firstDevices]
  simp only [List.cons_append, List.nil_append]
  rw [hskip 0xE000E000 0xE000F000 rfl rfl (by decide),
    hskip 0x4009F000 0x400A0000 rfl rfl (by decide),
    hskip 0x4008C000 0x40090000 rfl rfl (by decide),
    hskip 0x40096000 0x40097000 rfl rfl (by decide),
    hskip 0x4003B000 0x4003C000 rfl rfl (by decide),
    hskip 0x400A4000 0x400A5000 rfl rfl (by decide), devFor, if_pos hin]
  rfl

theorem Board.ramFor_pint (h : Board b) (a : Addr) : ramFor b.rams a 4 = none :=
  Lpc55.ramFor_peripheral (k := 4) h.rams (Nat.le_refl 4) (by decide)
    (Nat.le_trans (by decide) a.2.1) (by have := a.2.2; omega)

theorem tim5_pint (a : Addr) : within tim5BaseAddr tim5End a = false :=
  within_eq_false 0x40000C00 0x40001000 rfl rfl (by have := a.2.1; omega)

theorem Board.isOpen (h : Board b) (a : Addr) : b.Open a :=
  Lpc55.open_of_ram h.flash (by have := a.2; omega)

variable [Mmio ρ]

/-- The value of the PINT register at an address. -/
def reg (b : Bus (PeriphDevices ρ)) (a : Word) : Word :=
  b.mmio.periphLo (alignWord (alignWord (a - periphLoBase)))

/-- The bus after an access to a device. -/
def touch (b : Bus (PeriphDevices ρ)) : Bus (PeriphDevices ρ) := { b with devTouched := true }

theorem Board.read32_pint (h : Board b) (a : Addr) : b.read32 a = some (reg b a, touch b) := by
  rw [read32_of_open (h.isOpen a), readMemory, h.ramFor_pint a, tim5_pint a, h.devFor_pint a]
  rfl

/-- The bus after a write of `val` to the register at `a`. -/
def setReg (b : Bus (PeriphDevices ρ)) (a val : Word) : Bus (PeriphDevices ρ) :=
  { b with
    mmio := { b.mmio with periphLo := b.mmio.periphLo.write (alignWord (a - periphLoBase)) val }
    devTouched := true }

theorem Board.write32_pint (h : Board b) (a : Addr) (val : Word) :
    b.write32 a val = some (setReg b a val) := by
  rw [write32, write32N, write32With_of_open (h.isOpen a), writeMemory, h.ramFor_pint a,
    tim5_pint a, h.devFor_pint a]
  rfl

omit [Mmio ρ] in
theorem Board.setReg (h : Board b) (a val : Word) : Board (setReg b a val) :=
  ⟨h.rams, h.devs, h.flash⟩

theorem jtagDetectPintReg_mem :
    0x40004000 ≤ jtagDetectPintReg.toNat ∧ jtagDetectPintReg.toNat < 0x40005000 := by decide

/-- FALL as an address of the block. -/
def fall : Addr := ⟨jtagDetectPintReg, jtagDetectPintReg_mem⟩

/-- Where the register at an address is in the register file. -/
theorem toNat_offset (a : Addr) :
    (alignWord (alignWord (a.1 - periphLoBase))).toNat = (alignWord a.1).toNat - 0x40000000 := by
  have hsub : (a.1 - periphLoBase).toNat = a.1.toNat - 0x40000000 :=
    BitVec.toNat_sub_of_le (BitVec.le_def.mpr (Nat.le_trans (by decide) a.2.1))
  have hlo := a.2.1
  rw [toNat_alignWord, toNat_alignWord, toNat_alignWord, hsub]
  omega

theorem offset_eq_iff (a a' : Addr) :
    alignWord (alignWord (a.1 - periphLoBase)) = alignWord (alignWord (a'.1 - periphLoBase)) ↔
      alignWord a.1 = alignWord a'.1 := by
  have hlo := a.2.1
  have hlo' := a'.2.1
  have halign := toNat_alignWord a.1
  have halign' := toNat_alignWord a'.1
  rw [← BitVec.toNat_inj, ← BitVec.toNat_inj, toNat_offset, toNat_offset]
  omega

omit [Mmio ρ] in
/-- A write stores its value in the register that it names, and changes no other. -/
theorem reg_setReg (b : Bus (PeriphDevices ρ)) (a a' : Addr) (val : Word) :
    reg (Pint.setReg b a.1 val) a'.1 =
      if alignWord a'.1 = alignWord a.1 then val else reg b a'.1 := by
  change Function.update b.mmio.periphLo (alignWord (alignWord (a.1 - periphLoBase))) val
    (alignWord (alignWord (a'.1 - periphLoBase))) = _
  by_cases h : alignWord a'.1 = alignWord a.1
  · rw [if_pos h, (offset_eq_iff a' a).mpr h]
    exact Function.update_self ..
  · rw [if_neg h]
    exact Function.update_of_ne (fun heq => h ((offset_eq_iff a' a).mp heq)) ..

omit [Mmio ρ] in
/-- Pending an IRQ leaves the devices alone. -/
theorem Board.pendIrq (h : Board b) (irq : Half) (hirq : irq.toNat / 32 < 8) :
    ∃ b', b.pendIrq irq = some b' ∧ Board b' ∧ b'.mmio = b.mmio ∧ b'.nvicEn = b.nvicEn ∧
      b'.isPending irq = true :=
  ⟨_, pendIrq_eq hirq, ⟨h.rams, h.devs, h.flash⟩, rfl, rfl,
    (pends_pendIrq (pendIrq_eq hirq) irq).mpr (Or.inr rfl)⟩

/-- An injected edge adds its bit to those that are there. -/
theorem Board.inject_spec (h : Board b) (harmed : b.irqEnabled jtagDetectIrq = some true) :
    ∃ b', injectJtagDetect b = some (true, b') ∧ Board b' ∧ b'.isPending jtagDetectIrq = true ∧
      reg b' jtagDetectPintReg = reg b jtagDetectPintReg ||| jtagDetectPintBit := by
  have htouched : Board (touch b) := ⟨h.rams, h.devs, h.flash⟩
  obtain ⟨b', hpend, hboard, hmmio, -, hpending⟩ := (htouched.setReg jtagDetectPintReg
    (reg b jtagDetectPintReg ||| jtagDetectPintBit)).pendIrq jtagDetectIrq (by decide)
  have hread : b.read32 jtagDetectPintReg = some (reg b jtagDetectPintReg, touch b) :=
    h.read32_pint fall
  have hwrite := htouched.write32_pint fall (reg b jtagDetectPintReg ||| jtagDetectPintBit)
  refine ⟨b', ?_, hboard, hpending, ?_⟩
  · rw [injectJtagDetect, harmed]
    simp only [Option.bind_eq_bind, Option.bind_some, if_true, hread]
    rw [show (touch b).write32 jtagDetectPintReg _ = _ from hwrite, Option.bind_some,
      show (Pint.setReg (touch b) fall.1 _).pendIrq jtagDetectIrq = _ from hpend]
    rfl
  · rw [reg, hmmio]
    exact (reg_setReg (touch b) fall fall _).trans (if_pos rfl)

theorem inject_of_not (harmed : b.irqEnabled jtagDetectIrq = some false) :
    injectJtagDetect b = some (false, b) := by
  rw [injectJtagDetect, harmed]
  rfl

end Pint

/-! ## What stays visible -/

namespace PintLoop

open Bus

variable {ρ : Type} [Mmio ρ] {s s' : PintLoop ρ}

/-- A read of FALL shows the bit of a pin. -/
def Visible (s : PintLoop ρ) (slot : Nat) : Prop :=
  ∃ v rb, s.rb.read32 jtagDetectPintReg = some (v, rb) ∧ v.getLsbD slot = true

theorem visible_iff (h : Pint.Board s.rb) {slot : Nat} :
    s.Visible slot ↔ (reg s.rb jtagDetectPintReg).getLsbD slot = true := by
  rw [Visible, show s.rb.read32 jtagDetectPintReg = _ from h.read32_pint fall]
  constructor
  · rintro ⟨v, rb, heq, hbit⟩
    cases heq
    exact hbit
  · intro hbit
    exact ⟨_, _, rfl, hbit⟩

/-- A delivery has an SP_RESET edge. -/
def SpResetDue (s : PintLoop ρ) : Prop := s.spResetPint = true ∨ s.synthetic = some true

omit [Mmio ρ] in
theorem synthetic_isSome (s : PintLoop ρ) : ∃ due, s.synthetic = some due := by
  obtain ⟨armed, harmed⟩ := s.rb.irqEnabled_isSome spResetIrq (by decide)
  rw [synthetic, harmed]
  exact ⟨_, rfl⟩

/-- What the SP_RESET half of a delivery does. -/
theorem deliverSpReset_spec (h : Pint.Board s.rb) :
    ∃ s', s.deliverSpReset = some s' ∧ Pint.Board s'.rb ∧ s'.spResetPint = false ∧
      s'.jtagPint = s.jtagPint ∧ s'.rb.nvicEn = s.rb.nvicEn ∧
      (s.SpResetDue → reg s'.rb jtagDetectPintReg = spResetPintBit ∧
        s'.rb.isPending spResetIrq = true) ∧
      (¬ s.SpResetDue → s'.rb = s.rb) := by
  obtain ⟨due, hdue⟩ := s.synthetic_isSome
  rw [deliverSpReset, hdue]
  by_cases hcond : (s.spResetPint || due) = true
  · obtain ⟨rb, hpend, hboard, hmmio, hen, hpending⟩ :=
      (h.setReg jtagDetectPintReg spResetPintBit).pendIrq spResetIrq (by decide)
    refine ⟨{ s with rb := rb, spResetPint := false, swdTriggered := true }, ?_, hboard, rfl, rfl,
      hen, fun _ => ⟨?_, hpending⟩, fun hnot => absurd ?_ hnot⟩
    · simp only [Option.bind_eq_bind, Option.bind_some, if_pos hcond]
      rw [show s.rb.write32 jtagDetectPintReg spResetPintBit = _ from h.write32_pint fall _,
        Option.bind_some, show (Pint.setReg s.rb fall.1 _).pendIrq spResetIrq = _ from hpend]
      rfl
    · rw [reg, hmmio]
      exact (reg_setReg s.rb fall fall _).trans (if_pos rfl)
    · rcases Bool.or_eq_true_iff.mp hcond with hflag | hsyn
      · exact Or.inl hflag
      · exact Or.inr (hdue.trans (congrArg some hsyn))
  · refine ⟨{ s with spResetPint := false }, ?_, h, rfl, rfl, rfl, fun hd => absurd ?_ hcond,
      fun _ => rfl⟩
    · simp only [Option.bind_eq_bind, Option.bind_some, if_neg hcond]
    · rcases hd with hflag | hsyn
      · rw [hflag]
        rfl
      · rw [Option.some.inj (hdue.symm.trans hsyn), Bool.or_true]

/-- The firmware has enabled JTAG_DETECT. -/
def JtagArmed (s : PintLoop ρ) : Prop := s.rb.irqEnabled jtagDetectIrq = some true

/-- What the JTAG_DETECT half of a delivery does: it adds its bit to those that are there. -/
theorem deliverJtag_spec (h : Pint.Board s.rb) :
    ∃ s', s.deliverJtag = some s' ∧ Pint.Board s'.rb ∧ s'.spResetPint = s.spResetPint ∧
      (s.jtagPint = true → s.JtagArmed → s'.jtagPint = false ∧
        s'.rb.isPending jtagDetectIrq = true ∧
        reg s'.rb jtagDetectPintReg = reg s.rb jtagDetectPintReg ||| jtagDetectPintBit) ∧
      (¬ (s.jtagPint = true ∧ s.JtagArmed) → s'.jtagPint = s.jtagPint ∧ s'.rb = s.rb) := by
  obtain ⟨armed, harmed⟩ := s.rb.irqEnabled_isSome jtagDetectIrq (by decide)
  rw [deliverJtag, JtagArmed, harmed]
  by_cases hflag : s.jtagPint = true
  · rw [if_pos hflag]
    cases armed with
    | true =>
        obtain ⟨rb, hinject, hboard, hpending, hreg⟩ := h.inject_spec harmed
        refine ⟨{ s with rb := rb, jtagPint := false }, ?_, hboard, rfl,
          fun _ _ => ⟨rfl, hpending, hreg⟩, fun hnot => absurd ⟨hflag, rfl⟩ hnot⟩
        rw [hinject]
        rfl
    | false =>
        refine ⟨s, ?_, h, rfl, fun _ harm => (by cases harm), fun _ => ⟨rfl, rfl⟩⟩
        rw [inject_of_not harmed]
        simp only [Option.bind_eq_bind, Option.bind_some, Bool.not_false, ← hflag]
  · exact ⟨s, if_neg hflag, h, rfl, fun hf => absurd hf hflag, fun _ => ⟨rfl, rfl⟩⟩

/-- A delivery has no SP_RESET edge. -/
def Spares (s : PintLoop ρ) : PintEvent → Prop
  | .deliver => ¬ s.SpResetDue
  | _ => True

end PintLoop

/-- A firmware write to FALL without the bit of a pin. -/
def PintEvent.Drops (slot : Nat) : PintEvent → Prop
  | .write a val => alignWord a.1 = jtagDetectPintReg ∧ val.getLsbD slot = false
  | _ => False

namespace PintLoop

open Bus

variable {ρ : Type} [Mmio ρ] {s s' : PintLoop ρ}

/-- What a whole delivery does. -/
theorem deliver_spec (h : Pint.Board s.rb) :
    ∃ s', s.deliver = some s' ∧ Pint.Board s'.rb ∧
      (∀ slot, s.Visible slot → slot = 0 ∨ ¬ s.SpResetDue → s'.Visible slot) ∧
      (s.SpResetDue → s'.Visible 0) ∧
      (s.jtagPint = true → s.JtagArmed → s'.Visible 1) ∧
      (s.jtagPint = true → ¬ s.JtagArmed → s'.jtagPint = true) := by
  obtain ⟨m, hm, hboard, -, hjtag, hen, hdue, hnot⟩ := deliverSpReset_spec h
  obtain ⟨s', hs', hboard', -, hinject, hwait⟩ := deliverJtag_spec hboard
  have harmed : m.JtagArmed ↔ s.JtagArmed := by
    rw [JtagArmed, JtagArmed, irqEnabled, irqEnabled, hen]
  -- the second half keeps every bit
  have hkeep : ∀ slot, (reg m.rb jtagDetectPintReg).getLsbD slot = true →
      (reg s'.rb jtagDetectPintReg).getLsbD slot = true := by
    intro slot hbit
    by_cases hj : m.jtagPint = true ∧ m.JtagArmed
    · rw [(hinject hj.1 hj.2).2.2, BitVec.getLsbD_or, hbit, Bool.true_or]
    · rw [(hwait hj).2]
      exact hbit
  refine ⟨s', ?_, hboard', fun slot hvis hcase => ?_, fun hd => ?_, fun hf ha => ?_,
    fun hf ha => ?_⟩
  · rw [deliver, hm]
    exact hs'
  · rw [visible_iff hboard']
    refine hkeep slot ?_
    by_cases hd : s.SpResetDue
    · obtain rfl := hcase.resolve_right fun hn => hn hd
      rw [(hdue hd).1]
      decide
    · rw [hnot hd]
      exact (visible_iff h).mp hvis
  · rw [visible_iff hboard']
    refine hkeep 0 ?_
    rw [(hdue hd).1]
    decide
  · rw [visible_iff hboard', (hinject (hjtag.trans hf) (harmed.mpr ha)).2.2, BitVec.getLsbD_or,
      show jtagDetectPintBit.getLsbD 1 = true from rfl, Bool.or_true]
  · rw [(hwait fun hj => ha (harmed.mp hj.2)).1, hjtag, hf]

/-- What one event does to the bits that are pending. -/
theorem step_spec (h : Pint.Board s.rb) (e : PintEvent) :
    ∃ s', s.step e = some s' ∧ Pint.Board s'.rb ∧
      ∀ slot, s.Visible slot → ¬ e.Drops slot → slot = 0 ∨ s.Spares e → s'.Visible slot := by
  cases e with
  | spReset => exact ⟨_, rfl, h, fun _ hvis _ _ => hvis⟩
  | probeAttached => exact ⟨_, rfl, h, fun _ hvis _ _ => hvis⟩
  | deliver =>
      obtain ⟨s', hs', hboard, hkeep, -⟩ := deliver_spec h
      exact ⟨s', hs', hboard, fun slot hvis _ hcase => hkeep slot hvis hcase⟩
  | read a =>
      have htouched : Pint.Board (touch s.rb) := ⟨h.rams, h.devs, h.flash⟩
      refine ⟨{ s with rb := touch s.rb }, ?_, htouched, fun slot hvis _ _ => ?_⟩
      · rw [step, h.read32_pint a, Option.map_some]
      · exact (visible_iff htouched).mpr ((visible_iff h).mp hvis)
  | write a val =>
      refine ⟨{ s with rb := setReg s.rb a.1 val }, ?_, h.setReg a.1 val,
        fun slot hvis hdrop _ => ?_⟩
      · rw [step, h.write32_pint a, Option.map_some]
      · rw [visible_iff (h.setReg a.1 val)]
        -- a write to another register leaves FALL alone
        refine (congrArg (BitVec.getLsbD · slot) (reg_setReg s.rb a fall val)).trans ?_
        by_cases hreg : alignWord fall.1 = alignWord a.1
        · rw [if_pos hreg]
          by_contra hbit
          exact hdrop ⟨hreg.symm, Bool.not_eq_true _ ▸ hbit⟩
        · rw [if_neg hreg]
          exact (visible_iff h).mp hvis
  | nvic en pend =>
      -- acknowledging an IRQ is not acknowledging its edge
      have hboard : Pint.Board { s.rb with nvicEn := en, nvicPend := pend } :=
        ⟨h.rams, h.devs, h.flash⟩
      refine ⟨_, rfl, hboard, fun slot hvis _ _ => ?_⟩
      exact (visible_iff (s := { s with rb := { s.rb with nvicEn := en, nvicPend := pend } })
        hboard).mpr ((visible_iff h).mp hvis)

/-- No delivery of a run has an SP_RESET edge. -/
def SparesAll : PintLoop ρ → List PintEvent → Prop
  | _, [] => True
  | s, e :: es => s.Spares e ∧ ∀ s', s.step e = some s' → s'.SparesAll es

theorem run_spec (h : Pint.Board s.rb) (es : List PintEvent) :
    ∃ s', s.run es = some s' ∧ Pint.Board s'.rb ∧
      ∀ slot, s.Visible slot → (∀ e ∈ es, ¬ e.Drops slot) → slot = 0 ∨ s.SparesAll es →
        s'.Visible slot := by
  induction es generalizing s with
  | nil => exact ⟨s, rfl, h, fun _ hvis _ _ => hvis⟩
  | cons e es ih =>
      obtain ⟨m, hm, hboard, hstep⟩ := step_spec h e
      obtain ⟨s', hs', hboard', hrun⟩ := ih hboard
      refine ⟨s', ?_, hboard', fun slot hvis hdrop hcase => ?_⟩
      · rw [run, hm]
        exact hs'
      · have hfirst := hstep slot hvis (hdrop e List.mem_cons_self) (hcase.imp id And.left)
        exact hrun slot hfirst (fun x hx => hdrop x (List.mem_cons_of_mem e hx))
          (hcase.imp id fun hall => hall.2 m hm)

/-- A delivery makes its edges visible or keeps them on the link, and what is visible stays so until
the firmware writes FALL without the bit: SP_RESET's whatever happens, any other pin's as long as no
SP_RESET edge is delivered. -/
theorem edges_stay (s : PintLoop ρ) (h : Pint.Board s.rb) :
    (∃ s', s.deliver = some s' ∧
      (∀ slot, s.Visible slot → slot = 0 ∨ ¬ s.SpResetDue → s'.Visible slot) ∧
      (s.SpResetDue → s'.Visible 0) ∧
      (s.jtagPint = true → s.JtagArmed → s'.Visible 1) ∧
      (s.jtagPint = true → ¬ s.JtagArmed → s'.jtagPint = true)) ∧
    ∀ es : List PintEvent, ∃ s', s.run es = some s' ∧
      ∀ slot, s.Visible slot → (∀ e ∈ es, ¬ e.Drops slot) → slot = 0 ∨ s.SparesAll es →
        s'.Visible slot := by
  obtain ⟨m, hm, -, hdeliver⟩ := deliver_spec h
  refine ⟨⟨m, hm, hdeliver⟩, fun es => ?_⟩
  obtain ⟨s', hs', -, hrun⟩ := run_spec h es
  exact ⟨s', hs', hrun⟩

end PintLoop

/-! ### Two pending edges -/

/-- A RoT with the edges of both pins pending. -/
def bothPending : PintLoop Unit where
  rb := { Lpc55.installMemory (Bus.new (⟨fun _ => 3, ()⟩ : PeriphDevices Unit)) with
    devs := Pint.firstDevices }
  spResetPint := false
  jtagPint := false
  swdTrigger := false
  swdTriggered := false

theorem board_bothPending : Pint.Board bothPending.rb := ⟨rfl, ⟨[], rfl⟩, rfl⟩

theorem PintLoop.edges_stay_bothPending :
    (∃ s', bothPending.deliver = some s' ∧
      (∀ slot, bothPending.Visible slot → slot = 0 ∨ ¬ bothPending.SpResetDue →
        s'.Visible slot) ∧
      (bothPending.SpResetDue → s'.Visible 0) ∧
      (bothPending.jtagPint = true → bothPending.JtagArmed → s'.Visible 1) ∧
      (bothPending.jtagPint = true → ¬ bothPending.JtagArmed → s'.jtagPint = true)) ∧
    ∀ es : List PintEvent, ∃ s', bothPending.run es = some s' ∧
      ∀ slot, bothPending.Visible slot → (∀ e ∈ es, ¬ e.Drops slot) →
        slot = 0 ∨ bothPending.SparesAll es → s'.Visible slot :=
  PintLoop.edges_stay bothPending board_bothPending

/-- A firmware write to FALL with the bit of a pin, which on the part clears it. -/
def PintEvent.Clears (slot : Nat) : PintEvent → Prop
  | .write a val => alignWord a.1 = Pint.jtagDetectPintReg ∧ val.getLsbD slot = true
  | _ => False

/-- The firmware acknowledges JTAG_DETECT, and SP_RESET's pending edge is gone with it. -/
theorem PintLoop.acknowledge_clears_other : ¬ ∀ s : PintLoop Unit, Pint.Board s.rb →
    ∀ (es : List PintEvent) (slot : Nat), s.Visible slot → (∀ e ∈ es, ¬ e.Clears slot) →
      ∃ s', s.run es = some s' ∧ s'.Visible slot := by
  intro hclaim
  have hvis : bothPending.Visible 0 := (visible_iff board_bothPending).mpr (by decide)
  have hclears : ∀ e ∈ [PintEvent.write Pint.fall Pint.jtagDetectPintBit], ¬ e.Clears 0 := by
    intro e he
    rw [List.mem_singleton] at he
    subst he
    rintro ⟨-, hbit⟩
    exact absurd hbit (by decide)
  obtain ⟨s', hs', hvis'⟩ := hclaim bothPending board_bothPending
    [.write Pint.fall Pint.jtagDetectPintBit] 0 hvis hclears
  have hrun : bothPending.run [.write Pint.fall Pint.jtagDetectPintBit] = some { bothPending with
      rb := Pint.setReg bothPending.rb Pint.fall.1 Pint.jtagDetectPintBit } := by
    rw [run, step, board_bothPending.write32_pint Pint.fall]
    rfl
  obtain rfl := Option.some.inj (hrun.symm.trans hs')
  have hbit := (visible_iff (board_bothPending.setReg Pint.fall.1 Pint.jtagDetectPintBit)).mp hvis'
  exact absurd hbit (by decide)

end SpEmu
