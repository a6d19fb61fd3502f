import SpEmu.Cpu.DecodeCache
import SpEmu.Cpu.Exceptions
import SpEmu.Debug.HaltCause
import SpEmu.Soc.Board

/-!
# The SP under its run loops

`SpMachine` is the SP with the debug port in front of it and the decode cache behind its step. Its
events are what the run loops let happen: a step of the core, the tick and the interrupts between
steps, an exchange of frames, an SWD transfer, and the three resets that the loops apply. The port
resets the core too, in a transfer that writes AIRCR.

A machine that starts as `setup` builds it stays a `Board`.
-/

set_option autoImplicit false

namespace SpEmu

open ByteMem Mem SwDp Soc

structure SpMachine (ρ : Type) where
  target : DebugTarget (SpDevices ρ)
  cache : DecodeCache
  /-- The configuration leaves the measurement of the SP to a RoT. -/
  rotMeasure : Bool

/-- `between` is what the loops do with the core between two steps: a tick, an interrupt, or flow
control, as a program of bus accesses. -/
inductive SpEvent where
  | step
  | between (p : Core → BusM Core)
  | pump (queue : List (List Byte))
  | transfer (ap rnw : Bool) (a : Byte) (wdata : Word)
  | pinReset
  | serveReset
  | runReset

namespace SpMachine

variable {ρ : Type} [Mmio ρ]

def measurementAddr : Word := dtcmBase
/-- The token that lets the firmware boot without a measurement. -/
def skipToken : Word := 0x9F38BD71

/-- Stand in for the debugger that deposits the token, unless a RoT measures. -/
def depositSkipToken (rotMeasure : Bool) (b : Bus (SpDevices ρ)) : Option (Bus (SpDevices ρ)) :=
  if rotMeasure then some b else b.write32 measurementAddr skipToken

variable (m : SpMachine ρ)

/-- The machine as `setup` builds it: flash, regions and devices installed, the core reset from the
vector table of the active bank. -/
def setup (others : ρ) (more : List Device) (f : Flash) (rotMeasure : Bool) :
    Option (SpMachine ρ) := do
  let b := (installPeripherals (installMemory (Bus.new ⟨Scs.new, others⟩)) more).installFlash f
  let (sp, b) ← b.read32 vectorTable
  let (pc, b) ← b.read32 (vectorTable + 4)
  let b ← depositSkipToken rotMeasure b
  some ⟨⟨SwDp.new, Core.new.reset sp (pc &&& ~~~1), b⟩, DecodeCache.new, rotMeasure⟩

/-- The reset of the run loop. -/
def applyRunReset : Option (SpMachine ρ) := do
  let (sp, b) ← m.target.bus.flashResetLatch.read32 vectorTable
  let (pc, b) ← b.read32 (vectorTable + 4)
  let core := m.target.core.resetForReboot sp (pc &&& ~~~1)
  let b ← b.resetExceptionSources
  let cache := m.cache.flushDecodeCache
  let b ← depositSkipToken m.rotMeasure b
  let t := { m.target with core := core, bus := { b with resetPending := false } }
  some { m with target := t, cache := cache }

/-- The reset of the serve loop. -/
def applyServeReset : Option (SpMachine ρ) :=
  (DebugRun.applySelfReset m.target).map fun t =>
    { m with target := t, cache := m.cache.flushDecodeCache }

/-- Whether a transfer writes the data register of the MEM-AP. -/
def drwWrites (p : SwDp) (ap rnw : Bool) (a : Byte) : Bool :=
  ap && !rnw &&
    (((p.select >>> 4) &&& 0xF) <<< 4) ||| ((a.setWidth 32 : Word) &&& 0x0C) == 0x0C

/-- An SWD transfer. A store near the ITCM drops the decodes that it may have changed. -/
def swdTransfer (ap rnw : Bool) (a : Byte) (wdata : Word) : Option (SpMachine ρ) := do
  let (_, t) ← m.target.transfer ap rnw a wdata
  let tar := m.target.port.tar
  some { m with
    target := t
    cache := if drwWrites m.target.port ap rnw a && decide (tar < Core.itcmHi) then
      m.cache.invalidateDecode tar else m.cache }

def step (isa : Isa) (bodies : Bodies) (verifier : Verifier) : SpEvent → Option (SpMachine ρ)
  | .step => do
      let (core, cache, bus) ←
        m.target.core.step isa bodies verifier m.cache m.target.bus
      some { m with target := { m.target with core := core, bus := bus }, cache := cache }
  | .between p => do
      let (core, bus) ← (p m.target.core).run (Bus.handle verifier) m.target.bus
      some { m with target := { m.target with core := core, bus := bus } }
  | .pump queue => do
      let (_, _, bus) ← m.target.bus.pumpEth queue
      some { m with target := { m.target with bus := bus } }
  | .transfer ap rnw a wdata => m.swdTransfer ap rnw a wdata
  | .pinReset => m.target.pinReset.map fun t => { m with target := t }
  | .serveReset => if m.target.bus.resetPending then m.applyServeReset else some m
  | .runReset => if m.target.bus.resetPending then m.applyRunReset else some m

end SpMachine

namespace SwDp

variable (p : SwDp)

/-- The width of an access through the data register. -/
def drwWidth : Width :=
  if p.accessSize = 1 then .byte else if p.accessSize = 2 then .half else .word

/-- The lanes of the data register that an access takes, shifted down. -/
def drwLane (wdata : Word) : Word :=
  if p.accessSize = 1 then wdata >>> ((p.tar &&& 3) * 8).toNat
  else if p.accessSize = 2 then wdata >>> ((p.tar &&& 2) * 8).toNat
  else wdata

end SwDp

/-! ## The map under the debug port -/

namespace DebugTarget

open Bus

variable {δ : Type} [Mmio δ] {t t' : DebugTarget δ}

theorem sameMap_doReset (h : t.doReset = some t') : SameMap t.bus t'.bus := by
  obtain ⟨⟨sp, b₁⟩, h₁, h⟩ := Option.bind_eq_some_iff.mp h
  obtain ⟨⟨pc, b₂⟩, h₂, h⟩ := Option.bind_eq_some_iff.mp h
  obtain ⟨b₃, h₃, heq⟩ := Option.bind_eq_some_iff.mp h
  cases heq
  exact ((read32_only h₁).sameMap.trans (read32_only h₂).sameMap).trans
    (sameMap_resetExceptionSources h₃)

theorem memReadWord_only {addr : Word} {r : Word × DebugTarget δ}
    (h : t.memReadWord addr = some r) : OnlyDevices t.bus r.2.bus := by
  rw [memReadWord] at h
  split at h
  · cases h
    exact OnlyDevices.same _
  · split_ifs at h
    · cases h
      exact OnlyDevices.same _
    · cases h
      exact OnlyDevices.same _
    · cases h
      exact OnlyDevices.same _
    · cases h
      exact OnlyDevices.same _
    · obtain ⟨r', hr, rfl⟩ := Option.map_eq_some_iff.mp h
      exact read32_only hr

theorem drwRead_only {r : Word × DebugTarget δ} (h : t.drwRead = some r) :
    OnlyDevices t.bus r.2.bus := by
  simp only [drwRead] at h
  split_ifs at h
  · obtain ⟨r', hr, heq⟩ := Option.bind_eq_some_iff.mp h
    cases heq
    exact read8_only hr
  · obtain ⟨r', hr, heq⟩ := Option.bind_eq_some_iff.mp h
    cases heq
    exact read16_only hr
  · obtain ⟨r', hr, heq⟩ := Option.bind_eq_some_iff.mp h
    have hread := memReadWord_only hr
    cases heq
    exact hread

/-- A word write of the MEM-AP reaches the bus, resets the core, or stays in the port. -/
theorem memWriteWord_cases {addr val : Word} (h : t.memWriteWord addr val = some t') :
    t.bus.write32 addr val = some t'.bus ∨ t.doReset = some t' ∨ t'.bus = t.bus := by
  rw [memWriteWord] at h
  split_ifs at h
  · cases h
    exact Or.inr (Or.inr rfl)
  · cases h
    exact Or.inr (Or.inr rfl)
  · cases h
    exact Or.inr (Or.inr rfl)
  · cases h
    exact Or.inr (Or.inr rfl)
  · cases h
    exact Or.inr (Or.inr rfl)
  · exact Or.inr (Or.inl h)
  · cases h
    exact Or.inr (Or.inr rfl)
  · obtain ⟨b, hb, rfl⟩ := Option.map_eq_some_iff.mp h
    exact Or.inl hb

/-- A data register write stores at TAR, resets the core, or stays in the port. -/
theorem drwWrite_cases {wdata : Word} (h : t.drwWrite wdata = some t') :
    t.bus.write t.port.drwWidth t.port.tar (t.port.drwLane wdata) = some t'.bus ∨
      (∃ t₁, t.doReset = some t₁ ∧ t'.bus = t₁.bus) ∨ t'.bus = t.bus := by
  simp only [drwWrite] at h
  split_ifs at h with hbyte hhalf
  · obtain ⟨t₁, h₁, heq⟩ := Option.bind_eq_some_iff.mp h
    obtain ⟨b, hb, rfl⟩ := Option.map_eq_some_iff.mp h₁
    cases heq
    rw [drwWidth, drwLane, if_pos hbyte, if_pos hbyte]
    exact Or.inl hb
  · obtain ⟨t₁, h₁, heq⟩ := Option.bind_eq_some_iff.mp h
    obtain ⟨b, hb, rfl⟩ := Option.map_eq_some_iff.mp h₁
    cases heq
    rw [drwWidth, drwLane, if_neg hbyte, if_pos hhalf, if_neg hbyte, if_pos hhalf]
    exact Or.inl hb
  · obtain ⟨t₁, h₁, heq⟩ := Option.bind_eq_some_iff.mp h
    cases heq
    rw [drwWidth, drwLane, if_neg hbyte, if_neg hhalf, if_neg hbyte, if_neg hhalf]
    rcases memWriteWord_cases h₁ with hw | hreset | hsame
    · exact Or.inl hw
    · exact Or.inr (Or.inl ⟨t₁, hreset, rfl⟩)
    · exact Or.inr (Or.inr hsame)

/-- Of all transfers only a data register write can change more than a device. -/
theorem transfer_cases {ap rnw : Bool} {a : Byte} {wdata : Word}
    {r : Option Word × DebugTarget δ} (h : t.transfer ap rnw a wdata = some r) :
    (SpMachine.drwWrites t.port ap rnw a = true ∧
      ∃ t', t.drwWrite wdata = some t' ∧ r.2.bus = t'.bus) ∨ OnlyDevices t.bus r.2.bus := by
  simp only [transfer, apTransfer] at h
  split_ifs at h
  · cases h
    exact Or.inr (OnlyDevices.same _)
  · cases h
    exact Or.inr (OnlyDevices.same _)
  · obtain ⟨r', hr, heq⟩ := Option.bind_eq_some_iff.mp h
    have hread := drwRead_only hr
    cases heq
    exact Or.inr hread
  · cases h
    exact Or.inr (OnlyDevices.same _)
  · cases h
    exact Or.inr (OnlyDevices.same _)
  · cases h
    exact Or.inr (OnlyDevices.same _)
  · cases h
    exact Or.inr (OnlyDevices.same _)
  · next hap hrnw _ _ hreg =>
      obtain ⟨t₁, h₁, heq⟩ := Option.bind_eq_some_iff.mp h
      have hdrw : SpMachine.drwWrites t.port ap rnw a = true := by
        rw [SpMachine.drwWrites, hreg, hap, Bool.eq_false_iff.mpr hrnw]
        rfl
      cases heq
      exact Or.inl ⟨hdrw, t₁, h₁, rfl⟩
  · cases h
    exact Or.inr (OnlyDevices.same _)
  · cases h
    exact Or.inr (OnlyDevices.same _)

/-- No transfer changes the map. -/
theorem sameMap_transfer {ap rnw : Bool} {a : Byte} {wdata : Word}
    {r : Option Word × DebugTarget δ} (h : t.transfer ap rnw a wdata = some r) :
    SameMap t.bus r.2.bus := by
  rcases transfer_cases h with ⟨-, t', hw, heq⟩ | honly
  · rw [heq]
    rcases drwWrite_cases hw with hstore | ⟨t₁, hreset, hbus⟩ | hsame
    · exact sameMap_write hstore
    · rw [hbus]
      exact sameMap_doReset hreset
    · rw [hsame]
      exact SameMap.rfl'
  · exact honly.sameMap

theorem sameMap_applySelfReset (h : DebugRun.applySelfReset t = some t') :
    SameMap t.bus t'.bus := by
  obtain ⟨⟨sp, b₁⟩, h₁, h⟩ := Option.bind_eq_some_iff.mp h
  obtain ⟨⟨pc, b₂⟩, h₂, h⟩ := Option.bind_eq_some_iff.mp h
  obtain ⟨b₃, h₃, heq⟩ := Option.bind_eq_some_iff.mp h
  cases heq
  have hread : SameMap t.bus b₂ := ((sameMap_flashResetLatch t.bus).trans
    (read32_only h₁).sameMap).trans (read32_only h₂).sameMap
  refine (hread.trans (sameMap_resetExceptionSources h₃)).trans ?_
  exact ⟨⟨rfl, rfl, rfl, rfl⟩, rfl, rfl⟩

end DebugTarget

/-! ## The map along a run -/

namespace SpMachine

open Bus

variable {ρ : Type} [Mmio ρ] {m m' : SpMachine ρ}

theorem sameMap_fetchDecode {δ : Type} [Mmio δ] {isa : Isa} {pc : Word} {b : Bus δ}
    {r : Decoded × Bus δ} (h : b.fetchDecode isa pc = some r) : SameMap b r.2 := by
  obtain ⟨⟨lo, b₁⟩, hlo, h⟩ := Option.bind_eq_some_iff.mp h
  obtain ⟨⟨hi, b₂⟩, hhi, heq⟩ := Option.bind_eq_some_iff.mp h
  cases heq
  exact (read16_only hlo).sameMap.trans (read16_only hhi).sameMap

theorem sameMap_fetch {δ : Type} [Mmio δ] {isa : Isa} {k : DecodeCache} {c : Core} {pc : Word}
    {b : Bus δ} {r : Decoded × DecodeCache × Bus δ} (h : k.fetch isa c pc b = some r) :
    SameMap b r.2.2 := by
  rw [DecodeCache.fetch] at h
  split at h
  · split at h
    · cases h
      exact SameMap.rfl'
    · obtain ⟨r', hr, heq⟩ := Option.bind_eq_some_iff.mp h
      cases heq
      exact sameMap_fetchDecode hr
  · obtain ⟨r', hr, heq⟩ := Option.bind_eq_some_iff.mp h
    cases heq
    exact sameMap_fetchDecode hr

theorem sameMap_coreStep {δ : Type} [Mmio δ] {isa : Isa} {bodies : Bodies} {verifier : Verifier}
    {c : Core} {k : DecodeCache} {b : Bus δ} {r : Core × DecodeCache × Bus δ}
    (h : c.step isa bodies verifier k b = some r) : SameMap b r.2.2 := by
  rw [Core.step] at h
  split at h
  · obtain ⟨⟨c₁, b₁⟩, hrun, heq⟩ := Option.bind_eq_some_iff.mp h
    cases heq
    exact sameMap_run verifier hrun
  · obtain ⟨⟨d, k₁, b₁⟩, hfetch, h⟩ := Option.bind_eq_some_iff.mp h
    obtain ⟨⟨c₂, b₂⟩, hrun, heq⟩ := Option.bind_eq_some_iff.mp h
    cases heq
    have hfetched : SameMap { b with curCyc := c.cycles } b₁ := sameMap_fetch hfetch
    refine SameMap.trans ?_ (hfetched.trans (sameMap_run verifier hrun))
    exact ⟨⟨rfl, rfl, rfl, rfl⟩, rfl, rfl⟩

theorem sameMap_depositSkipToken {rotMeasure : Bool} {b b' : Bus (SpDevices ρ)}
    (h : depositSkipToken rotMeasure b = some b') : SameMap b b' := by
  rw [depositSkipToken] at h
  split at h
  · cases h
    exact SameMap.rfl'
  · exact sameMap_write32 h

theorem sameMap_applyRunReset (h : m.applyRunReset = some m') :
    SameMap m.target.bus m'.target.bus := by
  obtain ⟨⟨sp, b₁⟩, h₁, h⟩ := Option.bind_eq_some_iff.mp h
  obtain ⟨⟨pc, b₂⟩, h₂, h⟩ := Option.bind_eq_some_iff.mp h
  obtain ⟨b₃, h₃, h⟩ := Option.bind_eq_some_iff.mp h
  obtain ⟨b₄, h₄, heq⟩ := Option.bind_eq_some_iff.mp h
  cases heq
  have hread : SameMap m.target.bus b₂ := ((sameMap_flashResetLatch m.target.bus).trans
    (read32_only h₁).sameMap).trans (read32_only h₂).sameMap
  refine ((hread.trans (sameMap_resetExceptionSources h₃)).trans
    (sameMap_depositSkipToken h₄)).trans ?_
  exact ⟨⟨rfl, rfl, rfl, rfl⟩, rfl, rfl⟩

theorem sameMap_step {isa : Isa} {bodies : Bodies} {verifier : Verifier} {e : SpEvent}
    (h : m.step isa bodies verifier e = some m') : SameMap m.target.bus m'.target.bus := by
  cases e with
  | step =>
      obtain ⟨r, hr, heq⟩ := Option.bind_eq_some_iff.mp h
      cases heq
      exact sameMap_coreStep hr
  -- whatever the loops do between two steps goes through the bus interface
  | between p =>
      obtain ⟨r, hr, heq⟩ := Option.bind_eq_some_iff.mp h
      cases heq
      exact sameMap_run verifier hr
  | pump queue =>
      obtain ⟨r, hr, heq⟩ := Option.bind_eq_some_iff.mp h
      cases heq
      exact sameMap_pumpEth hr
  | transfer ap rnw a wdata =>
      obtain ⟨r, hr, heq⟩ := Option.bind_eq_some_iff.mp h
      cases heq
      exact DebugTarget.sameMap_transfer hr
  | pinReset =>
      obtain ⟨t, ht, rfl⟩ := Option.map_eq_some_iff.mp h
      exact DebugTarget.sameMap_doReset ht
  | serveReset =>
      rw [step] at h
      split at h
      · obtain ⟨t, ht, rfl⟩ := Option.map_eq_some_iff.mp h
        exact DebugTarget.sameMap_applySelfReset ht
      · cases h
        exact SameMap.rfl'
  | runReset =>
      rw [step] at h
      split at h
      · exact sameMap_applyRunReset h
      · cases h
        exact SameMap.rfl'

/-- A machine on a board stays on it. -/
theorem board_step {isa : Isa} {bodies : Bodies} {verifier : Verifier} {e : SpEvent}
    (hm : Board m.target.bus) (h : m.step isa bodies verifier e = some m') :
    Board m'.target.bus :=
  hm.mono (sameMap_step h)

/-- The board that `setup` builds. -/
theorem board_setup {others : ρ} {more : List Device} {f : Flash} {rotMeasure : Bool}
    (hmore : ∀ d ∈ more, codeEnd ≤ d.base) (h : setup others more f rotMeasure = some m) :
    Board m.target.bus := by
  obtain ⟨⟨sp, b₁⟩, h₁, h⟩ := Option.bind_eq_some_iff.mp h
  obtain ⟨⟨pc, b₂⟩, h₂, h⟩ := Option.bind_eq_some_iff.mp h
  obtain ⟨b₃, h₃, heq⟩ := Option.bind_eq_some_iff.mp h
  cases heq
  exact (Board.of_install ⟨Scs.new, others⟩ f hmore).mono (((read32_only h₁).sameMap.trans
    (read32_only h₂).sameMap).trans (sameMap_depositSkipToken h₃))

end SpMachine

end SpEmu
