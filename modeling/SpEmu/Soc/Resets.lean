import SpEmu.Soc.Machine

/-!
# The reset paths of the SP

A system reset is written out three times: in the run loop, in the serve loop, and in the debug
port, for an AIRCR write and for the reset pin. `Rebooted` is what a system reset has to do to the
state that the core sees. All paths read the vector table, reset the core and clear the exception
sources; `Restarted` is this common part.

No path resets VTOR or the boot-ROM dispatcher. Beyond that, the serve loop deposits no token, and
the debug port neither latches a committed bank swap nor drops a decode. `agrees_iff` says when a
reset does all of it in spite of this.
-/

set_option autoImplicit false

namespace SpEmu

open ByteMem Mem SwDp Soc

/-- The SP and the PC of the vector table in the active bank. -/
def Flash.bootVectors (f : Flash) : Option (Word × Word) := do
  let sp ← f.readMem32 vectorTable
  let pc ← f.readMem32 (vectorTable + 4)
  some (sp, pc &&& ~~~1)

/-- Without a pending swap there is nothing to latch. -/
theorem Flash.resetLatch_eq_self {f : Flash} (h : f.effectiveSwap = f.committedSwap) :
    f.resetLatch = f := by
  cases f
  cases h
  rfl

/-- The SysTick registers cleared. -/
def Scs.clearSystick (s : Scs) : Scs := ((s.write 0x010 0).write 0x014 0).write 0x018 0

def Scs.vtorOffset : Word := 0xD08

/-- Clearing SysTick leaves VTOR alone. -/
theorem Scs.clearSystick_vtor (s : Scs) :
    s.clearSystick.read vtorOffset = s.read vtorOffset := by
  rw [clearSystick, read_write_of_ne _ _ (by decide), read_write_of_ne _ _ (by decide),
    read_write_of_ne _ _ (by decide)]

theorem Scs.clearSystick_regs (s : Scs) {off : Word}
    (h : off = 0x010 ∨ off = 0x014 ∨ off = 0x018) : s.clearSystick.regs (index off) = 0 := by
  rcases h with rfl | rfl | rfl
  · rfl
  · rfl
  · rfl

namespace SpMachine

variable {ρ : Type} [Mmio ρ] (m m' : SpMachine ρ)

/-- The measurement token as the firmware finds it. -/
def token : Option Word := (m.target.bus.read32 measurementAddr).map Prod.fst

/-- What a system reset of `m` has to leave behind in `m'`. -/
structure Rebooted : Prop where
  latched : ∃ f f', m.target.bus.flash = some f ∧ m'.target.bus.flash = some f' ∧
    f'.effectiveSwap = f.committedSwap
  decodes : ∀ pc, m'.cache.entries pc = none
  nvic : ∀ i, m'.target.bus.nvicEn i = 0 ∧ m'.target.bus.nvicPend i = 0
  pendsv : m'.target.bus.pendPendsv = false
  systick : m'.target.core.systick = 0 ∧ m'.target.core.systCsr = 0 ∧ m'.target.core.systRvr = 0
  systRegs : ∀ off, off = 0x010 ∨ off = 0x014 ∨ off = 0x018 →
    m'.target.bus.mmio.scs.regs (Scs.index off) = 0
  vtor : m'.target.bus.mmio.scs.read Scs.vtorOffset = 0
  /-- From the bank that is active once the swap is latched. -/
  vectors : (m.target.bus.flash.bind fun f => f.resetLatch.bootVectors) =
    some (m'.target.core.r Core.sp, m'.target.core.pc)
  romCall : m'.target.core.romCall = .idle
  token : m'.token = if m.rotMeasure then m.token else some skipToken

/-- Whether an event is a system reset. -/
def Resets : SpEvent → Prop
  | .pinReset => True
  | .serveReset => m.target.bus.resetPending = true
  | .runReset => m.target.bus.resetPending = true
  | .transfer ap rnw a wdata => drwWrites m.target.port ap rnw a = true ∧
      m.target.port.accessSize = 4 ∧ DebugRun.Resets m.target.port.tar wdata
  | _ => False

/-- A reset returns, and it has done all that it has to do. -/
def Agrees (isa : Isa) (bodies : Bodies) (verifier : Verifier) (m : SpMachine ρ) (e : SpEvent) :
    Prop :=
  m.Resets e → ∃ m', m.step isa bodies verifier e = some m' ∧ m.Rebooted m'

/-! ## What the paths leave undone -/

/-- VTOR and the boot-ROM dispatcher are at their reset values already. -/
def Unmoved : Prop :=
  m.target.bus.mmio.scs.read Scs.vtorOffset = 0 ∧ m.target.core.romCall = .idle

/-- The token needs no deposit. -/
def TokenInPlace : Prop := m.rotMeasure = true ∨ m.token = some skipToken

/-- No swap waits for a reset. -/
def SwapInEffect : Prop :=
  ∀ f, m.target.bus.flash = some f → f.effectiveSwap = f.committedSwap

/-- Nothing is left to do for what the path of the event leaves out. -/
def Spared : SpEvent → Prop
  | .runReset => m.Unmoved
  | .serveReset => m.Unmoved ∧ m.TokenInPlace
  | _ => m.Unmoved ∧ m.TokenInPlace ∧ m.SwapInEffect ∧ ∀ pc, m.cache.entries pc = none

end SpMachine

/-! ## The common part of the paths -/

namespace Board

open Bus

variable {ρ : Type} [Mmio ρ] {b : Bus (SpDevices ρ)}

/-- The vector table read from the active bank. -/
theorem read_vectors (h : Board b) {f : Flash} (hf : b.flash = some f) :
    ∃ sp pc, b.read32 vectorTable = some (sp, b) ∧ b.read32 (vectorTable + 4) = some (pc, b) ∧
      f.bootVectors = some (sp, pc &&& ~~~1) := by
  obtain ⟨sp, hsp, hreadSp⟩ := h.read32_flash hf (a := vectorTable) (by decide)
  obtain ⟨pc, hpc, hreadPc⟩ := h.read32_flash hf (a := vectorTable + 4) (by decide)
  refine ⟨sp, pc, hreadSp, hreadPc, ?_⟩
  rw [Flash.bootVectors, hsp, hpc]
  rfl

/-- The bus with its exception sources cleared. -/
def cleared (b : Bus (SpDevices ρ)) : Bus (SpDevices ρ) :=
  { b with
    nvicEn := fun _ => 0
    nvicPend := fun _ => 0
    pendPendsv := false
    mmio := { b.mmio with scs := b.mmio.scs.clearSystick }
    devTouched := true }

theorem resetExceptionSources_eq (h : Board b) : b.resetExceptionSources = some (cleared b) := by
  have h₀ : Board ({ b with nvicEn := fun _ => 0, nvicPend := fun _ => 0, pendPendsv := false } :
      Bus (SpDevices ρ)) := h.mono ⟨⟨rfl, rfl, rfl, rfl⟩, rfl, rfl⟩
  have hcsr := h₀.write32_scs (a := systCsr) (by decide) 0
  have h₁ := h₀.mono (sameMap_write32 hcsr)
  have hrvr := h₁.write32_scs (a := systRvr) (by decide) 0
  have h₂ := h₁.mono (sameMap_write32 hrvr)
  have hcvr := h₂.write32_scs (a := systCvr) (by decide) 0
  simp only [resetExceptionSources, hcsr, Option.bind_eq_bind, Option.bind_some]
  simp only [hrvr, Option.bind_some]
  rw [hcvr]
  rfl

omit [Mmio ρ] in
theorem latched (h : Board b) : Board b.flashResetLatch := h.mono (sameMap_flashResetLatch b)

theorem cleared_board (h : Board b) : Board (cleared b) :=
  h.mono (sameMap_resetExceptionSources h.resetExceptionSources_eq)

/-- The measurement token is in RAM. -/
theorem read_token (h : Board b) :
    (b.read32 dtcmBase).map Prod.fst = loadRam b.rams dtcmBase 4 := by
  obtain ⟨v, hv⟩ := h.served_dtcm.holds
  rw [read32_of_holds hv, hv.load]
  rfl

end Board

/-- A vector catch may halt the core and does nothing else to it. -/
theorem SwDp.honorVectorCatch_core (p : SwDp) (c : Core) :
    ∃ caught port, p.honorVectorCatch c =
      (caught, port, { c with halted := caught || c.halted }) := by
  rw [honorVectorCatch]
  split
  · exact ⟨_, _, rfl⟩
  · exact ⟨_, _, rfl⟩

namespace SpMachine

open Bus

variable {ρ : Type} [Mmio ρ] {m m' : SpMachine ρ}

/-- What every path does: `m'` runs from the vector table of the flash `g`, with the exception
sources cleared. -/
structure Restarted (m m' : SpMachine ρ) (f g : Flash) : Prop where
  before : m.target.bus.flash = some f
  after : m'.target.bus.flash = some g
  image : g.effectiveSwap = f.committedSwap → f.resetLatch.bootVectors = g.bootVectors
  vectors : g.bootVectors = some (m'.target.core.r Core.sp, m'.target.core.pc)
  nvic : ∀ i, m'.target.bus.nvicEn i = 0 ∧ m'.target.bus.nvicPend i = 0
  pendsv : m'.target.bus.pendPendsv = false
  systick : m'.target.core.systick = 0 ∧ m'.target.core.systCsr = 0 ∧ m'.target.core.systRvr = 0
  scs : m'.target.bus.mmio.scs = m.target.bus.mmio.scs.clearSystick
  romCall : m'.target.core.romCall = m.target.core.romCall

/-- Beyond the common part, a reset has to latch the swap, drop the decodes and see to the token,
and to find VTOR and the dispatcher at rest. -/
theorem Restarted.rebooted_iff {f g : Flash} (h : Restarted m m' f g) :
    m.Rebooted m' ↔ g.effectiveSwap = f.committedSwap ∧ m.Unmoved ∧
      (∀ pc, m'.cache.entries pc = none) ∧
      m'.token = if m.rotMeasure then m.token else some skipToken := by
  constructor
  · intro hr
    obtain ⟨f₁, g₁, hf, hg, hswap⟩ := hr.latched
    obtain rfl : f₁ = f := Option.some.inj (hf.symm.trans h.before)
    obtain rfl : g₁ = g := Option.some.inj (hg.symm.trans h.after)
    -- clearing SysTick does not reach VTOR, so it was 0 before
    have hvtor := hr.vtor
    rw [h.scs, Scs.clearSystick_vtor] at hvtor
    exact ⟨hswap, ⟨hvtor, h.romCall.symm.trans hr.romCall⟩, hr.decodes, hr.token⟩
  · rintro ⟨hswap, ⟨hvtor, hcall⟩, hdecodes, htoken⟩
    constructor
    · exact ⟨f, g, h.before, h.after, hswap⟩
    · exact hdecodes
    · exact h.nvic
    · exact h.pendsv
    · exact h.systick
    · intro off hoff
      rw [h.scs]
      exact Scs.clearSystick_regs _ hoff
    · rw [h.scs, Scs.clearSystick_vtor]
      exact hvtor
    · rw [h.before, Option.bind_some, h.image hswap]
      exact h.vectors
    · exact h.romCall.trans hcall
    · exact htoken

theorem token_of_board {m : SpMachine ρ} (hm : Board m.target.bus) :
    m.token = loadRam m.target.bus.rams dtcmBase 4 := hm.read_token

/-- A path that leaves RAM alone does what it has to do about the token exactly when there is
nothing to do. -/
theorem token_kept_iff (hkept : m'.token = m.token) :
    (m'.token = if m.rotMeasure then m.token else some skipToken) ↔ m.TokenInPlace := by
  rw [TokenInPlace, hkept]
  cases m.rotMeasure with
  | true => exact iff_of_true rfl (Or.inl rfl)
  -- without a deposit the token is there only if it was there before
  | false => exact ⟨Or.inr, fun h => h.resolve_left nofun⟩

/-- The deposit, if it happens, stores the token and nothing else. -/
theorem depositSkipToken_spec {b : Bus (SpDevices ρ)} (hb : Board b) (rotMeasure : Bool) :
    ∃ b', depositSkipToken rotMeasure b = some b' ∧ b' = { b with rams := b'.rams } ∧
      loadRam b'.rams dtcmBase 4 =
        if rotMeasure then loadRam b.rams dtcmBase 4 else some skipToken := by
  rw [depositSkipToken]
  cases rotMeasure with
  | true => exact ⟨b, rfl, rfl, rfl⟩
  | false =>
      obtain ⟨b', hb', hstored⟩ := write32_of_served hb.served_dtcm skipToken
      exact ⟨b', hb', hstored.only, hstored.word.load⟩

theorem runReset_spec (hm : Board m.target.bus) :
    ∃ m' f g, m.applyRunReset = some m' ∧ Restarted m m' f g ∧
      g.effectiveSwap = f.committedSwap ∧ (∀ pc, m'.cache.entries pc = none) ∧
      m'.token = if m.rotMeasure then m.token else some skipToken := by
  obtain ⟨f, hf⟩ := Option.isSome_iff_exists.mp hm.flash
  have hl := hm.latched
  have hg : m.target.bus.flashResetLatch.flash = some f.flush.resetLatch := by
    rw [flashResetLatch, hf]
    rfl
  -- the vectors are read after the latch
  obtain ⟨sp, pc, hsp, hpc, hvec⟩ := hl.read_vectors hg
  have hclear := hl.resetExceptionSources_eq
  have hc := hl.cleared_board
  obtain ⟨b, hb, honly, htoken⟩ := depositSkipToken_spec hc m.rotMeasure
  have hrun : m.applyRunReset = some ⟨⟨m.target.port,
      m.target.core.resetForReboot sp (pc &&& ~~~1), { b with resetPending := false }⟩,
      m.cache.flushDecodeCache, m.rotMeasure⟩ := by
    simp only [applyRunReset, hsp, hpc, hclear, hb, Option.bind_eq_bind, Option.bind_some]
  have hm' := hm.mono (sameMap_applyRunReset hrun)
  refine ⟨_, f, f.flush.resetLatch, hrun, ?_, rfl, fun _ => rfl, ?_⟩
  · rw [honly]
    exact ⟨hf, hg, fun _ => rfl, hvec, fun _ => ⟨rfl, rfl⟩, rfl, ⟨rfl, rfl, rfl⟩, rfl, rfl⟩
  · -- the deposit comes last, so nothing overwrites it
    rw [token_of_board hm']
    exact htoken.trans (by rw [token_of_board hm]; rfl)

theorem serveReset_spec (hm : Board m.target.bus) :
    ∃ m' f g, m.applyServeReset = some m' ∧ Restarted m m' f g ∧
      g.effectiveSwap = f.committedSwap ∧ (∀ pc, m'.cache.entries pc = none) ∧
      m'.token = m.token := by
  obtain ⟨f, hf⟩ := Option.isSome_iff_exists.mp hm.flash
  have hl := hm.latched
  have hg : m.target.bus.flashResetLatch.flash = some f.flush.resetLatch := by
    rw [flashResetLatch, hf]
    rfl
  obtain ⟨sp, pc, hsp, hpc, hvec⟩ := hl.read_vectors hg
  have hclear := hl.resetExceptionSources_eq
  obtain ⟨caught, port, hcatch⟩ := m.target.port.honorVectorCatch_core
    (m.target.core.resetForReboot sp (pc &&& ~~~1))
  have hrun : m.applyServeReset = some ⟨⟨port,
      { m.target.core.resetForReboot sp (pc &&& ~~~1) with halted := caught || false },
      { Board.cleared m.target.bus.flashResetLatch with resetPending := false }⟩,
      m.cache.flushDecodeCache, m.rotMeasure⟩ := by
    simp only [applyServeReset, DebugRun.applySelfReset, hsp, hpc, hclear, hcatch,
      Option.bind_eq_bind, Option.bind_some, Option.map_some]
    rfl
  refine ⟨_, f, f.flush.resetLatch, hrun, ?_, rfl, fun _ => rfl, ?_⟩
  · exact ⟨hf, hg, fun _ => rfl, hvec, fun _ => ⟨rfl, rfl⟩, rfl, ⟨rfl, rfl, rfl⟩, rfl, rfl⟩
  · have hm' : Board ({ Board.cleared m.target.bus.flashResetLatch with resetPending := false } :
        Bus (SpDevices ρ)) := hl.cleared_board.mono ⟨⟨rfl, rfl, rfl, rfl⟩, rfl, rfl⟩
    exact hm'.read_token.trans (token_of_board hm).symm

/-- A reset of the debug port. What the port itself does with the transfer stays open. -/
theorem doReset_spec (hm : Board m.target.bus) :
    ∃ t f, m.target.doReset = some t ∧ m.target.bus.flash = some f ∧ ∀ port,
      Restarted m ⟨{ t with port := port }, m.cache, m.rotMeasure⟩ f f ∧
        (⟨{ t with port := port }, m.cache, m.rotMeasure⟩ : SpMachine ρ).token = m.token := by
  obtain ⟨f, hf⟩ := Option.isSome_iff_exists.mp hm.flash
  -- the vectors are read without a latch
  obtain ⟨sp, pc, hsp, hpc, hvec⟩ := hm.read_vectors hf
  have hclear := hm.resetExceptionSources_eq
  obtain ⟨caught, port, hcatch⟩ :=
    ({ m.target.port with resetSticky := true } : SwDp).honorVectorCatch_core
      (m.target.core.resetForReboot sp (pc &&& ~~~1))
  have hrun : m.target.doReset = some ⟨port,
      { m.target.core.resetForReboot sp (pc &&& ~~~1) with halted := caught || false },
      Board.cleared m.target.bus⟩ := by
    simp only [DebugTarget.doReset, hsp, hpc, hclear, hcatch, Option.bind_eq_bind,
      Option.bind_some]
    rfl
  refine ⟨_, f, hrun, hf, fun port' => ⟨⟨hf, hf, fun hswap => ?_, hvec, fun _ => ⟨rfl, rfl⟩, rfl,
    ⟨rfl, rfl, rfl⟩, rfl, rfl⟩, ?_⟩⟩
  · -- they are those of the latched bank only where nothing was pending
    rw [Flash.resetLatch_eq_self hswap]
  · exact hm.cleared_board.read_token.trans (token_of_board hm).symm

/-- An AIRCR write through the data register is a reset, after which TAR may move on. -/
theorem transfer_reset {ap rnw : Bool} {a : Byte} {wdata : Word} {t : DebugTarget (SpDevices ρ)}
    (hreset : m.Resets (.transfer ap rnw a wdata)) (ht : m.target.doReset = some t) :
    m.swdTransfer ap rnw a wdata =
      some ⟨{ t with port := t.port.autoInc }, m.cache, m.rotMeasure⟩ := by
  obtain ⟨hdrw, hsize, htar, hkey⟩ := hreset
  -- AIRCR is far above the ITCM, so no decode is dropped
  have hcache : (drwWrites m.target.port ap rnw a && decide (m.target.port.tar < Core.itcmHi)) =
      false := by
    rw [htar, hdrw]
    decide
  simp only [drwWrites, Bool.and_eq_true, Bool.not_eq_true', beq_iff_eq] at hdrw
  obtain ⟨⟨rfl, rfl⟩, hreg⟩ := hdrw
  have hword : m.target.memWriteWord m.target.port.tar wdata = some t := by
    rw [htar, DebugTarget.memWriteWord, if_neg (by decide), if_neg (by decide),
      if_neg (by decide), if_neg (by decide), if_neg (by decide), if_pos rfl, if_pos hkey, ht]
  have hwrite : m.target.drwWrite wdata = some { t with port := t.port.autoInc } := by
    rw [DebugTarget.drwWrite, if_neg (by rw [hsize]; decide), if_neg (by rw [hsize]; decide), hword]
    rfl
  have htransfer : m.target.transfer true false a wdata =
      some (none, { t with port := t.port.autoInc }) := by
    rw [DebugTarget.transfer, if_pos rfl, DebugTarget.apTransfer, if_neg Bool.false_ne_true, hreg,
      if_neg (by decide), if_neg (by decide), if_pos rfl, hwrite]
    rfl
  simp only [swdTransfer, htransfer, hcache, Option.bind_eq_bind, Option.bind_some]
  rfl

/-! ## When a reset does all of it -/

variable {isa : Isa} {bodies : Bodies} {verifier : Verifier}

/-- Whether the outcome of a step is a full reset, when there is one. -/
theorem agrees_iff_rebooted {e : SpEvent} (hreset : m.Resets e)
    (hstep : m.step isa bodies verifier e = some m') :
    m.Agrees isa bodies verifier e ↔ m.Rebooted m' := by
  constructor
  · intro h
    obtain ⟨m₁, hm₁, hr⟩ := h hreset
    obtain rfl : m₁ = m' := Option.some.inj (hm₁.symm.trans hstep)
    exact hr
  · exact fun h _ => ⟨m', hstep, h⟩

/-- A reset of the debug port is a full one when nothing was left for the other paths to do. -/
theorem debugReset_iff (hm : Board m.target.bus) {e : SpEvent} (hreset : m.Resets e)
    (hstep : ∀ t, m.target.doReset = some t → ∃ port, m.step isa bodies verifier e =
      some ⟨{ t with port := port }, m.cache, m.rotMeasure⟩) :
    m.Agrees isa bodies verifier e ↔
      m.Unmoved ∧ m.TokenInPlace ∧ m.SwapInEffect ∧ ∀ pc, m.cache.entries pc = none := by
  obtain ⟨t, f, ht, hf, hspec⟩ := doReset_spec hm
  obtain ⟨port, hport⟩ := hstep t ht
  obtain ⟨hrestart, htoken⟩ := hspec port
  rw [agrees_iff_rebooted hreset hport, hrestart.rebooted_iff, token_kept_iff htoken]
  -- the flash is the same before and after
  have hswap : m.SwapInEffect ↔ f.effectiveSwap = f.committedSwap := by
    rw [SwapInEffect, hf]
    exact ⟨fun h => h f rfl, fun h f' hf' => Option.some.inj hf' ▸ h⟩
  rw [hswap]
  tauto

/-- A reset does everything exactly when what its path leaves out needs no doing. -/
theorem agrees_iff (hm : Board m.target.bus) (e : SpEvent) :
    m.Agrees isa bodies verifier e ↔ (m.Resets e → m.Spared e) := by
  by_cases hreset : m.Resets e
  swap
  · exact iff_of_true (fun h => absurd h hreset) fun h => absurd h hreset
  rw [imp_iff_right hreset]
  cases e with
  | step => exact absurd hreset id
  | between p => exact absurd hreset id
  | pump queue => exact absurd hreset id
  | transfer ap rnw a wdata =>
      exact debugReset_iff hm hreset fun t ht => ⟨_, transfer_reset hreset ht⟩
  | pinReset =>
      refine debugReset_iff hm hreset fun t ht => ⟨t.port, ?_⟩
      rw [step, DebugTarget.pinReset, ht]
      rfl
  | serveReset =>
      obtain ⟨m', f, g, hrun, hrestart, hswap, hdecodes, htoken⟩ := serveReset_spec hm
      have hstep : m.step isa bodies verifier .serveReset = some m' := by
        rw [step, if_pos (show m.target.bus.resetPending = true from hreset), hrun]
      rw [agrees_iff_rebooted hreset hstep, hrestart.rebooted_iff, token_kept_iff htoken]
      exact ⟨fun h => ⟨h.2.1, h.2.2.2⟩, fun h => ⟨hswap, h.1, hdecodes, h.2⟩⟩
  | runReset =>
      obtain ⟨m', f, g, hrun, hrestart, hswap, hdecodes, htoken⟩ := runReset_spec hm
      have hstep : m.step isa bodies verifier .runReset = some m' := by
        rw [step, if_pos (show m.target.bus.resetPending = true from hreset), hrun]
      rw [agrees_iff_rebooted hreset hstep, hrestart.rebooted_iff]
      exact ⟨fun h => h.2.1, fun h => ⟨hswap, h, hdecodes, htoken⟩⟩

/-- What `setup` leaves behind. -/
structure Fresh (m : SpMachine ρ) (f : Flash) : Prop where
  port : m.target.port = SwDp.new
  romCall : m.target.core.romCall = .idle
  flash : m.target.bus.flash = some f
  scs : m.target.bus.mmio.scs = Scs.new
  cache : m.cache = DecodeCache.new
  token : m.TokenInPlace

theorem setup_spec (others : ρ) {more : List Device} (f : Flash) (rotMeasure : Bool)
    (hmore : ∀ d ∈ more, codeEnd ≤ d.base) :
    ∃ m, setup others more f rotMeasure = some m ∧ Board m.target.bus ∧ m.Fresh f := by
  have hboard := Board.of_install ⟨Scs.new, others⟩ f hmore
  obtain ⟨sp, pc, hsp, hpc, -⟩ := hboard.read_vectors rfl
  obtain ⟨b, hb, honly, htoken⟩ := depositSkipToken_spec hboard rotMeasure
  have hsetup : setup others more f rotMeasure = some ⟨⟨SwDp.new,
      Core.new.reset sp (pc &&& ~~~1), b⟩, DecodeCache.new, rotMeasure⟩ := by
    simp only [setup, hsp, hpc, hb, Option.bind_eq_bind, Option.bind_some]
  have hb' : Board b := board_setup hmore hsetup
  refine ⟨_, hsetup, hb', rfl, rfl, ?_, ?_, rfl, ?_⟩
  · rw [honly]
    rfl
  · rw [honly, installPeripherals_eq]
    rfl
  · cases rotMeasure with
    | true => exact Or.inl rfl
    | false => exact Or.inr (hb'.read_token.trans htoken)

/-- Along every run of an SP, the resets do everything exactly when each finds nothing to do of
what its path leaves out. -/
theorem resets_agree_iff (others : ρ) (more : List Device) (f : Flash) (rotMeasure : Bool)
    (hmore : ∀ d ∈ more, codeEnd ≤ d.base) (h : setup others more f rotMeasure = some m)
    (es : List SpEvent) :
    Runs.Along (fun m e => step m isa bodies verifier e) (Agrees isa bodies verifier) es m ↔
      Runs.Along (fun m e => step m isa bodies verifier e) (fun m e => m.Resets e → m.Spared e) es
        m :=
  Runs.along_iff (I := fun m => Board m.target.bus) (fun _ _ _ hm _ hstep => board_step hm hstep)
    (fun _ e hm => agrees_iff hm e) es m (board_setup hmore h)

open RomRun (refusing)

theorem resets_agree_iff_fresh :
    ∃ m, setup () [] Flash.blank false = some m ∧
      Runs.Along (fun m e => step m nopIsa nopBodies refusing e)
        (Agrees nopIsa nopBodies refusing) [.pinReset] m := by
  obtain ⟨m, hm, -, hfresh⟩ := setup_spec () Flash.blank false (List.forall_mem_nil _)
  refine ⟨m, hm, (resets_agree_iff () [] Flash.blank false nofun hm [.pinReset]).mpr
    ⟨fun _ => ⟨⟨?_, hfresh.romCall⟩, hfresh.token, ?_, ?_⟩, fun _ _ => trivial⟩⟩
  · rw [hfresh.scs]
    rfl
  · intro f hf
    obtain rfl := Option.some.inj (hfresh.flash.symm.trans hf)
    rfl
  · rw [hfresh.cache]
    exact fun _ => rfl

/-! ## A debugger moves the vector table -/

/-- Writes to CSW and to TAR only move the port. -/
theorem swdTransfer_csw (hsel : m.target.port.select = 0) (wdata : Word) :
    m.swdTransfer true false 0x00 wdata =
      some { m with target := { m.target with port := { m.target.port with csw := wdata } } } := by
  simp only [swdTransfer, DebugTarget.transfer, DebugTarget.apTransfer, drwWrites, hsel]
  rfl

theorem swdTransfer_tar (hsel : m.target.port.select = 0) (wdata : Word) :
    m.swdTransfer true false 0x04 wdata =
      some { m with target := { m.target with port := { m.target.port with tar := wdata } } } := by
  simp only [swdTransfer, DebugTarget.transfer, DebugTarget.apTransfer, drwWrites, hsel]
  rfl

/-- A word write of VTOR over SWD, and then a pulse of the reset pin. -/
def moveVtor : List SpEvent :=
  [.transfer true false 0x00 2, .transfer true false 0x04 scbVtor,
    .transfer true false 0x0C 0x08000400, .pinReset]

theorem resets_not_agree :
    ¬ ∀ (m : SpMachine Unit) (es : List SpEvent), setup () [] Flash.blank false = some m →
      Runs.Along (fun m e => step m nopIsa nopBodies refusing e)
        (Agrees nopIsa nopBodies refusing) es m := by
  intro h
  obtain ⟨m, hm, hboard, hfresh⟩ := setup_spec () Flash.blank false (List.forall_mem_nil _)
  have hsel : m.target.port.select = 0 := by
    rw [hfresh.port]
    rfl
  let m₁ := { m with target := { m.target with port := { m.target.port with csw := 2 } } }
  let m₂ := { m₁ with target := { m₁.target with port := { m₁.target.port with tar := scbVtor } } }
  -- the store to VTOR reaches the system control space
  have hdrw : ∃ m₃, m₂.swdTransfer true false 0x0C 0x08000400 = some m₃ ∧
      Board m₃.target.bus ∧ m₃.target.bus.mmio.scs.read Scs.vtorOffset = 0x08000400 := by
    have hwrite := hboard.write32_scs (a := scbVtor) (by decide) 0x08000400
    have hword : m₂.target.memWriteWord scbVtor 0x08000400 =
        (m.target.bus.write32 scbVtor 0x08000400).map fun b => { m₂.target with bus := b } := rfl
    have htransfer := DebugTarget.transfer_drw_word (t := m₂.target)
      (by rw [show m₂.target.port.select = 0 from hsel]; rfl)
      (show 2 ≤ ((2 : Word) &&& 0x7).toNat by decide) 0x08000400
    rw [show m₂.target.port.tar = scbVtor from rfl, hword, hwrite] at htransfer
    rw [swdTransfer, htransfer]
    exact ⟨_, rfl, hboard.mono (sameMap_write32 hwrite),
      Scs.read_write_same _ _ _ (by decide) (by decide)⟩
  obtain ⟨m₃, hm₃, hboard₃, hvtor⟩ := hdrw
  -- the reset pin is then the last event of the run
  have hlast := (((h m moveVtor hm).2 m₁ (swdTransfer_csw hsel 2)).2 m₂
    (swdTransfer_tar (m := m₁) hsel scbVtor)).2 m₃ hm₃
  have hspared := (agrees_iff hboard₃ _).mp hlast.1 trivial
  rw [hspared.1.1] at hvtor
  exact absurd hvtor (by decide)

end SpMachine

end SpEmu
