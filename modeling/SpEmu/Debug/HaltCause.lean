import SpEmu.Debug.DebugPort
import SpEmu.Lib.Runs

/-!
# What DFSR says about a halt

A halt has one cause: a C_HALT request, a breakpoint or a reset vector catch. `DebugRun` keeps it
beside the target, as the events make it; DFSR has to be put together from `halted`, `bkptHit` and
`vcatchHalt`. A resume clears all three. A reset clears `bkptHit` only, so a catch that a second,
uncaught reset ended stays behind in `vcatchHalt`, and the next C_HALT request reads as a vector
catch. `dfsr_reports_iff` says that nothing else goes wrong.
-/

set_option autoImplicit false

namespace SpEmu

open ByteMem SwDp

inductive HaltCause where
  | request
  | breakpoint
  | vectorCatch
  deriving DecidableEq, Repr

/-- The DFSR bit of a cause; a running core has none. -/
def HaltCause.dfsr : Option HaltCause → Word
  | none => 0
  | some .request => dfsrHalted
  | some .breakpoint => dfsrBkpt
  | some .vectorCatch => dfsrVcatch

/-- A word write of the debugger, a pulse of the reset pin, a system reset that the firmware asked
for, a BKPT that the running core executes, and anything else the core and the bus do. -/
inductive DebugEvent (δ : Type) where
  | write (addr val : Word)
  | pinReset
  | selfReset
  | bkpt (pc : Word)
  | other (core : Core) (bus : Bus δ)

/-- A debug target with the cause of the current halt. -/
structure DebugRun (δ : Type) where
  target : DebugTarget δ
  cause : Option HaltCause

namespace DebugRun

variable {δ : Type} [Mmio δ] (s : DebugRun δ)

/-- The serve loop applies a system reset that the firmware asked for. -/
def applySelfReset (t : DebugTarget δ) : Option (DebugTarget δ) := do
  let (sp, bus) ← t.bus.flashResetLatch.read32 vectorTable
  let (pc, bus) ← bus.read32 (vectorTable + 4)
  let bus ← bus.resetExceptionSources
  let (_, port, core) := t.port.honorVectorCatch (t.core.resetForReboot sp (pc &&& ~~~1))
  some ⟨port, core, { bus with resetPending := false }⟩

/-- The vector catch is armed. -/
def armed (p : SwDp) : Bool := p.demcr &&& vcCorereset != 0

/-- An AIRCR write that resets. -/
def Resets (addr val : Word) : Prop :=
  addr = aircr ∧ val &&& 0xFFFF0000 = aircrVectkey ∧ val &&& aircrSysresetreq ≠ 0

instance (addr val : Word) : Decidable (Resets addr val) := inferInstanceAs (Decidable (_ ∧ _))

/-- The cause after a reset. -/
def resetCause (p : SwDp) : Option HaltCause := if armed p then some .vectorCatch else none

/-- The cause after a DHCSR write: a request halts a running core, and anything but a request
resumes it. -/
def dhcsrCause (val : Word) : Option HaltCause :=
  if val >>> 16 ≠ dbgkey then s.cause
  else if val &&& cDebugen = 0 then none
  else if val &&& cHalt = 0 then none
  else if s.target.core.halted then s.cause
  else some .request

/-- The cause after an event. -/
def causeAfter : DebugEvent δ → Option HaltCause
  | .write addr val =>
      if addr = dhcsr then s.dhcsrCause val
      else if Resets addr val then resetCause s.target.port
      else s.cause
  | .pinReset => resetCause s.target.port
  | .selfReset => resetCause s.target.port
  | .bkpt _ => if s.target.core.debugEn then some .breakpoint else s.cause
  | .other _ _ => s.cause

/-- What an event does to the target. -/
def targetStep (t : DebugTarget δ) : DebugEvent δ → Option (DebugTarget δ)
  | .write addr val => t.memWriteWord addr val
  | .pinReset => t.pinReset
  | .selfReset => applySelfReset t
  | .bkpt pc =>
      if t.core.halted then none
      else
        -- Without a debugger the instruction is a fault, which halts nothing.
        match t.core.bkpt pc with
        | some core => some { t with core := core }
        | none => some t
  | .other core bus =>
      if core.halted = t.core.halted ∧ core.debugEn = t.core.debugEn ∧
          core.bkptHit = t.core.bkptHit then some { t with core := core, bus := bus }
      else none

def step (s : DebugRun δ) (e : DebugEvent δ) : Option (DebugRun δ) :=
  (targetStep s.target e).map fun t => ⟨t, s.causeAfter e⟩

/-- A DFSR read shows the bit of the cause and nothing else. -/
def Reports (s : DebugRun δ) : Prop :=
  s.target.memReadWord dfsr = some (HaltCause.dfsr s.cause, s.target)

/-- A C_HALT request that reaches a running core, while the port still remembers a vector
catch. -/
def StaleCatch (s : DebugRun δ) (e : DebugEvent δ) : Prop :=
  ∃ val, e = .write dhcsr val ∧ val >>> 16 = dbgkey ∧ val &&& cDebugen ≠ 0 ∧
    val &&& cHalt ≠ 0 ∧ s.target.core.halted = false ∧ s.target.port.vcatchHalt = true

/-! ## The flags behind DFSR -/

/-- The flags agree with the cause. A catch may be remembered while the core runs, or while it is
halted at a breakpoint. -/
structure Agrees (t : DebugTarget δ) (cause : Option HaltCause) : Prop where
  halted : t.core.halted = cause.isSome
  bkptHit : t.core.bkptHit = decide (cause = some .breakpoint)
  caught : cause = some .vectorCatch → t.port.vcatchHalt = true
  requested : cause = some .request → t.port.vcatchHalt = false

variable {s} {t t' : DebugTarget δ} {cause : Option HaltCause}

theorem Agrees.reports (h : Agrees s.target s.cause) : s.Reports := by
  have hread : s.target.memReadWord dfsr =
      some (s.target.port.haltReason s.target.core, s.target) :=
    rfl
  rw [Reports, hread, haltReason, h.halted, h.bkptHit]
  cases hc : s.cause with
  | none => cases s.target.port.vcatchHalt <;> rfl
  | some cause =>
      cases cause with
      | request =>
          rw [h.requested hc]
          rfl
      | breakpoint => rfl
      | vectorCatch =>
          rw [h.caught hc]
          rfl

omit [Mmio δ] in
/-- The three flags alone decide. -/
theorem Agrees.of_flags (h : Agrees t cause) (hh : t'.core.halted = t.core.halted)
    (hb : t'.core.bkptHit = t.core.bkptHit) (hv : t'.port.vcatchHalt = t.port.vcatchHalt) :
    Agrees t' cause :=
  ⟨hh.trans h.halted, hb.trans h.bkptHit, fun hc => hv.trans (h.caught hc),
    fun hc => hv.trans (h.requested hc)⟩

omit [Mmio δ] in
theorem agrees_none (hh : t.core.halted = false) (hb : t.core.bkptHit = false) : Agrees t none :=
  ⟨hh, hb, nofun, nofun⟩

/-! ## Events -/

omit [Mmio δ] in
/-- Catching a reset of a core that runs. -/
theorem agrees_honorVectorCatch (p : SwDp) {c : Core} (hh : c.halted = false)
    (hb : c.bkptHit = false) (bus : Bus δ) :
    Agrees ⟨(p.honorVectorCatch c).2.1, (p.honorVectorCatch c).2.2, bus⟩ (resetCause p) := by
  rw [honorVectorCatch, resetCause]
  cases harm : armed p with
  | true =>
      rw [armed] at harm
      rw [if_pos harm]
      exact ⟨rfl, hb, fun _ => rfl, nofun⟩
  | false =>
      rw [armed] at harm
      rw [if_neg (by rw [harm]; nofun)]
      exact agrees_none hh hb

theorem agrees_doReset (h : t.doReset = some t') : Agrees t' (resetCause t.port) := by
  obtain ⟨⟨sp, b₁⟩, -, h⟩ := Option.bind_eq_some_iff.mp h
  obtain ⟨⟨pc, b₂⟩, -, h⟩ := Option.bind_eq_some_iff.mp h
  obtain ⟨b₃, -, h⟩ := Option.bind_eq_some_iff.mp h
  obtain rfl := Option.some.inj h
  exact agrees_honorVectorCatch { t.port with resetSticky := true } rfl rfl b₃

theorem agrees_applySelfReset (h : applySelfReset t = some t') : Agrees t' (resetCause t.port) := by
  obtain ⟨⟨sp, b₁⟩, -, h⟩ := Option.bind_eq_some_iff.mp h
  obtain ⟨⟨pc, b₂⟩, -, h⟩ := Option.bind_eq_some_iff.mp h
  obtain ⟨b₃, -, h⟩ := Option.bind_eq_some_iff.mp h
  obtain rfl := Option.some.inj h
  exact agrees_honorVectorCatch t.port rfl rfl _

omit [Mmio δ] in
theorem agrees_writeDhcsr {val : Word} (h : Agrees s.target s.cause)
    (hfresh : ¬ StaleCatch s (.write dhcsr val)) :
    Agrees ⟨(s.target.port.writeDhcsr s.target.core val).1,
      (s.target.port.writeDhcsr s.target.core val).2, s.target.bus⟩ (s.dhcsrCause val) := by
  rw [writeDhcsr, dhcsrCause]
  by_cases hkey : val >>> 16 = dbgkey
  swap
  · rw [if_pos hkey, if_pos hkey]
    exact h
  rw [if_neg (not_not.mpr hkey), if_neg (not_not.mpr hkey)]
  by_cases hen : val &&& cDebugen = 0
  · simp only [hen, bne_self_eq_false, Bool.not_false, if_true]
    exact agrees_none rfl rfl
  have hen' : (val &&& cDebugen != 0) = true := bne_iff_ne.mpr hen
  simp only [hen', Bool.not_true, Bool.false_eq_true, if_false, if_neg hen]
  by_cases hhalt : val &&& cHalt = 0
  · simp only [hhalt, bne_self_eq_false, Bool.false_eq_true, if_false, if_true]
    exact agrees_none rfl rfl
  have hhalt' : (val &&& cHalt != 0) = true := bne_iff_ne.mpr hhalt
  simp only [hhalt', if_true, if_neg hhalt]
  cases hrun : s.target.core.halted with
  | true =>
      -- The request finds the core halted already.
      rw [if_pos rfl]
      exact h.of_flags hrun.symm rfl rfl
  | false =>
      rw [if_neg nofun]
      have hcause : s.cause = none := by
        have hsome := h.halted
        rw [hrun] at hsome
        exact Option.isSome_eq_false_iff.mp hsome.symm |> Option.isNone_iff_eq_none.mp
      have hvcatch : s.target.port.vcatchHalt = false := by
        cases hv : s.target.port.vcatchHalt with
        | false => rfl
        | true => exact absurd ⟨val, rfl, hkey, hen, hhalt, hrun, hv⟩ hfresh
      have hbkpt : s.target.core.bkptHit = false := by
        rw [h.bkptHit, hcause]
        rfl
      exact ⟨rfl, hbkpt, nofun, fun _ => hvcatch⟩

/-- A register that the debugger writes is not one of the flags. -/
theorem flags_setControl (c : Core) (v : Word) :
    (c.setControl v).halted = c.halted ∧ (c.setControl v).bkptHit = c.bkptHit := by
  simp only [Core.setControl]
  split_ifs <;> exact ⟨rfl, rfl⟩

theorem flags_setGdbReg (c : Core) (n : Nat) (v : Word) :
    (c.setGdbReg n v).halted = c.halted ∧ (c.setGdbReg n v).bkptHit = c.bkptHit := by
  have hmsp : (c.setMsp v).halted = c.halted ∧ (c.setMsp v).bkptHit = c.bkptHit := by
    simp only [Core.setMsp]
    split_ifs <;> exact ⟨rfl, rfl⟩
  have hpsp : (c.setPsp v).halted = c.halted ∧ (c.setPsp v).bkptHit = c.bkptHit := by
    simp only [Core.setPsp]
    split_ifs <;> exact ⟨rfl, rfl⟩
  rw [Core.setGdbReg]
  split_ifs
  · exact ⟨rfl, rfl⟩
  · exact ⟨rfl, rfl⟩
  · exact ⟨rfl, rfl⟩
  · exact hmsp
  · exact hpsp
  · exact flags_setControl _ _
  · exact ⟨rfl, rfl⟩
  · exact ⟨rfl, rfl⟩
  · exact ⟨rfl, rfl⟩

omit [Mmio δ] in
theorem agrees_writeDcrsr (h : Agrees t cause) (val : Word) :
    Agrees ⟨(t.port.writeDcrsr t.core val).1, (t.port.writeDcrsr t.core val).2, t.bus⟩ cause := by
  rw [writeDcrsr]
  split
  · obtain ⟨hh, hb⟩ := flags_setGdbReg t.core (val &&& 0x7F).toNat t.port.dcrdr
    exact h.of_flags hh hb rfl
  · exact h.of_flags rfl rfl rfl

theorem agrees_targetStep {e : DebugEvent δ} (h : Agrees s.target s.cause)
    (hfresh : ¬ StaleCatch s e) (hstep : targetStep s.target e = some t') :
    Agrees t' (s.causeAfter e) := by
  cases e with
  | pinReset => exact agrees_doReset hstep
  | selfReset => exact agrees_applySelfReset hstep
  | bkpt pc =>
      simp only [targetStep] at hstep
      split at hstep
      · cases hstep
      simp only [Core.bkpt, causeAfter] at hstep ⊢
      cases hen : s.target.core.debugEn with
      | true =>
          rw [hen] at hstep
          obtain rfl := Option.some.inj hstep
          exact ⟨rfl, rfl, nofun, nofun⟩
      | false =>
          rw [hen] at hstep
          obtain rfl := Option.some.inj hstep
          exact h
  | other core bus =>
      simp only [targetStep] at hstep
      split at hstep
      · next hsame =>
          obtain rfl := Option.some.inj hstep
          exact h.of_flags hsame.1 hsame.2.2 rfl
      · cases hstep
  | write addr val =>
      simp only [targetStep, DebugTarget.memWriteWord] at hstep
      simp only [causeAfter]
      -- DHCSR is the one register that halts and resumes
      by_cases hdhcsr : addr = dhcsr
      · subst hdhcsr
        rw [if_pos rfl] at hstep ⊢
        obtain rfl := Option.some.inj hstep
        exact agrees_writeDhcsr h hfresh
      rw [if_neg hdhcsr] at hstep ⊢
      -- AIRCR with its key resets the core
      by_cases hreset : Resets addr val
      · rw [if_pos hreset]
        obtain ⟨rfl, hkey, hreq⟩ := hreset
        rw [if_neg (by decide), if_neg (by decide), if_neg (by decide), if_neg (by decide),
          if_pos rfl, if_pos ⟨hkey, hreq⟩] at hstep
        exact agrees_doReset hstep
      rw [if_neg hreset]
      split at hstep
      · -- A register transfer.
        obtain rfl := Option.some.inj hstep
        exact agrees_writeDcrsr h val
      -- DCRDR and DEMCR only change the port, DFSR nothing
      split at hstep
      · obtain rfl := Option.some.inj hstep
        exact h.of_flags rfl rfl rfl
      split at hstep
      · obtain rfl := Option.some.inj hstep
        exact h.of_flags rfl rfl rfl
      split at hstep
      · obtain rfl := Option.some.inj hstep
        exact h
      split at hstep
      · -- AIRCR without the key or without the request
        next haircr =>
          rw [if_neg fun hkey => hreset ⟨haircr, hkey⟩] at hstep
          obtain rfl := Option.some.inj hstep
          exact h
      · obtain ⟨bus, -, rfl⟩ := Option.map_eq_some_iff.mp hstep
        exact h.of_flags rfl rfl rfl

/-- A request that finds a stale catch reads as a vector catch. -/
theorem not_reports_of_staleCatch {e : DebugEvent δ} (h : Agrees s.target s.cause)
    (hstale : StaleCatch s e) : ∃ s', s.step e = some s' ∧ ¬ s'.Reports := by
  obtain ⟨val, rfl, hkey, hen, hhalt, hrun, hv⟩ := hstale
  -- the core was running, so no halt had a cause
  have hcause : s.cause = none := by
    have hsome := h.halted
    rw [hrun] at hsome
    exact Option.isSome_eq_false_iff.mp hsome.symm |> Option.isNone_iff_eq_none.mp
  have hbkpt : s.target.core.bkptHit = false := by
    rw [h.bkptHit, hcause]
    rfl
  have hafter : s.causeAfter (.write dhcsr val) = some .request := by
    simp only [causeAfter, if_true, dhcsrCause, if_neg (not_not.mpr hkey), if_neg hen,
      if_neg hhalt, hrun, Bool.false_eq_true, if_false]
  refine ⟨⟨_, s.causeAfter (.write dhcsr val)⟩, rfl, ?_⟩
  rw [hafter, Reports]
  intro hread
  -- the port puts DFSR together from the flag that it still holds
  have hdfsr : ((s.target.port.writeDhcsr s.target.core val).1.haltReason
      (s.target.port.writeDhcsr s.target.core val).2) = dfsrHalted :=
    congrArg Prod.fst (Option.some.inj hread)
  rw [writeDhcsr, if_neg (not_not.mpr hkey)] at hdfsr
  simp only [bne_iff_ne.mpr hen, bne_iff_ne.mpr hhalt, Bool.not_true, Bool.false_eq_true, if_false,
    if_true, haltReason, hbkpt, hv, Bool.and_self] at hdfsr
  exact absurd hdfsr (by decide)

/-- The port as a debugger finds it, on a core as it is built. -/
def attach (bus : Bus δ) : DebugRun δ := ⟨⟨SwDp.new, Core.new, bus⟩, none⟩

/-- In every run of debugger writes, resets and breakpoints: DFSR shows the cause of the halt after
each event if and only if no C_HALT request reaches a running core while the port still remembers
a vector catch. -/
theorem dfsr_reports_iff (bus : Bus δ) (es : List (DebugEvent δ)) :
    Runs.Along step (fun s e => ∀ s', step s e = some s' → s'.Reports) es (attach bus) ↔
      Runs.Along step (fun s e => ¬ StaleCatch s e) es (attach bus) := by
  -- one fresh event keeps the flags in agreement with the cause
  have hnext : ∀ (s : DebugRun δ) (e : DebugEvent δ) (s' : DebugRun δ), Agrees s.target s.cause →
      ¬ StaleCatch s e → step s e = some s' → Agrees s'.target s'.cause := by
    intro s e s' h hfresh hstep
    obtain ⟨t', ht', rfl⟩ := Option.map_eq_some_iff.mp hstep
    exact agrees_targetStep h hfresh ht'
  -- and a stale one is the only kind that is misreported
  have hiff : ∀ (s : DebugRun δ) (e : DebugEvent δ), Agrees s.target s.cause →
      ((∀ s', step s e = some s' → s'.Reports) ↔ ¬ StaleCatch s e) := by
    intro s e h
    constructor
    · intro hrep hstale
      obtain ⟨s', hstep, hno⟩ := not_reports_of_staleCatch h hstale
      exact hno (hrep s' hstep)
    · intro hfresh s' hstep
      exact (hnext s e s' h hfresh hstep).reports
  refine Runs.along_iff (I := fun s => Agrees s.target s.cause) ?_ hiff es _ (agrees_none rfl rfl)
  exact fun s e s' h hrep => hnext s e s' h ((hiff s e h).mp hrep)

/-- A caught reset, DEMCR = 0, an uncaught reset, and then a request: DFSR reads VCATCH. -/
theorem request_reads_vcatch :
    ¬ ∀ (bus : Bus Unit) (es : List (DebugEvent Unit)),
      Runs.Along step (fun s e => ∀ s', step s e = some s' → s'.Reports) es (attach bus) := by
  intro h
  have hrun := h (Bus.new ()) [.write demcrAddr vcCorereset, .pinReset, .write demcrAddr 0,
    .pinReset, .write dhcsr 0xA05F0003]
  have hend : (Runs.run step [.write demcrAddr vcCorereset, .pinReset, .write demcrAddr 0,
      .pinReset, .write dhcsr 0xA05F0003] (attach (Bus.new ()))).any
        (fun s => s.target.port.haltReason s.target.core == dfsrVcatch &&
          s.cause == some .request) = true := by
    decide +kernel
  obtain ⟨s, hs, hflags⟩ := (Option.any_eq_true _ _).mp hend
  rw [Bool.and_eq_true, beq_iff_eq, beq_iff_eq] at hflags
  have hstart : (attach (Bus.new ())).Reports := Agrees.reports (agrees_none rfl rfl)
  have hreports : s.Reports :=
    Runs.invariant_of_along (I := Reports) (fun _ _ s' _ hP hstep => hP s' hstep) hstart hrun hs
  have hread : s.target.port.haltReason s.target.core = HaltCause.dfsr s.cause :=
    congrArg Prod.fst (Option.some.inj hreports)
  rw [hflags.1, hflags.2] at hread
  exact absurd hread (by decide)

end DebugRun

end SpEmu
