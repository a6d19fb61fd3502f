import SpEmu.Cpu.Effects
import SpEmu.Cpu.Transparency
import SpEmu.Lib.Runs

/-!
# The banked stack pointers over whole runs

`CoreRun` is a core with its decode cache and its bus, under the run loops: a step, the tick and
the interrupts between steps, a register write of a debugger, a system reset, the fields that the
loops set, and what others do to memory. It starts as the set-up leaves it, reset once from the
vector table.

`Regular` is the invariant of all runs: the process stack is the active one exactly in Thread mode
with SPSEL set, and BASEPRI fits its field. MRS reads the banks, and the bank of the active stack
pointer falls behind as soon as an instruction moves r13: `stack_banking` says for how long MRS is
right.
-/

set_option autoImplicit false

namespace SpEmu

open ByteMem

/-! ## The core under its run loops -/

structure CoreRun (δ : Type) where
  core : Core
  cache : DecodeCache
  bus : Bus δ

/-- The fields of the core that the set-up, the run loops and the debug port write. -/
structure LoopFields where
  wfiThrottle : Bool
  idleSkip : Word
  spTickCredit : Word
  tickFrozen : Bool
  halted : Bool
  debugEn : Bool
  bkptHit : Bool
  romTraps : Bool
  codeRanges : List PcRange
  vtorFallback : Word
  wfiIdle : Bool

def Core.withLoopFields (c : Core) (f : LoopFields) : Core :=
  { c with
    wfiThrottle := f.wfiThrottle
    idleSkip := f.idleSkip
    spTickCredit := f.spTickCredit
    tickFrozen := f.tickFrozen
    halted := f.halted
    debugEn := f.debugEn
    bkptHit := f.bkptHit
    romTraps := f.romTraps
    codeRanges := f.codeRanges
    vtorFallback := f.vtorFallback
    wfiIdle := f.wfiIdle }

inductive CoreEvent (δ : Type) where
  | step
  | tick
  | interrupt
  | writeReg (n : Nat) (v : Word)
  | reboot (sp pc : Word)
  | loops (f : LoopFields)
  | outside (cache : DecodeCache) (bus : Bus δ)

namespace CoreRun

variable {δ : Type} [Mmio δ] (isa : Isa) (verifier : Verifier)

def step (m : CoreRun δ) : CoreEvent δ → Option (CoreRun δ)
  | .step => do
      let (core, cache, bus) ← m.core.step isa isa.bodies verifier m.cache m.bus
      some ⟨core, cache, bus⟩
  | .tick => do
      let (core, bus) ← m.core.maybeTick.run (Bus.handle verifier) m.bus
      some { m with core := core, bus := bus }
  | .interrupt => do
      let (core, bus) ← m.core.maybeInterrupt.run (Bus.handle verifier) m.bus
      some { m with core := core, bus := bus }
  | .writeReg n v => some { m with core := m.core.setGdbReg n v }
  | .reboot sp pc => some { m with core := m.core.resetForReboot sp pc }
  | .loops f => some { m with core := m.core.withLoopFields f }
  | .outside cache bus => some { m with cache := cache, bus := bus }

/-- The core as the set-up leaves it. -/
def boot (sp pc : Word) (cache : DecodeCache) (bus : Bus δ) : CoreRun δ :=
  ⟨Core.new.reset sp pc, cache, bus⟩

/-- A core that some run of these events ends in. -/
def Reachable (c : Core) : Prop :=
  ∃ (sp pc : Word) (cache : DecodeCache) (bus : Bus δ) (es : List (CoreEvent δ)) (m : CoreRun δ),
    Runs.run (step isa verifier) es (boot sp pc cache bus) = some m ∧ m.core = c

end CoreRun

/-! ## What a program of the core can return -/

namespace Core

variable (c : Core)

/-- What holds of the core in the handler, wherever that is, holds after an entry. -/
theorem returns_exceptionEntry {P : Core → Prop} (vecnum : Word)
    (h : ∀ pc : Word, P { c.enterHandler vecnum with pc := pc, itstate := 0 }) :
    (c.exceptionEntry vecnum).Returns P := by
  rw [exceptionEntry, Prog.bind_eq, Prog.returns_bind]
  exact Prog.returns_of_forall (fun _ vtor pc => h _) _

/-- The crash detector counts its dumps. -/
theorem returns_crashDump {P : Core → Prop} (base pc : Word) (h : ∀ n, P (c.withDumps n)) :
    (c.crashDump base pc).Returns P := by
  rw [crashDump]
  split
  · rw [Prog.bind_eq, Prog.returns_bind]
    exact Prog.returns_of_forall (fun _ => h _) _
  · exact h c.badRetDumps

theorem returns_unstackFp {P : Core × Word → Prop} (exc top : Word)
    (hbasic : P (c, top)) (hlong : ∀ ws fpscr, P (c.setFp ws fpscr, top + 72)) :
    (c.unstackFp exc top).Returns P := by
  rw [unstackFp]
  split
  · rw [Prog.bind_eq, Prog.returns_bind]
    exact Prog.returns_of_forall (fun ws fpscr => hlong ws fpscr) _
  · exact hbasic

/-- What holds of every unstacked core holds after a return. -/
theorem returns_exceptionReturn {P : Core → Prop} (exc : Word)
    (hbasic : ∀ (n r0 r1 r2 r3 r12 lr pc xpsr top : Word),
      P (((c.withDumps n).setBasic r0 r1 r2 r3 r12 lr pc xpsr).leaveHandler exc top))
    (hlong : ∀ (n r0 r1 r2 r3 r12 lr pc xpsr top : Word) (ws : List Word) (fpscr : Word),
      P ((((c.withDumps n).setFp ws fpscr).setBasic r0 r1 r2 r3 r12 lr pc xpsr).leaveHandler exc
        top)) :
    (c.exceptionReturn exc).Returns P := by
  intro r0 r1 r2 r3 r12 lr pc xpsr
  have hdumps := returns_crashDump c (P := fun d => (d.unstackFp exc
    (c.returnBase exc + 0x20)).Returns fun r =>
      P ((r.1.setBasic r0 r1 r2 r3 r12 lr pc xpsr).leaveHandler exc r.2)) (c.returnBase exc) pc
    fun n => returns_unstackFp _ exc _ (hbasic ..) fun ws fpscr => hlong ..
  show ((c.crashDump (c.returnBase exc) pc).bind _).Returns P
  rw [Prog.returns_bind]
  exact hdumps.mono fun d hd => Prog.returns_bind.mpr hd

/-! ## The invariant of all runs -/

/-- What every reachable core satisfies. -/
structure Regular (c : Core) : Prop where
  sane : c.Sane
  basepri : c.basepri.toNat < 2 ^ 8

/-- The bank of the active stack pointer holds what r13 holds. -/
def BankCurrent (c : Core) : Prop := c.r sp = if c.spIsPsp then c.psp else c.msp

def StaysRegular (c d : Core) : Prop := c.Regular → d.Regular

def StaysCurrent (c d : Core) : Prop := c.BankCurrent → d.BankCurrent

variable {c}

theorem Regular.of_dataless {d : Core} (hc : c.Regular) (h : c.dataless = d.dataless) :
    d.Regular := by
  have hdataless : c.dataless.Regular :=
    ⟨⟨hc.sane.control, hc.sane.ipsr, hc.sane.spsel⟩, hc.basepri⟩
  rw [h] at hdataless
  exact ⟨⟨hdataless.sane.control, hdataless.sane.ipsr, hdataless.sane.spsel⟩, hdataless.basepri⟩

/-- FPCA is another bit of CONTROL than SPSEL. -/
theorem Sane.markFpca (hc : c.Sane) : c.markFpca.Sane := by
  have hbit : bitSet (c.control ||| 4) 1 = bitSet c.control 1 := by
    rw [bitSet_eq _ (by decide), bitSet_eq _ (by decide), BitVec.getLsbD_or]
    exact Bool.or_false _
  refine ⟨?_, hc.ipsr, ?_⟩
  · show (c.control ||| 4).toNat < 2 ^ 3
    rw [BitVec.toNat_or]
    exact Nat.or_lt_two_pow hc.control (by decide)
  · show c.spIsPsp = (c.mode == .thread && bitSet (c.control ||| 4) 1)
    rw [hbit]
    exact hc.spsel

theorem Regular.entered (hc : c.Regular) {vecnum : Word} (hvec : vecnum < 512) (pc : Word) :
    Regular { c.enterHandler vecnum with pc := pc, itstate := 0 } :=
  have hh := hc.sane.enterHandler hvec
  ⟨⟨hh.control, hh.ipsr, hh.spsel⟩, hc.basepri⟩

/-- A return from any frame; IPSR comes from the stacked status word. -/
theorem Regular.returned (hc : c.Regular) (r0 r1 r2 r3 r12 lr pc xpsr exc top : Word) :
    ((c.setBasic r0 r1 r2 r3 r12 lr pc xpsr).leaveHandler exc top).Regular := by
  have hbasic : (c.setBasic r0 r1 r2 r3 r12 lr pc xpsr).Sane :=
    ⟨hc.sane.control, and_lt 0x1ff (by decide), hc.sane.spsel⟩
  exact ⟨hbasic.leaveHandler exc top, hc.basepri⟩

theorem basepri_setControl (c : Core) (v : Word) : (c.setControl v).basepri = c.basepri := by
  rw [setControl]
  dsimp only
  split
  · rfl
  · split <;> rfl

theorem basepri_setMsp (c : Core) (v : Word) : (c.setMsp v).basepri = c.basepri := by
  rw [setMsp]
  dsimp only
  split <;> rfl

theorem basepri_setPsp (c : Core) (v : Word) : (c.setPsp v).basepri = c.basepri := by
  rw [setPsp]
  dsimp only
  split <;> rfl

/-- MSR keeps the core regular. -/
theorem Regular.writeSpecial (hc : c.Regular) (sysm : Byte) (v : Word) :
    (c.writeSpecial sysm v).Regular := by
  have hlow : (v &&& 0xff).toNat < 2 ^ 8 := and_lt 0xff (by decide)
  have hold := hc.basepri
  refine ⟨hc.sane.writeSpecial sysm v, ?_⟩
  rw [Core.writeSpecial]
  split
  case h_5 => rwa [basepri_setMsp]
  case h_6 => rwa [basepri_setPsp]
  case h_8 | h_9 => exact hlow
  case h_11 => rwa [basepri_setControl]
  all_goals exact hold

/-- A register write of a debugger keeps the core regular. -/
theorem Regular.setGdbReg (hc : c.Regular) (n : Nat) (v : Word) : (c.setGdbReg n v).Regular := by
  have hlow : ((v >>> 8) &&& 0xff).toNat < 2 ^ 8 := and_lt 0xff (by decide)
  have hold := hc.basepri
  refine ⟨hc.sane.setGdbReg n v, ?_⟩
  rw [Core.setGdbReg]
  split
  · exact hold
  split
  · exact hold
  split
  · exact hold
  split
  · rwa [basepri_setMsp]
  split
  · rwa [basepri_setPsp]
  split
  · rw [basepri_setControl]
    exact hlow
  split
  · exact hold
  split <;> exact hold

theorem regular_new : new.Regular := ⟨sane_new, by decide⟩

/-- The core as the set-up leaves it. -/
theorem regular_boot (sp pc : Word) : (new.reset sp pc).Regular :=
  ⟨⟨sane_new.control, sane_new.ipsr, sane_new.spsel⟩, regular_new.basepri⟩

theorem regular_resetForReboot (c : Core) (sp pc : Word) : (c.resetForReboot sp pc).Regular :=
  ⟨sane_resetForReboot c sp pc, show (0 : Word).toNat < 2 ^ 8 by decide⟩

/-! ## The bank of the active stack pointer -/

theorem BankCurrent.setR (hc : c.BankCurrent) {i : Fin 16} (hi : i ≠ sp) (v : Word) :
    (c.setR i v).BankCurrent :=
  (c.setR_of_ne v (Ne.symm hi)).trans hc

/-- CONTROL selects the process stack. -/
def selects (c : Core) (v : Word) : Bool := c.mode == .thread && bitSet (v &&& 0x7) 1

theorem setControl_of_same {v : Word} (h : c.spIsPsp = c.selects v) :
    c.setControl v = { c with control := v &&& 0x7 } := if_pos h

/-- A switch saves r13 in the bank in use and loads it from the other one. -/
theorem setControl_of_switch {v : Word} (h : c.spIsPsp ≠ c.selects v) :
    c.setControl v =
      { c.setR sp (if c.spIsPsp then c.msp else c.psp) with
        control := v &&& 0x7
        psp := if c.spIsPsp then c.r sp else c.psp
        msp := if c.spIsPsp then c.msp else c.r sp
        spIsPsp := !c.spIsPsp } := by
  rw [selects] at h
  have hsel := Bool.eq_not.mpr (Ne.symm h)
  rw [setControl]
  dsimp only
  rw [if_neg h, hsel]
  cases c.spIsPsp <;> rfl

theorem BankCurrent.setControl (hc : c.BankCurrent) (v : Word) :
    (c.setControl v).BankCurrent := by
  by_cases h : c.spIsPsp = c.selects v
  · rw [setControl_of_same h]
    exact hc
  · rw [setControl_of_switch h]
    show (c.setR sp (if c.spIsPsp then c.msp else c.psp)).r sp = if !c.spIsPsp then
      (if c.spIsPsp then c.r sp else c.psp) else if c.spIsPsp then c.msp else c.r sp
    rw [setR_same]
    cases c.spIsPsp <;> rfl

theorem BankCurrent.setMsp (hc : c.BankCurrent) (v : Word) : (c.setMsp v).BankCurrent := by
  rw [Core.setMsp]
  dsimp only
  split
  · next hpsp =>
      rw [BankCurrent, if_pos hpsp] at hc ⊢
      exact hc
  · next hmsp =>
      rw [BankCurrent, setR_same]
      exact (if_neg hmsp).symm

theorem BankCurrent.setPsp (hc : c.BankCurrent) (v : Word) : (c.setPsp v).BankCurrent := by
  rw [Core.setPsp]
  dsimp only
  split
  · next hpsp =>
      rw [BankCurrent, setR_same]
      exact (if_pos hpsp).symm
  · next hmsp =>
      rw [BankCurrent, if_neg hmsp] at hc ⊢
      exact hc

theorem BankCurrent.writeSpecial (hc : c.BankCurrent) (sysm : Byte) (v : Word) :
    (c.writeSpecial sysm v).BankCurrent := by
  rw [Core.writeSpecial]
  split
  case h_5 => exact hc.setMsp v
  case h_6 => exact hc.setPsp v
  case h_11 => exact hc.setControl v
  all_goals exact hc

theorem BankCurrent.setGdbReg (hc : c.BankCurrent) {n : Nat} (hn : n ≠ 13) (v : Word) :
    (c.setGdbReg n v).BankCurrent := by
  rw [Core.setGdbReg]
  split
  · exact hc.setR (fun heq => hn (congrArg Fin.val heq)) v
  split
  · exact hc
  split
  · exact hc
  split
  · exact hc.setMsp v
  split
  · exact hc.setPsp v
  split
  · refine BankCurrent.setControl ?_ _
    exact hc
  split
  · exact hc
  split <;> exact hc

/-- An entry banks the stack in use, and makes the main stack the active one. -/
theorem bankCurrent_enterHandler (c : Core) (vecnum : Word) :
    (c.enterHandler vecnum).BankCurrent := by
  rw [BankCurrent, enterHandler_sp]
  rfl

/-- A return loads r13 from the bank that it makes active. -/
theorem bankCurrent_leaveHandler (c : Core) (exc top : Word) :
    (c.leaveHandler exc top).BankCurrent := by
  rw [BankCurrent, leaveHandler]
  exact c.setR_same sp _

theorem bankCurrent_resetForReboot (c : Core) (sp pc : Word) :
    (c.resetForReboot sp pc).BankCurrent := c.setR_same Core.sp sp

theorem bankCurrent_boot (sp pc : Word) : (new.reset sp pc).BankCurrent :=
  new.setR_same Core.sp sp

end Core

/-! ## Whole runs -/

/-- A relation that holds across everything that can happen to a core. -/
class RunRel (R : Core → Core → Prop) (free : outParam (Fin 16 → Prop)) : Prop
    extends CoreRel R free where
  timer : ∀ {c d : Core}, c.OnlyTimer d → R c d
  entry : ∀ (c : Core) (vecnum : Word), vecnum < 512 → (c.exceptionEntry vecnum).Returns (R c)
  writeReg : ∀ (c : Core) (n : Nat) (v : Word), (∀ h : n < 15, free ⟨n, by omega⟩) →
    R c (c.setGdbReg n v)
  reboot : ∀ (c : Core) (sp pc : Word), R c (c.resetForReboot sp pc)
  loops : ∀ (c : Core) (f : LoopFields), R c (c.withLoopFields f)

namespace Core

section Polls

variable {R : Core → Core → Prop} {free : Fin 16 → Prop} [hR : RunRel R free]

include hR

theorem rel_refreshSyst (c : Core) : c.refreshSyst.Returns (R c) := by
  rw [refreshSyst]
  split
  · exact fun _ _ => hR.timer rfl
  · exact hR.refl c

theorem rel_maybeTick (c : Core) : c.maybeTick.Returns (R c) := by
  have hrefresh : c.refreshSyst.Returns (R c) := rel_refreshSyst c
  rw [maybeTick, Prog.bind_eq, Prog.returns_bind]
  refine hrefresh.mono fun d hd => ?_
  have hcount : R c d.countDown.1 := hR.trans hd (hR.timer d.countDown_only)
  split
  · exact hd
  split
  · exact hd
  dsimp only
  split
  · exact (hR.entry _ 15 (by decide)).mono fun e he => hR.trans hcount he
  · exact hcount

end Polls

/-- What every entry leads to, and the core itself, is what a poll of the NVIC leads to; the number
of an IRQ that the scan finds is below 256. -/
theorem rel_maybeInterrupt {δ : Type} [Mmio δ] {verifier : Verifier} {P : Core → Prop} {c d : Core}
    {b b' : Bus δ} (hsame : P c)
    (hentry : ∀ vecnum : Word, vecnum < 512 → (c.exceptionEntry vecnum).Returns P)
    (h : c.maybeInterrupt.run (Bus.handle verifier) b = some (d, b')) : P d := by
  obtain ⟨b₁, o, -, htook, hdel⟩ := run_maybeInterrupt verifier h
  cases o with
  | nothing =>
      cases htook
      exact hsame
  | irq n =>
      obtain ⟨b₂, -, henter⟩ := htook
      obtain ⟨hword, -⟩ := (hdel.basepri n rfl).1.1
      have hlt : (16 + n.setWidth 32 : Word) < 512 := by
        have hn : n.toNat < 256 := by omega
        bv_omega
      exact Prog.of_returns (hentry _ hlt) henter
  | pendsv => exact Prog.of_returns (hentry 14 (by decide)) htook.2

end Core

namespace CoreRun

variable {δ : Type} [Mmio δ] {isa : Isa} {verifier : Verifier}

/-- The event names only free registers as destinations: the instruction of a step, and the
register of a debugger's write. -/
def Writes (isa : Isa) (free : Fin 16 → Prop) (m : CoreRun δ) : CoreEvent δ → Prop
  | .step => m.core.StepWrites isa free m.cache m.bus
  | .writeReg n _ => ∀ h : n < 15, free ⟨n, by omega⟩
  | _ => True

section Rel

variable {R : Core → Core → Prop} {free : Fin 16 → Prop} [hR : RunRel R free]

include hR

theorem rel_event {m m' : CoreRun δ} {e : CoreEvent δ} (hw : m.Writes isa free e)
    (h : m.step isa verifier e = some m') : R m.core m'.core := by
  cases e with
  | step =>
      obtain ⟨⟨core, cache, bus⟩, hstep, heq⟩ := Option.bind_eq_some_iff.mp h
      cases heq
      exact Core.rel_step hw hstep
  | tick =>
      obtain ⟨⟨core, bus⟩, hrun, heq⟩ := Option.bind_eq_some_iff.mp h
      cases heq
      exact Prog.of_returns (Core.rel_maybeTick m.core) hrun
  | interrupt =>
      obtain ⟨⟨core, bus⟩, hrun, heq⟩ := Option.bind_eq_some_iff.mp h
      cases heq
      exact Core.rel_maybeInterrupt (hR.refl m.core) (hR.entry m.core) hrun
  | writeReg n v =>
      cases h
      exact hR.writeReg m.core n v hw
  | reboot sp pc =>
      cases h
      exact hR.reboot m.core sp pc
  | loops f =>
      cases h
      exact hR.loops m.core f
  | outside cache bus =>
      cases h
      exact hR.refl m.core

theorem rel_of_run {es : List (CoreEvent δ)} {m m' : CoreRun δ}
    (hw : Runs.Along (step isa verifier) (Writes isa free) es m)
    (h : Runs.run (step isa verifier) es m = some m') : R m.core m'.core :=
  Runs.invariant_of_along (I := fun s => R m.core s.core)
    (fun _ _ _ hs hw he => hR.trans hs (rel_event hw he)) (hR.refl m.core) hw h

end Rel

end CoreRun

namespace Core

/-! ## The two invariants -/

instance : RunRel StaysRegular (fun _ => True) where
  refl _ hc := hc
  trans h h' hc := h' (h hc)
  data h hc := hc.of_dataless h.dataless
  fpca _ hc := ⟨hc.sane.markFpca, hc.basepri⟩
  ret c exc := by
    refine c.returns_exceptionReturn exc ?_ ?_
    · intro n r0 r1 r2 r3 r12 lr pc xpsr top hc
      have hdumps : (c.withDumps n).Regular :=
        ⟨⟨hc.sane.control, hc.sane.ipsr, hc.sane.spsel⟩, hc.basepri⟩
      exact hdumps.returned ..
    · intro n r0 r1 r2 r3 r12 lr pc xpsr top ws fpscr hc
      have hfp : ((c.withDumps n).setFp ws fpscr).Regular :=
        ⟨⟨hc.sane.control, hc.sane.ipsr, hc.sane.spsel⟩, hc.basepri⟩
      exact hfp.returned ..
  svc c := c.returns_exceptionEntry 11 fun pc hc => hc.entered (by decide) pc
  special _ sysm v hc := hc.writeSpecial sysm v
  cps _ _ hc := ⟨⟨hc.sane.control, hc.sane.ipsr, hc.sane.spsel⟩, hc.basepri⟩
  it _ _ _ hc := ⟨⟨hc.sane.control, hc.sane.ipsr, hc.sane.spsel⟩, hc.basepri⟩
  wfiIdle _ hc := ⟨⟨hc.sane.control, hc.sane.ipsr, hc.sane.spsel⟩, hc.basepri⟩
  idle c _ _ hc := by
    rw [idle]
    split
    · exact ⟨⟨hc.sane.control, hc.sane.ipsr, hc.sane.spsel⟩, hc.basepri⟩
    split
    · exact ⟨⟨hc.sane.control, hc.sane.ipsr, hc.sane.spsel⟩, hc.basepri⟩
    · exact ⟨⟨hc.sane.control, hc.sane.ipsr, hc.sane.spsel⟩, hc.basepri⟩
  halt _ _ _ hc := ⟨⟨hc.sane.control, hc.sane.ipsr, hc.sane.spsel⟩, hc.basepri⟩
  start _ _ _ hc := ⟨⟨hc.sane.control, hc.sane.ipsr, hc.sane.spsel⟩, hc.basepri⟩
  itAdvance c hc := by
    rw [itAdvance]
    split
    · exact ⟨⟨hc.sane.control, hc.sane.ipsr, hc.sane.spsel⟩, hc.basepri⟩
    · exact ⟨⟨hc.sane.control, hc.sane.ipsr, hc.sane.spsel⟩, hc.basepri⟩
  romCall _ _ hc := ⟨⟨hc.sane.control, hc.sane.ipsr, hc.sane.spsel⟩, hc.basepri⟩
  romStatus := trivial
  timer h hc := by
    rw [OnlyTimer] at h
    rw [h]
    exact ⟨⟨hc.sane.control, hc.sane.ipsr, hc.sane.spsel⟩, hc.basepri⟩
  entry c vecnum hvec := c.returns_exceptionEntry vecnum fun pc hc => hc.entered hvec pc
  writeReg _ n v _ hc := hc.setGdbReg n v
  reboot c sp pc _ := regular_resetForReboot c sp pc
  loops _ _ hc := ⟨⟨hc.sane.control, hc.sane.ipsr, hc.sane.spsel⟩, hc.basepri⟩

/-- As long as no destination is r13, its bank stays current. -/
instance : RunRel StaysCurrent (fun i => i ≠ sp) where
  refl _ hc := hc
  trans h h' hc := h' (h hc)
  data {c d} h hc := by
    have hbanks : d.dataless.spIsPsp = c.spIsPsp ∧ d.dataless.psp = c.psp ∧
        d.dataless.msp = c.msp := h.dataless ▸ ⟨rfl, rfl, rfl⟩
    obtain ⟨hsel, hpsp, hmsp⟩ := hbanks
    rw [BankCurrent] at hc ⊢
    rw [h.r sp (not_not.mpr rfl), hc]
    show _ = if d.dataless.spIsPsp then d.dataless.psp else d.dataless.msp
    rw [hsel, hpsp, hmsp]
  fpca _ hc := hc
  ret c exc := by
    refine c.returns_exceptionReturn exc ?_ ?_
    · exact fun _ _ _ _ _ _ _ _ _ _ _ => bankCurrent_leaveHandler _ exc _
    · exact fun _ _ _ _ _ _ _ _ _ _ _ _ _ => bankCurrent_leaveHandler _ exc _
  svc c := c.returns_exceptionEntry 11 fun _ _ => bankCurrent_enterHandler c 11
  special _ sysm v hc := hc.writeSpecial sysm v
  cps _ _ hc := hc
  it _ _ _ hc := hc
  wfiIdle _ hc := hc
  idle c _ _ hc := by
    rw [idle]
    split
    · exact hc
    split
    · exact hc
    · exact hc
  halt _ _ _ hc := hc
  start _ _ _ hc := hc
  itAdvance c hc := by
    rw [itAdvance]
    split
    · exact hc
    · exact hc
  romCall _ _ hc := hc
  romStatus := by decide
  timer h hc := by
    rw [OnlyTimer] at h
    rw [h]
    exact hc
  entry c vecnum _ := c.returns_exceptionEntry vecnum fun _ _ => bankCurrent_enterHandler c vecnum
  writeReg _ n v h hc :=
    hc.setGdbReg (fun heq => h (by omega) (Fin.ext heq)) v
  reboot c sp pc _ := bankCurrent_resetForReboot c sp pc
  loops _ _ hc := hc

theorem Regular.of_reachable {δ : Type} [Mmio δ] {isa : Isa} {verifier : Verifier} {c : Core}
    (h : CoreRun.Reachable (δ := δ) isa verifier c) : c.Regular := by
  obtain ⟨sp, pc, cache, bus, es, m, hrun, rfl⟩ := h
  have hfree : Runs.Along (CoreRun.step isa verifier) (CoreRun.Writes isa fun _ => True) es
      (CoreRun.boot sp pc cache bus) := by
    refine Runs.along_of_forall (fun s e => ?_) _ _
    cases e with
    | step => exact fun _ _ _ _ _ _ _ _ => trivial
    | writeReg n v => exact fun _ => trivial
    | _ => trivial
  have hrel : StaysRegular (CoreRun.boot sp pc cache bus).core m.core :=
    CoreRun.rel_of_run hfree hrun
  exact hrel (regular_boot sp pc)

/-! ## What MRS reads -/

/-- The process stack is the active one exactly in Thread mode with SPSEL set. -/
def SelectsStack (c : Core) : Prop :=
  c.spIsPsp = true ↔ c.mode = .thread ∧ bitSet c.control 1 = true

/-- MRS of a special register leaves `v` in its destination, whatever register that is. -/
def MrsReads (c : Core) (sysm : Byte) (v : Word) : Prop :=
  ∀ (inst : Instruction) (pc len raw : Word), inst.opcode = .mrs →
    (raw >>> 16).setWidth 8 = sysm → regField (raw >>> 24) ≠ 15 →
      ∃ d, inst.execute pc len raw c = .ret (some (), d) ∧ d.r (regField (raw >>> 24)) = v

/-- MRS of the two stack pointers gives the two stack pointers. -/
def MrsReadsStacks (c : Core) : Prop := c.MrsReads 8 c.currentMsp ∧ c.MrsReads 9 c.currentPsp

/-- What MRS does. -/
theorem execute_mrs {inst : Instruction} (hop : inst.opcode = .mrs) (c : Core)
    (pc len raw : Word) :
    inst.execute pc len raw c = .ret (some (), Core.writeReg
      { c with curSetflags := inst.setsFlags len c } (regField (raw >>> 24))
      (c.readSpecial ((raw >>> 16).setWidth 8))) := by
  have hbody : inst.body pc len raw = Instruction.mrs raw := by rw [Instruction.body, hop]
  show (Exec.bind _ fun _ => inst.body pc len raw) c = _
  rw [hbody]
  rfl

/-- MRS reads right as soon as one encoding of it, with a general register as destination, does. -/
theorem mrsReads_iff {c : Core} {sysm : Byte} {v raw : Word}
    (hraw : (raw >>> 16).setWidth 8 = sysm) (hrd : regField (raw >>> 24) ≠ 15) :
    c.MrsReads sysm v ↔ c.readSpecial sysm = v := by
  have hdest : ∀ (d : Core) (i : Fin 16) (w : Word), i ≠ 15 → (d.writeReg i w).r i = w := by
    intro d i w hi
    rw [Core.writeReg, if_neg hi, setR_same]
  constructor
  · intro h
    let inst : Instruction := ⟨.mrs, .al, false, .nothing, .nothing, .nothing, .nothing⟩
    have hmrs := execute_mrs (show inst.opcode = .mrs from rfl) c 0 4 raw
    obtain ⟨d, hd, hv⟩ := h inst 0 4 raw rfl hraw hrd
    rw [hmrs, hraw] at hd
    cases hd
    rw [hdest _ _ _ hrd] at hv
    exact hv
  · intro h inst pc len raw' hop hsysm hrd'
    refine ⟨_, execute_mrs hop c pc len raw', ?_⟩
    rw [hdest _ _ _ hrd', hsysm, h]

theorem mrsReadsStacks_iff {c : Core} : c.MrsReadsStacks ↔ c.BankCurrent := by
  have hmsp : c.MrsReads 8 c.currentMsp ↔ c.msp = c.currentMsp :=
    mrsReads_iff (show ((0x00080000 : Word) >>> 16).setWidth 8 = 8 by decide) (by decide)
  have hpsp : c.MrsReads 9 c.currentPsp ↔ c.psp = c.currentPsp :=
    mrsReads_iff (show ((0x00090000 : Word) >>> 16).setWidth 8 = 9 by decide) (by decide)
  rw [MrsReadsStacks, hmsp, hpsp, currentMsp, currentPsp, BankCurrent]
  cases c.spIsPsp with
  | false => exact ⟨fun h => h.1.symm, fun h => ⟨h.symm, rfl⟩⟩
  | true => exact ⟨fun h => h.2.symm, fun h => ⟨rfl, h.symm⟩⟩

theorem Regular.selectsStack {c : Core} (hc : c.Regular) : c.SelectsStack := by
  rw [SelectsStack, hc.sane.spsel, Bool.and_eq_true, beq_iff_eq]

end Core

/-- In every run, the process stack is the active one exactly in Thread mode with SPSEL set. MRS of
the two stack pointers is right exactly while the bank of the active one agrees with r13; once it
does, it stays right as long as no instruction names r13 as a destination and no debugger writes
it. -/
theorem stack_banking {δ : Type} [Mmio δ] {isa : Isa} {verifier : Verifier} {sp pc : Word}
    {cache : DecodeCache} {bus : Bus δ} {pre post : List (CoreEvent δ)} {m m' : CoreRun δ}
    (hpre : Runs.run (CoreRun.step isa verifier) pre (CoreRun.boot sp pc cache bus) = some m)
    (hpost : Runs.run (CoreRun.step isa verifier) post m = some m') :
    m'.core.SelectsStack ∧ (m'.core.MrsReadsStacks ↔ m'.core.BankCurrent) ∧
      (m.core.BankCurrent →
        Runs.Along (CoreRun.step isa verifier) (CoreRun.Writes isa fun i => i ≠ Core.sp) post m →
          m'.core.MrsReadsStacks) := by
  have hrun : Runs.run (CoreRun.step isa verifier) (pre ++ post)
      (CoreRun.boot sp pc cache bus) = some m' := by
    rw [Runs.run_append, hpre]
    exact hpost
  have hregular : m'.core.Regular :=
    Core.Regular.of_reachable ⟨sp, pc, cache, bus, _, m', hrun, rfl⟩
  refine ⟨hregular.selectsStack, Core.mrsReadsStacks_iff, fun hbank hw => ?_⟩
  have hrel : Core.StaysCurrent m.core m'.core := CoreRun.rel_of_run hw hpost
  exact Core.mrsReadsStacks_iff.mpr (hrel hbank)

/-- A debugger moves the main stack of a core that was just set up. -/
theorem stack_banking_debugger :
    ∃ m : CoreRun Unit,
      Runs.run (CoreRun.step nopIsa Core.noVerifier) [.writeReg 17 0x20000400]
        (CoreRun.boot 0x20000800 0x08000000 DecodeCache.new Core.stackBus) = some m ∧
      m.core.SelectsStack ∧ m.core.MrsReadsStacks ∧ m.core.currentMsp = 0x20000400 := by
  obtain ⟨m, hm⟩ : ∃ m, Runs.run (CoreRun.step nopIsa Core.noVerifier) [.writeReg 17 0x20000400]
      (CoreRun.boot 0x20000800 0x08000000 DecodeCache.new Core.stackBus) = some m := ⟨_, rfl⟩
  have hboot : Runs.run (CoreRun.step nopIsa Core.noVerifier) []
      (CoreRun.boot 0x20000800 0x08000000 DecodeCache.new Core.stackBus) =
        some (CoreRun.boot 0x20000800 0x08000000 DecodeCache.new Core.stackBus) := rfl
  have h := stack_banking hboot hm
  refine ⟨m, hm, h.1, h.2.2 (Core.bankCurrent_boot ..) ⟨?_, fun _ _ => trivial⟩, ?_⟩
  · exact fun hn => absurd hn (by decide)
  · cases hm
    rfl

/-- PUSH of r0, decoded at every address. -/
def pushCache : DecodeCache :=
  { DecodeCache.new with
    entries := fun _ => some ⟨0xB401, 2, some ⟨.push, .al, false, .regList 1, .nothing, .nothing,
      .nothing⟩⟩ }

/-- After one push MRS of MSP gives the old stack pointer. -/
theorem mrs_outdated_by_push :
    ¬ ∀ c : Core, CoreRun.Reachable (δ := Unit) nopIsa Core.noVerifier c →
      c.SelectsStack ∧ c.MrsReadsStacks := by
  intro h
  have hpush : (Runs.run (CoreRun.step nopIsa Core.noVerifier) [.step]
      (CoreRun.boot 0x20000800 0x08000000 pushCache Core.stackBus)).map (fun m =>
        (m.core.r Core.sp, m.core.spIsPsp, m.core.msp)) =
      some (0x200007FC, false, 0x20000800) := by decide +kernel
  obtain ⟨m, hm, heq⟩ := Option.map_eq_some_iff.mp hpush
  simp only [Prod.mk.injEq] at heq
  have hbank := Core.mrsReadsStacks_iff.mp (h m.core ⟨_, _, _, _, _, m, hm, rfl⟩).2
  rw [Core.BankCurrent, heq.1, heq.2.1, heq.2.2, if_neg Bool.false_ne_true] at hbank
  exact absurd hbank (by decide)

end SpEmu
