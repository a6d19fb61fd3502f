import SpEmu.Cpu.Exec
import SpEmu.Mem.BusSafety
import SpEmu.Lib.Runs

/-!
# Boot-ROM calls

`romDispatch` serves a branch into the boot-ROM window. An authenticate call computes its
verdict at its first step and parks the core at the trap for `settleSteps` more, so that
interrupts flow; what it has to remember in the meantime is the `RomCall` on the core.

`RomRun` is a run of the guest around these steps. A step at the trap belongs to a call, which is
named; everything else the core does (other instructions, exceptions, a switch to another task)
is an arbitrary change that leaves `romCall` alone, because nothing but the dispatcher and no
reset writes it. `verdicts_own` holds while every call takes its first step on an idle dispatcher;
the first step of a call that finds the remains of another one takes these for its own.
-/

set_option autoImplicit false

namespace SpEmu

open ByteMem

namespace Romapi

def skbootSuccess : Word := 0x5ac3c35a
def skbootFail : Word := 0xc35ac35a
def secureTrackerVerified : Word := 0x55aacc33
def secureFalse : Word := 0x5aa55aa5

/-- The number of steps for which a call stays parked after its verdict is computed. -/
def settleSteps : Word := 1024

/-- What a call writes through the caller's pointer, and what it returns. -/
def tracker (ok : Bool) : Word := if ok then secureTrackerVerified else secureFalse
def status (ok : Bool) : Word := if ok then skbootSuccess else skbootFail

/-- Return to the link register. -/
def returnToLr (c : Core) : Core := { c with pc := c.r Core.lr &&& ~~~1 }

def setRomCall (c : Core) (call : RomCall) : Core := { c with romCall := call }

/-- Serve a boot-ROM call. Only the authenticate trap drives the settle states. -/
def romDispatch (c : Core) : BusM Core :=
  if c.pc ≠ authTrap then pure (returnToLr c)
  else
    match c.romCall with
    | .idle => do
        let ok ← Prog.lift (BusCall.verifySlot (c.r 0))
        pure (setRomCall c (.settling settleSteps (c.r 1) ok))
    | .settling left isVerifiedPtr ok =>
        if 0 < left then pure (setRomCall c (.settling (left - 1) isVerifiedPtr ok))
        else do
          BusM.write32 isVerifiedPtr (tracker ok)
          pure (returnToLr ((setRomCall c .idle).setR 0 (status ok)))

end Romapi

/-- A step of the core at a boot-ROM trap. -/
def Core.romStep (c : Core) : BusM Core := do
  Prog.lift (BusCall.setCyc c.cycles)
  Romapi.romDispatch { c with curInsn := c.pc, cycles := c.cycles + 1 }

open Romapi

/-- An authenticate call that has not returned: its arguments, the verdict on its own image, and
the steps it has taken. -/
structure AuthCall where
  start : Word
  ptr : Word
  verdict : Bool
  steps : Nat

/-- The core on its bus, with the calls in progress by name. -/
structure RomRun (δ : Type) where
  core : Core
  bus : Bus δ
  calls : Nat → Option AuthCall

/-- A step at a trap, of the named call; anything else that the core and the devices do; a
reset. -/
inductive RomEvent (δ : Type) where
  | trap (id : Nat)
  | other (core : Core) (bus : Bus δ)
  | reset (sp pc : Word)

namespace RomRun

variable {δ : Type} [Mmio δ] (verifier : Verifier)

/-- The call that a step at the authenticate trap belongs to: one in progress, or a new one with
the arguments in r0 and r1. -/
def call (m : RomRun δ) (id : Nat) : Option AuthCall :=
  match m.calls id with
  | some call => some call
  | none => (verifySlot verifier m.bus.rotFlash (m.core.r 0)).map fun ok =>
      ⟨m.core.r 0, m.core.r 1, ok, 0⟩

/-- A call stays in progress until the dispatcher is idle again. -/
def recordStep (m : RomRun δ) (id : Nat) (core : Core) : Nat → Option AuthCall :=
  if m.core.pc ≠ authTrap then m.calls
  else Function.update m.calls id (if core.romCall = .idle then none
    else (m.call verifier id).map fun call => { call with steps := call.steps + 1 })

def step (m : RomRun δ) : RomEvent δ → Option (RomRun δ)
  | .trap id =>
      if m.core.romTraps && isTrap m.core.pc then do
        let (core, bus) ← m.core.romStep.run (Bus.handle verifier) m.bus
        some ⟨core, bus, m.recordStep verifier id core⟩
      else none
  | .other core bus =>
      if core.romCall = m.core.romCall then some { m with core := core, bus := bus } else none
  -- A reset drops whatever the guest was doing.
  | .reset sp pc => some { m with core := m.core.resetForReboot sp pc, calls := fun _ => none }

/-! ## What a step at a trap may do -/

/-- The bus as a step at a trap finds it. -/
def stamped (m : RomRun δ) : Bus δ := { m.bus with curCyc := m.core.cycles }

/-- Nothing is written and no register changes, for `settleSteps` steps after the first. -/
def Parks (m m' : RomRun δ) (call : AuthCall) : Prop :=
  m'.bus = m.stamped ∧ m'.core.r = m.core.r ∧ m'.core.pc = m.core.pc ∧
    call.steps ≤ settleSteps.toNat

/-- The verdict of the call is in r0 and behind its pointer, and the core is back at its
caller. -/
def Returns (m m' : RomRun δ) (call : AuthCall) : Prop :=
  m.stamped.write32 call.ptr (tracker call.verdict) = some m'.bus ∧
    m'.core.r 0 = status call.verdict ∧ m'.core.pc = m.core.r Core.lr &&& ~~~1

/-- A step at the authenticate trap parks its call or returns from it with the call's own verdict;
one at the other trap returns and writes nothing. -/
def OwnVerdict (m : RomRun δ) (e : RomEvent δ) : Prop :=
  ∀ id, e = .trap id → ∀ m', m.step verifier e = some m' →
    if m.core.pc = authTrap then
      ∃ call, m.call verifier id = some call ∧ (m.Parks m' call ∨ m.Returns m' call)
    else m'.bus = m.stamped ∧ m'.core.pc = m.core.r Core.lr &&& ~~~1

/-- The first step of a call finds the dispatcher idle. -/
def FirstStepIdle (m : RomRun δ) (e : RomEvent δ) : Prop :=
  ∀ id, e = .trap id → m.core.pc = authTrap → m.calls id = none → m.core.romCall = .idle

/-! ## One step -/

variable {verifier} {m m' : RomRun δ}

/-- The core at the trap, with the step counted. -/
def entered (m : RomRun δ) : Core :=
  { m.core with curInsn := m.core.pc, cycles := m.core.cycles + 1 }

/-- What a step at a trap does. -/
theorem romStep_cases {core : Core} {bus : Bus δ}
    (h : m.core.romStep.run (Bus.handle verifier) m.bus = some (core, bus)) :
    (m.core.pc ≠ authTrap ∧ core = returnToLr m.entered ∧ bus = m.stamped) ∨
    (m.core.pc = authTrap ∧ m.core.romCall = .idle ∧
      ∃ ok, verifySlot verifier m.bus.rotFlash (m.core.r 0) = some ok ∧ bus = m.stamped ∧
        core = setRomCall m.entered (.settling settleSteps (m.core.r 1) ok)) ∨
    (m.core.pc = authTrap ∧ ∃ left p ok, m.core.romCall = .settling left p ok ∧ 0 < left ∧
      bus = m.stamped ∧ core = setRomCall m.entered (.settling (left - 1) p ok)) ∨
    (m.core.pc = authTrap ∧ ∃ p ok, m.core.romCall = .settling 0 p ok ∧
      m.stamped.write32 p (tracker ok) = some bus ∧
      core = returnToLr ((setRomCall m.entered .idle).setR 0 (status ok))) := by
  have hrun : (romDispatch m.entered).run (Bus.handle verifier) m.stamped = some (core, bus) := h
  rw [romDispatch] at hrun
  by_cases hpc : m.core.pc = authTrap
  · rw [if_neg (show ¬ m.entered.pc ≠ authTrap from not_not.mpr hpc)] at hrun
    cases hcall : m.core.romCall with
    -- first step: the verdict is computed now and parked
    | idle =>
        rw [show m.entered.romCall = .idle from hcall] at hrun
        obtain ⟨⟨ok, b₁⟩, hok, heq⟩ := Option.bind_eq_some_iff.mp hrun
        obtain ⟨ok', hok', heq'⟩ := Option.map_eq_some_iff.mp hok
        cases heq'
        cases heq
        exact Or.inr (Or.inl ⟨hpc, rfl, ok, hok', rfl, rfl⟩)
    | settling left p ok =>
        rw [show m.entered.romCall = .settling left p ok from hcall] at hrun
        -- parked: either count down, or write the result and return
        by_cases hleft : 0 < left
        · simp only [if_pos hleft] at hrun
          cases hrun
          exact Or.inr (Or.inr (Or.inl ⟨hpc, left, p, ok, rfl, hleft, rfl, rfl⟩))
        · obtain rfl : left = 0 := by bv_omega
          simp only [if_neg hleft] at hrun
          obtain ⟨⟨u, b₁⟩, hw, heq⟩ := Option.bind_eq_some_iff.mp hrun
          obtain ⟨b₂, hb₂, heq'⟩ := Option.map_eq_some_iff.mp hw
          cases heq'
          cases heq
          exact Or.inr (Or.inr (Or.inr ⟨hpc, p, ok, rfl, hb₂, rfl⟩))
  · rw [if_pos (show m.entered.pc ≠ authTrap from hpc)] at hrun
    cases hrun
    exact Or.inl ⟨hpc, rfl, rfl⟩

/-- The dispatcher remembers the one call in progress, if there is one. -/
structure Remembers (m : RomRun δ) : Prop where
  settling : ∀ id call, m.calls id = some call →
    ∃ left : Word, m.core.romCall = .settling left call.ptr call.verdict ∧
      call.steps + left.toNat = settleSteps.toNat + 1
  unique : ∀ i j, m.calls i ≠ none → m.calls j ≠ none → i = j

theorem step_trap {id : Nat} (h : m.step verifier (.trap id) = some m') :
    m.core.romStep.run (Bus.handle verifier) m.bus = some (m'.core, m'.bus) ∧
      m'.calls = m.recordStep verifier id m'.core := by
  rw [step] at h
  split at h
  · obtain ⟨⟨core, bus⟩, hrun, heq⟩ := Option.bind_eq_some_iff.mp h
    cases heq
    exact ⟨hrun, rfl⟩
  · cases h

omit [Mmio δ] in
theorem Remembers.calls_of_idle (hm : m.Remembers) (hidle : m.core.romCall = .idle) (i : Nat) :
    m.calls i = none := by
  cases hcall : m.calls i with
  | none => rfl
  | some call =>
      obtain ⟨left, hleft, -⟩ := hm.settling i call hcall
      rw [hidle] at hleft
      cases hleft

omit [Mmio δ] in
/-- With one call in progress, recording a step of it leaves no other. -/
theorem Remembers.only (hm : m.Remembers) {id : Nat} (hid : m.calls id ≠ none) {j : Nat}
    (hj : j ≠ id) : m.calls j = none := by
  by_contra hne
  exact hj (hm.unique j id hne hid)

omit [Mmio δ] in
theorem remembers_of_only (id : Nat) (call : AuthCall) (left : Word)
    (hcalls : ∀ j, m.calls j = if j = id then some call else none)
    (hsettling : m.core.romCall = .settling left call.ptr call.verdict)
    (hsteps : call.steps + left.toNat = settleSteps.toNat + 1) : m.Remembers := by
  constructor
  · intro i c hc
    rw [hcalls] at hc
    split at hc
    · cases hc
      exact ⟨left, hsettling, hsteps⟩
    · cases hc
  · -- two calls that are both recorded are both `id`
    intro i j hi hj
    rw [hcalls] at hi hj
    by_cases hi' : i = id
    · by_cases hj' : j = id
      · rw [hi', hj']
      · rw [if_neg hj'] at hj
        exact absurd rfl hj
    · rw [if_neg hi'] at hi
      exact absurd rfl hi

omit [Mmio δ] in
theorem remembers_of_none (hcalls : ∀ j, m.calls j = none) : m.Remembers :=
  ⟨fun i _ hc => absurd hc (by rw [hcalls i]; nofun), fun i _ hi => absurd (hcalls i) hi⟩

omit [Mmio δ] in
/-- The dispatcher waits on behalf of the call that is at the trap. -/
theorem Remembers.exists_call (hm : m.Remembers) {id : Nat} (hfirst : m.FirstStepIdle (.trap id))
    (hpc : m.core.pc = authTrap) {left p : Word} {ok : Bool}
    (hsettling : m.core.romCall = .settling left p ok) :
    ∃ call, m.calls id = some call ∧ p = call.ptr ∧ ok = call.verdict ∧
      call.steps + left.toNat = settleSteps.toNat + 1 := by
  have hsome : m.calls id ≠ none := by
    intro hnone
    have hidle := hfirst id rfl hpc hnone
    rw [hsettling] at hidle
    cases hidle
  obtain ⟨call, hid⟩ := Option.ne_none_iff_exists'.mp hsome
  obtain ⟨left', hleft', hsteps⟩ := hm.settling id call hid
  rw [hsettling] at hleft'
  cases hleft'
  exact ⟨call, hid, rfl, rfl, hsteps⟩

/-- A step at a trap, given that the first step of a call finds the dispatcher idle. -/
theorem trap_spec (hm : m.Remembers) {id : Nat} (hfirst : m.FirstStepIdle (.trap id))
    (h : m.step verifier (.trap id) = some m') :
    m'.Remembers ∧ if m.core.pc = authTrap then
        ∃ call, m.call verifier id = some call ∧ (m.Parks m' call ∨ m.Returns m' call)
      else m'.bus = m.stamped ∧ m'.core.pc = m.core.r Core.lr &&& ~~~1 := by
  obtain ⟨hrun, hcalls⟩ := step_trap h
  rcases romStep_cases hrun with ⟨hpc, hcore, hbus⟩ | ⟨hpc, hidle, ok, hok, hbus, hcore⟩ |
    ⟨hpc, left, p, ok, hsettling, hleft, hbus, hcore⟩ | ⟨hpc, p, ok, hsettling, hwrite, hcore⟩
  · -- The other trap: no call takes part.
    rw [recordStep, if_pos hpc] at hcalls
    rw [if_neg hpc]
    refine ⟨⟨fun i call hc => ?_, ?_⟩, hbus, by rw [hcore]; rfl⟩
    · rw [hcalls] at hc
      rw [hcore]
      exact hm.settling i call hc
    · rw [hcalls]
      exact hm.unique
  · -- The first step of a call.
    have hnone := hm.calls_of_idle hidle
    have hcall : m.call verifier id = some ⟨m.core.r 0, m.core.r 1, ok, 0⟩ := by
      rw [call, hnone id, hok, Option.map_some]
    rw [recordStep, if_neg (not_not.mpr hpc), hcore, if_neg nofun, hcall, Option.map_some] at hcalls
    rw [if_pos hpc]
    refine ⟨remembers_of_only id ⟨m.core.r 0, m.core.r 1, ok, 1⟩ settleSteps (fun j => ?_) ?_ ?_,
      _, hcall, Or.inl ⟨hbus, ?_, ?_, Nat.zero_le _⟩⟩
    · rw [hcalls, Function.update_apply, hnone j]
    · rw [hcore]
      rfl
    · exact Nat.add_comm 1 _
    · rw [hcore]
      rfl
    · rw [hcore]
      rfl
  · -- A step of a parked call.
    obtain ⟨call, hid, rfl, rfl, hsteps⟩ := hm.exists_call hfirst hpc hsettling
    have hsome : m.calls id ≠ none := Option.ne_none_iff_exists'.mpr ⟨call, hid⟩
    have hcall : m.call verifier id = some call := by
      rw [RomRun.call, hid]
    rw [recordStep, if_neg (not_not.mpr hpc), hcore, if_neg nofun, hcall, Option.map_some] at hcalls
    rw [if_pos hpc]
    have hpred : (left - 1).toNat = left.toNat - 1 := by bv_omega
    have hpos : 0 < left.toNat := hleft
    refine ⟨remembers_of_only id { call with steps := call.steps + 1 } (left - 1)
      (fun j => ?_) ?_ ?_, call, hcall,
      Or.inl ⟨hbus, ?_, ?_, by omega⟩⟩
    · rw [hcalls, Function.update_apply]
      split
      · rfl
      · next hj => exact hm.only hsome hj
    · rw [hcore]
      rfl
    · show call.steps + 1 + (left - 1).toNat = settleSteps.toNat + 1
      omega
    · rw [hcore]
      rfl
    · rw [hcore]
      rfl
  · -- The last step of a call.
    obtain ⟨call, hid, rfl, rfl, -⟩ := hm.exists_call hfirst hpc hsettling
    have hsome : m.calls id ≠ none := Option.ne_none_iff_exists'.mpr ⟨call, hid⟩
    rw [recordStep, if_neg (not_not.mpr hpc), hcore,
      if_pos (show (returnToLr _).romCall = RomCall.idle from rfl)] at hcalls
    rw [if_pos hpc]
    refine ⟨remembers_of_none fun j => ?_, call, by rw [RomRun.call, hid],
      Or.inr ⟨hwrite, ?_, ?_⟩⟩
    · rw [hcalls, Function.update_apply]
      split
      · rfl
      · next hj => exact hm.only hsome hj
    · rw [hcore]
      exact Core.setR_same (setRomCall m.entered .idle) 0 (status call.verdict)
    · rw [hcore]
      exact congrArg (· &&& ~~~1) (Core.setR_of_ne _ _ (by decide))

/-! ## Runs -/

theorem remembers_step (hm : m.Remembers) {e : RomEvent δ} (hfirst : m.FirstStepIdle e)
    (h : m.step verifier e = some m') : m'.Remembers := by
  cases e with
  | trap id => exact (trap_spec hm hfirst h).1
  | other core bus =>
      simp only [step] at h
      split at h
      · next heq =>
          cases h
          refine ⟨fun i call hc => ?_, hm.unique⟩
          show ∃ left : Word, core.romCall = _ ∧ _
          rw [heq]
          exact hm.settling i call hc
      · cases h
  | reset sp pc =>
      cases h
      exact remembers_of_none fun j => rfl

/-- With no call in progress: in every run in which the first step of each call finds the
dispatcher idle, each step at the traps parks its call or returns from it with the verdict on the
call's own image, written through the call's own pointer. -/
theorem verdicts_own (hcalls : ∀ i, m.calls i = none)
    (es : List (RomEvent δ)) (hfirst : Runs.Along (step verifier) FirstStepIdle es m) :
    Runs.Along (step verifier) (OwnVerdict verifier) es m := by
  refine Runs.Along.imp (I := Remembers) (fun m e m' hm hf h => remembers_step hm hf h) ?_
    (remembers_of_none hcalls) hfirst
  rintro m e hm hf id rfl m' h
  exact (trap_spec hm hf h).2

/-! ## A reset under a call -/

/-- A core at the authenticate entry with its arguments, over 16 bytes of RAM. -/
def atAuthenticate (ptr : Word) (call : RomCall) : RomRun Unit where
  core := ({ Core.new with romTraps := true, romCall := call, pc := authTrap }.setR 1 ptr).setR
    Core.lr 0x00010201
  bus := (Bus.new ()).addRam 0x20000000 16 (by decide)
  calls := fun _ => none

/-- The host's checks, of which none passes. -/
def refusing : Verifier := ⟨fun _ => false, fun _ => false, fun _ => 0, fun _ _ _ => false⟩

/-- The first step of a call on an idle core. -/
theorem verdicts_own_first :
    Runs.Along (step refusing) (OwnVerdict refusing) [.trap 0] (atAuthenticate 0x20000000 .idle) :=
  verdicts_own (fun _ => rfl) [.trap 0]
    ⟨fun _ _ _ _ => rfl, fun _ _ => Runs.along_nil _ _⟩

/-- The machine `m₁` is `m` after steps of a parked call that did not return. -/
structure ParkedOn (verifier : Verifier) (id : Nat) (m m₁ : RomRun δ) : Prop where
  regs : m₁.core.r = m.core.r
  pc : m₁.core.pc = m.core.pc
  traps : m₁.core.romTraps = m.core.romTraps
  bus : ∃ cyc, m₁.bus = { m.bus with curCyc := cyc }
  call : ∀ call, m.call verifier id = some call →
    ∃ call', m₁.call verifier id = some call' ∧ call'.ptr = call.ptr

omit [Mmio δ] in
theorem ParkedOn.trans {id : Nat} {m₁ m₂ : RomRun δ} (h : ParkedOn verifier id m m₁)
    (h' : ParkedOn verifier id m₁ m₂) : ParkedOn verifier id m m₂ where
  regs := h'.regs.trans h.regs
  pc := h'.pc.trans h.pc
  traps := h'.traps.trans h.traps
  bus := by
    obtain ⟨cyc, hbus⟩ := h.bus
    obtain ⟨cyc', hbus'⟩ := h'.bus
    exact ⟨cyc', by rw [hbus', hbus]⟩
  call := fun call hcall => by
    obtain ⟨call₁, hcall₁, hptr₁⟩ := h.call call hcall
    obtain ⟨call₂, hcall₂, hptr₂⟩ := h'.call call₁ hcall₁
    exact ⟨call₂, hcall₂, hptr₂.trans hptr₁⟩

theorem step_parked (verifier : Verifier) (id : Nat) {left p : Word} {ok : Bool}
    (htraps : m.core.romTraps = true) (hpc : m.core.pc = authTrap)
    (hcall : m.core.romCall = .settling left p ok) (hleft : 0 < left) :
    ∃ m₁, m.step verifier (.trap id) = some m₁ ∧ m₁.core.romCall = .settling (left - 1) p ok ∧
      ParkedOn verifier id m m₁ := by
  have hrun : m.core.romStep.run (Bus.handle verifier) m.bus =
      some (setRomCall m.entered (.settling (left - 1) p ok), m.stamped) := by
    show (romDispatch m.entered).run (Bus.handle verifier) m.stamped = _
    rw [romDispatch, if_neg (show ¬ m.entered.pc ≠ authTrap from not_not.mpr hpc),
      show m.entered.romCall = .settling left p ok from hcall]
    simp only [if_pos hleft]
    rfl
  have htrap : (m.core.romTraps && isTrap m.core.pc) = true := by
    rw [htraps, hpc]
    rfl
  refine ⟨⟨setRomCall m.entered (.settling (left - 1) p ok), m.stamped, m.recordStep verifier id _⟩,
    by rw [step, if_pos htrap, hrun]; rfl, rfl, rfl, rfl, rfl, ⟨m.core.cycles, rfl⟩, ?_⟩
  intro call hsome
  refine ⟨{ call with steps := call.steps + 1 }, ?_, rfl⟩
  have hcalls : m.recordStep verifier id (setRomCall m.entered (.settling (left - 1) p ok)) id =
      some { call with steps := call.steps + 1 } := by
    rw [recordStep, if_neg (not_not.mpr hpc), Function.update_self, if_neg nofun, hsome]
    rfl
  simp only [RomRun.call, hcalls]

theorem step_last (verifier : Verifier) (id : Nat) {p : Word} {ok : Bool} {b : Bus δ}
    (htraps : m.core.romTraps = true) (hpc : m.core.pc = authTrap)
    (hcall : m.core.romCall = .settling 0 p ok)
    (hwrite : m.stamped.write32 p (tracker ok) = some b) :
    ∃ m₁, m.step verifier (.trap id) = some m₁ ∧ m₁.bus = b ∧
      m₁.core.pc = m.core.r Core.lr &&& ~~~1 := by
  have hrun : m.core.romStep.run (Bus.handle verifier) m.bus =
      some (returnToLr ((setRomCall m.entered .idle).setR 0 (status ok)), b) := by
    show (romDispatch m.entered).run (Bus.handle verifier) m.stamped = _
    rw [romDispatch, if_neg (show ¬ m.entered.pc ≠ authTrap from not_not.mpr hpc),
      show m.entered.romCall = .settling 0 p ok from hcall]
    simp only [if_neg (show ¬ (0 : Word) < 0 by decide), Prog.bind_eq, Prog.run_bind,
      BusM.write32, Prog.run_lift, Bus.handle]
    rw [show m.stamped.write .word p (tracker ok) = some b from hwrite]
    rfl
  have htrap : (m.core.romTraps && isTrap m.core.pc) = true := by
    rw [htraps, hpc]
    rfl
  refine ⟨⟨returnToLr ((setRomCall m.entered .idle).setR 0 (status ok)), b,
    m.recordStep verifier id _⟩, by rw [step, if_pos htrap, hrun]; rfl, rfl, ?_⟩
  exact congrArg (· &&& ~~~1) (Core.setR_of_ne _ _ (by decide))

theorem along_parked {P : RomRun δ → RomEvent δ → Prop} {id : Nat} {es : List (RomEvent δ)}
    (n : Nat) {left p : Word} {ok : Bool} (hleft : left.toNat = n)
    (htraps : m.core.romTraps = true) (hpc : m.core.pc = authTrap)
    (hcall : m.core.romCall = .settling left p ok)
    (h : Runs.Along (step verifier) P (List.replicate n (.trap id) ++ es) m) :
    ∃ m₁, Runs.Along (step verifier) P es m₁ ∧ m₁.core.romCall = .settling 0 p ok ∧
      ParkedOn verifier id m m₁ := by
  induction n generalizing left m with
  | zero =>
      obtain rfl : left = 0 := by bv_omega
      exact ⟨m, h, hcall, rfl, rfl, rfl, ⟨m.bus.curCyc, rfl⟩, fun call hc => ⟨call, hc, rfl⟩⟩
  | succ n ih =>
      obtain ⟨m₁, hstep, hcall₁, hon₁⟩ :=
        step_parked verifier id htraps hpc hcall (by bv_omega)
      obtain ⟨m₂, hes, hcall₂, hon₂⟩ := ih (by bv_omega) (hon₁.traps.trans htraps)
        (hon₁.pc.trans hpc) hcall₁ (h.2 m₁ hstep)
      exact ⟨m₂, hes, hcall₂, hon₁.trans hon₂⟩

/-- A call with its result pointer at 0x20000000, a reset, and a second call with its pointer at
0x20000008: the second call returns the verdict of the first, through the pointer of the
first. -/
theorem reset_under_call_not_own :
    ¬ ∀ (verifier : Verifier) (m : RomRun Unit) (es : List (RomEvent Unit)),
      m.core.romCall = .idle → (∀ i, m.calls i = none) →
        Runs.Along (step verifier) (OwnVerdict verifier) es m := by
  intro h
  have hrun := h refusing (atAuthenticate 0x20000000 .idle)
    (.trap 0 :: .reset 0x20001000 0 ::
      .other (atAuthenticate 0x20000008 (.settling settleSteps 0x20000000 false)).core
        (atAuthenticate 0x20000008 .idle).bus ::
      (List.replicate 1024 (.trap 1) ++ [.trap 1])) rfl fun _ => rfl
  have hsecond := ((hrun.2 _ rfl).2 _ rfl).2
    (atAuthenticate 0x20000008 (.settling settleSteps 0x20000000 false)) rfl
  obtain ⟨m₁, hlast, hcall, hon⟩ := along_parked 1024 rfl rfl rfl rfl hsecond
  obtain ⟨call, hown, hptr⟩ := hon.call ⟨0, 0x20000008, false, 0⟩ rfl
  -- The last step writes the word at 0x20000000.
  obtain ⟨cyc, hbus⟩ := hon.bus
  have hopen : ∀ a : Word, 0x20000000 ≤ a.toNat → a.toNat < 0x30000000 → m₁.stamped.Open a :=
    fun a => Bus.open_of_sram m₁.stamped
  have hrams : m₁.stamped.rams = (atAuthenticate 0x20000008 .idle).bus.rams := by
    rw [stamped, hbus]
    rfl
  have hold : m₁.stamped.Holds 4 0x20000000 0 :=
    ⟨hopen _ (by decide) (by decide), by rw [hrams]; decide⟩
  have hown' : m₁.stamped.Served 4 0x20000008 :=
    ⟨hopen _ (by decide) (by decide), by rw [hrams]; decide⟩
  obtain ⟨b, hwrite, hstored⟩ := Bus.write32_of_served hold.served (tracker false)
  obtain ⟨m₂, hstep, hb, hpc⟩ := step_last refusing 1 hon.traps hon.pc hcall hwrite
  have hlaw := hlast.1 1 rfl m₂ hstep
  rw [if_pos (show m₁.core.pc = authTrap from hon.pc)] at hlaw
  obtain ⟨call', hcall', hparks | hreturns⟩ := hlaw
  · have hparked := hparks.2.2.1
    rw [hpc, hon.pc, hon.regs] at hparked
    exact absurd hparked (by decide)
  · -- Its own pointer would have left that word alone.
    obtain rfl := Option.some.inj (hown.symm.trans hcall')
    obtain ⟨b', hwrite', hstored'⟩ := Bus.write32_of_served hown' (tracker call.verdict)
    have hptr' : call.ptr = 0x20000008 := hptr
    rw [Returns, hptr', hwrite'] at hreturns
    have hsame : b' = b := (Option.some.inj hreturns.1).trans hb
    have hkept := hstored'.frame hold (Or.inl (by decide))
    rw [hsame] at hkept
    have hword := Option.some.inj (hkept.load.symm.trans hstored.word.load)
    exact absurd hword (by decide)

end RomRun

end SpEmu
