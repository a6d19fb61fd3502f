import SpEmu.Cpu.SysTick
import Mathlib.Algebra.Group.Int.Defs
import Mathlib.Algebra.Group.Nat.Hom
import Mathlib.Data.Int.Cast.Lemmas

/-!
# Tick credit

While the SP waits for a request that the RoT has accepted, its clock is frozen and the serve loop
credits it with the ticks of the RoT. An idle WFI turns a credit into a tick that is due, and the
next poll counts it. `tick_credit_conservation` says that over every run under a frozen clock the
ticks that happen and the ones that are still owed add up to the ones that were owed and the ones
that were credited.

Proves: the balance over runs of steps, polls, interrupts and credit additions, and that an idle
core turns its credits into ticks.
Does not prove: that a core which waits ever idles.
-/

set_option autoImplicit false

namespace SpEmu

open ByteMem

/-! ## The credit accounting of the serve loop -/

/-- The most that is credited at once, and the most that is ever owed. -/
def creditCap : Nat := 5000

def saturatingAdd (a b : Word) : Word := BitVec.ofNat 32 (min (a.toNat + b.toNat) (2 ^ 32 - 1))

/-- Credit the RoT's ticks since the last pass, or drop the credit when nothing is in flight. -/
def Core.account (c : Core) (inFlight : Bool) (dRot : BitVec 64) : Core :=
  if inFlight = true ∧ c.halted = false then
    let add : Word := BitVec.ofNat 32 (min dRot.toNat creditCap)
    { c with
      spTickCredit :=
        BitVec.ofNat 32 (min (saturatingAdd c.spTickCredit add).toNat creditCap) }
  else { c with spTickCredit := 0 }

inductive CoupledEvent (δ : Type) where
  | core (e : CoreEvent δ)
  | account (inFlight : Bool) (dRot : BitVec 64)

namespace CoreRun

variable {δ : Type} [Mmio δ] (isa : Isa) (verifier : Verifier)

def coupledStep (m : CoreRun δ) : CoupledEvent δ → Option (CoreRun δ)
  | .core e => m.step isa verifier e
  | .account inFlight dRot => some { m with core := m.core.account inFlight dRot }

/-- The clock stays frozen and the throttle on, the reload is at least 2, there is no reset, and
the serve loop only adds credit. -/
def Coupled (m : CoreRun δ) : CoupledEvent δ → Prop
  | .core .tick =>
      ∀ r, m.core.refreshSyst.run (Bus.handle verifier) m.bus = some r → 1 < r.1.systRvr
  | .core (.reboot _ _) => False
  | .core (.loops f) =>
      f.tickFrozen = true ∧ f.wfiThrottle = true ∧ f.spTickCredit = m.core.spTickCredit
  | .account inFlight _ => inFlight = true ∧ m.core.halted = false
  | _ => True

/-- The ticks that happen in a step. -/
def ticks (m : CoreRun δ) (_ : CoupledEvent δ) (m' : CoreRun δ) : Nat :=
  m.core.ticksTo m'.core

/-- What the serve loop adds to the credit. -/
def granted (m : CoreRun δ) : CoupledEvent δ → CoreRun δ → Int
  | .account _ _, m' => (m'.core.spTickCredit.toNat : Int) - m.core.spTickCredit.toNat
  | .core _, _ => 0

end CoreRun

namespace Core

/-- As long as the credit is below its cap, the accounting adds what fits. -/
theorem account_adds {c : Core} (hhalted : c.halted = false)
    (hcap : c.spTickCredit.toNat ≤ creditCap) (dRot : BitVec 64) :
    (c.account true dRot).spTickCredit.toNat =
      c.spTickCredit.toNat + min (min dRot.toNat creditCap) (creditCap - c.spTickCredit.toNat) := by
  rw [account, if_pos ⟨rfl, hhalted⟩]
  simp only [saturatingAdd, BitVec.toNat_ofNat, creditCap] at hcap ⊢
  omega

/-- The tick events, the credit and the tick that is due. -/
def ledger (c : Core) : BitVec 64 :=
  c.tickEvents + c.spTickCredit.setWidth 64 + if c.systick = 1 then 1 else 0

theorem ledger_eq (c : Core) : c.ledger = c.tickEvents + BitVec.ofNat 64 c.outstanding := by
  have hcredit : c.spTickCredit.setWidth 64 = BitVec.ofNat 64 c.spTickCredit.toNat :=
    BitVec.eq_of_toNat_eq (by simp)
  rw [ledger, outstanding, BitVec.ofNat_add, ← BitVec.add_assoc, hcredit]
  split <;> rfl

/-! ## The balance of one step -/

variable {δ : Type} [Mmio δ] {verifier : Verifier}

/-- A due tick underflows the counter. -/
theorem nextSystick_of_due {c : Core} (h : c.systick = 1) : c.nextSystick = 0 := by
  rw [nextSystick, h, if_neg (by decide)]
  rfl

/-- A poll under a frozen clock counts exactly the tick that is due, and the reload makes none
due. -/
theorem poll_balance {c : Core} {b : Bus δ} {r : Core × Bus δ} (hfrozen : c.tickFrozen = true)
    (hreload : ∀ s, c.refreshSyst.run (Bus.handle verifier) b = some s → 1 < s.1.systRvr)
    (h : c.maybeTick.run (Bus.handle verifier) b = some r) :
    r.1.tickFrozen = true ∧ r.1.wfiThrottle = c.wfiThrottle ∧
      c.ticksTo r.1 + r.1.outstanding = c.outstanding := by
  obtain ⟨d, b', hrefresh, hpoll⟩ := run_maybeTick verifier h
  have hrvr : 1 < d.systRvr := hreload _ hrefresh
  have hclock : d.clock = c.clock := by
    have hd : Refreshed c d := run_refreshSyst_only verifier hrefresh
    rw [Refreshed] at hd
    rw [hd]
    rfl
  have hsame : Clocked c d := Clocked.of_clock hclock
  -- a counter that is frozen counts at 1 only
  have hdue : d.Counts → d.countDown.1.clock =
      { d.clock with events := d.tickEvents + 1, systick := d.systRvr } ∧ d.systick = 1 := by
    intro hcounts
    have hone : d.systick = 1 := by
      by_contra hne
      exact hcounts.2 ⟨hsame.frozen.trans hfrozen, hne⟩
    rw [countDown, if_pos (nextSystick_of_due hone)]
    exact ⟨rfl, hone⟩
  -- what happens where the tick that is due is counted
  have hcount : ∀ e : Core, e.clock = { d.clock with
      events := d.tickEvents + 1, systick := d.systRvr } → d.systick = 1 →
      e.tickFrozen = true ∧ e.wfiThrottle = c.wfiThrottle ∧
        c.ticksTo e + e.outstanding = c.outstanding := by
    intro e he hone
    rw [hclock] at he
    simp only [clock, Clock.mk.injEq] at he hclock
    obtain ⟨hf, ht, hev, hcr, hsys⟩ := he
    obtain ⟨-, -, hevents, -, hsystick⟩ := hclock
    refine ⟨hf.trans hfrozen, ht, ?_⟩
    have hreloaded : ¬ e.systick = 1 := by
      rw [hsys]
      bv_omega
    rw [ticksTo, outstanding, outstanding, hcr, if_neg hreloaded, ← hsystick, if_pos hone, hev,
      hevents]
    have hdiff : c.tickEvents + 1 - c.tickEvents = 1 := by bv_omega
    rw [hdiff]
    exact Nat.add_comm ..
  cases hpoll with
  | still hstill heq =>
      cases heq
      have heqo : d.outstanding = c.outstanding := hsame.outstanding hfrozen
      refine ⟨hsame.frozen.trans hfrozen, hsame.throttle, ?_⟩
      show c.ticksTo d + d.outstanding = c.outstanding
      rw [ticksTo, hsame.events, BitVec.sub_self, heqo]
      exact Nat.zero_add _
  | counted hcounts hnot heq =>
      cases heq
      obtain ⟨hcd, hone⟩ := hdue hcounts
      exact hcount _ hcd hone
  | entered hcounts hzero htakes henter =>
      obtain ⟨hcd, hone⟩ := hdue hcounts
      have hentry := Prog.of_returns (clock_exceptionEntry d.countDown.1 15) henter
      exact hcount _ (hentry.trans hcd) hone

/-- Where nothing is pending, an idle WFI takes a credit and makes a tick due. -/
theorem run_waitForInterrupt {c : Core} {b b₁ b₂ : Bus δ} (hthrottle : c.wfiThrottle = true)
    (hrun : 1 < c.systick) (hcredit : 0 < c.spTickCredit)
    (h₁ : b.anyPendingIrq = some (false, b₁)) (h₂ : b₁.anyPendingIrq = some (false, b₂)) :
    c.waitForInterrupt.run (Bus.handle verifier) b = some ({ c with
      wfiIdle := true, spTickCredit := c.spTickCredit - 1, systick := 1 }, b₂) := by
  have hidle : ({ c with wfiIdle := true } : Core).idle =
      { c with wfiIdle := true, spTickCredit := c.spTickCredit - 1, systick := 1 } :=
    if_pos hcredit
  have hthrottled : ({ c with wfiIdle := true } : Core).throttle.run (Bus.handle verifier) b₁ =
      some (({ c with wfiIdle := true } : Core).idle, b₂) := by
    rw [throttle, if_pos ⟨hthrottle, hrun⟩, Prog.bind_eq, Prog.run_bind, Prog.run_lift]
    simp only [Bus.handle, h₂]
    rfl
  rw [waitForInterrupt, Prog.bind_eq, Prog.run_bind, Prog.run_lift]
  simp only [Bus.handle, h₁]
  rw [← hidle]
  exact hthrottled

/-- A credit becomes a due tick at the next idle WFI, and a tick at the next poll. -/
def TurnsCredit (c : Core) : Prop :=
  1 < c.systick → 0 < c.spTickCredit → ∃ d : Core, d.systick = 1 ∧
    d.spTickCredit.toNat + 1 = c.spTickCredit.toNat ∧ d.countDown.1.tickEvents = c.tickEvents + 1 ∧
    ∀ (δ : Type) [Mmio δ] (verifier : Verifier) (b b₁ b₂ : Bus δ),
      b.anyPendingIrq = some (false, b₁) → b₁.anyPendingIrq = some (false, b₂) →
        c.waitForInterrupt.run (Bus.handle verifier) b = some (d, b₂)

omit [Mmio δ] in
theorem turnsCredit {c : Core} (hthrottle : c.wfiThrottle = true) : c.TurnsCredit := by
  intro hrun hcredit
  refine ⟨{ c with wfiIdle := true, spTickCredit := c.spTickCredit - 1, systick := 1 }, rfl, ?_,
    ?_, fun δ _ verifier b b₁ b₂ h₁ h₂ => run_waitForInterrupt hthrottle hrun hcredit h₁ h₂⟩
  · show (c.spTickCredit - 1).toNat + 1 = c.spTickCredit.toNat
    bv_omega
  · rw [countDown, if_pos (nextSystick_of_due rfl)]

end Core

/-! ## Whole runs -/

namespace CoreRun

variable {δ : Type} [Mmio δ] {isa : Isa} {verifier : Verifier}

/-- The clock is frozen, and the idle throttle is on. -/
def Frozen (m : CoreRun δ) : Prop := m.core.tickFrozen = true ∧ m.core.wfiThrottle = true

omit [Mmio δ] in
theorem balance_of_clocked {m m' : CoreRun δ} {e : CoreEvent δ} (hm : m.Frozen)
    (h : m.core.Clocked m'.core) :
    m'.Frozen ∧ (ticks m (.core e) m' : Int) + m'.core.outstanding =
      m.core.outstanding + granted m (.core e) m' := by
  refine ⟨⟨h.frozen.trans hm.1, h.throttle.trans hm.2⟩, ?_⟩
  rw [ticks, Core.ticksTo, h.events, BitVec.sub_self, h.outstanding hm.1]
  exact Int.add_comm ..

/-- One event of the run balances. -/
theorem balance_step {m m' : CoreRun δ} {e : CoupledEvent δ} (hm : m.Frozen)
    (he : Coupled verifier m e) (h : m.coupledStep isa verifier e = some m') :
    m'.Frozen ∧ (ticks m e m' : Int) + m'.core.outstanding =
      m.core.outstanding + granted m e m' := by
  cases e with
  | account inFlight dRot =>
      obtain rfl := Option.some.inj h
      have hclock : (m.core.account inFlight dRot).clock = { m.core.clock with
          credit := (m.core.account inFlight dRot).spTickCredit } := by
        rw [Core.account]
        split <;> rfl
      simp only [Core.clock, Core.Clock.mk.injEq] at hclock
      obtain ⟨hfrozen, hthrottle, hevents, -, hsystick⟩ := hclock
      refine ⟨⟨hfrozen.trans hm.1, hthrottle.trans hm.2⟩, ?_⟩
      rw [ticks, granted, Core.ticksTo, Core.outstanding, Core.outstanding, hevents, hsystick,
        BitVec.sub_self, BitVec.toNat_zero]
      omega
  | core e =>
      cases e with
      | step =>
          obtain ⟨⟨core, cache, bus⟩, hstep, heq⟩ := Option.bind_eq_some_iff.mp h
          cases heq
          exact balance_of_clocked hm (Core.rel_step (fun _ _ _ _ _ _ _ _ => trivial) hstep)
      | interrupt =>
          obtain ⟨⟨core, bus⟩, hrun, heq⟩ := Option.bind_eq_some_iff.mp h
          cases heq
          have hclock : core.clock = m.core.clock :=
            Core.rel_maybeInterrupt (P := fun d => d.clock = m.core.clock) rfl
              (fun vecnum _ => m.core.clock_exceptionEntry vecnum) hrun
          exact balance_of_clocked hm (.of_clock hclock)
      | writeReg n v =>
          cases h
          exact balance_of_clocked hm (.of_clock (m.core.clock_setGdbReg n v))
      | outside cache bus =>
          cases h
          exact balance_of_clocked hm (.of_clock rfl)
      | loops f =>
          -- the loops keep the clock frozen and leave the credit alone
          cases h
          obtain ⟨hfrozen, hthrottle, hcredit⟩ := he
          refine balance_of_clocked hm (.of_clock ?_)
          show Core.Clock.mk f.tickFrozen f.wfiThrottle m.core.tickEvents f.spTickCredit
            m.core.systick = m.core.clock
          rw [hfrozen, hthrottle, hcredit, Core.clock, hm.1, hm.2]
      | reboot sp pc => exact absurd he id
      | tick =>
          obtain ⟨⟨core, bus⟩, hrun, heq⟩ := Option.bind_eq_some_iff.mp h
          cases heq
          obtain ⟨hfrozen, hthrottle, hbal⟩ := Core.poll_balance hm.1 he hrun
          refine ⟨⟨hfrozen, hthrottle.trans hm.2⟩, ?_⟩
          rw [ticks, granted]
          dsimp only at hbal ⊢
          omega

/-- The count of the ticks follows the run. -/
theorem events_of_run {es : List (CoupledEvent δ)} {m m' : CoreRun δ}
    (h : Runs.run (coupledStep isa verifier) es m = some m') :
    m'.core.tickEvents =
      m.core.tickEvents + BitVec.ofNat 64 (Runs.total (coupledStep isa verifier) ticks es m) := by
  induction es generalizing m with
  | nil =>
      obtain rfl : m = m' := Option.some.inj h
      exact (BitVec.add_zero _).symm
  | cons e es ih =>
      obtain ⟨m₁, he, hrest⟩ := Runs.run_cons_eq_some.mp h
      rw [ih hrest, Runs.total_cons he, ticks, Core.ticksTo, BitVec.ofNat_add, ← BitVec.add_assoc,
        BitVec.ofNat_toNat, BitVec.setWidth_eq]
      congr 1
      bv_omega

end CoreRun

/-- Under a frozen clock the ledger changes only by the credits added. Over the run, the ticks that
happened and the ones that are still owed are the ones that were owed and the ones that were
credited; with nothing owed and no credit there is no tick; and a core that idles turns the credit
that is left into ticks. -/
theorem tick_credit_conservation {δ : Type} [Mmio δ] {isa : Isa} {verifier : Verifier}
    {es : List (CoupledEvent δ)} {m m' : CoreRun δ} (hfrozen : m.Frozen)
    (hcoupled : Runs.Along (CoreRun.coupledStep isa verifier) (CoreRun.Coupled verifier) es m)
    (h : Runs.run (CoreRun.coupledStep isa verifier) es m = some m') :
    let ticks := Runs.total (CoreRun.coupledStep isa verifier) CoreRun.ticks es m
    let granted := Runs.total (CoreRun.coupledStep isa verifier) CoreRun.granted es m
    m'.core.ledger = m.core.ledger + BitVec.ofInt 64 granted ∧
      m'.core.tickEvents = m.core.tickEvents + BitVec.ofNat 64 ticks ∧
      (ticks : Int) + m'.core.outstanding = m.core.outstanding + granted ∧
      (m.core.outstanding = 0 → granted = 0 → m'.core.tickEvents = m.core.tickEvents) ∧
      m'.core.TurnsCredit := by
  intro ticks granted
  have hevents : m'.core.tickEvents = m.core.tickEvents + BitVec.ofNat 64 ticks :=
    CoreRun.events_of_run h
  have hcast : (ticks : Int) = Runs.total (CoreRun.coupledStep isa verifier)
      (fun m e m' => (CoreRun.ticks m e m' : Int)) es m :=
    Runs.map_total (Nat.castAddMonoidHom Int) CoreRun.ticks es m
  have hbalance : (ticks : Int) + m'.core.outstanding = m.core.outstanding + granted := by
    rw [hcast]
    exact Runs.total_balance (fun m : CoreRun δ => (m.core.outstanding : Int))
      (fun _ _ _ hm he hstep => CoreRun.balance_step hm he hstep) hfrozen hcoupled h
  have hstill : m'.Frozen :=
    Runs.invariant_of_along (fun _ _ _ hm he hstep => (CoreRun.balance_step hm he hstep).1)
      hfrozen hcoupled h
  refine ⟨?_, hevents, hbalance, ?_, Core.turnsCredit hstill.2⟩
  · rw [Core.ledger_eq, Core.ledger_eq, hevents, BitVec.add_assoc, BitVec.add_assoc]
    have hofInt := congrArg (BitVec.ofInt 64) hbalance
    rw [BitVec.ofInt_add, BitVec.ofInt_add, BitVec.ofInt_natCast, BitVec.ofInt_natCast,
      BitVec.ofInt_natCast] at hofInt
    rw [hofInt]
  · intro hnone hgrant
    have hzero : ticks = 0 := by omega
    rw [hevents, hzero]
    exact BitVec.add_zero _

/-- WFI, decoded at every address. -/
def wfiCache : DecodeCache :=
  { DecodeCache.new with
    entries := fun _ => some ⟨0xBF30, 2, some ⟨.wfi, .al, false, .nothing, .nothing, .nothing,
      .nothing⟩⟩ }

/-- A core with a frozen clock and a tick that is due. -/
def dueRun : CoreRun Unit where
  core := { Core.new with
    tickFrozen := true, wfiThrottle := true, systCsr := 1, systRvr := 96000, systick := 1,
    cycles := 1, pc := 0x08000000 }
  cache := wfiCache
  bus := Core.stackBus

/-- Three credits are added; the due tick happens, and WFI makes the next one due. -/
theorem tick_credit_conservation_due :
    ∃ m' : CoreRun Unit, Runs.run (CoreRun.coupledStep nopIsa Core.noVerifier)
        [.account true 3, .core .tick, .core .step] dueRun = some m' ∧
      m'.core.ledger = dueRun.core.ledger + BitVec.ofInt 64 3 ∧
      m'.core.tickEvents = 1 ∧ m'.core.spTickCredit = 2 ∧ m'.core.systick = 1 := by
  have hvalues : (Runs.run (CoreRun.coupledStep nopIsa Core.noVerifier)
      [.account true 3, .core .tick, .core .step] dueRun).map (fun m' : CoreRun Unit =>
        (m'.core.tickEvents, m'.core.spTickCredit, m'.core.systick)) = some (1, 2, 1) := by
    decide +kernel
  obtain ⟨m', hm', heq⟩ := Option.map_eq_some_iff.mp hvalues
  simp only [Prod.mk.injEq] at heq
  have hcoupled : Runs.Along (CoreRun.coupledStep nopIsa Core.noVerifier)
      (CoreRun.Coupled Core.noVerifier) [.account true 3, .core .tick, .core .step] dueRun := by
    refine ⟨⟨rfl, rfl⟩, fun s hs => ?_⟩
    cases hs
    refine ⟨fun r hr => ?_, fun s _ => ⟨trivial, fun _ _ => trivial⟩⟩
    cases hr
    decide
  have hgranted : Runs.total (CoreRun.coupledStep nopIsa Core.noVerifier) CoreRun.granted
      [.account true 3, .core .tick, .core .step] dueRun = 3 := by decide +kernel
  have h := (tick_credit_conservation ⟨rfl, rfl⟩ hcoupled hm').1
  rw [hgranted] at h
  exact ⟨m', hm', h, heq⟩

end SpEmu
