import SpEmu.Cpu.SysTick
import Mathlib.Algebra.Group.Nat.Defs

/-!
# Delivery of SysTick, and its period

The machine of `Banking`, with one ghost bit: a SysTick exception is owed, because the counter
underflowed in Handler mode or under PRIMASK. The code keeps no such bit. `Delivers` says that a
poll takes what is owed, and `systick_delivery_iff` says exactly when it does; an underflow under
the mask that no other one follows at the right poll is lost.

The counter reloads in the poll in which it reaches 0, so its period is the reload, where
`tickDivisor` reports one more.
-/

set_option autoImplicit false

namespace SpEmu

open ByteMem

/-! ## A periodic tick -/

/-- The ticks among `n` polls, of which the poll number `first` has one and then one in
`period`. -/
def ticksIn (period first n : Nat) : Nat := if n < first then 0 else (n - first) / period + 1

theorem ticksIn_zero {period first : Nat} (h : 0 < first) : ticksIn period first 0 = 0 := if_pos h

/-- A poll before the first tick. -/
theorem ticksIn_wait (period n : Nat) {first : Nat} (h : 1 < first) :
    ticksIn period first (n + 1) = ticksIn period (first - 1) n := by
  have hlt : n + 1 < first ↔ n < first - 1 := by omega
  have hsub : n + 1 - first = n - (first - 1) := by omega
  rw [ticksIn, ticksIn, hsub]
  exact if_congr hlt rfl rfl

/-- A whole period before the first tick. -/
theorem ticksIn_self {period : Nat} (hperiod : 0 < period) (n : Nat) :
    ticksIn period period n = n / period := by
  rw [ticksIn]
  split
  · next hlt => exact (Nat.div_eq_of_lt hlt).symm
  · next hle => rw [Nat.div_eq_sub_div hperiod (Nat.le_of_not_lt hle)]

/-- A poll with a tick; the next one is a period away. -/
theorem ticksIn_tick {period : Nat} (hperiod : 0 < period) (n : Nat) :
    ticksIn period 1 (n + 1) = 1 + ticksIn period period n := by
  rw [ticksIn_self hperiod, ticksIn, if_neg (by omega), Nat.add_sub_cancel, Nat.add_comm]

/-- Two periods that differ by one give the same quotient exactly while the remainder makes up for
the periods that have passed. -/
theorem div_eq_div_succ_iff {period : Nat} (hperiod : 0 < period) (x : Nat) :
    x / period = x / (period + 1) ↔ x / period ≤ x % period := by
  have hbounds : ∀ q r, period * q + r = x → r < period →
      (q * (period + 1) ≤ x ∧ x ≤ q * (period + 1) + (period + 1) - 1 ↔ q ≤ r) := by
    intro q r hx hr
    have hexpand : q * (period + 1) = period * q + q := by rw [Nat.mul_succ, Nat.mul_comm]
    rw [hexpand]
    omega
  rw [eq_comm, Nat.div_eq_iff (Nat.succ_pos period)]
  exact hbounds _ _ (Nat.div_add_mod x period) (Nat.mod_lt x hperiod)

/-! ## The ghost bit -/

namespace Core

/-- SysTick finds the core in Handler mode, or under PRIMASK. -/
def masked (c : Core) : Bool := c.mode != .thread || c.primask

/-- The core has just entered the handler of SysTick. -/
def TookTick (c : Core) : Prop := c.mode = .handler ∧ c.ipsr = 15

end Core

structure TickRun (δ : Type) where
  run : CoreRun δ
  owed : Bool

namespace TickRun

variable {δ : Type} [Mmio δ] (isa : Isa) (verifier : Verifier)

/-- What is owed after an event: an underflow under the mask, until a poll without it. -/
def owedAfter (t : TickRun δ) (run' : CoreRun δ) : CoreEvent δ → Bool
  | .tick => t.run.core.masked && (t.owed || t.run.core.ticksTo run'.core != 0)
  | .reboot _ _ => false
  | _ => t.owed

def step (t : TickRun δ) (e : CoreEvent δ) : Option (TickRun δ) := do
  let run ← t.run.step isa verifier e
  some ⟨run, t.owedAfter run e⟩

/-- The core as the refresh of the poll leaves it satisfies `P`. -/
def AtPoll (P : Core → Prop) (t : TickRun δ) : Prop :=
  ∀ r, t.run.core.refreshSyst.run (Bus.handle verifier) t.run.bus = some r → P r.1

/-- SysTick is enabled with TICKINT, and the clock is not frozen. -/
def On (t : TickRun δ) : CoreEvent δ → Prop
  | .tick => t.AtPoll verifier fun d =>
      d.systCsr &&& 1 ≠ 0 ∧ d.systCsr &&& 2 ≠ 0 ∧ d.tickFrozen = false
  | _ => True

/-- A poll that finds the core unmasked takes SysTick exactly if the counter underflows or an
exception is owed. -/
def Delivers (t : TickRun δ) : CoreEvent δ → Prop
  | .tick => ∀ t', t.step isa verifier .tick = some t' → t.run.core.masked = false →
      (t'.run.core.TookTick ↔ t.owed = true ∨ t.run.core.ticksTo t'.run.core ≠ 0)
  | _ => True

/-- A poll that finds the core unmasked while an exception is owed is about to underflow. -/
def Catches (t : TickRun δ) : CoreEvent δ → Prop
  | .tick => t.owed = true → t.run.core.masked = false →
      t.AtPoll verifier fun d => d.nextSystick = 0
  | _ => True

/-- No poll underflows under the mask. -/
def Unmasked (t : TickRun δ) : CoreEvent δ → Prop
  | .tick => t.run.core.masked = true → t.AtPoll verifier fun d => d.nextSystick ≠ 0
  | _ => True

/-- The reload is `reload`, no idle WFI moves the counter, and there is no reset. -/
def Steady (reload : Nat) (t : TickRun δ) : CoreEvent δ → Prop
  | .tick => t.AtPoll verifier fun d => d.systRvr.toNat = reload
  | .step => t.run.core.wfiThrottle = false
  | .reboot _ _ => False
  | _ => True

/-- Whether an event is a poll. -/
def isPoll : CoreEvent δ → Bool
  | .tick => true
  | _ => false

/-- The ticks that happen in a step. -/
def ticks (t : TickRun δ) (_ : CoreEvent δ) (t' : TickRun δ) : Nat :=
  t.run.core.ticksTo t'.run.core

/-! ## One poll -/

variable {isa verifier}

theorem step_eq_some {t t' : TickRun δ} {e : CoreEvent δ} :
    t.step isa verifier e = some t' ↔
      ∃ run', t.run.step isa verifier e = some run' ∧ t' = ⟨run', t.owedAfter run' e⟩ := by
  rw [step, Option.bind_eq_bind, Option.bind_eq_some_iff]
  simp only [Option.some.injEq, eq_comm (b := t')]

/-- What a poll does to the counter, and to the mode, while the timer is on. -/
structure PollSpec (t t' : TickRun δ) (d : Core) : Prop where
  refreshed : Core.Refreshed t.run.core d
  systick : t'.run.core.systick = d.countDown.1.systick
  ticks : t.run.core.ticksTo t'.run.core = if d.nextSystick = 0 then 1 else 0
  took : t.run.core.masked = false → (t'.run.core.TookTick ↔ d.nextSystick = 0)
  owed : t'.owed = (t.run.core.masked && (t.owed || t.run.core.ticksTo t'.run.core != 0))

omit [Mmio δ] in
theorem ticksTo_countDown {c d : Core} (h : d.tickEvents = c.tickEvents) :
    c.ticksTo d.countDown.1 = if d.nextSystick = 0 then 1 else 0 := by
  rw [Core.ticksTo, Core.countDown]
  split
  · show (d.tickEvents + 1 - c.tickEvents).toNat = 1
    rw [h]
    bv_omega
  · show (d.tickEvents - c.tickEvents).toNat = 0
    rw [h, BitVec.sub_self]
    rfl

omit [Mmio δ] in
theorem masked_eq_false {c : Core} :
    c.masked = false ↔ c.mode = .thread ∧ c.primask = false := by
  rw [Core.masked, Bool.or_eq_false_iff, bne_eq_false_iff_eq]

theorem poll_spec {t t' : TickRun δ} (hon : t.On verifier .tick)
    (h : t.step isa verifier .tick = some t') :
    ∃ r, t.run.core.refreshSyst.run (Bus.handle verifier) t.run.bus = some r ∧
      PollSpec t t' r.1 := by
  obtain ⟨run', hrun, rfl⟩ := step_eq_some.mp h
  obtain ⟨⟨core, bus⟩, htick, heq⟩ := Option.bind_eq_some_iff.mp hrun
  cases heq
  obtain ⟨d, b', hrefresh, hpoll⟩ := Core.run_maybeTick verifier htick
  obtain ⟨hen, hint, hfree⟩ := hon _ hrefresh
  have hd : Core.Refreshed t.run.core d := Core.run_refreshSyst_only verifier hrefresh
  have hevents : d.tickEvents = t.run.core.tickEvents := hd.same.1
  have hcounts : d.Counts := ⟨hen, fun hf => absurd (hfree.symm.trans hf.1) Bool.false_ne_true⟩
  have hmask : d.TakesTick ↔ t.run.core.masked = false := by
    rw [masked_eq_false, Core.TakesTick, hd.same.2.1, hd.same.2.2.1]
    exact and_iff_right hint
  refine ⟨(d, b'), hrefresh, ?_⟩
  cases hpoll with
  | still hstill heq => exact absurd hcounts hstill
  | counted _ hnot heq =>
      cases heq
      refine ⟨hd, rfl, ticksTo_countDown hevents, fun hun => ?_, rfl⟩
      have hthread : d.countDown.1.mode = .thread := by
        have hmode : d.countDown.1.mode = d.mode := by
          rw [Core.countDown]
          split <;> rfl
        exact hmode.trans (hmask.mpr hun).2.1
      refine iff_of_false (fun htook => ?_) fun hzero => hnot ⟨hzero, hmask.mpr hun⟩
      exact absurd (hthread.symm.trans htook.1) (by decide)
  | entered _ hzero htakes henter =>
      have hentry : (d.countDown.1.exceptionEntry 15).Returns fun e =>
          e.TookTick ∧ e.systick = d.countDown.1.systick ∧
            e.tickEvents = d.countDown.1.tickEvents :=
        Core.returns_exceptionEntry _ 15 fun _ => ⟨⟨rfl, rfl⟩, rfl, rfl⟩
      obtain ⟨htook, hsystick, htickEvents⟩ := Prog.of_returns hentry henter
      refine ⟨hd, hsystick, ?_, fun _ => iff_of_true htook hzero, rfl⟩
      rw [← ticksTo_countDown hevents]
      exact congrArg (fun e => (e - t.run.core.tickEvents).toNat) htickEvents

/-! ## Delivery over whole runs -/

omit [Mmio δ] in
theorem PollSpec.ticks_ne_zero {t t' : TickRun δ} {d : Core} (h : PollSpec t t' d) :
    t.run.core.ticksTo t'.run.core ≠ 0 ↔ d.nextSystick = 0 := by
  rw [h.ticks]
  split
  · next hz => exact iff_of_true (by decide) hz
  · next hz => exact iff_of_false (not_not.mpr rfl) hz

omit [Mmio δ] in
/-- What a poll leaves owed, in terms of what the counter does. -/
theorem PollSpec.owed_iff {t t' : TickRun δ} {d : Core} (h : PollSpec t t' d) :
    t'.owed = true ↔ t.run.core.masked = true ∧ (t.owed = true ∨ d.nextSystick = 0) := by
  rw [h.owed, Bool.and_eq_true, Bool.or_eq_true, bne_iff_ne, h.ticks_ne_zero]

/-- A poll delivers exactly if it catches what is owed. -/
theorem delivers_iff_catches {t : TickRun δ} {e : CoreEvent δ} (hon : t.On verifier e)
    (hret : (t.step isa verifier e).isSome) :
    t.Delivers isa verifier e ↔ t.Catches verifier e := by
  cases e with
  | tick =>
      obtain ⟨t', ht'⟩ := Option.isSome_iff_exists.mp hret
      obtain ⟨r, hrefresh, hspec⟩ := poll_spec hon ht'
      constructor
      · intro h howed hun r' hr'
        rw [hrefresh] at hr'
        cases hr'
        exact (hspec.took hun).mp ((h t' ht' hun).mpr (Or.inl howed))
      · intro h t'' ht'' hun
        rw [ht'] at ht''
        cases ht''
        rw [hspec.took hun, hspec.ticks_ne_zero]
        exact ⟨Or.inr, fun hor => hor.elim (fun howed => h howed hun _ hrefresh) id⟩
  | step | interrupt | writeReg n v | reboot sp pc | loops f | outside cache bus =>
      exact Iff.rfl

/-- Without underflows under the mask nothing is ever owed. -/
theorem owed_of_unmasked {t t' : TickRun δ} {e : CoreEvent δ} (howed : t.owed = false)
    (he : t.On verifier e ∧ t.Unmasked verifier e) (h : t.step isa verifier e = some t') :
    t'.owed = false := by
  cases e with
  | tick =>
      obtain ⟨r, hrefresh, hspec⟩ := poll_spec he.1 h
      refine Bool.eq_false_iff.mpr fun hnow => ?_
      obtain ⟨hmasked, hor⟩ := hspec.owed_iff.mp hnow
      rcases hor with hold | hzero
      · exact absurd (howed.symm.trans hold) Bool.false_ne_true
      · exact he.2 hmasked _ hrefresh hzero
  | reboot sp pc =>
      obtain ⟨run', -, rfl⟩ := step_eq_some.mp h
      rfl
  | step | interrupt | writeReg n v | loops f | outside cache bus =>
      obtain ⟨run', -, rfl⟩ := step_eq_some.mp h
      exact howed

/-! ## The number of ticks -/

/-- The poll at which the counter underflows first. -/
def first (reload : Nat) (t : TickRun δ) : Nat :=
  if t.run.core.systick = 0 then reload else t.run.core.systick.toNat

/-- Between the polls the counter stands still. -/
theorem still_of_steady {reload : Nat} {t t' : TickRun δ} {e : CoreEvent δ}
    (he : t.Steady verifier reload e) (hpoll : isPoll e = false)
    (h : t.step isa verifier e = some t') :
    t'.run.core.systick = t.run.core.systick ∧ t.run.core.ticksTo t'.run.core = 0 := by
  have hclock : ∀ d : Core, d.clock = t.run.core.clock →
      d.systick = t.run.core.systick ∧ t.run.core.ticksTo d = 0 := by
    intro d hd
    have hsame := Core.Clocked.of_clock hd
    refine ⟨congrArg Core.Clock.systick hd, ?_⟩
    rw [Core.ticksTo, hsame.events, BitVec.sub_self]
    rfl
  obtain ⟨run', hrun, rfl⟩ := step_eq_some.mp h
  cases e with
  | tick => cases hpoll
  | step =>
      obtain ⟨⟨core, cache, bus⟩, hstep, heq⟩ := Option.bind_eq_some_iff.mp hrun
      cases heq
      have hrel : t.run.core.Clocked core :=
        Core.rel_step (fun _ _ _ _ _ _ _ _ => trivial) hstep
      refine ⟨hrel.systick he, ?_⟩
      show (core.tickEvents - t.run.core.tickEvents).toNat = 0
      rw [hrel.events, BitVec.sub_self]
      rfl
  | interrupt =>
      obtain ⟨⟨core, bus⟩, hpoll, heq⟩ := Option.bind_eq_some_iff.mp hrun
      cases heq
      exact hclock core <| Core.rel_maybeInterrupt (P := fun d => d.clock = t.run.core.clock) rfl
        (fun vecnum _ => t.run.core.clock_exceptionEntry vecnum) hpoll
  | writeReg n v =>
      cases hrun
      exact hclock _ (t.run.core.clock_setGdbReg n v)
  | reboot sp pc => exact absurd he id
  | loops f =>
      cases hrun
      refine ⟨rfl, ?_⟩
      show (t.run.core.tickEvents - t.run.core.tickEvents).toNat = 0
      rw [BitVec.sub_self]
      rfl
  | outside cache bus =>
      cases hrun
      exact hclock _ rfl

/-- One poll with a positive reload: the counter is one poll nearer to its underflow, or it
underflows and is a reload away from the next one. -/
theorem first_poll {reload : Nat} (hreload : 0 < reload) {t t' : TickRun δ}
    (hon : t.On verifier .tick) (he : t.Steady verifier reload .tick)
    (h : t.step isa verifier .tick = some t') (n : Nat) :
    ticksIn reload (t.first reload) (n + 1) =
      t.run.core.ticksTo t'.run.core + ticksIn reload (t'.first reload) n := by
  obtain ⟨r, hrefresh, hspec⟩ := poll_spec hon h
  have hrvr : r.1.systRvr.toNat = reload := he _ hrefresh
  have hsystick : r.1.systick = t.run.core.systick := hspec.refreshed.same.2.2.2
  have hnext : r.1.nextSystick.toNat + 1 = t.first reload := by
    rw [Core.nextSystick, first, hsystick]
    split <;> bv_omega
  rw [hspec.ticks]
  by_cases hzero : r.1.nextSystick = 0
  · -- the counter underflows
    have hfirst : t.first reload = 1 := by
      rw [← hnext, hzero]
      rfl
    have hthen : t'.first reload = reload := by
      have hloaded : t'.run.core.systick = r.1.systRvr := by
        rw [hspec.systick, Core.countDown, if_pos hzero]
      rw [first, hloaded]
      split
      · rfl
      · exact hrvr
    rw [if_pos hzero, hfirst, hthen]
    exact ticksIn_tick hreload n
  · -- it counts down
    have hpos : r.1.nextSystick.toNat ≠ 0 := fun hz => hzero (BitVec.eq_of_toNat_eq hz)
    have hthen : t'.first reload = t.first reload - 1 := by
      have hloaded : t'.run.core.systick = r.1.nextSystick := by
        rw [hspec.systick, Core.countDown, if_neg hzero]
      rw [first, hloaded, if_neg hzero]
      omega
    rw [if_neg hzero, hthen, Nat.zero_add]
    exact ticksIn_wait reload n (by omega)

/-- The ticks of a run with a constant reload: one in every reload. -/
theorem ticks_of_run {reload : Nat} (hreload : 0 < reload) {es : List (CoreEvent δ)}
    {t t' : TickRun δ}
    (hon : Runs.Along (step isa verifier) (On verifier) es t)
    (hsteady : Runs.Along (step isa verifier) (Steady verifier reload) es t)
    (h : Runs.run (step isa verifier) es t = some t') :
    Runs.total (step isa verifier) ticks es t =
      ticksIn reload (t.first reload) (es.countP isPoll) := by
  induction es generalizing t with
  | nil =>
      refine (ticksIn_zero ?_).symm
      rw [first]
      split
      · exact hreload
      · bv_omega
  | cons e es ih =>
      obtain ⟨t₁, ht₁, hrest⟩ := Runs.run_cons_eq_some.mp h
      rw [Runs.total_cons ht₁, ih (hon.2 t₁ ht₁) (hsteady.2 t₁ ht₁) hrest]
      cases hpoll : isPoll e with
      | true =>
          rw [List.countP_cons_of_pos hpoll]
          cases e with
          | tick => exact (first_poll hreload hon.1 hsteady.1 ht₁ _).symm
          | step | interrupt | writeReg n v | reboot sp pc | loops f | outside cache bus =>
              cases hpoll
      | false =>
          obtain ⟨hsystick, hticks⟩ := still_of_steady hsteady.1 hpoll ht₁
          rw [List.countP_cons_of_neg (by rw [hpoll]; decide), ticks, hticks, Nat.zero_add, first,
            hsystick]
          rfl

/-- The ticks among `n` polls at one tick in `divisor` instructions, from the counter of `t`. -/
def implied (divisor : Nat) (t : TickRun δ) (n : Nat) : Nat := ticksIn divisor (t.first divisor) n

omit [Mmio δ] in
/-- One more instruction per tick makes no difference exactly while the polls left over make up for
the ticks. -/
theorem implied_eq_iff {reload : Nat} (hreload : 0 < reload) (t : TickRun δ) (n : Nat) :
    ticksIn reload (t.first reload) n = t.implied (reload + 1) n ↔
      (n - t.run.core.systick.toNat) / reload ≤ (n - t.run.core.systick.toNat) % reload := by
  rw [← div_eq_div_succ_iff hreload, implied, first, first]
  split
  · next hzero =>
      rw [ticksIn_self hreload, ticksIn_self (Nat.succ_pos reload), hzero]
      exact Iff.rfl
  · rw [ticksIn, ticksIn]
    split
    · next hlt =>
        have hnone : n - t.run.core.systick.toNat = 0 := by omega
        rw [hnone, Nat.zero_div, Nat.zero_div]
    · exact Nat.succ_inj

example : ticksIn 1000 1000 2000 = 2 ∧ ticksIn 1001 1000 2000 = 1 := by decide

/-- The divisor that is reported is one more than the reload. -/
theorem toNat_tickDivisor {c : Core} {divisor : Word} (h : c.tickDivisor = some divisor)
    (hmax : c.systRvr ≠ 0xFFFFFFFF) : divisor.toNat = c.systRvr.toNat + 1 := by
  rw [Core.tickDivisor] at h
  split at h
  · cases h
    bv_omega
  · cases h

end TickRun

/-- With SysTick on, the polls of a run take what is owed exactly if every unmasked poll after a
masked underflow is about to underflow, and so they do if no underflow is masked. With a constant
reload the ticks of a run are those that the divisor implies exactly if the polls that are left
over after whole reloads, from the first tick on, are at least as many as the reloads. -/
theorem systick_delivery_iff {δ : Type} [Mmio δ] {isa : Isa} {verifier : Verifier}
    {es : List (CoreEvent δ)} {run run' : CoreRun δ} {owed : Bool}
    (hon : Runs.Along (TickRun.step isa verifier) (TickRun.On verifier) es ⟨run, false⟩)
    (h : Runs.run (TickRun.step isa verifier) es ⟨run, false⟩ = some ⟨run', owed⟩) :
    (Runs.Along (TickRun.step isa verifier) (TickRun.Delivers isa verifier) es ⟨run, false⟩ ↔
        Runs.Along (TickRun.step isa verifier) (TickRun.Catches verifier) es ⟨run, false⟩) ∧
      (Runs.Along (TickRun.step isa verifier) (TickRun.Unmasked verifier) es ⟨run, false⟩ →
        Runs.Along (TickRun.step isa verifier) (TickRun.Delivers isa verifier) es ⟨run, false⟩) ∧
      ∀ reload, 0 < reload →
        Runs.Along (TickRun.step isa verifier) (TickRun.Steady verifier reload) es ⟨run, false⟩ →
          let n := es.countP TickRun.isPoll
          let x := n - run.core.systick.toNat
          (Runs.total (TickRun.step isa verifier) TickRun.ticks es ⟨run, false⟩ =
              TickRun.implied (reload + 1) ⟨run, false⟩ n ↔ x / reload ≤ x % reload) := by
  have hiff : Runs.Along (TickRun.step isa verifier) (TickRun.Delivers isa verifier) es
      ⟨run, false⟩ ↔ Runs.Along (TickRun.step isa verifier) (TickRun.Catches verifier) es
        ⟨run, false⟩ := by
    refine Runs.along_iff_of_along (I := fun _ => True) (R := fun t e => t.On verifier e ∧
      (t.step isa verifier e).isSome) (fun _ _ _ _ _ _ _ => trivial) ?_ trivial ?_
    · exact fun t e _ he => TickRun.delivers_iff_catches he.1 he.2
    · exact hon.and (Runs.along_isSome_of_run h)
  refine ⟨hiff, fun hun => hiff.mpr ?_, fun reload hreload hsteady => ?_⟩
  · refine (hon.and hun).imp (I := fun t => t.owed = false)
      (fun _ _ _ howed he hstep => TickRun.owed_of_unmasked howed he hstep) ?_ rfl
    intro t e howed _
    cases e with
    | tick => exact fun hnow => absurd (howed.symm.trans hnow) Bool.false_ne_true
    | step | interrupt | writeReg n v | reboot sp pc | loops f | outside cache bus => trivial
  · rw [TickRun.ticks_of_run hreload hon hsteady h]
    exact TickRun.implied_eq_iff hreload ⟨run, false⟩ _

/-- CPSIE, decoded at every address. -/
def cpsieCache : DecodeCache :=
  { DecodeCache.new with
    entries := fun _ => some ⟨0xB662, 2, some ⟨.cps false, .al, false, .nothing, .nothing, .nothing,
      .nothing⟩⟩ }

/-- A core that runs with SysTick on, one poll before its underflow. -/
def tickingRun (primask : Bool) : CoreRun Unit where
  core := { (Core.new.reset 0x20000800 0x08000000) with
    systCsr := 3, systRvr := 1000, systick := 1, cycles := 1, primask := primask }
  cache := cpsieCache
  bus := Core.stackBus

/-- Polls between the refreshes of the cached registers find SysTick on. -/
theorem on_of_cached {t : TickRun Unit} (hcsr : t.run.core.systCsr = 3)
    (hfree : t.run.core.tickFrozen = false) (hcyc : t.run.core.cycles &&& 0xFF ≠ 0) :
    t.On Core.noVerifier .tick := by
  intro r hr
  rw [Core.refreshSyst, if_neg hcyc] at hr
  cases hr
  rw [hcsr]
  exact ⟨by decide, by decide, hfree⟩

/-- A poll in Thread mode: the underflow is taken at once. -/
theorem systick_delivery_iff_unmasked :
    ∃ run' owed, Runs.run (TickRun.step nopIsa Core.noVerifier) [.tick] ⟨tickingRun false, false⟩ =
        some ⟨run', owed⟩ ∧
      Runs.Along (TickRun.step nopIsa Core.noVerifier) (TickRun.Delivers nopIsa Core.noVerifier)
        [.tick] ⟨tickingRun false, false⟩ ∧
      Runs.total (TickRun.step nopIsa Core.noVerifier) TickRun.ticks [.tick]
        ⟨tickingRun false, false⟩ = TickRun.implied 1001 ⟨tickingRun false, false⟩ 1 := by
  obtain ⟨⟨run', owed⟩, hrun⟩ : ∃ t, Runs.run (TickRun.step nopIsa Core.noVerifier) [.tick]
      ⟨tickingRun false, false⟩ = some t := Option.isSome_iff_exists.mp (by decide +kernel)
  have hon : Runs.Along (TickRun.step nopIsa Core.noVerifier) (TickRun.On Core.noVerifier) [.tick]
      ⟨tickingRun false, false⟩ := ⟨on_of_cached rfl rfl (by decide), fun _ _ => trivial⟩
  have h := systick_delivery_iff hon hrun
  refine ⟨run', owed, hrun, h.2.1 ⟨fun hmask => absurd hmask (by decide), fun _ _ => trivial⟩, ?_⟩
  refine (h.2.2 1000 (by decide) ⟨fun r hr => ?_, fun _ _ => trivial⟩).mpr (by decide)
  cases hr
  rfl

/-- The underflow under PRIMASK is lost: the poll after CPSIE does not take SysTick. -/
theorem masked_tick_lost :
    ¬ ∀ (es : List (CoreEvent Unit)) (run run' : CoreRun Unit) (owed : Bool),
      Runs.Along (TickRun.step nopIsa Core.noVerifier) (TickRun.On Core.noVerifier) es
        ⟨run, false⟩ →
      Runs.run (TickRun.step nopIsa Core.noVerifier) es ⟨run, false⟩ = some ⟨run', owed⟩ →
        Runs.Along (TickRun.step nopIsa Core.noVerifier)
          (TickRun.Delivers nopIsa Core.noVerifier) es ⟨run, false⟩ ∧
        ∀ reload, 0 < reload → Runs.Along (TickRun.step nopIsa Core.noVerifier)
            (TickRun.Steady Core.noVerifier reload) es ⟨run, false⟩ →
          Runs.total (TickRun.step nopIsa Core.noVerifier) TickRun.ticks es ⟨run, false⟩ =
            TickRun.implied (reload + 1) ⟨run, false⟩ (es.countP TickRun.isPoll) := by
  intro h
  have hvalues : (Runs.run (TickRun.step nopIsa Core.noVerifier) [.tick, .step]
      ⟨tickingRun true, false⟩).bind (fun t => (t.step nopIsa Core.noVerifier .tick).map fun t' =>
        ((t.owed, t.run.core.masked, t.run.core.systCsr, t.run.core.tickFrozen, t.run.core.cycles),
          t'.run.core.mode)) = some ((true, false, 3, false, 2), .thread) := by decide +kernel
  obtain ⟨t, ht, hlast⟩ := Option.bind_eq_some_iff.mp hvalues
  obtain ⟨t', ht', heq⟩ := Option.map_eq_some_iff.mp hlast
  simp only [Prod.mk.injEq] at heq
  obtain ⟨⟨howed, hmasked, hcsr, hfree, hcyc⟩, hmode⟩ := heq
  have hrun : Runs.run (TickRun.step nopIsa Core.noVerifier) ([.tick, .step] ++ [.tick])
      ⟨tickingRun true, false⟩ = some t' := by
    rw [Runs.run_append, ht, Option.bind_some, Runs.run_cons, ht']
    rfl
  have hon : Runs.Along (TickRun.step nopIsa Core.noVerifier) (TickRun.On Core.noVerifier)
      ([.tick, .step] ++ [.tick]) ⟨tickingRun true, false⟩ := by
    refine ⟨on_of_cached rfl rfl (by decide), fun t₁ ht₁ => ⟨trivial, fun t₂ ht₂ => ?_⟩⟩
    have hsame : t₂ = t := by
      rw [Runs.run_cons, ht₁, Option.bind_some, Runs.run_cons, ht₂] at ht
      exact Option.some.inj ht
    rw [hsame]
    exact ⟨on_of_cached hcsr hfree (by rw [hcyc]; decide), fun _ _ => trivial⟩
  have hdelivers := ((h _ _ t'.run t'.owed hon hrun).1.of_append ht).1 t' ht' hmasked
  exact absurd (hmode.symm.trans (hdelivers.mpr (Or.inl howed)).1) (by decide)

end SpEmu
