import SpEmu.Cpu.Banking

/-!
# The SysTick counter

A poll refreshes the cached registers, and counts unless the timer is off or frozen; the counter
underflows where it would reach 0, which reloads it and enters exception 15 from Thread mode
(`run_maybeTick`). Nothing else moves the counter but an idle WFI under the throttle, which is what
`Clocked` says of the steps and of the interrupts between the polls.
-/

set_option autoImplicit false

namespace SpEmu

open ByteMem

namespace Core

/-! ## One poll -/

variable (c : Core)

/-- The timer is enabled, and it is not frozen unless a tick is due. -/
def Counts : Prop := c.systCsr &&& 1 ≠ 0 ∧ ¬ (c.tickFrozen = true ∧ c.systick ≠ 1)

/-- TICKINT is set, and SysTick finds the core in Thread mode and unmasked. -/
def TakesTick : Prop := c.systCsr &&& 2 ≠ 0 ∧ c.mode = .thread ∧ c.primask = false

/-- The refresh changes the cached registers only. -/
def Refreshed (c d : Core) : Prop := d = { c with systCsr := d.systCsr, systRvr := d.systRvr }

variable {c} in
theorem Refreshed.same {d : Core} (h : Refreshed c d) : d.tickEvents = c.tickEvents ∧
    d.mode = c.mode ∧ d.primask = c.primask ∧ d.systick = c.systick := by
  rw [Refreshed] at h
  rw [h]
  exact ⟨rfl, rfl, rfl, rfl⟩

section Poll

variable {δ : Type} [Mmio δ] (verifier : Verifier) {c} {b : Bus δ} {r : Core × Bus δ}

theorem run_refreshSyst_only (h : c.refreshSyst.run (Bus.handle verifier) b = some r) :
    Refreshed c r.1 := by
  have hret : c.refreshSyst.Returns (Refreshed c) := by
    rw [refreshSyst]
    split
    · exact fun _ _ => rfl
    · exact rfl
  exact Prog.of_returns hret h

/-- What a poll does with the core `d` that the refresh leaves. -/
inductive Polled (d : Core) (b : Bus δ) (r : Core × Bus δ) : Prop where
  | still (hstill : ¬ d.Counts) (heq : r = (d, b))
  | counted (hcounts : d.Counts) (hnot : ¬ (d.nextSystick = 0 ∧ d.TakesTick))
      (heq : r = (d.countDown.1, b))
  | entered (hcounts : d.Counts) (hzero : d.nextSystick = 0) (htakes : d.TakesTick)
      (henter : d.countDown.1.Enters verifier 15 b r)

omit [Mmio δ] in
theorem countDown_underflow (d : Core) : d.countDown.2 = true ↔ d.nextSystick = 0 := by
  rw [countDown]
  split
  · next h => exact ⟨fun _ => h, fun _ => rfl⟩
  · next h => exact ⟨fun hf => absurd hf Bool.false_ne_true, fun hz => absurd hz h⟩

omit [Mmio δ] in
theorem countDown_takesTick (d : Core) : d.countDown.1.TakesTick ↔ d.TakesTick := by
  rw [countDown]
  split <;> exact Iff.rfl

theorem run_maybeTick (h : c.maybeTick.run (Bus.handle verifier) b = some r) :
    ∃ d b', c.refreshSyst.run (Bus.handle verifier) b = some (d, b') ∧
      Polled verifier d b' r := by
  rw [maybeTick, Prog.bind_eq, Prog.run_bind, Option.bind_eq_some_iff] at h
  obtain ⟨⟨d, b'⟩, hrefresh, hrest⟩ := h
  refine ⟨d, b', hrefresh, ?_⟩
  split at hrest
  · next hoff =>
      cases hrest
      exact .still (fun hc => hc.1 hoff) rfl
  · next hon =>
      split at hrest
      · next hfrozen =>
          cases hrest
          exact .still (fun hc => hc.2 hfrozen) rfl
      · next hfree =>
          have hcounts : d.Counts := ⟨hon, hfree⟩
          dsimp only at hrest
          split at hrest
          · next htake =>
              exact .entered hcounts (d.countDown_underflow.mp htake.1)
                (d.countDown_takesTick.mp htake.2) hrest
          · next hnot =>
              cases hrest
              refine .counted hcounts (fun hall => hnot ?_) rfl
              exact ⟨d.countDown_underflow.mpr hall.1, d.countDown_takesTick.mpr hall.2⟩

end Poll

/-! ## What the rest of a run does to the counter -/

/-- The fields of the core that the clock is made of. -/
structure Clock where
  frozen : Bool
  throttle : Bool
  events : BitVec 64
  credit : Word
  systick : Word

def clock : Clock := ⟨c.tickFrozen, c.wfiThrottle, c.tickEvents, c.spTickCredit, c.systick⟩

/-- The ticks that are owed: the credit, and a tick that is due at the next poll. -/
def outstanding : Nat := c.spTickCredit.toNat + if c.systick = 1 then 1 else 0

/-- The ticks that happen between two cores. -/
def ticksTo (d : Core) : Nat := (d.tickEvents - c.tickEvents).toNat

/-- No tick happens; only an idle WFI under the throttle moves the counter, and while the clock is
frozen it only turns a credit into a tick that is due. -/
structure Clocked (c d : Core) : Prop where
  frozen : d.tickFrozen = c.tickFrozen
  throttle : d.wfiThrottle = c.wfiThrottle
  events : d.tickEvents = c.tickEvents
  systick : c.wfiThrottle = false → d.systick = c.systick
  outstanding : c.tickFrozen = true → d.outstanding = c.outstanding

theorem Clocked.of_clock {c d : Core} (h : d.clock = c.clock) : Clocked c d := by
  simp only [clock, Clock.mk.injEq] at h
  obtain ⟨hfrozen, hthrottle, hevents, hcredit, hsystick⟩ := h
  refine ⟨hfrozen, hthrottle, hevents, fun _ => hsystick, fun _ => ?_⟩
  rw [Core.outstanding, hcredit, hsystick]
  rfl

theorem Clocked.trans {c d e : Core} (h : Clocked c d) (h' : Clocked d e) : Clocked c e where
  frozen := h'.frozen.trans h.frozen
  throttle := h'.throttle.trans h.throttle
  events := h'.events.trans h.events
  systick hoff := (h'.systick (h.throttle.trans hoff)).trans (h.systick hoff)
  outstanding hf := (h'.outstanding (h.frozen.trans hf)).trans (h.outstanding hf)

/-- An idle WFI under a frozen clock takes one credit and makes one tick due. -/
theorem clocked_idle {c : Core} (hthrottle : c.wfiThrottle = true) (hrun : 1 < c.systick) :
    Clocked c c.idle := by
  have hne : ¬ c.systick = 1 := by bv_omega
  rw [idle]
  split
  · next hcredit =>
      refine ⟨rfl, rfl, rfl, fun hoff => absurd (hthrottle.symm.trans hoff) (by decide), ?_⟩
      intro _
      show (c.spTickCredit - 1).toNat + 1 = c.spTickCredit.toNat + if c.systick = 1 then 1 else 0
      rw [if_neg hne]
      bv_omega
  split
  · exact Clocked.of_clock rfl
  · next hfrozen =>
      refine ⟨rfl, rfl, rfl, fun hoff => absurd (hthrottle.symm.trans hoff) (by decide), ?_⟩
      exact fun hf => absurd hf hfrozen

theorem clock_setControl (v : Word) : (c.setControl v).clock = c.clock := by
  rw [setControl]
  dsimp only
  split
  · rfl
  · split <;> rfl

theorem clock_setMsp (v : Word) : (c.setMsp v).clock = c.clock := by
  rw [setMsp]
  dsimp only
  split <;> rfl

theorem clock_setPsp (v : Word) : (c.setPsp v).clock = c.clock := by
  rw [setPsp]
  dsimp only
  split <;> rfl

theorem clock_writeSpecial (sysm : Byte) (v : Word) : (c.writeSpecial sysm v).clock = c.clock := by
  rw [writeSpecial]
  split
  case h_5 => exact c.clock_setMsp v
  case h_6 => exact c.clock_setPsp v
  case h_11 => exact c.clock_setControl v
  all_goals rfl

theorem clock_setGdbReg (n : Nat) (v : Word) : (c.setGdbReg n v).clock = c.clock := by
  rw [setGdbReg]
  split
  · rfl
  split
  · rfl
  split
  · rfl
  split
  · exact c.clock_setMsp v
  split
  · exact c.clock_setPsp v
  split
  · exact clock_setControl _ _
  split
  · rfl
  split <;> rfl

theorem clock_itAdvance : c.itAdvance.clock = c.clock := by
  rw [itAdvance]
  split <;> rfl

/-- An exception entry leaves the clock alone. -/
theorem clock_exceptionEntry (vecnum : Word) :
    (c.exceptionEntry vecnum).Returns fun d => d.clock = c.clock :=
  c.returns_exceptionEntry vecnum fun _ => rfl

instance : CoreRel Clocked (fun _ => True) where
  refl c := Clocked.of_clock rfl
  trans h h' := h.trans h'
  data {c d} h := by
    have hclock : d.dataless.clock = c.dataless.clock := congrArg clock h.dataless.symm
    exact Clocked.of_clock hclock
  fpca _ := Clocked.of_clock rfl
  ret c exc := by
    refine c.returns_exceptionReturn exc ?_ ?_
    · exact fun _ _ _ _ _ _ _ _ _ _ => Clocked.of_clock rfl
    · exact fun _ _ _ _ _ _ _ _ _ _ _ _ => Clocked.of_clock rfl
  svc c := (c.clock_exceptionEntry 11).mono fun _ h => Clocked.of_clock h
  special c sysm v := Clocked.of_clock (c.clock_writeSpecial sysm v)
  cps _ _ := Clocked.of_clock rfl
  it _ _ _ := Clocked.of_clock rfl
  wfiIdle _ := Clocked.of_clock rfl
  idle _ hthrottle hrun := clocked_idle hthrottle hrun
  halt _ _ _ := Clocked.of_clock rfl
  start _ _ _ := Clocked.of_clock rfl
  itAdvance c := Clocked.of_clock c.clock_itAdvance
  romCall _ _ := Clocked.of_clock rfl
  romStatus := trivial

end Core

end SpEmu
