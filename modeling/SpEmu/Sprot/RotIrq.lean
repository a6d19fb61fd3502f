import SpEmu.Sprot.Wires
import SpEmu.Mem.IrqCollection
import SpEmu.Lib.Runs

/-!
# ROT_IRQ edges

The RoT moves the level of ROT_IRQ with its GPIO; the SP's serve loop compares the level with that
of its last sample, once at the end of an iteration, and where they differ latches EXTI line 3 and
pends IRQ 9. Two changes between two samples cancel, and an iteration that serves an SWD client
ends without a sample. `delivers_iff` says for every interleaving when no change is lost.
-/

set_option autoImplicit false

namespace SpEmu

open ByteMem Sprot

namespace LinkOp

variable (lk : SprotLink) (op : LinkOp)

/-- The bytes, the chip select and the slave's registers leave ROT_IRQ and its latch alone. -/
theorem apply_rotIrq :
    (op.apply lk).rotIrq = lk.rotIrq ∧ (op.apply lk).spRotIrqPending = lk.spRotIrqPending := by
  cases op with
  | clock out =>
      rw [apply, lk.clock_link]
      exact ⟨rfl, rfl⟩
  | driveCs newCs =>
      rw [apply]
      rcases lk.driveCs_cases newCs with ⟨-, hlk⟩ | ⟨-, -, hlk⟩ | ⟨-, -, hlk⟩
      · rw [hlk]
        exact ⟨rfl, rfl⟩
      · rw [hlk]
        exact ⟨rfl, rfl⟩
      · rw [hlk]
        exact ⟨rfl, rfl⟩
  | none => exact ⟨rfl, rfl⟩
  | readStat => exact ⟨rfl, rfl⟩
  | readFrame => exact ⟨rfl, rfl⟩
  | clearStat ssa ssd => exact ⟨rfl, rfl⟩
  | emptyFifo tx rx => exact ⟨rfl, rfl⟩
  | writeFrame frame => exact ⟨rfl, rfl⟩

end LinkOp

/-- A GPIO write of the RoT leaves the SP's latch alone. -/
theorem LpcGpio.write_latch (g : LpcGpio) (lk : SprotLink) (off val : Word) :
    (g.write lk off val).2.spRotIrqPending = lk.spRotIrqPending := by
  rw [LpcGpio.write]
  split <;> rfl

/-- The latch is cleared by a write of one to bit 3 of CPUPR1 and by no other write. -/
theorem SpExti.write_latch (x : SpExti) (lk : SprotLink) (off val : Word) :
    (x.write lk off val).2.spRotIrqPending =
      (lk.spRotIrqPending &&
        !decide (alignWord off = cpupr1 ∧ val &&& rotIrqExtiBit ≠ 0)) := by
  simp only [SpExti.write]
  by_cases hoff : alignWord off = cpupr1
  · by_cases hbit : val &&& rotIrqExtiBit ≠ 0
    · rw [if_pos hoff, if_pos hbit, decide_eq_true ⟨hoff, hbit⟩]
      exact (Bool.and_false _).symm
    · rw [if_pos hoff, if_neg hbit, decide_eq_false fun h => hbit h.2]
      exact (Bool.and_true _).symm
  · rw [if_neg hoff, decide_eq_false fun h => hoff h.1]
    exact (Bool.and_true _).symm

theorem SpExti.write_rotIrq (x : SpExti) (lk : SprotLink) (off val : Word) :
    (x.write lk off val).2.rotIrq = lk.rotIrq := by
  simp only [SpExti.write]
  split
  · split <;> rfl
  · rfl

/-! ## The serve loop -/

/-- The link between the RoT's GPIO and the SP's EXTI and NVIC, with what the serve loop keeps of
ROT_IRQ. -/
structure RotIrqRun (δ : Type) where
  wires : Wires
  rotGpio : LpcGpio
  exti : SpExti
  bus : Bus δ
  prevRotIrq : Bool
  /-- The changes of the level since the last sample. -/
  toggles : Nat
  /-- The level changed since the last iteration ended. -/
  owed : Bool

/-- What the two cores and the serve loop do. -/
inductive IrqEvent (δ : Type) where
  | rotGpio (off val : Word)
  | wires (e : WireEvent)
  | exti (off val : Word)
  /-- The SP's instructions, its interrupt entries and its other devices leave any bus behind. -/
  | sp (bus : Bus δ)
  /-- An iteration ends with its sample. -/
  | iteration
  /-- An iteration serves an SWD client and continues with the next one. -/
  | swdSession

namespace RotIrqRun

variable {δ : Type}

/-- EXTI line 3 interrupts on IRQ 9. -/
def exti3 : Half := 9

section

variable (s : RotIrqRun δ)

/-- Keep the level and latch the edge. -/
def latchEdge (bus : Bus δ) : RotIrqRun δ :=
  { s with
    prevRotIrq := s.wires.link.rotIrq
    wires := { s.wires with link := { s.wires.link with spRotIrqPending := true } }
    bus := bus }

/-- Compare the level with that of the last sample. -/
def sampleRotIrq : Option (RotIrqRun δ) :=
  if s.wires.link.rotIrq ≠ s.prevRotIrq then (s.bus.pendIrq exti3).map s.latchEdge else some s

def step : IrqEvent δ → Option (RotIrqRun δ)
  | .rotGpio off val =>
      let (rotGpio, link) := s.rotGpio.write s.wires.link off val
      let changed := link.rotIrq != s.wires.link.rotIrq
      some { s with
        rotGpio := rotGpio
        wires := { s.wires with link := link }
        toggles := if changed then s.toggles + 1 else s.toggles
        owed := s.owed || changed }
  | .wires e => some { s with wires := s.wires.access e }
  | .exti off val =>
      let (exti, link) := s.exti.write s.wires.link off val
      some { s with exti := exti, wires := { s.wires with link := link } }
  | .sp bus => some { s with bus := bus }
  | .iteration => s.sampleRotIrq.map fun t => { t with toggles := 0, owed := false }
  | .swdSession => some { s with owed := false }

/-- The latch of EXTI line 3 is set and IRQ 9 is pending. -/
def Raised : Prop := s.wires.link.spRotIrqPending = true ∧ s.bus.isPending exti3 = true

instance : Decidable s.Raised := inferInstanceAs (Decidable (_ ∧ _))

/-- An event that ends an iteration. -/
def Ends : IrqEvent δ → Prop
  | .iteration => True
  | .swdSession => True
  | _ => False

/-- The interrupt is up at the end of an iteration where the level changed since the one before,
and only the SP takes the latch back. -/
structure Delivers (e : IrqEvent δ) : Prop where
  raised : Ends e → s.owed = true → ∀ s' ∈ s.step e, s'.Raised
  kept : s.wires.link.spRotIrqPending = true → ∀ s' ∈ s.step e,
    s'.wires.link.spRotIrqPending = true ∨
      ∃ off val, e = .exti off val ∧ alignWord off = SpExti.cpupr1 ∧ val &&& rotIrqExtiBit ≠ 0

/-- Where the level changed since the iteration before, a sample sees an odd number of changes, or
the interrupt is up already. -/
def EdgeSeen : IrqEvent δ → Prop
  | .iteration => s.owed = true → s.toggles % 2 = 1 ∨ s.Raised
  | .swdSession => s.owed = true → s.Raised
  | _ => True

/-- The level is that of the last sample, but for the changes since. -/
def Sampled : Prop := s.wires.link.rotIrq = (s.prevRotIrq ^^ decide (s.toggles % 2 = 1))

end

variable {s s' : RotIrqRun δ}

/-- A sample sees an odd number of changes, and raises the interrupt. -/
theorem sampleRotIrq_odd (h : s.Sampled) (hodd : s.toggles % 2 = 1) :
    ∃ t, s.sampleRotIrq = some t ∧ t.Raised ∧ t.wires.link.rotIrq = t.prevRotIrq := by
  have hne : s.wires.link.rotIrq ≠ s.prevRotIrq := by
    rw [h, decide_eq_true hodd]
    cases s.prevRotIrq <;> decide
  obtain ⟨bus, hpend, hset⟩ := s.bus.pendIrq_spec exti3 (by decide)
  refine ⟨s.latchEdge bus, ?_, ⟨rfl, hset⟩, rfl⟩
  rw [sampleRotIrq, if_pos hne, hpend]
  rfl

/-- An even number of changes cancels out. -/
theorem sampleRotIrq_even (h : s.Sampled) (heven : ¬ s.toggles % 2 = 1) :
    s.sampleRotIrq = some s ∧ s.wires.link.rotIrq = s.prevRotIrq := by
  have heq : s.wires.link.rotIrq = s.prevRotIrq := by
    rw [h, decide_eq_false heven, Bool.xor_false]
  exact ⟨if_neg fun hne => hne heq, heq⟩

/-- A change of the level is a change of the parity. -/
theorem parity_of_change {level prev : Bool} {n : Nat} (h : level = (prev ^^ decide (n % 2 = 1)))
    (next : Bool) :
    next = (prev ^^ decide ((if next != level then n + 1 else n) % 2 = 1)) := by
  by_cases hsame : next = level
  · rw [hsame, if_neg (by rw [bne_self_eq_false]; exact Bool.false_ne_true)]
    exact h
  · have hparity : decide ((n + 1) % 2 = 1) = !decide (n % 2 = 1) := by
      rw [← decide_not]
      exact decide_eq_decide.mpr (by omega)
    rw [if_pos (bne_iff_ne.mpr hsame), hparity, Bool.xor_not, ← h]
    exact Bool.eq_not_of_ne hsame

theorem sampled_step {e : IrqEvent δ} (h : s.Sampled) (hstep : s.step e = some s') :
    s'.Sampled := by
  cases e with
  | rotGpio off val =>
      obtain rfl := Option.some.inj hstep
      exact parity_of_change h _
  | wires e =>
      obtain rfl := Option.some.inj hstep
      have hlink := (LinkOp.apply_rotIrq s.wires.link (s.wires.linkOp e)).1
      rw [← s.wires.access_link e] at hlink
      exact hlink.trans h
  | exti off val =>
      obtain rfl := Option.some.inj hstep
      exact (s.exti.write_rotIrq s.wires.link off val).trans h
  | sp bus =>
      obtain rfl := Option.some.inj hstep
      exact h
  | iteration =>
      obtain ⟨t, ht, rfl⟩ := Option.map_eq_some_iff.mp hstep
      have hlevel : t.wires.link.rotIrq = t.prevRotIrq := by
        -- an odd number of changes is an edge, an even number shows none
        by_cases hodd : s.toggles % 2 = 1
        · obtain ⟨u, hu, -, hlevel⟩ := sampleRotIrq_odd h hodd
          obtain rfl := Option.some.inj (ht.symm.trans hu)
          exact hlevel
        · obtain ⟨hu, hlevel⟩ := sampleRotIrq_even h hodd
          obtain rfl := Option.some.inj (ht.symm.trans hu)
          exact hlevel
      exact hlevel.trans (Bool.xor_false _).symm
  | swdSession =>
      obtain rfl := Option.some.inj hstep
      exact h

/-- Every step but the SP's write of one keeps the latch. -/
theorem latch_kept {e : IrqEvent δ} (hstep : s.step e = some s')
    (hlatch : s.wires.link.spRotIrqPending = true) : s'.wires.link.spRotIrqPending = true ∨
      ∃ off val, e = .exti off val ∧ alignWord off = SpExti.cpupr1 ∧
        val &&& rotIrqExtiBit ≠ 0 := by
  cases e with
  | rotGpio off val =>
      obtain rfl := Option.some.inj hstep
      exact Or.inl ((s.rotGpio.write_latch s.wires.link off val).trans hlatch)
  | wires e =>
      obtain rfl := Option.some.inj hstep
      have hlink := (LinkOp.apply_rotIrq s.wires.link (s.wires.linkOp e)).2
      rw [← s.wires.access_link e] at hlink
      exact Or.inl (hlink.trans hlatch)
  | exti off val =>
      obtain rfl := Option.some.inj hstep
      -- the write of one to the pending bit is the only step that clears it
      by_cases hclear : alignWord off = SpExti.cpupr1 ∧ val &&& rotIrqExtiBit ≠ 0
      · exact Or.inr ⟨off, val, rfl, hclear⟩
      · left
        refine (s.exti.write_latch s.wires.link off val).trans ?_
        rw [hlatch, decide_eq_false hclear]
        rfl
  | sp bus =>
      obtain rfl := Option.some.inj hstep
      exact Or.inl hlatch
  | iteration =>
      obtain ⟨t, ht, rfl⟩ := Option.map_eq_some_iff.mp hstep
      left
      simp only [sampleRotIrq] at ht
      split at ht
      · obtain ⟨bus, -, rfl⟩ := Option.map_eq_some_iff.mp ht
        rfl
      · obtain rfl := Option.some.inj ht
        exact hlatch
  | swdSession =>
      obtain rfl := Option.some.inj hstep
      exact Or.inl hlatch

theorem delivers_iff_edgeSeen (h : s.Sampled) (e : IrqEvent δ) : s.Delivers e ↔ s.EdgeSeen e := by
  cases e with
  | iteration =>
      constructor
      · intro hdel howed
        -- an even number of changes is sampled as none
        by_cases hodd : s.toggles % 2 = 1
        · exact Or.inl hodd
        · obtain ⟨hsample, -⟩ := sampleRotIrq_even h hodd
          have hend : s.step .iteration = some { s with toggles := 0, owed := false } := by
            rw [step, hsample, Option.map_some]
          have hraised := hdel.raised trivial howed _ hend
          exact Or.inr hraised
      · refine fun hseen => ⟨fun _ howed s' hs' => ?_, fun hlatch s' hs' => latch_kept hs' hlatch⟩
        obtain ⟨t, ht, rfl⟩ := Option.map_eq_some_iff.mp hs'
        by_cases hodd : s.toggles % 2 = 1
        · obtain ⟨u, hu, hraised, -⟩ := sampleRotIrq_odd h hodd
          obtain rfl := Option.some.inj (ht.symm.trans hu)
          exact hraised
        · obtain ⟨hu, -⟩ := sampleRotIrq_even h hodd
          obtain rfl := Option.some.inj (ht.symm.trans hu)
          exact (hseen howed).resolve_left hodd
  -- an SWD session takes the iteration's time and samples nothing
  | swdSession =>
      constructor
      · intro hdel howed
        have hend : s.step .swdSession = some { s with owed := false } := rfl
        have hraised := hdel.raised trivial howed _ hend
        exact hraised
      · refine fun hseen => ⟨fun _ howed s' hs' => ?_, fun hlatch s' hs' => latch_kept hs' hlatch⟩
        obtain rfl := Option.some.inj hs'
        exact hseen howed
  -- no other event ends an iteration
  | rotGpio off val =>
      exact iff_of_true ⟨nofun, fun hlatch s' hs' => latch_kept hs' hlatch⟩ trivial
  | wires e => exact iff_of_true ⟨nofun, fun hlatch s' hs' => latch_kept hs' hlatch⟩ trivial
  | exti off val => exact iff_of_true ⟨nofun, fun hlatch s' hs' => latch_kept hs' hlatch⟩ trivial
  | sp bus => exact iff_of_true ⟨nofun, fun hlatch s' hs' => latch_kept hs' hlatch⟩ trivial

/-- The idle link with both cores at their start, on any bus. -/
def start (rotLive : Bool) (bus : Bus δ) : RotIrqRun δ where
  wires := Wires.new rotLive
  rotGpio := LpcGpio.new
  exti := SpExti.new
  bus := bus
  prevRotIrq := false
  toggles := 0
  owed := false

/-- In every interleaving of the two cores and the serve loop: each change of ROT_IRQ raises the
interrupt by the end of the next iteration, and only the SP takes the latch back, if and only if
every sample that owes a change sees an odd number of them or the interrupt up, and every iteration
without a sample that owes one finds it up. -/
theorem delivers_iff (rotLive : Bool) (bus : Bus δ) (es : List (IrqEvent δ)) :
    Runs.Along step Delivers es (start rotLive bus) ↔
      Runs.Along step EdgeSeen es (start rotLive bus) :=
  Runs.along_iff (fun _ _ _ h _ => sampled_step h) (fun _ e h => delivers_iff_edgeSeen h e) es _ rfl

/-- The RoT asserts ROT_IRQ and takes it back before the sample. -/
def pulse : List (IrqEvent Unit) :=
  [.rotGpio 0x2280 0x40000, .rotGpio 0x2200 0x40000, .iteration]

/-- A pulse between two samples reaches neither the latch nor the NVIC. -/
theorem pulse_not_delivered : ¬ Runs.Along step Delivers pulse (start true (Bus.new ())) := by
  have hends : ∀ (s : RotIrqRun Unit) (e : IrqEvent Unit), s.Delivers e →
      (Ends e → s.owed = true → ∀ s' ∈ s.step e, s'.Raised) := fun s e h => h.raised
  intro h
  obtain ⟨-, h⟩ := h.mono hends
  obtain ⟨-, h⟩ := h _ rfl
  obtain ⟨h, -⟩ := h _ rfl
  exact absurd (h trivial (by decide +kernel) _ rfl) (by decide +kernel)

end RotIrqRun

end SpEmu
