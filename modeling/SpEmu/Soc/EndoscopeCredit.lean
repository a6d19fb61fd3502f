import SpEmu.Lib.Runs
import SpEmu.Cpu.Interrupts
import SpEmu.Flash.FlashRefinement
import SpEmu.Soc.Board

/-!
# Endoscope credit

While the SP runs the endoscope under debug, the serve loop turns the instructions of the SP into
milliseconds for the RoT. It divides them by the reload of SysTick plus one, or by the configured
clock before a reload is set, and carries the remainder to the next pass.

`creditRun_balance` is the conservation law of the division. `endoscope_credit_iff` says that the
credit is exact for every value that the guest writes to the reload register but the largest one,
for which the divisor wraps to zero.
-/

set_option autoImplicit false

namespace SpEmu

open ByteMem Mem

/-! ## The serve loop's accounting -/

/-- The whole milliseconds of a cycle delta and the remainder. A zero divisor panics. -/
def endoscopeCredit (acc dCycles divisor : BitVec 64) (cap : Word) : Option (Word × BitVec 64) :=
  if divisor = 0 then none
  else
    let total := acc + dCycles
    let ms := if total / divisor ≤ cap.setWidth 64 then total / divisor else cap.setWidth 64
    some (ms.setWidth 32, total % divisor)

/-- The divisor of a pass: the SysTick rate, or the configured clock. -/
def Core.endoscopeDivisor (c : Core) (spClockKhz : Word) : BitVec 64 :=
  (c.tickDivisor.getD spClockKhz).setWidth 64

/-- What has been credited so far, and the accumulator. -/
structure Credit where
  ms : Nat
  acc : BitVec 64

namespace Credit

def start : Credit := ⟨0, 0⟩

/-- One pass of the serve loop. -/
def step (divisor : BitVec 64) (cap : Word) (k : Credit) (dCycles : BitVec 64) : Option Credit := do
  let (ms, acc) ← endoscopeCredit k.acc dCycles divisor cap
  some ⟨k.ms + ms.toNat, acc⟩

/-- The cycles of a sequence of passes. -/
def cycles (ds : List (BitVec 64)) : Nat := (ds.map BitVec.toNat).sum

/-- The pass has less to credit than the cap. -/
def Uncapped (divisor : BitVec 64) (cap : Word) (k : Credit) (dCycles : BitVec 64) : Prop :=
  (k.acc.toNat + dCycles.toNat) / divisor.toNat ≤ cap.toNat

/-- The sum of a pass fits the accumulator. -/
def SumFits (k : Credit) (dCycles : BitVec 64) : Prop := k.acc.toNat + dCycles.toNat < 2 ^ 64

/-- The credit accounts for every cycle, and what it leaves is less than a millisecond. -/
def Exact (divisor : BitVec 64) (cap : Word) (ds : List (BitVec 64)) : Prop :=
  ∃ k, Runs.run (step divisor cap) ds start = some k ∧
    k.ms * divisor.toNat + k.acc.toNat = cycles ds ∧ k.acc.toNat < divisor.toNat

variable {divisor : BitVec 64} {cap : Word}

theorem toNat_pos (hdiv : divisor ≠ 0) : 0 < divisor.toNat := by
  apply Nat.pos_of_ne_zero
  intro hzero
  exact hdiv (BitVec.eq_of_toNat_eq hzero)

/-- A pass below the cap loses cycles only in multiples of the accumulator's range. -/
theorem step_eq (hdiv : divisor ≠ 0) {k : Credit} {d : BitVec 64}
    (hcap : Uncapped divisor cap k d) :
    ∃ k', step divisor cap k d = some k' ∧ k'.acc.toNat < divisor.toNat ∧
      k'.ms * divisor.toNat + k'.acc.toNat +
          2 ^ 64 * ((k.acc.toNat + d.toNat) / 2 ^ 64) =
        k.ms * divisor.toNat + (k.acc.toNat + d.toNat) := by
  have hpos : 0 < divisor.toNat := toNat_pos hdiv
  have hsum : (k.acc + d).toNat = (k.acc.toNat + d.toNat) % 2 ^ 64 := BitVec.toNat_add ..
  have hquot : ((k.acc + d) / divisor).toNat = (k.acc + d).toNat / divisor.toNat :=
    BitVec.toNat_udiv
  -- a sum that wraps is smaller still
  have hle : (k.acc + d).toNat / divisor.toNat ≤ cap.toNat := by
    apply Nat.le_trans _ hcap
    apply Nat.div_le_div_right
    rw [hsum]
    exact Nat.mod_le ..
  have hmin : (k.acc + d) / divisor ≤ cap.setWidth 64 := by
    rw [BitVec.le_def, hquot, BitVec.toNat_setWidth]
    have hcap64 : cap.toNat % 2 ^ 64 = cap.toNat := Nat.mod_eq_of_lt (by omega)
    rw [hcap64]
    exact hle
  have hms : (((k.acc + d) / divisor).setWidth 32).toNat = (k.acc + d).toNat / divisor.toNat := by
    rw [BitVec.toNat_setWidth, hquot]
    exact Nat.mod_eq_of_lt (by omega)
  refine ⟨⟨k.ms + (k.acc + d).toNat / divisor.toNat, (k.acc + d) % divisor⟩, ?_, ?_, ?_⟩
  · simp only [step, endoscopeCredit, if_neg hdiv, if_pos hmin]
    rw [← hms]
    rfl
  · show ((k.acc + d) % divisor).toNat < divisor.toNat
    rw [BitVec.toNat_umod]
    exact Nat.mod_lt _ hpos
  · show (k.ms + (k.acc + d).toNat / divisor.toNat) * divisor.toNat +
      ((k.acc + d) % divisor).toNat + _ = _
    have hsplit := Nat.div_add_mod (k.acc + d).toNat divisor.toNat
    have hwrap := Nat.div_add_mod (k.acc.toNat + d.toNat) (2 ^ 64)
    rw [BitVec.toNat_umod, Nat.add_mul, Nat.mul_comm (_ / _) divisor.toNat]
    omega

/-- A run below the cap accounts for its cycles, less the range of the accumulator for each sum
that does not fit. -/
theorem creditRun_balance (hdiv : divisor ≠ 0) {ds : List (BitVec 64)} {k : Credit}
    (hk : k.acc.toNat < divisor.toNat)
    (hcap : Runs.Along (step divisor cap) (Uncapped divisor cap) ds k) :
    ∃ k' wraps, Runs.run (step divisor cap) ds k = some k' ∧ k'.acc.toNat < divisor.toNat ∧
      k'.ms * divisor.toNat + k'.acc.toNat + 2 ^ 64 * wraps =
        k.ms * divisor.toNat + k.acc.toNat + cycles ds ∧
      (wraps = 0 ↔ Runs.Along (step divisor cap) SumFits ds k) := by
  induction ds generalizing k with
  | nil => exact ⟨k, 0, rfl, hk, rfl, iff_of_true rfl trivial⟩
  | cons d ds ih =>
      obtain ⟨k₁, hstep, hk₁, hbal₁⟩ := step_eq hdiv hcap.1
      obtain ⟨k', wraps, hrun, hk', hbal, hfits⟩ := ih hk₁ (hcap.2 k₁ hstep)
      refine ⟨k', (k.acc.toNat + d.toNat) / 2 ^ 64 + wraps, ?_, hk', ?_, ?_⟩
      · exact Runs.run_cons_eq_some.mpr ⟨k₁, hstep, hrun⟩
      · have hcons : cycles (d :: ds) = d.toNat + cycles ds := by
          rw [cycles, List.map_cons, List.sum_cons]
          rfl
        rw [hcons, Nat.mul_add]
        omega
      · -- no sum wraps if and only if this one fits and no later one wraps
        rw [Nat.add_eq_zero_iff, hfits, Nat.div_eq_zero_iff_lt (by decide)]
        refine and_congr_right fun _ => ⟨fun h k₂ hk₂ => ?_, fun h => h k₁ hstep⟩
        rw [hstep] at hk₂
        cases hk₂
        exact h

/-- Below the cap, the credit is exact if and only if every sum fits. -/
theorem exact_iff (hdiv : divisor ≠ 0) {ds : List (BitVec 64)}
    (hcap : Runs.Along (step divisor cap) (Uncapped divisor cap) ds start) :
    Exact divisor cap ds ↔ Runs.Along (step divisor cap) SumFits ds start := by
  have hpos : start.acc.toNat < divisor.toNat := toNat_pos hdiv
  obtain ⟨k, wraps, hrun, hlt, hbal, hfits⟩ := creditRun_balance hdiv hpos hcap
  have hstart : start.ms * divisor.toNat + start.acc.toNat = 0 := by
    rw [start, Nat.zero_mul]
    rfl
  rw [hstart, Nat.zero_add] at hbal
  rw [← hfits]
  constructor
  · rintro ⟨k', hrun', hexact, -⟩
    rw [hrun] at hrun'
    cases hrun'
    omega
  · intro hzero
    refine ⟨k, hrun, ?_, hlt⟩
    omega

/-- Exact credit depends on the cycles alone, not on how the passes split them. -/
theorem Exact.split {ds ds' : List (BitVec 64)} (h : Exact divisor cap ds)
    (h' : Exact divisor cap ds') (hsum : cycles ds = cycles ds') :
    Runs.run (step divisor cap) ds start = Runs.run (step divisor cap) ds' start := by
  obtain ⟨⟨ms, acc⟩, hrun, hbal, hlt⟩ := h
  obtain ⟨⟨ms', acc'⟩, hrun', hbal', hlt'⟩ := h'
  -- quotient and remainder are unique
  have hquot : ∀ m (a : BitVec 64), m * divisor.toNat + a.toNat = cycles ds →
      a.toNat < divisor.toNat → m = cycles ds / divisor.toNat ∧
        a.toNat = cycles ds % divisor.toNat := by
    intro m a hbal hlt
    have hpos : 0 < divisor.toNat := Nat.lt_of_le_of_lt (Nat.zero_le _) hlt
    rw [← hbal, Nat.mul_comm, Nat.mul_add_div hpos, Nat.div_eq_of_lt hlt, Nat.mul_add_mod,
      Nat.mod_eq_of_lt hlt]
    exact ⟨rfl, rfl⟩
  obtain ⟨hms, hacc⟩ := hquot ms acc hbal hlt
  obtain ⟨hms', hacc'⟩ := hquot ms' acc' (hbal'.trans hsum.symm) hlt'
  rw [hrun, hrun', hms, hms', BitVec.eq_of_toNat_eq (hacc.trans hacc'.symm)]

/-- A divisor of 32 bits leaves room: below the cap every sum fits. -/
theorem sumFits_of_lt (hdiv : divisor ≠ 0) (hsmall : divisor.toNat < 2 ^ 32)
    {ds : List (BitVec 64)} {k : Credit}
    (hcap : Runs.Along (step divisor cap) (Uncapped divisor cap) ds k) :
    Runs.Along (step divisor cap) SumFits ds k := by
  apply hcap.mono
  intro k d hle
  have hpos : 0 < divisor.toNat := toNat_pos hdiv
  have hlt : k.acc.toNat + d.toNat < (cap.toNat + 1) * divisor.toNat :=
    (Nat.div_lt_iff_lt_mul hpos).mp (Nat.lt_succ_of_le hle)
  -- both factors have 32 bits
  have hmul : (cap.toNat + 1) * divisor.toNat ≤ 2 ^ 32 * 2 ^ 32 :=
    Nat.mul_le_mul cap.isLt hsmall.le
  exact Nat.lt_of_lt_of_le hlt hmul

end Credit

/-! ## The divisor -/

namespace Core

/-- The divisor is what it is over the integers, and it is not zero. -/
def DivisorSound (c : Core) (spClockKhz : Word) : Prop :=
  (c.endoscopeDivisor spClockKhz).toNat =
      (if 1000 ≤ c.systRvr.toNat then c.systRvr.toNat + 1 else spClockKhz.toNat) ∧
    c.endoscopeDivisor spClockKhz ≠ 0

theorem divisorSound_iff (c : Core) {spClockKhz : Word} (hclock : spClockKhz ≠ 0) :
    c.DivisorSound spClockKhz ↔ c.systRvr ≠ 0xFFFFFFFF := by
  rw [DivisorSound, endoscopeDivisor, tickDivisor]
  by_cases hset : 1000 ≤ c.systRvr
  · have hset' : 1000 ≤ c.systRvr.toNat := hset
    rw [if_pos hset, if_pos hset', Option.getD_some]
    constructor
    · rintro ⟨-, hne⟩ hmax
      rw [hmax] at hne
      exact hne rfl
    · intro hmax
      bv_omega
  · have hset' : ¬ 1000 ≤ c.systRvr.toNat := hset
    rw [if_neg hset, if_neg hset', Option.getD_none]
    have hmax : c.systRvr ≠ 0xFFFFFFFF := by bv_omega
    refine iff_of_true ⟨BitVec.toNat_setWidth_of_le (by decide), ?_⟩ hmax
    bv_omega

variable {ρ : Type} [Mmio ρ] (verifier : Verifier)

/-- A refresh caches the two registers of the system control space. -/
theorem run_refreshSyst_board {b : Bus (SpDevices ρ)} (hb : Board b) {c : Core}
    (hcyc : c.cycles &&& 0xFF = 0) :
    c.refreshSyst.run (Bus.handle verifier) b =
      some ({ c with
          systCsr := b.mmio.scs.read 0x010
          systRvr := if b.mmio.scs.read 0x014 = 0 then 1 else b.mmio.scs.read 0x014 },
        { b with devTouched := true }) := by
  have hcsr := hb.read32_scs (a := Mem.systCsr) (by decide)
  have hb' : Board { b with devTouched := true } := hb.mono ⟨⟨rfl, rfl, rfl, rfl⟩, rfl, rfl⟩
  have hrvr := hb'.read32_scs (a := Mem.systRvr) (by decide)
  have hcsrOff : alignWord (Mem.systCsr - Soc.scsBase) = 0x010 := by decide
  have hrvrOff : alignWord (Mem.systRvr - Soc.scsBase) = 0x014 := by decide
  rw [hcsrOff] at hcsr
  rw [hrvrOff] at hrvr
  rw [refreshSyst, if_pos hcyc]
  show ((b.read32 Mem.systCsr).bind fun r => (r.2.read32 Mem.systRvr).bind _) = _
  rw [hcsr, Option.bind_some, hrvr]
  rfl

/-- What the guest writes to the reload register is in the core after a refresh. -/
theorem refreshSyst_of_write {b : Bus (SpDevices ρ)} (hb : Board b) {c : Core}
    (hcyc : c.cycles &&& 0xFF = 0) (reload : Word) :
    ∃ b' d b'', b.write32 Mem.systRvr reload = some b' ∧
      c.refreshSyst.run (Bus.handle verifier) b' = some (d, b'') ∧
      d.systRvr = if reload = 0 then 1 else reload := by
  have hwrite := hb.write32_scs (a := Mem.systRvr) (by decide) reload
  have hrefresh := run_refreshSyst_board verifier (hb.mono (Bus.sameMap_write32 hwrite)) hcyc
  have hread : (b.mmio.scs.write (alignWord (Mem.systRvr - Soc.scsBase)) reload).read 0x014 =
      reload := Scs.read_write_same _ _ _ (by decide) (by decide)
  refine ⟨_, _, _, hwrite, hrefresh, ?_⟩
  simp only [hread]

/-- The divisor of the core is sound, and passes by `divisor` below the cap credit every cycle. -/
def CreditExact (c : Core) (spClockKhz : Word) (divisor : BitVec 64) (cap : Word)
    (ds : List (BitVec 64)) : Prop :=
  c.DivisorSound spClockKhz ∧
    (divisor ≠ 0 → Runs.Along (Credit.step divisor cap) (Credit.Uncapped divisor cap) ds .start →
      Credit.Exact divisor cap ds)

end Core

/-- The SysTick divisor and the credit are exact if and only if the guest does not write the largest
reload and every sum fits the accumulator, which the sums of a 32-bit divisor do. Exact credit does
not depend on how a run is split into passes. -/
theorem endoscope_credit_iff {ρ : Type} [Mmio ρ] (verifier : Verifier) {b : Bus (SpDevices ρ)}
    (hb : Board b) {c : Core} (hcyc : c.cycles &&& 0xFF = 0) (reload : Word) {spClockKhz : Word}
    (hclock : spClockKhz ≠ 0) :
    ∃ b' d b'', b.write32 systRvr reload = some b' ∧
      c.refreshSyst.run (Bus.handle verifier) b' = some (d, b'') ∧
      ∀ (divisor : BitVec 64) (cap : Word) (ds : List (BitVec 64)),
        (d.CreditExact spClockKhz divisor cap ds ↔ reload ≠ 0xFFFFFFFF ∧
          (divisor ≠ 0 →
            Runs.Along (Credit.step divisor cap) (Credit.Uncapped divisor cap) ds .start →
            Runs.Along (Credit.step divisor cap) Credit.SumFits ds .start)) ∧
        (divisor ≠ 0 → divisor.toNat < 2 ^ 32 →
          Runs.Along (Credit.step divisor cap) (Credit.Uncapped divisor cap) ds .start →
          Runs.Along (Credit.step divisor cap) Credit.SumFits ds .start) ∧
        ∀ ds', Credit.Exact divisor cap ds → Credit.Exact divisor cap ds' →
          Credit.cycles ds = Credit.cycles ds' →
          Runs.run (Credit.step divisor cap) ds .start =
            Runs.run (Credit.step divisor cap) ds' .start := by
  obtain ⟨b', d, b'', hwrite, hrefresh, hrvr⟩ := Core.refreshSyst_of_write verifier hb hcyc reload
  refine ⟨b', d, b'', hwrite, hrefresh, fun divisor cap ds => ⟨?_, ?_, ?_⟩⟩
  · have hreload : d.systRvr ≠ 0xFFFFFFFF ↔ reload ≠ 0xFFFFFFFF := by
      rw [hrvr]
      by_cases hzero : reload = 0
      · rw [if_pos hzero, hzero]
        decide
      · rw [if_neg hzero]
    rw [Core.CreditExact, Core.divisorSound_iff d hclock, hreload]
    refine and_congr_right fun _ => forall_congr' fun hdiv => forall_congr' fun hcap => ?_
    exact Credit.exact_iff hdiv hcap
  · exact fun hdiv hsmall hcap => Credit.sumFits_of_lt hdiv hsmall hcap
  · exact fun ds' h h' hsum => h.split h' hsum

/-- An SP without further devices. -/
def bareBoard : Bus (SpDevices Unit) :=
  (Soc.installPeripherals (Soc.installMemory (Bus.new ⟨Scs.new, ()⟩)) []).installFlash Flash.blank

theorem board_bareBoard : Board bareBoard :=
  Board.of_install ⟨Scs.new, ()⟩ Flash.blank (List.forall_mem_nil _)

/-- A reload of 480 MHz, and two passes of less than a millisecond. -/
theorem endoscope_credit_iff_480 :
    ∃ b' d b'', bareBoard.write32 systRvr 479999 = some b' ∧
      Core.new.refreshSyst.run (Bus.handle Core.noVerifier) b' = some (d, b'') ∧
      d.CreditExact 400000 480000 5000 [400000, 100000] := by
  obtain ⟨b', d, b'', hwrite, hrefresh, hall⟩ := endoscope_credit_iff Core.noVerifier
    board_bareBoard (c := Core.new) (by decide) 479999 (show (400000 : Word) ≠ 0 by decide)
  obtain ⟨hexact, hfits, -⟩ := hall 480000 5000 [400000, 100000]
  exact ⟨b', d, b'', hwrite, hrefresh,
    hexact.mpr ⟨by decide, fun hdiv => hfits hdiv (by decide)⟩⟩

/-- The largest reload makes the divisor wrap to zero. -/
theorem endoscope_divisor_wraps :
    ¬ ∀ (b : Bus (SpDevices Unit)) (reload : Word), Board b →
      ∃ b' d b'', b.write32 systRvr reload = some b' ∧
        Core.new.refreshSyst.run (Bus.handle Core.noVerifier) b' = some (d, b'') ∧
        d.DivisorSound 400000 := by
  intro h
  obtain ⟨b', d, b'', hwrite, hrefresh, hsound⟩ := h bareBoard 0xFFFFFFFF board_bareBoard
  obtain ⟨b₁, d₁, b₂, hwrite₁, hrefresh₁, hrvr⟩ :=
    Core.refreshSyst_of_write Core.noVerifier board_bareBoard (c := Core.new) (by decide) 0xFFFFFFFF
  rw [hwrite] at hwrite₁
  cases hwrite₁
  rw [hrefresh] at hrefresh₁
  cases hrefresh₁
  have hzero : d.endoscopeDivisor 400000 = 0 := by
    rw [Core.endoscopeDivisor, Core.tickDivisor, hrvr]
    decide
  exact hsound.2 hzero

end SpEmu
