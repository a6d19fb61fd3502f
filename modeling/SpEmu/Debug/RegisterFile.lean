import SpEmu.Debug.SaveRestore

/-!
# The register file of a debugger

DCRSR numbers the registers of the core. Some numbers share state: 13, 17 and 18 are two stack
pointers, and 20 packs four registers of which one selects between these. `register_file_laws` says
what a write keeps of its value, which other numbers read differently after it, and when the write
of a value that was read before goes unnoticed.

The bank of the active stack pointer makes the exception there: no number reads it, but MRS does,
and a write of the number of the active stack pointer brings it up to date.
-/

set_option autoImplicit false

namespace SpEmu

open ByteMem

namespace StackRegs

variable {s : StackRegs}

theorem setMsp_main (h : s.onPsp = false → s.msp = s.r13) : s.setMsp s.main = s := by
  obtain ⟨r13, msp, psp, onPsp⟩ := s
  cases onPsp with
  | false =>
      obtain rfl : msp = r13 := h rfl
      rfl
  | true => rfl

theorem setPsp_process (h : s.onPsp = true → s.psp = s.r13) : s.setPsp s.process = s := by
  obtain ⟨r13, msp, psp, onPsp⟩ := s
  cases onPsp with
  | false => rfl
  | true =>
      obtain rfl : psp = r13 := h rfl
      rfl

end StackRegs

namespace Core

/-! ## The numbers -/

/-- The numbers of the registers. -/
def Modelled (n : Nat) : Prop := n ≤ 18 ∨ n = 20 ∨ n = 33 ∨ (64 ≤ n ∧ n ≤ 95)

instance (n : Nat) : Decidable (Modelled n) :=
  inferInstanceAs (Decidable (n ≤ 18 ∨ n = 20 ∨ n = 33 ∨ (64 ≤ n ∧ n ≤ 95)))

/-- What a register keeps of a value: PC all but bit 0; PSR the flags and the exception number, with
Thumb set; CONTROL three bits, FAULTMASK one, BASEPRI eight, PRIMASK one. -/
def modelledBits (n : Nat) (v : Word) : Word :=
  if n = 15 then v &&& ~~~1
  else if n = 16 then (v &&& 0xF80001FF) ||| ((1 : Word) <<< 24)
  else if n = 20 then v &&& 0x0701FF01
  else v

variable (c : Core)

/-- Numbers that share the active stack pointer: r13 and the number of its bank. CONTROL may make
the other stack pointer the active one. -/
def Aliases (n k : Nat) : Prop :=
  (n = 13 ∧ k = c.stack.activeBank) ∨ (k = 13 ∧ (n = c.stack.activeBank ∨ n = 20))

instance (n k : Nat) : Decidable (c.Aliases n k) :=
  inferInstanceAs (Decidable
    ((n = 13 ∧ k = c.stack.activeBank) ∨ (k = 13 ∧ (n = c.stack.activeBank ∨ n = 20))))

instance : Decidable c.SelectsStack :=
  inferInstanceAs (Decidable (c.spIsPsp = true ↔ c.mode = .thread ∧ bitSet c.control 1 = true))

/-- The core without the registers that have a number. -/
def unnumbered : Core :=
  { c with
    r := fun i => if i = 15 then c.r i else 0
    pc := 0, n := false, z := false, c := false, v := false, q := false, ipsr := 0
    msp := 0, psp := 0, primask := false, basepri := 0, faultmask := false, control := 0
    fpscr := 0, s := fun _ => 0 }

/-- The two cores cannot be told apart by a debugger, by MRS, or by what has no number. -/
structure Unobserved (c d : Core) : Prop where
  debugger : ∀ n, d.gdbReg n = c.gdbReg n
  mrs : ∀ sysm, d.readSpecial sysm = c.readSpecial sysm
  rest : d.unnumbered = c.unnumbered

theorem Unobserved.refl : Unobserved c c := ⟨fun _ => rfl, fun _ => rfl, rfl⟩

/-- Register `n` holds modelled bits only, and where it is the active stack pointer, its bank agrees
with r13. -/
structure Settled (n : Nat) : Prop where
  pc : n = 15 → c.pc &&& ~~~1 = c.pc
  psr : n = 16 → c.ipsr < 512
  msp : n = 17 → c.spIsPsp = false → c.msp = c.r sp
  psp : n = 18 → c.spIsPsp = true → c.psp = c.r sp
  special : n = 20 → c.basepri.toNat < 2 ^ 8 ∧ c.control < 8

/-! ## The value that was written -/

/-- The stack pointers after a write. -/
theorem stack_setGdbReg (n : Nat) (v : Word) :
    (c.setGdbReg n v).stack =
      if n = 13 then { c.stack with r13 := v }
      else if n = 17 then c.stack.setMsp v
      else if n = 18 then c.stack.setPsp v
      else if n = 20 then c.stack.select (c.selects (v >>> 24))
      else c.stack := by
  by_cases h13 : n = 13
  · subst h13
    show (c.setR sp v).stack = { c.stack with r13 := v }
    rw [stack, setR_same]
    rfl
  by_cases h17 : n = 17
  · subst h17
    show (c.setMsp v).stack = c.stack.setMsp v
    rw [setMsp_eq, stack_withStack]
  by_cases h18 : n = 18
  · subst h18
    show (c.setPsp v).stack = c.stack.setPsp v
    rw [setPsp_eq, stack_withStack]
  by_cases h20 : n = 20
  · subst h20
    show (Core.setControl _ (v >>> 24)).stack = c.stack.select (c.selects (v >>> 24))
    exact stack_setControl ..
  rw [if_neg h13, if_neg h17, if_neg h18, if_neg h20]
  refine (c.writtenAt_setGdbReg n v).stack ?_
  simp only [List.mem_cons, List.not_mem_nil, or_false, not_or]
  exact ⟨h13, h17, h18, h20⟩

theorem gdbReg_main : c.gdbReg 17 = c.stack.main := rfl

theorem gdbReg_process : c.gdbReg 18 = c.stack.process := rfl

theorem gdbReg_r13 : c.gdbReg 13 = c.stack.r13 := rfl

/-- The status word of a written one. -/
theorem xpsr_written (v : Word) :
    ({ c.setXpsrFlags v with ipsr := v &&& 0x1ff } : Core).xpsr =
      (v &&& 0xF80001FF) ||| ((1 : Word) <<< 24) := by
  rw [xpsr, apsr, setXpsrFlags]
  dsimp only
  rw [bitSet_eq _ (by decide), bitSet_eq _ (by decide), bitSet_eq _ (by decide),
    bitSet_eq _ (by decide), bitSet_eq _ (by decide)]
  apply BitVec.eq_of_getElem_eq
  intro i hi
  interval_cases i <;> simp

/-- The packed word of a written one. -/
theorem special_written (v : Word) :
    flagBit (bitSet v 0) 0 ||| (((v >>> 8) &&& 0xff) <<< 8) ||| flagBit (bitSet v 16) 16 |||
      (((v >>> 24) &&& 0x7) <<< 24) = v &&& 0x0701FF01 := by
  rw [bitSet_eq _ (by decide), bitSet_eq _ (by decide)]
  apply BitVec.eq_of_getElem_eq
  intro i hi
  interval_cases i <;> simp

theorem gdbReg_setGdbReg {n : Nat} (hn : Modelled n) (v : Word) :
    (c.setGdbReg n v).gdbReg n = modelledBits n v := by
  by_cases hlow : n ≤ 14
  · have hkeep : modelledBits n v = v := by
      rw [modelledBits, if_neg (by omega), if_neg (by omega), if_neg (by omega)]
    rw [hkeep, setGdbReg, gdbReg, dif_pos hlow, dif_pos hlow, setR_same]
  by_cases h15 : n = 15
  · subst h15
    rfl
  by_cases h16 : n = 16
  · subst h16
    exact c.xpsr_written v
  by_cases h17 : n = 17
  · subst h17
    rw [gdbReg_main, stack_setGdbReg]
    show (c.stack.setMsp v).main = v
    rw [StackRegs.setMsp, StackRegs.main]
    split <;> rfl
  by_cases h18 : n = 18
  · subst h18
    rw [gdbReg_process, stack_setGdbReg]
    show (c.stack.setPsp v).process = v
    rw [StackRegs.setPsp, StackRegs.process]
    split <;> rfl
  by_cases h20 : n = 20
  · subst h20
    show (Core.setControl _ (v >>> 24)).gdbReg 20 = v &&& 0x0701FF01
    rw [setControl_eq, ← special_written]
    rfl
  by_cases h33 : n = 33
  · subst h33
    rfl
  · have hs : 64 ≤ n ∧ n ≤ 95 := by
      rcases hn with h | h | h | h
      · omega
      · exact absurd h h20
      · exact absurd h h33
      · exact h
    rw [modelledBits, if_neg h15, if_neg h16, if_neg h20, setGdbReg, dif_neg hlow, if_neg h15,
      if_neg h16, if_neg h17, if_neg h18, if_neg h20, if_neg h33, dif_pos hs, gdbReg, dif_neg hlow,
      if_neg h15, if_neg h16, if_neg h17, if_neg h18, if_neg h20, if_neg h33, dif_pos hs]
    exact Function.update_self ..

/-! ## The other numbers -/

theorem r13_setGdbReg {n : Nat} (hn : n ≠ 13) (hbank : n ≠ c.stack.activeBank) (h20 : n ≠ 20)
    (v : Word) : (c.setGdbReg n v).stack.r13 = c.stack.r13 := by
  rw [stack_setGdbReg, if_neg hn]
  rw [StackRegs.activeBank] at hbank
  by_cases h17 : n = 17
  · rw [if_pos h17, StackRegs.setMsp]
    cases hon : c.stack.onPsp with
    | false => rw [hon, h17] at hbank; exact absurd rfl hbank
    | true => rfl
  by_cases h18 : n = 18
  · rw [if_neg h17, if_pos h18, StackRegs.setPsp]
    cases hon : c.stack.onPsp with
    | false => rfl
    | true => rw [hon, h18] at hbank; exact absurd rfl hbank
  rw [if_neg h17, if_neg h18, if_neg h20]

/-- The main stack pointer changes with its own number, and with r13 while it is the active one; a
switch leaves it alone. -/
theorem main_setGdbReg {n : Nat} (hn : n ≠ 17) (halias : ¬ (n = 13 ∧ c.stack.activeBank = 17))
    (v : Word) : (c.setGdbReg n v).stack.main = c.stack.main := by
  rw [stack_setGdbReg]
  rw [StackRegs.activeBank] at halias
  by_cases h13 : n = 13
  · rw [if_pos h13, StackRegs.main, StackRegs.main]
    cases hon : c.stack.onPsp with
    | false => rw [hon] at halias; exact absurd ⟨h13, rfl⟩ halias
    | true => rfl
  by_cases h18 : n = 18
  · rw [if_neg h13, if_neg hn, if_pos h18, StackRegs.setPsp, StackRegs.main, StackRegs.main]
    cases hon : c.stack.onPsp <;> rfl
  by_cases h20 : n = 20
  · rw [if_neg h13, if_neg hn, if_neg h18, if_pos h20, StackRegs.select]
    cases hon : c.stack.onPsp <;> cases c.selects (v >>> 24) <;>
      simp [StackRegs.main, hon]
  rw [if_neg h13, if_neg hn, if_neg h18, if_neg h20]

theorem process_setGdbReg {n : Nat} (hn : n ≠ 18)
    (halias : ¬ (n = 13 ∧ c.stack.activeBank = 18)) (v : Word) :
    (c.setGdbReg n v).stack.process = c.stack.process := by
  rw [stack_setGdbReg]
  rw [StackRegs.activeBank] at halias
  by_cases h13 : n = 13
  · rw [if_pos h13, StackRegs.process, StackRegs.process]
    cases hon : c.stack.onPsp with
    | false => rfl
    | true => rw [hon] at halias; exact absurd ⟨h13, rfl⟩ halias
  by_cases h17 : n = 17
  · rw [if_neg h13, if_pos h17, StackRegs.setMsp, StackRegs.process, StackRegs.process]
    cases hon : c.stack.onPsp <;> rfl
  by_cases h20 : n = 20
  · rw [if_neg h13, if_neg h17, if_neg hn, if_pos h20, StackRegs.select]
    cases hon : c.stack.onPsp <;> cases c.selects (v >>> 24) <;>
      simp [StackRegs.process, hon]
  rw [if_neg h13, if_neg h17, if_neg hn, if_neg h20]

/-- A write changes what the other numbers read only where they share a stack pointer. -/
theorem gdbReg_setGdbReg_of_ne {n k : Nat} (hk : k ≠ n) (halias : ¬ c.Aliases n k) (v : Word) :
    (c.setGdbReg n v).gdbReg k = c.gdbReg k := by
  have hw := c.writtenAt_setGdbReg n v
  rw [Aliases, not_or] at halias
  by_cases h13 : k = 13
  · subst h13
    rw [gdbReg_r13, gdbReg_r13]
    exact c.r13_setGdbReg (Ne.symm hk) (fun h => halias.2 ⟨rfl, Or.inl h⟩)
      (fun h => halias.2 ⟨rfl, Or.inr h⟩) v
  by_cases hlow : k ≤ 14
  · rw [gdbReg, gdbReg, dif_pos hlow, dif_pos hlow]
    exact hw.r ⟨k, by omega⟩ (fun h => h13 (congrArg Fin.val h)) (Ne.symm hk)
  by_cases h15 : k = 15
  · subst h15
    exact hw.pc (Ne.symm hk)
  by_cases h16 : k = 16
  · subst h16
    have hstatus := hw.status (Ne.symm hk)
    simp only [Prod.mk.injEq] at hstatus
    obtain ⟨hn, hz, hc, hv, hq, hipsr⟩ := hstatus
    show (c.setGdbReg n v).xpsr = c.xpsr
    rw [xpsr, xpsr, apsr, apsr, hn, hz, hc, hv, hq, hipsr]
  by_cases h17 : k = 17
  · subst h17
    rw [gdbReg_main, gdbReg_main]
    exact c.main_setGdbReg (Ne.symm hk) (fun h => halias.1 ⟨h.1, h.2.symm⟩) v
  by_cases h18 : k = 18
  · subst h18
    rw [gdbReg_process, gdbReg_process]
    exact c.process_setGdbReg (Ne.symm hk) (fun h => halias.1 ⟨h.1, h.2.symm⟩) v
  by_cases h20 : k = 20
  · subst h20
    have hspecial := hw.special (Ne.symm hk)
    simp only [Prod.mk.injEq] at hspecial
    obtain ⟨hprimask, hbasepri, hfaultmask, hcontrol⟩ := hspecial
    show (c.setGdbReg n v).specialWord = c.specialWord
    rw [specialWord, specialWord, hprimask, hbasepri, hfaultmask, hcontrol]
  by_cases h33 : k = 33
  · subst h33
    exact hw.fpscr (Ne.symm hk)
  rw [gdbReg, gdbReg, dif_neg hlow, dif_neg hlow, if_neg h15, if_neg h15, if_neg h16, if_neg h16,
    if_neg h17, if_neg h17, if_neg h18, if_neg h18, if_neg h20, if_neg h20, if_neg h33, if_neg h33]
  split
  · next hs => exact hw.s ⟨k - 64, by omega⟩ (by dsimp only; omega)
  · rfl

/-! ## Writing back what was read -/

theorem withStack_stack : c.withStack c.stack = c := by
  rw [withStack, stack, setR_self]

variable {c}

/-- The packed word does not hold what is above the modelled bits. -/
theorem special_settled (hsel : c.SelectsStack) (hbasepri : c.basepri.toNat < 2 ^ 8)
    (hcontrol : c.control < 8) :
    (bitSet c.specialWord 0, (c.specialWord >>> 8) &&& 0xff, bitSet c.specialWord 16,
      (c.specialWord >>> 24) &&& 0x7) = (c.primask, c.basepri, c.faultmask, c.control) := by
  have hspsel : c.spIsPsp = (c.mode == .thread && bitSet c.control 1) := by
    rw [Bool.eq_iff_iff, Bool.and_eq_true, beq_iff_eq]
    exact hsel
  have hipsr : (0 : Word) < 512 := by decide
  -- IPSR is no part of the packed word
  have hregular : Regular { c with ipsr := 0 } := ⟨⟨hcontrol, hipsr, hspsel⟩, hbasepri⟩
  have hword := special_specialWord hregular
  exact hword

theorem setGdbReg_gdbReg (hsel : c.SelectsStack) {n : Nat} (h : c.Settled n) :
    c.setGdbReg n (c.gdbReg n) = c := by
  by_cases hlow : n ≤ 14
  · rw [setGdbReg, gdbReg, dif_pos hlow, dif_pos hlow, setR_self]
  by_cases h15 : n = 15
  · subst h15
    show { c with pc := c.pc &&& ~~~1 } = c
    rw [h.pc rfl]
  by_cases h16 : n = 16
  · subst h16
    have hstatus := status_xpsr (h.psr rfl)
    simp only [Prod.mk.injEq] at hstatus
    obtain ⟨hn, hz, hc, hv, hq, hipsr⟩ := hstatus
    show { c.setXpsrFlags c.xpsr with ipsr := c.xpsr &&& 0x1ff } = c
    rw [setXpsrFlags, hn, hz, hc, hv, hq, hipsr]
  by_cases h17 : n = 17
  · subst h17
    show c.setMsp c.stack.main = c
    rw [setMsp_eq, StackRegs.setMsp_main (h.msp rfl), withStack_stack]
  by_cases h18 : n = 18
  · subst h18
    show c.setPsp c.stack.process = c
    rw [setPsp_eq, StackRegs.setPsp_process (h.psp rfl), withStack_stack]
  by_cases h20 : n = 20
  · subst h20
    obtain ⟨hbasepri, hcontrol⟩ := h.special rfl
    have hword := special_settled hsel hbasepri hcontrol
    simp only [Prod.mk.injEq] at hword
    obtain ⟨hpri, hbase, hfault, hctl⟩ := hword
    show Core.setControl { c with
      primask := bitSet c.specialWord 0
      basepri := (c.specialWord >>> 8) &&& 0xff
      faultmask := bitSet c.specialWord 16 } (c.specialWord >>> 24) = c
    rw [hpri, hbase, hfault]
    have hsame : c.spIsPsp = c.selects (c.specialWord >>> 24) := by
      rw [selects, hctl, Bool.eq_iff_iff, Bool.and_eq_true, beq_iff_eq]
      exact hsel
    show c.setControl (c.specialWord >>> 24) = c
    rw [setControl_of_same hsame, hctl]
  by_cases h33 : n = 33
  · subst h33
    rfl
  rw [setGdbReg, gdbReg, dif_neg hlow, dif_neg hlow, if_neg h15, if_neg h15, if_neg h16, if_neg h16,
    if_neg h17, if_neg h17, if_neg h18, if_neg h18, if_neg h20, if_neg h20, if_neg h33, if_neg h33]
  split
  · rw [Function.update_eq_self]
  · rfl

/-- MRS and the debugger see what a write-back changes. -/
theorem Unobserved.settled {n : Nat} (h : c.Unobserved (c.setGdbReg n (c.gdbReg n))) :
    c.Settled n := by
  refine ⟨?_, ?_, ?_, ?_, ?_⟩
  · rintro rfl
    exact h.debugger 15
  · rintro rfl
    have hipsr : c.xpsr &&& 0x1ff = c.ipsr := h.mrs 5
    have hle : (c.xpsr &&& 0x1ff).toNat ≤ 511 := by
      rw [BitVec.toNat_and]
      exact Nat.and_le_right
    rw [hipsr] at hle
    exact Nat.lt_succ_of_le hle
  · rintro rfl hpsp
    have hmsp : (c.setMsp c.stack.main).msp = c.msp := h.mrs 8
    have hmain : c.stack.main = c.r sp := if_neg (by rw [stack, hpsp]; exact Bool.false_ne_true)
    rw [setMsp_eq, hmain] at hmsp
    exact hmsp.symm
  · rintro rfl hpsp
    have hpspReg : (c.setPsp c.stack.process).psp = c.psp := h.mrs 9
    have hprocess : c.stack.process = c.r sp := if_pos hpsp
    rw [setPsp_eq, hprocess] at hpspReg
    exact hpspReg.symm
  · rintro rfl
    have hbase : (c.setGdbReg 20 c.specialWord).basepri = c.basepri := h.mrs 17
    have hctl : (c.setGdbReg 20 c.specialWord).control = c.control := h.mrs 20
    have hset : c.setGdbReg 20 c.specialWord = Core.setControl { c with
        primask := bitSet c.specialWord 0
        basepri := (c.specialWord >>> 8) &&& 0xff
        faultmask := bitSet c.specialWord 16 } (c.specialWord >>> 24) := rfl
    rw [hset, setControl_eq] at hbase hctl
    constructor
    · rw [← hbase]
      show ((c.specialWord >>> 8) &&& 0xff).toNat < 2 ^ 8
      rw [BitVec.toNat_and]
      exact Nat.lt_succ_of_le Nat.and_le_right
    · rw [← hctl]
      show ((c.specialWord >>> 24) &&& 0x7).toNat < 8
      rw [BitVec.toNat_and]
      exact Nat.lt_succ_of_le Nat.and_le_right

theorem unobserved_iff (hsel : c.SelectsStack) (n : Nat) :
    c.Unobserved (c.setGdbReg n (c.gdbReg n)) ↔ c.Settled n := by
  refine ⟨Unobserved.settled, fun h => ?_⟩
  rw [setGdbReg_gdbReg hsel h]
  exact .refl c

end Core

/-- A write of a numbered register reads back as its modelled bits. It changes no other number but
r13 and the active stack pointer, which stay equal. Writing back what was read goes unnoticed
exactly if the register holds modelled bits only and, for the active stack pointer, its bank agrees
with r13. -/
theorem register_file_laws {c : Core} (hsel : c.SelectsStack) {n : Nat} (hn : Core.Modelled n) :
    (∀ v, (c.setGdbReg n v).gdbReg n = Core.modelledBits n v ∧
      (∀ k, k ≠ n → ¬ c.Aliases n k → (c.setGdbReg n v).gdbReg k = c.gdbReg k) ∧
      (c.setGdbReg n v).gdbReg 13 =
        (c.setGdbReg n v).gdbReg (c.setGdbReg n v).stack.activeBank) ∧
      (c.Unobserved (c.setGdbReg n (c.gdbReg n)) ↔ c.Settled n) := by
  refine ⟨fun v => ⟨c.gdbReg_setGdbReg hn v, fun k hk halias => ?_, ?_⟩,
    Core.unobserved_iff hsel n⟩
  · exact c.gdbReg_setGdbReg_of_ne hk halias v
  · rw [Core.gdbReg_r13, StackRegs.activeBank]
    cases hon : (c.setGdbReg n v).stack.onPsp with
    | false =>
        rw [if_neg Bool.false_ne_true, Core.gdbReg_main, StackRegs.main, hon]
        rfl
    | true =>
        rw [if_pos rfl, Core.gdbReg_process, StackRegs.process, hon]
        rfl

/-- A debugger that selects the process stack: r13 becomes the process stack pointer. -/
theorem register_file_laws_switch :
    let c := (Core.new.setGdbReg 17 0x20000800).setGdbReg 18 0x20001000
    (c.setGdbReg 20 0x02000000).gdbReg 20 = Core.modelledBits 20 0x02000000 ∧
      (c.setGdbReg 20 0x02000000).gdbReg 13 = 0x20001000 ∧
      (c.setGdbReg 20 0x02000000).gdbReg 17 = 0x20000800 ∧
      c.Unobserved (c.setGdbReg 20 (c.gdbReg 20)) := by
  intro c
  have hsel : c.SelectsStack := by decide
  obtain ⟨hwrite, hback⟩ := register_file_laws hsel (show Core.Modelled 20 by decide)
  obtain ⟨hread, hframe, hr13⟩ := hwrite 0x02000000
  have halias : ¬ c.Aliases 20 17 := by decide
  refine ⟨hread, hr13.trans (by decide), ?_, ?_⟩
  · exact (hframe 17 (by decide) halias).trans (by decide)
  · exact hback.mpr ⟨nofun, nofun, nofun, nofun, fun _ => ⟨by decide, by decide⟩⟩

/-- After a push, writing the main stack pointer back changes what MRS reads. -/
theorem write_back_observed :
    ∃ c : Core, CoreRun.Reachable (δ := Unit) nopIsa Core.noVerifier c ∧ c.SelectsStack ∧
      c.readSpecial 8 = 0x20000800 ∧
      (c.setGdbReg 17 (c.gdbReg 17)).readSpecial 8 = 0x200007FC ∧
      ¬ c.Unobserved (c.setGdbReg 17 (c.gdbReg 17)) := by
  have hpush : (Runs.run (CoreRun.step nopIsa Core.noVerifier) [.step]
      (CoreRun.boot 0x20000800 0x08000000 pushCache Core.stackBus)).map (fun m =>
        (decide (m.core.SelectsStack), m.core.readSpecial 8,
          (m.core.setGdbReg 17 (m.core.gdbReg 17)).readSpecial 8)) =
      some (true, 0x20000800, 0x200007FC) := by decide +kernel
  obtain ⟨m, hm, heq⟩ := Option.map_eq_some_iff.mp hpush
  simp only [Prod.mk.injEq, decide_eq_true_eq] at heq
  obtain ⟨hsel, hbefore, hafter⟩ := heq
  refine ⟨m.core, ⟨_, _, _, _, _, m, hm, rfl⟩, hsel, hbefore, hafter, fun h => ?_⟩
  have hsame := h.mrs 8
  rw [hafter, hbefore] at hsame
  exact absurd hsame (by decide)

end SpEmu
