import SpEmu.Cpu.Frames
import SpEmu.Cpu.StatusWord
import SpEmu.Cpu.Interrupts

/-!
# What an exception gives back

`Sane` is what every core state satisfies between operations: CONTROL and IPSR within their
fields, and the process stack active exactly in Thread mode with SPSEL set. From a sane core,
unstacking the frame that entry stacked restores the context; `restored_frame` is that round
trip for any EXC_RETURN that entry produces.

`exception_transparent_iff` states it for an exception taken in Thread mode and a handler of
which only the effect is known. A return takes MSP from its bank, which entry sets and which
no push, pop or nested return after a push keeps up to date: the context comes back exactly
when the bank agrees with r13 at the return.
-/

set_option autoImplicit false

namespace SpEmu

open ByteMem Mem

namespace Core

/-- CONTROL and IPSR within their fields, and SPSEL in force exactly in Thread mode. -/
structure Sane (c : Core) : Prop where
  control : c.control < 8
  ipsr : c.ipsr < 512
  spsel : c.spIsPsp = (c.mode == .thread && bitSet c.control 1)

variable {c e h f : Core}

theorem sane_new : new.Sane := ⟨by decide, by decide, rfl⟩

theorem and_lt {x : Word} {m : Nat} (k : Word) (hk : k.toNat < m) : (x &&& k).toNat < m := by
  rw [BitVec.toNat_and]
  exact Nat.lt_of_le_of_lt Nat.and_le_right hk

theorem Sane.setR (hc : c.Sane) (i : Fin 16) (v : Word) : (c.setR i v).Sane :=
  ⟨hc.control, hc.ipsr, hc.spsel⟩

theorem Sane.setControl (hc : c.Sane) (v : Word) : (c.setControl v).Sane := by
  have hlt : v &&& 7 < 8 := and_lt 7 (by decide)
  rw [Core.setControl]
  dsimp only
  split
  · next hsame => exact ⟨hlt, hc.ipsr, hsame⟩
  · split
    · exact ⟨hlt, hc.ipsr, rfl⟩
    · exact ⟨hlt, hc.ipsr, rfl⟩

theorem Sane.setMsp (hc : c.Sane) (v : Word) : (c.setMsp v).Sane := by
  rw [Core.setMsp]
  dsimp only
  split
  · exact ⟨hc.control, hc.ipsr, hc.spsel⟩
  · exact ⟨hc.control, hc.ipsr, hc.spsel⟩

theorem Sane.setPsp (hc : c.Sane) (v : Word) : (c.setPsp v).Sane := by
  rw [Core.setPsp]
  dsimp only
  split
  · exact ⟨hc.control, hc.ipsr, hc.spsel⟩
  · exact ⟨hc.control, hc.ipsr, hc.spsel⟩

/-- MSR keeps the core sane. -/
theorem Sane.writeSpecial (hc : c.Sane) (sysm : Byte) (v : Word) :
    (c.writeSpecial sysm v).Sane := by
  rw [Core.writeSpecial]
  split
  · exact ⟨hc.control, hc.ipsr, hc.spsel⟩
  · exact ⟨hc.control, hc.ipsr, hc.spsel⟩
  · exact ⟨hc.control, hc.ipsr, hc.spsel⟩
  · exact ⟨hc.control, hc.ipsr, hc.spsel⟩
  · exact hc.setMsp v
  · exact hc.setPsp v
  · exact ⟨hc.control, hc.ipsr, hc.spsel⟩
  · exact ⟨hc.control, hc.ipsr, hc.spsel⟩
  · exact ⟨hc.control, hc.ipsr, hc.spsel⟩
  · exact ⟨hc.control, hc.ipsr, hc.spsel⟩
  · exact hc.setControl v
  · exact hc

/-- A register write of a debugger keeps the core sane. -/
theorem Sane.setGdbReg (hc : c.Sane) (n : Nat) (v : Word) : (c.setGdbReg n v).Sane := by
  rw [Core.setGdbReg]
  split
  · exact hc.setR _ v
  split
  · exact ⟨hc.control, hc.ipsr, hc.spsel⟩
  split
  · exact ⟨hc.control, and_lt 0x1ff (by decide), hc.spsel⟩
  split
  · exact hc.setMsp v
  split
  · exact hc.setPsp v
  split
  · refine Sane.setControl ?_ _
    exact ⟨hc.control, hc.ipsr, hc.spsel⟩
  split
  · exact ⟨hc.control, hc.ipsr, hc.spsel⟩
  split
  · exact ⟨hc.control, hc.ipsr, hc.spsel⟩
  · exact hc

/-- So does entry to one of the 512 exceptions. -/
theorem Sane.enterHandler (hc : c.Sane) {vecnum : Word} (hvec : vecnum < 512) :
    (c.enterHandler vecnum).Sane := ⟨hc.control, hvec, rfl⟩

/-- And a return, whatever it unstacks. -/
theorem Sane.leaveHandler (hc : c.Sane) (exc top : Word) : (c.leaveHandler exc top).Sane := by
  have hkeep : ∀ {x : Word} {n : Nat}, x.toNat < n → ∀ k : Word, (x &&& k).toNat < n := by
    intro x n hx k
    rw [BitVec.toNat_and]
    exact Nat.lt_of_le_of_lt Nat.and_le_left hx
  have hor : ∀ {x : Word} (k : Word), x.toNat < 2 ^ 3 → k.toNat < 2 ^ 3 →
      (x ||| k).toNat < 2 ^ 3 := by
    intro x k hx hk
    rw [BitVec.toNat_or]
    exact Nat.or_lt_two_pow hx hk
  have hfpca : ∀ b : Bool, (if b then c.control ||| 4 else c.control &&& ~~~4).toNat < 2 ^ 3 := by
    intro b
    cases b with
    | true => exact hor 4 hc.control (by decide)
    | false => exact hkeep hc.control _
  refine ⟨?_, hc.ipsr, ?_⟩
  · show (c.returnControl exc).toNat < 2 ^ 3
    rw [returnControl]
    split
    · split
      · exact hor 2 (hfpca _) (by decide)
      · exact hkeep (hfpca _) _
    · exact hfpca _
  · rfl

theorem sane_resetForReboot (c : Core) (sp pc : Word) : (c.resetForReboot sp pc).Sane :=
  ⟨by show (0 : Word) < 8; decide, by show (0 : Word) < 512; decide,
    by show false = (Mode.thread == Mode.thread && bitSet 0 1); decide⟩

/-! ## EXC_RETURN -/

theorem returnPsp_excReturn (c : Core) :
    returnPsp c.excReturn = (c.mode == .thread && c.spIsPsp) := by
  rw [excReturn]
  cases c.mode <;> cases c.spIsPsp <;> cases c.fpca <;> rfl

theorem toThread_excReturn (c : Core) : toThread c.excReturn = (c.mode == .thread) := by
  rw [excReturn]
  cases c.mode <;> cases c.spIsPsp <;> cases c.fpca <;> rfl

theorem extended_excReturn (c : Core) : extended c.excReturn = c.fpca := by
  rw [excReturn]
  cases c.mode <;> cases c.spIsPsp <;> cases c.fpca <;> rfl

/-- EXC_RETURN describes a frame of the length that was stacked. -/
theorem frameSize_excReturn (c : Core) : frameSize c.excReturn = 4 * c.frameWords := by
  rw [frameSize, extended_excReturn, frameWords]
  cases c.fpca with
  | true => rfl
  | false => rfl

theorem frameBase_add (c : Core) : c.frameBase + 4 * c.frameWords = c.r sp := by
  rw [frameBase, BitVec.sub_add_cancel]

/-! ## The core after entry -/

theorem enterHandler_sp (c : Core) (vecnum : Word) :
    (c.enterHandler vecnum).r sp = if c.spIsPsp then c.msp else c.frameBase := by
  simp only [enterHandler]
  rw [setR_of_ne _ _ (by decide), setR_same]

theorem enterHandler_lr (c : Core) (vecnum : Word) :
    (c.enterHandler vecnum).r lr = c.excReturn := by
  simp only [enterHandler]
  rw [setR_same]

theorem enterHandler_r (c : Core) (vecnum : Word) {i : Fin 16} (hsp : i ≠ sp) (hlr : i ≠ lr) :
    (c.enterHandler vecnum).r i = c.r i := by
  simp only [enterHandler]
  rw [setR_of_ne _ _ hlr, setR_of_ne _ _ hsp]

/-! ## The core after return -/

section Restored

variable (exc base : Word) (ws fp : List Word) (fpscr : Word)

/-- The active stack pointer is loaded from its bank. -/
theorem restored_sp (c : Core) :
    (c.restored exc base ws fp fpscr).r sp =
      if (c.restored exc base ws fp fpscr).spIsPsp then (c.restored exc base ws fp fpscr).psp
      else (c.restored exc base ws fp fpscr).msp := by
  simp only [restored, leaveHandler]
  rw [setR_same]
  rfl

/-- The bank that EXC_RETURN names ends above the frame, and the other one stays. -/
theorem restored_msp (c : Core) :
    (c.restored exc base ws fp fpscr).msp =
      if returnPsp exc then c.msp else base + frameSize exc := by
  cases hext : extended exc <;> simp only [restored, leaveHandler, hext] <;> rfl

theorem restored_currentMsp (c : Core) :
    (c.restored exc base ws fp fpscr).currentMsp = (c.restored exc base ws fp fpscr).msp := by
  rw [currentMsp, restored_sp]
  cases (c.restored exc base ws fp fpscr).spIsPsp with
  | true => rfl
  | false => rfl

theorem restored_psp (c : Core) :
    (c.restored exc base ws fp fpscr).psp =
      if returnPsp exc then base + frameSize exc else c.psp := by
  cases hext : extended exc <;> simp only [restored, leaveHandler, hext] <;> rfl

theorem restored_mode (c : Core) :
    (c.restored exc base ws fp fpscr).mode = if toThread exc then .thread else .handler := rfl

theorem restored_control (c : Core) :
    (c.restored exc base ws fp fpscr).control = c.returnControl exc := by
  cases hext : extended exc <;> simp only [restored, leaveHandler, hext, returnControl] <;> rfl

theorem restored_spIsPsp (c : Core) :
    (c.restored exc base ws fp fpscr).spIsPsp =
      (toThread exc && bitSet (c.returnControl exc) 1) := by
  have hcontrol := restored_control exc base ws fp fpscr c
  show (returnMode exc == .thread && bitSet (c.restored exc base ws fp fpscr).control 1) = _
  rw [hcontrol, returnMode]
  cases toThread exc <;> rfl

end Restored

/-- The registers that the frame of `c` holds are back in `f`. -/
structure Unstacked (c f : Core) : Prop where
  regs : ∀ i ∈ ([0, 1, 2, 3, 12, 14] : List (Fin 16)), f.r i = c.r i
  pc : f.pc = c.pc &&& ~~~1
  flags : f.n = c.n ∧ f.z = c.z ∧ f.c = c.c ∧ f.v = c.v ∧ f.q = c.q
  itstate : f.itstate = c.itstate
  ipsr : f.ipsr = c.ipsr &&& 0x1ff
  fp : c.fpca = true → (∀ i : Fin 32, i.val < 16 → f.s i = c.s i) ∧ f.fpscr = c.fpscr

theorem getD_lowS (c : Core) {i : Fin 32} (hi : i.val < 16) : c.lowS.getD i.val 0 = c.s i := by
  have hget : c.lowS[i.val]? = some (c.s i) := by
    rw [lowS, List.getElem?_map, List.getElem?_eq_getElem (by simpa using hi)]
    simp
  rw [List.getD_eq_getElem?_getD, hget]
  rfl

/-- Unstacking the frame that entry stacked, from wherever it lies. -/
theorem unstacked_restored (c h : Core) (base : Word) :
    Unstacked c (h.restored c.excReturn base c.basicFrame c.lowS c.fpscr) where
  regs := by
    intro i hi
    simp only [List.mem_cons, List.not_mem_nil, or_false] at hi
    rcases hi with rfl | rfl | rfl | rfl | rfl | rfl <;> rfl
  pc := rfl
  flags := c.flags_buildXpsr
  itstate := c.itstate_buildXpsr
  ipsr := c.ipsr_buildXpsr
  fp := by
    intro hfpca
    have hext : extended c.excReturn = true := (extended_excReturn c).trans hfpca
    constructor
    · intro i hi
      rw [← getD_lowS c hi]
      simp only [restored, leaveHandler, hext]
      exact if_pos hi
    · simp only [restored, leaveHandler, hext]
      rfl

/-- The registers beside the frame are the handler's. -/
theorem restored_r (exc base : Word) (ws fp : List Word) (fpscr : Word) (h : Core) {i : Fin 16}
    (hlo : 4 ≤ i.val) (hhi : i.val ≤ 11) : (h.restored exc base ws fp fpscr).r i = h.r i := by
  have hne : ∀ j : Fin 16, j.val < 4 ∨ 11 < j.val → i ≠ j := by
    rintro j hj rfl
    omega
  cases hext : extended exc <;>
    simp only [restored, leaveHandler, hext, setBasic, setXpsrFlags] <;>
    rw [setR_of_ne _ _ (hne sp (Or.inr (by decide)))] <;>
    simp only [setR_of_ne _ _ (hne _ (Or.inl (by decide : (0 : Fin 16).val < 4))),
      setR_of_ne _ _ (hne _ (Or.inl (by decide : (1 : Fin 16).val < 4))),
      setR_of_ne _ _ (hne _ (Or.inl (by decide : (2 : Fin 16).val < 4))),
      setR_of_ne _ _ (hne _ (Or.inl (by decide : (3 : Fin 16).val < 4))),
      setR_of_ne _ _ (hne 12 (Or.inr (by decide))),
      setR_of_ne _ _ (hne lr (Or.inr (by decide)))] <;>
    rfl

theorem restored_s (exc base : Word) (ws fp : List Word) (fpscr : Word) (h : Core) {i : Fin 32}
    (hi : 16 ≤ i.val) : (h.restored exc base ws fp fpscr).s i = h.s i := by
  cases hext : extended exc with
  | true =>
      simp only [restored, leaveHandler, hext]
      exact if_neg (by omega)
  | false =>
      simp only [restored, leaveHandler, hext]
      rfl

/-- CONTROL is put together again from FPCA of the frame, SPSEL of EXC_RETURN and nPRIV. -/
theorem control_restored {x y : Word} (hx : x < 8) (hy : y < 8)
    (hnpriv : bitSet y 0 = bitSet x 0) :
    (if bitSet x 1 then (if bitSet x 2 then y ||| 4 else y &&& ~~~4) ||| 2
      else (if bitSet x 2 then y ||| 4 else y &&& ~~~4) &&& ~~~2) = x := by
  have hall : ∀ n m : Fin 8, bitSet (BitVec.ofNat 32 m) 0 = bitSet (BitVec.ofNat 32 n) 0 →
      (if bitSet (BitVec.ofNat 32 n) 1 then
        (if bitSet (BitVec.ofNat 32 n) 2 then BitVec.ofNat 32 m ||| 4
          else BitVec.ofNat 32 m &&& ~~~4) ||| 2
      else (if bitSet (BitVec.ofNat 32 n) 2 then BitVec.ofNat 32 m ||| 4
          else BitVec.ofNat 32 m &&& ~~~4) &&& ~~~2) = BitVec.ofNat 32 n := by
    decide
  have hword : ∀ w : Word, BitVec.ofNat 32 w.toNat = w := fun w => BitVec.ofNat_toNat ..
  have := hall ⟨x.toNat, hx⟩ ⟨y.toNat, hy⟩
  simp only [hword] at this
  exact this hnpriv

/-! ## Thread mode and back -/

/-- What a handler must leave as entry left it: the callee-saved registers, nPRIV and the two
stack pointers. It ends in Handler mode. -/
structure Preserves (e h : Core) : Prop where
  mode : h.mode = .handler
  spIsPsp : h.spIsPsp = false
  regs : ∀ i : Fin 16, 4 ≤ i.val → i.val ≤ 11 → h.r i = e.r i
  fregs : ∀ i : Fin 32, 16 ≤ i.val → h.s i = e.s i
  control : h.control < 8
  npriv : bitSet h.control 0 = bitSet e.control 0
  msp : h.currentMsp = e.currentMsp
  psp : h.currentPsp = e.currentPsp

theorem Preserves.withDumps (hp : Preserves e h) (n : Word) : Preserves e (h.withDumps n) :=
  ⟨hp.mode, hp.spIsPsp, hp.regs, hp.fregs, hp.control, hp.npriv, hp.msp, hp.psp⟩

/-- The interrupted context `c` runs on in `f`. -/
structure Resumed (c f : Core) : Prop where
  regs : ∀ i : Fin 16, i ≠ 15 → f.r i = c.r i
  pc : f.pc = c.pc
  flags : f.n = c.n ∧ f.z = c.z ∧ f.c = c.c ∧ f.v = c.v ∧ f.q = c.q
  itstate : f.itstate = c.itstate
  ipsr : f.ipsr = c.ipsr
  mode : f.mode = c.mode
  control : f.control = c.control
  spIsPsp : f.spIsPsp = c.spIsPsp
  msp : f.currentMsp = c.currentMsp
  psp : f.currentPsp = c.currentPsp
  fp : c.fpca = true → f.s = c.s ∧ f.fpscr = c.fpscr

/-- The core after a return from `h` that finds the frame of `c` where entry stacked it. -/
def back (c h : Core) : Core :=
  h.restored c.excReturn c.frameBase c.basicFrame c.lowS c.fpscr

theorem back_top (c : Core) : c.frameBase + frameSize c.excReturn = c.r sp := by
  rw [frameSize_excReturn, frameBase_add]

/-- The stack pointers as entry leaves them: r13, and the bank of the process stack. -/
def spAfter (c : Core) : Word := if c.spIsPsp then c.msp else c.frameBase
def pspAfter (c : Core) : Word := if c.spIsPsp then c.frameBase else c.psp

section Back

variable (hmode : c.mode = .handler → c.spIsPsp = false)
include hmode

theorem returnPsp_of_mode : returnPsp c.excReturn = c.spIsPsp := by
  rw [returnPsp_excReturn]
  cases hm : c.mode with
  | thread => rfl
  | handler =>
      rw [hmode hm]
      rfl

theorem back_spIsPsp : (back c h).spIsPsp = c.spIsPsp := by
  rw [back, restored_spIsPsp, returnControl, toThread_excReturn, returnPsp_of_mode hmode]
  cases hm : c.mode with
  | thread =>
      cases c.spIsPsp with
      | true =>
          show (true && bitSet (_ ||| 2) 1) = true
          rw [bitSet_eq _ (by decide)]
          simp
      | false =>
          show (true && bitSet (_ &&& ~~~2) 1) = false
          rw [bitSet_eq _ (by decide)]
          simp
  | handler => exact (hmode hm).symm

variable (hsp : h.r sp = c.spAfter) (hpsp : h.psp = c.pspAfter) (hmsp : h.msp = h.r sp)
include hsp hpsp hmsp

/-- With MSP up to date in its bank, a return reads the frame that entry stacked. -/
theorem returnBase_of_banked : h.returnBase c.excReturn = c.frameBase := by
  rw [returnBase, returnPsp_of_mode hmode]
  cases hsel : c.spIsPsp with
  | true =>
      rw [pspAfter, hsel] at hpsp
      exact hpsp
  | false =>
      rw [spAfter, hsel] at hsp
      exact hmsp.trans hsp

/-- Both stack pointers come back to their values at entry. -/
theorem back_stacks :
    (back c h).msp = c.currentMsp ∧ (back c h).psp = c.currentPsp ∧ (back c h).r sp = c.r sp := by
  have hbanks : (back c h).msp = c.currentMsp ∧ (back c h).psp = c.currentPsp := by
    rw [back, restored_msp, restored_psp, returnPsp_of_mode hmode, back_top, currentMsp, currentPsp]
    cases hsel : c.spIsPsp with
    | true =>
        rw [spAfter, hsel] at hsp
        exact ⟨hmsp.trans hsp, rfl⟩
    | false =>
        rw [pspAfter, hsel] at hpsp
        exact ⟨rfl, hpsp⟩
  refine ⟨hbanks.1, hbanks.2, ?_⟩
  rw [back, restored_sp, ← back, back_spIsPsp hmode, hbanks.1, hbanks.2, currentMsp, currentPsp]
  cases c.spIsPsp <;> rfl

end Back

/-- A handler that preserves what entry left keeps the stack pointers. -/
theorem Preserves.stacks {vecnum pc : Word} (hp : Preserves e h)
    (he : e = { c.enterHandler vecnum with pc := pc, itstate := 0 }) :
    h.r sp = c.spAfter ∧ h.psp = c.pspAfter := by
  have hm := hp.msp
  have hps := hp.psp
  subst he
  rw [currentMsp, currentMsp, hp.spIsPsp] at hm
  rw [currentPsp, currentPsp, hp.spIsPsp] at hps
  exact ⟨hm.trans (enterHandler_sp c vecnum), hps⟩

section Thread

variable {vecnum pc : Word} (he : e = { c.enterHandler vecnum with pc := pc, itstate := 0 })
  (hp : Preserves e h) (hthread : c.mode = .thread)
include he hp hthread

theorem back_control (hc : c.Sane) : (back c h).control = c.control := by
  have hpsel : c.spIsPsp = bitSet c.control 1 := by
    rw [hc.spsel, hthread]
    rfl
  have hnpriv : bitSet h.control 0 = bitSet c.control 0 := by
    rw [hp.npriv, he]
    rfl
  rw [back, restored_control, returnControl, toThread_excReturn, returnPsp_excReturn,
    extended_excReturn, hthread, hpsel]
  exact control_restored hc.control hp.control hnpriv

/-- Then the interrupted context is back. -/
theorem resumed_of_banked (hc : c.Sane) (heven : c.pc &&& 1 = 0) (hmsp : h.msp = h.r sp) :
    Resumed c (back c h) := by
  have hmode : c.mode = .handler → c.spIsPsp = false := by
    intro hm
    rw [hthread] at hm
    cases hm
  have hu := unstacked_restored c h c.frameBase
  obtain ⟨hsp, hpsp⟩ := hp.stacks he
  obtain ⟨hm, hps, hactive⟩ := back_stacks hmode hsp hpsp hmsp
  have hsel : (back c h).spIsPsp = c.spIsPsp := back_spIsPsp hmode
  refine ⟨?_, ?_, hu.flags, hu.itstate, ?_, ?_, back_control he hp hthread hc, hsel, ?_, ?_, ?_⟩
  · intro i hi
    -- r4 to r11 are the handler's to preserve, the rest come from the frame
    by_cases hcallee : 4 ≤ i.val ∧ i.val ≤ 11
    · rw [back, restored_r _ _ _ _ _ _ hcallee.1 hcallee.2, hp.regs i hcallee.1 hcallee.2, he]
      refine enterHandler_r c vecnum ?_ ?_
      · rintro rfl
        exact absurd hcallee.2 (by decide)
      · rintro rfl
        exact absurd hcallee.2 (by decide)
    · by_cases hisp : i = sp
      · rw [hisp]
        exact hactive
      · refine hu.regs i ?_
        revert i
        decide
  · exact hu.pc.trans (clear_of_even heven)
  · exact hu.ipsr.trans (and_mask_of_lt hc.ipsr)
  · rw [back, restored_mode, toThread_excReturn, hthread]
    rfl
  · rw [currentMsp, hsel, hm, hactive, currentMsp]
    cases c.spIsPsp <;> rfl
  · rw [currentPsp, hsel, hps, hactive, currentPsp]
    cases c.spIsPsp <;> rfl
  · intro hfpca
    obtain ⟨hlow, hfpscr⟩ := hu.fp hfpca
    refine ⟨funext fun i => ?_, hfpscr⟩
    -- the frame holds s0 to s15, the handler preserves the others
    by_cases hi : i.val < 16
    · exact hlow i hi
    · rw [back, restored_s _ _ _ _ _ _ (by omega), hp.fregs i (by omega), he]
      rfl

/-- A return that brings the context back found MSP up to date in its bank. -/
theorem banked_of_resumed {base : Word} {ws fp : List Word} {fpscr : Word}
    (hbase : base = h.returnBase c.excReturn)
    (hres : Resumed c (h.restored c.excReturn base ws fp fpscr)) : h.msp = h.r sp := by
  have hm := (hp.stacks he).1
  have hsel := hres.spIsPsp
  rw [returnBase, returnPsp_excReturn, hthread] at hbase
  cases hpsel : c.spIsPsp with
  | true =>
      -- The bank stays as it is, and comes back as the inactive stack pointer.
      have hback := hres.msp
      rw [currentMsp, hsel, hpsel, if_pos rfl, restored_msp, returnPsp_excReturn, hthread, hpsel,
        currentMsp, hpsel] at hback
      rw [spAfter, hpsel] at hm
      exact hback.trans hm.symm
  | false =>
      -- The active stack pointer comes back as the end of the frame that was read.
      have hback := hres.regs sp (by decide)
      rw [restored_sp, hsel, hpsel, if_neg Bool.false_ne_true, restored_msp, returnPsp_excReturn,
        hthread, hpsel, ← back_top] at hback
      rw [spAfter, hpsel] at hm
      rw [hpsel] at hbase
      have hframe : base = c.frameBase := (BitVec.add_left_inj _).mp hback
      exact hbase.symm.trans (hframe.trans hm.symm)

end Thread

/-! ## Exceptions from Thread mode -/

/-- The words from `a` on are as they were. -/
def FrameKept {δ : Type} (b b' : Bus δ) (a : Word) (n : Nat) : Prop :=
  ∀ ws : List Word, ws.length = n → b.HoldsWords a ws → b'.HoldsWords a ws

variable {δ : Type} [Mmio δ] (verifier : Verifier)

/-- A return with MSP up to date in its bank finds the frame that entry stacked. -/
theorem run_return_of_banked {b : Bus δ} (hmode : c.mode = .handler → c.spIsPsp = false)
    (hframe : b.HoldsWords c.frameBase c.frame) (hsp : h.r sp = c.spAfter)
    (hpsp : h.psp = c.pspAfter) (hmsp : h.msp = h.r sp) :
    (((h.exceptionReturn c.excReturn).run (Bus.handle verifier) b).isSome ↔
      h.DumpReads b c.frameBase c.pc) ∧
    ∀ r, (h.exceptionReturn c.excReturn).run (Bus.handle verifier) b = some r →
      ∃ dumps, r.1 = back c (h.withDumps dumps) := by
  obtain ⟨hbasic, hlong⟩ := Bus.HoldsWords.append.mp hframe
  have hlong' : extended c.excReturn = true →
      c.lowS.length = 16 ∧ b.HoldsWords (c.frameBase + 0x20) (c.lowS ++ [c.fpscr]) := by
    intro hext
    rw [extended_excReturn] at hext
    rw [hext] at hlong
    have hsplit : c.fpFrame = (c.lowS ++ [c.fpscr]) ++ [0] := by
      rw [fpFrame, List.append_assoc]
      rfl
    rw [if_pos rfl, hsplit] at hlong
    exact ⟨rfl, (Bus.HoldsWords.append.mp hlong).1⟩
  have hbase := returnBase_of_banked hmode hsp hpsp hmsp
  rw [← hbase] at hbasic hlong'
  have hrun := run_exceptionReturn verifier rfl hbasic hlong'
  rw [hbase] at hrun
  exact hrun

/-- An exception taken in Thread mode with its frame in RAM, whatever the handler did that
leaves the frame and both stack pointers alone: the return brings the context back exactly when
the bank of MSP agrees with r13, and the dump of the crash detector can be read. -/
theorem exception_transparent_iff {vecnum : Word} {b b₁ b₂ : Bus δ} (hc : c.Sane)
    (hthread : c.mode = .thread) (heven : c.pc &&& 1 = 0)
    (hram : b.ServedWords c.frameBase c.frame.length)
    (hentry : (c.exceptionEntry vecnum).run (Bus.handle verifier) b = some (e, b₁))
    (hp : Preserves e h) (hkept : FrameKept b₁ b₂ c.frameBase c.frame.length) :
    (∃ r, (h.exceptionReturn (e.r lr)).run (Bus.handle verifier) b₂ = some r ∧ Resumed c r.1) ↔
      h.msp = h.r sp ∧ h.DumpReads b₂ c.frameBase c.pc := by
  -- entry leaves the frame in RAM and EXC_RETURN in LR
  obtain ⟨⟨pc, he⟩, bm, -, hholds, hdev⟩ := run_exceptionEntry verifier hram hentry
  have hlr : e.r lr = c.excReturn := by
    rw [he]
    exact enterHandler_lr c vecnum
  have hframe := hkept c.frame rfl (hholds.only hdev)
  have hmode : c.mode = .handler → c.spIsPsp = false := by
    intro hm
    rw [hthread] at hm
    cases hm
  obtain ⟨hsp, hpsp⟩ := hp.stacks he
  rw [hlr]
  constructor
  · -- a context that is back shows where the return read its frame
    rintro ⟨r, hrun, hres⟩
    obtain ⟨⟨dumps, ws, fp, fpscr, hr⟩, -⟩ := run_exceptionReturn_cases verifier hrun
    rw [hr] at hres
    have hsame : h.returnBase c.excReturn = (h.withDumps dumps).returnBase c.excReturn := rfl
    have hmsp : (h.withDumps dumps).msp = (h.withDumps dumps).r sp :=
      banked_of_resumed he (hp.withDumps dumps) hthread hsame hres
    have hmsp : h.msp = h.r sp := hmsp
    have hiff := (run_return_of_banked verifier hmode hframe hsp hpsp hmsp).1
    exact ⟨hmsp, hiff.mp (by rw [hrun]; rfl)⟩
  · rintro ⟨hmsp, hdump⟩
    obtain ⟨hiff, hcore⟩ := run_return_of_banked verifier hmode hframe hsp hpsp hmsp
    obtain ⟨r, hr⟩ := Option.isSome_iff_exists.mp (hiff.mpr hdump)
    obtain ⟨dumps, hback⟩ := hcore r hr
    refine ⟨r, hr, ?_⟩
    rw [hback]
    exact resumed_of_banked he (hp.withDumps dumps) hthread hc heven hmsp

/-! ## One exception, and one within its handler -/

/-- Code at 0x100 on a main stack that ends at 0x20000800. -/
def onMain : Core := { new.setR sp 0x20000800 with pc := 0x100 }

/-- A bus with the memory of the main stack. -/
def stackBus : Bus Unit :=
  { Bus.new () with rams := [⟨0x20000000, 0x1000, Bytes.const _ 0, Ram.fits_page⟩] }

theorem stackBus_served {n : Nat} {a : Word} (hlo : 0x20000000 ≤ a.toNat)
    (hhi : a.toNat + 4 * n ≤ 0x20001000) : stackBus.ServedWords a n := by
  induction n generalizing a with
  | zero => trivial
  | succ n ih =>
      have hrams : stackBus.rams = [⟨0x20000000, 0x1000, Bytes.const _ 0, Ram.fits_page⟩] := rfl
      have hopen : stackBus.Open a := stackBus.open_of_sram hlo (by omega)
      have hnext : (a + 4).toNat = a.toNat + 4 := by
        rw [BitVec.toNat_add]
        show (a.toNat + 4) % 2 ^ 32 = a.toNat + 4
        omega
      refine ⟨Bus.served_of_head hrams (by decide) hopen hlo ?_ (by decide), ih ?_ ?_⟩
      · show a.toNat + 4 ≤ 0x20001000
        omega
      · omega
      · omega

theorem sane_onMain : onMain.Sane := ⟨by decide, by decide, rfl⟩

theorem exception_transparent_iff_svc :
    ∃ (e : Core) (b₁ : Bus Unit) (r : Core × Bus Unit),
      (onMain.exceptionEntry 11).run (Bus.handle noVerifier) stackBus = some (e, b₁) ∧
      (e.exceptionReturn (e.r lr)).run (Bus.handle noVerifier) b₁ = some r ∧
      Resumed onMain r.1 := by
  have hram : stackBus.ServedWords onMain.frameBase onMain.frame.length :=
    stackBus_served (by decide) (by decide)
  obtain ⟨⟨e, b₁⟩, hrun⟩ : ∃ x, (onMain.exceptionEntry 11).run (Bus.handle noVerifier)
      stackBus = some x := Option.isSome_iff_exists.mp (by decide +kernel)
  obtain ⟨⟨pc, he⟩, -⟩ := run_exceptionEntry noVerifier hram hrun
  have hp : Preserves e e :=
    ⟨by rw [he]; rfl, by rw [he]; rfl, fun _ _ _ => rfl, fun _ _ => rfl,
      by rw [he]; exact sane_onMain.control, rfl, rfl, rfl⟩
  have hmsp : e.msp = e.r sp := by
    rw [he]
    rfl
  have hcode : e.DumpReads b₁ onMain.frameBase onMain.pc := by
    rw [he]
    exact Or.inl rfl
  obtain ⟨r, hr⟩ := (exception_transparent_iff noVerifier sane_onMain rfl rfl hram hrun hp
    (fun _ _ hws => hws)).mpr ⟨hmsp, hcode⟩
  exact ⟨e, b₁, r, hrun, hr⟩

/-- A handler that pushes r4 and LR, takes a nested exception, and pops them. -/
def pushSvcPop (e : Core) : BusM Core := do
  BusM.writeWords (e.r sp - 8) [e.r 4, e.r lr]
  let n ← (e.setR sp (e.r sp - 8)).exceptionEntry 11
  let m ← n.exceptionReturn (n.r lr)
  pure (m.setR sp (m.r sp + 8))

/-- The core and the bus after entry, and those after `pushSvcPop`. -/
def nestedSvc : Option ((Core × Bus Unit) × (Core × Bus Unit)) :=
  ((onMain.exceptionEntry 11).run (Bus.handle noVerifier) stackBus).bind fun x =>
    ((pushSvcPop x.1).run (Bus.handle noVerifier) x.2).map fun y => (x, y)

/-- `pushSvcPop` stores below the frame only. -/
theorem frameKept_pushSvcPop {b₁ b₂ : Bus Unit} (hsp : e.r sp = 0x200007E0)
    (hfpca : e.fpca = false) (hram : b₁.ServedWords 0x200007B8 8)
    (hpush : b₁.ServedWords 0x200007D8 2)
    (hrun : (pushSvcPop e).run (Bus.handle noVerifier) b₁ = some (h, b₂)) :
    FrameKept b₁ b₂ 0x200007E0 8 := by
  -- the push and the nested frame are below 0x200007E0, the frame above
  have hbelow : ∀ {a : Word} {n x : Nat}, n ≤ 8 → a.toNat + 4 * n ≤ 0x200007E0 →
      Bus.WordSet a n x → x < 0x200007E0 := by
    rintro a n x hn hle ⟨i, hi, -, hx⟩
    rw [BitVec.toNat_add, BitVec.toNat_ofNat] at hx
    omega
  have habove : ∀ {x : Nat}, Bus.WordSet 0x200007E0 8 x → 0x200007E0 ≤ x := by
    rintro x ⟨i, hi, hx, -⟩
    rw [BitVec.toNat_add, BitVec.toNat_ofNat] at hx
    have hbase : (0x200007E0 : Word).toNat = 0x200007E0 := rfl
    omega
  have hoff : ∀ {a : Word} {n x : Nat}, n ≤ 8 → a.toNat + 4 * n ≤ 0x200007E0 →
      Bus.WordSet 0x200007E0 8 x → ¬ Bus.WordSet a n x := fun hn hle hx hx' =>
    absurd (hbelow hn hle hx') (Nat.not_lt.mpr (habove hx))
  intro ws hlen hws
  obtain ⟨bp, hwrite, -, hconf⟩ :=
    BusM.run_writeWords noVerifier hpush (show [e.r 4, e.r lr].length < 2 ^ 25 from by simp)
  rw [pushSvcPop, hsp, Prog.bind_eq, Prog.run_bind] at hrun
  rw [show (0x200007E0 : Word) - 8 = 0x200007D8 from rfl, hwrite] at hrun
  simp only [Option.bind_some, Prog.bind_eq, Prog.run_bind, Option.bind_eq_some_iff] at hrun
  obtain ⟨⟨n, bn⟩, hentry, ⟨m, bm⟩, hreturn, heq⟩ := hrun
  cases heq
  have hbase : (e.setR sp 0x200007D8).frameBase = 0x200007B8 := by
    rw [frameBase, setR_same, frameWords]
    rw [show (e.setR sp 0x200007D8).fpca = e.fpca from rfl, hfpca]
    rfl
  have hframe : (e.setR sp 0x200007D8).frame.length = 8 := by
    rw [length_frame, frameWords]
    rw [show (e.setR sp 0x200007D8).fpca = e.fpca from rfl, hfpca]
    rfl
  obtain ⟨-, bs, hconf', -, hdev⟩ := run_exceptionEntry noVerifier
    (by rw [hbase, hframe]; exact Bus.ServedWords.confined hram hconf) hentry
  rw [hbase, hframe] at hconf'
  -- neither of the two stores reaches the frame
  have hpushed : bp.HoldsWords 0x200007E0 ws := hws.confined hconf fun x hx => by
    rw [hlen] at hx
    exact hoff (n := 2) (by decide) (by decide) hx
  have hstacked : bs.HoldsWords 0x200007E0 ws := hpushed.confined hconf' fun x hx => by
    rw [hlen] at hx
    exact hoff (by decide) (by decide) hx
  exact (hstacked.only hdev).only (run_exceptionReturn_cases noVerifier hreturn).2

/-- `pushSvcPop` leaves everything as entry left it, but for the bank of MSP. -/
abbrev StaleMsp (e h : Core) : Prop :=
  (h.mode = .handler ∧ h.spIsPsp = false ∧
    (∀ i : Fin 16, 4 ≤ i.val → i.val ≤ 11 → h.r i = e.r i) ∧
    (∀ i : Fin 32, 16 ≤ i.val → h.s i = e.s i) ∧
    h.control = 0 ∧ e.control = 0 ∧ h.currentMsp = e.currentMsp ∧ h.currentPsp = e.currentPsp) ∧
    h.msp ≠ h.r sp

theorem exception_not_transparent :
    ∃ (e h : Core) (b₁ b₂ : Bus Unit),
      onMain.Sane ∧ onMain.mode = .thread ∧ onMain.pc &&& 1 = 0 ∧
      stackBus.ServedWords onMain.frameBase onMain.frame.length ∧
      (onMain.exceptionEntry 11).run (Bus.handle noVerifier) stackBus = some (e, b₁) ∧
      (pushSvcPop e).run (Bus.handle noVerifier) b₁ = some (h, b₂) ∧ Preserves e h ∧
      FrameKept b₁ b₂ onMain.frameBase onMain.frame.length ∧
      ¬ ∃ r, (h.exceptionReturn (e.r lr)).run (Bus.handle noVerifier) b₂ = some r ∧
        Resumed onMain r.1 := by
  have hram : stackBus.ServedWords onMain.frameBase onMain.frame.length :=
    stackBus_served (by decide) (by decide)
  have heval : (nestedSvc.any fun x => decide (StaleMsp x.1.1 x.2.1)) = true := by
    decide +kernel
  obtain ⟨⟨⟨e, b₁⟩, h, b₂⟩, hsvc, hdec⟩ := (Option.any_eq_true _ _).mp heval
  obtain ⟨⟨hmode, hsel, hregs, hfregs, hcontrol, hcontrol', hmsp, hpsp⟩, hstale⟩ :=
    of_decide_eq_true hdec
  rw [nestedSvc, Option.bind_eq_some_iff] at hsvc
  obtain ⟨x, hentry, hsvc⟩ := hsvc
  obtain ⟨y, hbody, heq⟩ := Option.map_eq_some_iff.mp hsvc
  cases heq
  obtain ⟨⟨pc, he⟩, bm, hconf, -, hdev⟩ := run_exceptionEntry noVerifier hram hentry
  have hlr : e.r lr = onMain.excReturn := by
    rw [he]
    exact enterHandler_lr onMain 11
  -- the handler keeps its part of the bargain
  have hp : Preserves e h := by
    refine ⟨hmode, hsel, hregs, hfregs, ?_, ?_, hmsp, hpsp⟩
    · rw [hcontrol]
      decide
    · rw [hcontrol, hcontrol']
  have hserved : ∀ {a : Word} {n : Nat}, 0x20000000 ≤ a.toNat → a.toNat + 4 * n ≤ 0x20001000 →
      b₁.ServedWords a n := by
    intro a n hlo hhi
    exact ((stackBus_served hlo hhi).confined hconf).only hdev
  refine ⟨e, h, b₁, b₂, sane_onMain, rfl, rfl, hram, hentry, hbody, hp, ?_, ?_⟩
  · refine frameKept_pushSvcPop ?_ ?_ (hserved (by decide) (by decide))
      (hserved (by decide) (by decide)) hbody
    · rw [he]
      rfl
    · rw [fpca, hcontrol']
      rfl
  · -- a return that restored it would have found MSP up to date
    rintro ⟨r, hreturn, hres⟩
    rw [hlr] at hreturn
    obtain ⟨⟨dumps, ws, fp, fpscr, hr⟩, -⟩ := run_exceptionReturn_cases noVerifier hreturn
    rw [hr] at hres
    have hsame : h.returnBase onMain.excReturn = (h.withDumps dumps).returnBase onMain.excReturn :=
      rfl
    have hmsp : (h.withDumps dumps).msp = (h.withDumps dumps).r sp :=
      banked_of_resumed he (hp.withDumps dumps) rfl hsame hres
    exact hstale hmsp

end Core

end SpEmu
