import SpEmu.Cpu.Banking
import SpEmu.Debug.DebugPort
import Mathlib.Data.List.Permutation

/-!
# Saving and restoring the core through the debug port

A debugger reads the registers of a halted core through DCRSR, runs a program of its own, and
writes the registers back in an order of its choice. `restored_iff` says when that gives the core
back: the register numbers reach neither the mode nor ITSTATE, and a write of CONTROL that switches
the stack pointers banks r13 as it then is.

The stack pointers are a small machine of their own, `StackRegs`, on which the four registers that
touch them act; every other register is a field of the core with one writer.
-/

set_option autoImplicit false

namespace SpEmu

open ByteMem

/-! ## The stack pointers -/

/-- r13 and the two banks, and whether r13 stands for the process stack. -/
structure StackRegs where
  r13 : Word
  msp : Word
  psp : Word
  onPsp : Bool

namespace StackRegs

variable (s : StackRegs)

/-- The stack pointers, whichever is active. -/
def main : Word := if s.onPsp then s.msp else s.r13
def process : Word := if s.onPsp then s.r13 else s.psp

def setMsp (v : Word) : StackRegs :=
  { s with msp := v, r13 := if s.onPsp then s.r13 else v }

def setPsp (v : Word) : StackRegs :=
  { s with psp := v, r13 := if s.onPsp then v else s.r13 }

/-- Make one of the stacks the active one; a switch saves r13 and loads the other bank. -/
def select (psp : Bool) : StackRegs :=
  if s.onPsp = psp then s
  else ⟨if psp then s.psp else s.msp, if s.onPsp then s.msp else s.r13,
    if s.onPsp then s.r13 else s.psp, psp⟩

/-- Write one of the registers that touch the stack pointers, with what was saved from `t`. -/
def restore (t s : StackRegs) (n : Nat) : StackRegs :=
  if n = 13 then { s with r13 := t.r13 }
  else if n = 17 then s.setMsp t.main
  else if n = 18 then s.setPsp t.process
  else if n = 20 then s.select t.onPsp
  else s

/-- The number of the bank that r13 stands for. -/
def activeBank : Nat := if s.onPsp then 18 else 17

/-- The bank of the active stack pointer holds what r13 holds. -/
def Current : Prop := s.r13 = if s.onPsp then s.psp else s.msp

/-- The active bank is written, r13 after it, and then the other stack becomes active: that banks
the wrong value. -/
def Clobbers (t s : StackRegs) (order : List Nat) : Prop :=
  s.onPsp ≠ t.onPsp ∧ [s.activeBank, 13, 20].Sublist order ∧
    t.r13 ≠ if s.onPsp then t.process else t.main

/-- The stack pointers of `t`, with both banks up to date. -/
def settled (t : StackRegs) : StackRegs := ⟨t.r13, t.main, t.process, t.onPsp⟩

variable {t : StackRegs}

theorem settled_eq_iff : t.settled = t ↔ t.Current := by
  obtain ⟨r13, msp, psp, onPsp⟩ := t
  cases onPsp with
  | false =>
      refine ⟨fun h => congrArg StackRegs.msp h, fun h => ?_⟩
      exact congrArg (fun x => (⟨r13, x, psp, false⟩ : StackRegs)) h
  | true =>
      refine ⟨fun h => congrArg StackRegs.psp h, fun h => ?_⟩
      exact congrArg (fun x => (⟨r13, msp, x, true⟩ : StackRegs)) h

/-- The orders of the four writes. -/
theorem mem_orders {l : List Nat} (h : l.Perm [13, 17, 18, 20]) :
    l ∈ ([13, 17, 18, 20] : List Nat).permutations' := List.mem_permutations'.mpr h

/-- On the same stack, every order settles. -/
theorem restore_same {l : List Nat} (h : l.Perm [13, 17, 18, 20]) {s : StackRegs}
    (hsame : s.onPsp = t.onPsp) : l.foldl t.restore s = t.settled := by
  have hmem := mem_orders h
  obtain ⟨r13, msp, psp, onPsp⟩ := t
  obtain ⟨r13', msp', psp', onPsp'⟩ := s
  obtain rfl : onPsp' = onPsp := hsame
  simp only [List.permutations', List.permutations'Aux, List.flatMap_cons, List.flatMap_nil,
    List.map_cons, List.map_nil, List.append_nil, List.cons_append, List.nil_append,
    List.mem_cons, List.not_mem_nil, or_false] at hmem
  cases onPsp' <;>
    rcases hmem with rfl | rfl | rfl | rfl | rfl | rfl | rfl | rfl | rfl | rfl | rfl | rfl | rfl |
      rfl | rfl | rfl | rfl | rfl | rfl | rfl | rfl | rfl | rfl | rfl <;> rfl

/-- Across a switch, one bank gets r13 in the clobbering orders, and the others settle. -/
theorem restore_switch {l : List Nat} (h : l.Perm [13, 17, 18, 20]) {s : StackRegs}
    (hdiff : s.onPsp = !t.onPsp) :
    l.foldl t.restore s =
      if [s.activeBank, 13, 20].Sublist l then
        if s.onPsp then { t.settled with psp := t.r13 } else { t.settled with msp := t.r13 }
      else t.settled := by
  have hmem := mem_orders h
  obtain ⟨r13, msp, psp, onPsp⟩ := t
  obtain ⟨r13', msp', psp', onPsp'⟩ := s
  obtain rfl : onPsp' = !onPsp := hdiff
  simp only [List.permutations', List.permutations'Aux, List.flatMap_cons, List.flatMap_nil,
    List.map_cons, List.map_nil, List.append_nil, List.cons_append, List.nil_append,
    List.mem_cons, List.not_mem_nil, or_false] at hmem
  cases onPsp <;>
    rcases hmem with rfl | rfl | rfl | rfl | rfl | rfl | rfl | rfl | rfl | rfl | rfl | rfl | rfl |
      rfl | rfl | rfl | rfl | rfl | rfl | rfl | rfl | rfl | rfl | rfl <;> rfl

/-- The four writes give the stack pointers back exactly when the bank of the active one was up to
date, and no switch banks a wrong value. -/
theorem restore_eq_iff {l : List Nat} (h : l.Perm [13, 17, 18, 20]) (s : StackRegs) :
    l.foldl t.restore s = t ↔ t.Current ∧ ¬ t.Clobbers s l := by
  by_cases hsame : s.onPsp = t.onPsp
  · rw [restore_same h hsame, settled_eq_iff]
    exact ⟨fun hcur => ⟨hcur, fun hclob => hclob.1 hsame⟩, fun hboth => hboth.1⟩
  rw [restore_switch h (Bool.eq_not.mpr hsame)]
  by_cases horder : [s.activeBank, 13, 20].Sublist l
  · have hclob : ¬ t.Clobbers s l ↔ t.r13 = if s.onPsp then t.process else t.main := by
      rw [Clobbers]
      simp only [ne_eq, hsame, not_false_eq_true, horder, true_and, not_not]
    rw [if_pos horder, hclob]
    obtain ⟨r13, msp, psp, onPsp⟩ := t
    obtain ⟨r13', msp', psp', onPsp'⟩ := s
    obtain rfl : onPsp' = !onPsp := Bool.eq_not.mpr hsame
    cases onPsp with
    | false =>
        show (⟨r13, r13, r13, false⟩ : StackRegs) = ⟨r13, msp, psp, false⟩ ↔
          r13 = msp ∧ r13 = psp
        simp only [mk.injEq, true_and, and_true]
    | true =>
        show (⟨r13, r13, r13, true⟩ : StackRegs) = ⟨r13, msp, psp, true⟩ ↔ r13 = psp ∧ r13 = msp
        simp only [mk.injEq, true_and, and_true]
        exact and_comm
  · rw [if_neg horder, settled_eq_iff]
    exact ⟨fun hcur => ⟨hcur, fun hclob => horder hclob.2.1⟩, fun hboth => hboth.1⟩

/-- Whether a register touches the stack pointers. -/
def touches (n : Nat) : Bool := decide (n ∈ [13, 17, 18, 20])

theorem restore_of_not_touches {n : Nat} (hn : touches n = false) (s : StackRegs) :
    t.restore s n = s := by
  have hout := of_decide_eq_false hn
  simp only [List.mem_cons, List.not_mem_nil, or_false, not_or] at hout
  rw [restore, if_neg hout.1, if_neg hout.2.1, if_neg hout.2.2.1, if_neg hout.2.2.2]

theorem foldl_restore_filter (l : List Nat) (s : StackRegs) :
    l.foldl t.restore s = (l.filter touches).foldl t.restore s := by
  rw [List.foldl_filter]
  congr 1
  funext s n
  cases hn : touches n with
  | true => rfl
  | false => exact restore_of_not_touches hn s

theorem clobbers_filter {l : List Nat} {s : StackRegs} :
    t.Clobbers s (l.filter touches) ↔ t.Clobbers s l := by
  have hsub : [s.activeBank, 13, 20].Sublist (l.filter touches) ↔
      [s.activeBank, 13, 20].Sublist l := by
    constructor
    · exact fun h => h.trans List.filter_sublist
    · intro h
      have hfilter := h.filter touches
      have hall : [s.activeBank, 13, 20].filter touches = [s.activeBank, 13, 20] := by
        rw [activeBank]
        cases s.onPsp <;> rfl
      rwa [hall] at hfilter
  rw [Clobbers, Clobbers, hsub]

end StackRegs

/-! ## The core, register by register -/

namespace Core

variable (c : Core)

def stack : StackRegs := ⟨c.r sp, c.msp, c.psp, c.spIsPsp⟩

def withStack (s : StackRegs) : Core :=
  { c.setR sp s.r13 with msp := s.msp, psp := s.psp, spIsPsp := s.onPsp }

theorem setR_self (i : Fin 16) : c.setR i (c.r i) = c := by
  rw [setR, Function.update_eq_self]

theorem setMsp_eq (v : Word) : c.setMsp v = c.withStack (c.stack.setMsp v) := by
  rw [setMsp, withStack, stack, StackRegs.setMsp]
  dsimp only
  split
  · rw [setR_self]
  · rfl

theorem setPsp_eq (v : Word) : c.setPsp v = c.withStack (c.stack.setPsp v) := by
  rw [setPsp, withStack, stack, StackRegs.setPsp]
  dsimp only
  split
  · rfl
  · rw [setR_self]

theorem setControl_eq (v : Word) :
    c.setControl v = { c.withStack (c.stack.select (c.selects v)) with control := v &&& 0x7 } := by
  by_cases h : c.spIsPsp = c.selects v
  · have hstay : c.stack.select (c.selects v) = c.stack := if_pos h
    rw [setControl_of_same h, hstay, withStack, stack, setR_self]
  · have hmove : c.stack.select (c.selects v) =
        ⟨if c.selects v then c.psp else c.msp, if c.spIsPsp then c.msp else c.r sp,
          if c.spIsPsp then c.r sp else c.psp, c.selects v⟩ := if_neg h
    have hother : c.selects v = !c.spIsPsp := Bool.eq_not.mpr (Ne.symm h)
    rw [setControl_of_switch h, hmove, hother, withStack]
    cases c.spIsPsp <;> rfl

/-- What a write of register `n` leaves alone: every field but those of that register, and the
stack pointers, which are `StackRegs`. -/
structure WrittenAt (n : Nat) (c d : Core) : Prop where
  mode : d.mode = c.mode
  itstate : d.itstate = c.itstate
  pc : n ≠ 15 → d.pc = c.pc
  status : n ≠ 16 → (d.n, d.z, d.c, d.v, d.q, d.ipsr) = (c.n, c.z, c.c, c.v, c.q, c.ipsr)
  special : n ≠ 20 → (d.primask, d.basepri, d.faultmask, d.control) =
    (c.primask, c.basepri, c.faultmask, c.control)
  fpscr : n ≠ 33 → d.fpscr = c.fpscr
  s : ∀ i : Fin 32, n ≠ 64 + i.val → d.s i = c.s i
  r : ∀ i : Fin 16, i ≠ sp → n ≠ i.val → d.r i = c.r i
  stack : n ∉ [13, 17, 18, 20] → d.stack = c.stack

/-- A write of a register keeps off the others. -/
theorem writtenAt_setGdbReg (n : Nat) (v : Word) : WrittenAt n c (c.setGdbReg n v) := by
  rw [setGdbReg, setMsp_eq, setPsp_eq, setControl_eq]
  split
  · refine ⟨rfl, rfl, fun _ => rfl, fun _ => rfl, fun _ => rfl, fun _ => rfl, fun _ _ => rfl,
      fun i _ hi => c.setR_of_ne v fun heq => hi (by rw [heq]), fun hn => ?_⟩
    have hsp : sp ≠ ⟨n, by omega⟩ := fun heq =>
      hn (List.mem_cons.mpr (Or.inl (congrArg Fin.val heq).symm))
    rw [stack, c.setR_of_ne v hsp]
    rfl
  split
  · next hn =>
      exact ⟨rfl, rfl, fun h => absurd hn h, fun _ => rfl, fun _ => rfl, fun _ => rfl,
        fun _ _ => rfl, fun _ _ _ => rfl, fun _ => rfl⟩
  split
  · next hn =>
      exact ⟨rfl, rfl, fun _ => rfl, fun h => absurd hn h, fun _ => rfl, fun _ => rfl,
        fun _ _ => rfl, fun _ _ _ => rfl, fun _ => rfl⟩
  split
  · next hn =>
      exact ⟨rfl, rfl, fun _ => rfl, fun _ => rfl, fun _ => rfl, fun _ => rfl, fun _ _ => rfl,
        fun i hi _ => c.setR_of_ne _ hi, fun h => absurd (by simp [hn]) h⟩
  split
  · next hn =>
      exact ⟨rfl, rfl, fun _ => rfl, fun _ => rfl, fun _ => rfl, fun _ => rfl, fun _ _ => rfl,
        fun i hi _ => c.setR_of_ne _ hi, fun h => absurd (by simp [hn]) h⟩
  split
  · next hn =>
      exact ⟨rfl, rfl, fun _ => rfl, fun _ => rfl, fun h => absurd hn h, fun _ => rfl,
        fun _ _ => rfl, fun i hi _ => c.setR_of_ne _ hi, fun h => absurd (by simp [hn]) h⟩
  split
  · next hn =>
      exact ⟨rfl, rfl, fun _ => rfl, fun _ => rfl, fun _ => rfl, fun h => absurd hn h,
        fun _ _ => rfl, fun _ _ _ => rfl, fun _ => rfl⟩
  split
  · refine ⟨rfl, rfl, fun _ => rfl, fun _ => rfl, fun _ => rfl, fun _ => rfl, fun i hi => ?_,
      fun _ _ _ => rfl, fun _ => rfl⟩
    exact Function.update_of_ne (fun heq => hi (by rw [heq]; dsimp only; omega)) _ _
  · exact ⟨rfl, rfl, fun _ => rfl, fun _ => rfl, fun _ => rfl, fun _ => rfl, fun _ _ => rfl,
      fun _ _ _ => rfl, fun _ => rfl⟩

/-! ## Reading the saved values back -/

variable {c}

/-- The status word that a debugger sees holds the flags and IPSR. -/
theorem status_xpsr (hipsr : c.ipsr < 512) :
    (bitSet c.xpsr 31, bitSet c.xpsr 30, bitSet c.xpsr 29, bitSet c.xpsr 28, bitSet c.xpsr 27,
      c.xpsr &&& 0x1ff) = (c.n, c.z, c.c, c.v, c.q, c.ipsr) := by
  have hlow : c.xpsr &&& 0x1ff = c.ipsr &&& 0x1ff := by
    apply BitVec.eq_of_getLsbD_eq
    intro i hi
    by_cases h : i < 9
    · interval_cases i <;> simp [xpsr, apsr]
    · have hmask : (0x1ff : Word).getLsbD i = (decide (i < 32) && decide (i < 9)) :=
        getLsbD_mask 9 i
      rw [BitVec.getLsbD_and, BitVec.getLsbD_and, hmask, decide_eq_false h, Bool.and_false,
        Bool.and_false, Bool.and_false]
  rw [hlow, and_mask_of_lt hipsr, bitSet_eq _ (by decide), bitSet_eq _ (by decide),
    bitSet_eq _ (by decide), bitSet_eq _ (by decide), bitSet_eq _ (by decide)]
  simp [xpsr, apsr]

/-- PRIMASK, BASEPRI, FAULTMASK and CONTROL in one word. -/
def specialWord (c : Core) : Word :=
  flagBit c.primask 0 ||| (c.basepri <<< 8) ||| flagBit c.faultmask 16 ||| (c.control <<< 24)

/-- The bits of a field above its width are clear. -/
theorem getLsbD_of_lt {x : Word} {k i : Nat} (hx : x.toNat < 2 ^ k) (hi : k ≤ i) :
    x.getLsbD i = false :=
  Nat.testBit_lt_two_pow (Nat.lt_of_lt_of_le hx (Nat.pow_le_pow_right (by decide) hi))

theorem special_specialWord (hc : c.Regular) :
    (bitSet c.specialWord 0, (c.specialWord >>> 8) &&& 0xff, bitSet c.specialWord 16,
      (c.specialWord >>> 24) &&& 0x7) = (c.primask, c.basepri, c.faultmask, c.control) := by
  have hbasepri : ∀ i, 8 ≤ i → c.basepri.getLsbD i = false := fun i hi =>
    getLsbD_of_lt hc.basepri hi
  have hcontrol : ∀ i, 3 ≤ i → c.control.getLsbD i = false := fun i hi =>
    getLsbD_of_lt hc.sane.control hi
  have hbit : ∀ i (h : i < 32), 8 ≤ i → c.basepri[i] = false := fun i _ hi =>
    BitVec.getLsbD_eq_getElem .. ▸ hbasepri i hi
  have hpri : (c.specialWord >>> 8) &&& 0xff = c.basepri := by
    apply BitVec.eq_of_getLsbD_eq
    intro i hi
    by_cases h : i < 8
    · interval_cases i <;> simp [specialWord]
    · have hmask : (0xff : Word).getLsbD i = (decide (i < 32) && decide (i < 8)) :=
        getLsbD_mask 8 i
      rw [BitVec.getLsbD_and, hmask, decide_eq_false h, Bool.and_false, Bool.and_false,
        hbasepri i (by omega)]
  have hctl : (c.specialWord >>> 24) &&& 0x7 = c.control := by
    apply BitVec.eq_of_getLsbD_eq
    intro i hi
    by_cases h : i < 3
    · interval_cases i <;> simp [specialWord, hbit]
    · have hmask : (0x7 : Word).getLsbD i = (decide (i < 32) && decide (i < 3)) :=
        getLsbD_mask 3 i
      rw [BitVec.getLsbD_and, hmask, decide_eq_false h, Bool.and_false, Bool.and_false,
        hcontrol i (by omega)]
  rw [hpri, hctl, bitSet_eq _ (by decide), bitSet_eq _ (by decide)]
  simp [specialWord, hbit]

/-! ## Putting one register back -/

/-- Write register `n` of `d` with the value that it had in `c`. -/
def putBack (c d : Core) (n : Nat) : Core := d.setGdbReg n (c.gdbReg n)

theorem putBack_r (c d : Core) {i : Fin 16} (hi : i ≠ 15) : (c.putBack d i.val).r i = c.r i := by
  have hle : i.val ≤ 14 := by omega
  rw [putBack, setGdbReg, dif_pos hle, gdbReg, dif_pos hle]
  exact setR_same ..

theorem putBack_pc (c d : Core) : (c.putBack d 15).pc = c.pc &&& ~~~1 := rfl

theorem putBack_status (hc : c.Regular) (d : Core) :
    ((c.putBack d 16).n, (c.putBack d 16).z, (c.putBack d 16).c, (c.putBack d 16).v,
      (c.putBack d 16).q, (c.putBack d 16).ipsr) = (c.n, c.z, c.c, c.v, c.q, c.ipsr) :=
  status_xpsr hc.sane.ipsr

theorem putBack_special (hc : c.Regular) (d : Core) :
    ((c.putBack d 20).primask, (c.putBack d 20).basepri, (c.putBack d 20).faultmask,
      (c.putBack d 20).control) = (c.primask, c.basepri, c.faultmask, c.control) := by
  have hword : c.putBack d 20 = Core.setControl { d with
      primask := bitSet c.specialWord 0
      basepri := (c.specialWord >>> 8) &&& 0xff
      faultmask := bitSet c.specialWord 16 } (c.specialWord >>> 24) := rfl
  rw [hword, setControl_eq]
  exact special_specialWord hc

theorem putBack_fpscr (c d : Core) : (c.putBack d 33).fpscr = c.fpscr := rfl

theorem putBack_s (c d : Core) (i : Fin 32) : (c.putBack d (64 + i.val)).s i = c.s i := by
  have hlo : ¬ 64 + i.val ≤ 14 := by omega
  have hin : 64 ≤ 64 + i.val ∧ 64 + i.val ≤ 95 := by omega
  have hidx : (⟨64 + i.val - 64, by omega⟩ : Fin 32) = i := Fin.ext (by dsimp only; omega)
  have hne : ∀ k, k < 64 → 64 + i.val ≠ k := fun k hk => by omega
  simp only [putBack, setGdbReg, gdbReg, dif_neg hlo, if_neg (hne 15 (by decide)),
    if_neg (hne 16 (by decide)), if_neg (hne 17 (by decide)), if_neg (hne 18 (by decide)),
    if_neg (hne 20 (by decide)), if_neg (hne 33 (by decide)), dif_pos hin, hidx,
    Function.update_self]

theorem stack_withStack (c : Core) (s : StackRegs) : (c.withStack s).stack = s := by
  rw [withStack, stack]
  dsimp only
  rw [setR_same]

theorem stack_setControl (c : Core) (v : Word) :
    (c.setControl v).stack = c.stack.select (c.selects v) := by
  rw [setControl_eq]
  exact c.stack_withStack _

/-- With the modes alike, the writes act on the stack pointers as `StackRegs.restore`. -/
theorem putBack_stack (hc : c.Regular) {d : Core} (hmode : d.mode = c.mode) (n : Nat) :
    (c.putBack d n).stack = c.stack.restore d.stack n := by
  by_cases hstack : n ∈ [13, 17, 18, 20]
  · simp only [List.mem_cons, List.not_mem_nil, or_false] at hstack
    rcases hstack with rfl | rfl | rfl | rfl
    · show (d.setR sp (c.r sp)).stack = { d.stack with r13 := c.r sp }
      rw [stack, setR_same]
      rfl
    · show (d.setMsp c.currentMsp).stack = d.stack.setMsp c.currentMsp
      rw [setMsp_eq, stack_withStack]
    · show (d.setPsp c.currentPsp).stack = d.stack.setPsp c.currentPsp
      rw [setPsp_eq, stack_withStack]
    · -- CONTROL selects, and the saved one selects what `c` was on
      have hsel : d.selects (c.specialWord >>> 24) = c.spIsPsp := by
        have hcontrol := congrArg (fun x => x.2.2.2) (special_specialWord hc)
        rw [selects, show (c.specialWord >>> 24) &&& 0x7 = c.control from hcontrol, hmode]
        exact hc.sane.spsel.symm
      show (Core.setControl _ (c.specialWord >>> 24)).stack = d.stack.select c.spIsPsp
      rw [← hsel]
      exact stack_setControl ..
  · rw [putBack, (d.writtenAt_setGdbReg n _).stack hstack, StackRegs.restore]
    simp only [List.mem_cons, List.not_mem_nil, or_false, not_or] at hstack
    rw [if_neg hstack.1, if_neg hstack.2.1, if_neg hstack.2.2.1, if_neg hstack.2.2.2]

/-! ## Putting all of them back -/

section Fold

variable {σ ν α : Type} {w : σ → ν → σ} {π : σ → α}

/-- What no update touches stays. -/
theorem foldl_keeps (hkeep : ∀ s n, π (w s n) = π s) (l : List ν) (s : σ) :
    π (l.foldl w s) = π s := by
  induction l generalizing s with
  | nil => rfl
  | cons n l ih => exact (ih (w s n)).trans (hkeep s n)

/-- What one update sets and the others leave alone is set, wherever that update comes. -/
theorem foldl_sets {k : ν} {x : α} (hset : ∀ s, π (w s k) = x)
    (hkeep : ∀ s n, n ≠ k → π (w s n) = π s) {l : List ν} (hk : k ∈ l) (s : σ) :
    π (l.foldl w s) = x := by
  have hstays : ∀ (l : List ν) (s : σ), π s = x → π (l.foldl w s) = x := by
    intro l
    induction l with
    | nil => exact fun s hs => hs
    | cons n l ih =>
        intro s hs
        refine ih _ ?_
        by_cases hn : n = k
        · rw [hn]
          exact hset s
        · exact (hkeep s n hn).trans hs
  obtain ⟨l₁, l₂, rfl⟩ := List.append_of_mem hk
  rw [List.foldl_append, List.foldl_cons]
  exact hstays l₂ _ (hset _)

end Fold

/-- The numbers of the modelled registers. -/
def debugRegs : List Nat := List.range 19 ++ [20, 33] ++ (List.range 32).map fun i => 64 + i

/-- The context that a debugger has to give back. -/
structure SameContext (c d : Core) : Prop where
  regs : ∀ i : Fin 16, i ≠ 15 → d.r i = c.r i
  pc : d.pc = c.pc
  status : (d.n, d.z, d.c, d.v, d.q, d.ipsr) = (c.n, c.z, c.c, c.v, c.q, c.ipsr)
  mode : d.mode = c.mode
  special : (d.primask, d.basepri, d.faultmask, d.control) =
    (c.primask, c.basepri, c.faultmask, c.control)
  msp : d.msp = c.msp
  psp : d.psp = c.psp
  spIsPsp : d.spIsPsp = c.spIsPsp
  itstate : d.itstate = c.itstate
  s : ∀ i, d.s i = c.s i
  fpscr : d.fpscr = c.fpscr

/-- Put the registers of a list back, one after the other. -/
def putAllBack (c d : Core) (order : List Nat) : Core := order.foldl c.putBack d

section All

variable {d : Core} {order : List Nat}

/-- What a register holds comes back in every order. -/
theorem comes_back {α : Type} (f : Core → α) {k : Nat} {x : α}
    (hset : ∀ d, f (c.putBack d k) = x) (hkeep : ∀ d n v, n ≠ k → f (d.setGdbReg n v) = f d)
    (hk : k ∈ debugRegs) (horder : order.Perm debugRegs) (d : Core) :
    f (c.putAllBack d order) = x :=
  foldl_sets hset (fun d n hn => hkeep d n _ hn) (horder.mem_iff.mpr hk) d

theorem putAllBack_mode (c d : Core) (order : List Nat) : (c.putAllBack d order).mode = d.mode :=
  foldl_keeps (fun d n => (d.writtenAt_setGdbReg n _).mode) order d

theorem putAllBack_itstate (c d : Core) (order : List Nat) :
    (c.putAllBack d order).itstate = d.itstate :=
  foldl_keeps (fun d n => (d.writtenAt_setGdbReg n _).itstate) order d

theorem putAllBack_pc (horder : order.Perm debugRegs) :
    (c.putAllBack d order).pc = c.pc &&& ~~~1 :=
  comes_back (fun e => e.pc) (putBack_pc c) (fun d n _ hn => (d.writtenAt_setGdbReg n _).pc hn)
    (by decide) horder d

theorem putAllBack_stack (hc : c.Regular) (hmode : d.mode = c.mode) (order : List Nat) :
    (c.putAllBack d order).stack = order.foldl c.stack.restore d.stack := by
  induction order generalizing d with
  | nil => rfl
  | cons n order ih =>
      have hnext : (c.putBack d n).mode = c.mode :=
        (d.writtenAt_setGdbReg n _).mode.trans hmode
      show (c.putAllBack (c.putBack d n) order).stack = _
      rw [ih hnext, putBack_stack hc hmode]
      rfl

/-- Every order settles the stack pointers, but for those that clobber a bank. -/
theorem putAllBack_stack_iff (hc : c.Regular) (horder : order.Perm debugRegs)
    (hmode : d.mode = c.mode) :
    (c.putAllBack d order).stack = c.stack ↔
      c.BankCurrent ∧ ¬ c.stack.Clobbers d.stack order := by
  have hperm : (order.filter StackRegs.touches).Perm [13, 17, 18, 20] :=
    (horder.filter _).trans (by decide)
  rw [putAllBack_stack hc hmode, StackRegs.foldl_restore_filter,
    StackRegs.restore_eq_iff hperm, StackRegs.clobbers_filter]
  rfl

theorem even_of_clear {x : Word} (h : x &&& ~~~1 = x) : x &&& 1 = 0 := by
  rw [← h, BitVec.and_assoc]
  exact BitVec.and_zero

/-- Everything but the PC, the stack pointers, the mode and ITSTATE comes back in every order. -/
theorem putAllBack_iff (hc : c.Regular) (horder : order.Perm debugRegs) :
    SameContext c (c.putAllBack d order) ↔
      d.mode = c.mode ∧ d.itstate = c.itstate ∧ c.pc &&& 1 = 0 ∧ c.BankCurrent ∧
        ¬ c.stack.Clobbers d.stack order := by
  constructor
  · intro h
    have hmode : d.mode = c.mode := (c.putAllBack_mode d order).symm.trans h.mode
    refine ⟨hmode, (c.putAllBack_itstate d order).symm.trans h.itstate,
      even_of_clear ((putAllBack_pc horder).symm.trans h.pc),
      (putAllBack_stack_iff hc horder hmode).mp ?_⟩
    rw [stack, h.regs sp (by decide), h.msp, h.psp, h.spIsPsp]
    rfl
  · rintro ⟨hmode, hit, heven, hstack⟩
    have hst := (putAllBack_stack_iff hc horder hmode).mpr hstack
    constructor
    case regs =>
      intro i hi
      by_cases hsp : i = sp
      · rw [hsp]
        exact congrArg StackRegs.r13 hst
      · have hmem : i.val ∈ debugRegs := by
          have hlt : i.val < 15 := by omega
          refine List.mem_append_left _ (List.mem_append_left _ ?_)
          exact List.mem_range.mpr (by omega)
        exact comes_back (fun e => e.r i) (fun d => putBack_r c d hi)
          (fun d n _ hn => (d.writtenAt_setGdbReg n _).r i hsp hn) hmem horder d
    case pc => exact (putAllBack_pc horder).trans (clear_of_even heven)
    case status =>
      exact comes_back (fun e => (e.n, e.z, e.c, e.v, e.q, e.ipsr)) (putBack_status hc)
        (fun d n _ hn => (d.writtenAt_setGdbReg n _).status hn) (by decide) horder d
    case mode => exact (c.putAllBack_mode d order).trans hmode
    case special =>
      exact comes_back (fun e => (e.primask, e.basepri, e.faultmask, e.control))
        (putBack_special hc) (fun d n _ hn => (d.writtenAt_setGdbReg n _).special hn) (by decide)
        horder d
    case msp => exact congrArg StackRegs.msp hst
    case psp => exact congrArg StackRegs.psp hst
    case spIsPsp => exact congrArg StackRegs.onPsp hst
    case itstate => exact (c.putAllBack_itstate d order).trans hit
    case s =>
      intro i
      have hmem : 64 + i.val ∈ debugRegs :=
        List.mem_append_right _ (List.mem_map.mpr ⟨i.val, List.mem_range.mpr i.isLt, rfl⟩)
      exact comes_back (fun e => e.s i) (fun d => putBack_s c d i)
        (fun d n _ hn => (d.writtenAt_setGdbReg n _).s i hn) hmem horder d
    case fpscr =>
      exact comes_back (fun e => e.fpscr) (putBack_fpscr c)
        (fun d n _ hn => (d.writtenAt_setGdbReg n _).fpscr hn) (by decide) horder d

end All

end Core

/-! ## Through the debug port -/

namespace DebugTarget

open SwDp

variable {δ : Type} [Mmio δ]

/-- Read a core register: select it in DCRSR, and read DCRDR. -/
def readRegister (t : DebugTarget δ) (n : Nat) : Option (Word × DebugTarget δ) := do
  let t ← t.memWriteWord dcrsr (BitVec.ofNat 32 n)
  t.memReadWord dcrdrAddr

/-- Write a core register: the value to DCRDR, and the register to DCRSR with the write bit. -/
def writeRegister (t : DebugTarget δ) (n : Nat) (v : Word) : Option (DebugTarget δ) := do
  let t ← t.memWriteWord dcrdrAddr v
  t.memWriteWord dcrsr (BitVec.ofNat 32 n ||| ((1 : Word) <<< 16))

def readRegisters : List Nat → DebugTarget δ → Option (List (Nat × Word) × DebugTarget δ)
  | [], t => some ([], t)
  | n :: ns, t => do
      let (v, t) ← t.readRegister n
      let (vs, t) ← readRegisters ns t
      some ((n, v) :: vs, t)

def writeRegisters : List (Nat × Word) → DebugTarget δ → Option (DebugTarget δ)
  | [], t => some t
  | (n, v) :: ws, t => do
      let t ← t.writeRegister n v
      writeRegisters ws t

/-- REGSEL and the write bit of a DCRSR value. -/
theorem regsel_ofNat {n : Nat} (hn : n < 128) :
    (BitVec.ofNat 32 n &&& (0x7F : Word)).toNat = n ∧
      (BitVec.ofNat 32 n &&& ((1 : Word) <<< 16) != 0) = false ∧
      ((BitVec.ofNat 32 n ||| ((1 : Word) <<< 16)) &&& (0x7F : Word)).toNat = n ∧
      ((BitVec.ofNat 32 n ||| ((1 : Word) <<< 16)) &&& ((1 : Word) <<< 16) != 0) = true := by
  have hall : ∀ k : Fin 128, (BitVec.ofNat 32 k.val &&& (0x7F : Word)).toNat = k.val ∧
      (BitVec.ofNat 32 k.val &&& ((1 : Word) <<< 16) != 0) = false ∧
      ((BitVec.ofNat 32 k.val ||| ((1 : Word) <<< 16)) &&& (0x7F : Word)).toNat = k.val ∧
      ((BitVec.ofNat 32 k.val ||| ((1 : Word) <<< 16)) &&& ((1 : Word) <<< 16) != 0) = true := by
    decide +kernel
  exact hall ⟨n, hn⟩

theorem readRegister_eq (t : DebugTarget δ) {n : Nat} (hn : n < 128) :
    t.readRegister n = some (t.core.gdbReg n,
      { t with port := { t.port with dcrdr := t.core.gdbReg n } }) := by
  obtain ⟨hsel, hread, -, -⟩ := regsel_ofNat hn
  have hdcrsr : t.port.writeDcrsr t.core (BitVec.ofNat 32 n) =
      ({ t.port with dcrdr := t.core.gdbReg n }, t.core) := by
    rw [writeDcrsr, hread, hsel]
    rfl
  rw [readRegister, memWriteWord, if_neg (by decide), if_pos rfl, hdcrsr]
  rfl

theorem writeRegister_eq (t : DebugTarget δ) {n : Nat} (hn : n < 128) (v : Word) :
    t.writeRegister n v = some
      { t with port := { t.port with dcrdr := v }, core := t.core.setGdbReg n v } := by
  obtain ⟨-, -, hsel, hwrite⟩ := regsel_ofNat hn
  have hdcrsr : SwDp.writeDcrsr { t.port with dcrdr := v } t.core
      (BitVec.ofNat 32 n ||| ((1 : Word) <<< 16)) =
      ({ t.port with dcrdr := v }, t.core.setGdbReg n v) := by
    rw [writeDcrsr, hwrite, hsel]
    rfl
  have hdcrdr : t.memWriteWord dcrdrAddr v =
      some { t with port := { t.port with dcrdr := v } } := rfl
  rw [writeRegister, hdcrdr]
  show memWriteWord _ dcrsr _ = _
  rw [memWriteWord, if_neg (by decide), if_pos rfl, hdcrsr]

/-- Reading registers gives their values and leaves the core alone. -/
theorem readRegisters_eq {ns : List Nat} (hns : ∀ n ∈ ns, n < 128) (t : DebugTarget δ) :
    ∃ port, readRegisters ns t =
      some (ns.map fun n => (n, t.core.gdbReg n), { t with port := port }) := by
  induction ns generalizing t with
  | nil => exact ⟨t.port, rfl⟩
  | cons n ns ih =>
      obtain ⟨port, hrest⟩ := ih (fun k hk => hns k (List.mem_cons_of_mem _ hk))
        { t with port := { t.port with dcrdr := t.core.gdbReg n } }
      refine ⟨port, ?_⟩
      rw [readRegisters, t.readRegister_eq (hns n List.mem_cons_self)]
      show (readRegisters ns _ >>= _) = _
      rw [hrest]
      rfl

theorem writeRegisters_eq {ws : List (Nat × Word)} (hws : ∀ x ∈ ws, x.1 < 128)
    (t : DebugTarget δ) :
    ∃ port, writeRegisters ws t = some { t with
      port := port, core := ws.foldl (fun d x => d.setGdbReg x.1 x.2) t.core } := by
  induction ws generalizing t with
  | nil => exact ⟨t.port, rfl⟩
  | cons x ws ih =>
      obtain ⟨port, hrest⟩ := ih (fun y hy => hws y (List.mem_cons_of_mem _ hy))
        { t with port := { t.port with dcrdr := x.2 }, core := t.core.setGdbReg x.1 x.2 }
      refine ⟨port, ?_⟩
      rw [writeRegisters, t.writeRegister_eq (hws x List.mem_cons_self)]
      exact hrest

end DebugTarget

theorem debugRegs_lt {n : Nat} (hn : n ∈ Core.debugRegs) : n < 128 := by
  have hall : ∀ k ∈ Core.debugRegs, k < 128 := by decide
  exact hall n hn

/-- The written values are those that were read, in the order of the writes. -/
theorem foldl_written {c d : Core} {regs : List Nat} {ws : List (Nat × Word)}
    (hws : ws.Perm (regs.map fun n => (n, c.gdbReg n))) :
    (ws.map Prod.fst).Perm regs ∧
      ws.foldl (fun d x => d.setGdbReg x.1 x.2) d = c.putAllBack d (ws.map Prod.fst) := by
  constructor
  · have hfst := hws.map Prod.fst
    rwa [List.map_map, show (Prod.fst ∘ fun n => (n, c.gdbReg n)) = id from rfl,
      List.map_id] at hfst
  · have hval : ∀ x ∈ ws, x.2 = c.gdbReg x.1 := by
      intro x hx
      obtain ⟨n, -, rfl⟩ := List.mem_map.mp (hws.mem_iff.mp hx)
      rfl
    rw [Core.putAllBack, List.foldl_map]
    clear hws
    induction ws generalizing d with
    | nil => rfl
    | cons x ws ih =>
        rw [List.foldl_cons, List.foldl_cons, Core.putBack, hval x List.mem_cons_self]
        exact ih fun y hy => hval y (List.mem_cons_of_mem _ hy)

theorem passes_iff {c : Core} :
    (∀ d : Decoded, c.passes d.isIt = true) ↔
      (c.inIt = true → c.condHolds (Core.condFromBits ((c.itstate >>> 4) &&& 0xF)) = true) := by
  constructor
  · intro h hin
    have hfirst := h ⟨0, 4, none⟩
    rw [Core.passes, hin] at hfirst
    exact hfirst
  · intro h d
    rw [Core.passes]
    split
    · next hcond =>
        rw [Bool.and_eq_true] at hcond
        exact h hcond.1
    · rfl

/-- A core is given back by saving its registers and writing them back, whatever core the program in
between leaves, exactly when that one has the mode and the ITSTATE of the saved one, the saved PC
is even, the bank of its active stack pointer was up to date, and no bank is clobbered. The first
instruction that a debugger starts on a core runs, whichever it is, exactly when the core was found
outside an IT block or the condition of its position holds. -/
theorem context_restored_iff {δ : Type} [Mmio δ] {isa : Isa} {verifier : Verifier}
    {t t₁ t₂ : DebugTarget δ} {regs : List Nat} {vals ws : List (Nat × Word)} {port : SwDp}
    {d : Core} {b : Bus δ} (hreach : CoreRun.Reachable (δ := δ) isa verifier t.core)
    (hregs : regs.Perm Core.debugRegs) (hsave : t.readRegisters regs = some (vals, t₁))
    (hws : ws.Perm vals) (hrestore : DebugTarget.writeRegisters ws ⟨port, d, b⟩ = some t₂) :
    (Core.SameContext t.core t₂.core ↔
      d.mode = t.core.mode ∧ d.itstate = t.core.itstate ∧ t.core.pc &&& 1 = 0 ∧
        t.core.BankCurrent ∧ ¬ t.core.stack.Clobbers d.stack (ws.map Prod.fst)) ∧
    ∀ (inits : List (Nat × Word)) (t' : DebugTarget δ), (∀ x ∈ inits, x.1 < 128) →
      DebugTarget.writeRegisters inits t₁ = some t' →
        ((∀ d : Decoded, t'.core.passes d.isIt = true) ↔
          (t.core.inIt = true →
            t'.core.condHolds (Core.condFromBits ((t.core.itstate >>> 4) &&& 0xF)) = true)) := by
  obtain ⟨port₁, hread⟩ := DebugTarget.readRegisters_eq
    (fun n hn => debugRegs_lt (hregs.mem_iff.mp hn)) t
  rw [hread] at hsave
  cases hsave
  obtain ⟨horder, hfold⟩ := foldl_written (d := d) hws
  constructor
  · have hlt : ∀ x ∈ ws, x.1 < 128 := fun x hx =>
      debugRegs_lt (hregs.mem_iff.mp (horder.mem_iff.mp (List.mem_map_of_mem hx)))
    obtain ⟨port₂, hwrite⟩ := DebugTarget.writeRegisters_eq hlt ⟨port, d, b⟩
    rw [hwrite] at hrestore
    cases hrestore
    rw [hfold]
    exact Core.putAllBack_iff (Core.Regular.of_reachable hreach) (horder.trans hregs)
  · intro inits t' hlt hstart
    obtain ⟨port', hwrite⟩ := DebugTarget.writeRegisters_eq hlt { t with port := port₁ }
    rw [hwrite] at hstart
    cases hstart
    have hit : (inits.foldl (fun d x => d.setGdbReg x.1 x.2) t.core).itstate = t.core.itstate :=
      Core.foldl_keeps (fun d (x : Nat × Word) => (d.writtenAt_setGdbReg x.1 x.2).itstate) _ _
    rw [passes_iff, Core.inIt, Core.inIt, hit]

/-! ## A core halted in an IT block -/

/-- A core that was just set up, on a bus without memory. -/
def freshTarget : DebugTarget Unit :=
  ⟨SwDp.new, Core.new.reset 0x20000800 0x08000000, Bus.new ()⟩

/-- A program that set some registers and masked the interrupts. -/
def afterProgram : Core :=
  { (Core.new.setR 3 7).setR Core.sp 0x20000100 with primask := true, n := true, pc := 0x100 }

theorem context_restored_iff_fresh :
    ∃ (vals : List (Nat × Word)) (t₁ t₂ : DebugTarget Unit),
      freshTarget.readRegisters Core.debugRegs = some (vals, t₁) ∧
      DebugTarget.writeRegisters vals ⟨SwDp.new, afterProgram, Bus.new ()⟩ = some t₂ ∧
      Core.SameContext freshTarget.core t₂.core ∧
      ∃ t' : DebugTarget Unit, DebugTarget.writeRegisters [(15, 0x100)] t₁ = some t' ∧
        ∀ d : Decoded, t'.core.passes d.isIt = true := by
  obtain ⟨port, hread⟩ := DebugTarget.readRegisters_eq (fun _ hn => debugRegs_lt hn) freshTarget
  have hlt : ∀ x ∈ Core.debugRegs.map fun n => (n, freshTarget.core.gdbReg n), x.1 < 128 := by
    intro x hx
    obtain ⟨n, hn, rfl⟩ := List.mem_map.mp hx
    exact debugRegs_lt hn
  obtain ⟨port₂, hwrite⟩ :=
    DebugTarget.writeRegisters_eq hlt ⟨SwDp.new, afterProgram, Bus.new ()⟩
  have hpc : ∀ x ∈ [((15 : Nat), (0x100 : Word))], x.1 < 128 := by decide
  obtain ⟨port₃, hstart⟩ := DebugTarget.writeRegisters_eq hpc { freshTarget with port := port }
  have hreach : CoreRun.Reachable (δ := Unit) nopIsa Core.noVerifier freshTarget.core :=
    ⟨_, _, DecodeCache.new, Bus.new (), [], _, rfl, rfl⟩
  have h := context_restored_iff hreach (List.Perm.refl _) hread (List.Perm.refl _) hwrite
  refine ⟨_, _, _, hread, hwrite, h.1.mpr ⟨rfl, rfl, by decide, Core.bankCurrent_boot .., ?_⟩,
    _, hstart, (h.2 _ _ (by decide) hstart).mpr fun hin => ?_⟩
  · exact fun hclob => hclob.1 rfl
  · exact absurd hin (by decide)

/-- IT of condition EQ with two positions, decoded at every address. -/
def itCache : DecodeCache :=
  { DecodeCache.new with
    entries := fun _ => some ⟨0xBF04, 2, some ⟨.it, .al, false, .imm32 0, .imm32 0xC, .nothing,
      .nothing⟩⟩ }

/-- NOP, decoded at every address. -/
def nopCache : DecodeCache :=
  { DecodeCache.new with
    entries := fun _ => some ⟨0xBF00, 2, some ⟨.nop, .al, false, .nothing, .nothing, .nothing,
      .nothing⟩⟩ }

/-- The core that a debugger finds after an IT, the one that it starts at 0x08000100, and the one
that it gives back after two NOPs there. -/
def saveRunRestore : Option (Core × Core × Core) := do
  let m ← Runs.run (CoreRun.step nopIsa Core.noVerifier) [.step]
    (CoreRun.boot 0x20000800 0x08000000 itCache (Bus.new ()))
  let (vals, t) ← DebugTarget.readRegisters Core.debugRegs ⟨SwDp.new, m.core, m.bus⟩
  let t ← t.writeRegister 15 0x08000100
  let m' ← Runs.run (CoreRun.step nopIsa Core.noVerifier) [.step, .step]
    ⟨t.core, nopCache, t.bus⟩
  let t' ← DebugTarget.writeRegisters vals ⟨t.port, m'.core, m'.bus⟩
  some (m.core, t.core, t'.core)

/-- The first NOP is skipped, and ITSTATE is not given back. -/
theorem context_not_restored :
    ∃ found started restored : Core, saveRunRestore = some (found, started, restored) ∧
      started.passes false = false ∧ ¬ Core.SameContext found restored := by
  have hrun : saveRunRestore.map (fun x => (x.1.itstate, x.2.1.passes false, x.2.2.itstate)) =
      some (0x0C, false, 0) := by decide +kernel
  obtain ⟨⟨found, started, restored⟩, hx, heq⟩ := Option.map_eq_some_iff.mp hrun
  simp only [Prod.mk.injEq] at heq
  refine ⟨found, started, restored, hx, heq.2.1, fun hsame => ?_⟩
  have hit := hsame.itstate
  rw [heq.1, heq.2.2] at hit
  exact absurd hit (by decide)

end SpEmu
