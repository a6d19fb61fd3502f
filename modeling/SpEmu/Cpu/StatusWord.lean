import SpEmu.Cpu.Core
import Mathlib.Tactic.IntervalCases

/-!
# The stacked status word

xPSR carries the flags, ITSTATE in two pieces and the exception number. Unstacking what
`buildXpsr` stacked gives them back: the pieces do not overlap.
-/

set_option autoImplicit false

namespace SpEmu

open ByteMem

namespace Core

/-! ## Bits of a word -/

theorem bitSet_eq (x : Word) {k : Nat} (hk : k < 32) : bitSet x k = x.getLsbD k := by
  show (x &&& BitVec.twoPow 32 k != 0) = x.getLsbD k
  rw [BitVec.and_twoPow]
  cases hx : x.getLsbD k with
  | false => rfl
  | true =>
      rw [if_pos rfl, bne_iff_ne]
      intro heq
      have hbit := congrArg (fun y => BitVec.getLsbD y k) heq
      simp only [BitVec.getLsbD_twoPow, decide_eq_true hk, decide_true, Bool.and_true] at hbit
      rw [show (0 : Word) = 0#32 from rfl, BitVec.getLsbD_zero] at hbit
      exact Bool.noConfusion hbit

theorem getLsbD_flagBit (b : Bool) {k : Nat} (hk : k < 32) (i : Nat) :
    (flagBit b k).getLsbD i = (b && decide (k = i)) := by
  cases b with
  | false =>
      show ((0#32) <<< k).getLsbD i = false
      rw [BitVec.zero_shiftLeft, BitVec.getLsbD_zero]
  | true =>
      show (BitVec.twoPow 32 k).getLsbD i = (true && decide (k = i))
      rw [BitVec.getLsbD_twoPow, decide_eq_true hk]

@[simp] theorem getElem_flagBit (b : Bool) {k i : Nat} (hk : k < 32) (hi : i < 32) :
    (flagBit b k)[i] = (b && decide (k = i)) := by
  rw [← BitVec.getLsbD_eq_getElem]
  exact getLsbD_flagBit b hk i

theorem and_mask_of_lt {x : Word} (h : x < 512) : x &&& 0x1ff = x := by
  apply BitVec.eq_of_toNat_eq
  rw [BitVec.toNat_and, show (0x1ff : Word).toNat = 2 ^ 9 - 1 from rfl,
    Nat.and_two_pow_sub_one_eq_mod]
  exact Nat.mod_eq_of_lt h

/-- Clearing bit 0 of an even address changes nothing. -/
theorem clear_of_even {x : Word} (h : x &&& 1 = 0) : x &&& ~~~1 = x := by
  have hsplit : x &&& ~~~1 ||| x &&& 1 = x := by
    rw [← BitVec.and_or_distrib_left, BitVec.or_comm, BitVec.or_not_self]
    exact BitVec.and_allOnes
  rw [h] at hsplit
  exact (BitVec.or_zero ..).symm.trans hsplit

/-! ## The round trip -/

variable (c : Core)

theorem itstate_buildXpsr : itstateFromXpsr c.buildXpsr = c.itstate := by
  apply BitVec.eq_of_getLsbD_eq
  intro i hi
  interval_cases i <;> simp [itstateFromXpsr, buildXpsr]

theorem flags_buildXpsr :
    bitSet c.buildXpsr 31 = c.n ∧ bitSet c.buildXpsr 30 = c.z ∧ bitSet c.buildXpsr 29 = c.c ∧
      bitSet c.buildXpsr 28 = c.v ∧ bitSet c.buildXpsr 27 = c.q := by
  rw [bitSet_eq _ (by decide), bitSet_eq _ (by decide), bitSet_eq _ (by decide),
    bitSet_eq _ (by decide), bitSet_eq _ (by decide)]
  refine ⟨?_, ?_, ?_, ?_, ?_⟩ <;> simp [buildXpsr]

theorem ipsr_buildXpsr : c.buildXpsr &&& 0x1ff = c.ipsr &&& 0x1ff := by
  apply BitVec.eq_of_getLsbD_eq
  intro i hi
  by_cases h : i < 9
  · interval_cases i <;> simp [buildXpsr]
  · have hmask : (0x1ff : Word).getLsbD i = (decide (i < 32) && decide (i < 9)) :=
      getLsbD_mask 9 i
    rw [BitVec.getLsbD_and, BitVec.getLsbD_and, hmask, decide_eq_false h, Bool.and_false,
      Bool.and_false, Bool.and_false]

end Core

end SpEmu
