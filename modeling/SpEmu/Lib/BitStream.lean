import Mathlib.Data.List.GetD
import Mathlib.Tactic.Common

/-!
# Frames of a serial bit stream

`frame len x` are the low `len` bits of `x` in the order in which a master clocks them out, the
most significant one first. `shifted w bs` is what a shift register of width `w` holds once it has
taken in the bits `bs`; `shifted_append` says what the arithmetic of a receiver makes of one more
frame, so that the widths of the frames drop out of every later argument. `reverse_field` recovers
a field that was sent least significant bit first.
-/

set_option autoImplicit false

namespace BitStream

/-- The low `len` bits, the most significant one first. -/
def frame {w : Nat} (len : Nat) (x : BitVec w) : List Bool :=
  ((List.range len).map x.getLsbD).reverse

/-- All bits, the least significant one first. -/
def lsbFirst {w : Nat} (x : BitVec w) : List Bool := (List.range w).map x.getLsbD

/-- The shift register of width `w` after the bits `bs`. -/
def shifted (w : Nat) (bs : List Bool) : BitVec w := (BitVec.ofBoolListBE bs).setWidth w

variable {w v : Nat}

@[simp] theorem length_frame (len : Nat) (x : BitVec w) : (frame len x).length = len := by
  rw [frame, List.length_reverse, List.length_map, List.length_range]

@[simp] theorem length_lsbFirst (x : BitVec w) : (lsbFirst x).length = w := by
  rw [lsbFirst, List.length_map, List.length_range]

theorem getD_frame {len i : Nat} (x : BitVec w) (hi : i < len) :
    (frame len x).getD (len - 1 - i) false = x.getLsbD i := by
  have hback : len - 1 - (len - 1 - i) = i := by omega
  rw [frame, List.getD_eq_getElem?_getD, List.getElem?_reverse (by simp; omega), List.length_map,
    List.length_range, hback, List.getElem?_map, List.getElem?_range hi]
  rfl

theorem getD_lsbFirst (x : BitVec w) (i : Nat) : (lsbFirst x).getD i false = x.getLsbD i := by
  rw [lsbFirst, List.getD_eq_getElem?_getD, List.getElem?_map]
  by_cases hi : i < w
  · rw [List.getElem?_range hi]
    rfl
  · rw [List.getElem?_eq_none (by simpa using hi), BitVec.getLsbD_of_ge x i (Nat.le_of_not_lt hi)]
    rfl

@[simp] theorem shifted_nil : shifted w [] = 0 := by
  apply BitVec.eq_of_getLsbD_eq
  intro i hi
  simp [shifted]

theorem getLsbD_shifted {bs : List Bool} {i : Nat} (hi : i < w) :
    (shifted w bs).getLsbD i = (decide (i < bs.length) && bs.getD (bs.length - 1 - i) false) := by
  rw [shifted, BitVec.getLsbD_setWidth, BitVec.getLsbD_ofBoolListBE, decide_eq_true hi,
    Bool.true_and]

/-- One more frame: shift the register and put the masked frame into its low bits. -/
theorem shifted_append {len : Nat} (bs : List Bool) (x : BitVec v) (hlen : len < w) :
    shifted w (bs ++ frame len x) =
      (shifted w bs <<< len) ||| (x.setWidth w &&& ((1#w <<< len) - 1#w)) := by
  have hmask : ∀ i, i < w → ((1#w <<< len) - 1#w).getLsbD i = decide (i < len) := by
    intro i hi
    have hpow : 2 ^ len < 2 ^ w := Nat.pow_lt_pow_right (by decide) hlen
    have hone : (1#w <<< len).toNat = 2 ^ len := by
      rw [BitVec.toNat_shiftLeft, BitVec.toNat_ofNat, Nat.shiftLeft_eq,
        Nat.mod_eq_of_lt (Nat.one_lt_two_pow (by omega)), Nat.one_mul, Nat.mod_eq_of_lt hpow]
    have hunit : (1#w).toNat = 1 := Nat.mod_eq_of_lt (Nat.one_lt_two_pow (by omega))
    have hsub : ((1#w <<< len) - 1#w).toNat = 2 ^ len - 1 := by
      rw [BitVec.toNat_sub_of_le, hone, hunit]
      rw [BitVec.le_def, hone, hunit]
      exact Nat.one_le_two_pow
    rw [BitVec.getLsbD, hsub, Nat.testBit_two_pow_sub_one]
  apply BitVec.eq_of_getLsbD_eq
  intro i hi
  rw [getLsbD_shifted hi, BitVec.getLsbD_or, BitVec.getLsbD_and, hmask i hi,
    BitVec.getLsbD_setWidth, BitVec.getLsbD_shiftLeft, List.length_append, length_frame]
  by_cases hlow : i < len
  · -- a bit of the frame
    have hright : bs.length ≤ bs.length + len - 1 - i := by omega
    have hindex : bs.length + len - 1 - i - bs.length = len - 1 - i := by omega
    rw [List.getD_append_right _ _ _ _ hright, hindex, getD_frame x hlow]
    simp [hlow, hi]
    omega
  · -- a bit from before
    have hold : (shifted w bs).getLsbD (i - len) =
        (decide (i - len < bs.length) && bs.getD (bs.length - 1 - (i - len)) false) :=
      getLsbD_shifted (by omega)
    by_cases hin : i < bs.length + len
    · have hleft : bs.length + len - 1 - i < bs.length := by omega
      have hindex : bs.length + len - 1 - i = bs.length - 1 - (i - len) := by omega
      rw [List.getD_append _ _ _ _ hleft, hold, hindex]
      simp [hlow, hi, hin]
      omega
    · rw [hold]
      simp [hlow, hi, hin]
      omega

/-- A field that was sent least significant bit first, between other bits. -/
theorem reverse_field (pre post : List Bool) (d : BitVec v)
    (hw : pre.length + v + post.length ≤ w) :
    ((shifted w (pre ++ lsbFirst d ++ post) >>> post.length).setWidth v).reverse = d := by
  apply BitVec.eq_of_getLsbD_eq
  intro i hi
  have hbit : v - 1 - i < v := by omega
  have hindex : (pre ++ lsbFirst d ++ post).length - 1 - (post.length + (v - 1 - i)) =
      pre.length + i := by
    rw [List.length_append, List.length_append, length_lsbFirst]
    omega
  have hin : post.length + (v - 1 - i) < (pre ++ lsbFirst d ++ post).length := by
    rw [List.length_append, List.length_append, length_lsbFirst]
    omega
  rw [BitVec.getLsbD_reverse, BitVec.getMsbD_eq_getLsbD, BitVec.getLsbD_setWidth,
    BitVec.getLsbD_ushiftRight, getLsbD_shifted (by omega), hindex, decide_eq_true hi,
    decide_eq_true hbit, decide_eq_true hin, Bool.true_and, Bool.true_and, Bool.true_and,
    List.append_assoc, List.getD_append_right _ _ _ _ (by omega), Nat.add_sub_cancel_left,
    List.getD_append _ _ _ _ (by rw [length_lsbFirst]; exact hi), getD_lsbFirst]

end BitStream
