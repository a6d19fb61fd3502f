import Mathlib.Data.BitVec

/-!
# Signed fields of a word

An instruction word holds a signed number in a field that is narrower than the word. A field of `n`
bits holds the numbers of `FitsIn n`. A processor extends the sign by shifting the field to the top
of the word and back (`signed_of_field`).
-/

set_option autoImplicit false

namespace SignedField

/-- The numbers that `n` bits hold in two's complement. -/
def FitsIn (n : Nat) (v : Int) : Prop := -2 ^ (n - 1) ≤ v ∧ v < 2 ^ (n - 1)

instance (n : Nat) (v : Int) : Decidable (FitsIn n v) :=
  inferInstanceAs (Decidable (_ ∧ _))

variable {w n : Nat}

/-- A mask of ones keeps the low bits. -/
theorem and_lowMask (x : BitVec w) (n : Nat) :
    x &&& BitVec.ofNat w (2 ^ n - 1) = (x.setWidth n).setWidth w := by
  apply BitVec.eq_of_getLsbD_eq
  intro i hi
  simp only [BitVec.getLsbD_and, BitVec.getLsbD_ofNat, Nat.testBit_two_pow_sub_one,
    BitVec.getLsbD_setWidth, hi, decide_true, Bool.true_and]
  exact Bool.and_comm _ _

/-- The low bits of a number are the number in fewer bits. -/
theorem setWidth_ofInt (v : Int) (h : n ≤ w) :
    (BitVec.ofInt w v).setWidth n = BitVec.ofInt n v := by
  rw [← BitVec.signExtend_eq_setWidth_of_le _ h]
  apply BitVec.eq_of_toInt_eq
  rw [BitVec.toInt_signExtend, BitVec.toInt_ofInt, BitVec.toInt_ofInt, Nat.min_eq_left h]
  exact Int.bmod_bmod_of_dvd (Nat.pow_dvd_pow 2 h)

theorem signExtend_ofInt {v : Int} (hn : 0 < n) (h : FitsIn n v) :
    (BitVec.ofInt n v).signExtend w = BitVec.ofInt w v := by
  rw [BitVec.signExtend, BitVec.toInt_ofInt_eq_self hn h.1 h.2]

/-- A shift to the top of the word and back extends the sign of the low bits. -/
theorem sshiftRight_shiftLeft (x : BitVec w) (hn : 0 < n) (h : n ≤ w) :
    (x <<< (w - n)).sshiftRight (w - n) = (x.setWidth n).signExtend w := by
  ext i hi
  rw [BitVec.getElem_sshiftRight, BitVec.getElem_signExtend]
  by_cases hlow : i < n
  · have hin : w - n + i < w := by omega
    have hsub : w - n + i - (w - n) = i := by omega
    simp [hlow, hin, hsub, hi]
  · -- above the field every bit is its sign
    have hout : ¬ w - n + i < w := by omega
    have htop : w - 1 - (w - n) = n - 1 := by omega
    have hnot : ¬ w - 1 < w - n := by omega
    have hlast : w - 1 < w := by omega
    have hn1 : n - 1 < n := by omega
    simp only [hout, hlow, BitVec.msb_eq_getLsbD_last, BitVec.getLsbD_shiftLeft, htop, hnot, hlast,
      hn1, BitVec.getLsbD_setWidth, dite_false, decide_true, decide_false, Bool.not_false,
      Bool.true_and]

/-- A field whose low bits are those of a number that fits is that number. -/
theorem signed_of_field {x : BitVec w} {v : Int} (hn : 0 < n) (hw : n ≤ w) (h : FitsIn n v)
    (hx : x.setWidth n = BitVec.ofInt n v) :
    (x <<< (w - n)).sshiftRight (w - n) = BitVec.ofInt w v := by
  rw [sshiftRight_shiftLeft x hn hw, hx, signExtend_ofInt hn h]

/-- An even number is its half shifted up by a bit. -/
theorem ofInt_half_shiftLeft {v : Int} (h : v % 2 = 0) :
    BitVec.ofInt w (v / 2) <<< 1 = BitVec.ofInt w v := by
  have hv : v = v / 2 * 2 := by omega
  rw [BitVec.shiftLeft_eq_mul_twoPow]
  conv_rhs => rw [hv, BitVec.ofInt_mul]
  congr 1
  apply BitVec.eq_of_toNat_eq
  simp

/-- The bits of an even number above the lowest one are its half. -/
theorem extract_half {v : Int} (h : v % 2 = 0) (hn : n + 1 ≤ w) :
    (BitVec.ofInt w v).extractLsb' 1 n = BitVec.ofInt n (v / 2) := by
  rw [← ofInt_half_shiftLeft h, ← setWidth_ofInt (w := w) (n := n) (v / 2) (by omega)]
  apply BitVec.eq_of_getLsbD_eq
  intro i hi
  have hlt : 1 + i < w := by omega
  have hge : ¬ 1 + i < 1 := by omega
  simp only [BitVec.getLsbD_extractLsb', BitVec.getLsbD_shiftLeft, BitVec.getLsbD_setWidth, hi, hlt,
    hge, decide_true, decide_false, Bool.not_false, Bool.true_and, Nat.add_sub_cancel_left]

theorem getLsbD_zero_of_even {v : Int} (h : v % 2 = 0) : (BitVec.ofInt w v).getLsbD 0 = false := by
  rw [← ofInt_half_shiftLeft h]
  simp

theorem FitsIn.half {v : Int} (h : FitsIn (n + 2) v) : FitsIn (n + 1) (v / 2) := by
  obtain ⟨hlo, hhi⟩ := h
  have hpow : (2 : Int) ^ (n + 2 - 1) = 2 ^ (n + 1 - 1) * 2 := by
    rw [← Int.pow_succ]
    congr 1
  constructor <;> omega

end SignedField
