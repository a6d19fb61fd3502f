import Mathlib.Data.BitVec

/-!
# The adder and the shifter of a processor

`addWithCarry` adds two words and a carry over the unbounded integers and derives the four flags
from what does not fit. `shiftWithCarry` shifts a word and gives the bit that was shifted out last.
Both are stated for any width, without the formulas that implementations use for the flags.

`carry_eq`, `overflow_eq` and `sub_carry` relate the flags of the adder to these formulas.
-/

set_option autoImplicit false

namespace Adder

/-- A result with its negative, zero, carry and overflow flags. -/
structure Sum (w : Nat) where
  result : BitVec w
  n : Bool
  z : Bool
  c : Bool
  v : Bool
  deriving DecidableEq, Repr

variable {w : Nat}

/-- The sum of two words and a carry. The carry flag says that the unsigned sum does not fit, the
overflow flag that the signed one does not. -/
def addWithCarry (x y : BitVec w) (carryIn : Bool) : Sum w :=
  let unsignedSum : Nat := x.toNat + y.toNat + carryIn.toNat
  let signedSum : Int := x.toInt + y.toInt + carryIn.toNat
  let result := BitVec.ofNat w unsignedSum
  { result := result
    n := result.msb
    z := decide (result = 0)
    c := decide (result.toNat ≠ unsignedSum)
    v := decide (result.toInt ≠ signedSum) }

variable (x y : BitVec w) (carryIn : Bool)

theorem result_eq : (addWithCarry x y carryIn).result = x + y + BitVec.ofNat w carryIn.toNat := by
  apply BitVec.eq_of_toNat_eq
  simp only [addWithCarry, BitVec.toNat_ofNat, BitVec.toNat_add]
  rw [← Nat.add_mod]

/-- The carry is the bit of the unsigned sum above the word. -/
theorem carry_eq :
    (addWithCarry x y carryIn).c = decide (2 ^ w ≤ x.toNat + y.toNat + carryIn.toNat) := by
  have hpos : 0 < 2 ^ w := Nat.two_pow_pos w
  simp only [addWithCarry, BitVec.toNat_ofNat]
  apply decide_eq_decide.mpr
  constructor
  · intro hne
    by_contra hlt
    exact hne (Nat.mod_eq_of_lt (Nat.lt_of_not_le hlt))
  · intro hle heq
    have hlt := Nat.mod_lt (x.toNat + y.toNat + carryIn.toNat) hpos
    omega

/-- The carry of a sum in two steps is the carry of either step. -/
theorem carry_two_steps (hw : 0 < w) :
    (addWithCarry x y carryIn).c =
      (BitVec.uaddOverflow x y ||
        BitVec.uaddOverflow (x + y) (BitVec.ofNat w carryIn.toNat)) := by
  have hpow : 2 ≤ 2 ^ w := by
    calc 2 = 2 ^ 1 := rfl
      _ ≤ 2 ^ w := Nat.pow_le_pow_right (by decide) hw
  have hx := x.isLt
  have hy := y.isLt
  have hc : carryIn.toNat ≤ 1 := Bool.toNat_le carryIn
  have hcmod : carryIn.toNat % 2 ^ w = carryIn.toNat := Nat.mod_eq_of_lt (by omega)
  rw [carry_eq, BitVec.uaddOverflow, BitVec.uaddOverflow, BitVec.toNat_add, BitVec.toNat_ofNat,
    hcmod, ← Bool.decide_or]
  apply decide_eq_decide.mpr
  by_cases hover : 2 ^ w ≤ x.toNat + y.toNat
  · have hmod : (x.toNat + y.toNat) % 2 ^ w = x.toNat + y.toNat - 2 ^ w := by
      rw [Nat.mod_eq_sub_mod hover]
      exact Nat.mod_eq_of_lt (by omega)
    rw [hmod]
    omega
  · rw [Nat.mod_eq_of_lt (Nat.lt_of_not_le hover)]
    omega

/-- A subtraction is an addition of the complement with a carry, which is set where nothing is
borrowed. -/
theorem sub_result : (addWithCarry x (~~~y) true).result = x - y := by
  rw [result_eq, BitVec.sub_eq_add_neg, BitVec.neg_eq_not_add, BitVec.add_assoc]
  rfl

theorem sub_carry : (addWithCarry x (~~~y) true).c = !BitVec.usubOverflow x y := by
  have hx := x.isLt
  have hy := y.isLt
  rw [carry_eq, BitVec.usubOverflow, BitVec.toNat_not, ← decide_not]
  apply decide_eq_decide.mpr
  show 2 ^ w ≤ x.toNat + (2 ^ w - 1 - y.toNat) + 1 ↔ _
  omega

/-- There is a signed overflow where the operands agree in sign and the result does not. -/
theorem overflow_eq (hw : 0 < w) :
    (addWithCarry x y carryIn).v =
      ((x.msb == y.msb) && (x.msb != (addWithCarry x y carryIn).result.msb)) := by
  obtain ⟨k, rfl⟩ : ∃ k, w = k + 1 := ⟨w - 1, by omega⟩
  have hx := x.isLt
  have hy := y.isLt
  have hc : carryIn.toNat ≤ 1 := Bool.toNat_le carryIn
  have hpow : (2 : Nat) ^ (k + 1) = 2 ^ k + 2 ^ k := by
    rw [Nat.pow_succ]
    omega
  have hpowi : (2 : Int) ^ (k + 1) = 2 ^ k + 2 ^ k := by exact_mod_cast hpow
  have hmsb : ∀ z : BitVec (k + 1), z.msb = decide (2 ^ k ≤ z.toNat) := BitVec.msb_eq_decide
  have hcast : ((2 ^ k : Nat) : Int) = 2 ^ k := by push_cast; rfl
  simp only [addWithCarry, BitVec.toInt_eq_msb_cond, hmsb, BitVec.toNat_ofNat]
  have hres : (x.toNat + y.toNat + carryIn.toNat) % 2 ^ (k + 1) =
      x.toNat + y.toNat + carryIn.toNat ∨
      (x.toNat + y.toNat + carryIn.toNat) % 2 ^ (k + 1) + 2 ^ (k + 1) =
        x.toNat + y.toNat + carryIn.toNat := by
    by_cases hover : 2 ^ (k + 1) ≤ x.toNat + y.toNat + carryIn.toNat
    · right
      rw [Nat.mod_eq_sub_mod hover, Nat.mod_eq_of_lt (by omega)]
      omega
    · left
      exact Nat.mod_eq_of_lt (Nat.lt_of_not_le hover)
  have hlt : (x.toNat + y.toNat + carryIn.toNat) % 2 ^ (k + 1) < 2 ^ (k + 1) :=
    Nat.mod_lt _ (Nat.two_pow_pos _)
  generalize (x.toNat + y.toNat + carryIn.toNat) % 2 ^ (k + 1) = r at hres hlt
  rw [hpow] at hres hlt
  rw [hpow] at hx hy
  push_cast [hpowi]
  by_cases h₁ : 2 ^ k ≤ x.toNat <;> by_cases h₂ : 2 ^ k ≤ y.toNat <;>
    by_cases h₃ : 2 ^ k ≤ r <;> simp [h₁, h₂, h₃] <;> omega

end Adder

namespace Shifter

/-- The kinds of shift that take an amount. -/
inductive Kind where
  | lsl | lsr | asr | ror
  deriving DecidableEq, Repr

variable {w : Nat}

/-- Shift a word by a positive amount, with the last bit that leaves it. The word is extended by
as many bits as it is shifted by, and the carry is the bit next to the result. -/
def shiftOut (x : BitVec w) (kind : Kind) (amount : Nat) : BitVec w × Bool :=
  match kind with
  | .lsl =>
      let extended := x.setWidth (w + amount) <<< amount
      (extended.setWidth w, extended.getLsbD w)
  | .lsr =>
      let extended := x.setWidth (amount + w)
      ((extended >>> amount).setWidth w, extended.getLsbD (amount - 1))
  | .asr =>
      let extended := x.signExtend (amount + w)
      ((extended >>> amount).setWidth w, extended.getLsbD (amount - 1))
  | .ror =>
      let result := x.rotateRight amount
      (result, result.msb)

/-- A shift with carry-out; an amount of zero changes neither the word nor the carry. -/
def shiftWithCarry (x : BitVec w) (kind : Kind) (amount : Nat) (carryIn : Bool) :
    BitVec w × Bool :=
  if amount = 0 then (x, carryIn) else shiftOut x kind amount

/-- The rotation by one bit through the carry. -/
def rotateThroughCarry (x : BitVec w) (carryIn : Bool) : BitVec w × Bool :=
  ((BitVec.cons carryIn x >>> 1).setWidth w, x.getLsbD 0)

/-! ## The shifted word and the last bit out -/

variable (x : BitVec w) {amount : Nat}

theorem shiftOut_lsl : shiftOut x .lsl amount =
    (x <<< amount, decide (amount ≤ w) && x.getLsbD (w - amount)) := by
  refine Prod.ext ?_ ?_
  · apply BitVec.eq_of_getLsbD_eq
    intro i hi
    simp only [shiftOut, BitVec.getLsbD_setWidth, BitVec.getLsbD_shiftLeft, hi, decide_true,
      Bool.true_and]
    by_cases hlt : i < amount
    · simp [hlt]
    · have hwide : i < w + amount := by omega
      have hin : i - amount < w + amount := by omega
      simp [hlt, hwide, hin]
  · simp only [shiftOut, BitVec.getLsbD_shiftLeft, BitVec.getLsbD_setWidth]
    by_cases hle : amount ≤ w
    · have hwide : w - amount < w + amount ∨ amount = 0 := by omega
      have hnot : ¬ w < amount := by omega
      rcases hwide with hwide | rfl
      · have hpos : w < w + amount ∨ amount = 0 := by omega
        rcases hpos with hpos | rfl
        · simp [hle, hnot, hwide, hpos]
        · simp
      · simp
    · have hlt : w < amount := by omega
      simp [hle, hlt]

theorem shiftOut_lsr (hpos : 0 < amount) : shiftOut x .lsr amount =
    (x >>> amount, x.getLsbD (amount - 1)) := by
  refine Prod.ext ?_ ?_
  · apply BitVec.eq_of_getLsbD_eq
    intro i hi
    simp only [shiftOut, BitVec.getLsbD_setWidth, BitVec.getLsbD_ushiftRight, hi, decide_true,
      Bool.true_and]
    by_cases hin : amount + i < amount + w
    · simp [hin]
    · exact absurd hi (by omega)
  · simp only [shiftOut, BitVec.getLsbD_setWidth]
    have hin : amount - 1 < amount + w := by omega
    simp [hin]

theorem shiftOut_asr (hpos : 0 < amount) : shiftOut x .asr amount =
    (x.sshiftRight amount, if amount - 1 < w then x.getLsbD (amount - 1) else x.msb) := by
  refine Prod.ext ?_ ?_
  · apply BitVec.eq_of_getLsbD_eq
    intro i hi
    have hin : amount + i < amount + w := by omega
    simp only [shiftOut, BitVec.getLsbD_setWidth, BitVec.getLsbD_ushiftRight, hi, decide_true,
      Bool.true_and, BitVec.getLsbD_signExtend, hin, BitVec.getLsbD_sshiftRight]
    have hnot : ¬ w ≤ i := by omega
    simp [hnot]
  · have hin : amount - 1 < amount + w := by omega
    simp only [shiftOut, BitVec.getLsbD_signExtend, hin, decide_true, Bool.true_and]

end Shifter
