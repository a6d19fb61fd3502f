import SpEmu.Lib.SignedField
import SpEmu.Cpu.Instruction

/-!
# Branch targets

`BranchForm` lists the encodings of the direct branches with the halfwords that the architecture
gives for an offset. `target` is what the interpreter computes from the fetched word of each.
`branchTarget_encode` says that the target is the address of the instruction plus four plus the
offset, for every even offset that the encoding reaches.

A forward offset of CBZ has no sign. The other encodings hold a signed field, and the 32-bit ones
without a condition store two of its bits xored with the sign.
-/

set_option autoImplicit false

namespace SpEmu

open ByteMem SignedField

/-- The condition field of a branch. The encodings with `111x` are other instructions. -/
abbrev BranchCond := { c : BitVec 4 // c &&& 0b1110 ≠ 0b1110 }

/-- The encodings of B, BL, CBZ and CBNZ. -/
inductive BranchForm where
  | bT1 (cond : BranchCond)
  | bT2
  | bT3 (cond : BranchCond)
  | bT4
  | bl
  | cbz (nonzero : Bool) (rn : BitVec 3)

namespace BranchForm

/-- The `n` bits of an offset from bit `lo` on. -/
def field (off : Word) (lo n : Nat) : Half := (off.extractLsb' lo n).setWidth 16

/-- The bits J1 and J2: bits 23 and 22 of the offset, inverted and xored with the sign. -/
def jBit (off : Word) (i : Nat) : Half := field off i 1 ^^^ 1 ^^^ field off 24 1

def firstHalf (off : Word) : BranchForm → Half
  | bT1 cond => 0xD000 ||| (cond.val.setWidth 16 <<< 8) ||| field off 1 8
  | bT2 => 0xE000 ||| field off 1 11
  | bT3 cond =>
      0xF000 ||| (field off 20 1 <<< 10) ||| (cond.val.setWidth 16 <<< 6) ||| field off 12 6
  | bT4 | bl => 0xF000 ||| (field off 24 1 <<< 10) ||| field off 12 10
  | cbz nonzero rn =>
      0xB100 ||| ((BitVec.ofBool nonzero).setWidth 16 <<< 11) ||| (field off 6 1 <<< 9) |||
        (field off 1 5 <<< 3) ||| rn.setWidth 16

def secondHalf (off : Word) : BranchForm → Option Half
  | bT3 _ =>
      some (0x8000 ||| (field off 18 1 <<< 13) ||| (field off 19 1 <<< 11) ||| field off 1 11)
  | bT4 => some (0x9000 ||| (jBit off 23 <<< 13) ||| (jBit off 22 <<< 11) ||| field off 1 11)
  | bl => some (0xD000 ||| (jBit off 23 <<< 13) ||| (jBit off 22 <<< 11) ||| field off 1 11)
  | _ => none

/-- The length of an encoding in bytes. -/
def len : BranchForm → Word
  | bT3 _ | bT4 | bl => 4
  | _ => 2

/-- The fetched word of a branch by `off`. Behind a 16-bit encoding it holds the halfword that
follows the instruction. -/
def encode (f : BranchForm) (off : Int) (next : Half) : Word :=
  let o := BitVec.ofInt 32 off
  ((f.secondHalf o).getD next).setWidth 32 <<< 16 ||| (f.firstHalf o).setWidth 32

/-- The offsets that an encoding reaches. -/
def Reaches (off : Int) : BranchForm → Prop
  | bT1 _ => off % 2 = 0 ∧ FitsIn 9 off
  | bT2 => off % 2 = 0 ∧ FitsIn 12 off
  | bT3 _ => off % 2 = 0 ∧ FitsIn 21 off
  | bT4 | bl => off % 2 = 0 ∧ FitsIn 25 off
  | cbz _ _ => off % 2 = 0 ∧ 0 ≤ off ∧ off ≤ 126

/-- The target that the interpreter computes from a fetched word. -/
def target (f : BranchForm) (raw pc : Word) : Word :=
  match f with
  | cbz _ _ => cbzTarget raw pc
  | _ => thumbBranchTarget raw pc f.len

/-! ## Fields of an encoded word -/

theorem hw1_encode (f : BranchForm) (off : Int) (next : Half) :
    hw1 (f.encode off next) = (f.firstHalf (BitVec.ofInt 32 off)).setWidth 32 := by
  ext i hi
  interval_cases i <;> simp [hw1, encode]

theorem hw2_encode (f : BranchForm) (off : Int) (next : Half) :
    hw2 (f.encode off next) =
      ((f.secondHalf (BitVec.ofInt 32 off)).getD next).setWidth 32 := by
  ext i hi
  interval_cases i <;> simp [hw2, encode]

/-- A bit as a word. -/
def bit (b : Bool) : Word := (BitVec.ofBool b).setWidth 32

theorem one_sub_bit (a b : Bool) : 1 - (bit a ^^^ bit b) = bit (!(a ^^ b)) := by
  cases a <;> cases b <;> rfl

theorem getElem_bit (b : Bool) (i : Nat) (h : i < 32) : (bit b)[i] = (b && decide (i = 0)) := by
  cases b
  · simp [bit]
  · cases i <;> simp [bit, BitVec.getElem_one]

theorem not_xnor (a b : Bool) : (!(!(a ^^ b) ^^ b)) = a := by
  cases a <;> cases b <;> rfl

theorem shiftRight_and_one (x : Word) (i : Nat) : (x >>> i) &&& 1 = bit (x.getLsbD i) := by
  ext j hj
  rw [getElem_bit]
  cases j <;> simp [BitVec.getElem_one]

/-- The sign, the bits I1 and I2 and the two immediates of T4 and BL make the offset again. -/
theorem offset25 (o : Word) (h0 : o[0] = false) :
    ((bit o[24] <<< 24) ||| (bit o[23] <<< 23) ||| (bit o[22] <<< 22) |||
        ((o.extractLsb' 12 10).setWidth 32 <<< 12) |||
        ((o.extractLsb' 1 11).setWidth 32 <<< 1)).setWidth 25 = o.setWidth 25 := by
  ext i hi
  interval_cases i <;> simp [bit, h0]

/-- The same for T3. -/
theorem offset21 (o : Word) (h0 : o[0] = false) :
    ((bit o[20] <<< 20) ||| (bit o[19] <<< 19) ||| (bit o[18] <<< 18) |||
        ((o.extractLsb' 12 6).setWidth 32 <<< 12) |||
        ((o.extractLsb' 1 11).setWidth 32 <<< 1)).setWidth 21 = o.setWidth 21 := by
  ext i hi
  interval_cases i <;> simp [bit, h0]

variable {off : Int} (pc : Word) (next : Half)

/-- The conditional 16-bit branch holds eight bits of half the offset. -/
theorem target_bT1 (cond : BranchCond) (hpar : off % 2 = 0) (hfit : FitsIn 9 off) :
    thumbBranchTarget ((bT1 cond).encode off next) pc 2 = pc + 4 + BitVec.ofInt 32 off := by
  have htop : hw1 ((bT1 cond).encode off next) &&& 0xF000 = 0xD000 := by
    rw [hw1_encode]
    ext i hi
    interval_cases i <;> simp [firstHalf, field]
  have hlow : (hw1 ((bT1 cond).encode off next) &&& 0xFF).setWidth 8 =
      BitVec.ofInt 8 (off / 2) := by
    rw [← extract_half (w := 32) hpar (by decide), hw1_encode]
    ext i hi
    interval_cases i <;> simp [firstHalf, field]
  simp only [thumbBranchTarget, htop, hlow, if_true]
  rw [signExtend_ofInt (by decide) hfit.half, ofInt_half_shiftLeft hpar]
  rfl

/-- The unconditional one holds eleven. -/
theorem target_bT2 (hpar : off % 2 = 0) (hfit : FitsIn 12 off) :
    thumbBranchTarget (bT2.encode off next) pc 2 = pc + 4 + BitVec.ofInt 32 off := by
  have htop : ¬ hw1 (bT2.encode off next) &&& 0xF000 = 0xD000 := by
    intro h
    have hbit := congrArg (fun x => x.getLsbD 12) h
    simp [hw1_encode, firstHalf, field] at hbit
  have hlow : (hw1 (bT2.encode off next) &&& 0x7FF).setWidth 11 = BitVec.ofInt 11 (off / 2) := by
    rw [← extract_half (w := 32) hpar (by decide), hw1_encode]
    ext i hi
    interval_cases i <;> simp [firstHalf, field]
  simp only [thumbBranchTarget, htop, if_true, if_false]
  rw [signed_of_field (n := 11) (by decide) (by decide) hfit.half hlow, ofInt_half_shiftLeft hpar]
  rfl

/-- The conditional 32-bit branch. Its bits J1 and J2 are bits of the offset. -/
theorem target_bT3 (cond : BranchCond) (hpar : off % 2 = 0) (hfit : FitsIn 21 off) :
    thumbBranchTarget ((bT3 cond).encode off next) pc 4 = pc + 4 + BitVec.ofInt 32 off := by
  have hs : (hw1 ((bT3 cond).encode off next)).getLsbD 10 = (BitVec.ofInt 32 off)[20] := by
    simp [hw1_encode, firstHalf, field]
  -- bit 12 tells T3 from T4 and BL
  have h12 : (hw2 ((bT3 cond).encode off next)).getLsbD 12 = false := by
    simp [hw2_encode, secondHalf, field]
  have h13 : (hw2 ((bT3 cond).encode off next)).getLsbD 13 = (BitVec.ofInt 32 off)[18] := by
    simp [hw2_encode, secondHalf, field]
  have h11 : (hw2 ((bT3 cond).encode off next)).getLsbD 11 = (BitVec.ofInt 32 off)[19] := by
    simp [hw2_encode, secondHalf, field]
  have hlow : (hw2 ((bT3 cond).encode off next)).setWidth 11 =
      (BitVec.ofInt 32 off).extractLsb' 1 11 := by
    rw [hw2_encode]
    ext i hi
    interval_cases i <;> simp [secondHalf, field]
  have hhigh : (hw1 ((bT3 cond).encode off next)).setWidth 6 =
      (BitVec.ofInt 32 off).extractLsb' 12 6 := by
    rw [hw1_encode]
    ext i hi
    interval_cases i <;> simp [firstHalf, field]
  have h3F (x : Word) : x &&& 0x3F = (x.setWidth 6).setWidth 32 := and_lowMask x 6
  have h7FF (x : Word) : x &&& 0x7FF = (x.setWidth 11).setWidth 32 := and_lowMask x 11
  have hodd := getLsbD_zero_of_even (w := 32) hpar
  have hoff := (offset21 (BitVec.ofInt 32 off) hodd).trans (setWidth_ofInt off (by decide))
  simp only [thumbBranchTarget, shiftRight_and_one, hs, h12, h13, h11, h3F, h7FF, hlow, hhigh]
  rw [if_neg (by decide), if_neg (by decide),
    signed_of_field (n := 21) (by decide) (by decide) hfit hoff]
  rfl

/-- T4 and BL. Their bits J1 and J2 say where the offset differs from its sign. -/
theorem target_long {f : BranchForm} (hf : f = bT4 ∨ f = bl) (hpar : off % 2 = 0)
    (hfit : FitsIn 25 off) :
    thumbBranchTarget (f.encode off next) pc 4 = pc + 4 + BitVec.ofInt 32 off := by
  have hs : (hw1 (f.encode off next)).getLsbD 10 = (BitVec.ofInt 32 off)[24] := by
    rcases hf with rfl | rfl <;> simp [hw1_encode, firstHalf, field]
  have h12 : (hw2 (f.encode off next)).getLsbD 12 = true := by
    rcases hf with rfl | rfl <;> simp [hw2_encode, secondHalf, field, jBit]
  have h13 : (hw2 (f.encode off next)).getLsbD 13 =
      !((BitVec.ofInt 32 off)[23] ^^ (BitVec.ofInt 32 off)[24]) := by
    rcases hf with rfl | rfl <;> simp [hw2_encode, secondHalf, field, jBit]
  have h11 : (hw2 (f.encode off next)).getLsbD 11 =
      !((BitVec.ofInt 32 off)[22] ^^ (BitVec.ofInt 32 off)[24]) := by
    rcases hf with rfl | rfl <;> simp [hw2_encode, secondHalf, field, jBit]
  have hlow : (hw2 (f.encode off next)).setWidth 11 = (BitVec.ofInt 32 off).extractLsb' 1 11 := by
    rw [hw2_encode]
    rcases hf with rfl | rfl <;> ext i hi <;> interval_cases i <;>
      simp [secondHalf, field, jBit]
  have hhigh : (hw1 (f.encode off next)).setWidth 10 = (BitVec.ofInt 32 off).extractLsb' 12 10 := by
    rw [hw1_encode]
    rcases hf with rfl | rfl <;> ext i hi <;> interval_cases i <;> simp [firstHalf, field]
  have h3FF (x : Word) : x &&& 0x3FF = (x.setWidth 10).setWidth 32 := and_lowMask x 10
  have h7FF (x : Word) : x &&& 0x7FF = (x.setWidth 11).setWidth 32 := and_lowMask x 11
  have hodd := getLsbD_zero_of_even (w := 32) hpar
  have hoff := (offset25 (BitVec.ofInt 32 off) hodd).trans (setWidth_ofInt off (by decide))
  simp only [thumbBranchTarget, shiftRight_and_one, hs, h12, h13, h11, h3FF, h7FF, hlow, hhigh,
    one_sub_bit, not_xnor]
  rw [if_neg (by decide), if_pos (by decide),
    signed_of_field (n := 25) (by decide) (by decide) hfit hoff]
  rfl

/-- CBZ and CBNZ hold six bits of half an offset without a sign. -/
theorem target_cbz (nonzero : Bool) (rn : BitVec 3) (hpar : off % 2 = 0) (hlo : 0 ≤ off)
    (hhi : off ≤ 126) :
    cbzTarget ((cbz nonzero rn).encode off next) pc = pc + 4 + BitVec.ofInt 32 off := by
  have hodd := getLsbD_zero_of_even (w := 32) hpar
  have hsmall : (BitVec.ofInt 32 off).toNat < 2 ^ 7 := by
    rw [BitVec.toNat_ofInt]
    omega
  -- six bits and the zero below them are the whole offset
  have hzero (j : Nat) (hj : 7 ≤ j) : (BitVec.ofInt 32 off).getLsbD j = false :=
    Nat.testBit_lt_two_pow (Nat.lt_of_lt_of_le hsmall (Nat.pow_le_pow_right (by decide) hj))
  have hi : (hw1 ((cbz nonzero rn).encode off next)).getLsbD 9 = (BitVec.ofInt 32 off)[6] := by
    simp [hw1_encode, firstHalf, field]
  have hlow : (hw1 ((cbz nonzero rn).encode off next) >>> 3).setWidth 5 =
      (BitVec.ofInt 32 off).extractLsb' 1 5 := by
    rw [hw1_encode]
    ext i hi
    interval_cases i <;> simp [firstHalf, field]
  have h1F (x : Word) : x &&& 0x1F = (x.setWidth 5).setWidth 32 := and_lowMask x 5
  have hoff : ((bit (BitVec.ofInt 32 off)[6] <<< 5) |||
      ((BitVec.ofInt 32 off).extractLsb' 1 5).setWidth 32) <<< 1 = BitVec.ofInt 32 off := by
    apply BitVec.eq_of_getLsbD_eq
    intro i hi
    by_cases htop : 7 ≤ i
    · rw [hzero i htop]
      interval_cases i <;> simp [bit]
    · interval_cases i <;> simp [bit] at hodd htop ⊢
      exact hodd
  simp only [cbzTarget, shiftRight_and_one, hi, h1F, hlow, hoff]
  rfl

end BranchForm

/-- **Branch decoding inverts encoding.** For every branch encoding and every even offset in its
reach, the interpreter computes the address of the instruction plus four plus the offset. -/
theorem branchTarget_encode (f : BranchForm) (off : Int) (pc : Word) (next : Half)
    (hreach : f.Reaches off) :
    f.target (f.encode off next) pc = pc + 4 + BitVec.ofInt 32 off := by
  cases f with
  | bT1 cond => exact BranchForm.target_bT1 pc next cond hreach.1 hreach.2
  | bT2 => exact BranchForm.target_bT2 pc next hreach.1 hreach.2
  | bT3 cond => exact BranchForm.target_bT3 pc next cond hreach.1 hreach.2
  | bT4 => exact BranchForm.target_long pc next (Or.inl rfl) hreach.1 hreach.2
  | bl => exact BranchForm.target_long pc next (Or.inr rfl) hreach.1 hreach.2
  | cbz nonzero rn =>
      exact BranchForm.target_cbz pc next nonzero rn hreach.1 hreach.2.1 hreach.2.2

/-- The furthest backward branch of BL from the start of the flash. -/
theorem branchTarget_encode_bl :
    BranchForm.bl.Reaches (-16777216) ∧
      BranchForm.bl.target (BranchForm.bl.encode (-16777216) 0) 0x08000000 = 0x07000004 :=
  have hreach : BranchForm.bl.Reaches (-16777216) := by
    constructor <;> decide
  ⟨hreach, branchTarget_encode BranchForm.bl (-16777216) 0x08000000 0 hreach⟩

end SpEmu
