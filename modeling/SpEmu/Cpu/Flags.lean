import SpEmu.Cpu.Execute
import SpEmu.Cpu.StatusWord
import SpEmu.Lib.Adder

/-!
# The flags of data processing

The seven arithmetic instructions are additions with a carry: `arithmetic_eq` gives their result
and their flags as those of `Adder.addWithCarry` over the unbounded integers, and says when they
leave the flags alone.

The nine logical instructions should take C from the shifter. `shiftC_eq` shows that the shifter's
carry-out is right, but the instructions drop it: `logical_flags_iff` says when C comes out right
all the same.
-/

set_option autoImplicit false

namespace SpEmu

open ByteMem

/-! ## The formulas of the source -/

/-- Bit 31 is the sign. -/
theorem bit31_eq_msb (x : Word) : ((x >>> 31) &&& 1 != 0) = x.msb := by
  have hone : (1 : Word) = BitVec.twoPow 32 0 := rfl
  rw [hone, BitVec.and_twoPow, BitVec.getLsbD_ushiftRight, BitVec.msb_eq_getLsbD_last]
  show ((if x.getLsbD 31 = true then BitVec.twoPow 32 0 else 0#32) != 0) = x.getLsbD 31
  cases x.getLsbD 31 with
  | true => rfl
  | false => rfl

theorem slt_zero_eq_msb (x : Word) : x.slt 0 = x.msb := by
  rw [show (0 : Word) = 0#32 from rfl, BitVec.slt_zero_eq_msb]

/-- The overflow formula of an addition: the operands agree in sign, the result does not. -/
theorem overflow_formula (a b res : Word) :
    ((((a ^^^ ~~~b) &&& (a ^^^ res)) >>> 31) &&& 1 != 0) =
      ((a.msb == b.msb) && (a.msb != res.msb)) := by
  rw [bit31_eq_msb, BitVec.msb_and, BitVec.msb_xor, BitVec.msb_xor, BitVec.msb_not]
  cases a.msb <;> cases b.msb <;> cases res.msb <;> rfl

/-- With the complement as operand the formula has no complement. -/
theorem overflow_formula_not (a b res : Word) :
    ((((a ^^^ b) &&& (a ^^^ res)) >>> 31) &&& 1 != 0) =
      ((a.msb == (~~~b).msb) && (a.msb != res.msb)) := by
  rw [← overflow_formula, BitVec.not_not]

/-! ## Arithmetic -/

namespace Core

/-- The four flags of a sum. -/
def withFlags (c : Core) (s : Adder.Sum 32) : Core :=
  { c with n := s.n, z := s.z, c := s.c, v := s.v }

variable (c : Core) (a b : Word)

theorem withFlags_eq (s : Adder.Sum 32) (hn : s.n = s.result.msb) (hz : s.z = (s.result == 0)) :
    c.withFlags s = { c.setNz s.result with c := s.c, v := s.v } := by
  rw [withFlags, setNz, slt_zero_eq_msb, ← hn, ← hz]

/-- The flags of `addWithCarry` from its result, a carry and the overflow formula. -/
theorem withFlags_addWithCarry (y : Word) (cin : Bool) :
    c.withFlags (Adder.addWithCarry a y cin) =
      { c.setNz (Adder.addWithCarry a y cin).result with
        c := (Adder.addWithCarry a y cin).c
        v := (a.msb == y.msb) && (a.msb != (Adder.addWithCarry a y cin).result.msb) } := by
  rw [withFlags_eq c _ rfl (beq_eq_decide ..).symm, Adder.overflow_eq _ _ _ (by decide)]

/-- Without a carry the sum in one step is the carry. -/
theorem flagsAdd_eq : c.flagsAdd a b = c.withFlags (Adder.addWithCarry a b false) := by
  have hres : (Adder.addWithCarry a b false).result = a + b := by
    rw [Adder.result_eq]
    exact BitVec.add_zero _
  have hcarry : (Adder.addWithCarry a b false).c = BitVec.uaddOverflow a b := by
    rw [Adder.carry_eq, BitVec.uaddOverflow]
    rfl
  rw [withFlags_addWithCarry, hres, hcarry, flagsAdd, overflow_formula]

theorem flagsSub_eq : c.flagsSub a b = c.withFlags (Adder.addWithCarry a (~~~b) true) := by
  rw [withFlags_addWithCarry, Adder.sub_result, Adder.sub_carry, flagsSub, overflow_formula_not]

/-- The carry flag as an operand. -/
theorem flagBit_eq_ofNat (cin : Bool) : flagBit cin 0 = BitVec.ofNat 32 cin.toNat := by
  cases cin with
  | true => rfl
  | false => rfl

theorem flagsChained_eq : c.flagsChained a b = c.withFlags (Adder.addWithCarry a b c.c) := by
  rw [withFlags_addWithCarry, Adder.result_eq, Adder.carry_two_steps _ _ _ (by decide),
    flagsChained, overflow_formula, flagBit_eq_ofNat]

end Core

/-- The arithmetic instructions. -/
inductive Arith where
  | add | adc | sub | sbc | rsb | cmp | cmn
  deriving DecidableEq, Repr

namespace Arith

def opcode : Arith → Opcode
  | add => .add
  | adc => .adc
  | sub => .sub
  | sbc => .sbc
  | rsb => .rsb
  | cmp => .cmp
  | cmn => .cmn

/-- The addition that an instruction is: an operand, an operand or its complement, and the
carry-in. -/
def sum (op : Arith) (a b : Word) (carry : Bool) : Adder.Sum 32 :=
  match op with
  | add | cmn => Adder.addWithCarry a b false
  | adc => Adder.addWithCarry a b carry
  | sub | cmp => Adder.addWithCarry a (~~~b) true
  | sbc => Adder.addWithCarry a (~~~b) carry
  | rsb => Adder.addWithCarry (~~~a) b true

/-- CMP and CMN have no destination. -/
def compares : Arith → Bool
  | cmp | cmn => true
  | _ => false

/-- The destination, if there is one, and the two operands. -/
def operands (op : Arith) (inst : Instruction) (c : Core) :
    Option (Option (Fin 16) × Word × Word) :=
  if op.compares then (inst.compareOperands c).map fun ab => (none, ab)
  else (inst.aluOperands c).map fun rab => (some rab.1, rab.2)

/-- What an instruction leaves: its result in the destination, and its flags unless they are
suppressed. -/
def after (op : Arith) (rd : Option (Fin 16)) (a b : Word) (sets : Bool) (c : Core) : Core :=
  let s := op.sum a b c.c
  let c := match rd with
    | some rd => c.writeReg rd s.result
    | none => c
  if sets then c.withFlags s else c

end Arith

/-! ## Running the bodies -/

namespace Core

variable (c : Core)

@[simp] theorem writeReg_c (rd : Fin 16) (v : Word) : (c.writeReg rd v).c = c.c := by
  rw [writeReg]
  split <;> rfl

@[simp] theorem writeReg_v (rd : Fin 16) (v : Word) : (c.writeReg rd v).v = c.v := by
  rw [writeReg]
  split <;> rfl

@[simp] theorem writeReg_curSetflags (rd : Fin 16) (v : Word) :
    (c.writeReg rd v).curSetflags = c.curSetflags := by
  rw [writeReg]
  split <;> rfl

/-- The core as a body finds it. -/
def flagged (inst : Instruction) (len : Word) : Core :=
  { c with curSetflags := inst.setsFlags len c }

end Core

theorem Exec.bind_of_ret {α β : Type} {x : Exec α} {f : α → Exec β} {c c' : Core} {a : α}
    (h : x c = .ret (some a, c')) : (x >>= f) c = f a c' := by
  show Exec.bind x f c = f a c'
  rw [Exec.bind, h]
  rfl

theorem Exec.query_of_some {α : Type} {f : Core → Option α} {c : Core} {a : α}
    (h : f c = some a) : query f c = .ret (some a, c) := by
  rw [query, h]

namespace Instruction

open Exec

variable (inst : Instruction) {c : Core}

theorem run_execute (pc len raw : Word) (c : Core) :
    inst.execute pc len raw c = inst.body pc len raw (c.flagged inst len) := rfl

theorem run_alu (op : Alu) {rd : Fin 16} {a b : Word} (h : inst.aluOperands c = some (rd, a, b)) :
    inst.alu op c = .ret (some (),
      if c.curSetflags then
        (c.writeReg rd (op.result a b c.c)).aluFlags op a b (op.result a b c.c)
      else c.writeReg rd (op.result a b c.c)) := by
  rw [alu, bind_of_ret (query_of_some h)]
  show Prog.ret (some (), if (c.writeReg rd _).curSetflags then _ else _) = _
  rw [Core.writeReg_curSetflags]

theorem run_compare (flags : Core → Word → Word → Core) {a b : Word}
    (h : inst.compareOperands c = some (a, b)) :
    inst.compare flags c = .ret (some (), flags c a b) := by
  rw [compare, bind_of_ret (query_of_some h)]
  rfl

theorem run_move (f : Word → Word) {rd : Fin 16} {val : Word}
    (h : inst.moveOperands c = some (rd, val)) :
    inst.move f c = .ret (some (),
      if c.curSetflags then (c.writeReg rd (f val)).setNz (f val) else c.writeReg rd (f val)) := by
  rw [move, bind_of_ret (query_of_some h)]
  show Prog.ret (some (), if (c.writeReg rd _).curSetflags then _ else _) = _
  rw [Core.writeReg_curSetflags]

end Instruction

namespace Arith

/-- The ALU operation of an instruction with a destination. -/
def alu : Arith → Alu
  | add | cmn => .add
  | adc => .adc
  | sub | cmp => .sub
  | sbc => .sbc
  | rsb => .rsb

theorem result_alu (op : Arith) (a b : Word) (cin : Bool) :
    op.alu.result a b cin = (op.sum a b cin).result := by
  have hadd : (Adder.addWithCarry a b false).result = a + b := by
    rw [Adder.result_eq]
    exact BitVec.add_zero _
  cases op with
  | add => exact hadd.symm
  | cmn => exact hadd.symm
  | adc =>
      rw [sum, Adder.result_eq, ← Core.flagBit_eq_ofNat]
      rfl
  | sub => exact (Adder.sub_result a b).symm
  | cmp => exact (Adder.sub_result a b).symm
  | sbc =>
      -- what is not carried in is borrowed
      rw [sum, Adder.result_eq]
      cases cin with
      | true =>
          show a - b - 0#32 = a + ~~~b + 1#32
          rw [BitVec.sub_zero, BitVec.add_assoc, ← BitVec.neg_eq_not_add, BitVec.sub_eq_add_neg]
      | false =>
          show a - b - 1#32 = a + ~~~b + 0#32
          rw [BitVec.add_zero, BitVec.not_eq_neg_add, BitVec.sub_eq_add_neg, BitVec.sub_eq_add_neg,
            BitVec.add_assoc, BitVec.sub_eq_add_neg]
  | rsb =>
      rw [sum, Adder.result_eq]
      show b - a = ~~~a + b + 1#32
      rw [BitVec.add_comm (~~~a) b, BitVec.add_assoc, ← BitVec.neg_eq_not_add,
        BitVec.sub_eq_add_neg]

theorem aluFlags_alu (op : Arith) (c : Core) (a b res : Word) :
    c.aluFlags op.alu a b res = c.withFlags (op.sum a b c.c) := by
  cases op with
  | add => exact c.flagsAdd_eq a b
  | cmn => exact c.flagsAdd_eq a b
  | adc => exact c.flagsChained_eq a b
  | sub => exact c.flagsSub_eq a b
  | cmp => exact c.flagsSub_eq a b
  | sbc =>
      rw [sum, ← Core.flagsChained_eq, Core.flagsChained, BitVec.not_not]
      rfl
  | rsb =>
      show c.flagsSub b a = c.withFlags (Adder.addWithCarry (~~~a) b true)
      rw [Core.flagsSub_eq]
      have hcomm : Adder.addWithCarry b (~~~a) true = Adder.addWithCarry (~~~a) b true := by
        simp only [Adder.addWithCarry, Nat.add_comm b.toNat, Int.add_comm b.toInt]
      rw [hcomm]

/-- An arithmetic instruction leaves the result and the flags of its addition. CMP and CMN set the
flags in any case, the others where the instruction does. -/
theorem arithmetic_eq (op : Arith) (inst : Instruction) (hop : inst.opcode = op.opcode) (c : Core)
    {rd : Option (Fin 16)} {a b : Word} (hab : op.operands inst c = some (rd, a, b))
    (pc len raw : Word) :
    inst.execute pc len raw c = .ret (some (),
      op.after rd a b (op.compares || inst.setsFlags len c) (c.flagged inst len)) := by
  rw [Instruction.run_execute, Instruction.body, hop]
  cases hcompares : op.compares with
  | true =>
      rw [operands, hcompares, if_pos rfl, Option.map_eq_some_iff] at hab
      obtain ⟨⟨a', b'⟩, hcmp, heq⟩ := hab
      obtain ⟨rfl, rfl, rfl⟩ : none = rd ∧ a' = a ∧ b' = b := by
        simpa only [Prod.mk.injEq] using heq
      have hcmp' : inst.compareOperands (c.flagged inst len) = some (a', b') := hcmp
      cases op with
      | cmp =>
          show inst.compare _ _ = _
          rw [inst.run_compare _ hcmp', Core.flagsSub_eq]
          rfl
      | cmn =>
          show inst.compare _ _ = _
          rw [inst.run_compare _ hcmp', Core.flagsAdd_eq]
          rfl
      | add => exact absurd hcompares (by decide)
      | adc => exact absurd hcompares (by decide)
      | sub => exact absurd hcompares (by decide)
      | sbc => exact absurd hcompares (by decide)
      | rsb => exact absurd hcompares (by decide)
  | false =>
      rw [operands, hcompares, if_neg Bool.false_ne_true, Option.map_eq_some_iff] at hab
      obtain ⟨⟨rd', a', b'⟩, hops, heq⟩ := hab
      obtain ⟨rfl, rfl, rfl⟩ : some rd' = rd ∧ a' = a ∧ b' = b := by
        simpa only [Prod.mk.injEq] using heq
      have hops' : inst.aluOperands (c.flagged inst len) = some (rd', a', b') := hops
      -- the five others are the ALU operation of their own name
      have hbody : ∀ alu : Alu, alu = op.alu →
          inst.alu alu (c.flagged inst len) = .ret (some (), op.after (some rd') a' b'
            (false || inst.setsFlags len c) (c.flagged inst len)) := by
        rintro _ rfl
        rw [inst.run_alu _ hops', aluFlags_alu, result_alu, Core.writeReg_c, after, Bool.false_or]
        rfl
      cases op with
      | cmp => exact absurd hcompares (by decide)
      | cmn => exact absurd hcompares (by decide)
      | add => exact hbody _ rfl
      | adc => exact hbody _ rfl
      | sub => exact hbody _ rfl
      | sbc => exact hbody _ rfl
      | rsb => exact hbody _ rfl

/-- ADCS r0, r1, r2, with the largest positive number in r1 and the carry set. -/
def adcsExample : Instruction :=
  ⟨.adc, .al, true, .reg 0, .reg 1, .reg 2, .nothing⟩

theorem arithmetic_eq_adcs :
    adcsExample.execute 0 4 0 { Core.new.setR 1 0x7FFFFFFF with c := true } = .ret (some (),
      adc.after (some 0) 0x7FFFFFFF 0 (adc.compares || adcsExample.setsFlags 4
          { Core.new.setR 1 0x7FFFFFFF with c := true })
        ({ Core.new.setR 1 0x7FFFFFFF with c := true }.flagged adcsExample 4)) :=
  arithmetic_eq adc adcsExample rfl _ (by rfl) 0 4 0

/-- The sum overflows into the sign. -/
example : adc.sum 0x7FFFFFFF 0 true = ⟨0x80000000, true, false, false, true⟩ := by decide

end Arith

/-! ## The shifter -/

/-- The shifter of the architecture, for a shift kind of the decoder. -/
def armShift (v : Word) (style : ShiftStyle) (amt : Nat) (cin : Bool) : Word × Bool :=
  match style with
  | .lsl => Shifter.shiftWithCarry v .lsl amt cin
  | .lsr => Shifter.shiftWithCarry v .lsr amt cin
  | .asr => Shifter.shiftWithCarry v .asr amt cin
  | .ror => Shifter.shiftWithCarry v .ror amt cin
  | .rrx => Shifter.rotateThroughCarry v cin

/-- A bit of a word, as the source takes it. -/
theorem bit_eq_getLsbD (v : Word) (k : Nat) : ((v >>> k) &&& 1 != 0) = v.getLsbD k := by
  have hone : (1 : Word) = BitVec.twoPow 32 0 := rfl
  rw [hone, BitVec.and_twoPow, BitVec.getLsbD_ushiftRight, Nat.add_zero]
  cases v.getLsbD k with
  | true => rfl
  | false => rfl

theorem bit0_eq_getLsbD (v : Word) : (v &&& 1 != 0) = v.getLsbD 0 := by
  have h := bit_eq_getLsbD v 0
  rwa [BitVec.ushiftRight_zero] at h

theorem shiftC_rrx (v : Word) (amt : Nat) (cin : Bool) :
    shiftC v .rrx amt cin = Shifter.rotateThroughCarry v cin := by
  rw [shiftC, Shifter.rotateThroughCarry, bit0_eq_getLsbD]
  refine Prod.ext ?_ rfl
  apply BitVec.eq_of_getLsbD_eq
  intro i hi
  rw [BitVec.getLsbD_or, Core.getLsbD_flagBit _ (by decide), BitVec.getLsbD_setWidth,
    BitVec.getLsbD_ushiftRight, BitVec.getLsbD_ushiftRight, BitVec.getLsbD_cons,
    decide_eq_true hi, Bool.true_and]
  by_cases h31 : i = 31
  · subst h31
    rw [BitVec.getLsbD_of_ge v (1 + 31) (by decide)]
    simp
  · have hne : ¬ 1 + i = 32 := by omega
    simp [hne, Ne.symm h31]

theorem shiftC_lsl (v : Word) (amt : Nat) (cin : Bool) :
    shiftC v .lsl amt cin = Shifter.shiftWithCarry v .lsl amt cin := by
  rw [shiftC, Shifter.shiftWithCarry]
  by_cases h0 : amt = 0
  · rw [if_pos h0, if_pos h0]
  · rw [if_neg h0, if_neg h0, Shifter.shiftOut_lsl, bit_eq_getLsbD, bit0_eq_getLsbD]
    by_cases hlt : amt < 32
    · rw [if_pos hlt, decide_eq_true (Nat.le_of_lt hlt), Bool.true_and]
    · rw [if_neg hlt, BitVec.shiftLeft_eq_zero (Nat.le_of_not_lt hlt)]
      by_cases h32 : amt = 32
      · rw [if_pos h32, h32]
        rfl
      · rw [if_neg h32, decide_eq_false (by omega), Bool.false_and]
        rfl

theorem shiftC_lsr (v : Word) (amt : Nat) (cin : Bool) :
    shiftC v .lsr amt cin = Shifter.shiftWithCarry v .lsr amt cin := by
  rw [shiftC, Shifter.shiftWithCarry]
  by_cases h0 : amt = 0
  · rw [if_pos h0, if_pos h0]
  · rw [if_neg h0, if_neg h0, Shifter.shiftOut_lsr _ (by omega), bit_eq_getLsbD, bit_eq_getLsbD]
    by_cases hlt : amt < 32
    · rw [if_pos hlt]
    · rw [if_neg hlt, BitVec.ushiftRight_eq_zero (Nat.le_of_not_lt hlt)]
      by_cases h32 : amt = 32
      · rw [if_pos h32, h32]
        rfl
      · rw [if_neg h32, BitVec.getLsbD_of_ge v _ (by omega)]
        rfl

/-- Behind a whole word every bit is the sign. -/
theorem sshiftRight_of_le (v : Word) {n : Nat} (h : 32 ≤ n) :
    v.sshiftRight n = v.sshiftRight 31 := by
  apply BitVec.eq_of_getLsbD_eq
  intro i hi
  rw [BitVec.getLsbD_sshiftRight, BitVec.getLsbD_sshiftRight]
  have hn : ¬ n + i < 32 := by omega
  by_cases hi0 : i = 0
  · subst hi0
    simp [Nat.not_lt.mpr h, BitVec.msb_eq_getLsbD_last]
  · have hi31 : ¬ 31 + i < 32 := by omega
    simp [hn, hi31]

theorem shiftC_asr (v : Word) (amt : Nat) (cin : Bool) :
    shiftC v .asr amt cin = Shifter.shiftWithCarry v .asr amt cin := by
  rw [shiftC, Shifter.shiftWithCarry]
  by_cases h0 : amt = 0
  · rw [if_pos h0, if_pos h0]
  · rw [if_neg h0, if_neg h0, Shifter.shiftOut_asr _ (by omega), bit_eq_getLsbD, bit_eq_getLsbD]
    by_cases hlt : amt < 32
    · rw [if_pos hlt, if_pos (show amt - 1 < 32 by omega)]
    · -- every bit of the result is the sign, and so is the last one out
      rw [if_neg hlt, ← BitVec.msb_eq_getLsbD_last,
        sshiftRight_of_le v (Nat.le_of_not_lt hlt)]
      by_cases h32 : amt - 1 < 32
      · obtain rfl : amt = 32 := by omega
        rw [if_pos h32, BitVec.msb_eq_getLsbD_last]
      · rw [if_neg h32]

theorem shiftC_ror (v : Word) (amt : Nat) (cin : Bool) :
    shiftC v .ror amt cin = Shifter.shiftWithCarry v .ror amt cin := by
  rw [shiftC, Shifter.shiftWithCarry]
  by_cases h0 : amt = 0
  · rw [if_pos h0, if_pos h0]
  · rw [if_neg h0, if_neg h0, Shifter.shiftOut]
    simp only [bit31_eq_msb]
    have hrot : v.rotateRight (amt % 32) = v.rotateRight amt :=
      BitVec.rotateRight_mod_eq_rotateRight
    by_cases hzero : amt % 32 = 0
    · rw [if_pos hzero, ← hrot, hzero]
      have hnone : v.rotateRight 0 = v := by
        apply BitVec.eq_of_getLsbD_eq
        intro i hi
        simp [hi]
      rw [hnone]
    · rw [if_neg hzero, hrot]

/-- The source's shift is the architecture's, result and carry-out. -/
theorem shiftC_eq (v : Word) (style : ShiftStyle) (amt : Nat) (cin : Bool) :
    shiftC v style amt cin = armShift v style amt cin := by
  cases style with
  | lsl => exact shiftC_lsl v amt cin
  | lsr => exact shiftC_lsr v amt cin
  | asr => exact shiftC_asr v amt cin
  | ror => exact shiftC_ror v amt cin
  | rrx => exact shiftC_rrx v amt cin

namespace Core

/-- A shifted register operand: the value of the shifter and its carry-out. A register amount is
its low byte. -/
def shifted (c : Core) : RegShift → Word × Bool
  | .regImm rm stype imm => armShift (c.readReg rm) stype imm.toNat c.c
  | .regReg rm stype rs => armShift (c.readReg rm) stype (c.readReg rs &&& 0xff).toNat c.c

/-- The operand of the source is the value of the shifter. -/
theorem opval_regShift (c : Core) (rs : RegShift) :
    c.opval (.regShift rs) = some (c.shifted rs).1 := by
  cases rs with
  | regImm rm stype imm => rw [opval, doShift, shiftC_eq, shifted]
  | regReg rm stype rs => rw [opval, doShift, shiftC_eq, shifted]

end Core

/-! ## Logical operations -/

/-- The logical instructions. -/
inductive Logical where
  | and | orr | eor | bic | orn | tst | teq | mov | mvn
  deriving DecidableEq, Repr

namespace Logical

def opcode : Logical → Opcode
  | and => .and
  | orr => .orr
  | eor => .eor
  | bic => .bic
  | orn => .orn
  | tst => .tst
  | teq => .teq
  | mov => .mov
  | mvn => .mvn

/-- The result from the first operand, where there is one, and the shifted one. -/
def result (op : Logical) (a b : Word) : Word :=
  match op with
  | and | tst => a &&& b
  | orr => a ||| b
  | eor | teq => a ^^^ b
  | bic => a &&& ~~~b
  | orn => a ||| ~~~b
  | mov => b
  | mvn => ~~~b

/-- TST and TEQ have no destination, and MOV and MVN no first operand. -/
def tests : Logical → Bool
  | tst | teq => true
  | _ => false

def moves : Logical → Bool
  | mov | mvn => true
  | _ => false

/-- The operand that can be shifted. -/
def lastOperand (op : Logical) (inst : Instruction) : Operand :=
  if op.tests || op.moves || inst.op2 == .nothing then inst.op1 else inst.op2

/-- The first operand; 0 for a move. -/
def firstOperand (op : Logical) (inst : Instruction) (c : Core) : Option Word :=
  if op.tests then inst.op0.toReg.map c.readReg
  else if op.moves then inst.op0.toReg.map fun _ => 0
  else if inst.op2 = .nothing then inst.op0.toReg.map c.readReg
  else do
    let _ ← inst.op0.toReg
    let rn ← inst.op1.toReg
    some (if rn = 15 then c.readReg rn &&& ~~~3 else c.readReg rn)

/-- N and Z from a result, C from the shifter and V as it was. -/
def FlagsFrom (c : Core) (res : Word) (carry : Bool) (c' : Core) : Prop :=
  c'.n = res.msb ∧ c'.z = decide (res = 0) ∧ c'.c = carry ∧ c'.v = c.v

/-- The instruction runs, and sets the flags as the architecture says. -/
def SetsFlags (op : Logical) (inst : Instruction) (pc len raw : Word) (rs : RegShift) (a : Word)
    (c : Core) : Prop :=
  ∃ c', inst.execute pc len raw c = .ret (some (), c') ∧
    FlagsFrom c (op.result a (c.shifted rs).1) (c.shifted rs).2 c'

/-- N and Z of a result, with the rest of the flags as in `c`. -/
theorem flagsFrom_setNz {c d : Core} (hc : d.c = c.c) (hv : d.v = c.v) (res : Word) :
    FlagsFrom c res c.c (d.setNz res) :=
  ⟨slt_zero_eq_msb res, beq_eq_decide .., hc, hv⟩

section Run

variable {op : Logical} {inst : Instruction} {rs : RegShift} {a len : Word} {c : Core}

/-- A move has a destination, and no first operand. -/
theorem moveOperands_of (hmoves : op.moves = true) (hrs : op.lastOperand inst = .regShift rs)
    (ha : op.firstOperand inst c = some a) :
    a = 0 ∧ ∃ rd, inst.moveOperands c = some (rd, (c.shifted rs).1) := by
  have htests : op.tests = false := by
    cases op <;> first | rfl | exact absurd hmoves (by decide)
  rw [lastOperand, hmoves, Bool.or_true, Bool.true_or, if_pos rfl] at hrs
  rw [firstOperand, htests, if_neg Bool.false_ne_true, hmoves, if_pos rfl] at ha
  obtain ⟨rd, hrd, hzero⟩ := Option.map_eq_some_iff.mp ha
  refine ⟨hzero.symm, rd, ?_⟩
  rw [Instruction.moveOperands, hrd, hrs, c.opval_regShift]
  rfl

theorem compareOperands_of (htests : op.tests = true) (hrs : op.lastOperand inst = .regShift rs)
    (ha : op.firstOperand inst c = some a) :
    inst.compareOperands c = some (a, (c.shifted rs).1) := by
  rw [lastOperand, htests, Bool.true_or, Bool.true_or, if_pos rfl] at hrs
  rw [firstOperand, htests, if_pos rfl] at ha
  obtain ⟨rn, hrn, rfl⟩ := Option.map_eq_some_iff.mp ha
  rw [Instruction.compareOperands, hrn, hrs, c.opval_regShift]
  rfl

theorem aluOperands_of (htests : op.tests = false) (hmoves : op.moves = false)
    (hrs : op.lastOperand inst = .regShift rs) (ha : op.firstOperand inst c = some a) :
    ∃ rd, inst.aluOperands c = some (rd, a, (c.shifted rs).1) := by
  rw [lastOperand, htests, hmoves, Bool.or_false, Bool.false_or] at hrs
  rw [firstOperand, htests, if_neg Bool.false_ne_true, hmoves, if_neg Bool.false_ne_true] at ha
  by_cases hop2 : inst.op2 = .nothing
  · rw [if_pos (beq_iff_eq.mpr hop2)] at hrs
    rw [if_pos hop2] at ha
    obtain ⟨rd, hrd, rfl⟩ := Option.map_eq_some_iff.mp ha
    refine ⟨rd, ?_⟩
    simp only [Instruction.aluOperands, hrd, hrs, hop2, c.opval_regShift, Option.bind_eq_bind,
      Option.bind_some, if_pos]
  · rw [if_neg (fun h => hop2 (beq_iff_eq.mp h))] at hrs
    rw [if_neg hop2] at ha
    obtain ⟨rd, hrd, hrest⟩ := Option.bind_eq_some_iff.mp ha
    obtain ⟨rn, hrn, hfirst⟩ := Option.bind_eq_some_iff.mp hrest
    refine ⟨rd, ?_⟩
    have hne : ¬ Operand.regShift rs = .nothing := hrs ▸ hop2
    simp only [Instruction.aluOperands, hrd, hrn, hrs, if_neg hne, c.opval_regShift,
      Option.bind_eq_bind, Option.bind_some, Option.some.inj hfirst]

/-- What a logical instruction leaves in the flags: N and Z from the result, C and V as they
were. -/
theorem run_flags (hop : inst.opcode = op.opcode) (hrs : op.lastOperand inst = .regShift rs)
    (ha : op.firstOperand inst c = some a)
    (hsets : op.tests = true ∨ inst.setsFlags len c = true) (pc raw : Word) :
    ∃ c', inst.execute pc len raw c = .ret (some (), c') ∧
      FlagsFrom c (op.result a (c.shifted rs).1) c.c c' := by
  rw [Instruction.run_execute, Instruction.body, hop]
  cases htests : op.tests with
  | true =>
      have hcmp : inst.compareOperands (c.flagged inst len) = some (a, (c.shifted rs).1) :=
        compareOperands_of htests hrs ha
      cases op with
      | tst => exact ⟨_, inst.run_compare _ hcmp, flagsFrom_setNz rfl rfl _⟩
      | teq => exact ⟨_, inst.run_compare _ hcmp, flagsFrom_setNz rfl rfl _⟩
      | and | orr | eor | bic | orn | mov | mvn => exact absurd htests (by decide)
  | false =>
      have hset : (c.flagged inst len).curSetflags = true :=
        hsets.resolve_left (by rw [htests]; exact Bool.false_ne_true)
      cases hmoves : op.moves with
      | true =>
          obtain ⟨rfl, rd, hmove⟩ := moveOperands_of hmoves hrs ha
          have hmove' : inst.moveOperands (c.flagged inst len) = some (rd, (c.shifted rs).1) :=
            hmove
          cases op with
          | mov =>
              refine ⟨_, inst.run_move _ hmove', ?_⟩
              rw [if_pos hset]
              exact flagsFrom_setNz (Core.writeReg_c ..) (Core.writeReg_v ..) _
          | mvn =>
              refine ⟨_, inst.run_move _ hmove', ?_⟩
              rw [if_pos hset]
              exact flagsFrom_setNz (Core.writeReg_c ..) (Core.writeReg_v ..) _
          | and | orr | eor | bic | orn | tst | teq => exact absurd hmoves (by decide)
      | false =>
          obtain ⟨rd, halu⟩ := aluOperands_of htests hmoves hrs ha
          have halu' : inst.aluOperands (c.flagged inst len) = some (rd, a, (c.shifted rs).1) :=
            halu
          have hbody : ∀ (alu : Alu) (res : Word), alu.result a (c.shifted rs).1 c.c = res →
              (∀ d : Core, d.aluFlags alu a (c.shifted rs).1 res = d.setNz res) →
              ∃ c', inst.alu alu (c.flagged inst len) = .ret (some (), c') ∧
                FlagsFrom c res c.c c' := by
            rintro alu _ rfl hflags
            refine ⟨_, inst.run_alu alu halu', ?_⟩
            rw [if_pos hset]
            have heq := hflags ((c.flagged inst len).writeReg rd
              (alu.result a (c.shifted rs).1 c.c))
            have hfrom : FlagsFrom c (alu.result a (c.shifted rs).1 c.c) c.c
                (((c.flagged inst len).writeReg rd
                  (alu.result a (c.shifted rs).1 c.c)).setNz
                    (alu.result a (c.shifted rs).1 c.c)) :=
              flagsFrom_setNz (Core.writeReg_c ..) (Core.writeReg_v ..) _
            rw [← heq] at hfrom
            exact hfrom
          cases op with
          | and => exact hbody .and _ rfl fun _ => rfl
          | orr => exact hbody .orr _ rfl fun _ => rfl
          | eor => exact hbody .eor _ rfl fun _ => rfl
          | bic => exact hbody .bic _ rfl fun _ => rfl
          | orn => exact hbody .orn _ rfl fun _ => rfl
          | tst | teq => exact absurd htests (by decide)
          | mov | mvn => exact absurd hmoves (by decide)

end Run

/-- The flags come out right exactly when the carry-out of the shifter is the carry flag that the
instruction found. -/
theorem logical_flags_iff (op : Logical) (inst : Instruction) (hop : inst.opcode = op.opcode)
    {rs : RegShift} (hrs : op.lastOperand inst = .regShift rs) {a : Word} (c : Core)
    (ha : op.firstOperand inst c = some a) {len : Word}
    (hsets : op.tests = true ∨ inst.setsFlags len c = true) (pc raw : Word) :
    op.SetsFlags inst pc len raw rs a c ↔ (c.shifted rs).2 = c.c := by
  obtain ⟨c', hrun, hn, hz, hc, hv⟩ := run_flags hop hrs ha hsets pc raw
  constructor
  · rintro ⟨c'', hrun', -, -, hc', -⟩
    have heq : c'' = c' := by
      have hret := hrun'.symm.trans hrun
      injection hret with hpair
      exact (Prod.mk.inj hpair).2
    rw [← hc', heq, hc]
  · intro hcarry
    exact ⟨c', hrun, hn, hz, hc.trans hcarry.symm, hv⟩

/-- ANDS r0, r1, r2, LSL #1. -/
def andsExample : Instruction :=
  ⟨.and, .al, true, .reg 0, .reg 1, .regShift (.regImm 2 .lsl 1), .nothing⟩

/-- With the top bit of r2 clear and C clear the flags come out right. -/
theorem logical_flags_iff_ands :
    and.SetsFlags andsExample 0 4 0 (.regImm 2 .lsl 1) 0 Core.new ↔
      (Core.new.shifted (.regImm 2 .lsl 1)).2 = Core.new.c :=
  logical_flags_iff and andsExample rfl rfl Core.new rfl (Or.inr rfl) 0 0

/-- With the top bit of r2 set it is shifted out, and C stays clear. -/
theorem ands_drops_carry :
    ¬ and.SetsFlags andsExample 0 4 0 (.regImm 2 .lsl 1) 0 (Core.new.setR 2 0x80000000) := by
  rintro ⟨c', hrun, -, -, hc, -⟩
  have hrs : and.lastOperand andsExample = .regShift (.regImm 2 .lsl 1) := rfl
  have ha : and.firstOperand andsExample (Core.new.setR 2 0x80000000) = some 0 := rfl
  have hsets : andsExample.setsFlags 4 (Core.new.setR 2 0x80000000) = true := rfl
  obtain ⟨d, hd, -, -, hdc, -⟩ := run_flags rfl hrs ha (Or.inr hsets) 0 0
  have heq : c' = d := by
    have hret := hrun.symm.trans hd
    injection hret with hpair
    exact (Prod.mk.inj hpair).2
  rw [heq, hdc] at hc
  exact absurd hc (by decide)

end Logical

end SpEmu
