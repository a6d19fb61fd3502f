import Mathlib.Order.Fin.Basic
import SpEmu.Cpu.Execute
import SpEmu.Cpu.Transparency

/-!
# Block transfers there and back

A store of several registers puts them one after the other from the lowest address of the block,
and a load in the mirrored mode reads them from the same place. Both loops are programs on the
bus alone: `transferRegs_store` and its kin say that a store is `BusM.writeWords` and a load
`BusM.readWords`, with the registers on one side of it. What is left are the facts about memory,
`BusM.run_writeBlock` and `BusM.run_readBlock`.

`BlockPair` lists the pairs of instructions, and `block_roundTrip` is the result for all of them.
-/

set_option autoImplicit false

namespace SpEmu

open ByteMem Mem

/-! ## The registers of a transfer -/

namespace Core

/-- The core with loaded words in its registers; a word for the PC is not one of the array's. -/
def loadRegs (c : Core) : List (Fin 16) → List Word → Core
  | i :: is, w :: ws => (if i = 15 then c else c.setR i w).loadRegs is ws
  | _, _ => c

/-- The word that a load has for the PC. -/
def loadedPc : List (Fin 16) → List Word → Option Word
  | i :: is, w :: ws => if i = 15 then some w else loadedPc is ws
  | _, _ => none

/-- The core with loaded words in its extension registers. -/
def loadExts (c : Core) : List (Fin 32) → List Word → Core
  | i :: is, w :: ws => (c.setS i w).loadExts is ws
  | _, _ => c

/-- A register that is set before the listed ones is one of them. -/
theorem update_listed {n : Nat} (f g : Fin n → Word) (p : Fin n → Prop) [DecidablePred p]
    (i : Fin n) :
    (fun j => if p j then g j else Function.update f i (g i) j) =
      fun j => if j = i ∨ p j then g j else f j := by
  funext j
  by_cases hi : j = i
  · subst hi
    rw [Function.update_self, ite_self, if_pos (Or.inl rfl)]
  · rw [Function.update_of_ne hi]
    exact if_congr (or_iff_right hi).symm rfl rfl

/-- Words that are a function of the register leave its values in the listed ones. -/
theorem loadRegs_map (g : Fin 16 → Word) (c : Core) (regs : List (Fin 16)) :
    c.loadRegs regs (regs.map g) =
      { c with r := fun j => if j ∈ regs ∧ j ≠ 15 then g j else c.r j } := by
  induction regs generalizing c with
  | nil => rfl
  | cons i is ih =>
      rw [List.map_cons, loadRegs, ih]
      by_cases hpc : i = 15
      · -- a word for the PC changes nothing
        rw [if_pos hpc]
        congr 1
        funext j
        refine if_congr (and_congr_left fun hj => ?_) rfl rfl
        exact (List.mem_cons.trans (or_iff_right (hpc ▸ hj))).symm
      · rw [if_neg hpc, setR]
        congr 1
        refine (update_listed c.r g (fun j => j ∈ is ∧ j ≠ 15) i).trans (funext fun j => ?_)
        refine if_congr ?_ rfl rfl
        rw [List.mem_cons, or_and_right]
        exact or_congr_left (and_iff_left_of_imp fun hj => hj ▸ hpc).symm

theorem loadedPc_map (g : Fin 16 → Word) (regs : List (Fin 16)) :
    loadedPc regs (regs.map g) = if 15 ∈ regs then some (g 15) else none := by
  induction regs with
  | nil => rfl
  | cons i is ih =>
      rw [List.map_cons, loadedPc, ih]
      by_cases hpc : i = 15
      · rw [if_pos hpc, hpc, if_pos List.mem_cons_self]
      · rw [if_neg hpc]
        exact if_congr (List.mem_cons.trans (or_iff_right (Ne.symm hpc))).symm rfl rfl

theorem loadExts_map (g : Fin 32 → Word) (c : Core) (exts : List (Fin 32)) :
    c.loadExts exts (exts.map g) = { c with s := fun j => if j ∈ exts then g j else c.s j } := by
  induction exts generalizing c with
  | nil => rfl
  | cons i is ih =>
      rw [List.map_cons, loadExts, ih, setS]
      congr 1
      refine (update_listed c.s g (· ∈ is) i).trans (funext fun j => ?_)
      exact if_congr List.mem_cons.symm rfl rfl

end Core

namespace Exec

open SpEmu.Core

/-! ## The loops are reads and writes of words -/

theorem mem_maskRegs {mask : Half} {i : Fin 16} :
    i ∈ maskRegs mask ↔ mask.getLsbD i.val = true := by
  rw [maskRegs, List.mem_filter]
  exact and_iff_right (List.mem_finRange i)

/-- A transfer takes its registers in ascending order. -/
theorem maskRegs_ascending (mask : Half) : (maskRegs mask).Pairwise (· < ·) :=
  List.Pairwise.filter _ (List.pairwise_lt_finRange 16)

theorem length_maskRegs_le (mask : Half) : (maskRegs mask).length ≤ 16 := by
  rw [maskRegs]
  refine (List.length_filter_le _ _).trans ?_
  rw [List.length_finRange]

theorem transferRegs_store (regs : List (Fin 16)) (addr : Word) (c : Core) :
    transferRegs true regs addr c =
      (BusM.writeWords addr (regs.map c.readReg)).bind fun _ => .ret (some none, c) := by
  induction regs generalizing addr with
  | nil => rfl
  | cons i is ih => exact congrArg (Prog.call _) (funext fun _ => ih _)

theorem transferRegs_load (regs : List (Fin 16)) (addr : Word) (c : Core) :
    transferRegs false regs addr c =
      (BusM.readWords addr regs.length).bind fun ws =>
        .ret (some (loadedPc regs ws), c.loadRegs regs ws) := by
  induction regs generalizing addr c with
  | nil => rfl
  | cons i is ih =>
      rw [List.length_cons, BusM.readWords_succ_bind]
      refine congrArg (Prog.call (BusCall.read .word addr)) (funext fun v => ?_)
      by_cases hpc : i = 15
      · -- a word for the PC is kept until the others are read
        show (if i = 15 then Exec.bind (transferRegs false is (addr + 4)) fun _ => pure (some v)
          else Exec.bind (writeR i v) fun _ => transferRegs false is (addr + 4)) c = _
        rw [if_pos hpc, Exec.bind, ih, Prog.bind_assoc]
        simp only [Prog.ret_bind, loadedPc, loadRegs, if_pos hpc]
        rfl
      · show (if i = 15 then Exec.bind (transferRegs false is (addr + 4)) fun _ => pure (some v)
          else Exec.bind (writeR i v) fun _ => transferRegs false is (addr + 4)) c = _
        rw [if_neg hpc]
        show transferRegs false is (addr + 4) (c.setR i v) = _
        rw [ih]
        simp only [loadedPc, loadRegs, if_neg hpc]

/-- The branch that a load with the PC in its list ends with. -/
def resume (regs : List (Fin 16)) (t : Word) : Exec Unit :=
  if 15 ∈ regs then branchTo t else pure ()

/-- The lowest address of `n` words at a base, upwards from it or down to it. -/
def blockLow (up : Bool) (base : Word) (n : Nat) : Word :=
  if up then base else base - BitVec.ofNat 32 (4 * n)

/-- The base after the transfer of `n` words. -/
def blockNext (up : Bool) (base : Word) (n : Nat) : Word :=
  if up then base + BitVec.ofNat 32 (4 * n) else base - BitVec.ofNat 32 (4 * n)

/-- The way back starts where the way there did. -/
theorem blockLow_blockNext (up : Bool) (base : Word) (n : Nat) :
    blockLow (!up) (blockNext up base n) n = blockLow up base n := by
  cases up with
  | true => exact BitVec.add_sub_cancel base _
  | false => rfl

/-- The way back ends at the base. -/
theorem blockNext_blockNext (up : Bool) (base : Word) (n : Nat) :
    blockNext (!up) (blockNext up base n) n = base := by
  cases up with
  | true => exact BitVec.add_sub_cancel base _
  | false => exact BitVec.sub_add_cancel base _

theorem blockStart_eq (up : Bool) (base : Word) (n : Nat) :
    blockStart base n up (!up) = blockLow up base n := by
  cases up with
  | true => rfl
  | false => rfl

variable {rn : Fin 16} {mask : Half} {up : Bool}

theorem blockTransfer_store (c : Core) :
    blockTransfer rn true mask up (!up) true c =
      (BusM.writeWords (blockLow up (c.r rn) (maskRegs mask).length)
        ((maskRegs mask).map c.readReg)).bind fun _ =>
          .ret (some (), c.setR rn (blockNext up (c.r rn) (maskRegs mask).length)) := by
  show ((transferRegs true (maskRegs mask) (blockStart _ _ up (!up)) c).bind _) = _
  rw [transferRegs_store, Prog.bind_assoc, blockStart_eq]
  rfl

theorem blockTransfer_load (d : Core) :
    blockTransfer rn true mask up (!up) false d =
      (BusM.readWords (blockLow up (d.r rn) (maskRegs mask).length)
        (maskRegs mask).length).bind fun ws =>
          (match loadedPc (maskRegs mask) ws with
            | some t => branchTo t
            | none => pure ())
            ((d.loadRegs (maskRegs mask) ws).setR rn
              (blockNext up (d.r rn) (maskRegs mask).length)) := by
  show ((transferRegs false (maskRegs mask) (blockStart _ _ up (!up)) d).bind _) = _
  rw [transferRegs_load, Prog.bind_assoc, blockStart_eq]
  rfl

/-- The words of the extension registers of a transfer, the low word of a double first. -/
def extRegs (single : Bool) : (count first : Nat) → List (Fin 32)
  | 0, _ => []
  | count + 1, first =>
      (if single then [sIndex first]
        else [sIndex (dIndex first).val, sIndex ((dIndex first).val + 1)]) ++
          extRegs single count (first + 1)

theorem length_extRegs (single : Bool) (count first : Nat) :
    4 * (extRegs single count first).length = (if single then 4 else 8) * count := by
  induction count generalizing first with
  | zero => simp [extRegs]
  | succ count ih =>
      rw [extRegs, List.length_append, Nat.mul_add, ih]
      cases single with
      | true => simp; omega
      | false => simp; omega

/-- The words of a double take eight bytes. -/
theorem add_eight (addr : Word) : addr + 8 = addr + 4 + 4 := (BitVec.add_assoc addr 4 4).symm

theorem transferExts_store (single : Bool) (count first : Nat) (addr : Word) (c : Core) :
    transferExts false single count first addr c =
      (BusM.writeWords addr ((extRegs single count first).map c.s)).bind fun _ =>
        .ret (some (), c) := by
  induction count generalizing first addr with
  | zero => rfl
  | succ count ih =>
      cases single with
      | true => exact congrArg (Prog.call _) (funext fun _ => ih _ _)
      | false =>
          -- a double is two words, and the next one lies eight bytes on
          have hrest := ih (first + 1) (addr + 8)
          rw [add_eight] at hrest
          show Prog.call _ (fun _ => Prog.call _ fun _ =>
            transferExts false false count (first + 1) (addr + 8) c) = _
          rw [add_eight, hrest]
          rfl

theorem transferExts_load (single : Bool) (count first : Nat) (addr : Word) (c : Core) :
    transferExts true single count first addr c =
      (BusM.readWords addr (extRegs single count first).length).bind fun ws =>
        .ret (some (), c.loadExts (extRegs single count first) ws) := by
  induction count generalizing first addr c with
  | zero => rfl
  | succ count ih =>
      cases single with
      | true =>
          refine Eq.trans ?_ (BusM.readWords_succ_bind _ _).symm
          refine congrArg (Prog.call (BusCall.read .word addr)) (funext fun v => ?_)
          exact ih (first + 1) (addr + 4) (c.setS (sIndex first) v)
      | false =>
          refine Eq.trans ?_ (BusM.readWords_succ_bind _ _).symm
          refine congrArg (Prog.call (BusCall.read .word addr)) (funext fun lo => ?_)
          refine Eq.trans ?_ (BusM.readWords_succ_bind _ _).symm
          refine congrArg (Prog.call (BusCall.read .word (addr + 4))) (funext fun hi => ?_)
          rw [← add_eight]
          exact ih (first + 1) (addr + 8)
            ((c.setS (sIndex (dIndex first).val) lo).setS (sIndex ((dIndex first).val + 1)) hi)

/-! ## Floating-point blocks -/

/-- The operands of a floating-point block transfer. -/
structure ExtBlock where
  rn : Fin 16
  single : Bool
  first : Nat
  count : Nat
deriving DecidableEq

/-- The operands in the raw word. -/
def extBlock (raw : Word) : ExtBlock :=
  let d : Word := (hw1 raw >>> 6) &&& 1
  let vd := (hw2 raw >>> 12) &&& 0xF
  let single := !bitSet (hw2 raw) 8
  let imm8 := hw2 raw &&& 0xFF
  { rn := regField (hw1 raw)
    single := single
    first := (if single then (vd <<< 1) ||| d else (d <<< 4) ||| vd).toNat
    count := if single then imm8.toNat else imm8.toNat / 2 }

/-- The registers of the block, as single ones. -/
def ExtBlock.regs (x : ExtBlock) : List (Fin 32) := extRegs x.single x.count x.first

/-- VLDM or VSTM with writeback, upwards from the base (IA) or down to it (DB). VPUSH and VPOP
are those of the stack pointer. -/
structure IsExtBlock (raw : Word) (up load : Bool) : Prop where
  group : hw1 raw >>> 9 = 0b1110110
  p : bitSet (hw1 raw) 8 = !up
  u : bitSet (hw1 raw) 7 = up
  w : bitSet (hw1 raw) 5 = true
  l : bitSet (hw1 raw) 4 = load

example : IsExtBlock 0x8A10ED2D false false ∧ IsExtBlock 0x8A10ECBD true true ∧
    extBlock 0x8A10ECBD = extBlock 0x8A10ED2D ∧ (extBlock 0x8A10ED2D).rn = Core.sp :=
  ⟨⟨rfl, rfl, rfl, rfl, rfl⟩, ⟨rfl, rfl, rfl, rfl, rfl⟩, rfl, rfl⟩

section

variable {raw : Word} {up load : Bool}

/-- A floating-point block transfer marks the context, moves its registers and writes the base
back. -/
theorem tryVfp_block (h : IsExtBlock raw up load) (isa : Isa) (pc : Word) (c : Core) :
    tryVfp isa raw pc c =
      Exec.bind (transferExts load (extBlock raw).single (extBlock raw).count
          (extBlock raw).first (blockLow up (c.r (extBlock raw).rn) (extBlock raw).regs.length))
        (fun _ => modify fun e =>
          { e.setR (extBlock raw).rn
              (blockNext up (c.r (extBlock raw).rn) (extBlock raw).regs.length) with
            pc := pc + 4 }) c.markFpca := by
  -- with writeback it is not VLDR or VSTR, which share the group
  have hmode : ¬ (bitSet (hw1 raw) 8 && !bitSet (hw1 raw) 5) = true := by
    rw [h.w]
    simp
  have hvfp : vfpTransfer (hw1 raw) (hw2 raw) c.markFpca =
      Exec.bind (transferExts load (extBlock raw).single (extBlock raw).count
          (extBlock raw).first (blockLow up (c.r (extBlock raw).rn) (extBlock raw).regs.length))
        (fun _ => writeR (extBlock raw).rn
          (blockNext up (c.r (extBlock raw).rn) (extBlock raw).regs.length)) c.markFpca := by
    rw [vfpTransfer, blockLow, blockNext, ExtBlock.regs, length_extRegs]
    show (if (bitSet (hw1 raw) 8 && !bitSet (hw1 raw) 5) = true then _ else _ : Exec Unit)
      c.markFpca = _
    rw [if_neg hmode, h.u, h.w, h.l]
    rfl
  have hexec : execVfp isa raw c = vfpTransfer (hw1 raw) (hw2 raw) c.markFpca := by
    rw [execVfp]
    show (if hw1 raw >>> 9 = 0b1110110 then _ else _ : Exec Unit) c = _
    rw [if_pos h.group]
    rfl
  show (execVfp isa raw c).bind _ = _
  rw [hexec, hvfp, Exec.bind, Exec.bind, Prog.bind_assoc]
  congr 1
  funext x
  obtain ⟨o, e⟩ := x
  cases o with
  | some a => rfl
  | none => rfl

theorem tryVfp_store (h : IsExtBlock raw up false) (isa : Isa) (pc : Word) (c : Core) :
    tryVfp isa raw pc c =
      (BusM.writeWords (blockLow up (c.r (extBlock raw).rn) (extBlock raw).regs.length)
        ((extBlock raw).regs.map c.s)).bind fun _ =>
          .ret (some (), { c.markFpca.setR (extBlock raw).rn
            (blockNext up (c.r (extBlock raw).rn) (extBlock raw).regs.length) with
              pc := pc + 4 }) := by
  rw [tryVfp_block h, Exec.bind, transferExts_store, Prog.bind_assoc]
  rfl

theorem tryVfp_load (h : IsExtBlock raw up true) (isa : Isa) (pc : Word) (d : Core) :
    tryVfp isa raw pc d =
      (BusM.readWords (blockLow up (d.r (extBlock raw).rn) (extBlock raw).regs.length)
        (extBlock raw).regs.length).bind fun ws =>
          .ret (some (), { (d.markFpca.loadExts (extBlock raw).regs ws).setR (extBlock raw).rn
            (blockNext up (d.r (extBlock raw).rn) (extBlock raw).regs.length) with
              pc := pc + 4 }) := by
  rw [tryVfp_block h, Exec.bind, transferExts_load, Prog.bind_assoc]
  rfl

theorem length_regs_extBlock (raw : Word) : (extBlock raw).regs.length ≤ 255 := by
  have hlen := length_extRegs (extBlock raw).single (extBlock raw).count (extBlock raw).first
  have himm : (hw2 raw &&& 0xFF).toNat ≤ 255 := by
    rw [BitVec.toNat_and]
    exact Nat.and_le_right
  rw [ExtBlock.regs]
  cases hsingle : (extBlock raw).single with
  | true =>
      have hcount : (extBlock raw).count = (hw2 raw &&& 0xFF).toNat := if_pos hsingle
      rw [hsingle] at hlen
      simp only [if_true] at hlen
      omega
  | false =>
      have hcount : (extBlock raw).count = (hw2 raw &&& 0xFF).toNat / 2 :=
        if_neg (Bool.eq_false_iff.mp hsingle)
      rw [hsingle] at hlen
      simp only [Bool.false_eq_true, if_false] at hlen
      omega

end

end Exec

/-! ## The pairs -/

open Exec in
/-- A store of several registers with writeback and the load that undoes it: the base register,
whether the block lies above the base, and the registers of both lists. -/
inductive BlockPair : (rn : Fin 16) → (up : Bool) → List (Fin 16) → List (Fin 32) →
    (store load : Exec Unit) → Prop where
  /-- PUSH and POP. -/
  | push {i j : Instruction} {mask : Half} (pc len raw pc' len' raw' : Word)
      (hi : i.opcode = .push ∧ i.op0.toReglist = some mask)
      (hj : j.opcode = .pop ∧ j.op0.toReglist = some mask) :
      BlockPair Core.sp false (maskRegs mask) [] (i.body pc len raw) (j.body pc' len' raw')
  /-- STMIA and LDMDB, or STMDB and LDMIA. -/
  | multiple {i j : Instruction} {rn : Fin 16} {mask : Half} {up : Bool}
      {len raw len' raw' : Word} (pc pc' : Word)
      (hi : i.opcode = .stm ∧ i.op0.toRegwback = some (rn, true) ∧ i.op1.toReglist = some mask)
      (hj : j.opcode = .ldm ∧ j.op0.toRegwback = some (rn, true) ∧ j.op1.toReglist = some mask)
      (hstore : ldmStmMode raw len = (up, !up)) (hload : ldmStmMode raw' len' = (!up, up)) :
      BlockPair rn up (maskRegs mask) [] (i.body pc len raw) (j.body pc' len' raw')
  /-- VSTMIA and VLDMDB, or VSTMDB and VLDMIA, with the same operands. -/
  | ext {raw raw' : Word} {up : Bool} (isa : Isa) (pc pc' : Word) (hstore : IsExtBlock raw up false)
      (hload : IsExtBlock raw' (!up) true) (hsame : extBlock raw' = extBlock raw) :
      BlockPair (extBlock raw).rn up [] (extBlock raw).regs (tryVfp isa raw pc)
        (tryVfp isa raw' pc')

/-- The words of a transfer, in the order of its registers. -/
def Core.listed (c : Core) (regs : List (Fin 16)) (exts : List (Fin 32)) : List Word :=
  regs.map c.readReg ++ exts.map c.s

section RoundTrip

variable {δ : Type} [Mmio δ] (verifier : Verifier) {b : Bus δ} {rn : Fin 16} {up : Bool}
  {regs : List (Fin 16)} {exts : List (Fin 32)} {store load : Exec Unit} {c : Core}

/-- The store puts the listed registers of `c` into the block, in order, and nothing anywhere
else; of the core's registers it moves the base alone. -/
def Stores (verifier : Verifier) (b : Bus δ) (rn : Fin 16) (up : Bool) (regs : List (Fin 16))
    (exts : List (Fin 32)) (c : Core) (store : Exec Unit) : Prop :=
  ∃ e b', (store c).run (Bus.handle verifier) b = some ((some (), e), b') ∧
    b'.HoldsBlock (Exec.blockLow up (c.r rn) (c.listed regs exts).length) (c.listed regs exts) ∧
    Bus.Confined (b.BlockSet (Exec.blockLow up (c.r rn) (c.listed regs exts).length)
      (c.listed regs exts).length) b b' ∧
    e.r = Function.update c.r rn (Exec.blockNext up (c.r rn) (c.listed regs exts).length) ∧
    e.s = c.s

/-- The load, from a block that holds the listed registers of `c`, gives them and the base back
and keeps the other registers; a PC in the list is then branched to. -/
def Restores (verifier : Verifier) (b : Bus δ) (rn : Fin 16) (up : Bool) (regs : List (Fin 16))
    (exts : List (Fin 32)) (c : Core) (load : Exec Unit) : Prop :=
  b.HoldsBlock (Exec.blockLow up (c.r rn) (c.listed regs exts).length) (c.listed regs exts) →
    ∀ d : Core, d.r rn = Exec.blockNext up (c.r rn) (c.listed regs exts).length →
      ∃ f, (load d).run (Bus.handle verifier) b =
          (Exec.resume regs (c.readReg 15) f).run (Bus.handle verifier) b ∧
        f.r = (fun i => if (i ∈ regs ∧ i ≠ 15) ∨ i = rn then c.r i else d.r i) ∧
        f.s = (fun i => if i ∈ exts then c.s i else d.s i)

theorem stores_of_writeWords {e : Core} {a : Word}
    (hstore : store c = (BusM.writeWords a (c.listed regs exts)).bind fun _ => .ret (some (), e))
    (ha : a = Exec.blockLow up (c.r rn) (c.listed regs exts).length)
    (hram : b.ServedBlock a (c.listed regs exts).length)
    (hlen : (c.listed regs exts).length < 2 ^ 25)
    (hr : e.r = Function.update c.r rn (Exec.blockNext up (c.r rn) (c.listed regs exts).length))
    (hs : e.s = c.s) : Stores verifier b rn up regs exts c store := by
  subst ha
  obtain ⟨b', hwrite, hholds, hconf⟩ := BusM.run_writeBlock verifier hram hlen
  refine ⟨e, b', ?_, hholds, hconf, hr, hs⟩
  rw [hstore, Prog.run_bind, hwrite]
  rfl

theorem blockTransfer_stores {mask : Half} (c : Core)
    (hram : b.ServedBlock (Exec.blockLow up (c.r rn) (c.listed (Exec.maskRegs mask) []).length)
      (c.listed (Exec.maskRegs mask) []).length) :
    Stores verifier b rn up (Exec.maskRegs mask) [] c
      (Exec.blockTransfer rn true mask up (!up) true) := by
  have hlisted : c.listed (Exec.maskRegs mask) [] = (Exec.maskRegs mask).map c.readReg :=
    List.append_nil _
  have hlen := Exec.length_maskRegs_le mask
  refine stores_of_writeWords verifier
    (e := c.setR rn (Exec.blockNext up (c.r rn) (Exec.maskRegs mask).length)) ?_ rfl hram ?_ ?_ rfl
  · rw [Exec.blockTransfer_store, hlisted, List.length_map]
  · rw [hlisted, List.length_map]
    omega
  · rw [hlisted, List.length_map]
    rfl

theorem blockTransfer_restores {mask : Half} (c : Core) :
    Restores verifier b rn up (Exec.maskRegs mask) [] c
      (Exec.blockTransfer rn true mask (!up) up false) := by
  have hlisted : c.listed (Exec.maskRegs mask) [] = (Exec.maskRegs mask).map c.readReg :=
    List.append_nil _
  rw [Restores, hlisted, List.length_map]
  intro hholds d hbase
  have hload := @Exec.blockTransfer_load rn mask (!up) d
  rw [Bool.not_not, hbase, Exec.blockLow_blockNext, Exec.blockNext_blockNext] at hload
  have hread := BusM.run_readBlock verifier hholds
  rw [List.length_map] at hread
  refine ⟨(d.loadRegs (Exec.maskRegs mask) ((Exec.maskRegs mask).map c.readReg)).setR rn (c.r rn),
    ?_, ?_, ?_⟩
  · rw [hload, Prog.run_bind, hread, Option.bind_some, Core.loadedPc_map, Exec.resume]
    split
    · rfl
    · rfl
  · rw [Core.loadRegs_map]
    funext i
    by_cases hrn : i = rn
    · -- the base is written last
      rw [if_pos (Or.inr hrn), hrn]
      exact Core.setR_same _ rn (c.r rn)
    · refine (Core.setR_of_ne _ (c.r rn) hrn).trans ?_
      by_cases hlist : i ∈ Exec.maskRegs mask ∧ i ≠ 15
      · rw [if_pos (Or.inl hlist)]
        exact (if_pos hlist).trans (if_neg hlist.2)
      · rw [if_neg (not_or.mpr ⟨hlist, hrn⟩)]
        exact if_neg hlist
  · rw [Core.loadRegs_map]
    rfl

theorem tryVfp_stores {raw : Word} (h : Exec.IsExtBlock raw up false) (isa : Isa) (pc : Word)
    (c : Core)
    (hram : b.ServedBlock (Exec.blockLow up (c.r (Exec.extBlock raw).rn)
      (c.listed [] (Exec.extBlock raw).regs).length)
      (c.listed [] (Exec.extBlock raw).regs).length) :
    Stores verifier b (Exec.extBlock raw).rn up [] (Exec.extBlock raw).regs c
      (Exec.tryVfp isa raw pc) := by
  have hlisted : c.listed [] (Exec.extBlock raw).regs = (Exec.extBlock raw).regs.map c.s := rfl
  have hlen := Exec.length_regs_extBlock raw
  refine stores_of_writeWords verifier
    (e := { c.markFpca.setR (Exec.extBlock raw).rn
      (Exec.blockNext up (c.r (Exec.extBlock raw).rn) (Exec.extBlock raw).regs.length) with
        pc := pc + 4 }) ?_ rfl hram ?_ ?_ rfl
  · rw [hlisted, List.length_map]
    exact Exec.tryVfp_store h isa pc c
  · rw [hlisted, List.length_map]
    omega
  · rw [hlisted, List.length_map]
    rfl

theorem tryVfp_restores {raw raw' : Word} (h : Exec.IsExtBlock raw' (!up) true)
    (hsame : Exec.extBlock raw' = Exec.extBlock raw) (isa : Isa) (pc : Word) (c : Core) :
    Restores verifier b (Exec.extBlock raw).rn up [] (Exec.extBlock raw).regs c
      (Exec.tryVfp isa raw' pc) := by
  have hlisted : c.listed [] (Exec.extBlock raw).regs = (Exec.extBlock raw).regs.map c.s := rfl
  rw [Restores, hlisted, List.length_map]
  intro hholds d hbase
  have hload := Exec.tryVfp_load h isa pc d
  rw [hsame, hbase, Exec.blockLow_blockNext, Exec.blockNext_blockNext] at hload
  have hread := BusM.run_readBlock verifier hholds
  rw [List.length_map] at hread
  refine ⟨{ (d.markFpca.loadExts (Exec.extBlock raw).regs
    ((Exec.extBlock raw).regs.map c.s)).setR (Exec.extBlock raw).rn
      (c.r (Exec.extBlock raw).rn) with pc := pc + 4 }, ?_, ?_, ?_⟩
  · rw [hload, Prog.run_bind, hread]
    rfl
  · rw [Core.loadExts_map]
    funext i
    by_cases hrn : i = (Exec.extBlock raw).rn
    · rw [if_pos (Or.inr hrn), hrn]
      exact Core.setR_same _ (Exec.extBlock raw).rn _
    · refine (Core.setR_of_ne _ _ hrn).trans (if_neg ?_).symm
      simp [hrn]
  · rw [Core.loadExts_map]
    rfl

/-- Of every pair, the store puts its registers into the block in ascending order and touches
nothing else, and the load gives them and the base back. -/
theorem block_roundTrip (hpair : BlockPair rn up regs exts store load) (c : Core)
    (hram : b.ServedBlock (Exec.blockLow up (c.r rn) (c.listed regs exts).length)
      (c.listed regs exts).length) :
    Stores verifier b rn up regs exts c store ∧
      ∀ b₂ : Bus δ, Restores verifier b₂ rn up regs exts c load := by
  cases hpair with
  | push pc len raw pc' len' raw' hi hj =>
      rw [Instruction.body_push _ hi.1 hi.2, Instruction.body_pop _ hj.1 hj.2]
      exact ⟨blockTransfer_stores verifier c hram, fun b₂ => blockTransfer_restores verifier c⟩
  | @multiple i j rn mask up len raw len' raw' pc pc' hi hj hstore hload =>
      have hstm : i.body pc len raw = i.multiple raw len true := by
        rw [Instruction.body, hi.1]
      have hldm : j.body pc' len' raw' = j.multiple raw' len' false := by
        rw [Instruction.body, hj.1]
      rw [hstm, hldm, i.multiple_eq hi.2.1 hi.2.2 hstore,
        j.multiple_eq hj.2.1 hj.2.2 hload]
      exact ⟨blockTransfer_stores verifier c hram, fun b₂ => blockTransfer_restores verifier c⟩
  | ext isa pc pc' hstore hload hsame =>
      exact ⟨tryVfp_stores verifier hstore isa pc c hram,
        fun b₂ => tryVfp_restores verifier hload hsame isa pc' c⟩

end RoundTrip

/-- PUSH and POP of r4 and LR. -/
def pushR4Lr : Instruction := ⟨.push, .al, false, .regList 0x4010, .nothing, .nothing, .nothing⟩
def popR4Lr : Instruction := ⟨.pop, .al, false, .regList 0x4010, .nothing, .nothing, .nothing⟩

open SpEmu.Core in
theorem block_roundTrip_push :
    Stores noVerifier stackBus sp false (Exec.maskRegs 0x4010) [] onMain
        (pushR4Lr.body 0x100 2 0xB510) ∧
      ∀ b₂ : Bus Unit, Restores noVerifier b₂ sp false (Exec.maskRegs 0x4010) [] onMain
        (popR4Lr.body 0x102 2 0xBD10) :=
  block_roundTrip noVerifier (.push 0x100 2 0xB510 0x102 2 0xBD10 ⟨rfl, rfl⟩ ⟨rfl, rfl⟩) onMain
    (stackBus_served (by decide) (by decide)).block

end SpEmu
