import SpEmu.Cpu.Execute

/-!
# What an instruction may change

Most bodies compute on the registers, the flags and the PC, and read and write memory. The rest of
the core changes in a few places only: an exception entry or return, MSR, CPS, IT, WFI, a
breakpoint, and floating point, which marks the context.

`StepRel R free` says that a relation between two cores holds across each of these changes, as long
as the registers that are written are among `free`. `keeps_execute` and `keeps_fallback` conclude
that it holds across every instruction whose `destinations` are, whatever the bus answers and also
where the body fails. An invariant of the core is then a few small facts rather than a case for
each opcode.
-/

set_option autoImplicit false

namespace SpEmu

open ByteMem

/-! ## The registers that an instruction names as destinations -/

/-- The base register that an addressing mode writes back. -/
def Operand.writesBack : Operand → List (Fin 16)
  | .regDerefPreindexOffset rn _ _ wback => if wback then [rn] else []
  | .regDerefPostindexOffset rn _ _ _ => [rn]
  | .regDerefPreindexReg rn _ _ wback => if wback then [rn] else []
  | .regDerefPreindexRegShift rn _ _ wback => if wback then [rn] else []
  | _ => []

/-- The register that an operand is, as a destination. -/
def Operand.asDest (op : Operand) : List (Fin 16) := op.toReg.toList

/-- The base register that a 32-bit single load or store writes back. -/
def writesBack32 (raw : Word) : List (Fin 16) :=
  let h2 := hw2 raw
  if Core.bitSet (hw1 raw) 7 = false ∧ Core.bitSet h2 11 ∧
      (Core.bitSet h2 8 || !Core.bitSet h2 10) then [regField (hw1 raw)] else []

/-- The destinations of a load-acquire, and the status register of an exclusive store. -/
def v8mDestinations (raw : Word) : List (Fin 16) :=
  let h1 := hw1 raw
  let h2 := hw2 raw
  if h1 &&& 0xFFE0 ≠ 0xE8C0 ∨ (h2 >>> 8) &&& 0xF ≠ 0xF then []
  else if Core.bitSet h1 4 then [regField (h2 >>> 12)] else [regField h2]

/-- The base register of a floating-point block transfer, and the core register of a move. -/
def vfpDestinations (raw : Word) : List (Fin 16) :=
  let h1 := hw1 raw
  let h2 := hw2 raw
  if h1 >>> 9 = 0b1110110 then if Core.bitSet h1 5 then [regField h1] else []
  else if h1 = 0xEEF1 ∨ (h1 &&& 0xFFE0 = 0xEE00 ∧ Core.bitSet h1 4) then [regField (h2 >>> 12)]
  else []

namespace Instruction

variable (inst : Instruction)

/-- The base register that a single load or store writes back. -/
def singleBase (raw len : Word) : List (Fin 16) :=
  if len = 4 then writesBack32 raw else inst.op1.writesBack

/-- The registers of the list of POP and LDM. -/
def listed (op : Operand) : List (Fin 16) :=
  match op.toReglist with
  | some mask => Exec.maskRegs mask
  | none => []

/-- The base register of STM and LDM, if it is written back. -/
def blockBase : List (Fin 16) :=
  match inst.op0.toRegwback with
  | some (rn, true) => [rn]
  | _ => []

/-- The registers that an instruction names as destinations, write-back included. -/
def destinations (raw len : Word) : List (Fin 16) :=
  match inst.opcode with
  | .push => [Core.sp]
  | .pop => Core.sp :: listed inst.op0
  | .stm => inst.blockBase
  | .ldm => inst.blockBase ++ listed inst.op1
  | .mov | .movt | .mvn | .add | .adc | .sub | .sbc | .rsb | .and | .orr | .orn | .eor | .bic
  | .lsl | .lsr | .asr | .ror | .rrx
  | .uxtb | .uxth | .sxtb | .sxth | .uxtab | .uxtah | .sxtab | .sxtah
  | .uxtb16 | .sxtb16 | .uxtab16 | .sxtab16
  | .mul | .mla | .mls | .udiv | .sdiv | .smla _ _
  | .clz | .rev | .rev16 | .rbit | .revsh | .bfi | .bfc | .ubfx | .sbfx => inst.op0.asDest
  | .umull | .smull | .umlal | .smlal | .umaal => inst.op0.asDest ++ inst.op1.asDest
  | .pkhbt | .pkhtb => [regField (hw2 raw >>> 8)]
  | .ldr | .ldrb | .ldrh | .ldrsb | .ldrsh | .ldrt | .ldrbt | .ldrht | .ldrsbt | .ldrsht =>
      inst.op0.asDest ++ inst.singleBase raw len
  | .str | .strb | .strh | .strt | .strbt | .strht => inst.singleBase raw len
  | .ldrd => inst.op0.asDest ++ inst.op1.asDest ++ inst.op2.writesBack
  | .strd => inst.op2.writesBack
  | .ldrex | .ldrexb | .ldrexh => inst.op0.asDest ++ inst.op1.writesBack
  | .strex | .strexb | .strexh => inst.op0.asDest ++ inst.op2.writesBack
  | .ldaex | .ldaexb | .ldaexh | .stlex | .stlexb | .stlexh
  | .lda | .ldab | .ldah | .stl | .stlb | .stlh => v8mDestinations raw
  | .bl | .blx => [Core.lr]
  | .mrs => [regField (raw >>> 24)]
  | .nop | .dsb | .dmb | .isb | .yield | .wfe | .wfi | .it | .cmp | .cmn | .tst | .teq
  | .cbz | .cbnz | .b | .bx | .tbb | .tbh | .msr | .cps _ | .svc | .udf | .bkpt | .other => []

end Instruction

/-- Whether a fetched instruction is IT. -/
def Decoded.isIt (d : Decoded) : Bool :=
  match d.inst with
  | some inst => inst.opcode == .it
  | none => false

/-- The registers that a fetched instruction names as destinations. -/
def Decoded.destinations (d : Decoded) : List (Fin 16) :=
  match d.inst with
  | some inst => inst.destinations d.raw d.len
  | none => v8mDestinations d.raw ++ vfpDestinations d.raw

namespace Core

/-- The core without what data processing changes: two cores that agree here differ in registers,
flags and PC only. -/
def dataless (c : Core) : Core :=
  { c with
    r := fun _ => 0
    pc := 0
    n := false
    z := false
    c := false
    v := false
    q := false
    s := fun _ => 0
    fpscr := 0
    curSetflags := false }

/-- Data processing leads from `c` to `d`, and writes no general register but the free ones. -/
structure OnlyData (free : Fin 16 → Prop) (c d : Core) : Prop where
  dataless : c.dataless = d.dataless
  r : ∀ i, ¬ free i → d.r i = c.r i

end Core

/-- A reflexive and transitive relation that holds across changes of the free registers, the flags
and the PC. -/
class DataRel (R : Core → Core → Prop) (free : outParam (Fin 16 → Prop)) : Prop where
  refl : ∀ c, R c c
  trans : ∀ {c d e}, R c d → R d e → R c e
  data : ∀ {c d : Core}, c.OnlyData free d → R c d

/-- A relation that holds across everything that an instruction does. -/
class StepRel (R : Core → Core → Prop) (free : outParam (Fin 16 → Prop)) : Prop
    extends DataRel R free where
  fpca : ∀ c, R c c.markFpca
  ret : ∀ (c : Core) (exc : Word), (c.exceptionReturn exc).Returns (R c)
  svc : ∀ c : Core, (c.exceptionEntry 11).Returns (R c)
  special : ∀ (c : Core) (sysm : Byte) (v : Word), R c (c.writeSpecial sysm v)
  cps : ∀ (c : Core) (disable : Bool), R c { c with primask := disable }
  it : ∀ (c : Core) (firstcond mask : Word), R c (c.setIt firstcond mask)
  wfiIdle : ∀ c : Core, R c { c with wfiIdle := true }
  idle : ∀ c : Core, c.wfiThrottle = true → 1 < c.systick → R c c.idle
  halt : ∀ (c : Core) (pc : Word), c.debugEn = true → R c (c.haltAt pc)

namespace Exec

/-- A relation between the core that a body finds and the one that it leaves. -/
def Keeps {α : Type} (R : Core → Core → Prop) (x : Exec α) : Prop :=
  ∀ c, (x c).Returns fun r => R c r.2

section Data

variable {R : Core → Core → Prop} {free : Fin 16 → Prop} [hR : DataRel R free] {α β : Type}

include hR

/-! ## The rules -/

omit hR in
theorem Keeps.modify {f : Core → Core} (hf : ∀ c, R c (f c)) : (Exec.modify f).Keeps R := hf

omit hR in
theorem Keeps.ite {p : Prop} [Decidable p] {x y : Exec α} (hx : p → x.Keeps R)
    (hy : ¬ p → y.Keeps R) : (if p then x else y).Keeps R := by
  split
  · next hp => exact hx hp
  · next hp => exact hy hp

theorem Keeps.pure (a : α) : (Pure.pure a : Exec α).Keeps R := fun c => hR.refl c

theorem Keeps.fail : (Exec.fail : Exec α).Keeps R := fun c => hR.refl c

theorem Keeps.bind {x : Exec α} {f : α → Exec β} (hx : x.Keeps R) (hf : ∀ a, (f a).Keeps R) :
    (x >>= f).Keeps R := by
  intro c
  show ((x c).bind _).Returns _
  refine Prog.returns_bind.mpr ((hx c).mono ?_)
  rintro ⟨a | a, d⟩ hd
  · exact hd
  · exact (hf a d).mono fun r hr => hR.trans hd hr

theorem Keeps.query (f : Core → Option α) : (Exec.query f).Keeps R := fun c => hR.refl c

/-- What follows a query may use where its value comes from. -/
theorem Keeps.queryBind {f : Core → Option α} {g : α → Exec β}
    (hg : ∀ c a, f c = some a → (g a).Keeps R) : (Exec.query f >>= g).Keeps R := by
  intro c
  show (Exec.bind (Exec.query f) g c).Returns _
  rw [Exec.bind, Exec.query, Prog.ret_bind]
  cases hf : f c with
  | none => exact hR.refl c
  | some a => exact hg c a hf c

theorem Keeps.ofOptionBind {o : Option α} {g : α → Exec β}
    (hg : ∀ a, o = some a → (g a).Keeps R) : (Exec.ofOption o >>= g).Keeps R := by
  cases o with
  | none => exact fun c => hR.refl c
  | some a => exact hg a rfl

/-- What follows the choice of a destination may use that it is free. -/
theorem Keeps.regBind {op : Operand} {g : Fin 16 → Exec β} (hop : ∀ i ∈ op.asDest, free i)
    (hg : ∀ i, free i → (g i).Keeps R) : (Exec.reg op >>= g).Keeps R :=
  Keeps.ofOptionBind fun i hi => hg i (hop i (Option.mem_toList.mpr hi))

theorem Keeps.get : Exec.get.Keeps R := fun c => hR.refl c

theorem Keeps.ofOption (a : Option α) : (Exec.ofOption a).Keeps R := by
  cases a with
  | none => exact Keeps.fail
  | some a => exact Keeps.pure a

theorem Keeps.call (e : BusCall) : (Exec.call e).Keeps R := fun c _ => hR.refl c

theorem Keeps.readReg (i : Fin 16) : (Exec.readReg i).Keeps R := fun c => hR.refl c

theorem Keeps.reg (op : Operand) : (Exec.reg op).Keeps R := Keeps.ofOption _

theorem Keeps.imm (op : Operand) : (Exec.imm op).Keeps R := Keeps.ofOption _

theorem Keeps.opval (op : Operand) : (Exec.opval op).Keeps R := Keeps.query _

theorem Keeps.regVal (op : Operand) : (Exec.regVal op).Keeps R :=
  (Keeps.reg op).bind fun i => Keeps.readReg i

theorem Keeps.readR (i : Fin 16) : (Exec.readR i).Keeps R := fun c => hR.refl c

/-- An update of the flags and the PC. -/
theorem Keeps.update {f : Core → Core} (hf : ∀ c, c.dataless = (f c).dataless)
    (hr : ∀ c, (f c).r = c.r) : (Exec.modify f).Keeps R :=
  Keeps.modify fun c => hR.data ⟨hf c, fun i _ => congrFun (hr c) i⟩

end Data

end Exec

namespace Core

/-! ## Updates of registers, flags and PC -/

variable {free : Fin 16 → Prop} (c : Core)

theorem onlyData_refl : c.OnlyData free c := ⟨rfl, fun _ _ => rfl⟩

theorem onlyData_setR {i : Fin 16} (hi : free i) (v : Word) : c.OnlyData free (c.setR i v) :=
  ⟨rfl, fun _ hj => c.setR_of_ne v fun heq => hj (heq ▸ hi)⟩

theorem onlyData_writeReg {i : Fin 16} (hi : free i) (v : Word) :
    c.OnlyData free (c.writeReg i v) := by
  rw [writeReg]
  split
  · exact ⟨rfl, fun _ _ => rfl⟩
  · exact c.onlyData_setR hi v

theorem dataless_aluFlags (op : Alu) (a b res : Word) :
    (c.aluFlags op a b res).dataless = c.dataless ∧ (c.aluFlags op a b res).r = c.r := by
  cases op <;> exact ⟨rfl, rfl⟩

theorem onlyData_writeBack {rn : Fin 16} {wback : Bool}
    (h : ∀ i ∈ (if wback then [rn] else []), free i) (ea : Word) :
    c.OnlyData free (c.writeBack rn wback ea) := by
  rw [writeBack]
  split
  · next hw =>
      rw [hw.1] at h
      exact c.onlyData_setR (h rn (List.mem_singleton.mpr rfl)) ea
  · exact c.onlyData_refl

theorem onlyData_memAddr {op : Operand} {ea : Word} {d : Core} (hop : ∀ i ∈ op.writesBack, free i)
    (h : c.memAddr op = some (ea, d)) : c.OnlyData free d := by
  cases op with
  | regDeref rn => cases h; exact c.onlyData_refl
  | regDerefPreindexOffset rn off add wback => cases h; exact c.onlyData_writeBack hop _
  | regDerefPostindexOffset rn off add wback =>
      cases h
      exact c.onlyData_setR (hop rn (List.mem_singleton.mpr rfl)) _
  | regDerefPreindexReg rn rm add wback => cases h; exact c.onlyData_writeBack hop _
  | regDerefPreindexRegShift rn rs add wback => cases h; exact c.onlyData_writeBack hop _
  | reg | imm32 | imm12 | regShift | regList | regWBack | ror | nothing | other => cases h

theorem onlyData_memAddr32 {raw : Word} (h : ∀ i ∈ writesBack32 raw, free i) :
    c.OnlyData free (c.memAddr32 raw).2 := by
  rw [memAddr32]
  dsimp only
  split
  · exact c.onlyData_refl
  split
  · exact c.onlyData_refl
  next hup =>
  split
  · next h11 =>
      dsimp only
      split
      · next hw =>
          -- the one form that writes the base back
          rw [writesBack32, if_pos ⟨Bool.eq_false_iff.mpr hup, h11, hw⟩] at h
          exact c.onlyData_setR (h _ (List.mem_singleton.mpr rfl)) _
      · exact c.onlyData_refl
  · exact c.onlyData_refl

theorem dataless_vfpUnary (isa : Isa) (vn : Word) (op : Bool) (sd sm : Fin 32) :
    (c.vfpUnary isa vn op sd sm).dataless = c.dataless ∧
      (c.vfpUnary isa vn op sd sm).r = c.r := by
  rw [vfpUnary]
  split <;> exact ⟨rfl, rfl⟩

theorem dataless_vfpSingle (isa : Isa) (h1 h2 : Word) :
    (c.vfpSingle isa h1 h2).dataless = c.dataless ∧ (c.vfpSingle isa h1 h2).r = c.r := by
  rw [vfpSingle]
  dsimp only
  split
  · split <;> exact ⟨rfl, rfl⟩
  split
  · exact ⟨rfl, rfl⟩
  split
  · split
    · exact ⟨rfl, rfl⟩
    · exact c.dataless_vfpUnary ..
  · exact ⟨rfl, rfl⟩

theorem dataless_vfpDouble (isa : Isa) (h1 h2 : Word) :
    (c.vfpDouble isa h1 h2).dataless = c.dataless ∧ (c.vfpDouble isa h1 h2).r = c.r := by
  rw [vfpDouble]
  dsimp only
  split
  · exact ⟨rfl, rfl⟩
  split
  · exact ⟨rfl, rfl⟩
  split <;> exact ⟨rfl, rfl⟩

theorem onlyData_of_eq {d : Core} (h : d.dataless = c.dataless ∧ d.r = c.r) : c.OnlyData free d :=
  ⟨h.1.symm, fun i _ => congrFun h.2 i⟩

theorem onlyData_execVfpDp (isa : Isa) {h1 h2 : Word}
    (h : h1 = 0xEEF1 ∨ (h1 &&& 0xFFE0 = 0xEE00 ∧ bitSet h1 4) → free (regField (h2 >>> 12))) :
    c.OnlyData free (c.execVfpDp isa h1 h2) := by
  rw [execVfpDp]
  dsimp only
  split
  · next hmrs =>
      split
      · exact c.onlyData_of_eq ⟨rfl, rfl⟩
      · exact c.onlyData_setR (h (Or.inl hmrs.1)) _
  split
  · exact c.onlyData_of_eq ⟨rfl, rfl⟩
  split
  · next hmov =>
      split
      · next h4 => exact c.onlyData_setR (h (Or.inr ⟨hmov.1, h4⟩)) _
      · exact c.onlyData_of_eq ⟨rfl, rfl⟩
  split
  · exact c.onlyData_of_eq (c.dataless_vfpDouble ..)
  · exact c.onlyData_of_eq (c.dataless_vfpSingle ..)

end Core

/-! ## Data processing -/

namespace Exec

section Data

variable {R : Core → Core → Prop} {free : Fin 16 → Prop} [hR : DataRel R free]

include hR

theorem Keeps.writeReg {i : Fin 16} (hi : free i) (v : Word) : (Exec.writeReg i v).Keeps R :=
  Keeps.modify fun c => hR.data (c.onlyData_writeReg hi v)

theorem Keeps.writeR {i : Fin 16} (hi : free i) (v : Word) : (Exec.writeR i v).Keeps R :=
  Keeps.modify fun c => hR.data (c.onlyData_setR hi v)

theorem Keeps.setReg {op : Operand} (hop : ∀ i ∈ op.asDest, free i) (v : Word) :
    (Exec.setReg op v).Keeps R :=
  Keeps.regBind hop fun _ hi => Keeps.writeReg hi v

theorem Keeps.whenSetflags {f : Core → Core}
    (hf : ∀ c, (f c).dataless = c.dataless ∧ (f c).r = c.r) : (Exec.whenSetflags f).Keeps R := by
  refine Keeps.modify fun c => hR.data ?_
  split
  · exact c.onlyData_of_eq (hf c)
  · exact c.onlyData_refl

theorem Keeps.memAddr {op : Operand} (hop : ∀ i ∈ op.writesBack, free i) :
    (Exec.memAddr op).Keeps R := by
  intro c
  rw [Exec.memAddr]
  split
  · next ea d h => exact hR.data (c.onlyData_memAddr hop h)
  · exact hR.refl c

theorem Keeps.memAddr32 {raw : Word} (h : ∀ i ∈ writesBack32 raw, free i) :
    (Exec.memAddr32 raw).Keeps R := fun c => hR.data (c.onlyData_memAddr32 h)

end Data

end Exec

namespace Instruction

open Exec

section Data

variable {R : Core → Core → Prop} {free : Fin 16 → Prop} [hR : DataRel R free]
  {inst : Instruction}

include hR

omit hR in
/-- The destination of an ALU instruction is its first operand. -/
theorem mem_asDest_of_aluOperands {c : Core} {rd : Fin 16} {a b : Word}
    (h : inst.aluOperands c = some (rd, a, b)) : rd ∈ inst.op0.asDest := by
  obtain ⟨i, hi, hrest⟩ := Option.bind_eq_some_iff.mp h
  split at hrest
  · obtain ⟨_, -, heq⟩ := Option.bind_eq_some_iff.mp hrest
    cases heq
    exact Option.mem_toList.mpr hi
  · obtain ⟨_, -, hlast⟩ := Option.bind_eq_some_iff.mp hrest
    obtain ⟨_, -, heq⟩ := Option.bind_eq_some_iff.mp hlast
    cases heq
    exact Option.mem_toList.mpr hi

omit hR in
theorem mem_asDest_of_moveOperands {c : Core} {rd : Fin 16} {v : Word}
    (h : inst.moveOperands c = some (rd, v)) : rd ∈ inst.op0.asDest := by
  obtain ⟨i, hi, hrest⟩ := Option.bind_eq_some_iff.mp h
  obtain ⟨_, -, heq⟩ := Option.bind_eq_some_iff.mp hrest
  cases heq
  exact Option.mem_toList.mpr hi

theorem keeps_alu (h : ∀ i ∈ inst.op0.asDest, free i) (op : Alu) : (inst.alu op).Keeps R :=
  Keeps.queryBind fun _ (rd, a, b) hq => Keeps.get.bind fun _ =>
    (Keeps.writeReg (h rd (mem_asDest_of_aluOperands hq)) _).bind fun _ =>
      Keeps.whenSetflags fun d => d.dataless_aluFlags op a b _

theorem keeps_shiftOp (h : ∀ i ∈ inst.op0.asDest, free i) (style : ShiftStyle) :
    (inst.shiftOp style).Keeps R := by
  refine Keeps.regBind h fun rd hrd => Keeps.bind ?_ fun _ => (Keeps.opval _).bind fun _ =>
    Keeps.get.bind fun _ => (Keeps.writeReg hrd _).bind fun _ =>
      Keeps.whenSetflags fun _ => ⟨rfl, rfl⟩
  exact Keeps.ite (fun _ => Keeps.readReg rd) fun _ => Keeps.regVal _

theorem keeps_move (h : ∀ i ∈ inst.op0.asDest, free i) (f : Word → Word) :
    (inst.move f).Keeps R :=
  Keeps.queryBind fun _ (rd, _) hq =>
    (Keeps.writeReg (h rd (mem_asDest_of_moveOperands hq)) _).bind fun _ =>
      Keeps.whenSetflags fun _ => ⟨rfl, rfl⟩

theorem keeps_movt (h : ∀ i ∈ inst.op0.asDest, free i) : inst.movt.Keeps R :=
  Keeps.regBind h fun rd hrd => (Keeps.opval _).bind fun _ => (Keeps.readReg rd).bind fun _ =>
    Keeps.writeReg hrd _

theorem keeps_compare {flags : Core → Word → Word → Core}
    (hflags : ∀ c a b, c.dataless = (flags c a b).dataless ∧ (flags c a b).r = c.r) :
    (inst.compare flags).Keeps R :=
  (Keeps.query _).bind fun (a, b) =>
    Keeps.update (fun c => (hflags c a b).1) fun c => (hflags c a b).2

theorem keeps_rrx (h : ∀ i ∈ inst.op0.asDest, free i) : inst.rrx.Keeps R :=
  Keeps.regBind h fun _ hrd => (Keeps.regVal _).bind fun _ => Keeps.get.bind fun _ =>
    (Keeps.writeReg hrd _).bind fun _ => Keeps.whenSetflags fun _ => ⟨rfl, rfl⟩

theorem keeps_extendOperands (add : Bool) : (inst.extendOperands add).Keeps R := by
  refine Keeps.bind ?_ fun _ => (Keeps.opval _).bind fun _ => Keeps.pure _
  exact Keeps.ite (fun _ => Keeps.regVal _) fun _ => Keeps.pure _

theorem keeps_extend (h : ∀ i ∈ inst.op0.asDest, free i) (bits : Nat) (signed add : Bool) :
    (inst.extend bits signed add).Keeps R :=
  Keeps.regBind h fun _ hrd => (keeps_extendOperands add).bind fun _ => Keeps.writeReg hrd _

theorem keeps_extend16 (h : ∀ i ∈ inst.op0.asDest, free i) (signed add : Bool) :
    (inst.extend16 signed add).Keeps R :=
  Keeps.regBind h fun _ hrd => (keeps_extendOperands add).bind fun _ => Keeps.writeReg hrd _

theorem keeps_mul (h : ∀ i ∈ inst.op0.asDest, free i) : inst.mul.Keeps R :=
  (Keeps.regVal _).bind fun _ => (Keeps.regVal _).bind fun _ => (Keeps.setReg h _).bind fun _ =>
    Keeps.whenSetflags fun _ => ⟨rfl, rfl⟩

theorem keeps_mulAcc (h : ∀ i ∈ inst.op0.asDest, free i) (f : Word → Word → Word → Word) :
    (inst.mulAcc f).Keeps R :=
  (Keeps.regVal _).bind fun _ => (Keeps.regVal _).bind fun _ => (Keeps.regVal _).bind fun _ =>
    Keeps.setReg h _

theorem keeps_setLong (h : ∀ i ∈ inst.op0.asDest ++ inst.op1.asDest, free i) (p : BitVec 64) :
    (inst.setLong p).Keeps R :=
  (Keeps.setReg (fun i hi => h i (List.mem_append_left _ hi)) _).bind fun _ =>
    Keeps.setReg (fun i hi => h i (List.mem_append_right _ hi)) _

theorem keeps_mulLong (h : ∀ i ∈ inst.op0.asDest ++ inst.op1.asDest, free i)
    (f : Word → Word → BitVec 64) : (inst.mulLong f).Keeps R :=
  (Keeps.regVal _).bind fun _ => (Keeps.regVal _).bind fun _ => keeps_setLong h _

theorem keeps_mulLongAcc (h : ∀ i ∈ inst.op0.asDest ++ inst.op1.asDest, free i)
    (f : Word → Word → Word → Word → BitVec 64) : (inst.mulLongAcc f).Keeps R :=
  (Keeps.regVal _).bind fun _ => (Keeps.regVal _).bind fun _ => (Keeps.regVal _).bind fun _ =>
    (Keeps.regVal _).bind fun _ => keeps_setLong h _

theorem keeps_binary (h : ∀ i ∈ inst.op0.asDest, free i) (f : Word → Word → Word) :
    (inst.binary f).Keeps R :=
  (Keeps.regVal _).bind fun _ => (Keeps.regVal _).bind fun _ => Keeps.setReg h _

theorem keeps_unary (h : ∀ i ∈ inst.op0.asDest, free i) (f : Word → Word) :
    (inst.unary f).Keeps R :=
  (Keeps.regVal _).bind fun _ => Keeps.setReg h _

theorem keeps_bfi (h : ∀ i ∈ inst.op0.asDest, free i) (raw : Word) : (inst.bfi raw).Keeps R :=
  Keeps.regBind h fun rd hrd => (Keeps.regVal _).bind fun _ => (Keeps.readReg rd).bind fun _ =>
    Keeps.writeReg hrd _

theorem keeps_bfc (h : ∀ i ∈ inst.op0.asDest, free i) (raw : Word) : (inst.bfc raw).Keeps R :=
  Keeps.regBind h fun rd hrd => (Keeps.readReg rd).bind fun _ => Keeps.writeReg hrd _

theorem keeps_bfxOperands : inst.bfxOperands.Keeps R :=
  (Keeps.regVal _).bind fun _ => (Keeps.imm _).bind fun _ => (Keeps.imm _).bind fun _ =>
    Keeps.pure _

theorem keeps_ubfx (h : ∀ i ∈ inst.op0.asDest, free i) : inst.ubfx.Keeps R :=
  keeps_bfxOperands.bind fun _ => Keeps.setReg h _

theorem keeps_sbfx (h : ∀ i ∈ inst.op0.asDest, free i) : inst.sbfx.Keeps R :=
  keeps_bfxOperands.bind fun _ => Keeps.setReg h _

theorem keeps_pkh {raw : Word} (h : free (regField (hw2 raw >>> 8))) : (pkh raw).Keeps R :=
  (Keeps.readReg _).bind fun _ => (Keeps.readReg _).bind fun _ => Keeps.writeReg h _

/-! ## Memory -/

theorem keeps_singleAddr {raw len : Word} (h : ∀ i ∈ inst.singleBase raw len, free i) :
    (inst.singleAddr raw len).Keeps R := by
  rw [singleBase] at h
  rw [singleAddr]
  split
  · next hlen =>
      rw [if_pos hlen] at h
      exact Keeps.memAddr32 h
  · next hlen =>
      rw [if_neg hlen] at h
      exact Keeps.memAddr h

theorem keeps_store {raw len : Word} (h : ∀ i ∈ inst.singleBase raw len, free i) (w : Width) :
    (inst.store w raw len).Keeps R :=
  (Keeps.reg _).bind fun rt => (keeps_singleAddr h).bind fun _ =>
    (Keeps.readReg rt).bind fun _ => Keeps.call _

theorem keeps_loadDouble
    (h : ∀ i ∈ inst.op0.asDest ++ inst.op1.asDest ++ inst.op2.writesBack, free i) :
    inst.loadDouble.Keeps R := by
  have hdest := fun i hi => h i (List.mem_append_left _ hi)
  refine Keeps.regBind (fun i hi => hdest i (List.mem_append_left _ hi)) fun rt hrt => ?_
  refine Keeps.regBind (fun i hi => hdest i (List.mem_append_right _ hi)) fun rt2 hrt2 => ?_
  refine (Keeps.memAddr fun i hi => h i (List.mem_append_right _ hi)).bind fun _ => ?_
  exact (Keeps.call _).bind fun a => (Keeps.call _).bind fun b =>
    (Keeps.writeReg hrt a).bind fun _ => Keeps.writeReg hrt2 b

theorem keeps_storeDouble (h : ∀ i ∈ inst.op2.writesBack, free i) : inst.storeDouble.Keeps R :=
  (Keeps.reg _).bind fun rt => (Keeps.reg _).bind fun rt2 => (Keeps.memAddr h).bind fun _ =>
    (Keeps.readReg rt).bind fun _ => (Keeps.call _).bind fun _ => (Keeps.readReg rt2).bind fun _ =>
      Keeps.call _

theorem keeps_loadExclusive (h : ∀ i ∈ inst.op0.asDest ++ inst.op1.writesBack, free i)
    (w : Width) : (inst.loadExclusive w).Keeps R :=
  (Keeps.memAddr fun i hi => h i (List.mem_append_right _ hi)).bind fun _ =>
    (Keeps.call _).bind fun _ => Keeps.setReg (fun i hi => h i (List.mem_append_left _ hi)) _

theorem keeps_storeExclusive (h : ∀ i ∈ inst.op0.asDest ++ inst.op2.writesBack, free i)
    (w : Width) : (inst.storeExclusive w).Keeps R :=
  (Keeps.memAddr fun i hi => h i (List.mem_append_right _ hi)).bind fun _ =>
    (Keeps.regVal _).bind fun _ => (Keeps.call _).bind fun _ =>
      Keeps.setReg (fun i hi => h i (List.mem_append_left _ hi)) _

/-! ## Branches -/

theorem keeps_compareBranch (raw pc : Word) (taken : Word → Bool) :
    (inst.compareBranch raw pc taken).Keeps R :=
  (Keeps.regVal _).bind fun _ =>
    Keeps.ite (fun _ => Keeps.update (fun _ => rfl) fun _ => rfl) fun _ => Keeps.pure _

theorem keeps_branch (pc len raw : Word) : (inst.branch pc len raw).Keeps R :=
  Keeps.get.bind fun _ =>
    Keeps.ite (fun _ => Keeps.update (fun _ => rfl) fun _ => rfl) fun _ => Keeps.pure _

theorem keeps_branchLink (h : free Core.lr) (pc len raw : Word) : (branchLink pc len raw).Keeps R :=
  Keeps.modify fun c => hR.data ⟨rfl, (c.onlyData_setR h _).r⟩

theorem keeps_blx (h : free Core.lr) (pc len : Word) : (inst.blx pc len).Keeps R :=
  (Keeps.regVal _).bind fun _ => Keeps.modify fun c => hR.data ⟨rfl, (c.onlyData_setR h _).r⟩

theorem keeps_tableBranch (w : Width) : (inst.tableBranch w).Keeps R :=
  (Keeps.ofOption _).bind fun _ => Keeps.get.bind fun _ => (Keeps.call _).bind fun _ =>
    Keeps.update (fun _ => rfl) fun _ => rfl

theorem keeps_mrs {raw : Word} (h : free (regField (raw >>> 24))) : (mrs raw).Keeps R :=
  Keeps.get.bind fun _ => Keeps.writeReg h _

end Data

end Instruction

/-! ## The places where more changes -/

namespace Exec

section Step

variable {R : Core → Core → Prop} {free : Fin 16 → Prop} [hR : StepRel R free]

include hR

/-- A branch, or a return from an exception. -/
theorem Keeps.branchTo (t : Word) : (Exec.branchTo t).Keeps R := by
  intro c
  show ((c.branchTo t).bind _).Returns _
  rw [Prog.returns_bind, Core.branchTo]
  split
  · exact hR.ret c t
  · exact hR.data (c.onlyData_of_eq ⟨rfl, rfl⟩)

theorem Keeps.transferRegs {store : Bool} {regs : List (Fin 16)}
    (h : store = false → ∀ i ∈ regs, free i) (addr : Word) :
    (Exec.transferRegs store regs addr).Keeps R := by
  induction regs generalizing addr with
  | nil => exact Keeps.pure none
  | cons i rest ih =>
      have hrest := ih fun hs j hj => h hs j (List.mem_cons_of_mem _ hj)
      rw [Exec.transferRegs]
      refine Keeps.ite (fun _ => ?_) fun hstore => ?_
      · exact (Keeps.readReg i).bind fun _ => (Keeps.call _).bind fun _ => hrest _
      · have hi := h (Bool.eq_false_iff.mpr hstore) i List.mem_cons_self
        refine (Keeps.call _).bind fun _ => Keeps.ite (fun _ => ?_) fun _ => ?_
        · exact (hrest _).bind fun _ => Keeps.pure _
        · exact (Keeps.writeR hi _).bind fun _ => hrest _

theorem Keeps.blockTransfer {rn : Fin 16} {wback store : Bool} {mask : Half}
    (hbase : wback = true → free rn) (hregs : store = false → ∀ i ∈ Exec.maskRegs mask, free i)
    (add pre : Bool) : (Exec.blockTransfer rn wback mask add pre store).Keeps R := by
  refine (Keeps.readR rn).bind fun _ => (Keeps.transferRegs hregs _).bind fun pc =>
    Keeps.bind ?_ fun _ => ?_
  · exact Keeps.ite (fun hw => Keeps.writeR (hbase hw) _) fun _ => Keeps.pure _
  · cases pc with
    | some v => exact Keeps.branchTo v
    | none => exact Keeps.pure ()

theorem Keeps.tryV8m {raw : Word} (h : ∀ i ∈ v8mDestinations raw, free i) (pc : Word) :
    (Exec.tryV8m raw pc).Keeps R := by
  refine Keeps.ite (fun _ => Keeps.fail) fun hform => ?_
  rw [v8mDestinations, if_neg hform] at h
  refine (Keeps.ofOption _).bind fun _ => (Keeps.readR _).bind fun _ => Keeps.bind ?_ fun _ =>
    Keeps.update (fun _ => rfl) fun _ => rfl
  refine Keeps.ite (fun hload => ?_) fun hload => ?_
  · rw [if_pos hload] at h
    exact (Keeps.call _).bind fun _ => Keeps.writeR (h _ (List.mem_singleton.mpr rfl)) _
  · rw [if_neg hload] at h
    refine (Keeps.readR _).bind fun _ => (Keeps.call _).bind fun _ => ?_
    exact Keeps.ite (fun _ => Keeps.writeR (h _ (List.mem_singleton.mpr rfl)) _)
      fun _ => Keeps.pure _

theorem Keeps.transferSingle (load : Bool) (x : Nat) (addr : Word) :
    (Exec.transferSingle load x addr).Keeps R := by
  refine Keeps.ite (fun _ => ?_) fun _ => ?_
  · exact (Keeps.call _).bind fun _ => Keeps.update (fun _ => rfl) fun _ => rfl
  · exact Keeps.get.bind fun _ => Keeps.call _

theorem Keeps.transferExt (load single : Bool) (x : Nat) (addr : Word) :
    (Exec.transferExt load single x addr).Keeps R :=
  Keeps.ite (fun _ => Keeps.transferSingle load x addr) fun _ =>
    (Keeps.transferSingle load _ _).bind fun _ => Keeps.transferSingle load _ _

theorem Keeps.transferExts (load single : Bool) (count first : Nat) (addr : Word) :
    (Exec.transferExts load single count first addr).Keeps R := by
  induction count generalizing first addr with
  | zero => exact Keeps.pure ()
  | succ count ih => exact (Keeps.transferExt load single _ _).bind fun _ => ih _ _

theorem Keeps.vfpTransfer {h1 h2 : Word} (h : Core.bitSet h1 5 = true → free (regField h1)) :
    (Exec.vfpTransfer h1 h2).Keeps R := by
  refine Keeps.get.bind fun _ => Keeps.ite (fun _ => Keeps.transferExt _ _ _ _) fun _ => ?_
  exact (Keeps.transferExts _ _ _ _ _).bind fun _ =>
    Keeps.ite (fun hw => Keeps.writeR (h hw) _) fun _ => Keeps.pure _

theorem Keeps.execVfp (isa : Isa) {raw : Word} (h : ∀ i ∈ vfpDestinations raw, free i) :
    (Exec.execVfp isa raw).Keeps R := by
  rw [vfpDestinations] at h
  refine Keeps.ite (fun hblock => ?_) fun hblock => Keeps.ite (fun _ => ?_) fun _ => Keeps.fail
  · rw [if_pos hblock] at h
    refine (Keeps.modify hR.fpca).bind fun _ => Keeps.vfpTransfer fun hw => ?_
    rw [if_pos hw] at h
    exact h _ (List.mem_singleton.mpr rfl)
  · rw [if_neg hblock] at h
    refine (Keeps.modify hR.fpca).bind fun _ => Keeps.modify fun c => hR.data ?_
    refine c.onlyData_execVfpDp isa fun hmove => ?_
    rw [if_pos hmove] at h
    exact h _ (List.mem_singleton.mpr rfl)

theorem Keeps.tryVfp (isa : Isa) {raw : Word} (h : ∀ i ∈ vfpDestinations raw, free i) (pc : Word) :
    (Exec.tryVfp isa raw pc).Keeps R :=
  (Keeps.execVfp isa h).bind fun _ => Keeps.update (fun _ => rfl) fun _ => rfl

/-- What the decoder does not know. -/
theorem keeps_fallback (isa : Isa) {raw : Word}
    (h : ∀ i ∈ v8mDestinations raw ++ vfpDestinations raw, free i) (pc : Word) :
    (Exec.fallback isa raw pc).Keeps R := by
  have hv8m : (Exec.tryV8m raw pc).Keeps R :=
    Keeps.tryV8m (fun i hi => h i (List.mem_append_left _ hi)) pc
  intro c
  refine Prog.returns_bind.mpr ((hv8m c).mono ?_)
  rintro ⟨_ | _, d⟩ hd
  · have hvfp : (Exec.tryVfp isa raw pc).Keeps R :=
      Keeps.tryVfp isa (fun i hi => h i (List.mem_append_right _ hi)) pc
    exact (hvfp d).mono fun r hr => hR.trans hd hr
  · exact hd

omit hR in
theorem Keeps.ofCore {f : Core → BusM Core} (hf : ∀ c, (f c).Returns (R c)) :
    (Exec.ofCore f).Keeps R := fun c =>
  Prog.returns_bind.mpr ((hf c).mono fun _ hd => hd)

end Step

end Exec

namespace Instruction

open Exec

section Step

variable {R : Core → Core → Prop} {free : Fin 16 → Prop} [hR : StepRel R free]
  {inst : Instruction}

include hR

theorem keeps_load {raw len : Word}
    (h : ∀ i ∈ inst.op0.asDest ++ inst.singleBase raw len, free i) (w : Width) (signed : Bool) :
    (inst.load w signed raw len).Keeps R :=
  Keeps.regBind (fun i hi => h i (List.mem_append_left _ hi)) fun _ hrt =>
    (keeps_singleAddr fun i hi => h i (List.mem_append_right _ hi)).bind fun _ =>
      (Keeps.call _).bind fun _ =>
        Keeps.ite (fun _ => Keeps.branchTo _) fun _ => Keeps.writeReg hrt _

/-- PUSH and POP. -/
theorem keeps_stack (h : free Core.sp) (store : Bool)
    (hregs : store = false → ∀ i ∈ listed inst.op0, free i) (add pre : Bool) :
    (Exec.ofOption inst.op0.toReglist >>= fun mask =>
      Exec.blockTransfer Core.sp true mask add pre store).Keeps R :=
  Keeps.ofOptionBind fun mask hmask => Keeps.blockTransfer (fun _ => h) (fun hs i hi =>
    hregs hs i (by rw [listed, hmask]; exact hi)) add pre

/-- STM and LDM. -/
theorem keeps_multiple {raw len : Word} (store : Bool) (hbase : ∀ i ∈ inst.blockBase, free i)
    (hregs : store = false → ∀ i ∈ listed inst.op1, free i) :
    (inst.multiple raw len store).Keeps R := by
  refine Keeps.ofOptionBind fun (rn, wback) hrn => Keeps.ofOptionBind fun mask hmask =>
    Keeps.blockTransfer (fun hw => ?_) (fun hs i hi => ?_) _ _
  · subst hw
    exact hbase rn (by rw [blockBase, hrn]; exact List.mem_singleton.mpr rfl)
  · exact hregs hs i (by rw [listed, hmask]; exact hi)

theorem keeps_bx : inst.bx.Keeps R := (Keeps.regVal _).bind fun t => Keeps.branchTo t

theorem keeps_it : inst.it.Keeps R :=
  (Keeps.imm _).bind fun firstcond => (Keeps.imm _).bind fun mask =>
    Keeps.modify fun c => hR.it c firstcond mask

theorem keeps_msr (raw : Word) : (msr raw).Keeps R :=
  (Keeps.readReg _).bind fun v => Keeps.modify fun c => hR.special c _ v

theorem keeps_svc : svc.Keeps R := Keeps.ofCore hR.svc

/-- WFI notes a genuine idle, and may then trade time. -/
theorem keeps_wfi : wfi.Keeps R := by
  have hthrottle : ∀ c : Core, c.throttle.Returns (R c) := by
    intro c
    rw [Core.throttle]
    split
    · next hrun =>
        intro pending
        cases pending with
        | true => exact hR.refl c
        | false => exact hR.idle c hrun.1 hrun.2
    · exact hR.refl c
  refine Keeps.ofCore fun c => ?_
  intro pending
  cases pending with
  | true => exact hthrottle c
  | false => exact (hthrottle _).mono fun d hd => hR.trans (hR.wfiIdle c) hd

theorem keeps_bkpt (pc : Word) : (bkpt pc).Keeps R := by
  intro c
  show (if c.debugEn then Exec.modify (fun c => c.haltAt pc)
    else Exec.fail : Exec Unit) c |>.Returns fun r => R c r.2
  cases hdebug : c.debugEn with
  | true => exact hR.halt c pc hdebug
  | false => exact hR.refl c

/-- Every body, by its opcode. -/
theorem keeps_body {raw len : Word} (h : ∀ i ∈ inst.destinations raw len, free i) (pc : Word) :
    (inst.body pc len raw).Keeps R := by
  rw [destinations] at h
  rw [body]
  cases hop : inst.opcode <;> rw [hop] at h <;> dsimp only at h ⊢
  case nop | dsb | dmb | isb | yield | wfe => exact Keeps.pure ()
  case wfi => exact keeps_wfi
  case it => exact keeps_it
  case push =>
    exact keeps_stack (h _ (List.mem_singleton.mpr rfl)) true
      (fun hs => absurd hs (by decide)) _ _
  case pop =>
    exact keeps_stack (h _ List.mem_cons_self) false
      (fun _ i hi => h i (List.mem_cons_of_mem _ hi)) _ _
  case stm => exact keeps_multiple true h fun hs => absurd hs (by decide)
  case ldm =>
    exact keeps_multiple false (fun i hi => h i (List.mem_append_left _ hi))
      fun _ i hi => h i (List.mem_append_right _ hi)
  case mov | mvn => exact keeps_move h _
  case movt => exact keeps_movt h
  case add | adc | sub | sbc | rsb | and | orr | orn | eor | bic => exact keeps_alu h _
  case lsl | lsr | asr | ror => exact keeps_shiftOp h _
  case rrx => exact keeps_rrx h
  case cmp | cmn | tst | teq => exact keeps_compare fun _ _ _ => ⟨rfl, rfl⟩
  case uxtb | uxth | sxtb | sxth | uxtab | uxtah | sxtab | sxtah => exact keeps_extend h _ _ _
  case uxtb16 | sxtb16 | uxtab16 | sxtab16 => exact keeps_extend16 h _ _
  case mul => exact keeps_mul h
  case mla | mls => exact keeps_mulAcc h _
  case smla => exact keeps_mulAcc h _
  case umull | smull => exact keeps_mulLong h _
  case umlal | smlal | umaal => exact keeps_mulLongAcc h _
  case udiv | sdiv => exact keeps_binary h _
  case clz | rev | rev16 | rbit | revsh => exact keeps_unary h _
  case bfi => exact keeps_bfi h raw
  case bfc => exact keeps_bfc h raw
  case ubfx => exact keeps_ubfx h
  case sbfx => exact keeps_sbfx h
  case pkhbt | pkhtb => exact keeps_pkh (h _ (List.mem_singleton.mpr rfl))
  case ldr | ldrt | ldrb | ldrbt | ldrh | ldrht | ldrsb | ldrsbt | ldrsh | ldrsht =>
    exact keeps_load h _ _
  case str | strt | strb | strbt | strh | strht => exact keeps_store h _
  case ldrd => exact keeps_loadDouble h
  case strd => exact keeps_storeDouble h
  case ldrex | ldrexb | ldrexh => exact keeps_loadExclusive h _
  case strex | strexb | strexh => exact keeps_storeExclusive h _
  case ldaex | ldaexb | ldaexh | stlex | stlexb | stlexh | lda | ldab | ldah | stl | stlb | stlh =>
    exact Keeps.tryV8m h pc
  case cbz | cbnz => exact keeps_compareBranch raw pc _
  case b => exact keeps_branch pc len raw
  case bl => exact keeps_branchLink (h _ (List.mem_singleton.mpr rfl)) pc len raw
  case blx => exact keeps_blx (h _ (List.mem_singleton.mpr rfl)) pc len
  case bx => exact keeps_bx
  case tbb | tbh => exact keeps_tableBranch _
  case mrs => exact keeps_mrs (h _ (List.mem_singleton.mpr rfl))
  case msr => exact keeps_msr raw
  case cps disable => exact Keeps.modify fun c => hR.cps c disable
  case svc => exact keeps_svc
  case udf | other => exact Keeps.fail
  case bkpt => exact keeps_bkpt pc

theorem keeps_execute {raw len : Word} (h : ∀ i ∈ inst.destinations raw len, free i) (pc : Word) :
    (inst.execute pc len raw).Keeps R := by
  refine Keeps.bind ?_ fun _ => keeps_body h pc
  exact Keeps.update (fun _ => rfl) fun _ => rfl

end Step

end Instruction

/-! ## A step of the core -/

/-- A relation that holds across everything that a step of the core does. -/
class CoreRel (R : Core → Core → Prop) (free : outParam (Fin 16 → Prop)) : Prop
    extends StepRel R free where
  start : ∀ (c : Core) (pc : Word) (inIt : Bool),
    R c { c with curInsn := pc, curInIt := inIt, cycles := c.cycles + 1 }
  itAdvance : ∀ c : Core, R c c.itAdvance
  romCall : ∀ (c : Core) (call : RomCall), R c (Romapi.setRomCall c call)
  /-- A boot-ROM call returns its status in r0. -/
  romStatus : free 0

namespace Core

/-- Whether an IT block is running. -/
def inIt (c : Core) : Bool := c.itstate &&& 0xF != 0

/-- Whether the IT state lets an instruction run; IT itself always runs. -/
def passes (c : Core) (isIt : Bool) : Bool :=
  if c.inIt && !isIt then c.condHolds (condFromBits ((c.itstate >>> 4) &&& 0xF)) else true

/-- The core as a step hands it to a body, but for the PC. -/
def started (c : Core) : Core :=
  { c with curInsn := c.pc, curInIt := c.inIt, cycles := c.cycles + 1 }

theorem issue_some (bodies : Bodies) (c : Core) (raw len : Word) (inst : Instruction) :
    c.issue bodies ⟨raw, len, some inst⟩ =
      (if c.passes (inst.opcode == .it) then
        bodies.execute inst c.pc len raw { c.started with pc := c.pc + len }
      else .ret (some (), { c.started with pc := c.pc + len })).bind fun r =>
        .ret (if c.inIt && !(inst.opcode == .it) then r.2.itAdvance else r.2) := rfl

theorem issue_none (bodies : Bodies) (c : Core) (raw len : Word) :
    c.issue bodies ⟨raw, len, none⟩ =
      (if c.passes false then bodies.fallback raw c.pc c.started
      else .ret (some (), { c.started with pc := c.pc + 4 })).bind fun r =>
        .ret (if c.inIt && !false then r.2.itAdvance else r.2) := rfl

section Step

variable {R : Core → Core → Prop} {free : Fin 16 → Prop} [hR : CoreRel R free]

include hR

/-- The relation across an instruction that runs if its condition holds, with the IT state moved
on or not. -/
theorem rel_body {c d skipped : Core} {x : Exec Unit} {passes : Bool}
    (hx : passes = true → x.Keeps R) (hd : R c d) (hskipped : R c skipped) (advances : Bool) :
    ((if passes then x d else .ret (some (), skipped)).bind fun r =>
      .ret (if advances then r.2.itAdvance else r.2)).Returns (R c) := by
  refine Prog.returns_bind.mpr (Prog.Returns.mono (P := fun r => R c r.2) ?_ ?_)
  · intro r hr
    cases advances with
    | true => exact hR.trans hr (hR.itAdvance r.2)
    | false => exact hr
  · cases passes with
    | true => exact (hx rfl d).mono fun r hr => hR.trans hd hr
    | false => exact hskipped

theorem rel_issue (isa : Isa) (c : Core) {d : Decoded}
    (h : c.passes d.isIt = true → ∀ i ∈ d.destinations, free i) :
    (c.issue isa.bodies d).Returns (R c) := by
  obtain ⟨raw, len, inst⟩ := d
  have hpc : ∀ (e : Core) (pc : Word), R e { e with pc := pc } := fun e pc =>
    hR.data (e.onlyData_of_eq ⟨rfl, rfl⟩)
  have hstart : R c c.started := hR.start c c.pc c.inIt
  cases inst with
  | some inst =>
      have hbody : c.passes (inst.opcode == .it) = true → (inst.execute c.pc len raw).Keeps R :=
        fun hpass => Instruction.keeps_execute (h hpass) c.pc
      rw [issue_some]
      exact rel_body hbody (hR.trans hstart (hpc _ _)) (hR.trans hstart (hpc _ _)) _
  | none =>
      have hbody : c.passes false = true → (Exec.fallback isa raw c.pc).Keeps R :=
        fun hpass => Exec.keeps_fallback isa (h hpass) c.pc
      rw [issue_none]
      exact rel_body hbody hstart (hR.trans hstart (hpc _ _)) _

theorem rel_romDispatch (c : Core) : (Romapi.romDispatch c).Returns (R c) := by
  have hreturn : ∀ e : Core, R e (Romapi.returnToLr e) := fun e =>
    hR.data (e.onlyData_of_eq ⟨rfl, rfl⟩)
  rw [Romapi.romDispatch]
  split
  · exact hreturn c
  · split
    · exact fun ok => hR.romCall c _
    · split
      · exact hR.romCall c _
      · exact fun _ => hR.trans (hR.romCall c .idle)
          (hR.trans (hR.data (onlyData_setR _ hR.romStatus _)) (hreturn _))

theorem rel_romStep (c : Core) : c.romStep.Returns (R c) := by
  intro _
  have hdispatch := rel_romDispatch (R := R)
    { c with curInsn := c.pc, cycles := c.cycles + 1 }
  exact hdispatch.mono fun d hd => hR.trans (hR.start c c.pc c.curInIt) hd

end Step

/-- The instruction that a step executes, if it does, names only free registers as
destinations. -/
def StepWrites {δ : Type} [Mmio δ] (isa : Isa) (free : Fin 16 → Prop) (c : Core) (k : DecodeCache)
    (b : Bus δ) : Prop :=
  ∀ d k₁ b₁, k.fetch isa c c.pc { b with curCyc := c.cycles } = some (d, k₁, b₁) →
    ¬ (c.romTraps && Romapi.isTrap c.pc) = true → c.passes d.isIt = true →
      ∀ i ∈ d.destinations, free i

/-- A relation that each change respects holds across a step, as long as the instruction names
only free registers. -/
theorem rel_step {R : Core → Core → Prop} {free : Fin 16 → Prop} [hR : CoreRel R free]
    {δ : Type} [Mmio δ] {isa : Isa} {verifier : Verifier} {c c' : Core} {k k' : DecodeCache}
    {b b' : Bus δ} (hfree : c.StepWrites isa free k b)
    (h : c.step isa isa.bodies verifier k b = some (c', k', b')) : R c c' := by
  rw [step] at h
  split at h
  · obtain ⟨⟨d, b₁⟩, hrun, heq⟩ := Option.bind_eq_some_iff.mp h
    cases heq
    exact Prog.of_returns (rel_romStep c) hrun
  · next htrap =>
      obtain ⟨⟨d, k₁, b₁⟩, hfetch, hrest⟩ := Option.bind_eq_some_iff.mp h
      obtain ⟨⟨e, b₂⟩, hrun, heq⟩ := Option.bind_eq_some_iff.mp hrest
      cases heq
      exact Prog.of_returns (rel_issue isa c (hfree d _ _ hfetch htrap)) hrun

end Core

end SpEmu
