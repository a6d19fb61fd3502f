import SpEmu.Cpu.Banking

/-!
# IT blocks and exceptions

A step decides before the body whether it moves ITSTATE on afterwards, and an exception entry or
return in the body writes ITSTATE. SVC stacks the state of its own position and the step then moves
on the handler's; a return under IT restores the stacked state and the step moves that on.

`itstate_across_exceptions` says which of the two slips shows: each alone is wrong, and together
they cancel.
-/

set_option autoImplicit false

namespace SpEmu

open ByteMem

namespace Core

variable (isa : Isa) (c : Core)

/-! ## The body of a step -/

/-- What a step runs when the condition of its instruction holds. -/
def bodyOf (d : Decoded) : BusM (Option Unit × Core) :=
  match d.inst with
  | some inst => inst.execute c.pc d.len d.raw { c.started with pc := c.pc + d.len }
  | none => Exec.fallback isa d.raw c.pc c.started

theorem issue_of_passes {c : Core} {d : Decoded} (hpass : c.passes d.isIt = true) :
    c.issue isa.bodies d = (c.bodyOf isa d).bind fun r =>
      .ret (if c.inIt && !d.isIt then r.2.itAdvance else r.2) := by
  obtain ⟨raw, len, inst⟩ := d
  cases inst with
  | some inst =>
      rw [issue_some, if_pos (show c.passes (inst.opcode == .it) = true from hpass)]
      rfl
  | none =>
      rw [issue_none, if_pos (show c.passes false = true from hpass)]
      rfl

/-- The core as the body of an instruction that is fetched at `c` finds it: the PC is past it. -/
def begun (inst : Instruction) (len : Word) : Core :=
  { c.started with pc := c.pc + len, curSetflags := inst.setsFlags len c.started }

variable {c}

theorem bodyOf_svc {raw len : Word} {inst : Instruction} (hop : inst.opcode = .svc) :
    c.bodyOf isa ⟨raw, len, some inst⟩ =
      ((c.begun inst len).exceptionEntry 11).bind fun e => .ret (some (), e) := by
  have hbody : inst.body c.pc len raw = Instruction.svc := by rw [Instruction.body, hop]
  show (Exec.bind _ fun _ => inst.body c.pc len raw) _ = _
  rw [hbody]
  rfl

/-- A `BX` to an EXC_RETURN value is an exception return. -/
theorem bodyOf_bx {raw len : Word} {inst : Instruction} {i : Fin 16} (hop : inst.opcode = .bx)
    (hreg : inst.op0 = .reg i) (hexc : (c.begun inst len).readReg i &&& 0xff000000 = 0xff000000) :
    c.bodyOf isa ⟨raw, len, some inst⟩ =
      ((c.begun inst len).exceptionReturn ((c.begun inst len).readReg i)).bind fun e =>
        .ret (some (), e) := by
  have hbody : inst.body c.pc len raw = inst.bx := by rw [Instruction.body, hop]
  show (Exec.bind _ fun _ => inst.body c.pc len raw) _ = _
  rw [hbody, Instruction.bx, Exec.regVal, Exec.reg, hreg]
  show ((c.begun inst len).branchTo ((c.begun inst len).readReg i)).bind _ = _
  rw [branchTo, if_pos hexc]

/-- What comes after the transfers of a block transfer. -/
theorem bodyOf_pop {δ : Type} [Mmio δ] {verifier : Verifier} {b b₁ : Bus δ} {raw len exc : Word}
    {inst : Instruction} {mask : Half} {c₁ : Core} (hop : inst.opcode = .pop)
    (hlist : inst.op0 = .regList mask) (hexc : exc &&& 0xff000000 = 0xff000000)
    (hload : (Exec.transferRegs false (Exec.maskRegs mask) (c.r sp) (c.begun inst len)).run
      (Bus.handle verifier) b = some ((some (some exc), c₁), b₁)) :
    (c.bodyOf isa ⟨raw, len, some inst⟩).run (Bus.handle verifier) b =
      (((c₁.setR sp (c.r sp + BitVec.ofNat 32 (4 * (Exec.maskRegs mask).length))).exceptionReturn
        exc).bind fun e => .ret (some (), e)).run (Bus.handle verifier) b₁ := by
  have hbase : (c.begun inst len).r sp = c.r sp := rfl
  have hmask : inst.op0.toReglist = some mask := by
    rw [hlist]
    rfl
  show ((Exec.bind _ fun _ => inst.body c.pc len raw) _).run _ _ = _
  rw [inst.body_pop hop hmask]
  show ((Exec.bind (Exec.transferRegs false (Exec.maskRegs mask) ((c.begun inst len).r sp)) _)
    (c.begun inst len)).run _ _ = _
  rw [Exec.bind, Prog.run_bind, hbase, hload, Option.bind_some]
  -- the base is written back, and then the loaded PC is a branch
  show ((Core.branchTo _ exc).bind _).run _ _ = _
  rw [branchTo, if_pos hexc]
  rfl

end Core

/-! ## The return from a handler -/

/-- The return to the context `c`, whose frame lay in RAM on the bus `b₁`: a step of the handler
that is an exception return through that frame, which was left alone. -/
structure HandlerReturn {δ : Type} [Mmio δ] (isa : Isa) (verifier : Verifier) (c : Core)
    (b₁ : Bus δ) where
  /-- The core and the bus at the return instruction. -/
  handler : Core
  bus : Bus δ
  insn : Decoded
  notIt : insn.isIt = false
  passes : handler.passes insn.isIt = true
  /-- EXC_RETURN, and the core and the bus at which the instruction gets to it. -/
  exc : Word
  last : Core
  lastBus : Bus δ
  returns : (handler.bodyOf isa insn).run (Bus.handle verifier) bus =
    ((last.exceptionReturn exc).bind fun e => .ret (some (), e)).run (Bus.handle verifier) lastBus
  base : last.returnBase exc = c.frameBase
  kept : Core.FrameKept b₁ lastBus c.frameBase c.frame.length

namespace HandlerReturn

variable {δ : Type} [Mmio δ] {isa : Isa} {verifier : Verifier} {c : Core} {b b₁ : Bus δ}

/-- A return by `BX`. -/
def bx (h : Core) (raw len : Word) {inst : Instruction} {i : Fin 16} (hop : inst.opcode = .bx)
    (hreg : inst.op0 = .reg i) (hexc : (h.begun inst len).readReg i &&& 0xff000000 = 0xff000000)
    (hpass : h.passes false = true)
    (hbase : h.returnBase ((h.begun inst len).readReg i) = c.frameBase)
    (hkept : Core.FrameKept b₁ b c.frameBase c.frame.length) :
    HandlerReturn isa verifier c b₁ where
  handler := h
  bus := b
  insn := ⟨raw, len, some inst⟩
  notIt := by
    show (inst.opcode == .it) = false
    rw [hop]
    rfl
  passes := by
    show h.passes (inst.opcode == .it) = true
    rw [hop]
    exact hpass
  exc := (h.begun inst len).readReg i
  last := h.begun inst len
  lastBus := b
  returns := congrArg (fun x => x.run (Bus.handle verifier) b) (Core.bodyOf_bx isa hop hreg hexc)
  base := hbase
  kept := hkept

/-- A return by a `POP` that loads the PC. -/
def pop (h : Core) (raw len : Word) {inst : Instruction} {mask : Half} {exc : Word} {h₁ : Core}
    {b' : Bus δ} (hop : inst.opcode = .pop) (hlist : inst.op0 = .regList mask)
    (hexc : exc &&& 0xff000000 = 0xff000000) (hpass : h.passes false = true)
    (hload : (Exec.transferRegs false (Exec.maskRegs mask) (h.r Core.sp) (h.begun inst len)).run
      (Bus.handle verifier) b = some ((some (some exc), h₁), b'))
    (hbase : h₁.returnBase exc = c.frameBase)
    (hkept : Core.FrameKept b₁ b' c.frameBase c.frame.length) :
    HandlerReturn isa verifier c b₁ where
  handler := h
  bus := b
  insn := ⟨raw, len, some inst⟩
  notIt := by
    show (inst.opcode == .it) = false
    rw [hop]
    rfl
  passes := by
    show h.passes (inst.opcode == .it) = true
    rw [hop]
    exact hpass
  exc := exc
  last := h₁.setR Core.sp (h.r Core.sp + BitVec.ofNat 32 (4 * (Exec.maskRegs mask).length))
  lastBus := b'
  returns := Core.bodyOf_pop isa hop hlist hexc hload
  base := hbase
  kept := hkept

end HandlerReturn

namespace Core

variable {δ : Type} [Mmio δ] {isa : Isa} {verifier : Verifier} {c f : Core} {b b₁ b' : Bus δ}

/-! ## ITSTATE -/

/-- The IT state of the next position. -/
def itNext (i : Byte) : Byte :=
  if i &&& 0b111 = 0 then 0 else (i &&& 0b11100000) ||| ((i <<< 1) &&& 0b00011111)

theorem itstate_itAdvance (c : Core) : c.itAdvance.itstate = itNext c.itstate := by
  rw [itAdvance, itNext]
  split <;> rfl

/-- Moving on changes every IT state but the empty one. -/
theorem itNext_eq_iff : ∀ i : Byte, itNext i = i ↔ i = 0 := by decide +kernel

theorem itstate_ne_zero (h : c.inIt = true) : c.itstate ≠ 0 := by
  intro hzero
  rw [inIt, hzero] at h
  exact absurd h (by decide)

/-! ## A return -/

/-- Of a basic frame in RAM, a return unstacks the return address and ITSTATE. -/
theorem returned_of_holds {exc : Word} {ws : List Word} {r : Core × Bus δ} (hlen : ws.length = 8)
    (hws : b.HoldsWords (c.returnBase exc) ws)
    (h : (c.exceptionReturn exc).run (Bus.handle verifier) b = some r) :
    r.1.pc = ws.getD 6 0 &&& ~~~1 ∧ r.1.itstate = itstateFromXpsr (ws.getD 7 0) := by
  have hread := BusM.run_readWords verifier hws
  rw [hlen] at hread
  rw [exceptionReturn_eq, Prog.run_bind, hread, Option.bind_some] at h
  have hreturns : (c.unstack exc (c.returnBase exc) ws).Returns fun d =>
      d.pc = ws.getD 6 0 &&& ~~~1 ∧ d.itstate = itstateFromXpsr (ws.getD 7 0) := by
    rw [unstack, Prog.bind_eq, Prog.returns_bind]
    refine returns_crashDump _ _ _ fun n => ?_
    show (((c.withDumps n).unstackFp exc _).bind _).Returns _
    rw [Prog.returns_bind]
    exact returns_unstackFp _ _ _ ⟨rfl, rfl⟩ fun _ _ => ⟨rfl, rfl⟩
  exact Prog.of_returns hreturns h

/-- What the step of a return resumes with: the stacked PC, and the stacked ITSTATE, which it moves
on once if the return is itself in an IT block. -/
theorem resumed_itstate (t : HandlerReturn isa verifier c b₁)
    (hframe : b₁.HoldsWords c.frameBase c.frame)
    (hrun : (t.handler.issue isa.bodies t.insn).run (Bus.handle verifier) t.bus = some (f, b')) :
    f.pc = c.pc &&& ~~~1 ∧
      f.itstate = if t.handler.inIt then c.itAdvance.itstate else c.itstate := by
  have hbasic : t.lastBus.HoldsWords (t.last.returnBase t.exc) c.basicFrame := by
    rw [t.base]
    exact (Bus.HoldsWords.append.mp (t.kept c.frame rfl hframe)).1
  rw [issue_of_passes isa t.passes, Prog.run_bind, t.returns, Prog.run_bind,
    Option.bind_assoc] at hrun
  obtain ⟨r, hreturn, hrest⟩ := Option.bind_eq_some_iff.mp hrun
  obtain ⟨hpc, hit⟩ := returned_of_holds rfl hbasic hreturn
  have hstacked : r.1.itstate = c.itstate := hit.trans c.itstate_buildXpsr
  have hpc' : r.1.pc = c.pc &&& ~~~1 := hpc
  cases hrest
  rw [t.notIt, Bool.not_false, Bool.and_true]
  cases t.handler.inIt with
  | true =>
      have hadvance : r.1.itAdvance.pc = r.1.pc ∧
          r.1.itAdvance.itstate = c.itAdvance.itstate := by
        rw [itstate_itAdvance, itstate_itAdvance, hstacked, itAdvance]
        split <;> exact ⟨rfl, rfl⟩
      exact ⟨hadvance.1.trans hpc', hadvance.2⟩
  | false => exact ⟨hpc', hstacked⟩

end Core

/-- An SVC in an IT block resumes after its handler at the next instruction under the next
condition exactly when the return is itself in an IT block; and a return in an IT block restores
the stacked ITSTATE exactly when that is empty. -/
theorem itstate_across_exceptions {δ : Type} [Mmio δ] {isa : Isa} {verifier : Verifier}
    {b b₁ b₂ : Bus δ} {f : Core} :
    (∀ (c e : Core) (raw len : Word) (inst : Instruction), inst.opcode = .svc → c.inIt = true →
      c.passes false = true →
      b.ServedWords (c.begun inst len).frameBase (c.begun inst len).frame.length →
      (c.issue isa.bodies ⟨raw, len, some inst⟩).run (Bus.handle verifier) b = some (e, b₁) →
      ∀ t : HandlerReturn isa verifier (c.begun inst len) b₁,
        (t.handler.issue isa.bodies t.insn).run (Bus.handle verifier) t.bus = some (f, b₂) →
          ((f.pc = (c.pc + len) &&& ~~~1 ∧ f.itstate = c.itAdvance.itstate) ↔
            t.handler.inIt = true)) ∧
    (∀ (c e : Core) (vecnum : Word), b.ServedWords c.frameBase c.frame.length →
      (c.exceptionEntry vecnum).run (Bus.handle verifier) b = some (e, b₁) →
      ∀ t : HandlerReturn isa verifier c b₁, t.handler.inIt = true →
        (t.handler.issue isa.bodies t.insn).run (Bus.handle verifier) t.bus = some (f, b₂) →
          (f.itstate = c.itstate ↔ c.itstate = 0)) := by
  constructor
  · intro c e raw len inst hop hin hpass hram hstep t hrun
    have hnotIt : Decoded.isIt ⟨raw, len, some inst⟩ = false := by
      show (inst.opcode == .it) = false
      rw [hop]
      rfl
    -- the step is the entry to exception 11, from past the SVC
    rw [Core.issue_of_passes isa (hnotIt ▸ hpass), Core.bodyOf_svc isa hop, Prog.run_bind,
      Prog.run_bind, Option.bind_assoc] at hstep
    obtain ⟨⟨e', b'⟩, hentry, hrest⟩ := Option.bind_eq_some_iff.mp hstep
    obtain rfl : b' = b₁ := congrArg Prod.snd (Option.some.inj hrest)
    obtain ⟨-, bm, -, hholds, hdev⟩ := Core.run_exceptionEntry verifier hram hentry
    obtain ⟨hpc, hit⟩ := Core.resumed_itstate t (hholds.only hdev) hrun
    have hnext : (c.begun inst len).itAdvance.itstate = c.itAdvance.itstate := by
      rw [Core.itstate_itAdvance, Core.itstate_itAdvance]
      rfl
    rw [hit, hnext]
    cases hret : t.handler.inIt with
    | true => exact iff_of_true ⟨hpc, if_pos rfl⟩ rfl
    | false =>
        -- the stacked state is the one of the SVC itself
        refine iff_of_false (fun h => ?_) Bool.false_ne_true
        have hsame : c.itstate = c.itAdvance.itstate := h.2
        rw [Core.itstate_itAdvance] at hsame
        exact Core.itstate_ne_zero hin ((Core.itNext_eq_iff c.itstate).mp hsame.symm)
  · intro c e vecnum hram hentry t hin hrun
    obtain ⟨-, bm, -, hholds, hdev⟩ := Core.run_exceptionEntry verifier hram hentry
    have hit := (Core.resumed_itstate t (hholds.only hdev) hrun).2
    rw [hit, if_pos hin, Core.itstate_itAdvance]
    exact Core.itNext_eq_iff c.itstate

namespace Core

/-- SVC, and BX LR. -/
def svcInsn : Instruction := ⟨.svc, .al, false, .nothing, .nothing, .nothing, .nothing⟩
def bxLr : Instruction := ⟨.bx, .al, false, .reg lr, .nothing, .nothing, .nothing⟩

/-- Code on the main stack, and a handler, in an IT block of condition EQ with Z set. -/
def inBlock (c : Core) (i : Byte) : Core := { c with itstate := i, z := true }

/-- The ITSTATE with which an SVC at ITSTATE `i` resumes, after a handler that is a BX LR at
ITSTATE `j`. -/
def svcAndBack (i j : Byte) : Option Byte :=
  (((onMain.inBlock i).issue nopIsa.bodies ⟨0xDF00, 2, some svcInsn⟩).run
    (Bus.handle noVerifier) stackBus).bind fun x =>
      (((x.1.inBlock j).issue nopIsa.bodies ⟨0x4770, 2, some bxLr⟩).run
        (Bus.handle noVerifier) x.2).map fun y => y.1.itstate

/-- The same for an exception that interrupts the code. -/
def irqAndBack (i j : Byte) : Option Byte :=
  (((onMain.inBlock i).exceptionEntry 16).run (Bus.handle noVerifier) stackBus).bind fun x =>
    (((x.1.inBlock j).issue nopIsa.bodies ⟨0x4770, 2, some bxLr⟩).run
      (Bus.handle noVerifier) x.2).map fun y => y.1.itstate

theorem readReg_lr {c : Core} (i : Byte) (h : c.r lr = 0xFFFFFFF9) :
    ((c.inBlock i).begun bxLr 2).readReg lr = 0xFFFFFFF9 := h

theorem inIt_inBlock (c : Core) : (c.inBlock 0x08).inIt = true :=
  show ((0x08 : Byte) &&& 0xF != 0) = true by decide

theorem passes_inBlock (c : Core) : (c.inBlock 0x08).passes false = true := by
  have hcond : condFromBits (((0x08 : Byte) >>> 4) &&& 0xF) = .eq := by decide
  rw [passes, inIt_inBlock, if_pos (show (true && !false) = true from rfl)]
  show (c.inBlock 0x08).condHolds (condFromBits (((0x08 : Byte) >>> 4) &&& 0xF)) = true
  rw [hcond]
  rfl

/-- BX LR at ITSTATE 0x08 returns through the frame at 0x200007E0. -/
def backFrom {c : Core} {b₁ : Bus Unit} (x : Core × Bus Unit)
    (hx : (x.1.r lr, x.1.msp) = ((0xFFFFFFF9 : Word), (0x200007E0 : Word)))
    (hframe : c.frameBase = 0x200007E0)
    (hkept : FrameKept b₁ x.2 c.frameBase c.frame.length) :
    HandlerReturn nopIsa noVerifier c b₁ :=
  HandlerReturn.bx (x.1.inBlock 0x08) 0x4770 2 (show bxLr.opcode = .bx from rfl)
    (show bxLr.op0 = .reg lr from rfl)
    (by rw [readReg_lr 0x08 (congrArg Prod.fst hx)]; decide) (passes_inBlock x.1)
    (by rw [readReg_lr 0x08 (congrArg Prod.fst hx), hframe]; exact congrArg Prod.snd hx) hkept

/-- An SVC at ITSTATE 0x0C whose handler returns by a BX LR in an IT block, and an IRQ taken
there. -/
theorem itstate_across_exceptions_bx :
    (∃ x y : Core × Bus Unit,
      ((onMain.inBlock 0x0C).issue nopIsa.bodies ⟨0xDF00, 2, some svcInsn⟩).run
        (Bus.handle noVerifier) stackBus = some x ∧
      ((x.1.inBlock 0x08).issue nopIsa.bodies ⟨0x4770, 2, some bxLr⟩).run
        (Bus.handle noVerifier) x.2 = some y ∧
      y.1.itstate = (onMain.inBlock 0x0C).itAdvance.itstate) ∧
    ∃ x y : Core × Bus Unit,
      ((onMain.inBlock 0x0C).exceptionEntry 16).run (Bus.handle noVerifier) stackBus = some x ∧
      ((x.1.inBlock 0x08).issue nopIsa.bodies ⟨0x4770, 2, some bxLr⟩).run
        (Bus.handle noVerifier) x.2 = some y ∧ y.1.itstate ≠ 0x0C := by
  have hram : stackBus.ServedWords 0x200007E0 8 := stackBus_served (by decide) (by decide)
  constructor
  · have hsvc : (((onMain.inBlock 0x0C).issue nopIsa.bodies ⟨0xDF00, 2, some svcInsn⟩).run
        (Bus.handle noVerifier) stackBus).map (fun x => (x.1.r lr, x.1.msp)) =
        some (0xFFFFFFF9, 0x200007E0) := by decide +kernel
    have hback : svcAndBack 0x0C 0x08 = some 0x18 := by decide +kernel
    obtain ⟨x, hx, heq⟩ := Option.map_eq_some_iff.mp hsvc
    rw [svcAndBack, hx, Option.bind_some] at hback
    obtain ⟨y, hy, -⟩ := Option.map_eq_some_iff.mp hback
    have h := (itstate_across_exceptions (b := stackBus)).1 (onMain.inBlock 0x0C) x.1 0xDF00 2
      svcInsn rfl rfl rfl hram hx (backFrom x heq rfl fun _ _ hws => hws) hy
    exact ⟨x, y, hx, hy, (h.mpr (inIt_inBlock x.1)).2⟩
  · have hirq : (((onMain.inBlock 0x0C).exceptionEntry 16).run (Bus.handle noVerifier)
        stackBus).map (fun x => (x.1.r lr, x.1.msp)) =
        some (0xFFFFFFF9, 0x200007E0) := by decide +kernel
    have hback : irqAndBack 0x0C 0x08 = some 0x18 := by decide +kernel
    obtain ⟨x, hx, heq⟩ := Option.map_eq_some_iff.mp hirq
    rw [irqAndBack, hx, Option.bind_some] at hback
    obtain ⟨y, hy, -⟩ := Option.map_eq_some_iff.mp hback
    have h := (itstate_across_exceptions (b := stackBus)).2 (onMain.inBlock 0x0C) x.1 16 hram hx
      (backFrom x heq rfl fun _ _ hws => hws) (inIt_inBlock x.1) hy
    exact ⟨x, y, hx, hy, fun hsame => absurd (h.mp hsame) (by decide)⟩

/-- An SVC at ITSTATE 0x0C resumes at 0x0C after an unconditional return, and not at 0x18; an
interrupted 0x0C resumes at 0x18 after a conditional one. -/
theorem itstate_not_restored :
    (onMain.inBlock 0x0C).itAdvance.itstate = 0x18 ∧ svcAndBack 0x0C 0 = some 0x0C ∧
      irqAndBack 0x0C 0x08 = some 0x18 := by
  decide +kernel

end Core

end SpEmu
