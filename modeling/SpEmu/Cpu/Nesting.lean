import SpEmu.Lib.Runs
import SpEmu.Cpu.Transparency

/-!
# Nested exceptions

`Nest` is a run of exceptions within exceptions: entries, returns, and what the code at each
level does in between, which need only leave the open frames and the process stack pointer
alone, and give r13 back balanced at its return.

A return in Handler mode reads its frame from the bank of MSP, and r13 is the live stack
pointer: `unstacksFrom_live_iff` and `banked_live_iff` say that the two agree exactly when the
bank is up to date. Along every run whose returns find it so, `nested_returns` gives each level
its own frame back.
-/

set_option autoImplicit false

namespace SpEmu

open ByteMem Mem

namespace Core

variable {c h : Core}

/-- The frame of a return by `exc` is read from `a`. -/
def UnstacksFrom (c : Core) (exc a : Word) : Prop :=
  ∃ k, c.exceptionReturn exc = (BusM.readWords a 8).bind k

theorem unstacksFrom_iff {exc a : Word} : c.UnstacksFrom exc a ↔ c.returnBase exc = a := by
  constructor
  · rintro ⟨k, hk⟩
    rw [exceptionReturn_eq] at hk
    have hfirst : some (BusCall.read .word (c.returnBase exc)) = some (.read .word a) :=
      congrArg Prog.first hk
    injection hfirst with hcall
    injection hcall
  · rintro rfl
    exact ⟨_, exceptionReturn_eq c exc⟩

theorem Sane.handler (hc : c.Sane) (hmode : c.mode = .handler) : c.spIsPsp = false := by
  rw [hc.spsel, hmode]
  rfl

section Handler

variable {δ : Type} [Mmio δ] (verifier : Verifier) {exc : Word} (hsel : c.spIsPsp = false)
include hsel

/-- By an EXC_RETURN for the main stack, the frame is read from the live MSP exactly when the
bank is up to date. -/
theorem unstacksFrom_live_iff (hpsp : returnPsp exc = false) :
    c.UnstacksFrom exc c.currentMsp ↔ c.msp = c.r sp := by
  rw [unstacksFrom_iff, returnBase, hpsp, currentMsp, hsel]
  rfl

/-- By an EXC_RETURN for the process stack, the live MSP is what stays banked exactly when the
bank is up to date. -/
theorem banked_live_iff {b : Bus δ} {r : Core × Bus δ} (hpsp : returnPsp exc = true)
    (hrun : (c.exceptionReturn exc).run (Bus.handle verifier) b = some r) :
    r.1.msp = c.currentMsp ↔ c.msp = c.r sp := by
  obtain ⟨⟨dumps, ws, fp, fpscr, hr⟩, -⟩ := run_exceptionReturn_cases verifier hrun
  rw [hr, restored_msp, hpsp, currentMsp, hsel]
  rfl

end Handler

end Core

/-- A core at some depth of exceptions, and the contexts that they interrupted, the innermost
one first. -/
structure Nest (δ : Type) where
  core : Core
  bus : Bus δ
  levels : List Core

namespace Nest

variable {δ : Type}

inductive Event (δ : Type) where
  | enter (vecnum : Word)
  /-- The code of the current level runs, up to this core and this bus. -/
  | act (c : Core) (b : Bus δ)
  /-- The return with the EXC_RETURN that the entry of this level put in LR. -/
  | ret

/-- The mode and the stack of the code at a depth of `cs`. -/
def Level (c : Core) : List Core → Prop
  | [] => c.mode = .thread
  | _ :: _ => c.mode = .handler ∧ c.spIsPsp = false

/-- The frame of `c` keeps off the frames of `cs`. -/
def Apart (c : Core) (cs : List Core) : Prop :=
  ∀ d ∈ cs, ∀ x, Bus.WordSet d.frameBase d.frame.length x →
    ¬ Bus.WordSet c.frameBase c.frame.length x

/-- What is asked of the code at every level: a frame is stacked in RAM and off the open ones;
the open frames and the process stack pointer are left alone; r13 is balanced at a return. -/
def Disciplined (s : Nest δ) : Event δ → Prop
  | .enter _ =>
      s.bus.ServedWords s.core.frameBase s.core.frame.length ∧ Apart s.core s.levels
  | .act c b =>
      Level c s.levels ∧ (s.levels ≠ [] → c.psp = s.core.psp) ∧
        ∀ d ∈ s.levels, Core.FrameKept s.bus b d.frameBase d.frame.length
  | .ret => ∀ c cs, s.levels = c :: cs → s.core.r Core.sp = c.spAfter

/-- At a return the bank of MSP is up to date, and the crash detector can read what it dumps. -/
def Banked (s : Nest δ) : Event δ → Prop
  | .ret => ∀ c cs, s.levels = c :: cs →
      s.core.msp = s.core.r Core.sp ∧ s.core.DumpReads s.bus c.frameBase c.pc
  | _ => True

variable [Mmio δ] (verifier : Verifier)

def step (s : Nest δ) : Event δ → Option (Nest δ)
  | .enter vecnum =>
      ((s.core.exceptionEntry vecnum).run (Bus.handle verifier) s.bus).map fun r =>
        ⟨r.1, r.2, s.core :: s.levels⟩
  | .act c b => some ⟨c, b, s.levels⟩
  | .ret =>
      match s.levels with
      | [] => some s
      | c :: cs =>
          ((s.core.exceptionReturn c.excReturn).run (Bus.handle verifier) s.bus).map fun r =>
            ⟨r.1, r.2, cs⟩

theorem step_enter {s s' : Nest δ} {vecnum : Word}
    (h : step verifier s (.enter vecnum) = some s') :
    ∃ r, (s.core.exceptionEntry vecnum).run (Bus.handle verifier) s.bus = some r ∧
      s' = ⟨r.1, r.2, s.core :: s.levels⟩ := by
  obtain ⟨r, hrun, rfl⟩ := Option.map_eq_some_iff.mp h
  exact ⟨r, hrun, rfl⟩

theorem step_ret {s s' : Nest δ} {c : Core} {cs : List Core} (hl : s.levels = c :: cs)
    (h : step verifier s .ret = some s') :
    ∃ r, (s.core.exceptionReturn c.excReturn).run (Bus.handle verifier) s.bus = some r ∧
      s' = ⟨r.1, r.2, cs⟩ := by
  simp only [step, hl] at h
  obtain ⟨r, hrun, rfl⟩ := Option.map_eq_some_iff.mp h
  exact ⟨r, hrun, rfl⟩

/-- The context `c` is back: the registers of its frame, its mode and its stack pointers. -/
structure GivenBack (c f : Core) : Prop where
  frame : Core.Unstacked c f
  mode : f.mode = c.mode
  sp : f.r Core.sp = c.r Core.sp
  msp : f.currentMsp = c.currentMsp
  psp : f.currentPsp = c.currentPsp

/-- Every return comes back, to the context that its own entry interrupted. -/
def Restores (s : Nest δ) : Event δ → Prop
  | .ret => ∀ c cs, s.levels = c :: cs →
      ∃ s', step verifier s .ret = some s' ∧ GivenBack c s'.core
  | _ => True

/-! ## The open frames -/

/-- The process stack pointer is handed down to the level that it belongs to. -/
def Chain (psp : Word) : List Core → Prop
  | [] => True
  | c :: cs => psp = c.pspAfter ∧ Level c cs ∧ Chain c.psp cs

/-- Every open frame is where its entry stacked it. -/
structure Linked (s : Nest δ) : Prop where
  held : ∀ d ∈ s.levels, s.bus.HoldsWords d.frameBase d.frame
  level : Level s.core s.levels
  chain : Chain s.core.psp s.levels

omit [Mmio δ] in
theorem Level.selected {c : Core} {cs : List Core} (h : Level c cs) (hmode : c.mode = .handler) :
    c.spIsPsp = false := by
  cases cs with
  | nil =>
      rw [Level, hmode] at h
      cases h
  | cons d ds => exact h.2

variable {verifier} {s s' : Nest δ}

theorem Linked.enter {vecnum : Word} (hs : s.Linked) (hd : s.Disciplined (.enter vecnum))
    (h : step verifier s (.enter vecnum) = some s') : s'.Linked := by
  obtain ⟨⟨e, b⟩, hrun, rfl⟩ := step_enter verifier h
  obtain ⟨⟨pc, rfl⟩, bm, hconf, hholds, hdev⟩ := Core.run_exceptionEntry verifier hd.1 hrun
  refine ⟨?_, ⟨rfl, rfl⟩, ⟨rfl, hs.level, hs.chain⟩⟩
  intro d hmem
  rcases List.mem_cons.mp hmem with rfl | hmem
  · -- the new frame was just stored
    exact hholds.only hdev
  · -- an older frame is disjoint from it
    exact ((hs.held d hmem).confined hconf fun x hx => hd.2 d hmem x hx).only hdev

omit [Mmio δ] in
theorem Linked.act {c : Core} {b : Bus δ} (hs : s.Linked) (hd : s.Disciplined (.act c b)) :
    Linked ⟨c, b, s.levels⟩ := by
  obtain ⟨hlevel, hpsp, hkept⟩ := hd
  refine ⟨fun d hmem => hkept d hmem d.frame rfl (hs.held d hmem), hlevel, ?_⟩
  have hchain := hs.chain
  cases hl : s.levels with
  | nil => trivial
  | cons d ds =>
      have hsame : c.psp = s.core.psp := hpsp (by rw [hl]; exact List.cons_ne_nil d ds)
      rw [hl] at hchain
      show Chain c.psp (d :: ds)
      rw [hsame]
      exact hchain

variable (verifier) in
/-- A return from a level whose frame is held gives its context back. -/
theorem Linked.ret {c : Core} {cs : List Core} (hs : s.Linked) (hl : s.levels = c :: cs)
    (hd : s.Disciplined .ret) (hb : s.Banked .ret) :
    ∃ s', step verifier s .ret = some s' ∧ GivenBack c s'.core ∧ s'.Linked := by
  have hheld := hs.held
  have hchain := hs.chain
  rw [hl] at hheld hchain
  obtain ⟨hpsp, hlevel, hrest⟩ := hchain
  obtain ⟨hmsp, hdump⟩ := hb c cs hl
  have hmode : c.mode = .handler → c.spIsPsp = false := hlevel.selected
  -- with the bank up to date the return reads the frame that was stacked
  obtain ⟨hiff, hcore⟩ := Core.run_return_of_banked verifier hmode
    (hheld c (List.mem_cons_self ..)) (hd c cs hl) hpsp hmsp
  obtain ⟨⟨f, b⟩, hrun⟩ := Option.isSome_iff_exists.mp (hiff.mpr hdump)
  obtain ⟨dumps, hf⟩ := hcore _ hrun
  have hdev := (Core.run_exceptionReturn_cases verifier hrun).2
  have hf : f = Core.back c (s.core.withDumps dumps) := hf
  obtain ⟨hmspBack, hpspBack, hspBack⟩ :=
    Core.back_stacks (h := s.core.withDumps dumps) hmode (hd c cs hl) hpsp hmsp
  have hsel : (Core.back c (s.core.withDumps dumps)).spIsPsp = c.spIsPsp :=
    Core.back_spIsPsp hmode
  have hmodeBack : (Core.back c (s.core.withDumps dumps)).mode = c.mode := by
    rw [Core.back, Core.restored_mode, Core.toThread_excReturn]
    cases c.mode with
    | thread => rfl
    | handler => rfl
  rw [← hf] at hmspBack hpspBack hspBack hsel hmodeBack
  refine ⟨⟨f, b, cs⟩, ?_, ⟨?_, hmodeBack, hspBack, ?_, ?_⟩, ⟨?_, ?_, ?_⟩⟩
  · simp only [step, hl, hrun, Option.map_some]
  · rw [hf]
    exact Core.unstacked_restored c _ _
  · show f.currentMsp = c.currentMsp
    rw [Core.currentMsp, hsel, hmspBack, hspBack, Core.currentMsp]
    cases c.spIsPsp <;> rfl
  · show f.currentPsp = c.currentPsp
    rw [Core.currentPsp, hsel, hpspBack, hspBack, Core.currentPsp]
    cases c.spIsPsp <;> rfl
  · -- the return only reads, so the older frames stay
    intro d hmem
    exact (hheld d (List.mem_cons_of_mem c hmem)).only hdev
  · -- The level below the return is the one that was interrupted.
    cases cs with
    | nil => exact hmodeBack.trans hlevel
    | cons d ds => exact ⟨hmodeBack.trans hlevel.1, hsel.trans hlevel.2⟩
  · cases cs with
    | nil => trivial
    | cons d ds =>
        show Chain f.psp (d :: ds)
        rw [hpspBack, Core.currentPsp, hlevel.2]
        exact hrest

/-- One step of disciplined code with its banks up to date. -/
theorem Linked.step {e : Event δ} (hs : s.Linked) (hP : s.Disciplined e ∧ s.Banked e)
    (h : Nest.step verifier s e = some s') : s'.Linked := by
  cases e with
  | enter vecnum => exact hs.enter hP.1 h
  | act c b =>
      cases h
      exact hs.act hP.1
  | ret =>
      cases hl : s.levels with
      -- a return without an open level changes nothing
      | nil =>
          simp only [Nest.step, hl] at h
          cases h
          exact hs
      | cons c cs =>
          obtain ⟨s₁, hstep, -, hlinked⟩ := hs.ret verifier hl hP.1 hP.2
          obtain rfl : s₁ = s' := Option.some.inj (hstep.symm.trans h)
          exact hlinked

theorem Linked.restores {e : Event δ} (hs : s.Linked) (hP : s.Disciplined e ∧ s.Banked e) :
    Restores verifier s e := by
  cases e with
  | enter vecnum => trivial
  | act c b => trivial
  | ret =>
      intro c cs hl
      obtain ⟨s', hstep, hback, -⟩ := hs.ret verifier hl hP.1 hP.2
      exact ⟨s', hstep, hback⟩

variable (verifier)

/-- The live stack pointer is the one that a return in Handler mode goes by exactly when the
bank of MSP is up to date; and along every run of nested exceptions from Thread mode whose
returns find it so, each return gives back the context that its own entry interrupted. -/
theorem nested_returns :
    (∀ (c : Core) (exc : Word), c.Sane → c.mode = .handler →
      (Core.returnPsp exc = false → (c.UnstacksFrom exc c.currentMsp ↔ c.msp = c.r Core.sp)) ∧
      (Core.returnPsp exc = true → ∀ (b : Bus δ) r,
        (c.exceptionReturn exc).run (Bus.handle verifier) b = some r →
        (r.1.msp = c.currentMsp ↔ c.msp = c.r Core.sp))) ∧
    ∀ (es : List (Event δ)) (s : Nest δ), s.core.mode = .thread → s.levels = [] →
      Runs.Along (Nest.step verifier) (fun s e => s.Disciplined e ∧ s.Banked e) es s →
      Runs.Along (Nest.step verifier) (Restores verifier) es s := by
  constructor
  · intro c exc hc hmode
    have hsel := hc.handler hmode
    exact ⟨Core.unstacksFrom_live_iff hsel, fun hpsp b r => Core.banked_live_iff verifier hsel hpsp⟩
  · intro es s hthread hnil hrun
    -- from Thread mode no frame is open
    have hs : s.Linked := by
      refine ⟨?_, ?_, ?_⟩
      · rw [hnil]
        exact fun d hmem => absurd hmem List.not_mem_nil
      · rw [hnil]
        exact hthread
      · rw [hnil]
        trivial
    exact hrun.imp (fun _ _ _ => Linked.step) (fun _ _ => Linked.restores) hs

/-! ## An exception within a handler -/

section TwoDeep

open SpEmu.Core (noVerifier stackBus sp)

/-- The main program, before any exception. -/
def onMain : Nest Unit := ⟨Core.onMain, stackBus, []⟩

/-- The same state with r13 moved by `k`. -/
def moved (k : Word) (s : Nest Unit) : Nest Unit :=
  ⟨s.core.setR sp (s.core.r sp + k), s.bus, s.levels⟩

/-- An entry, one more after the handler has moved r13 by `k`, and its return. -/
def twoDeep (k : Word) : Option (Nest Unit × Nest Unit × Nest Unit) :=
  (step noVerifier onMain (.enter 11)).bind fun s₁ =>
    (step noVerifier (moved k s₁) (.enter 11)).bind fun s₂ =>
      (step noVerifier s₂ .ret).map fun s₃ => (s₁, s₂, s₃)

/-- The handler takes its move of r13 back before it returns. -/
def twoDeepEvents (k : Word) (s₁ s₃ : Nest Unit) : List (Event Unit) :=
  [.enter 11, .act (moved k s₁).core s₁.bus, .enter 11, .ret,
    .act (moved (-k) s₃).core s₃.bus, .ret]

/-- What the three states look like. -/
abbrev TwoDeepCores (k : Word) (c₁ c₂ c₃ : Core) : Prop :=
  (c₁.mode = .handler ∧ c₁.spIsPsp = false ∧ c₁.fpca = false ∧ c₁.r sp = 0x200007E0 ∧
    c₁.psp = 0) ∧
  (c₂.r sp = c₁.r sp + k - 0x20 ∧ c₂.msp = c₂.r sp ∧ c₂.isCode c₁.pc = true) ∧
  c₃.mode = .handler ∧ c₃.spIsPsp = false ∧ c₃.psp = 0 ∧ c₃.r sp = c₁.r sp + k ∧
    c₃.msp = c₃.r sp ∧ c₃.isCode 0x100 = true

theorem twoDeep_exists {k : Word} (hk : k = 0 ∨ k = -8) :
    ∃ s₁ s₂ s₃, twoDeep k = some (s₁, s₂, s₃) ∧ TwoDeepCores k s₁.core s₂.core s₃.core := by
  have heval : ((twoDeep k).any fun x => decide (TwoDeepCores k x.1.core x.2.1.core x.2.2.core)) =
      true := by
    rcases hk with rfl | rfl
    · decide +kernel
    · decide +kernel
  obtain ⟨⟨s₁, s₂, s₃⟩, hrun, hcores⟩ := (Option.any_eq_true _ _).mp heval
  exact ⟨s₁, s₂, s₃, hrun, of_decide_eq_true hcores⟩

/-- The frame of the nested exception lies in RAM, below the frame of the outer one. -/
theorem enter_moved {k : Word} (hk : k = 0 ∨ k = -8) {s₁ : Nest Unit}
    (h : step noVerifier onMain (.enter 11) = some s₁) (hfpca : s₁.core.fpca = false)
    (hsp : s₁.core.r sp = 0x200007E0) : (moved k s₁).Disciplined (.enter 11) := by
  have hwords : (moved k s₁).core.frameWords = 8 := by
    rw [Core.frameWords, show (moved k s₁).core.fpca = s₁.core.fpca from rfl, hfpca]
    rfl
  have hlen : (moved k s₁).core.frame.length = 8 := by
    rw [Core.length_frame, hwords]
    rfl
  have hbase : (moved k s₁).core.frameBase = 0x200007C0 + k := by
    rw [Core.frameBase, hwords, moved, Core.setR_same, hsp]
    rcases hk with rfl | rfl
    · rfl
    · rfl
  -- either place leaves eight words of room above the frame
  have hrange : 0x200007B8 ≤ (0x200007C0 + k).toNat ∧ (0x200007C0 + k).toNat ≤ 0x200007C0 := by
    rcases hk with rfl | rfl
    · decide
    · decide
  -- the outer entry stored its own frame and nothing else
  obtain ⟨⟨e, b⟩, hrun, rfl⟩ := step_enter noVerifier h
  have hram : stackBus.ServedWords Core.onMain.frameBase Core.onMain.frame.length :=
    Core.stackBus_served (by decide) (by decide)
  obtain ⟨-, bm, hconf, -, hdev⟩ := Core.run_exceptionEntry noVerifier hram hrun
  constructor
  · rw [hbase, hlen]
    exact ((Core.stackBus_served (by omega) (by omega)).confined hconf).only hdev
  · rw [Apart, hbase, hlen]
    rintro d hd x ⟨i, hi, hx, -⟩ ⟨j, hj, -, hx'⟩
    obtain rfl : d = Core.onMain := List.mem_singleton.mp hd
    rw [BitVec.toNat_add, BitVec.toNat_ofNat] at hx hx'
    have hframe : Core.onMain.frameBase.toNat = 0x200007E0 := by decide
    have hlong : Core.onMain.frame.length = 8 := by decide
    omega

theorem twoDeep_steps {k : Word} {s₁ s₂ s₃ : Nest Unit} (hrun : twoDeep k = some (s₁, s₂, s₃)) :
    (step noVerifier onMain (.enter 11) = some s₁ ∧ s₁.levels = [Core.onMain]) ∧
    (step noVerifier (moved k s₁) (.enter 11) = some s₂ ∧
      s₂.levels = [(moved k s₁).core, Core.onMain]) ∧
    step noVerifier s₂ .ret = some s₃ ∧ s₃.levels = [Core.onMain] := by
  rw [twoDeep, Option.bind_eq_some_iff] at hrun
  obtain ⟨t₁, hstep₁, hrun⟩ := hrun
  rw [Option.bind_eq_some_iff] at hrun
  obtain ⟨t₂, hstep₂, hrun⟩ := hrun
  obtain ⟨t₃, hstep₃, heq⟩ := Option.map_eq_some_iff.mp hrun
  cases heq
  have hlevels₁ : s₁.levels = [Core.onMain] := by
    obtain ⟨r, -, rfl⟩ := step_enter noVerifier hstep₁
    rfl
  have hlevels₂ : s₂.levels = [(moved k s₁).core, Core.onMain] := by
    obtain ⟨r, -, rfl⟩ := step_enter noVerifier hstep₂
    show (moved k s₁).core :: s₁.levels = _
    rw [hlevels₁]
  have hlevels₃ : s₃.levels = [Core.onMain] := by
    obtain ⟨r, -, rfl⟩ := step_ret noVerifier hlevels₂ hstep₃
    rfl
  exact ⟨⟨hstep₁, hlevels₁⟩, ⟨hstep₂, hlevels₂⟩, hstep₃, hlevels₃⟩

/-- The handler balances r13, and without a move the banks stay up to date. -/
theorem along_twoDeep {k : Word} (hk : k = 0 ∨ k = -8) {t₁ t₂ t₃ : Nest Unit}
    (hrun : twoDeep k = some (t₁, t₂, t₃)) (hc : TwoDeepCores k t₁.core t₂.core t₃.core) :
    Runs.Along (step noVerifier) (fun s e => s.Disciplined e ∧ (k = 0 → s.Banked e))
      (twoDeepEvents k t₁ t₃) onMain := by
  obtain ⟨⟨hmode₁, hsel₁, hfpca₁, hsp₁, hpsp₁⟩, ⟨hsp₂, hmsp₂, hcode₂⟩, hmode₃, hsel₃, hpsp₃, hsp₃,
    hmsp₃, hcode₃⟩ := hc
  obtain ⟨⟨hstep₁, hlevels₁⟩, ⟨hstep₂, hlevels₂⟩, hstep₃, hlevels₃⟩ := twoDeep_steps hrun
  -- moving r13 in a handler touches no frame and no bank of PSP
  have hmoved : ∀ {j : Word} {s : Nest Unit}, s.levels = [Core.onMain] → s.core.mode = .handler →
      s.core.spIsPsp = false → s.Disciplined (.act (moved j s).core s.bus) := by
    intro j s hl hmode hsel
    rw [Disciplined, hl]
    exact ⟨⟨hmode, hsel⟩, fun _ => rfl, fun _ _ _ _ hws => hws⟩
  have hfirst : onMain.Disciplined (.enter 11) :=
    ⟨Core.stackBus_served (by decide) (by decide), fun d hd => absurd hd List.not_mem_nil⟩
  -- entry, move, nested entry, nested return, move back, outer return
  refine ⟨⟨hfirst, fun _ => trivial⟩, fun u₁ hu₁ => ?_⟩
  obtain rfl := Option.some.inj (hstep₁.symm.trans hu₁)
  refine ⟨⟨hmoved hlevels₁ hmode₁ hsel₁, fun _ => trivial⟩, fun u₂ hu₂ => ?_⟩
  obtain rfl := Option.some.inj hu₂
  refine ⟨⟨enter_moved hk hstep₁ hfpca₁ hsp₁, fun _ => trivial⟩, fun u₃ hu₃ => ?_⟩
  obtain rfl := Option.some.inj (hstep₂.symm.trans hu₃)
  refine ⟨⟨?_, ?_⟩, fun u₄ hu₄ => ?_⟩
  · -- The nested handler has not moved r13 at all.
    intro c cs hl
    rw [hlevels₂] at hl
    cases hl
    have hwords : (moved k t₁).core.frameWords = 8 := by
      rw [Core.frameWords, show (moved k t₁).core.fpca = t₁.core.fpca from rfl, hfpca₁]
      rfl
    rw [hsp₂, Core.spAfter, show (moved k t₁).core.spIsPsp = t₁.core.spIsPsp from rfl, hsel₁,
      Core.frameBase, hwords, moved, Core.setR_same]
    rfl
  · intro _ c cs hl
    rw [hlevels₂] at hl
    cases hl
    exact ⟨hmsp₂, Or.inl hcode₂⟩
  obtain rfl := Option.some.inj (hstep₃.symm.trans hu₄)
  refine ⟨⟨hmoved hlevels₃ hmode₃ hsel₃, fun _ => trivial⟩, fun u₅ hu₅ => ?_⟩
  obtain rfl := Option.some.inj hu₅
  refine ⟨⟨?_, ?_⟩, fun _ _ => trivial⟩
  · intro c cs hl
    obtain ⟨rfl, rfl⟩ : Core.onMain = c ∧ [] = cs := List.cons.inj (hlevels₃.symm.trans hl)
    show (moved (-k) t₃).core.r sp = _
    rw [moved, Core.setR_same, hsp₃, hsp₁, BitVec.add_assoc, ← BitVec.sub_eq_add_neg,
      BitVec.sub_self]
    rfl
  · rintro rfl c cs hl
    obtain ⟨rfl, rfl⟩ : Core.onMain = c ∧ [] = cs := List.cons.inj (hlevels₃.symm.trans hl)
    refine ⟨?_, Or.inl hcode₃⟩
    show t₃.core.msp = (moved (-0) t₃).core.r sp
    rw [moved, Core.setR_same, hmsp₃]
    exact (BitVec.add_zero _).symm

theorem nested_returns_twoDeep :
    ∃ s₁ s₂ s₃, twoDeep 0 = some (s₁, s₂, s₃) ∧
      Runs.Along (step noVerifier) (Restores noVerifier) (twoDeepEvents 0 s₁ s₃) onMain := by
  obtain ⟨s₁, s₂, s₃, hrun, hc⟩ := twoDeep_exists (Or.inl rfl)
  refine ⟨s₁, s₂, s₃, hrun, ?_⟩
  refine (nested_returns noVerifier).2 _ onMain rfl rfl ?_
  exact (along_twoDeep (Or.inl rfl) hrun hc).mono fun s e h => ⟨h.1, h.2 rfl⟩

/-- The handler moves r13 down by 8 before the nested exception, and back up after it: the
outer return reads its frame 8 bytes below where it is. -/
theorem nested_return_misses_frame :
    ∃ (s : Nest Unit) (es : List (Event Unit)), s.core.mode = .thread ∧ s.levels = [] ∧
      Runs.Along (step noVerifier) Disciplined es s ∧
      ¬ Runs.Along (step noVerifier) (Restores noVerifier) es s := by
  obtain ⟨s₁, s₂, s₃, hrun, hc⟩ := twoDeep_exists (Or.inr rfl)
  obtain ⟨⟨hstep₁, hlevels₁⟩, ⟨hstep₂, hlevels₂⟩, hstep₃, hlevels₃⟩ := twoDeep_steps hrun
  have hdis := along_twoDeep (Or.inr rfl) hrun hc
  refine ⟨onMain, twoDeepEvents (-8) s₁ s₃, rfl, rfl, hdis.mono fun s e h => h.1, fun hall => ?_⟩
  have hlast := (((((hall.2 _ hstep₁).2 _ rfl).2 _ hstep₂).2 _ hstep₃).2 _ rfl).1
  obtain ⟨s', hstep, hback⟩ := hlast Core.onMain [] hlevels₃
  obtain ⟨r, hret, rfl⟩ := step_ret (s := ⟨(moved (- -8) s₃).core, s₃.bus, s₃.levels⟩) noVerifier
    hlevels₃ hstep
  obtain ⟨⟨dumps, ws, fp, fpscr, hr⟩, -⟩ := Core.run_exceptionReturn_cases noVerifier hret
  obtain ⟨⟨-, -, -, hsp₁, -⟩, -, -, -, -, hsp₃, hmsp₃, -⟩ := hc
  have hbank : s₃.core.msp = 0x200007D8 := by
    rw [hmsp₃, hsp₃, hsp₁]
    rfl
  -- MSP comes back as the end of the frame, which was read 8 bytes low.
  have hmsp : r.1.currentMsp = Core.onMain.currentMsp := hback.msp
  rw [hr, Core.restored_currentMsp, Core.restored_msp,
    show Core.returnPsp Core.onMain.excReturn = false by decide] at hmsp
  have hlow : s₃.core.msp + 0x20 = 0x20000800 := hmsp
  rw [hbank] at hlow
  exact absurd hlow (by decide)

end TwoDeep

end Nest

end SpEmu
