import SpEmu.Mem.RamView

/-!
# Nesting of transmit walks

A write to the transmit tail pointer starts a walk, whose writes can hit the tail pointer
again. Every word that a walk writes has lost its OWN bit, so after the first nested write
the tail-pointer register itself has the bit clear (`TailClear`); from there on a walk that
meets the register as a descriptor word finds nothing to hand back, and does not write it.
`write32N_eq`: a bound of two on the nesting is no bound at all.
-/

set_option autoImplicit false

namespace SpEmu

open ByteMem Mem

theorem and_not_ownBit (v : Word) : v &&& ~~~Dma.ownBit &&& Dma.ownBit = 0 := by
  rw [BitVec.and_assoc, show ~~~Dma.ownBit &&& Dma.ownBit = 0#32 by decide, BitVec.and_zero]
  rfl

namespace EthDma

variable (e : EthDma)

@[simp] theorem regs_setReg (off val k : Word) :
    (e.setReg off val).regs k = if k = off then val else e.regs k := by
  simp only [setReg, Function.update_apply]

/-- The management PHY keeps its registers outside the block's own offsets. -/
theorem phyKey_ne (page : Half) (reg : Byte) : dmactxdtpr ≠ phyKey page reg := by
  have hset : (phyKey page reg).getLsbD 16 = true := by
    have h : BitVec.getLsbD (0x10000 : Word) 16 = true := by decide
    rw [phyKey, BitVec.getLsbD_or, BitVec.getLsbD_or, h, Bool.true_or, Bool.true_or]
  intro h
  rw [← h] at hset
  exact absurd hset (by decide)

theorem mdio_tail (val : Word) : (e.mdio val).regs dmactxdtpr = e.regs dmactxdtpr := by
  have h₁ : dmactxdtpr ≠ macmdioar := by decide
  have h₂ : dmactxdtpr ≠ macmdiodr := by decide
  simp only [mdio, regs_setReg, if_neg h₁]
  split
  · rw [regs_setReg, if_neg h₂]
  · split
    · split
      · rfl
      · rw [regs_setReg, if_neg (phyKey_ne _ _)]
    · rfl

/-- A register write changes the tail pointer only to the value written. -/
theorem regWrite_tail (off val : Word) :
    (e.regWrite off val).1.regs dmactxdtpr = e.regs dmactxdtpr ∨
      (e.regWrite off val).1.regs dmactxdtpr = val := by
  have h : dmactxdtpr ≠ dmacsr := by decide
  simp only [regWrite]
  split
  · exact Or.inl (e.mdio_tail val)
  · split
    · left
      rw [regs_setReg, if_neg h]
    · rw [regs_setReg]
      split
      · exact Or.inr rfl
      · exact Or.inl rfl

theorem regWrite_of_tail {off val : Word} (h : alignWord off = dmactxdtpr) :
    e.regWrite off val = (e.setReg dmactxdtpr val, true) := by
  simp only [regWrite, h]
  rfl

theorem regWrite_of_not_tail {off val : Word} (h : alignWord off ≠ dmactxdtpr) :
    (e.regWrite off val).2 = false := by
  simp only [regWrite]
  split
  · rfl
  · split
    · rfl
    · exact beq_eq_false_iff_ne.mpr h

/-- No register write moves the receive position. -/
theorem regWrite_rxNext (off val : Word) : (e.regWrite off val).1.rxNext = e.rxNext := by
  simp only [regWrite]
  split
  · simp only [mdio]
    split
    · rfl
    · split
      · split
        · rfl
        · rfl
      · rfl
  · split
    · rfl
    · rfl

theorem complete_tail (bits : Word) : (e.complete bits).regs dmactxdtpr = e.regs dmactxdtpr := by
  have h₁ : dmactxdtpr ≠ dmacsr := by decide
  have h₂ : dmactxdtpr ≠ dmaisr := by decide
  simp only [complete, regs_setReg, if_neg h₁, if_neg h₂]

end EthDma

namespace Bus

variable {δ : Type}

/-- The tail-pointer register has the OWN bit of a descriptor word clear. -/
def TailClear (b : Bus δ) : Prop := b.eth.regs dmactxdtpr &&& Dma.ownBit = 0

/-- The state from which a write of `v` to the tail pointer starts the walk. -/
def withTail (b : Bus δ) (v : Word) : Bus δ := { b with eth := b.eth.setReg dmactxdtpr v }

/-- The address selects the transmit tail pointer. -/
def AtTail (b : Bus δ) (a : Word) : Prop :=
  within ethBase ethEnd (b.fold a) = true ∧ alignWord (b.fold a - ethBase) = dmactxdtpr

/-! ## The tail pointer as the bus serves it -/

theorem window_eq_none {α : Type} {o : Option α} {lo hi lo' hi' a : Word}
    (h : within lo hi a = true) (hd : hi ≤ lo' ∨ hi' ≤ lo) :
    (if within lo' hi' a then o else none) = none := by
  rw [within_of_disjoint h hd]
  rfl

/-- Nothing else takes an address of the Ethernet block. -/
theorem route_of_eth (b : Bus δ) {a : Word} (h : within ethBase ethEnd a = true) :
    b.flashWin a = none ∧ b.flashRegs a = none ∧ b.rotFlashWin a = none ∧
      b.rotFlashRegs a = none ∧ Romapi.romRead32 (alignWord a) = none ∧
      within nvicLo nvicHi a = false ∧ alignWord a ≠ scbIcsr ∧ alignWord a ≠ scbAircr := by
  have halign : within ethBase ethEnd (alignWord a) = true := by
    have hb : ethBase.toNat = 0x40028000 := by decide
    have he : ethEnd.toNat = 0x4002A000 := by decide
    rw [within_iff, BitVec.le_def, BitVec.lt_def] at h ⊢
    rw [toNat_alignWord]
    omega
  refine ⟨window_eq_none h (Or.inr (by decide)), window_eq_none h (Or.inl (by decide)),
    window_eq_none h (Or.inr (by decide)), window_eq_none h (Or.inl (by decide)), ?_,
    within_of_disjoint h (Or.inl (by decide)), ?_, ?_⟩
  · exact Romapi.romRead32_eq_none (within_of_disjoint halign (Or.inr (by decide)))
      (within_of_disjoint halign (Or.inr (by decide)))
  · intro heq
    rw [heq] at halign
    exact absurd halign (by decide)
  · intro heq
    rw [heq] at halign
    exact absurd halign (by decide)

variable [Mmio δ] {b b' : Bus δ} {a v : Word}

theorem read32_atTail (h : b.AtTail a) : b.read32 a = some (b.eth.regs dmactxdtpr, b) := by
  obtain ⟨hin, hoff⟩ := h
  obtain ⟨hflash, hregs, hrot, hrotRegs, hrom, hnvic, hicsr, -⟩ := b.route_of_eth hin
  have hread : b.eth.ethRead (b.fold a - ethBase) = b.eth.regs dmactxdtpr := by
    have h₁ : ¬ (dmactxdtpr = dmamr ∨ dmactxdtpr = macmdioar) := by decide
    simp only [EthDma.ethRead, EthDma.ethReg, hoff, if_neg h₁]
  simp only [read32, hflash, hregs, hrot, hrotRegs, readSystem, hrom, nvicReadWin, hnvic, hin,
    hread,
    if_neg hicsr, Bool.false_eq_true, if_false, if_true, ite_self, Option.bind_eq_bind,
    Option.bind_some]

theorem write32With_atTail (h : b.AtTail a) (walk : Bus δ → Option (Bus δ)) (v : Word) :
    b.write32With walk a v =
      if b.recording then some (b.withTail v) else walk (b.withTail v) := by
  obtain ⟨hin, hoff⟩ := h
  obtain ⟨hflash, hregs, hrot, hrotRegs, -, hnvic, hicsr, haircr⟩ := b.route_of_eth hin
  have hair : ¬ (alignWord (b.fold a) = scbAircr ∧ v &&& 0xFFFF0000 = aircrVectkey ∧
      v &&& ((1 : Word) <<< 2) ≠ 0) := fun hc => haircr hc.1
  simp only [write32With, hflash, hregs, hrot, hrotRegs, writeSystem, nvicWriteWin, hnvic, hin,
    if_neg hicsr, if_neg hair, ethWrite, withTail, EthDma.regWrite_of_tail b.eth hoff,
    Bool.false_eq_true, if_false,
    if_true, Option.bind_eq_bind, Option.bind_some, Bool.true_and]
  cases b.recording with
  | true => rfl
  | false => rfl

/-- A write to any other register of the block. -/
theorem write32With_eth (hin : within ethBase ethEnd (b.fold a) = true)
    (hoff : alignWord (b.fold a - ethBase) ≠ dmactxdtpr) (walk : Bus δ → Option (Bus δ))
    (v : Word) :
    b.write32With walk a v =
      some { b with eth := (b.eth.regWrite (b.fold a - ethBase) v).1 } := by
  obtain ⟨hflash, hregs, hrot, hrotRegs, -, hnvic, hicsr, haircr⟩ := b.route_of_eth hin
  have hair : ¬ (alignWord (b.fold a) = scbAircr ∧ v &&& 0xFFFF0000 = aircrVectkey ∧
      v &&& ((1 : Word) <<< 2) ≠ 0) := fun hc => haircr hc.1
  simp only [write32With, hflash, hregs, hrot, hrotRegs, writeSystem, nvicWriteWin, hnvic, hin,
    if_neg hicsr, if_neg hair, ethWrite, EthDma.regWrite_of_not_tail b.eth hoff,
    Bool.false_eq_true, if_false, if_true, Option.bind_eq_bind, Option.bind_some,
    Bool.false_and]

/-- Only a write to the tail pointer looks at the walk. -/
theorem write32With_of_not_atTail (h : ¬ b.AtTail a) (walk walk' : Bus δ → Option (Bus δ))
    (v : Word) : b.write32With walk a v = b.write32With walk' a v := by
  have heth : ∀ c : Bus δ, within ethBase ethEnd (b.fold a) = true →
      c.ethWrite walk (b.fold a - ethBase) v = c.ethWrite walk' (b.fold a - ethBase) v := by
    intro c hin
    simp only [ethWrite, EthDma.regWrite_of_not_tail c.eth fun hoff => h ⟨hin, hoff⟩,
      Bool.false_and, Bool.false_eq_true, if_false]
  have hsys : b.writeSystem walk (b.fold a) v = b.writeSystem walk' (b.fold a) v := by
    simp only [writeSystem]
    cases hin : within ethBase ethEnd (b.fold a) with
    | false => rfl
    | true => simp only [if_true, heth _ hin]
  simp only [write32With, hsys]

/-! ## A clear tail pointer stays clear -/

theorem writeMemory_eth (h : b.writeMemory a v = some b') : b'.eth = b.eth := by
  rcases writeMemory_cases h with ⟨rams, -, rfl⟩ | ⟨t, regs, rfl⟩ | honly
  · rfl
  · rfl
  · exact honly.eth

/-- A write of a word without the OWN bit keeps the tail pointer clear, if the walk does. -/
theorem tailClear_write32With {walk : Bus δ → Option (Bus δ)}
    (hwalk : ∀ c c', TailClear c → walk c = some c' → TailClear c') (hb : b.TailClear)
    (hv : v &&& Dma.ownBit = 0) (h : b.write32With walk a v = some b') : b'.TailClear := by
  cases wrote_of_write32With h with
  | flash h => exact hb
  | flashReg h hw => exact hb
  | rotFlash h => exact hb
  | rotReg h hw => exact hb
  | nvic en pend prio h => exact hb
  | icsr p h => exact hb
  | eth r hin hw =>
      have hreg : TailClear { { b with resetPending := r } with
          eth := (b.eth.regWrite (b.fold a - ethBase) v).1 } := by
        rcases b.eth.regWrite_tail (b.fold a - ethBase) v with hsame | hval
        · exact (congrArg (· &&& Dma.ownBit) hsame).trans hb
        · exact (congrArg (· &&& Dma.ownBit) hval).trans hv
      simp only [ethWrite] at hw
      split at hw
      · exact hwalk _ _ hreg hw
      · cases hw
        exact hreg
  | memory r hf hr hw =>
      rw [TailClear, writeMemory_eth hw]
      exact hb

/-! ## The walk does not write a clear tail pointer -/

/-- What holds of every access of a walk: it writes only words without the OWN bit, and
never to a tail pointer that has the bit clear. -/
def WalkCall : DmaCall → Bus δ → Prop
  | .write32 a v, b => v &&& Dma.ownBit = 0 ∧ (b.TailClear → ¬ b.AtTail a)
  | _, _ => True

section Walk

variable (w32 : Word → Word → Bus δ → Option (Bus δ))

theorem walkCalls_readFrame (a : Word) (n : Nat) (b : Bus δ) :
    (Dma.readFrame a n).Calls (dmaHandler w32) WalkCall b := by
  induction n generalizing a b with
  | zero => trivial
  | succ n ih =>
      simp only [Dma.readFrame, Prog.bind_eq, Prog.lift_bind, Prog.pure_eq]
      refine ⟨trivial, fun byte b' _ => ?_⟩
      exact (Prog.calls_bind _).mpr ⟨ih (a + 1) b', fun rest b'' _ => trivial⟩

theorem walkCalls_txDescriptor (d : Word) (b : Bus δ) :
    (Dma.txDescriptor d).Calls (dmaHandler w32) WalkCall b := by
  simp only [Dma.txDescriptor, Prog.bind_eq, Prog.lift_bind, Prog.pure_eq]
  refine ⟨trivial, fun tdes3 b₁ hread => ?_⟩
  beta_reduce
  split
  · trivial
  · next hown =>
    refine ⟨⟨and_not_ownBit tdes3, fun hclear htail => hown ?_⟩, fun done b₂ _ => ?_⟩
    · -- The tail pointer as descriptor word: the OWN bit just read is the register's.
      have hsame : OnlyDevices b b₁ := read32_only hread
      have hback : b.AtTail (d + 12) := by
        rw [AtTail, hsame.windows.fold] at htail
        exact htail
      have hval : b.read32 (d + 12) = some (tdes3, b₁) := hread
      rw [read32_atTail hback] at hval
      obtain ⟨rfl, rfl⟩ := Prod.mk.inj (Option.some.inj hval)
      exact hclear
    · beta_reduce
      split
      · split
        · exact ⟨trivial, fun _ _ _ => trivial⟩
        · trivial
      · -- the frame of a descriptor with OWN set
        refine ⟨trivial, fun buf b₃ _ => ⟨trivial, fun tdes2 b₄ _ => ?_⟩⟩
        refine (Prog.calls_bind _).mpr ⟨walkCalls_readFrame w32 buf _ b₄, fun frame b₅ _ => ?_⟩
        exact ⟨trivial, fun vid b₆ _ => ⟨trivial, fun _ _ _ => trivial⟩⟩

theorem walkCalls_txLoop (base : Word) (left i : Nat) (sent : Bool) (b : Bus δ) :
    (Dma.txLoop base left i sent).Calls (dmaHandler w32) WalkCall b := by
  induction left generalizing i sent b with
  | zero => trivial
  | succ left ih =>
      exact (Prog.calls_bind _).mpr
        ⟨walkCalls_txDescriptor w32 _ b, fun s b' _ => ih (i + 1) (sent || s) b'⟩

/-- Every access of a walk keeps the tail pointer clear, if the word writes do. -/
theorem tailClear_dmaHandler
    (hw : ∀ {a v b b'}, TailClear b → v &&& Dma.ownBit = 0 → w32 a v b = some b' →
      TailClear b')
    {e : DmaCall} {b b' : Bus δ} {r : e.Answer} (hb : b.TailClear) (he : WalkCall e b)
    (h : dmaHandler w32 e b = some (r, b')) : b'.TailClear := by
  cases e with
  | read32 a =>
      rw [TailClear, (read32_only h).eth]
      exact hb
  | read8 a =>
      rw [TailClear, (read8_only h).eth]
      exact hb
  | write32 a v =>
      obtain ⟨b'', hb'', heq⟩ := Option.map_eq_some_iff.mp h
      cases heq
      exact hw hb he.1 hb''
  | setVid vid =>
      cases h
      exact hb
  | takeVid =>
      cases h
      exact hb
  | emit frame =>
      cases h
      exact hb

theorem tailClear_runTxWalk
    (hw : ∀ {a v b b'}, TailClear b → v &&& Dma.ownBit = 0 → w32 a v b = some b' →
      TailClear b')
    {b b' : Bus δ} (hb : b.TailClear) (h : runTxWalk w32 b = some b') : b'.TailClear := by
  obtain ⟨⟨sent, b₁⟩, hrun, heq⟩ := Option.bind_eq_some_iff.mp h
  have h₁ : b₁.TailClear :=
    Prog.invariant_of_calls _ (I := TailClear) (P := WalkCall)
      (fun e c r c' hc he hr => tailClear_dmaHandler w32 hw hc he hr) hb
      (walkCalls_txLoop w32 _ _ _ _ b) hrun
  obtain rfl := Option.some.inj heq
  split
  · rw [TailClear, EthDma.complete_tail]
    exact h₁
  · exact h₁

end Walk

theorem tailClear_write32N (n : Nat) {a v : Word} {b b' : Bus δ} (hb : b.TailClear)
    (hv : v &&& Dma.ownBit = 0) (h : write32N n a v b = some b') : b'.TailClear := by
  induction n generalizing a v b b' with
  | zero => exact tailClear_write32With (fun c c' _ hc => by cases hc) hb hv h
  | succ n ih =>
      refine tailClear_write32With (fun c c' hc hc' => ?_) hb hv h
      exact tailClear_runTxWalk _ (fun hb hv h => ih hb hv h) hc hc'

/-! ## Two levels are enough -/

/-- From a clear tail pointer, word writes that agree elsewhere walk alike. -/
theorem runTxWalk_congr_of_tailClear {w w' : Word → Word → Bus δ → Option (Bus δ)}
    (hw : ∀ {a v b b'}, TailClear b → v &&& Dma.ownBit = 0 → w a v b = some b' → TailClear b')
    (hagree : ∀ a v b, ¬ AtTail b a → w' a v b = w a v b) {b : Bus δ} (hb : b.TailClear) :
    runTxWalk w' b = runTxWalk w b := by
  have hcalls : (Dma.ethTxWalk b.eth).Calls (dmaHandler w)
      (fun e c => dmaHandler w' e c = dmaHandler w e c) b := by
    refine Prog.Calls.imp _ (I := TailClear) (P := WalkCall)
      (fun e c r c' hc he hr => tailClear_dmaHandler w hw hc he hr) (fun e c hc he => ?_) hb
      (walkCalls_txLoop w _ _ _ _ b)
    cases e with
    | write32 a v => exact congrArg (Option.map _) (hagree a v c (he.2 hc))
    | read32 a => rfl
    | read8 a => rfl
    | setVid vid => rfl
    | takeVid => rfl
    | emit frame => rfl
  rw [runTxWalk, runTxWalk, Prog.run_congr hcalls]

/-- Word writes that agree on words without the OWN bit walk alike. -/
theorem runTxWalk_congr {w w' : Word → Word → Bus δ → Option (Bus δ)}
    (hagree : ∀ a v b, v &&& Dma.ownBit = 0 → w' a v b = w a v b) (b : Bus δ) :
    runTxWalk w' b = runTxWalk w b := by
  have hcalls : (Dma.ethTxWalk b.eth).Calls (dmaHandler w)
      (fun e c => dmaHandler w' e c = dmaHandler w e c) b := by
    refine Prog.Calls.mono _ (fun e c he => ?_) (walkCalls_txLoop w _ _ _ _ b)
    cases e with
    | write32 a v => exact congrArg (Option.map _) (hagree a v c he.1)
    | read32 a => rfl
    | read8 a => rfl
    | setVid vid => rfl
    | takeVid => rfl
    | emit frame => rfl
  rw [runTxWalk, runTxWalk, Prog.run_congr hcalls]

/-- A word without the OWN bit starts a walk from a clear tail pointer, in which no further
walk starts. -/
theorem write32N_of_ownClear (n : Nat) {a v : Word} (hv : v &&& Dma.ownBit = 0) (b : Bus δ) :
    write32N (n + 1) a v b = write32N 1 a v b := by
  by_cases htail : b.AtTail a
  · have hclear : TailClear { b with eth := b.eth.setReg dmactxdtpr v } := by
      rw [TailClear, EthDma.regs_setReg, if_pos rfl]
      exact hv
    rw [write32N, write32N, write32With_atTail htail, write32With_atTail htail]
    congr 1
    refine runTxWalk_congr_of_tailClear (fun hb hv h => tailClear_write32N 0 hb hv h) ?_ hclear
    intro a' v' c hc
    cases n with
    | zero => rfl
    | succ n => exact write32With_of_not_atTail hc _ _ v'
  · exact write32With_of_not_atTail htail _ _ v

/-- The bound of two on the nesting of walks is no bound. -/
theorem write32N_eq (n : Nat) (a v : Word) (b : Bus δ) :
    write32N (n + 2) a v b = b.write32 a v := by
  have hwalk : runTxWalk (write32N (n + 1)) = runTxWalk (δ := δ) (write32N 1) :=
    funext fun c => runTxWalk_congr (fun a v b hv => write32N_of_ownClear n hv b) c
  rw [write32, write32N, write32N, hwalk]

end Bus

end SpEmu
