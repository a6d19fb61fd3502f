import SpEmu.Cpu.Exec
import SpEmu.Mem.BusSafety

/-!
# What accesses leave alone

The regions and the device windows are installed once, and so are the flash model and the switches
for the boot ROM and for the secure alias. `SameMap` says that two states of a bus agree on them.

A `Cell` is a byte of memory: at an address of RAM, or at a physical offset of the flash array.
`Spares C` says of a bus access that it stores to none of the cells in `C`: neither directly, nor by
programming or erasing the flash, nor through the transmit DMA that it starts. `Keeps C` says that
the map and the cells are as they were, and `keeps_handle` that an access that spares them keeps
them. Every access spares the empty set of cells, and so no access changes the map.
-/

set_option autoImplicit false

namespace SpEmu

open ByteMem Mem Flash

/-- The base and the size of a region. -/
def Ram.window (r : Ram) : Word × Word := (r.base, r.size)

/-- A byte of RAM or of the flash array. -/
inductive Cell where
  | ram (x : Nat)
  | nvm (i : Nat)

namespace Bus

/-! ## The map -/

section SameMap

variable {δ : Type} {b b' : Bus δ}

/-- The two states have the same regions, devices and switches. -/
structure SameMap (b b' : Bus δ) : Prop where
  windows : SameWindows b b'
  rams : b'.rams.map Ram.window = b.rams.map Ram.window
  devs : b'.devs = b.devs

theorem SameMap.rfl' : SameMap b b := ⟨SameWindows.rfl', rfl, rfl⟩

theorem SameMap.trans {b'' : Bus δ} (h : SameMap b b') (h' : SameMap b' b'') : SameMap b b'' :=
  ⟨h.windows.trans h'.windows, h'.rams.trans h.rams, h'.devs.trans h.devs⟩

theorem windows_storeRam {rams rams' : List Ram} {a : Word} {k : Nat} {v : Word}
    (h : storeRam a k v rams = some rams') : rams'.map Ram.window = rams.map Ram.window := by
  induction rams generalizing rams' with
  | nil =>
      cases h
      rfl
  | cons r rs ih =>
      rw [storeRam] at h
      split at h
      · obtain ⟨data, -, heq⟩ := Option.bind_eq_some_iff.mp h
        cases heq
        rfl
      · obtain ⟨rs', hrs, heq⟩ := Option.map_eq_some_iff.mp h
        cases heq
        rw [List.map_cons, List.map_cons, ih hrs]

theorem sameMap_withRams {a : Word} {k : Nat} {v : Word} {rams : List Ram}
    (h : storeRam a k v b.rams = some rams) : SameMap b { b with rams := rams } :=
  ⟨⟨rfl, rfl, rfl, rfl⟩, windows_storeRam h, rfl⟩

theorem sameMap_withRotFlash {a : Word} {lo hi : Word} {f f' : RotFlash}
    (h : (if within lo hi a then b.rotFlash else none) = some f) :
    SameMap b { b with rotFlash := some f' } := by
  split at h
  · exact ⟨⟨rfl, rfl, rfl, by rw [h]; rfl⟩, rfl, rfl⟩
  · cases h

theorem OnlyDevices.sameMap (h : OnlyDevices b b') : SameMap b b' := by
  rw [OnlyDevices] at h
  rw [h]
  exact ⟨⟨rfl, rfl, rfl, rfl⟩, rfl, rfl⟩

end SameMap

/-! ## Which regions answer -/

/-- Whether a region answers depends on the map alone. -/
theorem isSome_ramFor (rams : List Ram) (a len : Word) :
    (ramFor rams a len).isSome =
      (rams.map Ram.window).any fun w => decide (w.1 ≤ a) && decide (a + len ≤ w.1 + w.2) := by
  rw [ramFor, Option.isSome_map, List.isSome_find?, List.any_map]
  rfl

section Keeps

variable {δ : Type} {C D : Cell → Prop} {b b' : Bus δ}

/-- The bytes that a halfword read at `a` takes. Where no region has the halfword they are those of
the word around it. -/
def HalfCell (b : Bus δ) (a : Word) : Cell → Prop
  | .nvm i => ∃ f, b.flashWin a = some f ∧ f.physOff a ≤ i ∧ i < f.physOff a + 2
  | .ram x => b.flashWin a = none ∧
      if (ramFor b.rams a 2).isSome then a.toNat ≤ x ∧ x < a.toNat + 2
      else (alignWord a).toNat ≤ x ∧ x < (alignWord a).toNat + 4

/-- The cells in `C` are where they were and hold what they held. -/
structure Keeps (C : Cell → Prop) (b b' : Bus δ) : Prop where
  map : SameMap b b'
  swap : b'.flash.map Flash.effectiveSwap = b.flash.map Flash.effectiveSwap
  ram : ∀ {a : Word} {k : Nat}, 0 < k → (∀ x, a.toNat ≤ x → x < a.toNat + k → C (.ram x)) →
    loadRam b'.rams a k = loadRam b.rams a k
  nvm : ∀ {i : Nat} {f f' : Flash}, C (.nvm i) → b.flash = some f → b'.flash = some f' →
    f'.mem.get i = f.mem.get i

theorem keeps_of_same (hmap : SameMap b b') (hrams : b'.rams = b.rams)
    (hflash : b'.flash = b.flash) : Keeps C b b' where
  map := hmap
  swap := by rw [hflash]
  ram _ _ := by rw [hrams]
  nvm _ hf hf' := by
    rw [hflash, hf] at hf'
    rw [Option.some.inj hf']

theorem Keeps.rfl' : Keeps C b b := keeps_of_same SameMap.rfl' rfl rfl

theorem Keeps.trans {b'' : Bus δ} (h : Keeps C b b') (h' : Keeps C b' b'') : Keeps C b b'' where
  map := h.map.trans h'.map
  swap := h'.swap.trans h.swap
  ram hk hC := (h'.ram hk hC).trans (h.ram hk hC)
  nvm hC hf hf'' := by
    obtain ⟨f', hf'⟩ := Option.isSome_iff_exists.mp (h.map.windows.flash.trans (by rw [hf]; rfl))
    exact (h'.nvm hC hf' hf'').trans (h.nvm hC hf hf')

theorem Keeps.mono (h : Keeps C b b') (hCD : ∀ c, D c → C c) : Keeps D b b' where
  map := h.map
  swap := h.swap
  ram hk hD := h.ram hk fun x hlo hhi => hCD _ (hD x hlo hhi)
  nvm hD hf hf' := h.nvm (hCD _ hD) hf hf'

theorem OnlyDevices.keeps (h : OnlyDevices b b') : Keeps C b b' := by
  refine keeps_of_same h.sameMap h.rams ?_
  rw [OnlyDevices] at h
  rw [h]

/-- The flash in a window stays there, with the same mapping. -/
theorem Keeps.window (h : Keeps C b b') {lo hi a : Word} {f : Flash}
    (hf : (if within lo hi a then b.flash else none) = some f) :
    ∃ f', (if within lo hi a then b'.flash else none) = some f' ∧ b.flash = some f ∧
      b'.flash = some f' ∧ f'.physOff a = f.physOff a := by
  split at hf
  · next hin =>
      obtain ⟨f', hf'⟩ := Option.isSome_iff_exists.mp (h.map.windows.flash.trans (by rw [hf]; rfl))
      have hswap := h.swap
      rw [hf, hf'] at hswap
      have hswap := Option.some.inj hswap
      refine ⟨f', by rw [if_pos hin, hf'], hf, hf', ?_⟩
      rw [physOff, physOff, hswap]
  · cases hf

theorem Keeps.ramFor_isSome (h : Keeps C b b') (a len : Word) :
    (ramFor b'.rams a len).isSome = (ramFor b.rams a len).isSome := by
  rw [isSome_ramFor, isSome_ramFor, h.map.rams]

theorem Keeps.flashWin_none (h : Keeps C b b') {a : Word} (ha : b.flashWin a = none) :
    b'.flashWin a = none :=
  isNone_window h.map.windows.flash ha

end Keeps

/-! ## Stores beside the cells -/

section Spares

variable {δ : Type} [Mmio δ] (C : Cell → Prop)

/-- No byte of a `k`-byte store at `a` is in `C`. -/
def SparesRam (k : Nat) (a : Word) : Prop :=
  ∀ x, a.toNat ≤ x → x < a.toNat + k → ¬ C (.ram x)

/-- A word write programs no byte in `C` and starts no erase of one. -/
structure SparesNvm (b : Bus δ) (a v : Word) : Prop where
  programs : ∀ f, b.flashWin (b.fold a) = some f → f.Programs →
    ∀ i, f.physOff (b.fold a) ≤ i → i < f.physOff (b.fold a) + 4 → ¬ C (.nvm i)
  erases : ∀ f, b.flashRegs (b.fold a) = some f →
    f.EraseCommand (.regWrite (alignWord (b.fold a) - flashRegLo) v) →
      ∀ i, f.Inactive i → ¬ C (.nvm i)

/-- The word writes of a transmit walk are as `P` says; its other calls store nothing. -/
def DmaSpares (P : Bus δ → Word → Word → Prop) (e : DmaCall) (c : Bus δ) : Prop :=
  match e with
  | .write32 a v => P c a v
  | _ => True

/-- A word write stores to no cell in `C`, and neither do the writes of the transmit walk that it
starts; `n` bounds the nesting of walks. -/
def SparesWord : (n : Nat) → Bus δ → Word → Word → Prop
  | 0, b, a, v => SparesRam C 4 (b.fold a) ∧ SparesNvm C b a v
  | n + 1, b, a, v => SparesRam C 4 (b.fold a) ∧ SparesNvm C b a v ∧
      (b.AtTail a → b.recording = false →
        (Dma.ethTxWalk (b.withTail v).eth).Calls (dmaHandler (write32N n))
          (DmaSpares (SparesWord n)) (b.withTail v))

/-- A narrow write stores to RAM, or to the word that it reads and merges into. -/
def SparesNarrow (w : Width) (b : Bus δ) (a : Word) (merge : Word → Word) : Prop :=
  SparesRam C w.bytes (b.fold a) ∧
    (ramFor b.rams (b.fold a) (BitVec.ofNat 32 w.bytes) = none →
      ∀ old c, b.read32 (alignWord (b.fold a)) = some (old, c) →
        SparesWord C 2 c (alignWord (b.fold a)) (merge old))

/-- A write of any width stores to no cell in `C`. -/
def SparesWrite (w : Width) (b : Bus δ) (a v : Word) : Prop :=
  match w with
  | .word => SparesWord C 2 b a v
  | .half => SparesNarrow C .half b a fun old => halfInWord (b.fold a) old (v.setWidth 16)
  | .byte => SparesNarrow C .byte b a fun old => byteInWord (b.fold a) old (v.setWidth 8)

/-- A bus access of the core stores to no cell in `C`. -/
def Spares (e : BusCall) (b : Bus δ) : Prop :=
  match e with
  | .write w a v => SparesWrite C w b a v
  | _ => True

variable {C} {b b' : Bus δ}

omit [Mmio δ] in
/-- Two ranges of addresses without a common one. -/
theorem apart_of_spares {k k' : Nat} {a a' : Word} (hk : 0 < k) (hk' : 0 < k')
    (hs : SparesRam C k a) (hC : ∀ x, a'.toNat ≤ x → x < a'.toNat + k' → C (.ram x)) :
    a'.toNat + k' ≤ a.toNat ∨ a.toNat + k ≤ a'.toNat := by
  by_contra hmeet
  exact hs (max a.toNat a'.toNat) (by omega) (by omega)
    (hC (max a.toNat a'.toNat) (by omega) (by omega))

omit [Mmio δ] in
theorem keeps_withRams {k : Nat} {a v : Word} {rams : List Ram} (hk : 0 < k)
    (hs : SparesRam C k a) (h : storeRam a k v b.rams = some rams) :
    Keeps C b { b with rams := rams } where
  map := sameMap_withRams h
  swap := rfl
  ram hk' hC := loadRam_store_of_disjoint h (apart_of_spares hk hk' hs hC)
  nvm _ hf hf' := by
    obtain rfl := Option.some.inj (hf.symm.trans hf')
    rfl

omit [Mmio δ] in
/-- A change of the flash that keeps its mapping and the bytes in `C`. -/
theorem keeps_withFlash {f f' : Flash} (hf : b.flash = some f)
    (hswap : f'.effectiveSwap = f.effectiveSwap)
    (hmem : ∀ i, C (.nvm i) → f'.mem.get i = f.mem.get i) :
    Keeps C b { b with flash := some f' } where
  map := ⟨⟨rfl, rfl, by rw [hf]; rfl, rfl⟩, rfl, rfl⟩
  swap := by
    rw [hf]
    exact congrArg some hswap
  ram _ _ := rfl
  nvm hC hf₁ hf₂ := by
    obtain rfl := Option.some.inj (hf.symm.trans hf₁)
    obtain rfl := Option.some.inj hf₂
    exact hmem _ hC

omit [Mmio δ] in
theorem flash_of_window {lo hi a : Word} {f : Flash}
    (hf : (if within lo hi a then b.flash else none) = some f) : b.flash = some f := by
  split at hf
  · exact hf
  · cases hf

omit [Mmio δ] in
theorem keeps_program {f : Flash} {a v : Word} (hf : b.flashWin a = some f)
    (hs : f.Programs → ∀ i, f.physOff a ≤ i → i < f.physOff a + 4 → ¬ C (.nvm i)) :
    Keeps C b { b with flash := some (f.writeMem a v 4) } := by
  have hflash : b.flash = some f := flash_of_window hf
  by_cases hp : f.Programs
  · -- a program only changes the four bytes at the address
    obtain ⟨file, hw⟩ := writeMem_of_programs hp a v 4
    rw [hw]
    refine keeps_withFlash hflash rfl fun i hC => ?_
    refine (programLoop_get _ _ _ _ _ i).trans (if_neg fun hi => ?_)
    exact hs hp i (by omega) (by omega) hC
  · rw [writeMem_of_not_programs hp]
    exact keeps_withFlash hflash rfl fun _ _ => rfl

omit [Mmio δ] in
theorem keeps_flashReg {f f' : Flash} {off a v : Word} (hf : b.flashRegs a = some f)
    (hw : f.regWrite off v = some f')
    (hs : f.EraseCommand (.regWrite off v) → ∀ i, f.Inactive i → ¬ C (.nvm i)) :
    Keeps C b { b with flash := some f' } := by
  have heff := effect_regWrite hw
  refine keeps_withFlash (flash_of_window hf) (heff.effective nofun) fun i hC => ?_
  -- the bank erase is the only register write that changes the array
  by_cases herase : f.EraseCommand (.regWrite off v)
  · exact (heff.erase herase i).2 fun hi => hs herase i hi hC
  · rw [heff.keeps herase nofun]

theorem keeps_writeMemory {a v : Word} (hs : SparesRam C 4 a) (h : b.writeMemory a v = some b') :
    Keeps C b b' := by
  rcases writeMemory_cases h with ⟨rams, hrams, rfl⟩ | ⟨t, regs, rfl⟩ | honly
  · exact keeps_withRams (by decide) hs hrams
  · exact keeps_of_same ⟨⟨rfl, rfl, rfl, rfl⟩, rfl, rfl⟩ rfl rfl
  · exact honly.keeps

/-- A word write keeps the cells that it spares, if the walk that it may start does. -/
theorem keeps_write32With {walk : Bus δ → Option (Bus δ)} {a v : Word}
    (hram : SparesRam C 4 (b.fold a)) (hnvm : SparesNvm C b a v)
    (hwalk : b.AtTail a → b.recording = false → ∀ c, walk (b.withTail v) = some c →
      Keeps C (b.withTail v) c)
    (h : b.write32With walk a v = some b') : Keeps C b b' := by
  -- the tail pointer starts a walk; every other write is one store
  by_cases htail : b.AtTail a
  · have hreg : Keeps C b (b.withTail v) :=
      keeps_of_same ⟨⟨rfl, rfl, rfl, rfl⟩, rfl, rfl⟩ rfl rfl
    rw [write32With_atTail htail] at h
    split at h
    · cases h
      exact hreg
    · next hrec => exact hreg.trans (hwalk htail (Bool.eq_false_iff.mpr hrec) b' h)
  · cases wrote_of_write32With h with
    | flash hf => exact keeps_program hf (hnvm.programs _ hf)
    | flashReg hf hw => exact keeps_flashReg hf hw (hnvm.erases _ hf)
    | rotFlash hf =>
        exact keeps_of_same (sameMap_withRotFlash hf) rfl rfl
    | rotReg hf hw => exact keeps_of_same (sameMap_withRotFlash hf) rfl rfl
    | nvic en pend prio hin => exact keeps_of_same ⟨⟨rfl, rfl, rfl, rfl⟩, rfl, rfl⟩ rfl rfl
    | icsr p hin => exact keeps_of_same ⟨⟨rfl, rfl, rfl, rfl⟩, rfl, rfl⟩ rfl rfl
    -- another register of the DMA
    | eth r hin hw =>
        have hoff : alignWord (b.fold a - ethBase) ≠ dmactxdtpr := fun hoff => htail ⟨hin, hoff⟩
        simp only [ethWrite, EthDma.regWrite_of_not_tail b.eth hoff, Bool.false_and,
          Bool.false_eq_true, if_false] at hw
        cases hw
        exact keeps_of_same ⟨⟨rfl, rfl, rfl, rfl⟩, rfl, rfl⟩ rfl rfl
    | memory r hf hr hw =>
        have hrest := keeps_writeMemory hram hw
        refine Keeps.trans ?_ hrest
        exact keeps_of_same ⟨⟨rfl, rfl, rfl, rfl⟩, rfl, rfl⟩ rfl rfl

/-- A transmit walk keeps the cells, if each of its word writes does. -/
theorem keeps_runTxWalk {w32 : Word → Word → Bus δ → Option (Bus δ)}
    {P : Bus δ → Word → Word → Prop}
    (hw : ∀ {a v c c'}, P c a v → w32 a v c = some c' → Keeps C c c')
    (hcalls : (Dma.ethTxWalk b.eth).Calls (dmaHandler w32) (DmaSpares P) b)
    (h : runTxWalk w32 b = some b') : Keeps C b b' := by
  obtain ⟨⟨sent, b₁⟩, hrun, heq⟩ := Option.bind_eq_some_iff.mp h
  have hcall : ∀ (e : DmaCall) (c : Bus δ) (r : e.Answer) (c' : Bus δ), Keeps C b c →
      DmaSpares P e c → dmaHandler w32 e c = some (r, c') → Keeps C b c' := by
    intro e c r c' hc hP hr
    cases e with
    | read32 a => exact hc.trans (read32_only hr).keeps
    | read8 a => exact hc.trans (read8_only hr).keeps
    | write32 a v =>
        obtain ⟨c₁, hc₁, heq⟩ := Option.map_eq_some_iff.mp hr
        cases heq
        exact hc.trans (hw hP hc₁)
    | setVid vid =>
        cases hr
        exact hc.trans (keeps_of_same ⟨⟨rfl, rfl, rfl, rfl⟩, rfl, rfl⟩ rfl rfl)
    | takeVid =>
        cases hr
        exact hc.trans (keeps_of_same ⟨⟨rfl, rfl, rfl, rfl⟩, rfl, rfl⟩ rfl rfl)
    | emit frame =>
        cases hr
        exact hc.trans (keeps_of_same ⟨⟨rfl, rfl, rfl, rfl⟩, rfl, rfl⟩ rfl rfl)
  have h₁ : Keeps C b b₁ :=
    Prog.invariant_of_calls (dmaHandler w32) (I := Keeps C b) hcall Keeps.rfl' hcalls hrun
  obtain rfl := Option.some.inj heq
  split
  · exact h₁.trans (keeps_of_same ⟨⟨rfl, rfl, rfl, rfl⟩, rfl, rfl⟩ rfl rfl)
  · exact h₁

theorem keeps_write32N (n : Nat) {a v : Word} {b b' : Bus δ} (hs : SparesWord C n b a v)
    (h : write32N n a v b = some b') : Keeps C b b' := by
  induction n generalizing a v b b' with
  -- a walk inside the last walk does not return
  | zero => exact keeps_write32With hs.1 hs.2 (fun _ _ c hc => by cases hc) h
  | succ n ih =>
      refine keeps_write32With hs.1 hs.2.1 (fun htail hrec c hc => ?_) h
      exact keeps_runTxWalk (P := fun c a v => SparesWord C n c a v) ih (hs.2.2 htail hrec) hc

theorem keeps_write32 {a v : Word} (hs : SparesWord C 2 b a v) (h : b.write32 a v = some b') :
    Keeps C b b' :=
  keeps_write32N 2 hs h

theorem keeps_write16 {a : Word} {v : Half}
    (hs : SparesNarrow C .half b a fun old => halfInWord (b.fold a) old v)
    (h : b.write16 a v = some b') : Keeps C b b' := by
  simp only [write16] at h
  split at h
  · obtain ⟨rams, hrams, heq⟩ := Option.map_eq_some_iff.mp h
    cases heq
    exact keeps_withRams (by decide) hs.1 hrams
  · next hnone =>
      obtain ⟨r, hread, hwrite⟩ := Option.bind_eq_some_iff.mp h
      exact (read32_only hread).keeps.trans (keeps_write32 (hs.2 hnone r.1 r.2 hread) hwrite)

theorem keeps_write8 {a : Word} {v : Byte}
    (hs : SparesNarrow C .byte b a fun old => byteInWord (b.fold a) old v)
    (h : b.write8 a v = some b') : Keeps C b b' := by
  simp only [write8] at h
  split at h
  · obtain ⟨rams, hrams, heq⟩ := Option.map_eq_some_iff.mp h
    cases heq
    exact keeps_withRams (by decide) hs.1 hrams
  · next hnone =>
      obtain ⟨r, hread, hwrite⟩ := Option.bind_eq_some_iff.mp h
      exact (read32_only hread).keeps.trans (keeps_write32 (hs.2 hnone r.1 r.2 hread) hwrite)

theorem keeps_write {w : Width} {a v : Word} (hs : SparesWrite C w b a v)
    (h : b.write w a v = some b') : Keeps C b b' := by
  cases w with
  | word => exact keeps_write32 hs h
  | half => exact keeps_write16 hs h
  | byte => exact keeps_write8 hs h

theorem keeps_read {w : Width} {a : Word} {r : Word × Bus δ} (h : b.read w a = some r) :
    Keeps C b r.2 := by
  cases w with
  | word => exact (read32_only h).keeps
  | half =>
      obtain ⟨r', hr, rfl⟩ := Option.map_eq_some_iff.mp h
      exact (read16_only hr).keeps
  | byte =>
      obtain ⟨r', hr, rfl⟩ := Option.map_eq_some_iff.mp h
      exact (read8_only hr).keeps

/-! ## What stores to no cell at all -/

omit [Mmio δ] in
theorem keeps_pendIrq {irq : Half} (h : b.pendIrq irq = some b') : Keeps C b b' := by
  obtain ⟨t, -, heq⟩ := Option.bind_eq_some_iff.mp h
  cases heq
  exact keeps_of_same ⟨⟨rfl, rfl, rfl, rfl⟩, rfl, rfl⟩ rfl rfl

omit [Mmio δ] in
theorem keeps_pendAll {irqs : List Half} {b : Bus δ} (h : pendAll irqs b = some b') :
    Keeps C b b' := by
  induction irqs generalizing b with
  | nil =>
      cases h
      exact Keeps.rfl'
  | cons irq irqs ih =>
      rw [pendAll, List.foldlM_cons] at h
      obtain ⟨b₁, hirq, hrest⟩ := Option.bind_eq_some_iff.mp h
      exact (keeps_pendIrq hirq).trans (ih hrest)

theorem keeps_collectIrqs (h : b.collectIrqs = some b') : Keeps C b b' := by
  obtain ⟨b₁, h₁, h⟩ := Option.bind_eq_some_iff.mp h
  obtain ⟨b₂, h₂, h⟩ := Option.bind_eq_some_iff.mp h
  obtain ⟨b₃, h₃, h₄⟩ := Option.bind_eq_some_iff.mp h
  have hdevices : Keeps C b b₁ := by
    rw [collectDevices] at h₁
    split at h₁
    · have hpend := keeps_pendAll (C := C) (b := { b with
        mmio := (pollIrqs b.devs.length 0 b.mmio).2, devTouched := false }) h₁
      refine Keeps.trans ?_ hpend
      exact keeps_of_same ⟨⟨rfl, rfl, rfl, rfl⟩, rfl, rfl⟩ rfl rfl
    · cases h₁
      exact Keeps.rfl'
  have heth : Keeps C b₁ b₂ := by
    rw [collectEth] at h₂
    split at h₂
    · have hpend := keeps_pendIrq (C := C) h₂
      refine Keeps.trans ?_ hpend
      exact keeps_of_same ⟨⟨rfl, rfl, rfl, rfl⟩, rfl, rfl⟩ rfl rfl
    · cases h₂
      exact Keeps.rfl'
  have hflash : Keeps C b₂ b₃ := by
    rw [collectFlash] at h₃
    split at h₃
    · next f hf =>
        have htook : Keeps C b₂ { b₂ with flash := some f.takeEraseIrq.2 } :=
          keeps_withFlash hf rfl fun _ _ => rfl
        dsimp only at h₃
        split at h₃
        · exact htook.trans (keeps_pendIrq h₃)
        · cases h₃
          exact htook
    · cases h₃
      exact Keeps.rfl'
  have huart : Keeps C b₃ b' := by
    rw [collectUart] at h₄
    split at h₄
    · exact keeps_pendIrq h₄
    · cases h₄
      exact Keeps.rfl'
  exact ((hdevices.trans heth).trans hflash).trans huart

/-- A bus access of the core that spares the cells keeps them. -/
theorem keeps_handle (verifier : Verifier) {e : BusCall} {r : e.Answer} (hs : Spares C e b)
    (h : Bus.handle verifier e b = some (r, b')) : Keeps C b b' := by
  cases e with
  | read w a => exact keeps_read h
  | write w a v =>
      obtain ⟨c, hc, heq⟩ := Option.map_eq_some_iff.mp h
      cases heq
      exact keeps_write hs hc
  | setCyc cyc =>
      cases h
      exact keeps_of_same ⟨⟨rfl, rfl, rfl, rfl⟩, rfl, rfl⟩ rfl rfl
  | anyPendingIrq =>
      obtain ⟨c, hc, heq⟩ := Option.bind_eq_some_iff.mp h
      cases heq
      exact keeps_collectIrqs hc
  | collectIrqs =>
      obtain ⟨c, hc, heq⟩ := Option.map_eq_some_iff.mp h
      cases heq
      exact keeps_collectIrqs hc
  | nextIrq =>
      cases h
      exact Keeps.rfl'
  | irqPrio irq =>
      obtain ⟨c, hc, heq⟩ := Option.map_eq_some_iff.mp h
      cases heq
      exact Keeps.rfl'
  | clearPending irq =>
      obtain ⟨c, hc, heq⟩ := Option.map_eq_some_iff.mp h
      cases heq
      obtain ⟨t, -, heq⟩ := Option.bind_eq_some_iff.mp hc
      cases heq
      exact keeps_of_same ⟨⟨rfl, rfl, rfl, rfl⟩, rfl, rfl⟩ rfl rfl
  | takePendsv =>
      cases h
      exact keeps_of_same ⟨⟨rfl, rfl, rfl, rfl⟩, rfl, rfl⟩ rfl rfl
  | verifySlot start =>
      obtain ⟨c, hc, heq⟩ := Option.map_eq_some_iff.mp h
      cases heq
      exact Keeps.rfl'

/-- A program of bus accesses keeps the cells that each of its accesses spares. -/
theorem keeps_run (verifier : Verifier) {α : Type} {p : BusM α} {r : α}
    (hs : p.Calls (Bus.handle verifier) (Spares C) b)
    (h : p.run (Bus.handle verifier) b = some (r, b')) : Keeps C b b' :=
  Prog.invariant_of_calls (Bus.handle verifier) (I := Keeps C b)
    (fun _ _ _ _ hc hP hr => hc.trans (keeps_handle verifier hP hr)) Keeps.rfl' hs h

end Spares

/-! ## Received frames beside the cells -/

section Receive

variable {δ : Type} [Mmio δ] (C : Cell → Prop)

/-- The bytes stored from `a` on are beside the cells. -/
def SparesBytes (a : Word) : List Byte → Bus δ → Prop
  | [], _ => True
  | byte :: bytes, b =>
      SparesNarrow C .byte b a (fun old => byteInWord (b.fold a) old byte) ∧
        ∀ c, b.write8 a byte = some c → SparesBytes (a + 1) bytes c

/-- A frame that the next descriptor takes is stored beside the cells, and so is the status in
the descriptor. -/
def SparesInject (frame : List Byte) (b : Bus δ) : Prop :=
  let d := b.eth.ethReg dmacrxdlar + b.eth.rxNext * 16
  let f := RxFrame.ofWire frame
  ∀ rdes3 b₁ buf b₂, b.eth.ethReg dmacrxdlar ≠ 0 → b.read32 (d + 12) = some (rdes3, b₁) →
    rdes3 &&& Dma.ownBit ≠ 0 → b₁.read32 d = some (buf, b₂) →
      SparesBytes C buf f.cut.data b₂ ∧ ∀ b₃, b₂.writeBytes buf f.cut.data = some b₃ →
        SparesWord C 2 b₃ d f.vid ∧ ∀ b₄, b₃.write32 d f.vid = some b₄ →
          SparesWord C 2 b₄ (d + 12) f.status

/-- The frames that the ring takes are stored beside the cells. -/
def SparesPump : List (List Byte) → Bus δ → Prop
  | [], _ => True
  | frame :: queue, b => ∀ b₁, b.ethRxHasSpace = some (true, b₁) →
      SparesInject C frame b₁ ∧
        ∀ r, b₁.ethRxInject frame = some r → SparesPump queue r.2

variable {C} {b b' : Bus δ}

theorem keeps_writeBytes {bytes : List Byte} {a : Word} {b : Bus δ} (hs : SparesBytes C a bytes b)
    (h : b.writeBytes a bytes = some b') : Keeps C b b' := by
  induction bytes generalizing a b with
  | nil =>
      cases h
      exact Keeps.rfl'
  | cons byte bytes ih =>
      obtain ⟨b₁, hbyte, hrest⟩ := Option.bind_eq_some_iff.mp h
      exact (keeps_write8 hs.1 hbyte).trans (ih (hs.2 b₁ hbyte) hrest)

theorem keeps_ethRxHasSpace {r : Bool × Bus δ} (h : b.ethRxHasSpace = some r) :
    Keeps C b r.2 := by
  simp only [ethRxHasSpace] at h
  split at h
  · cases h
    exact Keeps.rfl'
  · obtain ⟨⟨rdes3, b₁⟩, hread, heq⟩ := Option.bind_eq_some_iff.mp h
    cases heq
    exact (read32_only hread).keeps

theorem keeps_ethRxInject {frame : List Byte} {r : Bool × Bus δ} (hs : SparesInject C frame b)
    (h : b.ethRxInject frame = some r) : Keeps C b r.2 := by
  simp only [ethRxInject] at h
  split at h
  · cases h
    exact Keeps.rfl'
  · next hbase =>
      obtain ⟨⟨rdes3, b₁⟩, hread, h⟩ := Option.bind_eq_some_iff.mp h
      dsimp only at h
      split at h
      · cases h
        exact (read32_only hread).keeps
      · next hown =>
          obtain ⟨⟨buf, b₂⟩, hbuf, h⟩ := Option.bind_eq_some_iff.mp h
          obtain ⟨b₃, hbytes, h⟩ := Option.bind_eq_some_iff.mp h
          obtain ⟨b₄, hvid, h⟩ := Option.bind_eq_some_iff.mp h
          obtain ⟨b₅, hstatus, heq⟩ := Option.bind_eq_some_iff.mp h
          cases heq
          -- the three stores are made in this order, each on the bus of the one before
          obtain ⟨hsbytes, hs⟩ := hs rdes3 b₁ buf b₂ hbase hread hown hbuf
          obtain ⟨hsvid, hs⟩ := hs b₃ hbytes
          have hread₂ : Keeps C b b₂ := (read32_only hread).keeps.trans (read32_only hbuf).keeps
          have hwrite : Keeps C b₂ b₅ := ((keeps_writeBytes hsbytes hbytes).trans
            (keeps_write32 hsvid hvid)).trans (keeps_write32 (hs b₄ hvid) hstatus)
          refine (hread₂.trans hwrite).trans ?_
          exact keeps_of_same ⟨⟨rfl, rfl, rfl, rfl⟩, rfl, rfl⟩ rfl rfl

theorem keeps_pumpRx {queue : List (List Byte)} {b : Bus δ} {r : List (List Byte) × Bus δ}
    (hs : SparesPump C queue b) (h : pumpRx queue b = some r) : Keeps C b r.2 := by
  induction queue generalizing b with
  | nil =>
      obtain ⟨r', hr, rfl⟩ := Option.map_eq_some_iff.mp h
      exact keeps_ethRxHasSpace hr
  | cons frame queue ih =>
      obtain ⟨⟨space, b₁⟩, hspace, h⟩ := Option.bind_eq_some_iff.mp h
      have h₁ : Keeps C b b₁ := keeps_ethRxHasSpace hspace
      dsimp only at h
      split at h
      · next htrue =>
          obtain rfl := htrue
          obtain ⟨⟨ok, b₂⟩, hinject, h⟩ := Option.bind_eq_some_iff.mp h
          obtain ⟨hsinject, hsrest⟩ := hs b₁ hspace
          have h₂ : Keeps C b₁ b₂ := keeps_ethRxInject hsinject hinject
          exact (h₁.trans h₂).trans (ih (hsrest _ hinject) h)
      · cases h
        exact h₁

/-- The host bridge keeps the cells beside which it stores. -/
theorem keeps_pumpEth {queue : List (List Byte)}
    {r : List (List Byte) × List (List Byte) × Bus δ}
    (hs : SparesPump C queue { b with eth := { b.eth with txFrames := [] } })
    (h : b.pumpEth queue = some r) : Keeps C b r.2.2 := by
  obtain ⟨⟨rest, b₁⟩, hrx, heq⟩ := Option.bind_eq_some_iff.mp h
  cases heq
  have hpump := keeps_pumpRx hs hrx
  refine Keeps.trans ?_ hpump
  exact keeps_of_same ⟨⟨rfl, rfl, rfl, rfl⟩, rfl, rfl⟩ rfl rfl

end Receive

/-! ## The map along accesses -/

section Map

variable {δ : Type} [Mmio δ] {b b' : Bus δ}

omit [Mmio δ] in
theorem sparesRam_empty (k : Nat) (a : Word) : SparesRam (fun _ => False) k a :=
  fun _ _ _ => id

/-- Every write is beside the empty set of cells. -/
theorem sparesWord_empty (n : Nat) (b : Bus δ) (a v : Word) :
    SparesWord (fun _ => False) n b a v := by
  induction n generalizing b a v with
  | zero => exact ⟨sparesRam_empty _ _, fun _ _ _ _ _ _ => id, fun _ _ _ _ _ => id⟩
  | succ n ih =>
      refine ⟨sparesRam_empty _ _, ⟨fun _ _ _ _ _ _ => id, fun _ _ _ _ _ => id⟩, fun _ _ => ?_⟩
      refine Prog.calls_of_forall _ (fun e c => ?_) _ _
      cases e with
      | write32 a v => exact ih c a v
      | _ => trivial

theorem sparesNarrow_empty (w : Width) (b : Bus δ) (a : Word) (merge : Word → Word) :
    SparesNarrow (fun _ => False) w b a merge :=
  ⟨sparesRam_empty _ _, fun _ _ _ _ => sparesWord_empty ..⟩

theorem sparesWrite_empty (w : Width) (b : Bus δ) (a v : Word) :
    SparesWrite (fun _ => False) w b a v := by
  cases w with
  | word => exact sparesWord_empty ..
  | half => exact sparesNarrow_empty ..
  | byte => exact sparesNarrow_empty ..

theorem sameMap_write {w : Width} {a v : Word} (h : b.write w a v = some b') : SameMap b b' :=
  (keeps_write (sparesWrite_empty ..) h).map

theorem sameMap_write32 {a v : Word} (h : b.write32 a v = some b') : SameMap b b' :=
  (keeps_write32 (sparesWord_empty ..) h).map

/-- No program of bus accesses changes the map. -/
theorem sameMap_run (verifier : Verifier) {α : Type} {p : BusM α} {r : α}
    (h : p.run (Bus.handle verifier) b = some (r, b')) : SameMap b b' := by
  have hspares : p.Calls (Bus.handle verifier) (Spares fun _ => False) b := by
    refine Prog.calls_of_forall _ (fun e c => ?_) p b
    cases e with
    | write w a v => exact sparesWrite_empty ..
    | _ => trivial
  exact (keeps_run verifier hspares h).map

theorem sparesBytes_empty (bytes : List Byte) (a : Word) (b : Bus δ) :
    SparesBytes (fun _ => False) a bytes b := by
  induction bytes generalizing a b with
  | nil => trivial
  | cons byte bytes ih => exact ⟨sparesNarrow_empty .., fun c _ => ih (a + 1) c⟩

theorem sparesPump_empty (queue : List (List Byte)) (b : Bus δ) :
    SparesPump (fun _ => False) queue b := by
  induction queue generalizing b with
  | nil => trivial
  | cons frame queue ih =>
      intro b₁ _
      refine ⟨?_, fun r _ => ih r.2⟩
      intro rdes3 b₂ buf b₃ _ _ _ _
      refine ⟨sparesBytes_empty .., fun b₄ _ => ⟨sparesWord_empty .., fun b₅ _ => ?_⟩⟩
      exact sparesWord_empty ..

theorem sameMap_pumpEth {queue : List (List Byte)}
    {r : List (List Byte) × List (List Byte) × Bus δ} (h : b.pumpEth queue = some r) :
    SameMap b r.2.2 :=
  (keeps_pumpEth (sparesPump_empty ..) h).map

theorem sameMap_resetExceptionSources (h : b.resetExceptionSources = some b') : SameMap b b' := by
  obtain ⟨b₁, h₁, h⟩ := Option.bind_eq_some_iff.mp h
  obtain ⟨b₂, h₂, h₃⟩ := Option.bind_eq_some_iff.mp h
  have hsyst := ((sameMap_write32 h₁).trans (sameMap_write32 h₂)).trans (sameMap_write32 h₃)
  refine SameMap.trans ?_ hsyst
  exact ⟨⟨rfl, rfl, rfl, rfl⟩, rfl, rfl⟩

omit [Mmio δ] in
theorem sameMap_flashResetLatch (b : Bus δ) : SameMap b b.flashResetLatch :=
  ⟨⟨rfl, rfl, Option.isSome_map, rfl⟩, rfl, rfl⟩

end Map

end Bus

end SpEmu
