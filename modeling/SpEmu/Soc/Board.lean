import SpEmu.Soc.Cells

/-!
# The memory map of the SP

`Board` is the map of the SP: six RAM regions, the flash, and the system control space as the third
device. `Scs` is that device, a plain register file with the two SysTick and CPUID words of its
own; the other devices of the board are a parameter.

Below `codeEnd` are only ITCM and flash. `codeHalf` is what a halfword read there returns, a
function of the cells of the halfword.
-/

set_option autoImplicit false

namespace SpEmu

open ByteMem Mem Flash

namespace Bus

/-- Off the top of the address space an open address that a region answers is served. -/
theorem served_of_ramFor {δ : Type} {b : Bus δ} {a : Word} {k : Nat} (hk : k ≤ 4)
    (hopen : b.Open a) (hram : (ramFor b.rams a (BitVec.ofNat 32 k)).isSome)
    (htop : a.toNat + k < 2 ^ 32) : b.Served k a := by
  refine ⟨hopen, ?_⟩
  obtain ⟨⟨r, o⟩, hr⟩ := Option.isSome_iff_exists.mp hram
  rw [loadRam, hr, Option.bind_some, isSome_load_iff hk hr]
  intro hover
  have := hover.1
  omega

end Bus

/-! ## The system control space -/

/-- SysTick, SCB and CPACR; the NVIC and ICSR are the bus's own. -/
structure Scs where
  regs : Table 0x400 Word

namespace Scs

def cpuid : Word := 0x411FC271

def new : Scs := ⟨fun _ => 0⟩

/-- The register at an offset. -/
def index (off : Word) : Fin 0x400 := ⟨off.toNat / 4 % 0x400, Nat.mod_lt _ (by decide)⟩

/-- SYST_CSR reports COUNTFLAG, and CPUID is that of the STM32H753. -/
def read (s : Scs) (off : Word) : Word :=
  if off = 0x010 then s.regs (index off) ||| ((1 : Word) <<< 16)
  else if off = 0xD00 then cpuid
  else s.regs (index off)

def write (s : Scs) (off val : Word) : Scs := ⟨Function.update s.regs (index off) val⟩

theorem read_write_same (s : Scs) (off val : Word) (h₁ : off ≠ 0x010) (h₂ : off ≠ 0xD00) :
    (s.write off val).read off = val := by
  rw [read, if_neg h₁, if_neg h₂]
  exact Function.update_self ..

theorem read_write_of_ne (s : Scs) {off off' : Word} (val : Word) (h : index off' ≠ index off) :
    (s.write off val).read off' = s.read off' := by
  simp only [read, write, Function.update_of_ne h]

end Scs

/-- The devices of an SP: the system control space, and all others. -/
structure SpDevices (ρ : Type) where
  scs : Scs
  others : ρ

namespace SpDevices

variable {ρ : Type} [Mmio ρ]

/-- The position of the system control space in the device list. -/
def scsIndex : Nat := 2

instance : Mmio (SpDevices ρ) where
  read i off m :=
    if i = scsIndex then (m.scs.read off, m)
    else
      let (v, others) := Mmio.read i off m.others
      (v, { m with others := others })
  write i off val m :=
    if i = scsIndex then { m with scs := m.scs.write off val }
    else { m with others := Mmio.write i off val m.others }
  -- The system control space raises no IRQ.
  takeIrq i m :=
    if i = scsIndex then (none, m)
    else
      let (irq, others) := Mmio.takeIrq i m.others
      (irq, { m with others := others })
  uartRxWaiting m := Mmio.uartRxWaiting m.others

end SpDevices

/-! ## The board -/

namespace Soc

def scsBase : Word := 0xE000E000
def scsSize : Word := 0x1000
def dtcmBase : Word := 0x20000000
/-- ITCM and flash are below it, and every device is above. -/
def codeEnd : Word := 0x10000000

/-- ITCM, DTCM, the AXI SRAM, SRAM1 to 3, SRAM4 and the backup SRAM. -/
def ramWindows : List (Word × Word) :=
  [(0, 0x10000), (dtcmBase, 0x20000), (0x24000000, 0x80000), (0x30000000, 0x48000),
    (0x38000000, 0x10000), (0x38800000, 0x1000)]

/-- RCC, PWR and the system control space, which every board has first. -/
def firstDevices : List Device :=
  [⟨0x58024400, 0x400⟩, ⟨0x58024800, 0x400⟩, ⟨scsBase, scsSize⟩]

variable {δ : Type} (b : Bus δ)

def installMemory : Bus δ :=
  (((((b.addRam 0 0x10000 (by decide)).addRam dtcmBase 0x20000 (by decide)).addRam
    0x24000000 0x80000 (by decide)).addRam 0x30000000 0x48000 (by decide)).addRam
    0x38000000 0x10000 (by decide)).addRam 0x38800000 0x1000 (by decide)

/-- The first devices, and then `more`, which depends on the board. -/
def installPeripherals (more : List Device) : Bus δ :=
  (firstDevices ++ more).foldl (fun b d => b.addDevice d.base d.size) b

theorem installPeripherals_eq (more : List Device) :
    installPeripherals b more = { b with devs := b.devs ++ (firstDevices ++ more) } := by
  rw [installPeripherals]
  induction firstDevices ++ more generalizing b with
  | nil =>
      rw [List.append_nil]
      rfl
  | cons d ds ih =>
      rw [List.foldl_cons, ih, Bus.addDevice]
      simp only [List.append_assoc, List.singleton_append]

end Soc

open Soc

/-- The memory map of an SP with its flash installed. No device is among the code. -/
structure Board {ρ : Type} (b : Bus (SpDevices ρ)) : Prop where
  rams : b.rams.map Ram.window = ramWindows
  devs : ∃ more, b.devs = firstDevices ++ more
  above : ∀ d ∈ b.devs, codeEnd ≤ d.base
  flash : b.flash.isSome
  rotFlash : b.rotFlash = none
  rom : b.romEnabled = false
  secureAlias : b.secureAlias = false

namespace Board

open Bus

variable {ρ : Type} {b b' : Bus (SpDevices ρ)}

theorem mono (h : Board b) (hs : SameMap b b') : Board b' where
  rams := hs.rams.trans h.rams
  devs := by rw [hs.devs]; exact h.devs
  above := by rw [hs.devs]; exact h.above
  flash := hs.windows.flash.trans h.flash
  rotFlash := by
    rw [← Option.not_isSome_iff_eq_none, hs.windows.rotFlash, h.rotFlash]
    exact nofun
  rom := hs.windows.romEnabled.trans h.rom
  secureAlias := hs.windows.secureAlias.trans h.secureAlias

theorem fold_eq (h : Board b) (a : Word) : b.fold a = a := by
  rw [fold, h.secureAlias]
  rfl

/-- The addresses of the windows that the bus serves itself, RAM apart. -/
def ownWindow (a : Word) : Bool :=
  within flashWinLo flashWinHi a || within flashRegLo flashRegHi a || within nvicLo nvicHi a ||
    alignWord a == scbIcsr || alignWord a == scbAircr || within ethBase ethEnd a

theorem isOpen (h : Board b) {a : Word} (ha : ownWindow a = false) : b.Open a := by
  simp only [ownWindow, Bool.or_eq_false_iff, beq_eq_false_iff_ne] at ha
  obtain ⟨⟨⟨⟨⟨hflash, hregs⟩, hnvic⟩, hicsr⟩, hair⟩, heth⟩ := ha
  constructor
  · exact h.fold_eq a
  · rw [flashWin, hflash]
    rfl
  · rw [flashRegs, hregs]
    rfl
  · rw [rotFlashWin, h.rotFlash, ite_self]
  · rw [rotFlashRegs, h.rotFlash, ite_self]
  · rw [h.rom]
    rfl
  · exact hnvic
  · exact hicsr
  · exact hair
  · exact heth

/-- The addresses of the system control space that no window before the device list takes. -/
def inScs (a : Word) : Bool :=
  within scsBase (scsBase + scsSize) a && !ownWindow a

/-- No RAM region is near the system control space. -/
theorem ramFor_scs (h : Board b) {a : Word} (hin : within scsBase (scsBase + scsSize) a = true) :
    ramFor b.rams a 4 = none := by
  rw [← Option.not_isSome_iff_eq_none, isSome_ramFor, h.rams]
  rw [within_iff] at hin
  have hlo : 0xE000E000 ≤ a.toNat := hin.1
  have hhi : a.toNat < 0xE000F000 := hin.2
  -- the last region ends far below
  simp only [ramWindows, dtcmBase, List.any_cons, List.any_nil, Bool.or_false, Bool.or_eq_true,
    Bool.and_eq_true, decide_eq_true_eq]
  bv_omega

theorem devFor_scs (h : Board b) {a : Word} (hin : within scsBase (scsBase + scsSize) a = true) :
    devFor a 0 b.devs = some (SpDevices.scsIndex, a - scsBase) := by
  obtain ⟨more, hdevs⟩ := h.devs
  -- RCC and PWR come first and end below it
  rw [hdevs, firstDevices, List.cons_append, List.cons_append, List.cons_append, devFor,
    within_of_disjoint hin (Or.inr (by decide)), if_neg nofun, devFor,
    within_of_disjoint hin (Or.inr (by decide)), if_neg nofun, devFor, if_pos hin]
  rfl

variable [Mmio ρ]

theorem tim5_scs {a : Word} (hin : within scsBase (scsBase + scsSize) a = true) :
    within tim5BaseAddr tim5End a = false :=
  within_of_disjoint hin (Or.inr (by decide))

/-- A word write in the system control space. -/
theorem write32_scs (h : Board b) {a : Word} (ha : inScs a = true) (v : Word) :
    b.write32 a v = some { b with
      mmio := { b.mmio with scs := b.mmio.scs.write (alignWord (a - scsBase)) v }
      devTouched := true } := by
  simp only [inScs, Bool.and_eq_true, Bool.not_eq_true'] at ha
  rw [write32, write32N, write32With_of_open (h.isOpen ha.2), writeMemory, h.ramFor_scs ha.1,
    tim5_scs ha.1, h.devFor_scs ha.1]
  rfl

/-- A word read in the system control space. -/
theorem read32_scs (h : Board b) {a : Word} (ha : inScs a = true) :
    b.read32 a =
      some (b.mmio.scs.read (alignWord (a - scsBase)), { b with devTouched := true }) := by
  simp only [inScs, Bool.and_eq_true, Bool.not_eq_true'] at ha
  rw [read32_of_open (h.isOpen ha.2), readMemory, h.ramFor_scs ha.1, tim5_scs ha.1,
    h.devFor_scs ha.1]
  rfl

omit [Mmio ρ] in
/-- The first words of the DTCM are served from RAM. -/
theorem served_dtcm (h : Board b) : b.Served 4 dtcmBase := by
  refine served_of_ramFor (by decide) (h.isOpen (by decide)) ?_ (by decide)
  rw [isSome_ramFor, h.rams]
  decide

/-- A word read in the flash aperture. -/
theorem read32_flash (h : Board b) {a : Word} {f : Flash} (hf : b.flash = some f)
    (ha : within flashWinLo flashWinHi a = true) :
    ∃ v, f.readMem32 a = some v ∧ b.read32 a = some (v, b) := by
  have hwin : b.flashWin a = some f := by rw [flashWin, if_pos ha, hf]
  obtain ⟨v, hv⟩ := Option.isSome_iff_exists.mp (isSome_flashRead b hwin).1
  refine ⟨v, hv, ?_⟩
  simp only [read32, h.fold_eq, hwin, hv, Option.map_some]

omit [Mmio ρ] in
/-- What `setup` installs is a board. -/
theorem of_install (m : SpDevices ρ) {more : List Device} (f : Flash)
    (hmore : ∀ d ∈ more, codeEnd ≤ d.base) :
    Board ((installPeripherals (installMemory (Bus.new m)) more).installFlash f) := by
  rw [installPeripherals_eq]
  refine ⟨rfl, ⟨more, rfl⟩, fun d hd => ?_, rfl, rfl, rfl, rfl⟩
  have hd : d ∈ firstDevices ++ more := hd
  rcases List.mem_append.mp hd with hfirst | hrest
  · have hall : ∀ d ∈ firstDevices, codeEnd ≤ d.base := by
      simp only [firstDevices, List.forall_mem_cons]
      exact ⟨by decide, by decide, by decide, nofun⟩
    exact hall d hfirst
  · exact hmore d hrest

end Board

/-! ## Halfwords of the code -/

namespace Bus

section Code

variable {ρ : Type} {b b' : Bus (SpDevices ρ)}

/-- The halfword at an address of the code. -/
def codeHalf (b : Bus (SpDevices ρ)) (a : Word) : Half :=
  match b.flashWin a with
  | some f => (f.readMem16 a).getD 0
  | none =>
      if (ramFor b.rams a 2).isSome then ((loadRam b.rams a 2).getD 0).setWidth 16
      else (((loadRam b.rams (alignWord a) 4).getD 0) >>> (8 * (a &&& 2).toNat)).setWidth 16

/-- Equal cells read equal. -/
theorem codeHalf_congr {C : Cell → Prop} (h : Keeps C b b') {a : Word}
    (hC : ∀ c, HalfCell b a c → C c) : b'.codeHalf a = b.codeHalf a := by
  cases hf : b.flashWin a with
  | some f =>
      obtain ⟨f', hf', hflash, hflash', hphys⟩ := h.window hf
      have hwin' : b'.flashWin a = some f' := hf'
      -- each byte that the window reads is a cell of the halfword
      have hbytes : f'.readMem16 a = f.readMem16 a := by
        simp only [Flash.readMem16, Flash.readBytes, hphys]
        split
        · refine congrArg some ?_
          refine congrArg (BitVec.setWidth 16) (leWord_congr fun i hi => ?_)
          split
          · exact h.nvm (hC (.nvm _) ⟨f, hf, by omega, by omega⟩) hflash hflash'
          · rfl
        · rfl
      simp only [codeHalf, hf, hwin', hbytes]
  | none =>
      have hnone := h.flashWin_none hf
      simp only [codeHalf, hf, hnone, h.ramFor_isSome]
      -- a halfword that no region has is taken out of the word around it
      by_cases hram : (ramFor b.rams a 2).isSome
      · rw [if_pos hram, if_pos hram, h.ram (by decide) fun x hlo hhi => hC (.ram x) ⟨hf, ?_⟩]
        rw [if_pos hram]
        exact ⟨hlo, hhi⟩
      · rw [if_neg hram, if_neg hram, h.ram (by decide) fun x hlo hhi => hC (.ram x) ⟨hf, ?_⟩]
        rw [if_neg hram]
        exact ⟨hlo, hhi⟩

end Code

end Bus

namespace Board

open Bus

variable {ρ : Type} [Mmio ρ] {b : Bus (SpDevices ρ)}

omit [Mmio ρ] in
/-- No device is among the code. -/
theorem devFor_code (h : Board b) {a : Word} (ha : a < codeEnd) : devFor a 0 b.devs = none := by
  have habove := h.above
  generalize (0 : Nat) = i
  generalize b.devs = devs at habove
  -- the positions of the devices do not matter
  induction devs generalizing i with
  | nil => rfl
  | cons d ds ih =>
      rw [List.forall_mem_cons] at habove
      have hout : within d.base (d.base + d.size) a = false :=
        within_eq_false_iff.mpr (Or.inl (Nat.lt_of_lt_of_le ha habove.1))
      rw [devFor, hout]
      exact ih (i + 1) habove.2

/-- Below the devices a word outside the flash is read from RAM, or reads 0. -/
theorem read32_code (h : Board b) {a : Word} (ha : a < codeEnd)
    (hflash : within flashWinLo flashWinHi a = false) :
    b.read32 a = some ((loadRam b.rams a 4).getD 0, b) := by
  have hcode : within 0 codeEnd a = true := within_iff.mpr ⟨BitVec.le_def.mpr (Nat.zero_le _), ha⟩
  have halign : (alignWord a).toNat < 0x10000000 := by
    rw [toNat_alignWord]
    have : a.toNat < 0x10000000 := ha
    omega
  have hne : ∀ c : Word, 0x10000000 ≤ c.toNat → alignWord a ≠ c := by
    rintro c hc rfl
    omega
  -- all windows of the bus but the flash aperture are above the code
  have hopen : b.Open a := h.isOpen (by
    simp only [ownWindow, hflash,
      within_of_disjoint hcode (Or.inl (by decide : codeEnd ≤ flashRegLo)),
      within_of_disjoint hcode (Or.inl (by decide : codeEnd ≤ nvicLo)),
      within_of_disjoint hcode (Or.inl (by decide : codeEnd ≤ ethBase)),
      beq_eq_false_iff_ne.mpr (hne scbIcsr (by decide)),
      beq_eq_false_iff_ne.mpr (hne scbAircr (by decide)), Bool.or_self])
  rw [read32_of_open hopen, readMemory]
  cases hram : ramFor b.rams a 4 with
  | some r =>
      have hload := (isSome_load_iff (by decide : 4 ≤ 4) hram).mpr fun hover => by
        have : a.toNat < 0x10000000 := ha
        have := hover.1
        omega
      obtain ⟨v, hv⟩ := Option.isSome_iff_exists.mp hload
      rw [loadRam, show ramFor b.rams a (BitVec.ofNat 32 4) = some r from hram]
      simp only [Option.bind_some, hv, Option.map_some, Option.getD_some]
  -- no region and no device: the read returns 0
  | none =>
      rw [loadRam, show ramFor b.rams a (BitVec.ofNat 32 4) = none from hram,
        within_of_disjoint hcode (Or.inl (by decide : codeEnd ≤ tim5BaseAddr)), h.devFor_code ha]
      rfl

/-- A halfword of the code is read without a side effect. -/
theorem read16_code (h : Board b) {a : Word} (ha : a < codeEnd) :
    b.read16 a = some (b.codeHalf a, b) := by
  obtain ⟨f, hf⟩ := Option.isSome_iff_exists.mp h.flash
  simp only [read16, h.fold_eq, codeHalf]
  cases hwin : b.flashWin a with
  | some f =>
      obtain ⟨v, hv⟩ := Option.isSome_iff_exists.mp (isSome_flashRead b hwin).2.1
      simp only [hv, Option.map_some, Option.getD_some]
  | none =>
      have hrot : b.rotFlashWin a = none := by rw [rotFlashWin, h.rotFlash, ite_self]
      simp only [hrot]
      cases hram : ramFor b.rams a 2 with
      | some r =>
          have hload := (isSome_load_iff (by decide : 2 ≤ 4) hram).mpr fun hover => by
            have : a.toNat < 0x10000000 := ha
            have := hover.1
            omega
          obtain ⟨v, hv⟩ := Option.isSome_iff_exists.mp hload
          rw [loadRam, show ramFor b.rams a (BitVec.ofNat 32 2) = some r from hram]
          simp only [Option.bind_some, hv, Option.map_some, Option.getD_some, Option.isSome_some,
            if_true]
      -- the halfword straddles a region's end, or no region has it
      | none =>
          have halign : alignWord a < codeEnd := by
            have hlt : a.toNat < 0x10000000 := ha
            rw [BitVec.lt_def, toNat_alignWord]
            exact Nat.lt_of_le_of_lt (Nat.div_mul_le_self _ _) hlt
          have hout : within flashWinLo flashWinHi (alignWord a) = false := by
            have hnot : within flashWinLo flashWinHi a = false := by
              by_contra hin
              rw [flashWin, if_pos (by simpa using hin), hf] at hwin
              cases hwin
            have hlo : flashWinLo.toNat = 0x08000000 := rfl
            have hhi : flashWinHi.toNat = 0x08200000 := rfl
            rw [within_eq_false_iff, BitVec.lt_def, BitVec.le_def] at hnot ⊢
            rw [toNat_alignWord]
            omega
          rw [h.read32_code halign hout]
          rfl

end Board

end SpEmu
