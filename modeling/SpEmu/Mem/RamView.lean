import SpEmu.Mem.Dispatch

/-!
# RAM as the bus serves it

An address is `Open` when no window that the bus tries before RAM takes it. At an open
address the accesses are loads and stores of the region list, and `loadRam` is what they
read: `loadRam_store` and `loadRam_store_of_disjoint` are the two laws of a store, whatever
the order and the overlap of the regions.

`Holds b k a v` says that the `k` bytes at `a` are served from RAM and read `v`; the lemmas
about it are what later modules use.
-/

set_option autoImplicit false

namespace SpEmu

open ByteMem Mem

/-! ## Address windows -/

namespace Mem

theorem within_iff {lo hi a : Word} : within lo hi a = true ↔ lo ≤ a ∧ a < hi := by
  simp [within]

theorem within_eq_false_iff {lo hi a : Word} :
    within lo hi a = false ↔ a < lo ∨ hi ≤ a := by
  rw [← Bool.not_eq_true, within_iff]
  simp only [BitVec.le_def, BitVec.lt_def]
  omega

theorem within_of_disjoint {lo hi lo' hi' a : Word} (h : within lo hi a = true)
    (hd : hi ≤ lo' ∨ hi' ≤ lo) : within lo' hi' a = false := by
  rw [within_iff] at h
  rw [within_eq_false_iff]
  simp only [BitVec.le_def, BitVec.lt_def] at h hd ⊢
  omega

end Mem

/-- Outside its two windows the boot ROM answers nothing. -/
theorem Romapi.romRead32_eq_none {a : Word}
    (h₁ : within lpc55RomTable (lpc55RomTable + 0x40) a = false)
    (h₂ : within lpc55BootRom (lpc55BootRom + lpc55BootRomSize) a = false) :
    romRead32 a = none := by
  have hptr : a ≠ skbootPtrAddr := by
    rintro rfl
    revert h₁
    decide
  have hfns : a ≠ skbootFnsAddr := by
    rintro rfl
    revert h₂
    decide
  have hirq : a ≠ skbootFnsAddr + 4 := by
    rintro rfl
    revert h₂
    decide
  simp only [romRead32, if_neg hptr, if_neg hfns, if_neg hirq, h₁, h₂]
  rfl

/-! ## The region list -/

/-- What a `k`-byte read finds in the regions. -/
def loadRam (rams : List Ram) (a : Word) (k : Nat) : Option Word :=
  (ramFor rams a (BitVec.ofNat 32 k)).bind fun r => r.1.data.load k r.2

theorem ramFor_cons (r : Ram) (rs : List Ram) (a len : Word) :
    ramFor (r :: rs) a len =
      if r.covers a len then some (r, (a - r.base).toNat) else ramFor rs a len := by
  simp only [ramFor, List.find?_cons]
  cases r.covers a len with
  | true => rfl
  | false => rfl

theorem loadRam_cons (r : Ram) (rs : List Ram) (a : Word) (k : Nat) :
    loadRam (r :: rs) a k =
      if r.covers a (BitVec.ofNat 32 k) then r.data.load k (a - r.base).toNat
      else loadRam rs a k := by
  rw [loadRam, ramFor_cons]
  split
  · rfl
  · rfl

@[simp] theorem Ram.covers_withData (r : Ram) (data : Bytes r.size.toNat) (a len : Word) :
    Ram.covers { r with data := data } a len = r.covers a len := rfl

theorem covers_base_le {r : Ram} {a len : Word} (h : r.covers a len = true) :
    r.base.toNat ≤ a.toNat := by
  simp only [Ram.covers, Bool.and_eq_true, decide_eq_true_eq, BitVec.le_def] at h
  exact h.1

theorem toNat_offset {a base : Word} (h : base.toNat ≤ a.toNat) :
    (a - base).toNat = a.toNat - base.toNat :=
  BitVec.toNat_sub_of_le h

/-- A store leaves alone what lies outside its bytes. -/
theorem loadRam_store_of_disjoint {rams rams' : List Ram} {a : Word} {k : Nat} {v : Word}
    (h : storeRam a k v rams = some rams') {a' : Word} {k' : Nat}
    (hd : a'.toNat + k' ≤ a.toNat ∨ a.toNat + k ≤ a'.toNat) :
    loadRam rams' a' k' = loadRam rams a' k' := by
  induction rams generalizing rams' with
  | nil =>
      cases h
      rfl
  | cons r rs ih =>
      rw [storeRam] at h
      split at h
      · next hcov =>
          obtain ⟨data, hdata, heq⟩ := Option.bind_eq_some_iff.mp h
          cases heq
          rw [loadRam_cons, loadRam_cons, Ram.covers_withData]
          cases hcov' : r.covers a' (BitVec.ofNat 32 k') with
          | false => rfl
          | true =>
              -- The same region serves both, at offsets that do not meet.
              have hle := covers_base_le hcov
              have hle' := covers_base_le hcov'
              have ho := toNat_offset hle
              have ho' := toNat_offset hle'
              show data.load k' (a' - r.base).toNat = r.data.load k' (a' - r.base).toNat
              apply Bytes.load_congr
              intro i hi
              exact Bytes.get_of_store hdata (by omega)
      · obtain ⟨rs', hrs, heq⟩ := Option.map_eq_some_iff.mp h
        cases heq
        rw [loadRam_cons, loadRam_cons]
        split
        · rfl
        · exact ih hrs

/-- A store is read back. -/
theorem loadRam_store {rams rams' : List Ram} {a : Word} {k : Nat} {v : Word}
    (h : storeRam a k v rams = some rams')
    (hram : (ramFor rams a (BitVec.ofNat 32 k)).isSome) :
    loadRam rams' a k = some (leWord k (byteOf v)) := by
  induction rams generalizing rams' with
  | nil => cases hram
  | cons r rs ih =>
      rw [ramFor_cons] at hram
      rw [storeRam] at h
      split at h
      · next hcov =>
          obtain ⟨data, hdata, heq⟩ := Option.bind_eq_some_iff.mp h
          cases heq
          rw [loadRam_cons, if_pos ((Ram.covers_withData r data _ _).trans hcov),
            Bytes.load_eq_some_iff]
          refine ⟨(Bytes.store_eq_some_iff.mp hdata).1, leWord_congr fun i hi => ?_⟩
          exact Bytes.get_of_store_mem hdata hi
      · next hcov =>
          obtain ⟨rs', hrs, heq⟩ := Option.map_eq_some_iff.mp h
          cases heq
          rw [if_neg hcov] at hram
          rw [loadRam_cons, if_neg hcov]
          exact ih hrs hram

/-- Where a read succeeds, so does a store of the same width. -/
theorem isSome_storeRam {rams : List Ram} {a : Word} {k : Nat} (v : Word)
    (h : (loadRam rams a k).isSome) : (storeRam a k v rams).isSome := by
  induction rams with
  | nil => rfl
  | cons r rs ih =>
      rw [loadRam_cons] at h
      rw [storeRam]
      split at h
      · next hcov =>
          rw [if_pos hcov]
          obtain ⟨data, hdata⟩ := Option.isSome_iff_exists.mp
            ((Bytes.isSome_store (v := v)).mpr (Bytes.isSome_load.mp h))
          rw [hdata]
          rfl
      · next hcov =>
          rw [if_neg hcov, Option.isSome_map]
          exact ih h

theorem isSome_ramFor_of_load {rams : List Ram} {a : Word} {k : Nat}
    (h : (loadRam rams a k).isSome) : (ramFor rams a (BitVec.ofNat 32 k)).isSome := by
  rw [loadRam] at h
  cases hram : ramFor rams a (BitVec.ofNat 32 k) with
  | none =>
      rw [hram] at h
      cases h
  | some r => rfl

theorem isSome_loadRam_store {rams rams' : List Ram} {a : Word} {k : Nat} {v : Word}
    (h : storeRam a k v rams = some rams') (a' : Word) (k' : Nat) :
    (loadRam rams' a' k').isSome = (loadRam rams a' k').isSome := by
  induction rams generalizing rams' with
  | nil =>
      cases h
      rfl
  | cons r rs ih =>
      rw [storeRam] at h
      split at h
      · obtain ⟨data, -, heq⟩ := Option.bind_eq_some_iff.mp h
        cases heq
        rw [loadRam_cons, loadRam_cons, Ram.covers_withData]
        cases r.covers a' (BitVec.ofNat 32 k') with
        | false => rfl
        | true => exact Bool.eq_iff_iff.mpr (Bytes.isSome_load.trans Bytes.isSome_load.symm)
      · obtain ⟨rs', hrs, heq⟩ := Option.map_eq_some_iff.mp h
        cases heq
        rw [loadRam_cons, loadRam_cons]
        split
        · rfl
        · exact ih hrs

namespace Bus

variable {δ : Type} {b b' : Bus δ} {a : Word} {k : Nat} {v : Word}

/-! ## Open addresses -/

/-- No window that the bus tries before RAM takes an access at `a`. -/
structure Open (b : Bus δ) (a : Word) : Prop where
  fold : b.fold a = a
  flash : b.flashWin a = none
  flashRegs : b.flashRegs a = none
  rot : b.rotFlashWin a = none
  rotRegs : b.rotFlashRegs a = none
  rom : (if b.romEnabled then Romapi.romRead32 (alignWord a) else none) = none
  nvic : within nvicLo nvicHi a = false
  icsr : alignWord a ≠ scbIcsr
  aircr : alignWord a ≠ scbAircr
  eth : within ethBase ethEnd a = false

/-- The parts of the bus that decide which window takes an address, RAM and devices
apart. -/
structure SameWindows (b b' : Bus δ) : Prop where
  secureAlias : b'.secureAlias = b.secureAlias
  romEnabled : b'.romEnabled = b.romEnabled
  flash : b'.flash.isSome = b.flash.isSome
  rotFlash : b'.rotFlash.isSome = b.rotFlash.isSome

theorem SameWindows.rfl' : SameWindows b b := ⟨rfl, rfl, rfl, rfl⟩

theorem SameWindows.trans {b'' : Bus δ} (h : SameWindows b b') (h' : SameWindows b' b'') :
    SameWindows b b'' :=
  ⟨h'.1.trans h.1, h'.2.trans h.2, h'.3.trans h.3, h'.4.trans h.4⟩

theorem SameWindows.fold (h : SameWindows b b') (a : Word) : b'.fold a = b.fold a := by
  simp only [Bus.fold, h.secureAlias]

theorem isNone_window {α : Type} {o o' : Option α} {c : Bool} (ho : o'.isSome = o.isSome)
    (h : (if c then o else none) = none) : (if c then o' else none) = none := by
  cases c with
  | false => rfl
  | true =>
      cases o with
      | none =>
          cases o' with
          | none => rfl
          | some x => cases ho
      | some x => cases h

theorem Open.mono (h : b.Open a) (hw : SameWindows b b') : b'.Open a where
  fold := (hw.fold a).trans h.fold
  flash := isNone_window hw.flash h.flash
  flashRegs := isNone_window hw.flash h.flashRegs
  rot := isNone_window hw.rotFlash h.rot
  rotRegs := isNone_window hw.rotFlash h.rotRegs
  rom := by rw [hw.romEnabled]; exact h.rom
  nvic := h.nvic
  icsr := h.icsr
  aircr := h.aircr
  eth := h.eth

variable [Mmio δ]

theorem read32_of_open (h : b.Open a) : b.read32 a = b.readMemory a := by
  simp only [read32, h.fold, h.flash, h.flashRegs, h.rot, h.rotRegs, readSystem, h.rom, nvicReadWin,
    h.nvic, h.eth, if_neg h.icsr, Bool.false_eq_true, if_false, Option.bind_eq_bind,
    Option.bind_some]

theorem write32With_of_open (h : b.Open a) (walk : Bus δ → Option (Bus δ)) (v : Word) :
    b.write32With walk a v = b.writeMemory a v := by
  have hair : ¬ (alignWord a = scbAircr ∧ v &&& 0xFFFF0000 = aircrVectkey ∧
      v &&& ((1 : Word) <<< 2) ≠ 0) := fun hc => h.aircr hc.1
  simp only [write32With, h.fold, h.flash, h.flashRegs, h.rot, h.rotRegs, writeSystem,
    nvicWriteWin, h.nvic, h.eth, if_neg h.icsr, if_neg hair, Bool.false_eq_true, if_false,
    Option.bind_eq_bind,
    Option.bind_some]

/-! ## Reads leave the bus alone -/

/-- The two states differ at most in the devices and in the mark that one was touched. -/
def OnlyDevices (b b' : Bus δ) : Prop :=
  b' = { b with mmio := b'.mmio, devTouched := b'.devTouched }

omit [Mmio δ] in
theorem OnlyDevices.same (b : Bus δ) : OnlyDevices b b := rfl

omit [Mmio δ] in
theorem OnlyDevices.trans {b'' : Bus δ} (h : OnlyDevices b b') (h' : OnlyDevices b' b'') :
    OnlyDevices b b'' := by
  rw [OnlyDevices] at h h' ⊢
  rw [h', h]

omit [Mmio δ] in
theorem onlyDevices_of_map {α : Type} {o : Option α} {r : α × Bus δ}
    (h : o.map (·, b) = some r) : OnlyDevices b r.2 := by
  obtain ⟨v, -, heq⟩ := Option.map_eq_some_iff.mp h
  rw [← heq]
  exact OnlyDevices.same b

theorem readMemory_only {r : Word × Bus δ} (h : b.readMemory a = some r) :
    OnlyDevices b r.2 := by
  rw [readMemory] at h
  split at h
  · exact onlyDevices_of_map h
  · split at h
    · split at h
      · cases h
        exact OnlyDevices.same b
      · exact onlyDevices_of_map h
    · split at h
      · cases h
        rfl
      · cases h
        exact OnlyDevices.same b

theorem readSystem_only {r : Word × Bus δ} (h : b.readSystem a = some r) :
    OnlyDevices b r.2 := by
  rw [readSystem] at h
  split at h
  · cases h
    exact OnlyDevices.same b
  · obtain ⟨o, -, h⟩ := Option.bind_eq_some_iff.mp h
    cases o with
    | some v =>
        cases h
        exact OnlyDevices.same b
    | none =>
        simp only at h
        split at h
        · cases h
          exact OnlyDevices.same b
        · split at h
          · cases h
            exact OnlyDevices.same b
          · exact readMemory_only h

theorem read32_only {r : Word × Bus δ} (h : b.read32 a = some r) : OnlyDevices b r.2 := by
  simp only [read32] at h
  split at h
  · exact onlyDevices_of_map h
  · split at h
    · cases h
      exact OnlyDevices.same b
    · split at h
      · exact onlyDevices_of_map h
      · split at h
        · cases h
          exact OnlyDevices.same b
        · exact readSystem_only h

theorem read16_only {r : Half × Bus δ} (h : b.read16 a = some r) : OnlyDevices b r.2 := by
  simp only [read16] at h
  split at h
  · exact onlyDevices_of_map h
  · split at h
    · exact onlyDevices_of_map h
    · split at h
      · obtain ⟨v, -, heq⟩ := Option.map_eq_some_iff.mp h
        rw [← heq]
        exact OnlyDevices.same b
      · obtain ⟨w, hw, heq⟩ := Option.bind_eq_some_iff.mp h
        cases heq
        exact read32_only hw

theorem read8_only {r : Byte × Bus δ} (h : b.read8 a = some r) : OnlyDevices b r.2 := by
  simp only [read8] at h
  split at h
  · exact onlyDevices_of_map h
  · split at h
    · exact onlyDevices_of_map h
    · split at h
      · obtain ⟨v, -, heq⟩ := Option.map_eq_some_iff.mp h
        rw [← heq]
        exact OnlyDevices.same b
      · obtain ⟨w, hw, heq⟩ := Option.bind_eq_some_iff.mp h
        cases heq
        exact read32_only hw

omit [Mmio δ] in
theorem OnlyDevices.windows (h : OnlyDevices b b') : SameWindows b b' := by
  rw [OnlyDevices] at h
  rw [h]
  exact ⟨rfl, rfl, rfl, rfl⟩

omit [Mmio δ] in
theorem OnlyDevices.rams (h : OnlyDevices b b') : b'.rams = b.rams := by
  rw [OnlyDevices] at h
  rw [h]

omit [Mmio δ] in
theorem OnlyDevices.eth (h : OnlyDevices b b') : b'.eth = b.eth := by
  rw [OnlyDevices] at h
  rw [h]

/-! ## What a word write does -/

/-- The state after a write of `v` at the folded address `a`, by the window that takes it.
`r` is the reset request, which AIRCR can raise on the way to the windows below it. -/
inductive Wrote (b : Bus δ) (walk : Bus δ → Option (Bus δ)) (a v : Word) : Bus δ → Prop where
  | flash {f : Flash} (h : b.flashWin a = some f) :
      Wrote b walk a v { b with flash := some (f.writeMem a v 4) }
  | flashReg {f f' : Flash} (h : b.flashRegs a = some f)
      (hw : f.regWrite (alignWord a - flashRegLo) v = some f') :
      Wrote b walk a v { b with flash := some f' }
  | rotFlash {f : RotFlash} (h : b.rotFlashWin a = some f) :
      Wrote b walk a v { b with rotFlash := some (f.writeMem a v 4) }
  | rotReg {f f' : RotFlash} (h : b.rotFlashRegs a = some f)
      (hw : f.regWrite (alignWord a - rotFlashRegLo) v = some f') :
      Wrote b walk a v { b with rotFlash := some f' }
  | nvic (en pend : Table 8 Word) (prio : Table 256 Byte) (h : within nvicLo nvicHi a = true) :
      Wrote b walk a v { b with nvicEn := en, nvicPend := pend, nvicPrio := prio }
  | icsr (p : Bool) (h : alignWord a = scbIcsr) :
      Wrote b walk a v { b with pendPendsv := p }
  | eth {b' : Bus δ} (r : Bool) (h : within ethBase ethEnd a = true)
      (hw : ({ b with resetPending := r } : Bus δ).ethWrite walk (a - ethBase) v = some b') :
      Wrote b walk a v b'
  | memory {b' : Bus δ} (r : Bool) (hf : b.flashWin a = none) (hr : b.rotFlashWin a = none)
      (hw : ({ b with resetPending := r } : Bus δ).writeMemory a v = some b') :
      Wrote b walk a v b'

omit [Mmio δ] in
theorem nvicWrite_cases {c : Bus δ} (h : b.nvicWrite a v = some (some c)) :
    ∃ en pend prio, c = { b with nvicEn := en, nvicPend := pend, nvicPrio := prio } := by
  rw [nvicWrite] at h
  split at h
  · obtain ⟨t, -, heq⟩ := Option.map_eq_some_iff.mp h
    exact ⟨t, b.nvicPend, b.nvicPrio, (Option.some.inj heq).symm⟩
  · split at h
    · obtain ⟨t, -, heq⟩ := Option.map_eq_some_iff.mp h
      exact ⟨t, b.nvicPend, b.nvicPrio, (Option.some.inj heq).symm⟩
    · split at h
      · obtain ⟨t, -, heq⟩ := Option.map_eq_some_iff.mp h
        exact ⟨b.nvicEn, t, b.nvicPrio, (Option.some.inj heq).symm⟩
      · split at h
        · obtain ⟨t, -, heq⟩ := Option.map_eq_some_iff.mp h
          exact ⟨b.nvicEn, t, b.nvicPrio, (Option.some.inj heq).symm⟩
        · split at h
          · obtain ⟨t, -, heq⟩ := Option.bind_eq_some_iff.mp h
            exact ⟨b.nvicEn, b.nvicPend, t, (Option.some.inj (Option.some.inj heq)).symm⟩
          · cases h

theorem wrote_of_writeSystem {walk : Bus δ → Option (Bus δ)} (hf : b.flashWin a = none)
    (hr : b.rotFlashWin a = none) (h : b.writeSystem walk a v = some b') :
    Wrote b walk a v b' := by
  rw [writeSystem] at h
  obtain ⟨o, ho, h⟩ := Option.bind_eq_some_iff.mp h
  cases o with
  | some c =>
      cases h
      rw [nvicWriteWin] at ho
      split at ho
      · next hin =>
          obtain ⟨en, pend, prio, rfl⟩ := nvicWrite_cases ho
          exact .nvic en pend prio hin
      · cases ho
  | none =>
      simp only at h
      split at h
      · -- ICSR sets or clears PendSV, or does neither
        next hicsr =>
          obtain rfl := Option.some.inj h
          split
          · split
            · exact .icsr false hicsr
            · exact .icsr false hicsr
          · split
            · exact .icsr true hicsr
            · exact .icsr b.pendPendsv hicsr
      · -- The reset request is raised, or it stays as it was.
        have hreq : ∃ r, (if alignWord a = scbAircr ∧ v &&& 0xFFFF0000 = aircrVectkey ∧
            v &&& ((1 : Word) <<< 2) ≠ 0 then { b with resetPending := true } else b) =
            { b with resetPending := r } := by
          split
          · exact ⟨true, rfl⟩
          · exact ⟨b.resetPending, rfl⟩
        obtain ⟨r, hr'⟩ := hreq
        rw [hr'] at h
        split at h
        · next hin => exact .eth r hin h
        · exact .memory r hf hr h

theorem wrote_of_write32With {walk : Bus δ → Option (Bus δ)}
    (h : b.write32With walk a v = some b') : Wrote b walk (b.fold a) v b' := by
  simp only [write32With] at h
  split at h
  · next hf =>
      cases h
      exact .flash hf
  · next hf =>
      split at h
      · next hreg =>
          obtain ⟨f, hw, heq⟩ := Option.bind_eq_some_iff.mp h
          cases heq
          exact .flashReg hreg hw
      · split at h
        · next hr =>
            cases h
            exact .rotFlash hr
        · next hr =>
            split at h
            · next hreg =>
                obtain ⟨f, hw, heq⟩ := Option.bind_eq_some_iff.mp h
                cases heq
                exact .rotReg hreg hw
            · exact wrote_of_writeSystem hf hr h

theorem writeMemory_cases (h : b.writeMemory a v = some b') :
    (∃ rams, storeRam a 4 v b.rams = some rams ∧ b' = { b with rams := rams }) ∨
      (∃ t regs, b' = { b with tim5Base := t, tim5Regs := regs }) ∨ OnlyDevices b b' := by
  rw [writeMemory] at h
  split at h
  · obtain ⟨rams, hrams, heq⟩ := Option.map_eq_some_iff.mp h
    exact Or.inl ⟨rams, hrams, heq.symm⟩
  · split at h
    · refine Or.inr (Or.inl ?_)
      split at h
      · exact ⟨_, b.tim5Regs, (Option.some.inj h).symm⟩
      · split at h
        · obtain rfl := Option.some.inj h
          split
          · exact ⟨_, b.tim5Regs, rfl⟩
          · exact ⟨b.tim5Base, b.tim5Regs, rfl⟩
        · obtain ⟨t, -, heq⟩ := Option.bind_eq_some_iff.mp h
          exact ⟨b.tim5Base, t, (Option.some.inj heq).symm⟩
    · refine Or.inr (Or.inr ?_)
      split at h
      · obtain rfl := Option.some.inj h
        rfl
      · obtain rfl := Option.some.inj h
        exact OnlyDevices.same b

/-! ## Words in RAM -/

/-- The `k` bytes at `a` are served from RAM and read `v`. -/
structure Holds (b : Bus δ) (k : Nat) (a v : Word) : Prop where
  isOpen : b.Open a
  load : loadRam b.rams a k = some v

/-- The `k` bytes at `a` are served from RAM. -/
structure Served (b : Bus δ) (k : Nat) (a : Word) : Prop where
  isOpen : b.Open a
  load : (loadRam b.rams a k).isSome

omit [Mmio δ] in
theorem Holds.served (h : b.Holds k a v) : b.Served k a :=
  ⟨h.isOpen, by rw [h.load]; rfl⟩

omit [Mmio δ] in
theorem Served.holds (h : b.Served k a) : ∃ v, b.Holds k a v := by
  obtain ⟨v, hv⟩ := Option.isSome_iff_exists.mp h.load
  exact ⟨v, h.isOpen, hv⟩

omit [Mmio δ] in
theorem ramFor_of_load {rams : List Ram} (h : loadRam rams a k = some v) :
    ∃ r, ramFor rams a (BitVec.ofNat 32 k) = some r ∧ r.1.data.load k r.2 = some v :=
  Option.bind_eq_some_iff.mp h

theorem read32_of_holds (h : b.Holds 4 a v) : b.read32 a = some (v, b) := by
  obtain ⟨r, hr, hv⟩ := ramFor_of_load h.load
  rw [read32_of_open h.isOpen, readMemory, show ramFor b.rams a 4 = some r from hr]
  simp only [hv, Option.map_some]

theorem read8_of_holds (h : b.Holds 1 a v) : b.read8 a = some (v.setWidth 8, b) := by
  obtain ⟨r, hr, hv⟩ := ramFor_of_load h.load
  simp only [read8, h.isOpen.fold, h.isOpen.flash, h.isOpen.rot,
    show ramFor b.rams a 1 = some r from hr, hv, Option.map_some]

/-- What a store in RAM does to the bus: the region list alone changes, the stored bytes read
back, and every word beside them reads as before. -/
structure Stored (b b' : Bus δ) (k : Nat) (a v : Word) : Prop where
  only : b' = { b with rams := b'.rams }
  holds : b'.Holds k a (leWord k (byteOf v))
  frame : ∀ {k' : Nat} {a' v' : Word}, b.Holds k' a' v' →
    a'.toNat + k' ≤ a.toNat ∨ a.toNat + k ≤ a'.toNat → b'.Holds k' a' v'
  served : ∀ {k' : Nat} {a' : Word}, b.Served k' a' → b'.Served k' a'

omit [Mmio δ] in
theorem stored_of_storeRam {rams : List Ram} (h : b.Served k a)
    (hs : storeRam a k v b.rams = some rams) : Stored b { b with rams := rams } k a v := by
  have hw : SameWindows b { b with rams := rams } := ⟨rfl, rfl, rfl, rfl⟩
  constructor
  · rfl
  · exact ⟨h.isOpen.mono hw, loadRam_store hs (isSome_ramFor_of_load h.load)⟩
  · intro k' a' v' hh hd
    exact ⟨hh.isOpen.mono hw, (loadRam_store_of_disjoint hs hd).trans hh.load⟩
  · intro k' a' hh
    exact ⟨hh.isOpen.mono hw, (isSome_loadRam_store hs a' k').trans hh.load⟩

theorem write32With_of_served (h : b.Served 4 a) (walk : Bus δ → Option (Bus δ)) (v : Word) :
    ∃ b', b.write32With walk a v = some b' ∧ Stored b b' 4 a v := by
  obtain ⟨rams, hs⟩ := Option.isSome_iff_exists.mp (isSome_storeRam v h.load)
  obtain ⟨r, hr⟩ := Option.isSome_iff_exists.mp (isSome_ramFor_of_load h.load)
  refine ⟨{ b with rams := rams }, ?_, stored_of_storeRam h hs⟩
  rw [write32With_of_open h.isOpen, writeMemory, show ramFor b.rams a 4 = some r from hr]
  simp only [hs, Option.map_some]

theorem write32_of_served (h : b.Served 4 a) (v : Word) :
    ∃ b', b.write32 a v = some b' ∧ Stored b b' 4 a v :=
  write32With_of_served h _ v

theorem write8_of_served (h : b.Served 1 a) (v : Byte) :
    ∃ b', b.write8 a v = some b' ∧ Stored b b' 1 a (v.setWidth 32) := by
  obtain ⟨rams, hs⟩ := Option.isSome_iff_exists.mp (isSome_storeRam (v.setWidth 32) h.load)
  obtain ⟨r, hr⟩ := Option.isSome_iff_exists.mp (isSome_ramFor_of_load h.load)
  refine ⟨{ b with rams := rams }, ?_, stored_of_storeRam h hs⟩
  simp only [write8, h.isOpen.fold, show ramFor b.rams a 1 = some r from hr, hs, Option.map_some]

omit [Mmio δ] in
theorem Stored.word (h : Stored b b' 4 a v) : b'.Holds 4 a v := by
  have hw := h.holds
  rwa [leWord_byteOf] at hw

/-! ## Stores confined to a set of addresses -/

/-- Stores to RAM inside the set `S` lead from `b` to `b'`. -/
structure Confined (S : Nat → Prop) (b b' : Bus δ) : Prop where
  only : b' = { b with rams := b'.rams }
  frame : ∀ {k : Nat} {a v : Word}, b.Holds k a v → 0 < k →
    (∀ x, a.toNat ≤ x → x < a.toNat + k → ¬ S x) → b'.Holds k a v
  served : ∀ {k : Nat} {a : Word}, b.Served k a → b'.Served k a

section Confined

variable {S T : Nat → Prop} {b'' : Bus δ}

omit [Mmio δ]

theorem Confined.refl (S : Nat → Prop) (b : Bus δ) : Confined S b b :=
  ⟨rfl, fun h _ _ => h, fun h => h⟩

theorem Confined.trans (h : Confined S b b') (h' : Confined S b' b'') : Confined S b b'' where
  only := by
    rw [h'.only, h.only]
  frame := fun hh hk hS => h'.frame (h.frame hh hk hS) hk hS
  served := fun hh => h'.served (h.served hh)

theorem Confined.mono (h : Confined S b b') (hST : ∀ x, S x → T x) : Confined T b b' where
  only := h.only
  frame := fun hh hk hT => h.frame hh hk fun x hlo hhi hS => hT x hlo hhi (hST x hS)
  served := h.served

theorem Confined.eth (h : Confined S b b') : b'.eth = b.eth := by
  rw [h.only]

theorem Stored.confined (h : Stored b b' k a v) (hk : 0 < k)
    (hS : ∀ x, a.toNat ≤ x → x < a.toNat + k → S x) : Confined S b b' where
  only := h.only
  frame := by
    intro k' a' v' hh hk' hS'
    by_cases hmeet : a'.toNat < a.toNat + k ∧ a.toNat < a'.toNat + k'
    · -- The two ranges meet at the larger of their starts.
      exact absurd (hS (max a.toNat a'.toNat) (by omega) (by omega))
        (hS' (max a.toNat a'.toNat) (by omega) (by omega))
    · exact h.frame hh (by omega)
  served := h.served

end Confined

end Bus

end SpEmu
