import SpEmu.Flash.FlashRefinement
import SpEmu.Flash.RotTotal
import SpEmu.Mem.WalkDepth

/-!
# Accesses that stay in bounds

Every slice and index behind the bus is in bounds, with three exceptions. The region check
computes the end of an access modulo 2^32, so that an access that ends at or past the top of
the address space is taken for one of a region far below (`Overrun`). A halfword at an
address that is 3 modulo 4 falls back to the word that holds its first byte, and is served
from a region that ends between its two bytes (`Straddles`). And a write can start an
erase of the RoT flash whose slice is inverted, directly or from the transmit walk.

`accessGood_iff` says that these are all: an access returns, from a region that contains all
of its bytes if it is served from RAM, exactly when it meets none of the three.
-/

set_option autoImplicit false

namespace SpEmu

open ByteMem Mem

/-! ## Regions and the top of the address space -/

/-- The `k` bytes at `a` lie in the region. -/
def Ram.Contains (r : Ram) (a : Word) (k : Nat) : Prop :=
  r.base.toNat ≤ a.toNat ∧ a.toNat + k ≤ r.base.toNat + r.size.toNat

/-- An access that ends at or past the top of the address space, and that the region check
takes for one of a region that ends before it. -/
def Overrun (rams : List Ram) (a : Word) (k : Nat) : Prop :=
  2 ^ 32 ≤ a.toNat + k ∧ ∃ r o, ramFor rams a (BitVec.ofNat 32 k) = some (r, o) ∧
    r.base.toNat + r.size.toNat < a.toNat + k

/-- The region ends between the two bytes of the halfword at `a`. -/
def Ram.Straddles (r : Ram) (a : Word) : Prop :=
  a.toNat % 4 = 3 ∧ r.base.toNat + r.size.toNat = a.toNat + 1

theorem ramFor_eq_some {rams : List Ram} {a len : Word} {r : Ram} {o : Nat}
    (h : ramFor rams a len = some (r, o)) :
    r ∈ rams ∧ r.covers a len = true ∧ o = a.toNat - r.base.toNat := by
  obtain ⟨r', hfind, heq⟩ := Option.map_eq_some_iff.mp h
  obtain ⟨rfl, rfl⟩ := Prod.mk.inj heq
  have hcov : r'.covers a len = true := by simpa using List.find?_some hfind
  exact ⟨List.mem_of_find?_eq_some hfind, hcov, toNat_offset (covers_base_le hcov)⟩

theorem covers_iff {r : Ram} {a : Word} {k : Nat} (hk : k ≤ 4) :
    r.covers a (BitVec.ofNat 32 k) = true ↔
      r.base.toNat ≤ a.toNat ∧
        (a.toNat + k) % 2 ^ 32 ≤ (r.base.toNat + r.size.toNat) % 2 ^ 32 := by
  have hlen : (BitVec.ofNat 32 k).toNat = k := by
    rw [BitVec.toNat_ofNat]
    omega
  simp only [Ram.covers, Bool.and_eq_true, decide_eq_true_eq, BitVec.le_def, BitVec.toNat_add,
    hlen]

/-- Off the top of the address space the region check is exact. -/
theorem contains_of_covers {r : Ram} {a : Word} {k : Nat} (hk : k ≤ 4)
    (h : r.covers a (BitVec.ofNat 32 k) = true) (htop : a.toNat + k < 2 ^ 32) :
    r.Contains a k := by
  obtain ⟨hbase, hend⟩ := (covers_iff hk).mp h
  have hfits := r.fits
  rw [Nat.mod_eq_of_lt htop] at hend
  rcases Nat.lt_or_eq_of_le hfits with hlt | heq
  · rw [Nat.mod_eq_of_lt hlt] at hend
    exact ⟨hbase, hend⟩
  · exact ⟨hbase, by omega⟩

theorem covers_of_contains {r : Ram} {a : Word} {k : Nat} (hk : k ≤ 4)
    (h : r.Contains a k) (hlt : r.base.toNat + r.size.toNat < 2 ^ 32) :
    r.covers a (BitVec.ofNat 32 k) = true := by
  obtain ⟨hbase, hend⟩ := h
  refine (covers_iff hk).mpr ⟨hbase, ?_⟩
  rw [Nat.mod_eq_of_lt hlt, Nat.mod_eq_of_lt (by omega)]
  exact hend

/-- The region that the check selects contains the access, unless the access overruns. -/
theorem contains_iff_not_overrun {rams : List Ram} {a : Word} {k : Nat} (hk : k ≤ 4) {r : Ram}
    {o : Nat} (h : ramFor rams a (BitVec.ofNat 32 k) = some (r, o)) :
    r.Contains a k ↔ ¬ Overrun rams a k := by
  obtain ⟨-, hcov, -⟩ := ramFor_eq_some h
  constructor
  · rintro ⟨-, hend⟩ ⟨-, r', o', h', hlt⟩
    rw [h] at h'
    obtain ⟨rfl, -⟩ := Prod.mk.inj (Option.some.inj h')
    omega
  · intro hno
    by_cases htop : a.toNat + k < 2 ^ 32
    · exact contains_of_covers hk hcov htop
    · refine ⟨((covers_iff hk).mp hcov).1, ?_⟩
      by_contra hlt
      exact hno ⟨by omega, r, o, h, by omega⟩

theorem isSome_load_iff {rams : List Ram} {a : Word} {k : Nat} (hk : k ≤ 4) {r : Ram}
    {o : Nat} (h : ramFor rams a (BitVec.ofNat 32 k) = some (r, o)) :
    (r.data.load k o).isSome ↔ ¬ Overrun rams a k := by
  obtain ⟨-, hcov, rfl⟩ := ramFor_eq_some h
  have hbase := covers_base_le hcov
  rw [Bytes.isSome_load, ← contains_iff_not_overrun hk h, Ram.Contains]
  omega

theorem isSome_store_iff {rams : List Ram} {a : Word} {k : Nat} (hk : k ≤ 4) (v : Word)
    {r : Ram} {o : Nat} (h : ramFor rams a (BitVec.ofNat 32 k) = some (r, o)) :
    (storeRam a k v rams).isSome ↔ ¬ Overrun rams a k := by
  rw [← isSome_load_iff hk h]
  have hload : loadRam rams a k = r.data.load k o := by rw [loadRam, h]; rfl
  constructor
  · intro hs
    obtain ⟨rams', hs⟩ := Option.isSome_iff_exists.mp hs
    rw [← hload, ← isSome_loadRam_store hs, loadRam_store hs (by rw [h]; rfl)]
    rfl
  · intro hl
    exact isSome_storeRam v (hload ▸ hl)

/-! ## The register files -/

namespace Bus

variable {δ : Type} (b : Bus δ)

theorem isSome_index {n : Nat} {α : Type} (t : Table n α) {i : Nat} (h : i < n) :
    (t.index i).isSome := by
  rw [Table.index_of_lt t h]
  rfl

theorem isSome_modify {n : Nat} {α : Type} (t : Table n α) {i : Nat} (f : α → α) (h : i < n) :
    (t.modify i f).isSome := by
  rw [Table.modify_of_lt t h]
  rfl

/-- The word registers of a 32-byte bank have numbers below 8. -/
theorem bankIndex_lt {lo hi a : Word} (h : lo ≤ a ∧ a ≤ hi) (hhi : hi.toNat = lo.toNat + 28) :
    ((a - lo) / 4).toNat < 8 := by
  obtain ⟨hlo, hle⟩ := h
  rw [BitVec.toNat_udiv, BitVec.toNat_sub_of_le hlo, show BitVec.toNat (4 : Word) = 4 from rfl]
  simp only [BitVec.le_def] at hlo hle
  omega

theorem prioIndex_lt {a : Word} (h : 0xE000E400 ≤ a ∧ a ≤ 0xE000E4EF) {k : Nat} (hk : k < 4) :
    (a - 0xE000E400).toNat + k < 256 := by
  obtain ⟨hlo, hhi⟩ := h
  rw [BitVec.toNat_sub_of_le hlo]
  simp only [BitVec.le_def] at hlo hhi
  have h₁ : BitVec.toNat (0xE000E400 : Word) = 0xE000E400 := rfl
  have h₂ : BitVec.toNat (0xE000E4EF : Word) = 0xE000E4EF := rfl
  omega

/-- A fold whose steps all return returns. -/
theorem isSome_foldlM {α β : Type} {f : β → α → Option β} (l : List α) (s : β)
    (h : ∀ s x, x ∈ l → (f s x).isSome) : (l.foldlM f s).isSome := by
  induction l generalizing s with
  | nil => rfl
  | cons x l ih =>
      obtain ⟨s', hs⟩ := Option.isSome_iff_exists.mp (h s x (List.mem_cons_self ..))
      rw [List.foldlM_cons, hs]
      exact ih s' fun s y hy => h s y (List.mem_cons_of_mem _ hy)

theorem isSome_map {α β : Type} {o : Option α} {f : α → β} (h : o.isSome) :
    (o.map f).isSome := by
  rwa [Option.isSome_map]

theorem isSome_bind {α β : Type} {o : Option α} {f : α → Option β} (h : o.isSome)
    (hf : ∀ x, (f x).isSome) : (o.bind f).isSome := by
  obtain ⟨x, rfl⟩ := Option.isSome_iff_exists.mp h
  exact hf x

theorem isSome_nvicRead (a : Word) : (b.nvicRead a).isSome := by
  rw [nvicRead]
  split_ifs with h₁ h₂ h₃ h₄ h₅ h₆
  · exact isSome_map (isSome_index _ (bankIndex_lt h₁ rfl))
  · exact isSome_map (isSome_index _ (bankIndex_lt h₂ rfl))
  · exact isSome_map (isSome_index _ (bankIndex_lt h₃ rfl))
  · exact isSome_map (isSome_index _ (bankIndex_lt h₄ rfl))
  · rfl
  · refine isSome_bind (isSome_foldlM _ _ fun v k hk => ?_) fun _ => rfl
    refine isSome_bind (isSome_index _ (prioIndex_lt h₆ ?_)) fun _ => rfl
    revert k
    decide
  · rfl

theorem isSome_nvicWrite (a v : Word) : (b.nvicWrite a v).isSome := by
  rw [nvicWrite]
  split_ifs with h₁ h₂ h₃ h₄ h₅
  · exact isSome_map (isSome_modify _ _ (bankIndex_lt h₁ rfl))
  · exact isSome_map (isSome_modify _ _ (bankIndex_lt h₂ rfl))
  · exact isSome_map (isSome_modify _ _ (bankIndex_lt h₃ rfl))
  · exact isSome_map (isSome_modify _ _ (bankIndex_lt h₄ rfl))
  · refine isSome_bind (isSome_foldlM _ _ fun t k hk => isSome_modify _ _ (prioIndex_lt h₅ ?_))
      fun _ => rfl
    revert k
    decide
  · rfl

theorem isSome_nvicReadWin (a : Word) : (b.nvicReadWin a).isSome := by
  rw [nvicReadWin]
  split
  · exact b.isSome_nvicRead _
  · rfl

theorem isSome_nvicWriteWin (a v : Word) : (b.nvicWriteWin a v).isSome := by
  rw [nvicWriteWin]
  split
  · exact b.isSome_nvicWrite _ v
  · rfl

theorem timIndex_lt {a : Word} (h : within tim5BaseAddr tim5End a = true) :
    (alignWord a - tim5BaseAddr).toNat / 4 < 256 := by
  have h₁ : tim5BaseAddr.toNat = 0x40000C00 := rfl
  have h₂ : tim5End.toNat = 0x40001000 := rfl
  obtain ⟨hlo, hhi⟩ := within_iff.mp h
  simp only [BitVec.le_def, BitVec.lt_def] at hlo hhi
  have hle : tim5BaseAddr ≤ alignWord a := by
    rw [BitVec.le_def, toNat_alignWord]
    omega
  rw [BitVec.toNat_sub_of_le hle, toNat_alignWord]
  omega

/-! ## Routes -/

theorem isSome_flashRead {f : Flash} {a : Word} (h : b.flashWin a = some f) :
    (f.readMem32 a).isSome ∧ (f.readMem16 a).isSome ∧ (f.readMem8 a).isSome := by
  have hin : Flash.inAperture a = true := by
    rw [flashWin] at h
    split at h
    · assumption
    · cases h
  have hoff := f.physOff_lt hin
  have hbytes : ∀ k, (f.readBytes k a).isSome := by
    intro k
    rw [Flash.readBytes, if_pos (by omega)]
    rfl
  refine ⟨isSome_map (hbytes 4), isSome_map (hbytes 2), ?_⟩
  rw [Flash.readMem8, if_pos hoff]
  rfl

theorem isSome_rotFlashRead {f : RotFlash} {a : Word} (h : b.rotFlashWin a = some f) :
    (f.readMem32 a).isSome ∧ (f.readMem16 a).isSome ∧ (f.readMem8 a).isSome := by
  have hoff : a.toNat < RotFlash.size := by
    rw [rotFlashWin] at h
    split at h
    · next hin => exact BitVec.lt_def.mp (within_iff.mp hin).2
    · cases h
  have hbytes : ∀ k, (f.readBytes k a).isSome := by
    intro k
    rw [RotFlash.readBytes, if_pos (by omega)]
    rfl
  refine ⟨isSome_map (hbytes 4), isSome_map (hbytes 2), ?_⟩
  rw [RotFlash.readMem8, if_pos hoff]
  rfl

theorem not_within_of_top {lo hi a : Word} (h : 2 ^ 32 ≤ a.toNat + 4)
    (hhi : hi.toNat ≤ 0xFFFFFFFC) : within lo hi a = false := by
  rw [within_eq_false_iff, BitVec.le_def]
  omega

/-- The last word of the address space belongs to no window before RAM. -/
theorem open_of_top {a : Word} (h : 2 ^ 32 ≤ a.toNat + 4) : b.Open a := by
  have halign : 2 ^ 32 ≤ (alignWord a).toNat + 4 := by
    rw [toNat_alignWord]
    omega
  have hne : ∀ c : Word, c.toNat < 0xFFFFFFFC → alignWord a ≠ c := by
    rintro c hc rfl
    omega
  -- one window after the other, in the order of the dispatch
  constructor
  · rw [fold]
    split
    · rfl
    · rw [not_within_of_top h (by decide), not_within_of_top h (by decide)]
      rfl
  · rw [flashWin, not_within_of_top h (by decide)]
    rfl
  · rw [flashRegs, not_within_of_top h (by decide)]
    rfl
  · rw [rotFlashWin, not_within_of_top h (by decide)]
    rfl
  · rw [rotFlashRegs, not_within_of_top h (by decide)]
    rfl
  · rw [Romapi.romRead32_eq_none (not_within_of_top halign (by decide))
      (not_within_of_top halign (by decide)), ite_self]
  · exact not_within_of_top h (by decide)
  · exact hne _ (by decide)
  · exact hne _ (by decide)
  · exact not_within_of_top h (by decide)

/-- The SRAM addresses belong to no window before RAM. -/
theorem open_of_sram {a : Word} (hlo : 0x20000000 ≤ a.toNat) (hhi : a.toNat < 0x30000000) :
    b.Open a := by
  have hout : ∀ {lo hi x : Word}, 0x20000000 ≤ x.toNat → x.toNat < 0x30000000 →
      hi.toNat ≤ 0x20000000 ∨ 0x30000000 ≤ lo.toNat → within lo hi x = false := by
    intro lo hi x hx hx' h
    rw [within_eq_false_iff]
    simp only [BitVec.lt_def, BitVec.le_def]
    omega
  have halign : 0x20000000 ≤ (alignWord a).toNat ∧ (alignWord a).toNat < 0x30000000 := by
    rw [toNat_alignWord]
    omega
  have hne : ∀ c : Word, 0x30000000 ≤ c.toNat → alignWord a ≠ c := by
    rintro c hc rfl
    omega
  -- the flash windows are below, everything else is above
  constructor
  · rw [fold, hout hlo hhi (Or.inl (by decide)), hout hlo hhi (Or.inr (by decide))]
    split
    · rfl
    · rfl
  · rw [flashWin, hout hlo hhi (Or.inl (by decide))]
    rfl
  · rw [flashRegs, hout hlo hhi (Or.inr (by decide))]
    rfl
  · rw [rotFlashWin, hout hlo hhi (Or.inl (by decide))]
    rfl
  · rw [rotFlashRegs, hout hlo hhi (Or.inr (by decide))]
    rfl
  · rw [Romapi.romRead32_eq_none (hout halign.1 halign.2 (Or.inl (by decide)))
      (hout halign.1 halign.2 (Or.inl (by decide))), ite_self]
  · exact hout hlo hhi (Or.inr (by decide))
  · exact hne _ (by decide)
  · exact hne _ (by decide)
  · exact hout hlo hhi (Or.inr (by decide))

/-- An open address in the first region is served from it. -/
theorem served_of_head {b : Bus δ} {r : Ram} {rs : List Ram} (hr : b.rams = r :: rs) {a : Word}
    {k : Nat} (hk : k ≤ 4) (hopen : b.Open a) (hlo : r.base.toNat ≤ a.toNat)
    (hhi : a.toNat + k ≤ r.base.toNat + r.size.toNat)
    (htop : r.base.toNat + r.size.toNat < 2 ^ 32) : b.Served k a := by
  have hcov : r.covers a (BitVec.ofNat 32 k) = true := covers_of_contains hk ⟨hlo, hhi⟩ htop
  refine ⟨hopen, ?_⟩
  rw [hr, loadRam_cons, if_pos hcov, Bytes.isSome_load, toNat_offset hlo]
  omega

theorem Overrun.isOpen {b : Bus δ} {a : Word} {k : Nat} (hk : k ≤ 4)
    (h : Overrun b.rams a k) : b.Open a :=
  b.open_of_top (Nat.le_trans h.1 (by omega))

variable [Mmio δ]

theorem isSome_readMemory_iff (a : Word) :
    (b.readMemory a).isSome ↔ ¬ Overrun b.rams a 4 := by
  rw [readMemory]
  split
  · next r o hram => exact Option.isSome_map.symm ▸ isSome_load_iff (by decide) hram
  · next hram =>
      have hno : ¬ Overrun b.rams a 4 := by
        rintro ⟨-, r, o, hr, -⟩
        rw [show ramFor b.rams a (BitVec.ofNat 32 4) = ramFor b.rams a 4 from rfl, hram] at hr
        cases hr
      refine iff_of_true ?_ hno
      split
      · next hin =>
          split
          · rfl
          · exact isSome_map (isSome_index _ (timIndex_lt hin))
      · split
        · rfl
        · rfl

theorem isSome_read32_iff (a : Word) :
    (b.read32 a).isSome ↔ ¬ Overrun b.rams (b.fold a) 4 := by
  by_cases hover : Overrun b.rams (b.fold a) 4
  · have hopen := Overrun.isOpen (by decide) hover
    have hfold : b.read32 a = b.read32 (b.fold a) := by simp only [read32, hopen.fold]
    rw [hfold, read32_of_open hopen]
    exact b.isSome_readMemory_iff _
  · -- no window but RAM can fail a read
    refine iff_of_true ?_ hover
    simp only [read32]
    split
    · next hf => exact isSome_map (b.isSome_flashRead hf).1
    · split
      · rfl
      · split
        · next hr => exact isSome_map (b.isSome_rotFlashRead hr).1
        · split
          · rfl
          · rw [readSystem]
            split
            · rfl
            · refine isSome_bind (b.isSome_nvicReadWin _) fun o => ?_
              cases o with
              | some v => rfl
              | none =>
                  simp only
                  split
                  · rfl
                  · split
                    · rfl
                    · exact (b.isSome_readMemory_iff _).mpr hover

/-! ## Narrow reads -/

omit [Mmio δ] in
/-- An address of the secure ranges has the alias bit set. -/
theorem aliasBit_of_secure {a : Word}
    (h : within lpc55SecureAliasBit (lpc55SecureAliasBit ||| BitVec.ofNat 32 RotFlash.size) a ||
      within (lpc55SecureAliasBit ||| lpc55SramBase)
        (lpc55SecureAliasBit ||| (lpc55SramBase + lpc55SramSize)) a) :
    a.getLsbD 28 = true := by
  rw [Bool.or_eq_true, within_iff, within_iff] at h
  simp only [BitVec.le_def, BitVec.lt_def] at h
  have h₁ : lpc55SecureAliasBit.toNat = 2 ^ 28 := rfl
  have h₂ : (lpc55SecureAliasBit ||| BitVec.ofNat 32 RotFlash.size).toNat = 2 ^ 28 + 2 ^ 20 := by
    decide
  have h₃ : (lpc55SecureAliasBit ||| lpc55SramBase).toNat = 3 * 2 ^ 28 := by decide
  have h₄ : (lpc55SecureAliasBit ||| (lpc55SramBase + lpc55SramSize)).toNat =
      3 * 2 ^ 28 + 2 ^ 19 := by decide
  rw [← BitVec.testBit_toNat, Nat.testBit_eq_decide_div_mod_eq, decide_eq_true_eq]
  omega

omit [Mmio δ] in
/-- The word below a folded address folds to itself. -/
theorem fold_alignWord (a : Word) : b.fold (alignWord (b.fold a)) = alignWord (b.fold a) := by
  by_cases hoff : b.secureAlias = true
  · have hbound : ∀ {lo hi x : Word}, lo.toNat % 4 = 0 → hi.toNat % 4 = 0 →
        within lo hi (alignWord x) = within lo hi x := by
      intro lo hi x hlo hhi
      simp only [within, BitVec.le_def, BitVec.lt_def, toNat_alignWord]
      congr 1
      · exact decide_eq_decide.mpr (by omega)
      · exact decide_eq_decide.mpr (by omega)
    have hsecure : ∀ x : Word,
        b.fold (alignWord x) = if (within lpc55SecureAliasBit
            (lpc55SecureAliasBit ||| BitVec.ofNat 32 RotFlash.size) x ||
          within (lpc55SecureAliasBit ||| lpc55SramBase)
            (lpc55SecureAliasBit ||| (lpc55SramBase + lpc55SramSize)) x)
          then alignWord x &&& ~~~lpc55SecureAliasBit else alignWord x := by
      intro x
      rw [fold, if_neg (not_not_intro hoff), hbound (by decide) (by decide),
        hbound (by decide) (by decide)]
    rw [hsecure]
    split
    · next hin =>
        -- A folded address has lost the alias bit, unless it was outside the ranges.
        have hbit := aliasBit_of_secure hin
        rw [fold, if_neg (not_not_intro hoff)] at hin hbit
        split at hin
        · next hin' =>
            rw [if_pos hin'] at hbit
            rw [BitVec.getLsbD_and, BitVec.getLsbD_not] at hbit
            simp only [show lpc55SecureAliasBit.getLsbD 28 = true by decide, Bool.not_true,
              Bool.and_false, Bool.false_eq_true] at hbit
        · next hout => exact absurd hin hout
    · rfl
  · rw [fold, if_pos hoff]

/-- The addresses of a narrow access, and those of its word, do not overrun. -/
def NoOverrun (b : Bus δ) (w : Width) (a : Word) : Prop :=
  ¬ Overrun b.rams (b.fold a) w.bytes ∧
    (ramFor b.rams (b.fold a) (BitVec.ofNat 32 w.bytes) = none →
      ¬ Overrun b.rams (alignWord (b.fold a)) 4)

theorem isSome_read32_alignWord_iff (a : Word) :
    (b.read32 (alignWord (b.fold a))).isSome ↔ ¬ Overrun b.rams (alignWord (b.fold a)) 4 := by
  rw [isSome_read32_iff, fold_alignWord]

omit [Mmio δ] in
/-- In a flash window nothing overruns. -/
theorem noOverrun_of_window {w : Width} {a : Word}
    (h : ¬ b.Open (b.fold a)) : b.NoOverrun w a := by
  have hk : w.bytes ≤ 4 := by cases w <;> decide
  refine ⟨fun hover => h (Overrun.isOpen hk hover), fun _ hover => h ?_⟩
  have htop := hover.1
  rw [toNat_alignWord] at htop
  exact b.open_of_top (by omega)

omit [Mmio δ] in
theorem noOverrun_iff_of_ram {w : Width} {a : Word} {r : Ram × Nat}
    (hram : ramFor b.rams (b.fold a) (BitVec.ofNat 32 w.bytes) = some r) :
    b.NoOverrun w a ↔ ¬ Overrun b.rams (b.fold a) w.bytes :=
  and_iff_left fun hnone => by cases hnone.symm.trans hram

theorem noOverrun_iff_of_fallback {w : Width} {a : Word}
    (hram : ramFor b.rams (b.fold a) (BitVec.ofNat 32 w.bytes) = none) :
    b.NoOverrun w a ↔ (b.read32 (alignWord (b.fold a))).isSome := by
  have hover : ¬ Overrun b.rams (b.fold a) w.bytes := by
    rintro ⟨-, r, o, hr, -⟩
    cases hr.symm.trans hram
  exact (and_iff_right hover).trans ((forall_prop_of_true hram).trans
    (b.isSome_read32_alignWord_iff a).symm)

theorem isSome_read16_iff (a : Word) : (b.read16 a).isSome ↔ b.NoOverrun .half a := by
  simp only [read16]
  split
  · next hf =>
      refine iff_of_true (isSome_map (b.isSome_flashRead hf).2.1) (b.noOverrun_of_window ?_)
      exact fun hopen => by simp [hopen.flash] at hf
  · split
    · next hr =>
        refine iff_of_true (isSome_map (b.isSome_rotFlashRead hr).2.1) (b.noOverrun_of_window ?_)
        exact fun hopen => by simp [hopen.rot] at hr
    · split
      · next r o hram =>
          rw [b.noOverrun_iff_of_ram (w := .half) hram, Option.isSome_map]
          exact isSome_load_iff (by decide) hram
      · next hram =>
          rw [b.noOverrun_iff_of_fallback (w := .half) hram]
          cases b.read32 (alignWord (b.fold a)) with
          | none => rfl
          | some r => rfl

theorem isSome_read8_iff (a : Word) : (b.read8 a).isSome ↔ b.NoOverrun .byte a := by
  simp only [read8]
  split
  · next hf =>
      refine iff_of_true (isSome_map (b.isSome_flashRead hf).2.2) (b.noOverrun_of_window ?_)
      exact fun hopen => by simp [hopen.flash] at hf
  · split
    · next hr =>
        refine iff_of_true (isSome_map (b.isSome_rotFlashRead hr).2.2) (b.noOverrun_of_window ?_)
        exact fun hopen => by simp [hopen.rot] at hr
    · split
      · next r o hram =>
          rw [b.noOverrun_iff_of_ram (w := .byte) hram, Option.isSome_map]
          exact isSome_load_iff (by decide) hram
      · next hram =>
          rw [b.noOverrun_iff_of_fallback (w := .byte) hram]
          cases b.read32 (alignWord (b.fold a)) with
          | none => rfl
          | some r => rfl

/-! ## Writes -/

/-- An erase of the RoT flash whose slice is inverted. -/
def StartsBadErase (b : Bus δ) (a v : Word) : Prop :=
  ∃ f, b.rotFlashRegs (b.fold a) = some f ∧
    f.EraseOvershoots (alignWord (b.fold a) - rotFlashRegLo, v)

theorem isSome_writeMemory_iff (a v : Word) :
    (b.writeMemory a v).isSome ↔ ¬ Overrun b.rams a 4 := by
  rw [writeMemory]
  split
  · next r hram => exact Option.isSome_map.symm ▸ isSome_store_iff (by decide) v hram
  · next hram =>
      have hno : ¬ Overrun b.rams a 4 := by
        rintro ⟨-, r, o, hr, -⟩
        cases hr.symm.trans hram
      refine iff_of_true ?_ hno
      split
      · next hin =>
          split
          · rfl
          · split
            · rfl
            · exact isSome_bind (isSome_modify _ _ (timIndex_lt hin)) fun _ => rfl
      · split
        · rfl
        · rfl

omit [Mmio δ] in
theorem isSome_ethWrite_of_not_tail {walk : Bus δ → Option (Bus δ)} {off v : Word}
    (h : alignWord off ≠ dmactxdtpr) : (b.ethWrite walk off v).isSome := by
  simp only [ethWrite, EthDma.regWrite_of_not_tail b.eth h, Bool.false_and, Bool.false_eq_true,
    if_false]
  rfl

/-- Off the tail pointer and the RoT flash registers, only overrunning fails. -/
theorem isSome_write32With_of_plain {a : Word} (htail : ¬ b.AtTail a)
    (hrot : b.rotFlashRegs (b.fold a) = none) (hover : ¬ Overrun b.rams (b.fold a) 4)
    (walk : Bus δ → Option (Bus δ)) (v : Word) : (b.write32With walk a v).isSome := by
  simp only [write32With]
  split
  · rfl
  · split
    · next f hf =>
        exact isSome_bind (f.step_isSome (.regWrite _ v)) fun _ => rfl
    · split
      · rfl
      · rw [hrot]
        simp only [writeSystem]
        refine isSome_bind (b.isSome_nvicWriteWin _ v) fun o => ?_
        cases o with
        | some c => rfl
        | none =>
            simp only
            split
            · rfl
            · split
              · next hin => exact isSome_ethWrite_of_not_tail _ fun hoff => htail ⟨hin, hoff⟩
              · refine (isSome_writeMemory_iff _ _ v).mpr ?_
                split
                · exact hover
                · exact hover

theorem write32With_rotReg {a : Word} {f : RotFlash} (hf : b.rotFlashRegs (b.fold a) = some f)
    (walk : Bus δ → Option (Bus δ)) (v : Word) :
    b.write32With walk a v =
      (f.regWrite (alignWord (b.fold a) - rotFlashRegLo) v).map
        fun f => { b with rotFlash := some f } := by
  have hin : within rotFlashRegLo rotFlashRegHi (b.fold a) = true := by
    by_contra hout
    rw [rotFlashRegs, if_neg hout] at hf
    cases hf
  have h₁ : b.flashWin (b.fold a) = none := window_eq_none hin (Or.inr (by decide))
  have h₂ : b.flashRegs (b.fold a) = none := window_eq_none hin (Or.inl (by decide))
  have h₃ : b.rotFlashWin (b.fold a) = none := window_eq_none hin (Or.inr (by decide))
  simp only [write32With, h₁, h₂, h₃, hf]
  cases f.regWrite (alignWord (b.fold a) - rotFlashRegLo) v with
  | none => rfl
  | some f' => rfl

/-- A word write returns unless it overruns, starts a bad erase, or starts a walk that does
not return. -/
theorem isSome_write32With_iff (walk : Bus δ → Option (Bus δ)) (a v : Word) :
    (b.write32With walk a v).isSome ↔
      ¬ Overrun b.rams (b.fold a) 4 ∧ ¬ b.StartsBadErase a v ∧
        (b.AtTail a → b.recording = false → (walk (b.withTail v)).isSome) := by
  -- a write of the tail pointer stands or falls with its walk
  by_cases htail : b.AtTail a
  · obtain ⟨-, -, -, hrot, -, -, -, -⟩ := b.route_of_eth htail.1
    have herase : ¬ b.StartsBadErase a v := by
      rintro ⟨f, hf, -⟩
      cases hf.symm.trans hrot
    have hover : ¬ Overrun b.rams (b.fold a) 4 := fun hover => by
      have hopen := Overrun.isOpen (by decide) hover
      cases hopen.eth.symm.trans htail.1
    rw [write32With_atTail htail, and_iff_right hover, and_iff_right herase,
      forall_prop_of_true htail]
    cases b.recording with
    | true => exact iff_of_true rfl nofun
    | false => exact ⟨fun h _ => h, fun h => h rfl⟩
  · rw [and_congr_right_iff.mpr fun _ => and_iff_left fun h => absurd h htail]
    by_cases hover : Overrun b.rams (b.fold a) 4
    · have hopen := Overrun.isOpen (by decide) hover
      have hfold : b.write32With walk a v = b.write32With walk (b.fold a) v := by
        simp only [write32With, hopen.fold]
      rw [hfold, write32With_of_open hopen, isSome_writeMemory_iff]
      exact iff_of_false (not_not_intro hover) fun h => h.1 hover
    · rw [and_iff_right hover]
      cases hrot : b.rotFlashRegs (b.fold a) with
      | none =>
          have herase : ¬ b.StartsBadErase a v := by
            rintro ⟨f, hf, -⟩
            cases hf.symm.trans hrot
          exact iff_of_true (b.isSome_write32With_of_plain htail hrot hover walk v) herase
      -- a RoT flash register: only an erase can fail
      | some f =>
          have herase : b.StartsBadErase a v ↔
              f.EraseOvershoots (alignWord (b.fold a) - rotFlashRegLo, v) := by
            constructor
            · rintro ⟨f', hf', hbad⟩
              obtain rfl : f = f' := Option.some.inj (hrot.symm.trans hf')
              exact hbad
            · exact fun hbad => ⟨f, hrot, hbad⟩
          rw [b.write32With_rotReg hrot, Option.isSome_map, herase]
          exact f.isSome_regWrite_iff (_, v)

/-- What a word write must avoid, with the accesses of the walk that it starts; `n` bounds
the nesting of walks. -/
def WordWriteOk : Bus δ → (n : Nat) → Word → Word → Prop
  | b, 0, a, v => ¬ Overrun b.rams (b.fold a) 4 ∧ ¬ b.StartsBadErase a v ∧
      (b.AtTail a → b.recording = true)
  | b, n + 1, a, v => ¬ Overrun b.rams (b.fold a) 4 ∧ ¬ b.StartsBadErase a v ∧
      (b.AtTail a → b.recording = false →
        (Dma.ethTxWalk (b.withTail v).eth).Calls (dmaHandler (write32N n))
          (fun e c => match e with
            | .read32 a' => ¬ Overrun c.rams (c.fold a') 4
            | .read8 a' => c.NoOverrun .byte a'
            | .write32 a' v' => c.WordWriteOk n a' v'
            | _ => True)
          (b.withTail v))

theorem isSome_runTxWalk_iff (w32 : Word → Word → Bus δ → Option (Bus δ)) :
    (runTxWalk w32 b).isSome ↔
      (Dma.ethTxWalk b.eth).Calls (dmaHandler w32) (fun e c => (dmaHandler w32 e c).isSome)
        b := by
  rw [← Prog.isSome_run_iff, runTxWalk]
  cases (Dma.ethTxWalk b.eth).run (dmaHandler w32) b with
  | none => rfl
  | some r => rfl

theorem isSome_write32N_iff (n : Nat) (a v : Word) :
    (write32N n a v b).isSome ↔ b.WordWriteOk n a v := by
  induction n generalizing a v b with
  | zero =>
      rw [write32N, isSome_write32With_iff, WordWriteOk]
      refine and_congr_right fun _ => and_congr_right fun _ => forall_congr' fun _ => ?_
      cases b.recording with
      | true => exact iff_of_true (fun h => by cases h) rfl
      | false => exact iff_of_false (fun h => by cases h rfl) (fun h => by cases h)
  | succ n ih =>
      rw [write32N, isSome_write32With_iff, WordWriteOk]
      refine and_congr_right fun _ => and_congr_right fun _ => forall_congr' fun _ =>
        forall_congr' fun _ => ?_
      rw [isSome_runTxWalk_iff]
      refine Prog.calls_iff _ (I := fun _ => True) (fun _ _ _ _ _ _ _ => trivial)
        (fun e c _ => ?_) _ trivial
      cases e with
      | read32 a' => exact c.isSome_read32_iff a'
      | read8 a' => exact c.isSome_read8_iff a'
      | write32 a' v' => exact Option.isSome_map.symm ▸ ih c a' v'
      | setVid vid => exact iff_of_true rfl trivial
      | takeVid => exact iff_of_true rfl trivial
      | emit frame => exact iff_of_true rfl trivial

/-- What a narrow write must avoid: outside RAM it reads the word and writes it back with
the new bytes merged in. -/
def NarrowWriteOk (b : Bus δ) (w : Width) (a : Word) (merge : Word → Word) : Prop :=
  ¬ Overrun b.rams (b.fold a) w.bytes ∧
    (ramFor b.rams (b.fold a) (BitVec.ofNat 32 w.bytes) = none →
      ¬ Overrun b.rams (alignWord (b.fold a)) 4 ∧
        ∀ old c, b.read32 (alignWord (b.fold a)) = some (old, c) →
          c.WordWriteOk 2 (alignWord (b.fold a)) (merge old))

theorem narrowWriteOk_iff_of_ram {w : Width} (hw : w.bytes ≤ 4) {a : Word} {r : Ram × Nat}
    (hram : ramFor b.rams (b.fold a) (BitVec.ofNat 32 w.bytes) = some r) (v : Word)
    (merge : Word → Word) :
    b.NarrowWriteOk w a merge ↔ (storeRam (b.fold a) w.bytes v b.rams).isSome := by
  rw [isSome_store_iff hw v hram]
  exact and_iff_left fun hnone => by cases hnone.symm.trans hram

theorem narrowWriteOk_iff_of_fallback {w : Width} {a : Word}
    (hram : ramFor b.rams (b.fold a) (BitVec.ofNat 32 w.bytes) = none) (merge : Word → Word) :
    b.NarrowWriteOk w a merge ↔
      ((b.read32 (alignWord (b.fold a))).bind fun r =>
        r.2.write32 (alignWord (b.fold a)) (merge r.1)).isSome := by
  have hover : ¬ Overrun b.rams (b.fold a) w.bytes := by
    rintro ⟨-, r, o, hr, -⟩
    cases hr.symm.trans hram
  rw [NarrowWriteOk, and_iff_right hover, forall_prop_of_true hram,
    ← isSome_read32_alignWord_iff]
  cases hread : b.read32 (alignWord (b.fold a)) with
  | none => exact ⟨fun h => (nomatch h.1), nofun⟩
  | some r =>
      refine Iff.trans ⟨fun h => ?_, fun h => ⟨rfl, ?_⟩⟩ (isSome_write32N_iff r.2 2 _ _).symm
      · exact h.2 r.1 r.2 rfl
      · rintro old c heq
        cases heq
        exact h

theorem isSome_write16_iff (a : Word) (v : Half) :
    (b.write16 a v).isSome ↔ b.NarrowWriteOk .half a fun old => halfInWord (b.fold a) old v := by
  simp only [write16]
  split
  · next r hram =>
      rw [b.narrowWriteOk_iff_of_ram (w := .half) (by decide) hram (v.setWidth 32),
        Option.isSome_map]
      rfl
  · next hram =>
      rw [b.narrowWriteOk_iff_of_fallback (w := .half) hram]
      rfl

theorem isSome_write8_iff (a : Word) (v : Byte) :
    (b.write8 a v).isSome ↔ b.NarrowWriteOk .byte a fun old => byteInWord (b.fold a) old v := by
  simp only [write8]
  split
  · next r hram =>
      rw [b.narrowWriteOk_iff_of_ram (w := .byte) (by decide) hram (v.setWidth 32),
        Option.isSome_map]
      rfl
  · next hram =>
      rw [b.narrowWriteOk_iff_of_fallback (w := .byte) hram]
      rfl

/-! ## Accesses -/

/-- A bus access of any width; a write stores the low bits of its value. -/
inductive Access where
  | read (w : Width) (a : Word)
  | write (w : Width) (a v : Word)

def Access.width : Access → Width
  | .read w _ => w
  | .write w _ _ => w

def Access.addr : Access → Word
  | .read _ a => a
  | .write _ a _ => a

/-- The state after an access. -/
def access (b : Bus δ) : Access → Option (Bus δ)
  | .read w a => (b.read w a).map (·.2)
  | .write w a v => b.write w a v

/-- A word read at `a` is served from the region `r`. -/
structure WordReadFrom (b : Bus δ) (a : Word) (r : Ram) : Prop where
  flash : b.flashWin (b.fold a) = none
  flashRegs : b.flashRegs (b.fold a) = none
  rot : b.rotFlashWin (b.fold a) = none
  rotRegs : b.rotFlashRegs (b.fold a) = none
  rom : (if b.romEnabled then Romapi.romRead32 (alignWord (b.fold a)) else none) = none
  nvic : b.nvicReadWin (b.fold a) = some none
  icsr : alignWord (b.fold a) ≠ scbIcsr
  eth : within ethBase ethEnd (b.fold a) = false
  ram : ∃ o, ramFor b.rams (b.fold a) 4 = some (r, o)

/-- A word write of `v` at `a` is served from the region `r`. -/
structure WordWriteFrom (b : Bus δ) (a v : Word) (r : Ram) : Prop where
  flash : b.flashWin (b.fold a) = none
  flashRegs : b.flashRegs (b.fold a) = none
  rot : b.rotFlashWin (b.fold a) = none
  rotRegs : b.rotFlashRegs (b.fold a) = none
  nvic : b.nvicWriteWin (b.fold a) v = some none
  icsr : alignWord (b.fold a) ≠ scbIcsr
  eth : within ethBase ethEnd (b.fold a) = false
  ram : ∃ o, ramFor b.rams (b.fold a) 4 = some (r, o)

/-- The word that a write of a half or a byte stores outside RAM. -/
def mergeWord (w : Width) (a v old : Word) : Word :=
  match w with
  | .word => v
  | .half => halfInWord a old (v.setWidth 16)
  | .byte => byteInWord a old (v.setWidth 8)

/-- The region `r` serves the access: directly, or, for a half or a byte, through the word
access that it falls back to. -/
def ServedFrom (b : Bus δ) : Access → Ram → Prop
  | .read .word a, r => b.WordReadFrom a r
  | .read w a, r => b.flashWin (b.fold a) = none ∧ b.rotFlashWin (b.fold a) = none ∧
      ((∃ o, ramFor b.rams (b.fold a) (BitVec.ofNat 32 w.bytes) = some (r, o)) ∨
        ramFor b.rams (b.fold a) (BitVec.ofNat 32 w.bytes) = none ∧
          b.WordReadFrom (alignWord (b.fold a)) r)
  | .write .word a v, r => b.WordWriteFrom a v r
  | .write w a v, r =>
      (∃ o, ramFor b.rams (b.fold a) (BitVec.ofNat 32 w.bytes) = some (r, o)) ∨
        ramFor b.rams (b.fold a) (BitVec.ofNat 32 w.bytes) = none ∧
          (b.WordReadFrom (alignWord (b.fold a)) r ∨
            ∃ old c, b.read32 (alignWord (b.fold a)) = some (old, c) ∧
              c.WordWriteFrom (alignWord (b.fold a)) (mergeWord w (b.fold a) v old) r)

/-- The access returns, and a region that serves it contains all of its bytes. -/
def Good (b : Bus δ) (acc : Access) : Prop :=
  (b.access acc).isSome ∧
    ∀ r, b.ServedFrom acc r → r.Contains (b.fold acc.addr) acc.width.bytes

/-- The access overruns nowhere and starts no bad erase, itself or through the accesses that
it makes. -/
def InRange (b : Bus δ) : Access → Prop
  | .read .word a => ¬ Overrun b.rams (b.fold a) 4
  | .read w a => b.NoOverrun w a
  | .write .word a v => b.WordWriteOk 2 a v
  | .write w a v => b.NarrowWriteOk w a (mergeWord w (b.fold a) v)

theorem isSome_access_iff (acc : Access) : (b.access acc).isSome ↔ b.InRange acc := by
  cases acc with
  | read w a =>
      rw [access, Option.isSome_map]
      cases w with
      | word => exact b.isSome_read32_iff a
      | half => simpa only [Bus.read, Option.isSome_map, InRange] using b.isSome_read16_iff a
      | byte => simpa only [Bus.read, Option.isSome_map, InRange] using b.isSome_read8_iff a
  | write w a v =>
      cases w with
      | word => exact b.isSome_write32N_iff 2 a v
      | half => exact b.isSome_write16_iff a _
      | byte => exact b.isSome_write8_iff a _

/-! ## Containment -/

omit [Mmio δ] in
theorem contains_of_direct {rams : List Ram} {a : Word} {w : Width} {r : Ram}
    (h : ∃ o, ramFor rams a (BitVec.ofNat 32 w.bytes) = some (r, o))
    (hover : ¬ Overrun rams a w.bytes) : r.Contains a w.bytes := by
  obtain ⟨o, hr⟩ := h
  exact (contains_iff_not_overrun (by cases w <;> decide) hr).mpr hover

omit [Mmio δ] in
/-- A region that holds the word of a narrow access holds the access, unless it ends between
the two bytes of a half. -/
theorem contains_iff_of_word {r : Ram} {a : Word} (w : Width) (hw : w ≠ .word)
    (h : r.Contains (alignWord a) 4) :
    r.Contains a w.bytes ↔ (w = .half → ¬ r.Straddles a) := by
  obtain ⟨hbase, hend⟩ := h
  rw [toNat_alignWord] at hbase hend
  rw [Ram.Contains, Ram.Straddles]
  cases w with
  | word => exact absurd rfl hw
  | half =>
      simp only [Width.bytes, forall_const]
      omega
  | byte =>
      simp only [Width.bytes, reduceCtorEq, false_imp_iff, iff_true]
      omega

omit [Mmio δ] in
theorem not_straddles_of_contains {r : Ram} {a : Word} {w : Width} (h : r.Contains a w.bytes) :
    w = .half → ¬ r.Straddles a := by
  rintro rfl ⟨-, hend⟩
  have hle := h.2
  simp only [Width.bytes] at hle
  omega

/-- In range, the serving region contains the access unless it ends between the bytes of a
half. -/
theorem contains_iff {acc : Access} {r : Ram} (hok : b.InRange acc)
    (h : b.ServedFrom acc r) :
    r.Contains (b.fold acc.addr) acc.width.bytes ↔
      (acc.width = .half → ¬ r.Straddles (b.fold acc.addr)) := by
  -- The two ways a narrow access is served.
  have hnarrow : ∀ {w : Width} {a : Word}, w ≠ .word →
      ¬ Overrun b.rams (b.fold a) w.bytes →
      (ramFor b.rams (b.fold a) (BitVec.ofNat 32 w.bytes) = none →
        ¬ Overrun b.rams (alignWord (b.fold a)) 4) →
      ((∃ o, ramFor b.rams (b.fold a) (BitVec.ofNat 32 w.bytes) = some (r, o)) ∨
        ramFor b.rams (b.fold a) (BitVec.ofNat 32 w.bytes) = none ∧
          ∃ o, ramFor b.rams (alignWord (b.fold a)) 4 = some (r, o)) →
      (r.Contains (b.fold a) w.bytes ↔ (w = .half → ¬ r.Straddles (b.fold a))) := by
    intro w a hw hover hword hserved
    rcases hserved with hdirect | ⟨hnone, hfallback⟩
    · have hin := contains_of_direct hdirect hover
      exact iff_of_true hin (not_straddles_of_contains hin)
    · exact contains_iff_of_word w hw (contains_of_direct (w := .word) hfallback (hword hnone))
  have hfall : ∀ {a : Word}, b.WordReadFrom (alignWord (b.fold a)) r →
      ∃ o, ramFor b.rams (alignWord (b.fold a)) 4 = some (r, o) := by
    intro a hread
    obtain ⟨o, ho⟩ := hread.ram
    rw [fold_alignWord] at ho
    exact ⟨o, ho⟩
  cases acc with
  | read w a =>
      cases w with
      | word =>
          have hin := contains_of_direct (w := .word) h.ram hok
          exact iff_of_true hin (not_straddles_of_contains hin)
      | half => exact hnarrow (w := .half) nofun hok.1 hok.2 (h.2.2.imp id (And.imp id hfall))
      | byte => exact hnarrow (w := .byte) nofun hok.1 hok.2 (h.2.2.imp id (And.imp id hfall))
  | write w a v =>
      have hwrite : ∀ {x : Word}, (b.WordReadFrom (alignWord (b.fold a)) r ∨
          ∃ old c, b.read32 (alignWord (b.fold a)) = some (old, c) ∧
            c.WordWriteFrom (alignWord (b.fold a)) (mergeWord w (b.fold a) v old) r) →
          ∃ o, ramFor b.rams (alignWord (b.fold a)) 4 = some (r, o) := by
        intro x hserved
        rcases hserved with hread | ⟨old, c, hread, hword⟩
        · exact hfall hread
        · -- The read before the write has left the regions alone.
          have honly : OnlyDevices b c := read32_only hread
          obtain ⟨o, ho⟩ := hword.ram
          rw [honly.windows.fold, fold_alignWord, honly.rams] at ho
          exact ⟨o, ho⟩
      cases w with
      | word =>
          have hin := contains_of_direct (w := .word) h.ram hok.1
          exact iff_of_true hin (not_straddles_of_contains hin)
      | half =>
          exact hnarrow (w := .half) nofun hok.1 (fun hn => (hok.2 hn).1)
            (h.imp id (And.imp id (hwrite (x := a))))
      | byte =>
          exact hnarrow (w := .byte) nofun hok.1 (fun hn => (hok.2 hn).1)
            (h.imp id (And.imp id (hwrite (x := a))))

/-- An access is good exactly when it stays in range and is no half served from a region
that ends between its bytes. -/
theorem accessGood_iff (acc : Access) :
    b.Good acc ↔ b.InRange acc ∧
      (acc.width = .half → ∀ r, b.ServedFrom acc r → ¬ r.Straddles (b.fold acc.addr)) := by
  rw [Good, isSome_access_iff]
  refine and_congr_right fun hok => ⟨fun h hhalf r hr => ?_, fun h r hr => ?_⟩
  · exact (b.contains_iff hok hr).mp (h r hr) hhalf
  · exact (b.contains_iff hok hr).mpr fun hhalf => h hhalf r hr

/-- With one RAM region at 0x2000_0000, a word read at 0xFFFF_FFFE is taken for one of the
region: its end wraps to 2. -/
theorem top_read_panics : ¬ ∀ (b : Bus Unit) (acc : Access), b.Good acc := by
  intro h
  have hgood := h ((new ()).addRam 0x20000000 0x1000 (by decide)) (.read .word 0xFFFFFFFE)
  have hnone : ((new ()).addRam 0x20000000 0x1000 (by decide)).access
      (.read .word 0xFFFFFFFE) = none := rfl
  have hsome := hgood.1
  rw [hnone] at hsome
  cases hsome

end Bus

end SpEmu
