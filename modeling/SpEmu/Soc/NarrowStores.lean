import SpEmu.Soc.ByteWise
import SpEmu.Sprot.Link

/-!
# Narrow stores to registers

Outside RAM the bus turns a byte or halfword store into a read and a write of the word around it.
`takeNamed` is what a register does that acts on the stored bytes alone, for the three kinds of
registers: plain ones, those that set bits and those that clear them. `take_merge_iff` says when
the two agree: for a store at its own alignment always, unless the register clears bits and has
some set in the other bytes.

`narrow_stores` carries this to the NVIC, the Ethernet block and the pins of the LPC55 GPIO.
-/

set_option autoImplicit false

namespace SpEmu

open ByteMem Mem

/-! ## Kinds of registers -/

/-- What a register does with a word that is written to it. -/
inductive RegKind where
  | plain
  | set
  | clear
  deriving DecidableEq

def RegKind.take {n : Nat} (k : RegKind) (x v : BitVec n) : BitVec n :=
  match k with
  | .plain => v
  | .set => x ||| v
  | .clear => x &&& ~~~v

theorem byteOf_take (k : RegKind) (x v : Word) {i : Nat} (hi : i < 4) :
    byteOf (k.take x v) i = k.take (byteOf x i) (byteOf v i) := by
  apply BitVec.eq_of_getLsbD_eq
  intro j hj
  have hbit : 8 * i + j < 32 := by omega
  cases k with
  | plain => rfl
  | set =>
      simp only [RegKind.take, byteOf, BitVec.getLsbD_setWidth, BitVec.getLsbD_ushiftRight,
        BitVec.getLsbD_or, hj, decide_true, Bool.true_and]
  | clear =>
      simp only [RegKind.take, byteOf, BitVec.getLsbD_setWidth, BitVec.getLsbD_ushiftRight,
        BitVec.getLsbD_and, BitVec.getLsbD_not, hj, hbit, decide_true, Bool.true_and]

/-- Byte `i` of the word at `p` is one that a store at `a` names. -/
def Names (w : Width) (a p : Word) (i : Nat) : Prop :=
  a.toNat ≤ p.toNat + i ∧ p.toNat + i < a.toNat + w.bytes

instance (w : Width) (a p : Word) (i : Nat) : Decidable (Names w a p i) :=
  inferInstanceAs (Decidable (_ ∧ _))

/-- The register at `p` after a store at `a` that acts on the bytes it names and on no other. -/
def takeNamed (k : RegKind) (w : Width) (a v p x : Word) : Word :=
  leWord 4 fun i =>
    if Names w a p i then k.take (byteOf x i) (byteOf v (p.toNat + i - a.toNat)) else byteOf x i

/-- The first byte of the word that the bus replaces: for a halfword, of the aligned one. -/
def lane (w : Width) (a : Word) : Nat :=
  match w with
  | .half => a.toNat % 4 / 2 * 2
  | _ => a.toNat % 4

theorem byteOf_mergeWord {w : Width} (hw : w ≠ .word) (a v x : Word) {i : Nat} (hi : i < 4) :
    byteOf (Bus.mergeWord w a v x) i =
      if lane w a ≤ i ∧ i < lane w a + w.bytes then byteOf v (i - lane w a)
      else byteOf x i := by
  cases w with
  | word => exact absurd rfl hw
  | half =>
      have hlane : lane .half a = (a &&& 2).toNat := (toNat_and_two a).symm
      have hmerge : Bus.mergeWord .half a v x =
          mergeBytes 2 (lane .half a) x ((v.setWidth 16).setWidth 32) := by
        rw [hlane]
        rfl
      rw [hmerge, byteOf_mergeBytes (toNat_truncate_lt v 16 (by decide)) hi]
      by_cases hin : lane .half a ≤ i ∧ i < lane .half a + 2
      · rw [if_pos hin, byteOf_truncate v (by decide) (by omega)]
        exact (if_pos hin).symm
      · rw [if_neg hin]
        exact (if_neg hin).symm
  | byte =>
      have hlane : lane .byte a = (a &&& 3).toNat := (toNat_and_three a).symm
      have hmerge : Bus.mergeWord .byte a v x =
          mergeBytes 1 (lane .byte a) x ((v.setWidth 8).setWidth 32) := by
        rw [hlane]
        rfl
      rw [hmerge, byteOf_mergeBytes (toNat_truncate_lt v 8 (by decide)) hi]
      by_cases hin : lane .byte a ≤ i ∧ i < lane .byte a + 1
      · rw [if_pos hin, byteOf_truncate v (by decide) (by omega)]
        exact (if_pos hin).symm
      · rw [if_neg hin]
        exact (if_neg hin).symm

/-- The store at the odd address `a` fits the register with the value `x`: neither the halfword
that the bus replaces nor the one that the store names, whose second byte may be in the next
register, changes what the other does. -/
structure OddLaneFits (k : RegKind) (a v x : Word) (next : Option (RegKind × Word)) : Prop where
  before : k.take (byteOf x (a.toNat % 4 - 1)) (byteOf v 0) = byteOf x (a.toNat % 4 - 1)
  first : k.take (byteOf x (a.toNat % 4)) (byteOf v 0) =
    k.take (byteOf x (a.toNat % 4)) (byteOf v 1)
  second : a.toNat % 4 = 1 → k.take (byteOf x 2) (byteOf x 2) = k.take (byteOf x 2) (byteOf v 1)
  spill : a.toNat % 4 = 3 → ∀ r ∈ next, r.1.take (byteOf r.2 0) (byteOf v 1) = byteOf r.2 0
  rest : ∀ i, i < 4 → (i = 3 ∧ a.toNat % 4 = 1 ∨ i < 2 ∧ a.toNat % 4 = 3) →
    k.take (byteOf x i) (byteOf x i) = byteOf x i

/-- A register of kind `k` with the value `x` takes a store at `a` as one of the bytes it names. -/
def LaneFits (k : RegKind) (w : Width) (a v x : Word) (next : Option (RegKind × Word)) : Prop :=
  if a.toNat % w.bytes = 0 then
    k = .clear → ∀ i, i < 4 → ¬ Names w a (alignWord a) i → byteOf x i = 0
  else OddLaneFits k a v x next

theorem take_self_iff {n : Nat} (k : RegKind) (x : BitVec n) :
    k.take x x = x ↔ (k = .clear → x = 0) := by
  cases k with
  | plain => exact iff_of_true rfl nofun
  | set => exact iff_of_true BitVec.or_self nofun
  | clear =>
      rw [RegKind.take, BitVec.and_not_self]
      exact ⟨fun h _ => h.symm, fun h => (h rfl).symm⟩

theorem names_alignWord_iff {w : Width} {a : Word} {i : Nat} :
    Names w a (alignWord a) i ↔ a.toNat % 4 ≤ i ∧ i < a.toNat % 4 + w.bytes := by
  rw [Names, toNat_alignWord]
  omega

/-- The two stores, byte by byte of the word around `a`. -/
theorem take_merge_iff_bytes {k : RegKind} {w : Width} (hw : w ≠ .word) {a v x : Word} :
    k.take x (Bus.mergeWord w a v x) = takeNamed k w a v (alignWord a) x ↔
      ∀ i, i < 4 → k.take (byteOf x i)
          (if lane w a ≤ i ∧ i < lane w a + w.bytes then byteOf v (i - lane w a)
            else byteOf x i) =
        if a.toNat % 4 ≤ i ∧ i < a.toNat % 4 + w.bytes then
          k.take (byteOf x i) (byteOf v (i - a.toNat % 4)) else byteOf x i := by
  rw [eq_iff_byteOf]
  refine forall_congr' fun i => forall_congr' fun hi => ?_
  have hidx : (alignWord a).toNat + i - a.toNat = i - a.toNat % 4 := by
    rw [toNat_alignWord]
    omega
  rw [byteOf_take _ _ _ hi, byteOf_mergeWord hw _ _ _ hi, takeNamed,
    byteOf_leWord _ (Nat.le_refl 4) hi, hidx]
  simp only [names_alignWord_iff]

/-- What the write of the merged word does to the register around `a`. -/
theorem take_merge_iff {k : RegKind} {w : Width} (hw : w ≠ .word) {a v x : Word} :
    k.take x (Bus.mergeWord w a v x) = takeNamed k w a v (alignWord a) x ↔
      LaneFits k w a v x none := by
  rw [take_merge_iff_bytes hw, LaneFits]
  split
  · next hal =>
      -- the store replaces the bytes it names
      have hlane : lane w a = a.toNat % 4 := by
        cases w with
        | word => exact absurd rfl hw
        | half =>
            simp only [Width.bytes] at hal
            simp only [lane]
            omega
        | byte => rfl
      rw [hlane]
      constructor
      · intro h hk i hi hnot
        have hbyte := h i hi
        rw [if_neg (names_alignWord_iff.not.mp hnot), if_neg (names_alignWord_iff.not.mp hnot),
          take_self_iff] at hbyte
        exact hbyte hk
      · intro h i hi
        by_cases hin : a.toNat % 4 ≤ i ∧ i < a.toNat % 4 + w.bytes
        · rw [if_pos hin, if_pos hin]
        · rw [if_neg hin, if_neg hin, take_self_iff]
          exact fun hk => h hk i hi (names_alignWord_iff.not.mpr hin)
  · next hodd =>
      cases w with
      | word => exact absurd rfl hw
      | byte => exact absurd (Nat.mod_one _) hodd
      | half =>
          have htwo : Width.half.bytes = 2 := rfl
          have hodd : ¬ a.toNat % 2 = 0 := hodd
          have hlane : lane .half a = a.toNat % 4 - 1 := by
            simp only [lane]
            omega
          rw [hlane]
          have hs : a.toNat % 4 = 1 ∨ a.toNat % 4 = 3 := by omega
          refine ⟨fun h => ?_, fun h i hi => ?_⟩
          · have hb := h (a.toNat % 4 - 1) (by omega)
            have hf := h (a.toNat % 4) (by omega)
            rw [if_pos (by omega), if_neg (by omega), Nat.sub_self] at hb
            rw [if_pos (by omega), if_pos (by omega), Nat.sub_self,
              show a.toNat % 4 - (a.toNat % 4 - 1) = 1 by omega] at hf
            refine ⟨hb, hf.symm, fun hone => ?_, fun _ r hr => (by cases hr),
              fun i hi hrest => ?_⟩
            · have hs := h 2 (by decide)
              rw [if_neg (by omega), if_pos (by omega),
                show 2 - a.toNat % 4 = 1 by omega] at hs
              exact hs
            · have hr := h i hi
              rwa [if_neg (by omega), if_neg (by omega)] at hr
          · -- the byte before, the two named ones, and the others
            by_cases hbefore : i = a.toNat % 4 - 1
            · rw [hbefore, if_pos (by omega), if_neg (by omega), Nat.sub_self]
              exact h.before
            · by_cases hfirst : i = a.toNat % 4
              · rw [hfirst, if_pos (by omega), if_pos (by omega), Nat.sub_self,
                  show a.toNat % 4 - (a.toNat % 4 - 1) = 1 by omega]
                exact h.first.symm
              · by_cases hsecond : i = a.toNat % 4 + 1
                · obtain rfl : i = 2 := by omega
                  rw [if_neg (by omega), if_pos (by omega), show 2 - a.toNat % 4 = 1 by omega]
                  exact h.second (by omega)
                · rw [if_neg (by omega), if_neg (by omega)]
                  exact h.rest i hi (by omega)

/-- Only a halfword at the end of a word names a byte of the next one. -/
theorem takeNamed_other {k : RegKind} {w : Width} (hw : w ≠ .word) {a v p x : Word}
    (hp : p.toNat % 4 = 0) (hne : p.toNat ≠ (alignWord a).toNat) :
    takeNamed k w a v p x = x ↔
      (w = .half → a.toNat % 4 = 3 → p.toNat = (alignWord a).toNat + 4 →
        k.take (byteOf x 0) (byteOf v 1) = byteOf x 0) := by
  rw [toNat_alignWord] at hne ⊢
  rw [eq_iff_byteOf]
  constructor
  · rintro h rfl hthree hnext
    have hbyte := h 0 (by decide)
    have hnames : Names .half a p 0 := ⟨by omega, by simp only [Width.bytes]; omega⟩
    rw [takeNamed, byteOf_leWord _ (Nat.le_refl 4) (by decide), if_pos hnames,
      show p.toNat + 0 - a.toNat = 1 by omega] at hbyte
    exact hbyte
  · intro h i hi
    rw [takeNamed, byteOf_leWord _ (Nat.le_refl 4) hi]
    by_cases hnames : Names w a p i
    · obtain ⟨hlo, hhi⟩ := hnames
      cases w with
      | word => exact absurd rfl hw
      | byte =>
          simp only [Width.bytes] at hhi
          omega
      | half =>
          simp only [Width.bytes] at hhi
          obtain rfl : i = 0 := by omega
          rw [if_pos ⟨hlo, hhi⟩, show p.toNat + 0 - a.toNat = 1 by omega]
          exact h rfl (by omega) (by omega)
    · rw [if_neg hnames]

theorem laneFits_iff {k : RegKind} {w : Width} (hw : w ≠ .word) {a v x : Word}
    {next : Option (RegKind × Word)} :
    LaneFits k w a v x next ↔ LaneFits k w a v x none ∧
      (w = .half → a.toNat % 4 = 3 →
        ∀ r ∈ next, r.1.take (byteOf r.2 0) (byteOf v 1) = byteOf r.2 0) := by
  rw [LaneFits, LaneFits]
  split
  · next hal =>
      refine ⟨fun h => ⟨h, ?_⟩, fun h => h.1⟩
      rintro rfl hthree
      simp only [Width.bytes] at hal
      omega
  · next hodd =>
      constructor
      · intro h
        exact ⟨⟨h.before, h.first, h.second, fun _ r hr => (by cases hr), h.rest⟩, fun _ => h.spill⟩
      · rintro ⟨h, hspill⟩
        have hhalf : w = .half := by
          cases w with
          | word => exact absurd rfl hw
          | half => rfl
          | byte => exact absurd (Nat.mod_one _) hodd
        exact ⟨h.before, h.first, h.second, hspill hhalf, h.rest⟩

/-! ## Banks of the NVIC -/

/-- The register banks that set and clear the bits of a table of the NVIC. -/
inductive NvicBank where
  | iser
  | icer
  | ispr
  | icpr

namespace NvicBank

variable {δ : Type} (bank : NvicBank) (b : Bus δ)

def base : NvicBank → Nat
  | .iser => 0xE000E100
  | .icer => 0xE000E180
  | .ispr => 0xE000E200
  | .icpr => 0xE000E280

def kind : NvicBank → RegKind
  | .iser => .set
  | .icer => .clear
  | .ispr => .set
  | .icpr => .clear

def table : Table 8 Word :=
  match bank with
  | .iser => b.nvicEn
  | .icer => b.nvicEn
  | .ispr => b.nvicPend
  | .icpr => b.nvicPend

def withTable (t : Table 8 Word) : Bus δ :=
  match bank with
  | .iser => { b with nvicEn := t }
  | .icer => { b with nvicEn := t }
  | .ispr => { b with nvicPend := t }
  | .icpr => { b with nvicPend := t }

/-- The address of a register of the bank. -/
def addr (j : Fin 8) : Word := BitVec.ofNat 32 (bank.base + 4 * j.val)

theorem toNat_addr (j : Fin 8) : (bank.addr j).toNat = bank.base + 4 * j.val := by
  rw [addr, BitVec.toNat_ofNat, Nat.mod_eq_of_lt]
  cases bank <;> simp only [base] <;> omega

/-- Whether the register of the bank lies in a range of addresses. -/
theorem inRange_addr (lo hi : Word) (j : Fin 8) : lo ≤ bank.addr j ∧ bank.addr j ≤ hi ↔
    lo.toNat ≤ bank.base + 4 * j.val ∧ bank.base + 4 * j.val ≤ hi.toNat := by
  rw [BitVec.le_def, BitVec.le_def, toNat_addr]

theorem index_addr (j : Fin 8) :
    ((bank.addr j - BitVec.ofNat 32 bank.base) / 4).toNat = j.val := by
  have hbase : (BitVec.ofNat 32 bank.base).toNat = bank.base := by cases bank <;> rfl
  rw [BitVec.toNat_udiv, BitVec.toNat_sub_of_le, toNat_addr, hbase]
  · show (bank.base + 4 * j.val - bank.base) / 4 = j.val
    omega
  · rw [BitVec.le_def, toNat_addr, hbase]
    omega

theorem nvicRead_addr (j : Fin 8) : b.nvicRead (bank.addr j) = some (some (bank.table b j)) := by
  have hidx := bank.index_addr j
  have hj := j.isLt
  -- the ranges of the banks do not meet
  simp only [Bus.nvicRead, inRange_addr]
  cases bank with
  | iser =>
      rw [if_pos (by simp only [base, BitVec.reduceToNat]; omega),
        show ((addr .iser j - 0xE000E100) / 4).toNat = j.val from hidx, Table.index_of_lt _ hj]
      rfl
  | icer =>
      rw [if_neg (by simp only [base, BitVec.reduceToNat]; omega),
        if_pos (by simp only [base, BitVec.reduceToNat]; omega),
        show ((addr .icer j - 0xE000E180) / 4).toNat = j.val from hidx, Table.index_of_lt _ hj]
      rfl
  | ispr =>
      rw [if_neg (by simp only [base, BitVec.reduceToNat]; omega),
        if_neg (by simp only [base, BitVec.reduceToNat]; omega),
        if_pos (by simp only [base, BitVec.reduceToNat]; omega),
        show ((addr .ispr j - 0xE000E200) / 4).toNat = j.val from hidx, Table.index_of_lt _ hj]
      rfl
  | icpr =>
      rw [if_neg (by simp only [base, BitVec.reduceToNat]; omega),
        if_neg (by simp only [base, BitVec.reduceToNat]; omega),
        if_neg (by simp only [base, BitVec.reduceToNat]; omega),
        if_pos (by simp only [base, BitVec.reduceToNat]; omega),
        show ((addr .icpr j - 0xE000E280) / 4).toNat = j.val from hidx, Table.index_of_lt _ hj]
      rfl

theorem nvicWrite_addr (j : Fin 8) (v : Word) :
    b.nvicWrite (bank.addr j) v = some (some (bank.withTable b
      (Function.update (bank.table b) j (bank.kind.take (bank.table b j) v)))) := by
  have hidx := bank.index_addr j
  have hj := j.isLt
  simp only [Bus.nvicWrite, inRange_addr]
  cases bank with
  | iser =>
      rw [if_pos (by simp only [base, BitVec.reduceToNat]; omega),
        show ((addr .iser j - 0xE000E100) / 4).toNat = j.val from hidx, Table.modify_of_lt _ hj]
      rfl
  | icer =>
      rw [if_neg (by simp only [base, BitVec.reduceToNat]; omega),
        if_pos (by simp only [base, BitVec.reduceToNat]; omega),
        show ((addr .icer j - 0xE000E180) / 4).toNat = j.val from hidx, Table.modify_of_lt _ hj]
      rfl
  | ispr =>
      rw [if_neg (by simp only [base, BitVec.reduceToNat]; omega),
        if_neg (by simp only [base, BitVec.reduceToNat]; omega),
        if_pos (by simp only [base, BitVec.reduceToNat]; omega),
        show ((addr .ispr j - 0xE000E200) / 4).toNat = j.val from hidx, Table.modify_of_lt _ hj]
      rfl
  | icpr =>
      rw [if_neg (by simp only [base, BitVec.reduceToNat]; omega),
        if_neg (by simp only [base, BitVec.reduceToNat]; omega),
        if_neg (by simp only [base, BitVec.reduceToNat]; omega),
        if_pos (by simp only [base, BitVec.reduceToNat]; omega),
        show ((addr .icpr j - 0xE000E280) / 4).toNat = j.val from hidx, Table.modify_of_lt _ hj]
      rfl

theorem withTable_injective {t t' : Table 8 Word} (h : bank.withTable b t = bank.withTable b t') :
    t = t' := by
  cases bank with
  | iser => exact congrArg Bus.nvicEn h
  | icer => exact congrArg Bus.nvicEn h
  | ispr => exact congrArg Bus.nvicPend h
  | icpr => exact congrArg Bus.nvicPend h

end NvicBank

/-! ## Registers on the bus -/

namespace Bus

variable {δ : Type} [Mmio δ] {b : Bus δ} {a : Word}

/-- The secure alias, the flash models and the boot ROM leave an access at `a` to the rest of the
bus. -/
structure Register (b : Bus δ) (a : Word) : Prop where
  fold : b.fold a = a
  flash : b.flashWin a = none
  flashRegs : b.flashRegs a = none
  rot : b.rotFlashWin a = none
  rotRegs : b.rotFlashRegs a = none
  rom : (if b.romEnabled then Romapi.romRead32 (alignWord a) else none) = none

omit [Mmio δ] in
/-- The Ethernet block, the GPIO of the RoT and the system control space are such registers. -/
theorem register_of_range (h : 0x40028000 ≤ a.toNat ∧ a.toNat < 0x4002A000 ∨
    0x4008C000 ≤ a.toNat ∧ a.toNat < 0x40090000 ∨ 0xE000E000 ≤ a.toNat) : b.Register a := by
  have halign := toNat_alignWord a
  constructor
  · rw [fold, within_eq_false 0x10000000 0x10100000 (by decide) (by decide) (by omega),
      within_eq_false 0x30000000 0x30080000 (by decide) (by decide) (by omega)]
    split <;> rfl
  · rw [flashWin, within_eq_false 0x08000000 0x08200000 (by decide) (by decide) (by omega)]
    rfl
  · rw [flashRegs, within_eq_false 0x52002000 0x52004000 (by decide) (by decide) (by omega)]
    rfl
  · rw [rotFlashWin, within_eq_false 0 0x100000 (by decide) (by decide) (by omega)]
    rfl
  · rw [rotFlashRegs, within_eq_false 0x40034000 0x40035000 (by decide) (by decide) (by omega)]
    rfl
  · rw [Romapi.romRead32_eq_none
      (within_eq_false 0x130010F0 0x13001130 (by decide) (by decide) (by omega))
      (within_eq_false 0x03000000 0x03010000 (by decide) (by decide) (by omega)), ite_self]

theorem read32_of_register (h : b.Register a) : b.read32 a = b.readSystem a := by
  simp only [read32, h.fold, h.flash, h.flashRegs, h.rot, h.rotRegs]

theorem write32_of_register (h : b.Register a) (v : Word) :
    b.write32 a v = b.writeSystem (runTxWalk (write32N 1)) a v := by
  simp only [write32, write32N, write32With, h.fold, h.flash, h.flashRegs, h.rot, h.rotRegs]

/-- Where no region answers, a narrow store reads the word around it and writes it back. -/
theorem write_narrow {w : Width} (hw : w ≠ .word) (hfold : b.fold a = a)
    (hram : ramFor b.rams a (BitVec.ofNat 32 w.bytes) = none) (v : Word) :
    b.write w a v =
      (b.read32 (alignWord a)).bind fun r => r.2.write32 (alignWord a) (mergeWord w a v r.1) := by
  cases w with
  | word => exact absurd rfl hw
  | half =>
      simp only [write, write16, hfold, show ramFor b.rams a 2 = none from hram,
        Option.bind_eq_bind, mergeWord]
  | byte =>
      simp only [write, write8, hfold, show ramFor b.rams a 1 = none from hram,
        Option.bind_eq_bind, mergeWord]

theorem width_pos (w : Width) : 0 < w.bytes := by
  cases w <;> decide

theorem width_le (w : Width) : w.bytes ≤ 4 := by
  cases w <;> decide

/-! ### The NVIC -/

/-- The bus after a store that acts on the named bits of a bank alone. -/
def bankNamed (b : Bus δ) (bank : NvicBank) (w : Width) (a v : Word) : Bus δ :=
  bank.withTable b fun j => takeNamed bank.kind w a v (bank.addr j) (bank.table b j)

/-- The register of the bank after `j`. -/
def bankNext (b : Bus δ) (bank : NvicBank) (j : Fin 8) : Option (RegKind × Word) :=
  if h : j.val + 1 < 8 then some (bank.kind, bank.table b ⟨j.val + 1, h⟩) else none

omit [Mmio δ] in
/-- Where the registers of the NVIC are. -/
theorem bank_range {bank : NvicBank} {j : Fin 8} (ha : alignWord a = bank.addr j) :
    0xE000E100 ≤ a.toNat ∧ a.toNat < 0xE000E2A0 ∧ alignWord (alignWord a) = alignWord a := by
  have haddr := congrArg BitVec.toNat ha
  rw [bank.toNat_addr, toNat_alignWord] at haddr
  have hj := j.isLt
  have hbase : 0xE000E100 ≤ bank.base ∧ bank.base ≤ 0xE000E280 ∧ bank.base % 4 = 0 := by
    cases bank <;> decide
  refine ⟨by omega, by omega, BitVec.eq_of_toNat_eq ?_⟩
  rw [toNat_alignWord, toNat_alignWord]
  omega

theorem write_bank (hmap : b.Mapped) {bank : NvicBank} {j : Fin 8}
    (ha : alignWord a = bank.addr j) {w : Width} (hw : w ≠ .word) (v : Word) :
    b.write w a v = some (bank.withTable b (Function.update (bank.table b) j
      (bank.kind.take (bank.table b j) (mergeWord w a v (bank.table b j))))) := by
  obtain ⟨hlo, hhi, hal⟩ := bank_range ha
  have halign := toNat_alignWord a
  have hreg : b.Register a := register_of_range (by omega)
  have hreg' : b.Register (alignWord a) := register_of_range (by omega)
  have hin : ∀ x : Word, 0xE000E100 ≤ x.toNat → x.toNat < 0xE000E500 →
      within nvicLo nvicHi x = true := fun x h₁ h₂ => within_iff.mpr ⟨h₁, h₂⟩
  have hwin := hin a hlo (by omega)
  have hnot : ¬ b.Open a := fun hopen => by
    rw [hopen.nvic] at hwin
    cases hwin
  have hram := hmap.ramFor_eq_none (width_le w) (width_pos w)
    (by have := width_le w; omega) hnot
  have hwin' := hin (alignWord a) (by omega) (by omega)
  have hread : b.read32 (alignWord a) = some (bank.table b j, b) := by
    rw [read32_of_register hreg', readSystem, hreg'.rom, nvicReadWin, if_pos hwin', hal, ha,
      bank.nvicRead_addr]
    rfl
  rw [write_narrow hw hreg.fold hram, hread, Option.bind_some,
    write32_of_register hreg', writeSystem, nvicWriteWin, if_pos hwin', hal, ha,
    bank.nvicWrite_addr]
  rfl

/-- An update is all that makes the difference between two functions. -/
theorem update_eq_iff {ι α : Type} [DecidableEq ι] {t u : ι → α} {j : ι} {x : α} :
    Function.update t j x = u ↔ x = u j ∧ ∀ i, i ≠ j → t i = u i := by
  constructor
  · rintro rfl
    exact ⟨(Function.update_self j x t).symm,
      fun i hi => (Function.update_of_ne hi x t).symm⟩
  · rintro ⟨hx, ht⟩
    funext i
    by_cases hi : i = j
    · rw [hi, Function.update_self, hx]
    · rw [Function.update_of_ne hi, ht i hi]

/-- A store to a bank acts on the named bits alone if and only if it fits the register. -/
theorem write_bank_iff (hmap : b.Mapped) {bank : NvicBank} {j : Fin 8}
    (ha : alignWord a = bank.addr j) {w : Width} (hw : w ≠ .word) (v : Word) :
    b.write w a v = some (b.bankNamed bank w a v) ↔
      LaneFits bank.kind w a v (bank.table b j) (b.bankNext bank j) := by
  have haddr := congrArg BitVec.toNat ha
  rw [bank.toNat_addr] at haddr
  have hmod : bank.base % 4 = 0 := by cases bank <;> decide
  have hother : ∀ i : Fin 8, i ≠ j →
      (bank.table b i = takeNamed bank.kind w a v (bank.addr i) (bank.table b i) ↔
        (w = .half → a.toNat % 4 = 3 → i.val = j.val + 1 →
          bank.kind.take (byteOf (bank.table b i) 0) (byteOf v 1) =
            byteOf (bank.table b i) 0)) := by
    intro i hi
    have hne : i.val ≠ j.val := fun h => hi (Fin.ext h)
    rw [eq_comm, takeNamed_other hw (by rw [bank.toNat_addr]; omega)
      (by rw [bank.toNat_addr, haddr]; omega), bank.toNat_addr, haddr]
    refine imp_congr_right fun _ => imp_congr_right fun _ => ?_
    exact ⟨fun h hi => h (by omega), fun h hi => h (by omega)⟩
  have hinj : ∀ {t u : Table 8 Word}, bank.withTable b t = bank.withTable b u ↔ t = u :=
    ⟨bank.withTable_injective b, congrArg (bank.withTable b)⟩
  rw [write_bank hmap ha hw, bankNamed, Option.some.injEq, hinj, update_eq_iff,
    laneFits_iff hw, ← ha, take_merge_iff hw]
  refine and_congr_right fun _ => ?_
  constructor
  · intro h hhalf hthree r hr
    rw [bankNext] at hr
    split at hr
    · next hlt =>
        obtain rfl := Option.some.inj hr
        have hne : (⟨j.val + 1, hlt⟩ : Fin 8) ≠ j := fun h => by
          have := congrArg Fin.val h
          simp at this
        exact (hother _ hne).mp (h _ hne) hhalf hthree rfl
    · cases hr
  · intro h i hi
    refine (hother i hi).mpr fun hhalf hthree hnext => ?_
    have hlt : j.val + 1 < 8 := hnext ▸ i.isLt
    obtain rfl : i = ⟨j.val + 1, hlt⟩ := Fin.ext hnext
    exact h hhalf hthree (bank.kind, bank.table b ⟨j.val + 1, hlt⟩) (dif_pos hlt)

/-! ### The Ethernet block -/

/-- DMACSR clears the bits that are written as ones; other registers keep the word. -/
def ethKind (off : Word) : RegKind := if off = dmacsr then .clear else .plain

/-- A write of these registers starts an operation. -/
def IsCommand (off : Word) : Prop := off = dmamr ∨ off = macmdioar ∨ off = dmactxdtpr

/-- The bus after a store that acts on the named bits of the Ethernet registers alone. -/
def ethNamed (b : Bus δ) (w : Width) (a v : Word) : Bus δ :=
  { b with eth := { b.eth with
    regs := fun p => if p.toNat % 4 = 0 ∧ p.toNat < 0x2000 then
      takeNamed (ethKind p) w a v (ethBase + p) (b.eth.regs p) else b.eth.regs p } }

/-- The Ethernet register after `off`. -/
def ethNext (b : Bus δ) (off : Word) : Option (RegKind × Word) :=
  if off.toNat + 4 < 0x2000 then some (ethKind (off + 4), b.eth.regs (off + 4)) else none

theorem write_eth (hmap : b.Mapped) (hin : within ethBase ethEnd a = true) {off : Word}
    (hoff : alignWord a - ethBase = off) (hcmd : ¬ IsCommand off) {w : Width} (hw : w ≠ .word)
    (v : Word) :
    b.write w a v = some { b with eth := { b.eth with
      regs := Function.update b.eth.regs off ((ethKind off).take (b.eth.regs off)
        (mergeWord w a v (b.eth.regs off))) } } := by
  have hlo : 0x40028000 ≤ a.toNat := (within_iff.mp hin).1
  have hhi : a.toNat < 0x4002A000 := (within_iff.mp hin).2
  have halign := toNat_alignWord a
  have hreg : b.Register a := register_of_range (by omega)
  have hreg' : b.Register (alignWord a) := register_of_range (by omega)
  have hin' : within ethBase ethEnd (alignWord a) = true :=
    within_iff.mpr ⟨BitVec.le_def.mpr (by rw [halign]; show 0x40028000 ≤ _; omega),
      BitVec.lt_def.mpr (by rw [halign]; show _ < 0x4002A000; omega)⟩
  have hnvic : within nvicLo nvicHi (alignWord a) = false :=
    within_eq_false 0xE000E100 0xE000E500 rfl rfl (by omega)
  have hal : alignWord (alignWord a) = alignWord a := by
    apply BitVec.eq_of_toNat_eq
    rw [toNat_alignWord, toNat_alignWord]
    omega
  have hoffal : alignWord off = off := by
    apply BitVec.eq_of_toNat_eq
    rw [← hoff, toNat_alignWord, BitVec.toNat_sub_of_le (within_iff.mp hin').1, halign]
    show (_ - 0x40028000) / 4 * 4 = _ - 0x40028000
    omega
  have hne : ∀ c : Word, 0x4002A000 ≤ c.toNat → alignWord a ≠ c := by
    rintro c hc rfl
    omega
  have hnot : ¬ b.Open a := fun hopen => by
    rw [hopen.eth] at hin
    cases hin
  have hram := hmap.ramFor_eq_none (width_le w) (width_pos w)
    (by have := width_le w; omega) hnot
  simp only [IsCommand, not_or] at hcmd
  have hrom := hreg'.rom
  rw [hal] at hrom
  have hread : b.read32 (alignWord a) = some (b.eth.regs off, b) := by
    simp only [read32_of_register hreg', readSystem, hal, hrom, nvicReadWin, hnvic,
      if_neg (hne scbIcsr (by decide)), hin', hoff, EthDma.ethRead, EthDma.ethReg, hoffal,
      if_neg (not_or.mpr ⟨hcmd.1, hcmd.2.1⟩), Option.bind_eq_bind, Option.bind_some, if_true,
      Bool.false_eq_true, if_false]
  have hair : ∀ x : Word, ¬ (alignWord a = scbAircr ∧ x &&& 0xFFFF0000 = aircrVectkey ∧
      x &&& ((1 : Word) <<< 2) ≠ 0) := fun x h => hne scbAircr (by decide) h.1
  have hregWrite : ∀ x : Word, b.eth.regWrite off x =
      (b.eth.setReg off ((ethKind off).take (b.eth.regs off) x), false) := by
    intro x
    simp only [EthDma.regWrite, hoffal, hcmd.2.1, false_and, if_false, ethKind, EthDma.ethReg]
    split
    · next hcsr =>
        subst hcsr
        rfl
    · rw [beq_eq_false_iff_ne.mpr hcmd.2.2]
      rfl
  rw [write_narrow hw hreg.fold hram, hread, Option.bind_some, write32_of_register hreg']
  simp only [writeSystem, nvicWriteWin, hnvic, hal, if_neg (hne scbIcsr (by decide)), hin', hoff,
    if_neg (hair _), ethWrite, hregWrite, Option.bind_eq_bind, Option.bind_some, if_true,
    Bool.false_eq_true, if_false, Bool.false_and]
  rfl

/-- A store to an Ethernet register acts on the named bits alone if and only if it fits. -/
theorem write_eth_iff (hmap : b.Mapped) (hin : within ethBase ethEnd a = true) {off : Word}
    (hoff : alignWord a - ethBase = off) (hcmd : ¬ IsCommand off) {w : Width} (hw : w ≠ .word)
    (v : Word) :
    b.write w a v = some (b.ethNamed w a v) ↔
      LaneFits (ethKind off) w a v (b.eth.regs off) (b.ethNext off) := by
  have hlo : 0x40028000 ≤ a.toNat := (within_iff.mp hin).1
  have hhi : a.toNat < 0x4002A000 := (within_iff.mp hin).2
  have halign := toNat_alignWord a
  have hbase : ethBase.toNat = 0x40028000 := rfl
  have hoffNat : off.toNat = (alignWord a).toNat - 0x40028000 := by
    rw [← hoff, BitVec.toNat_sub_of_le (BitVec.le_def.mpr (by omega)), hbase]
  have hsum : ethBase + off = alignWord a := by
    apply BitVec.eq_of_toNat_eq
    rw [BitVec.toNat_add, hbase]
    omega
  have hother : ∀ p : Word, p ≠ off → (b.eth.regs p = (if p.toNat % 4 = 0 ∧ p.toNat < 0x2000 then
        takeNamed (ethKind p) w a v (ethBase + p) (b.eth.regs p) else b.eth.regs p) ↔
      (w = .half → a.toNat % 4 = 3 → p.toNat = off.toNat + 4 → off.toNat + 4 < 0x2000 →
        (ethKind p).take (byteOf (b.eth.regs p) 0) (byteOf v 1) = byteOf (b.eth.regs p) 0)) := by
    intro p hp
    have hne : p.toNat ≠ off.toNat := fun h => hp (BitVec.eq_of_toNat_eq h)
    split
    · next hreg =>
        have haddr : (ethBase + p).toNat = 0x40028000 + p.toNat := by
          rw [BitVec.toNat_add, hbase]
          omega
        rw [eq_comm, takeNamed_other hw (by omega) (by omega), haddr]
        refine imp_congr_right fun _ => imp_congr_right fun _ => ?_
        exact ⟨fun h hnext _ => h (by omega), fun h hnext => h (by omega) (by omega)⟩
    · next hreg =>
        exact iff_of_true rfl fun _ _ hnext hlt => absurd ⟨by omega, by omega⟩ hreg
  have hinj : ∀ {t u : Word → Word}, ({ b with eth := { b.eth with regs := t } } : Bus δ) =
      { b with eth := { b.eth with regs := u } } ↔ t = u :=
    ⟨fun h => congrArg (fun c => c.eth.regs) h, fun h => by rw [h]⟩
  rw [write_eth hmap hin hoff hcmd hw, ethNamed, Option.some.injEq, hinj, update_eq_iff,
    laneFits_iff hw, if_pos ⟨by omega, by omega⟩, hsum, take_merge_iff hw]
  refine and_congr_right fun _ => ?_
  constructor
  · intro h hhalf hthree r hr
    rw [ethNext] at hr
    split at hr
    · next hlt =>
        obtain rfl := Option.some.inj hr
        have hnext : (off + 4).toNat = off.toNat + 4 := by
          rw [BitVec.toNat_add]
          show (off.toNat + 4) % _ = _
          omega
        have hne : off + 4 ≠ off := fun h => by
          have := congrArg BitVec.toNat h
          omega
        exact (hother _ hne).mp (h _ hne) hhalf hthree hnext hlt
    · cases hr
  · intro h p hp
    refine (hother p hp).mpr fun hhalf hthree hnext hlt => ?_
    obtain rfl : p = off + 4 := by
      apply BitVec.eq_of_toNat_eq
      rw [hnext, BitVec.toNat_add]
      show _ = (off.toNat + 4) % _
      omega
    exact h hhalf hthree (ethKind (off + 4), b.eth.regs (off + 4)) (if_pos hlt)

omit [Mmio δ] in
/-- A register off the NVIC, the Ethernet block and the system registers is behind RAM. -/
theorem Register.isOpen (h : b.Register a) (hlt : a.toNat < 0xE000E000)
    (heth : within ethBase ethEnd a = false) : b.Open a := by
  have halign := toNat_alignWord a
  have hne : ∀ c : Word, 0xE000E000 ≤ c.toNat → alignWord a ≠ c := by
    rintro c hc rfl
    omega
  exact ⟨h.fold, h.flash, h.flashRegs, h.rot, h.rotRegs, h.rom,
    within_eq_false 0xE000E100 0xE000E500 rfl rfl (by omega), hne scbIcsr (by decide),
    hne scbAircr (by decide), heth⟩

/-- A word access that a device takes. -/
theorem readMemory_device {i : Nat} {off : Word} (hram : ramFor b.rams a 4 = none)
    (htim : within tim5BaseAddr tim5End a = false) (hdev : devFor a 0 b.devs = some (i, off)) :
    b.readMemory a = some ((Mmio.read i (alignWord off) b.mmio).1, { b with
      mmio := (Mmio.read i (alignWord off) b.mmio).2
      devTouched := true }) := by
  rw [readMemory, hram, htim, hdev]
  rfl

theorem writeMemory_device {i : Nat} {off : Word} (hram : ramFor b.rams a 4 = none)
    (htim : within tim5BaseAddr tim5End a = false) (hdev : devFor a 0 b.devs = some (i, off))
    (v : Word) :
    b.writeMemory a v = some { b with
      mmio := Mmio.write i (alignWord off) v b.mmio
      devTouched := true } := by
  rw [writeMemory, hram, htim, hdev]
  rfl

end Bus

/-! ## The pins of the LPC55 GPIO -/

namespace LpcGpio

variable (g : LpcGpio)

theorem getLsbD_setPin {pin i : Nat} (hi : i < 32) (high : Bool) :
    (g.setPin pin high).getLsbD i = if i = pin then high else g.p0.getLsbD i := by
  have hone : ((1 : Word) <<< pin).getLsbD i = decide (i = pin) := by
    rw [BitVec.getLsbD_shiftLeft, show (1 : Word) = BitVec.twoPow 32 0 from rfl,
      BitVec.getLsbD_twoPow]
    by_cases hpin : i = pin
    · subst hpin
      simp [hi]
    · by_cases hlt : i < pin
      · simp [hlt, hpin]
      · have hsub : ¬ 0 = i - pin := by omega
        simp [hsub, hpin]
  cases high with
  | true =>
      rw [setPin, if_pos rfl, BitVec.getLsbD_or, hone]
      by_cases hpin : i = pin
      · simp [hpin]
      · simp [hpin]
  | false =>
      rw [setPin, if_neg Bool.false_ne_true, BitVec.getLsbD_and, BitVec.getLsbD_not, hone]
      by_cases hpin : i = pin
      · simp [hpin]
      · simp [hpin, hi]

/-- The byte registers read 0. -/
theorem read_b (lk : SprotLink) {off : Word} (hoff : off.toNat < 32) : g.read lk off = 0 := by
  have halign := toNat_alignWord off
  have hne : ∀ c : Word, 32 ≤ c.toNat → alignWord off ≠ c := by
    rintro c hc rfl
    omega
  rw [read, if_neg (hne _ (by decide)), if_neg (hne _ (by decide))]

/-- A word written to the byte registers sets the pin of its first byte. -/
theorem levels_b {off : Word} (hoff : off.toNat < 32) (hal : off.toNat % 4 = 0) (val : Word) :
    g.levels off val = some (g.setPin off.toNat (byteOf val 0 != 0)) := by
  have halign : alignWord off = off := by
    apply BitVec.eq_of_toNat_eq
    rw [toNat_alignWord]
    omega
  have hne : ∀ c : Word, 32 ≤ c.toNat → off ≠ c := by
    rintro c hc rfl
    omega
  have hpin : (off &&& 0x1F).toNat = off.toNat := by
    rw [BitVec.toNat_and, show BitVec.toNat (0x1F : Word) = 2 ^ 5 - 1 from rfl,
      Nat.and_two_pow_sub_one_eq_mod, Nat.mod_eq_of_lt hoff]
  have hlow : (val &&& 0xFF != 0) = (byteOf val 0 != 0) := by
    have hmask : val &&& 0xFF = (byteOf val 0).setWidth 32 := by
      apply BitVec.eq_of_getLsbD_eq
      intro j hj
      have hff : (0xFF : Word).getLsbD j = (decide (j < 32) && decide (j < 8)) := getLsbD_mask 8 j
      rw [BitVec.getLsbD_and, hff, byteOf, BitVec.getLsbD_setWidth, BitVec.getLsbD_setWidth,
        BitVec.getLsbD_ushiftRight, Nat.mul_zero, Nat.zero_add]
      simp only [hj, decide_true, Bool.true_and]
      exact Bool.and_comm ..
    rw [hmask, Bool.eq_iff_iff, bne_iff_ne, bne_iff_ne, not_iff_not]
    refine ⟨fun h => ?_, fun h => by rw [h]; rfl⟩
    rw [← BitVec.setWidth_eq (byteOf val 0), ← BitVec.setWidth_setWidth_of_le (byteOf val 0)
      (by decide : 8 ≤ 32), h]
    rfl
  rw [levels, halign, if_neg (hne _ (by decide)), if_neg (hne _ (by decide)),
    if_neg (hne _ (by decide)), if_neg (hne _ (by decide)), if_pos (BitVec.lt_def.mpr hoff),
    hpin, hlow]

/-- The levels after a store to the `n` byte registers from `B[pin]` on sets the pins it names. -/
def bNamed (n pin : Nat) (v : Word) : Word :=
  (List.range n).foldl (fun p0 j =>
    if pin + j < 32 then setPin { g with p0 := p0 } (pin + j) (byteOf v j != 0) else p0) g.p0

theorem getLsbD_bNamed {n pin i : Nat} (hi : i < 32) (v : Word) :
    (g.bNamed n pin v).getLsbD i =
      if pin ≤ i ∧ i < pin + n then byteOf v (i - pin) != 0 else g.p0.getLsbD i := by
  induction n with
  | zero => exact (if_neg (by omega)).symm
  | succ n ih =>
      rw [bNamed] at ih ⊢
      rw [List.range_succ, List.foldl_append, List.foldl_cons, List.foldl_nil]
      by_cases hlast : i = pin + n
      · subst hlast
        rw [if_pos hi, getLsbD_setPin _ hi, if_pos rfl, if_pos (by omega),
          Nat.add_sub_cancel_left]
      · -- an earlier pin, or one that the store does not name
        have hkeep : ∀ c : Bool, ((pin ≤ i ∧ i < pin + (n + 1)) ↔ (pin ≤ i ∧ i < pin + n)) :=
          fun _ => by omega
        rw [if_congr (hkeep true) rfl rfl]
        split
        · rw [getLsbD_setPin _ hi, if_neg hlast]
          exact ih
        · exact ih

/-- A store to `B[pin]` sets the first pin of its word instead, from the first byte of the word:
low where the store does not name that byte. The store fits if this and the levels of the other
pins it names make no difference. -/
structure PinsFit (w : Width) (pin : Nat) (v : Word) : Prop where
  first : pin % 4 ≠ 0 →
    g.p0.getLsbD (pin / 4 * 4) = (decide (w = .half ∧ pin % 4 = 1) && byteOf v 0 != 0)
  named : ∀ j, j < w.bytes → pin + j ≠ pin / 4 * 4 → pin + j < 32 →
    g.p0.getLsbD (pin + j) = (byteOf v j != 0)

/-- What the word that the bus writes does to the pins. -/
theorem setPin_eq_iff {w : Width} (hw : w ≠ .word) {a v : Word} {pin : Nat} (hpin : pin < 32)
    (ha : a.toNat % 4 = pin % 4) :
    g.setPin (pin / 4 * 4) (byteOf (Bus.mergeWord w a v 0) 0 != 0) = g.bNamed w.bytes pin v ↔
      g.PinsFit w pin v := by
  have hword : ∀ x y : Word, x = y ↔ ∀ i, i < 32 → x.getLsbD i = y.getLsbD i :=
    fun x y => ⟨fun h i _ => by rw [h], BitVec.eq_of_getLsbD_eq⟩
  have hbyte : (byteOf (Bus.mergeWord w a v 0) 0 != 0) =
      (decide (lane w a = 0) && byteOf v 0 != 0) := by
    rw [byteOf_mergeWord hw _ _ _ (by decide)]
    by_cases hlane : lane w a = 0
    · rw [if_pos ⟨by omega, by have := Bus.width_pos w; omega⟩, hlane]
      rfl
    · rw [if_neg (by omega), decide_eq_false hlane]
      rfl
  have hlane : pin % 4 ≠ 0 → decide (lane w a = 0) = decide (w = .half ∧ pin % 4 = 1) := by
    intro hpin
    refine decide_eq_decide.mpr ?_
    cases w with
    | word => exact absurd rfl hw
    | half =>
        simp only [lane, true_and]
        omega
    | byte =>
        simp only [lane, reduceCtorEq, false_and, iff_false]
        omega
  rw [hword, hbyte]
  constructor
  · intro h
    refine ⟨fun hne => ?_, fun j hj hne hlt => ?_⟩
    · have hfirst := h (pin / 4 * 4) (by omega)
      rw [getLsbD_setPin _ (by omega), if_pos rfl, getLsbD_bNamed _ (by omega),
        if_neg (by omega), hlane hne] at hfirst
      exact hfirst.symm
    · have hpinj := h (pin + j) hlt
      rwa [getLsbD_setPin _ hlt, if_neg hne, getLsbD_bNamed _ hlt, if_pos (by omega),
        Nat.add_sub_cancel_left] at hpinj
  · intro h i hi
    rw [getLsbD_setPin _ hi, getLsbD_bNamed _ hi]
    by_cases hfirst : i = pin / 4 * 4
    · rw [if_pos hfirst]
      by_cases hal : pin % 4 = 0
      · -- the named pin is the first one
        have hzero : lane w a = 0 := by
          cases w with
          | word => exact absurd rfl hw
          | half => simp only [lane]; omega
          | byte => simp only [lane]; omega
        rw [if_pos ⟨by omega, by have := Bus.width_pos w; omega⟩, hzero,
          show i - pin = 0 by omega]
        rfl
      · rw [if_neg (by omega), hfirst, hlane hal]
        exact (h.first hal).symm
    · rw [if_neg hfirst]
      by_cases hin : pin ≤ i ∧ i < pin + w.bytes
      · have hnamed := h.named (i - pin) (by omega) (by omega) (by omega)
        rw [Nat.add_sub_cancel' hin.1] at hnamed
        rw [if_pos hin, hnamed]
      · rw [if_neg hin]

end LpcGpio

/-- The devices of a RoT on the bridge: the GPIO, the link it drives, and all others. -/
structure RotDevices (ρ : Type) where
  gpio : LpcGpio
  link : SprotLink
  others : ρ

namespace RotDevices

variable {ρ : Type} [Mmio ρ]

/-- The position of the GPIO in the device list. -/
def gpioIndex : Nat := 2

instance : Mmio (RotDevices ρ) where
  read i off m :=
    if i = gpioIndex then (m.gpio.read m.link off, m)
    else
      let (v, others) := Mmio.read i off m.others
      (v, { m with others := others })
  write i off val m :=
    if i = gpioIndex then
      let (gpio, link) := m.gpio.write m.link off val
      { m with gpio := gpio, link := link }
    else { m with others := Mmio.write i off val m.others }
  takeIrq i m :=
    if i = gpioIndex then (none, m)
    else
      let (irq, others) := Mmio.takeIrq i m.others
      (irq, { m with others := others })
  uartRxWaiting m := Mmio.uartRxWaiting m.others

end RotDevices

namespace Lpc55

open Bus

def gpioBase : Word := 0x4008C000

/-- The system control space, the SPI slave and the GPIO, which a RoT on the bridge has first. -/
def firstDevices : List Device :=
  [⟨0xE000E000, 0x1000⟩, ⟨0x4009F000, 0x1000⟩, ⟨gpioBase, 0x4000⟩]

/-- The memory map of such a RoT. -/
structure Board {ρ : Type} (b : Bus (RotDevices ρ)) : Prop where
  rams : b.rams.map Ram.window = ramWindows
  devs : ∃ more, b.devs = firstDevices ++ more
  flash : b.flash = none

variable {ρ : Type} {b : Bus (RotDevices ρ)} {a : Word}

theorem Board.ramFor_eq_none (h : Board b) {k : Nat} (hk : k ≤ 4) (hpos : 0 < k)
    (hlo : 0x20048000 ≤ a.toNat) (hhi : a.toNat + k ≤ 0x40100000) :
    ramFor b.rams a (BitVec.ofNat 32 k) = none :=
  ramFor_peripheral h.rams hk hpos hlo hhi

theorem Board.devFor_gpio (h : Board b) (hlo : 0x4008C000 ≤ a.toNat) (hhi : a.toNat < 0x40090000) :
    devFor a 0 b.devs = some (RotDevices.gpioIndex, a - gpioBase) := by
  obtain ⟨more, hdevs⟩ := h.devs
  have hin : within gpioBase (gpioBase + 0x4000) a = true := within_iff.mpr ⟨hlo, hhi⟩
  rw [hdevs, firstDevices, List.cons_append, List.cons_append, List.cons_append, devFor,
    within_eq_false 0xE000E000 0xE000F000 rfl rfl (by omega), if_neg Bool.false_ne_true, devFor,
    within_eq_false 0x4009F000 0x400A0000 rfl rfl (by omega), if_neg Bool.false_ne_true, devFor,
    if_pos hin]
  rfl

/-- The bus with the GPIO driving other levels. -/
def withPins (b : Bus (RotDevices ρ)) (p0 : Word) : Bus (RotDevices ρ) :=
  let r := ({ b.mmio.gpio with p0 := p0 } : LpcGpio).refresh b.mmio.link
  { b with mmio := { b.mmio with gpio := r.1, link := r.2 }, devTouched := true }

theorem withPins_injective {p q : Word} (h : withPins b p = withPins b q) : p = q :=
  congrArg (fun c => c.mmio.gpio.p0) h

/-- The byte register `B[pin]`. -/
def bAddr (pin : Nat) : Word := gpioBase + BitVec.ofNat 32 pin

theorem toNat_bAddr {pin : Nat} (hpin : pin < 32) : (bAddr pin).toNat = 0x4008C000 + pin := by
  rw [bAddr, toNat_add_ofNat]
  · rfl
  · show 0x4008C000 + pin < _
    omega

theorem write_b [Mmio ρ] (h : Board b) {pin : Nat} (hpin : pin < 32) {w : Width}
    (hw : w ≠ .word) (v : Word) :
    b.write w (bAddr pin) v = some (withPins b (b.mmio.gpio.setPin (pin / 4 * 4)
      (byteOf (mergeWord w (bAddr pin) v 0) 0 != 0))) := by
  have haddr := toNat_bAddr hpin
  generalize bAddr pin = a at haddr ⊢
  have halign := toNat_alignWord a
  have hreg : b.Register a := register_of_range (by omega)
  have hreg' : b.Register (alignWord a) := register_of_range (by omega)
  have hopen : b.Open (alignWord a) := hreg'.isOpen (by omega)
    (within_eq_false 0x40028000 0x4002A000 rfl rfl (by omega))
  have htim : within tim5BaseAddr tim5End (alignWord a) = false :=
    within_eq_false 0x40000C00 0x40001000 rfl rfl (by omega)
  have hram := h.ramFor_eq_none (a := a) (width_le w) (width_pos w) (by omega)
    (by have := width_le w; omega)
  have hram' := h.ramFor_eq_none (a := alignWord a) (Nat.le_refl 4) (by decide) (by omega)
    (by omega)
  have hdev := h.devFor_gpio (a := alignWord a) (by omega) (by omega)
  have hoff : alignWord a - gpioBase = BitVec.ofNat 32 (pin / 4 * 4) := by
    apply BitVec.eq_of_toNat_eq
    rw [BitVec.toNat_sub_of_le (BitVec.le_def.mpr (by rw [halign]; show 0x4008C000 ≤ _; omega)),
      BitVec.toNat_ofNat, halign]
    show _ - 0x4008C000 = _
    omega
  have hoffNat : (BitVec.ofNat 32 (pin / 4 * 4)).toNat = pin / 4 * 4 := by
    rw [BitVec.toNat_ofNat]
    omega
  have hoffal : alignWord (BitVec.ofNat 32 (pin / 4 * 4)) = BitVec.ofNat 32 (pin / 4 * 4) := by
    apply BitVec.eq_of_toNat_eq
    rw [toNat_alignWord, hoffNat]
    omega
  rw [hoff] at hdev
  have hread : b.read32 (alignWord a) = some (0, { b with devTouched := true }) := by
    rw [read32_of_open hopen, readMemory_device hram' htim hdev, hoffal]
    have hzero : b.mmio.gpio.read b.mmio.link (BitVec.ofNat 32 (pin / 4 * 4)) = 0 :=
      b.mmio.gpio.read_b b.mmio.link (by omega)
    exact congrArg (fun v => some (v, { b with devTouched := true })) hzero
  have hopen' : Open { b with devTouched := true } (alignWord a) :=
    hopen.mono ⟨rfl, rfl, rfl, rfl⟩
  rw [write_narrow hw hreg.fold hram, hread, Option.bind_some, write32, write32N,
    write32With_of_open hopen',
    writeMemory_device (b := { b with devTouched := true }) hram' htim hdev, hoffal]
  have hwrite : ∀ x, b.mmio.gpio.write b.mmio.link (BitVec.ofNat 32 (pin / 4 * 4)) x =
      ({ b.mmio.gpio with p0 := b.mmio.gpio.setPin (pin / 4 * 4) (byteOf x 0 != 0) } :
        LpcGpio).refresh b.mmio.link := by
    intro x
    rw [LpcGpio.write, b.mmio.gpio.levels_b (by omega) (by omega), hoffNat]
  simp only [Mmio.write, if_true, hwrite]
  rfl

/-- A store to the byte registers sets the pins it names if and only if it fits. -/
theorem write_b_iff [Mmio ρ] (h : Board b) {pin : Nat} (hpin : pin < 32) {w : Width}
    (hw : w ≠ .word) (v : Word) :
    b.write w (bAddr pin) v = some (withPins b (b.mmio.gpio.bNamed w.bytes pin v)) ↔
      b.mmio.gpio.PinsFit w pin v := by
  have haddr := toNat_bAddr hpin
  have hinj : ∀ {p q : Word}, withPins b p = withPins b q ↔ p = q :=
    ⟨withPins_injective, congrArg (withPins b)⟩
  rw [write_b h hpin hw, Option.some.injEq, hinj,
    b.mmio.gpio.setPin_eq_iff hw hpin (by omega)]

end Lpc55

/-! ## Main result -/

/-- A byte or halfword store to a set or clear register of the NVIC, to an Ethernet register or to
`B[pin]` acts on what it names alone if and only if it fits. -/
theorem narrow_stores {δ ρ : Type} [Mmio δ] [Mmio ρ] {w : Width} (hw : w ≠ .word) (v : Word) :
    (∀ b : Bus δ, b.Mapped → ∀ (bank : NvicBank) (j : Fin 8) (a : Word),
      alignWord a = bank.addr j →
      (b.write w a v = some (b.bankNamed bank w a v) ↔
        LaneFits bank.kind w a v (bank.table b j) (b.bankNext bank j))) ∧
    (∀ b : Bus δ, b.Mapped → ∀ (a off : Word), within ethBase ethEnd a = true →
      alignWord a - ethBase = off → ¬ Bus.IsCommand off →
      (b.write w a v = some (b.ethNamed w a v) ↔
        LaneFits (Bus.ethKind off) w a v (b.eth.regs off) (b.ethNext off))) ∧
    (∀ b : Bus (RotDevices ρ), Lpc55.Board b → ∀ pin, pin < 32 →
      (b.write w (Lpc55.bAddr pin) v =
          some (Lpc55.withPins b (b.mmio.gpio.bNamed w.bytes pin v)) ↔
        b.mmio.gpio.PinsFit w pin v)) :=
  ⟨fun _ hmap _ _ _ ha => Bus.write_bank_iff hmap ha hw v,
    fun _ hmap _ _ hin hoff hcmd => Bus.write_eth_iff hmap hin hoff hcmd hw v,
    fun _ hboard _ hpin => Lpc55.write_b_iff hboard hpin hw v⟩

/-- A bus without RAM. -/
theorem Bus.mapped_new {δ : Type} (m : δ) (en : Table 8 Word) :
    ({ Bus.new m with nvicEn := en } : Bus δ).Mapped :=
  ⟨List.Pairwise.nil, nofun, nofun⟩

/-- The only enabled IRQ is disabled by a byte store. -/
theorem narrow_stores_icer :
    let b : Bus Unit := { Bus.new () with nvicEn := fun _ => 1 }
    b.write .byte 0xE000E180 1 = some (b.bankNamed .icer .byte 0xE000E180 1) := by
  intro b
  refine ((narrow_stores (δ := Unit) (ρ := Unit) (by decide) 1).1 b (Bus.mapped_new _ _) .icer 0 _
    (by decide)).mpr ?_
  rw [LaneFits, if_pos (show (0xE000E180 : Word).toNat % Width.byte.bytes = 0 by decide)]
  decide

/-- IRQ 8 is disabled by a byte store that names IRQ 0 to 7. -/
theorem icer_byte_clears_others :
    ¬ ∀ (b : Bus Unit) (a v : Word) (j : Fin 8), b.Mapped → alignWord a = NvicBank.icer.addr j →
      b.write .byte a v = some (b.bankNamed .icer .byte a v) := by
  intro h
  have hstore := congrArg (Option.map fun c => c.nvicEn 0)
    (h { Bus.new () with nvicEn := fun _ => 0x101 } 0xE000E180 1 0 (Bus.mapped_new _ _)
      (by decide))
  revert hstore
  decide +kernel

end SpEmu
