import SpEmu.Soc.Board

/-!
# Memory a byte at a time

`read8s` and `write8s` are sequences of byte accesses. `Reaches b n a m` says which of the
`n` bytes at `a` an access has in memory: all of them in RAM, and in a flash window those before
its end. `memory_bytewise` compares the wide accesses with the sequences: a read returns the
bytes, with erased ones past the end of a window, and a write leaves a bus that reads the same.

`Mapped` is what both chips see to: their RAM regions are disjoint, and no other window of the
bus takes an address in one.
-/

set_option autoImplicit false

namespace SpEmu

open ByteMem Mem Flash

/-! ## Regions that do not meet -/

/-- No address lies in both regions. -/
def Ram.Apart (r r' : Ram) : Prop :=
  r.base.toNat + r.size.toNat ≤ r'.base.toNat ∨ r'.base.toNat + r'.size.toNat ≤ r.base.toNat

/-- The region with the bytes from offset `o` on replaced. -/
def Ram.splice (r : Ram) (o k : Nat) (f : Nat → Byte) : Ram :=
  { r with data := r.data.splice o k f }

theorem Ram.not_contains_of_apart {r r' : Ram} (h : r.Apart r') {a : Word} {k k' : Nat}
    (hin : r'.Contains a k) (hk : 0 < k) (hk' : 0 < k') : ¬ r.Contains a k' := by
  intro hin'
  rw [Ram.Contains] at hin hin'
  rw [Ram.Apart] at h
  omega

section Split

variable {l₁ l₂ : List Ram} {r : Ram} {a : Word} {k : Nat}

/-- The region that holds an access serves it, if those before it do not meet it. -/
theorem ramFor_split (hk : k ≤ 4) (hpos : 0 < k) (hout : ∀ x ∈ l₁, x.Apart r)
    (hin : r.Contains a k) (htop : r.base.toNat + r.size.toNat < 2 ^ 32) :
    ramFor (l₁ ++ r :: l₂) a (BitVec.ofNat 32 k) = some (r, a.toNat - r.base.toNat) := by
  induction l₁ with
  | nil =>
      rw [List.nil_append, ramFor_cons, if_pos (covers_of_contains hk hin htop),
        toNat_offset hin.1]
  | cons x xs ih =>
      rw [List.forall_mem_cons] at hout
      have hnot : ¬ x.covers a (BitVec.ofNat 32 k) = true := fun hcov =>
        Ram.not_contains_of_apart hout.1 hin hpos hpos
          (contains_of_covers hk hcov (Nat.lt_of_le_of_lt hin.2 htop))
      rw [List.cons_append, ramFor_cons, if_neg hnot]
      exact ih hout.2

theorem storeRam_split (hk : k ≤ 4) (hpos : 0 < k) (hout : ∀ x ∈ l₁, x.Apart r)
    (hin : r.Contains a k) (htop : r.base.toNat + r.size.toNat < 2 ^ 32) (v : Word) :
    storeRam a k v (l₁ ++ r :: l₂) =
      some (l₁ ++ r.splice (a.toNat - r.base.toNat) k (byteOf v) :: l₂) := by
  induction l₁ with
  | nil =>
      have hlen : (a - r.base).toNat + k ≤ r.size.toNat := by
        have hoff := toNat_offset hin.1
        have hend := hin.2
        have hbase := hin.1
        omega
      rw [List.nil_append, storeRam, if_pos (covers_of_contains hk hin htop), Bytes.store,
        if_pos hlen, toNat_offset hin.1]
      rfl
  | cons x xs ih =>
      rw [List.forall_mem_cons] at hout
      have hnot : ¬ x.covers a (BitVec.ofNat 32 k) = true := fun hcov =>
        Ram.not_contains_of_apart hout.1 hin hpos hpos
          (contains_of_covers hk hcov (Nat.lt_of_le_of_lt hin.2 htop))
      rw [List.cons_append, storeRam, if_neg hnot, ih hout.2]
      rfl

end Split

namespace Bus

/-- RAM regions that are disjoint, end below the top of the address space, and have no address
in another window of the bus. -/
structure Mapped {δ : Type} (b : Bus δ) : Prop where
  apart : b.rams.Pairwise Ram.Apart
  below : ∀ r ∈ b.rams, r.base.toNat + r.size.toNat < 2 ^ 32
  isOpen : ∀ r ∈ b.rams, ∀ a, r.Contains a 1 → b.Open a

section Mapped

variable {δ : Type} {b : Bus δ} {a : Word} {k : Nat}

theorem Mapped.split (h : b.Mapped) {r : Ram} (hr : r ∈ b.rams) :
    ∃ l₁ l₂, b.rams = l₁ ++ r :: l₂ ∧ ∀ x ∈ l₁, x.Apart r := by
  obtain ⟨l₁, l₂, hrams⟩ := List.append_of_mem hr
  have hapart := h.apart
  rw [hrams, List.pairwise_append] at hapart
  exact ⟨l₁, l₂, hrams, fun x hx => hapart.2.2 x hx r (List.mem_cons_self ..)⟩

/-- No region answers at an address that a flash window takes. -/
theorem Mapped.ramFor_eq_none (h : b.Mapped) (hk : k ≤ 4) (hpos : 0 < k)
    (htop : a.toNat + k < 2 ^ 32) (hwin : ¬ b.Open a) :
    ramFor b.rams a (BitVec.ofNat 32 k) = none := by
  cases hram : ramFor b.rams a (BitVec.ofNat 32 k) with
  | none => rfl
  | some x =>
      obtain ⟨hr, hcov, -⟩ := ramFor_eq_some (r := x.1) (o := x.2) hram
      obtain ⟨hbase, hend⟩ := contains_of_covers hk hcov htop
      exact absurd (h.isOpen _ hr a ⟨hbase, by omega⟩) hwin

theorem not_open_of_flashWin {f : Flash} (hf : b.flashWin a = some f) : ¬ b.Open a := by
  intro hopen
  rw [hopen.flash] at hf
  cases hf

theorem not_open_of_rotFlashWin {f : RotFlash} (hf : b.rotFlashWin a = some f) :
    ¬ b.Open a := by
  intro hopen
  rw [hopen.rot] at hf
  cases hf

end Mapped

/-! ## Programmed bytes -/

end Bus

namespace Flash

variable (f : Flash)

/-- The flash with the bytes of `v` programmed from the physical byte `o` on. -/
def programmed (o n : Nat) (v : Word) (file : Option HostFile) : Flash :=
  { f with mem := f.mem.splice o n fun i => f.mem.get (o + i) &&& byteOf v i, file := file }

theorem programmed_zero (o : Nat) (v : Word) (file : Option HostFile) :
    f.programmed o 0 v file = { f with file := file } := by
  rw [programmed, Bytes.splice_zero]

theorem get_programmed (o n : Nat) (v : Word) (file : Option HostFile) (j : Nat) :
    (f.programmed o n v file).mem.get j = if o ≤ j ∧ j < o + n ∧ j < total then
      f.mem.get j &&& byteOf v (j - o) else f.mem.get j := by
  by_cases hj : j < total
  · rw [programmed, Bytes.get_splice _ _ _ _ hj]
    by_cases hin : o ≤ j ∧ j < o + n
    · rw [if_pos hin, if_pos ⟨hin.1, hin.2, hj⟩, Nat.add_sub_cancel' hin.1]
    · rw [if_neg hin, if_neg fun h => hin ⟨h.1, h.2.1⟩]
  · rw [if_neg fun h => hj h.2.2, Bytes.get, Bytes.get, dif_neg hj, dif_neg hj]

theorem programmed_congr {f : Flash} {o n n' : Nat} {v : Word} {file : Option HostFile}
    (h : ∀ j, j < total → (j < o + n ↔ j < o + n')) :
    f.programmed o n v file = f.programmed o n' v file := by
  rw [programmed, programmed]
  congr 1
  funext j
  simp only [Bytes.splice, h j.val j.isLt]

/-- Programming one byte more. -/
theorem programmed_succ (o i : Nat) (v : Word) (file file' : Option HostFile) :
    (f.programmed o i v file).programmed (o + i) 1 ((byteOf v i).setWidth 32) file' =
      f.programmed o (i + 1) v file' := by
  have hmem : ((f.programmed o i v file).programmed (o + i) 1 ((byteOf v i).setWidth 32)
      file').mem = (f.programmed o (i + 1) v file').mem := by
    refine Bytes.ext_get fun j => ?_
    rw [get_programmed, get_programmed, get_programmed]
    by_cases hj : j = o + i
    · subst hj
      rw [if_neg (by omega : ¬ (o ≤ o + i ∧ o + i < o + i ∧ o + i < total)), Nat.sub_self,
        byteOf_byte, Nat.add_sub_cancel_left]
      by_cases hlt : o + i < total
      · rw [if_pos (by omega), if_pos (by omega)]
      · rw [if_neg (by omega), if_neg (by omega)]
    · rw [if_neg (by omega : ¬ (o + i ≤ j ∧ j < o + i + 1 ∧ j < total))]
      by_cases hin : o ≤ j ∧ j < o + i ∧ j < total
      · rw [if_pos hin, if_pos (by omega)]
      · rw [if_neg hin, if_neg (by omega)]
  simp only [programmed] at hmem ⊢
  rw [hmem]

/-- A store that programs the bytes it names. -/
theorem store_programmed {f : Flash} (h : f.Programs) (w : Width) {a : Word}
    (hin : inAperture a = true) (heven : w = .half → a.toNat % 2 = 0) (v : Word) :
    ∃ file, f.store w a v = some (f.programmed (f.physOff a) w.bytes v file) := by
  obtain ⟨mem, file, hstore, hmem⟩ := store_of_programs h w hin v
  have hstart : f.progStart w a = f.physOff a := by
    cases w with
    | half => rw [progStart, heven rfl, Nat.sub_zero]
    | word => rfl
    | byte => rfl
  refine ⟨file, hstore.trans (congrArg some ?_)⟩
  rw [programmed]
  congr 1
  refine Bytes.ext_get fun j => ?_
  rw [hmem, hstart]
  exact (f.get_programmed _ _ _ file j).symm

end Flash

namespace Bus

/-! ## Byte sequences -/

variable {δ : Type} [Mmio δ]

/-- `n` byte reads from `a` on. -/
def read8s (n : Nat) (a : Word) (b : Bus δ) : Option (List Byte × Bus δ) :=
  (List.range n).foldlM (fun s i => do
    let (x, b) ← s.2.read8 (a + BitVec.ofNat 32 i)
    some (s.1 ++ [x], b)) ([], b)

/-- Writes of the `n` low bytes of `v` from `a` on, the least significant first. -/
def write8s (n : Nat) (a v : Word) (b : Bus δ) : Option (Bus δ) :=
  (List.range n).foldlM (fun b i => b.write8 (a + BitVec.ofNat 32 i) (byteOf v i)) b

/-- The values that a sequence of reads returns. -/
def readAll : List (Width × Word) → Bus δ → Option (List Word)
  | [], _ => some []
  | (w, a) :: reads, b => do
      let (v, b) ← b.read w a
      let vs ← readAll reads b
      some (v :: vs)

section Sequences

variable {b : Bus δ} {a v : Word}

theorem read8s_eq {n : Nat} {g : Nat → Byte}
    (h : ∀ i, i < n → b.read8 (a + BitVec.ofNat 32 i) = some (g i, b)) :
    b.read8s n a = some ((List.range n).map g, b) := by
  induction n with
  | zero => rfl
  | succ n ih =>
      have hprev : b.read8s n a = some ((List.range n).map g, b) :=
        ih fun i hi => h i (by omega)
      rw [read8s] at hprev ⊢
      rw [List.range_succ, List.foldlM_append, hprev, Option.bind_eq_bind, Option.bind_some,
        List.map_append]
      simp only [List.foldlM_cons, List.foldlM_nil, h n (by omega), Option.bind_eq_bind,
        Option.bind_some, Option.pure_def, List.map_cons, List.map_nil]

/-- What every byte write of a sequence preserves, it establishes for one byte more. -/
theorem write8s_induct {P : Nat → Bus δ → Prop} {n : Nat} (hzero : P 0 b)
    (hstep : ∀ i, i < n → ∀ c, P i c →
      ∃ c', c.write8 (a + BitVec.ofNat 32 i) (byteOf v i) = some c' ∧ P (i + 1) c') :
    ∃ c, b.write8s n a v = some c ∧ P n c := by
  induction n with
  | zero => exact ⟨b, rfl, hzero⟩
  | succ n ih =>
      obtain ⟨c, hc, hP⟩ := ih fun i hi => hstep i (by omega)
      obtain ⟨c', hc', hP'⟩ := hstep n (by omega) c hP
      refine ⟨c', ?_, hP'⟩
      rw [write8s] at hc ⊢
      rw [List.range_succ, List.foldlM_append, hc, Option.bind_eq_bind, Option.bind_some]
      simp only [List.foldlM_cons, List.foldlM_nil, hc', Option.bind_eq_bind, Option.bind_some,
        Option.pure_def]

theorem write8s_idle {n : Nat}
    (h : ∀ i, i < n → b.write8 (a + BitVec.ofNat 32 i) (byteOf v i) = some b) :
    b.write8s n a v = some b := by
  obtain ⟨c, hc, rfl⟩ := write8s_induct (b := b) (a := a) (v := v) (n := n)
    (P := fun _ c => c = b) rfl fun i hi c hcb => ⟨b, hcb ▸ h i hi, rfl⟩
  exact hc

end Sequences

/-! ## Accesses in one region -/

/-- The first `m` of the `n` bytes at the folded address `a` lie in one region of memory, and the
others past the end of its window. With the banks swapped the bytes lie in one bank. -/
inductive Region (b : Bus δ) (n : Nat) (a : Word) : Nat → Prop
  | ram {r : Ram} (hr : r ∈ b.rams) (hin : r.Contains a n) : Region b n a n
  | flash {f : Flash} (hf : b.flashWin a = some f)
      (hbank : f.effectiveSwap = true → rel a % bankSize + n ≤ bankSize) :
      Region b n a (min n (total - rel a))
  | rot {f : RotFlash} (hf : b.rotFlashWin a = some f) :
      Region b n a (min n (RotFlash.size - a.toNat))

/-- The first `m` of the `n` bytes at `a` fold to consecutive addresses of one region. -/
structure Reaches (b : Bus δ) (n : Nat) (a : Word) (m : Nat) : Prop where
  fold : ∀ i, i < m → b.fold (a + BitVec.ofNat 32 i) = b.fold a + BitVec.ofNat 32 i
  region : b.Region n (b.fold a) m

/-- The store programs no other byte than those it names: one that programs the SP flash
is not a halfword at an odd address. -/
def Named (b : Bus δ) (w : Width) (a : Word) : Prop :=
  ∀ f, b.flashWin (b.fold a) = some f → f.Programs → w = .half → (b.fold a).toNat % 2 = 0

/-! ## Reads -/

section Reads

variable {b : Bus δ} {a : Word}

theorem read32_congr {x y : Word} (h : b.fold x = b.fold y) : b.read32 x = b.read32 y := by
  simp only [read32, h]

theorem read_congr {x y : Word} (h : b.fold x = b.fold y) (w : Width) :
    b.read w x = b.read w y := by
  cases w with
  | word => exact read32_congr h
  | half => simp only [read, read16, h]
  | byte => simp only [read, read8, h]

theorem toNat_add_ofNat {a : Word} {i : Nat} (h : a.toNat + i < 2 ^ 32) :
    (a + BitVec.ofNat 32 i).toNat = a.toNat + i := by
  rw [BitVec.toNat_add, BitVec.toNat_ofNat]
  omega

omit [Mmio δ] in
theorem ramFor_of_mapped (hmap : b.Mapped) {r : Ram} (hr : r ∈ b.rams) {k : Nat} (hk : k ≤ 4)
    (hpos : 0 < k) (hin : r.Contains a k) :
    ramFor b.rams a (BitVec.ofNat 32 k) = some (r, a.toNat - r.base.toNat) := by
  obtain ⟨l₁, l₂, hrams, hout⟩ := hmap.split hr
  rw [hrams]
  exact ramFor_split hk hpos hout hin (hmap.below r hr)

omit [Mmio δ] in
/-- An access in RAM is at an open address. -/
theorem open_of_contains (hmap : b.Mapped) {r : Ram} (hr : r ∈ b.rams) {k : Nat} (hpos : 0 < k)
    (hin : r.Contains a k) : b.Open a :=
  hmap.isOpen r hr a ⟨hin.1, by have := hin.2; omega⟩

theorem load_of_contains {r : Ram} {k : Nat} (hin : r.Contains a k) :
    r.data.load k (a.toNat - r.base.toNat) =
      some (leWord k fun i => r.data.get (a.toNat - r.base.toNat + i)) := by
  obtain ⟨hbase, hend⟩ := hin
  rw [Bytes.load, if_pos (by omega)]

theorem leWord_byte (g : Nat → Byte) : leWord 1 g = (g 0).setWidth 32 := by
  simp [leWord]

theorem read8_ram (hmap : b.Mapped) {r : Ram} (hr : r ∈ b.rams)
    (hin : r.Contains (b.fold a) 1) :
    b.read8 a = some (r.data.get ((b.fold a).toNat - r.base.toNat), b) := by
  have hopen := open_of_contains hmap hr (by decide) hin
  have hram : ramFor b.rams (b.fold a) 1 = some (r, (b.fold a).toNat - r.base.toNat) :=
    ramFor_of_mapped (k := 1) hmap hr (by decide) (by decide) hin
  simp only [read8, hopen.flash, hopen.rot, hram, load_of_contains hin, Option.map_some,
    leWord_byte, Nat.add_zero]
  rw [BitVec.setWidth_setWidth_of_le _ (by decide), BitVec.setWidth_eq]

theorem read_ram (hmap : b.Mapped) {r : Ram} (hr : r ∈ b.rams) (w : Width)
    (hin : r.Contains (b.fold a) w.bytes) :
    b.read w a = some (leWord w.bytes
      fun i => r.data.get ((b.fold a).toNat - r.base.toNat + i), b) := by
  have hpos : 0 < w.bytes := by cases w <;> decide
  have hk : w.bytes ≤ 4 := by cases w <;> decide
  have hopen := open_of_contains hmap hr hpos hin
  have hram := ramFor_of_mapped hmap hr hk hpos hin
  have hload := load_of_contains hin
  rw [← read_congr hopen.fold]
  cases w with
  | word =>
      rw [read, read32_of_open hopen, readMemory,
        show ramFor b.rams (b.fold a) 4 = _ from hram]
      simp only [Width.bytes] at hload
      simp only [hload, Option.map_some, Width.bytes]
  | half =>
      simp only [Width.bytes] at hload
      simp only [read, read16, hopen.fold, hopen.flash, hopen.rot,
        show ramFor b.rams (b.fold a) 2 = _ from hram, hload, Option.map_some, Width.bytes,
        truncate_leWord _ (by decide : 8 * 2 ≤ 16)]
  | byte =>
      simp only [Width.bytes] at hload
      simp only [read, read8, hopen.fold, hopen.flash, hopen.rot,
        show ramFor b.rams (b.fold a) 1 = _ from hram, hload, Option.map_some, Width.bytes,
        truncate_leWord _ (by decide : 8 * 1 ≤ 8)]

/-! ### Flash windows -/

omit [Mmio δ] in
theorem inAperture_of_flashWin {f : Flash} (hf : b.flashWin a = some f) :
    inAperture a = true := by
  rw [flashWin] at hf
  split at hf
  · assumption
  · cases hf

omit [Mmio δ] in
theorem flash_of_flashWin {f : Flash} (hf : b.flashWin a = some f) : b.flash = some f := by
  rw [flashWin] at hf
  split at hf
  · exact hf
  · cases hf

omit [Mmio δ] in
theorem flashWin_of_inAperture {f : Flash} {x : Word} (hf : b.flashWin a = some f)
    (hx : inAperture x = true) : b.flashWin x = some f := by
  rw [flashWin, if_pos (show within flashWinLo flashWinHi x = true from hx)]
  exact flash_of_flashWin hf

/-- Within its bank, or with the banks in order within the array, an access takes consecutive
physical bytes. -/
theorem physOff_add (f : Flash) {i : Nat} (hin : inAperture a = true)
    (hend : rel a + i < total)
    (hbank : f.effectiveSwap = true → rel a % bankSize + i < bankSize) :
    inAperture (a + BitVec.ofNat 32 i) = true ∧
      f.physOff (a + BitVec.ofNat 32 i) = f.physOff a + i := by
  obtain ⟨hlo, hhi⟩ := inAperture_iff.mp hin
  have hbase : flashBase.toNat = 134217728 := rfl
  have ht : total = 2097152 := rfl
  have hb : bankSize = 1048576 := rfl
  have hadd := toNat_add_ofNat (a := a) (i := i) (by rw [rel] at hend; omega)
  have hrel : rel (a + BitVec.ofNat 32 i) = rel a + i := by
    rw [rel, rel, hadd]
    omega
  have hin' : inAperture (a + BitVec.ofNat 32 i) = true :=
    inAperture_iff.mpr ⟨by omega, by omega⟩
  refine ⟨hin', ?_⟩
  rw [physOff_eq f hin', physOff_eq f hin, hrel]
  split
  · next hswap =>
      have hsame := hbank hswap
      rw [hb] at hsame ⊢
      split <;> split <;> omega
  · rfl

/-- What a wide read takes from the SP flash: bytes from the physical offset on, and erased ones
past the end of the array. -/
theorem read_flash {f : Flash} (hf : b.flashWin (b.fold a) = some f) (w : Width) :
    b.read w a = some (leWord w.bytes fun i =>
      if i < min (total - f.physOff (b.fold a)) w.bytes then f.mem.get (f.physOff (b.fold a) + i)
      else erasedByte, b) := by
  have hlt := f.physOff_lt (inAperture_of_flashWin hf)
  have hok : ∀ k, f.physOff (b.fold a) + min (total - f.physOff (b.fold a)) k ≤ total := by
    intro k
    omega
  cases w with
  | word =>
      simp only [read, read32, hf, Flash.readMem32, Flash.readBytes, if_pos (hok _),
        Option.map_some]
      rfl
  | half =>
      simp only [read, read16, hf, Flash.readMem16, Flash.readBytes, if_pos (hok _),
        Option.map_some, truncate_leWord _ (by decide : 8 * 2 ≤ 16)]
      rfl
  | byte =>
      have hone : 0 < min (total - f.physOff (b.fold a)) 1 := by omega
      simp only [read, read8, hf, Flash.readMem8, if_pos hlt, Option.map_some]
      rw [show Width.byte.bytes = 1 from rfl, leWord_byte, if_pos hone]
      rfl

theorem read8_flash {f : Flash} (hf : b.flashWin (b.fold a) = some f) :
    b.read8 a = some (f.mem.get (f.physOff (b.fold a)), b) := by
  simp only [read8, hf, Flash.readMem8, if_pos (f.physOff_lt (inAperture_of_flashWin hf)),
    Option.map_some]

omit [Mmio δ] in
theorem rotFlashWin_iff {f : RotFlash} :
    b.rotFlashWin a = some f ↔ a.toNat < RotFlash.size ∧ b.rotFlash = some f := by
  have hwin : within rotFlashWinLo rotFlashWinHi a = true ↔ a.toNat < RotFlash.size := by
    rw [within_iff, BitVec.lt_def]
    exact ⟨fun h => h.2, fun h => ⟨BitVec.le_def.mpr (Nat.zero_le _), h⟩⟩
  rw [rotFlashWin]
  split
  · next hin => exact ⟨fun h => ⟨hwin.mp hin, h⟩, fun h => h.2⟩
  · next hout => exact ⟨fun h => (by cases h), fun h => absurd (hwin.mpr h.1) hout⟩

omit [Mmio δ] in
/-- The windows of the two chips do not meet. -/
theorem flashWin_of_rotFlashWin {f : RotFlash} (hf : b.rotFlashWin a = some f) :
    b.flashWin a = none := by
  have hlt := (rotFlashWin_iff.mp hf).1
  rw [flashWin, within_eq_false_iff.mpr (Or.inl (BitVec.lt_def.mpr ?_))]
  · rfl
  · exact Nat.lt_trans hlt (by decide)

omit [Mmio δ] in
theorem flashRegs_of_rotFlashWin {f : RotFlash} (hf : b.rotFlashWin a = some f) :
    b.flashRegs a = none := by
  have hlt := (rotFlashWin_iff.mp hf).1
  rw [flashRegs, within_eq_false_iff.mpr (Or.inl (BitVec.lt_def.mpr ?_))]
  · rfl
  · exact Nat.lt_trans hlt (by decide)

/-- What a wide read takes from the RoT flash. -/
theorem read_rotFlash {f : RotFlash} (hf : b.rotFlashWin (b.fold a) = some f) (w : Width) :
    b.read w a = some (leWord w.bytes fun i =>
      if i < min (RotFlash.size - (b.fold a).toNat) w.bytes then f.mem.get ((b.fold a).toNat + i)
      else RotFlash.erasedByte, b) := by
  have hlt := (rotFlashWin_iff.mp hf).1
  have hok : ∀ k, (b.fold a).toNat + min (RotFlash.size - (b.fold a).toNat) k ≤ RotFlash.size := by
    intro k
    omega
  cases w with
  | word =>
      simp only [read, read32, flashWin_of_rotFlashWin hf, flashRegs_of_rotFlashWin hf, hf,
        RotFlash.readMem32, RotFlash.readBytes, if_pos (hok _), Option.map_some]
      rfl
  | half =>
      simp only [read, read16, flashWin_of_rotFlashWin hf, hf, RotFlash.readMem16,
        RotFlash.readBytes, if_pos (hok _), Option.map_some,
        truncate_leWord _ (by decide : 8 * 2 ≤ 16)]
      rfl
  | byte =>
      have hone : 0 < min (RotFlash.size - (b.fold a).toNat) 1 := by omega
      simp only [read, read8, flashWin_of_rotFlashWin hf, hf, RotFlash.readMem8, if_pos hlt,
        Option.map_some]
      rw [show Width.byte.bytes = 1 from rfl, leWord_byte, if_pos hone]
      rfl

theorem read8_rotFlash {f : RotFlash} (hf : b.rotFlashWin (b.fold a) = some f) :
    b.read8 a = some (f.mem.get (b.fold a).toNat, b) := by
  simp only [read8, flashWin_of_rotFlashWin hf, hf, RotFlash.readMem8,
    if_pos (rotFlashWin_iff.mp hf).1, Option.map_some]

/-- The bytes that an access has in memory read the same one by one. -/
theorem read_of_reaches (hmap : b.Mapped) {w : Width} {m : Nat} (h : b.Reaches w.bytes a m) :
    ∃ g : Nat → Byte, (∀ i, i < m → b.read8 (a + BitVec.ofNat 32 i) = some (g i, b)) ∧
      b.read w a =
        some (leWord w.bytes fun i => if i < m then g i else erasedByte, b) := by
  obtain ⟨hfold, hregion⟩ := h
  cases hregion with
  | @ram r hr hin =>
      refine ⟨fun i => r.data.get ((b.fold a).toNat - r.base.toNat + i), fun i hi => ?_, ?_⟩
      · have htop := hmap.below r hr
        have hadd := toNat_add_ofNat (a := b.fold a) (i := i) (by have := hin.2; omega)
        have hbyte : r.Contains (b.fold (a + BitVec.ofNat 32 i)) 1 := by
          rw [hfold i hi, Ram.Contains, hadd]
          have := hin.1
          have := hin.2
          omega
        rw [read8_ram hmap hr hbyte, hfold i hi, hadd, Nat.sub_add_comm hin.1]
      · rw [read_ram hmap hr w hin]
        refine congrArg (fun v => some (v, b)) (leWord_congr fun i hi => ?_)
        exact (if_pos hi).symm
  | @flash f hf hbank =>
      have hap := inAperture_of_flashWin hf
      have hrel := (inAperture_iff.mp hap).2
      have hphys := physOff_eq f hap
      refine ⟨fun i => f.mem.get (f.physOff (b.fold a) + i), fun i hi => ?_, ?_⟩
      · obtain ⟨hin, hoff⟩ := physOff_add f hap (i := i) (by omega) fun hswap => by
          have := hbank hswap
          omega
        rw [read8_flash (hfold i hi ▸ flashWin_of_inAperture hf hin), hfold i hi, hoff]
      · -- in a swapped bank the access ends with the physical bank, at the latest
        have hmin : min (total - f.physOff (b.fold a)) w.bytes =
            min w.bytes (total - rel (b.fold a)) := by
          rw [hphys]
          split
          · next hswap =>
              have hsame := hbank hswap
              have ht : total = 2097152 := rfl
              have hb : bankSize = 1048576 := rfl
              rw [hb] at hsame ⊢
              split <;> omega
          · omega
        rw [read_flash hf, hmin]
  | @rot f hf =>
      obtain ⟨hlt, -⟩ := rotFlashWin_iff.mp hf
      have hsize : RotFlash.size = 1048576 := rfl
      refine ⟨fun i => f.mem.get ((b.fold a).toNat + i), fun i hi => ?_, ?_⟩
      · have hadd := toNat_add_ofNat (a := b.fold a) (i := i) (by omega)
        have hwin : b.rotFlashWin (b.fold (a + BitVec.ofNat 32 i)) = some f := by
          rw [hfold i hi, rotFlashWin_iff, hadd]
          exact ⟨by omega, (rotFlashWin_iff.mp hf).2⟩
        rw [read8_rotFlash hwin, hfold i hi, hadd]
      · rw [read_rotFlash hf, Nat.min_comm]
        rfl

end Reads

/-! ## Writes -/

section Writes

variable {b : Bus δ} {a : Word}

omit [Mmio δ] in
theorem flashWin_alignWord {f : Flash} (hf : b.flashWin a = some f) :
    b.flashWin (alignWord a) = some f :=
  flashWin_of_inAperture hf (rel_alignWord (inAperture_of_flashWin hf)).1

/-- In the aperture a store is one of the flash model. -/
theorem write_flash (hmap : b.Mapped) {f : Flash} (hf : b.flashWin (b.fold a) = some f)
    (w : Width) (v : Word) :
    b.write w a v = (f.store w (b.fold a) v).map fun f => { b with flash := some f } := by
  have hlt := (inAperture_iff.mp (inAperture_of_flashWin hf)).2
  have htop : ∀ k, k ≤ 4 → (b.fold a).toNat + k < 2 ^ 32 := by
    intro k hk
    have hbase : flashBase.toNat = 134217728 := rfl
    have ht : total = 2097152 := rfl
    rw [rel] at hlt
    omega
  have hnone : ∀ k, k ≤ 4 → 0 < k → ramFor b.rams (b.fold a) (BitVec.ofNat 32 k) = none :=
    fun k hk hpos => hmap.ramFor_eq_none hk hpos (htop k hk) (not_open_of_flashWin hf)
  have halign : b.flashWin (b.fold (alignWord (b.fold a))) = some f := by
    rw [fold_alignWord]
    exact flashWin_alignWord hf
  have hread : b.read32 (alignWord (b.fold a)) =
      (f.readMem32 (alignWord (b.fold a))).map (·, b) := by
    simp only [read32, halign]
    rw [fold_alignWord]
  have hword : ∀ x, b.write32 (alignWord (b.fold a)) x =
      some { b with flash := some (f.writeMem (alignWord (b.fold a)) x 4) } := by
    intro x
    simp only [write32, write32N, write32With, halign]
    rw [fold_alignWord]
  cases w with
  | word => simp only [write, write32, write32N, write32With, hf, Flash.store, Option.map_some]
  | half =>
      simp only [write, write16, show ramFor b.rams (b.fold a) 2 = none from
        hnone 2 (by decide) (by decide), hread, Flash.store]
      cases hold : f.readMem32 (alignWord (b.fold a)) with
      | none => rfl
      | some old =>
          simp only [Option.map_some, Option.bind_eq_bind, Option.bind_some, hword]
          rfl
  | byte =>
      simp only [write, write8, show ramFor b.rams (b.fold a) 1 = none from
        hnone 1 (by decide) (by decide), hread, Flash.store]
      cases hold : f.readMem32 (alignWord (b.fold a)) with
      | none => rfl
      | some old =>
          simp only [Option.map_some, Option.bind_eq_bind, Option.bind_some, hword]
          rfl

theorem write_byte (x : Byte) : b.write .byte a (x.setWidth 32) = b.write8 a x := by
  rw [write, BitVec.setWidth_setWidth_of_le _ (by decide), BitVec.setWidth_eq]

/-- A store into the RoT window changes nothing. -/
theorem write_rotFlash (hmap : b.Mapped) {f : RotFlash} (hf : b.rotFlashWin (b.fold a) = some f)
    (w : Width) (v : Word) : b.write w a v = some b := by
  obtain ⟨hlt, hrot⟩ := rotFlashWin_iff.mp hf
  have hsize : RotFlash.size = 1048576 := rfl
  have hsame : { b with rotFlash := some f } = b := by rw [← hrot]
  have hnone : ∀ k, k ≤ 4 → 0 < k → ramFor b.rams (b.fold a) (BitVec.ofNat 32 k) = none :=
    fun k hk hpos => hmap.ramFor_eq_none hk hpos (by omega) (not_open_of_rotFlashWin hf)
  have halign : b.rotFlashWin (alignWord (b.fold a)) = some f := by
    rw [rotFlashWin_iff, toNat_alignWord]
    exact ⟨by omega, hrot⟩
  have hword : ∀ {x : Word}, b.rotFlashWin (b.fold x) = some f → ∀ v,
      b.write32 x v = some b := by
    intro x hx v
    simp only [write32, write32N, write32With, flashWin_of_rotFlashWin hx,
      flashRegs_of_rotFlashWin hx, hx, RotFlash.writeMem, hsame]
  have hback : b.rotFlashWin (b.fold (alignWord (b.fold a))) = some f := by
    rw [fold_alignWord, halign]
  have hread : (b.read32 (alignWord (b.fold a))) =
      (f.readMem32 (alignWord (b.fold a))).map (·, b) := by
    simp only [read32, flashWin_of_rotFlashWin hback, flashRegs_of_rotFlashWin hback, hback]
    rw [fold_alignWord]
  obtain ⟨old, hold⟩ := Option.isSome_iff_exists.mp (isSome_rotFlashRead b halign).1
  cases w with
  | word => exact hword hf v
  | half =>
      simp only [write, write16, show ramFor b.rams (b.fold a) 2 = none from
        hnone 2 (by decide) (by decide), hread, hold, Option.map_some, Option.bind_eq_bind,
        Option.bind_some, hword hback]
  | byte =>
      simp only [write, write8, show ramFor b.rams (b.fold a) 1 = none from
        hnone 1 (by decide) (by decide), hread, hold, Option.map_some, Option.bind_eq_bind,
        Option.bind_some, hword hback]

omit [Mmio δ] in
theorem splice_congr {r : Ram} {o k : Nat} {g h : Nat → Byte} (hgh : ∀ i, i < k → g i = h i) :
    r.splice o k g = r.splice o k h := by
  rw [Ram.splice, Ram.splice]
  congr 1
  funext i
  simp only [Bytes.splice]
  split
  · exact hgh _ (by omega)
  · rfl

/-- A store in RAM replaces its bytes in the region that holds them. -/
theorem write_ram {l₁ l₂ : List Ram} {r : Ram} (hrams : b.rams = l₁ ++ r :: l₂)
    (hout : ∀ x ∈ l₁, x.Apart r) (htop : r.base.toNat + r.size.toNat < 2 ^ 32)
    (hopen : b.Open (b.fold a)) {w : Width} (hin : r.Contains (b.fold a) w.bytes) (v : Word) :
    b.write w a v = some { b with
      rams := l₁ ++ r.splice ((b.fold a).toNat - r.base.toNat) w.bytes (byteOf v) :: l₂ } := by
  have hpos : 0 < w.bytes := by cases w <;> decide
  have hk : w.bytes ≤ 4 := by cases w <;> decide
  have hram : ramFor (l₁ ++ r :: l₂) _ _ = _ := ramFor_split hk hpos hout hin htop
  have hstore : ∀ v, storeRam _ _ v (l₁ ++ r :: l₂) = _ :=
    storeRam_split hk hpos hout hin htop
  rw [← hrams] at hram hstore
  cases w with
  | word =>
      have hword : b.write32 a v = b.write32 (b.fold a) v := by
        simp only [write32, write32N, write32With, hopen.fold]
      rw [write, hword, write32, write32N, write32With_of_open hopen, writeMemory,
        show ramFor b.rams (b.fold a) 4 = _ from hram]
      simp only [show storeRam (b.fold a) 4 v b.rams = _ from hstore v, Option.map_some]
  | half =>
      simp only [write, write16, show ramFor b.rams (b.fold a) 2 = _ from hram,
        show storeRam (b.fold a) 2 ((v.setWidth 16).setWidth 32) b.rams = _ from hstore _,
        Option.map_some]
      rw [splice_congr fun i hi => byteOf_truncate v (by decide)
        (by simp only [Width.bytes] at hi; omega)]
  | byte =>
      simp only [write, write8, show ramFor b.rams (b.fold a) 1 = _ from hram,
        show storeRam (b.fold a) 1 ((v.setWidth 8).setWidth 32) b.rams = _ from hstore _,
        Option.map_some]
      rw [splice_congr fun i hi => byteOf_truncate v (by decide)
        (by simp only [Width.bytes] at hi; omega)]

/-- The bus without the backing file of the SP flash, which no read looks at. -/
def forget (b : Bus δ) : Bus δ :=
  { b with flash := b.flash.map fun f => { f with file := none } }

/-- Byte writes program the same bytes as one store of them. -/
theorem write8s_flash (hmap : b.Mapped) {f : Flash} (hf : b.flashWin (b.fold a) = some f)
    (hp : f.Programs) {m : Nat} (hfold : ∀ i, i < m →
      b.fold (a + BitVec.ofNat 32 i) = b.fold a + BitVec.ofNat 32 i)
    (hin : rel (b.fold a) + m ≤ total)
    (hbank : f.effectiveSwap = true → rel (b.fold a) % bankSize + m ≤ bankSize) (v : Word) :
    ∃ file, b.write8s m a v = some { b with
      flash := some (f.programmed (f.physOff (b.fold a)) m v file) } := by
  have hap := inAperture_of_flashWin hf
  have hflash := flash_of_flashWin hf
  -- after `i` writes the first `i` bytes are programmed
  obtain ⟨c, hc, file, rfl⟩ := write8s_induct (b := b) (a := a) (v := v) (n := m)
    (P := fun i c => ∃ file, c = { b with
      flash := some (f.programmed (f.physOff (b.fold a)) i v file) })
    ⟨f.file, by rw [f.programmed_zero, ← hflash]⟩
    (by
      rintro i hi c ⟨file, rfl⟩
      obtain ⟨hin', hoff⟩ := physOff_add f hap (i := i) (by omega) fun hswap => by
        have := hbank hswap
        omega
      have hmap' : Mapped { b with
          flash := some (f.programmed (f.physOff (b.fold a)) i v file) } :=
        ⟨hmap.apart, hmap.below, fun r hr x hx => (hmap.isOpen r hr x hx).mono
          ⟨rfl, rfl, by rw [hflash]; rfl, rfl⟩⟩
      have hwin : flashWin { b with
          flash := some (f.programmed (f.physOff (b.fold a)) i v file) }
          (b.fold (a + BitVec.ofNat 32 i)) =
          some (f.programmed (f.physOff (b.fold a)) i v file) := by
        rw [hfold i hi]
        exact if_pos hin'
      obtain ⟨file', hstore⟩ := (f.programmed (f.physOff (b.fold a)) i v file).store_programmed
        hp .byte hin' nofun ((byteOf v i).setWidth 32)
      refine ⟨_, ?_, file', rfl⟩
      have hw := write_flash hmap' hwin .byte ((byteOf v i).setWidth 32)
      rw [write_byte] at hw
      refine hw.trans ?_
      rw [show fold { b with flash := some (f.programmed (f.physOff (b.fold a)) i v file) }
        (a + BitVec.ofNat 32 i) = b.fold a + BitVec.ofNat 32 i from hfold i hi, hstore]
      have hoff' : (f.programmed (f.physOff (b.fold a)) i v file).physOff
          (b.fold a + BitVec.ofNat 32 i) = f.physOff (b.fold a) + i := hoff
      rw [hoff', Width.bytes, f.programmed_succ]
      rfl)
  exact ⟨file, hc⟩

/-- One byte more of a splice. -/
theorem splice_succ (r : Ram) (o i : Nat) (v : Word) :
    (r.splice o i (byteOf v)).splice (o + i) 1 (byteOf ((byteOf v i).setWidth 32)) =
      r.splice o (i + 1) (byteOf v) := by
  simp only [Ram.splice]
  congr 1
  funext j
  simp only [Bytes.splice]
  by_cases hj : j.val = o + i
  · rw [if_pos (by omega), if_pos (by omega), hj, Nat.sub_self, byteOf_byte,
      Nat.add_sub_cancel_left]
  · rw [if_neg (by omega)]
    by_cases hin : o ≤ j.val ∧ j.val < o + i
    · rw [if_pos hin, if_pos (by omega)]
    · rw [if_neg hin, if_neg (by omega)]

theorem write8s_ram (hmap : b.Mapped) {l₁ l₂ : List Ram} {r : Ram}
    (hrams : b.rams = l₁ ++ r :: l₂) (hout : ∀ x ∈ l₁, x.Apart r) {m : Nat}
    (hfold : ∀ i, i < m → b.fold (a + BitVec.ofNat 32 i) = b.fold a + BitVec.ofNat 32 i)
    (hin : r.Contains (b.fold a) m) (v : Word) :
    b.write8s m a v = some { b with
      rams := l₁ ++ r.splice ((b.fold a).toNat - r.base.toNat) m (byteOf v) :: l₂ } := by
  have hr : r ∈ b.rams := by
    rw [hrams]
    exact List.mem_append_right _ (List.mem_cons_self ..)
  have htop := hmap.below r hr
  -- after `i` writes the first `i` bytes are replaced
  obtain ⟨c, hc, rfl⟩ := write8s_induct (b := b) (a := a) (v := v) (n := m)
    (P := fun i c => c = { b with
      rams := l₁ ++ r.splice ((b.fold a).toNat - r.base.toNat) i (byteOf v) :: l₂ })
    (by
      rw [Ram.splice, Bytes.splice_zero]
      exact congrArg (fun rams => { b with rams := rams }) hrams)
    (by
      rintro i hi c rfl
      refine ⟨_, ?_, rfl⟩
      have hadd := toNat_add_ofNat (a := b.fold a) (i := i) (by have := hin.2; omega)
      have hbyte : r.Contains (b.fold a + BitVec.ofNat 32 i) 1 := by
        rw [Ram.Contains, hadd]
        have := hin.1
        have := hin.2
        omega
      have hopen : Open { b with
          rams := l₁ ++ r.splice ((b.fold a).toNat - r.base.toNat) i (byteOf v) :: l₂ }
          (b.fold a + BitVec.ofNat 32 i) :=
        (hmap.isOpen r hr _ hbyte).mono ⟨rfl, rfl, rfl, rfl⟩
      rw [← hfold i hi] at hopen hbyte hadd
      have hw := write_ram (b := { b with
          rams := l₁ ++ r.splice ((b.fold a).toNat - r.base.toNat) i (byteOf v) :: l₂ })
        (a := a + BitVec.ofNat 32 i) rfl hout htop hopen (w := .byte) hbyte
        ((byteOf v i).setWidth 32)
      rw [write_byte] at hw
      refine hw.trans (congrArg some ?_)
      have hoff : (b.fold (a + BitVec.ofNat 32 i)).toNat - r.base.toNat =
          (b.fold a).toNat - r.base.toNat + i := by
        rw [hadd, Nat.sub_add_comm hin.1]
      have hsplice := splice_succ r ((b.fold a).toNat - r.base.toNat) i v
      rw [← hoff] at hsplice
      exact congrArg (fun x => { b with rams := l₁ ++ x :: l₂ }) hsplice)
  exact hc

/-- A store and the byte writes of its bytes leave buses that differ at most in the backing
file. -/
theorem write_of_reaches (hmap : b.Mapped) {w : Width} {m : Nat} (h : b.Reaches w.bytes a m)
    (hnamed : b.Named w a) (v : Word) :
    ∃ b₁ b₂, b.write w a v = some b₁ ∧ b.write8s m a v = some b₂ ∧ b₁.forget = b₂.forget := by
  obtain ⟨hfold, hregion⟩ := h
  cases hregion with
  | @ram r hr hin =>
      obtain ⟨l₁, l₂, hrams, hout⟩ := hmap.split hr
      have hpos : 0 < w.bytes := by cases w <;> decide
      exact ⟨_, _, write_ram hrams hout (hmap.below r hr) (open_of_contains hmap hr hpos hin) hin v,
        write8s_ram hmap hrams hout hfold hin v, rfl⟩
  | @flash f hf hbank =>
      have hap := inAperture_of_flashWin hf
      have hrel := (inAperture_iff.mp hap).2
      by_cases hp : f.Programs
      · obtain ⟨file, hstore⟩ := store_programmed hp w hap (hnamed f hf hp) v
        obtain ⟨file', hbytes⟩ := write8s_flash hmap hf hp hfold (by omega)
          (fun hswap => by have := hbank hswap; omega) v
        refine ⟨{ b with flash := some (f.programmed (f.physOff (b.fold a)) w.bytes v file) }, _,
          ?_, hbytes, ?_⟩
        · rw [write_flash hmap hf, hstore]
          rfl
        · -- what the store names past the end of the array is not there
          have hsame : (f.programmed (f.physOff (b.fold a)) w.bytes v none) =
              f.programmed (f.physOff (b.fold a)) (min w.bytes (total - rel (b.fold a))) v
                none := by
            refine programmed_congr ?_
            have hphys := physOff_eq f hap
            have ht : total = 2097152 := rfl
            have hb : bankSize = 1048576 := rfl
            -- either every byte is inside, or the array ends with the aperture
            have hend : min w.bytes (total - rel (b.fold a)) = w.bytes ∨
                f.physOff (b.fold a) + min w.bytes (total - rel (b.fold a)) = total := by
              rw [hphys]
              split
              · next hswap =>
                  have hsame := hbank hswap
                  rw [hb] at hsame ⊢
                  left
                  omega
              · omega
            intro j hj
            omega
          exact congrArg (fun f => { b with flash := some f }) hsame
      · have hidle : ∀ {w : Width} {x : Word} (v : Word), b.flashWin (b.fold x) = some f →
            b.write w x v = some b := by
          intro w x v hx
          rw [write_flash hmap hx, store_of_not_programs hp w (inAperture_of_flashWin hx),
            Option.map_some, ← flash_of_flashWin hf]
        refine ⟨b, b, hidle v hf, write8s_idle fun i hi => ?_, rfl⟩
        obtain ⟨hin', -⟩ := physOff_add f hap (i := i) (by omega) fun hswap => by
          have := hbank hswap
          omega
        have hw := hidle (w := .byte) ((byteOf v i).setWidth 32)
          (hfold i hi ▸ flashWin_of_inAperture hf hin')
        rwa [write_byte] at hw
  | @rot f hf =>
      refine ⟨b, b, write_rotFlash hmap hf w v, ?_, rfl⟩
      refine write8s_idle fun i hi => ?_
      obtain ⟨hlt, hrot⟩ := rotFlashWin_iff.mp hf
      have hsize : RotFlash.size = 1048576 := rfl
      have hwin : b.rotFlashWin (b.fold (a + BitVec.ofNat 32 i)) = some f := by
        rw [hfold i hi, rotFlashWin_iff, toNat_add_ofNat (by omega)]
        exact ⟨by omega, hrot⟩
      have hw := write_rotFlash hmap hwin .byte ((byteOf v i).setWidth 32)
      rwa [write_byte] at hw

end Writes

/-! ## Later reads -/

section Later

variable {b : Bus δ} {a : Word}

/-- A result with the backing file forgotten. -/
def forgetResult {α : Type} (r : α × Bus δ) : α × Bus δ := (r.1, r.2.forget)

omit [Mmio δ] in
theorem forget_window {c : Bool} :
    (if c then b.forget.flash else none) =
      (if c then b.flash else none).map fun f => { f with file := none } := by
  cases c with
  | true => rfl
  | false => rfl

theorem readMemory_forget : b.forget.readMemory a = (b.readMemory a).map forgetResult := by
  rw [readMemory, readMemory, show b.forget.rams = b.rams from rfl]
  split
  · rw [Option.map_map]
    rfl
  · split
    · split
      · rfl
      · rw [Option.map_map]
        rfl
    · rw [show b.forget.devs = b.devs from rfl]
      split
      · rfl
      · rfl

theorem readSystem_forget : b.forget.readSystem a = (b.readSystem a).map forgetResult := by
  rw [readSystem, readSystem, show b.forget.romEnabled = b.romEnabled from rfl,
    show b.forget.nvicReadWin a = b.nvicReadWin a from rfl]
  split
  · rfl
  · cases b.nvicReadWin a with
    | none => rfl
    | some o =>
        cases o with
        | some v => rfl
        | none =>
            simp only [Option.bind_eq_bind, Option.bind_some]
            split
            · rfl
            · split
              · rfl
              · exact readMemory_forget

theorem read32_forget : b.forget.read32 a = (b.read32 a).map forgetResult := by
  simp only [read32, show b.forget.fold a = b.fold a from rfl, flashWin, flashRegs,
    forget_window, show b.forget.rotFlashWin = b.rotFlashWin from rfl,
    show b.forget.rotFlashRegs = b.rotFlashRegs from rfl]
  cases (if within flashWinLo flashWinHi (b.fold a) = true then b.flash else none) with
  | some f =>
      simp only [Option.map_some, Option.map_map]
      rfl
  | none =>
      cases (if within flashRegLo flashRegHi (b.fold a) = true then b.flash else none) with
      | some f => rfl
      | none =>
          cases b.rotFlashWin (b.fold a) with
          | some f =>
              simp only [Option.map_none, Option.map_map]
              rfl
          | none =>
              cases b.rotFlashRegs (b.fold a) with
              | some f => rfl
              | none => exact readSystem_forget

theorem read16_forget : b.forget.read16 a = (b.read16 a).map forgetResult := by
  simp only [read16, show b.forget.fold a = b.fold a from rfl, flashWin, forget_window,
    show b.forget.rotFlashWin = b.rotFlashWin from rfl, show b.forget.rams = b.rams from rfl,
    read32_forget]
  cases (if within flashWinLo flashWinHi (b.fold a) = true then b.flash else none) with
  | some f =>
      simp only [Option.map_some, Option.map_map]
      rfl
  | none =>
      cases b.rotFlashWin (b.fold a) with
      | some f =>
          simp only [Option.map_none, Option.map_map]
          rfl
      | none =>
          cases ramFor b.rams (b.fold a) 2 with
          | some r =>
              simp only [Option.map_none, Option.map_map]
              rfl
          | none =>
              cases b.read32 (alignWord (b.fold a)) with
              | none => rfl
              | some r => rfl

theorem read8_forget : b.forget.read8 a = (b.read8 a).map forgetResult := by
  simp only [read8, show b.forget.fold a = b.fold a from rfl, flashWin, forget_window,
    show b.forget.rotFlashWin = b.rotFlashWin from rfl, show b.forget.rams = b.rams from rfl,
    read32_forget]
  cases (if within flashWinLo flashWinHi (b.fold a) = true then b.flash else none) with
  | some f =>
      simp only [Option.map_some, Option.map_map]
      rfl
  | none =>
      cases b.rotFlashWin (b.fold a) with
      | some f =>
          simp only [Option.map_none, Option.map_map]
          rfl
      | none =>
          cases ramFor b.rams (b.fold a) 1 with
          | some r =>
              simp only [Option.map_none, Option.map_map]
              rfl
          | none =>
              cases b.read32 (alignWord (b.fold a)) with
              | none => rfl
              | some r => rfl

theorem read_forget (w : Width) : b.forget.read w a = (b.read w a).map forgetResult := by
  cases w with
  | word => exact read32_forget
  | half =>
      rw [read, read, read16_forget, Option.map_map, Option.map_map]
      rfl
  | byte =>
      rw [read, read, read8_forget, Option.map_map, Option.map_map]
      rfl

/-- No sequence of reads looks at the backing file. -/
theorem readAll_forget (reads : List (Width × Word)) :
    b.forget.readAll reads = b.readAll reads := by
  induction reads generalizing b with
  | nil => rfl
  | cons r reads ih =>
      obtain ⟨w, a⟩ := r
      rw [readAll, readAll, read_forget]
      cases b.read w a with
      | none => rfl
      | some r =>
          show (r.2.forget.readAll reads).bind _ = (r.2.readAll reads).bind _
          rw [ih]

end Later

/-! ## Main result -/

/-- Nothing on the bus takes a word access at the folded address. -/
structure Nobody (b : Bus δ) (a : Word) : Prop where
  isOpen : b.Open a
  ram : ramFor b.rams a 4 = none
  tim5 : within tim5BaseAddr tim5End a = false
  device : devFor a 0 b.devs = none

/-- A read of any width is the bytes of the region it reaches, and erased ones past the end of a
flash window; a write and its byte writes are the same to all later reads. A word access that
nothing takes, such as one across the end of RAM, reads 0 and changes nothing. -/
theorem memory_bytewise (b : Bus δ) (hmap : b.Mapped) (w : Width) (a : Word) :
    (∀ m, b.Reaches w.bytes a m →
      (b.read w a).isSome ∧
      b.read w a = (b.read8s m a).map
        (fun r => (leWord w.bytes fun i => r.1.getD i erasedByte, r.2)) ∧
      (b.Named w a → ∀ v, ∃ b₁ b₂, b.write w a v = some b₁ ∧ b.write8s m a v = some b₂ ∧
        ∀ reads, b₁.readAll reads = b₂.readAll reads)) ∧
    (b.Nobody (b.fold a) → b.read32 a = some (0, b) ∧ ∀ v, b.write32 a v = some b) := by
  refine ⟨fun m h => ?_, fun h => ⟨?_, fun v => ?_⟩⟩
  · obtain ⟨g, hbytes, hread⟩ := read_of_reaches hmap h
    refine ⟨by rw [hread]; rfl, ?_, fun hnamed v => ?_⟩
    · rw [hread, read8s_eq hbytes, Option.map_some]
      refine congrArg (fun v => some (v, b)) (leWord_congr fun i hi => ?_)
      by_cases hm : i < m
      · simp [hm]
      · simp [hm]
    · obtain ⟨b₁, b₂, hw, hws, hforget⟩ := write_of_reaches hmap h hnamed v
      refine ⟨b₁, b₂, hw, hws, fun reads => ?_⟩
      rw [← readAll_forget, hforget, readAll_forget]
  · rw [← read32_congr h.isOpen.fold, read32_of_open h.isOpen, readMemory, h.ram, h.tim5, h.device]
    rfl
  · have hword : b.write32 a v = b.write32 (b.fold a) v := by
      simp only [write32, write32N, write32With, h.isOpen.fold]
    rw [hword, write32, write32N, write32With_of_open h.isOpen, writeMemory, h.ram, h.tim5,
      h.device]
    rfl

/-- Reading off the end of the SP flash finds erased bytes, whatever is at the next address. -/
theorem end_of_flash_reads_erased :
    ¬ ∀ (b : Bus Unit) (a : Word), (b.flashWin a).isSome →
      (b.read .half a).map Prod.fst =
        (b.read8s 2 a).map fun r => leWord 2 fun i => r.1.getD i 0 := by
  intro h
  have hend := h ((Bus.new ()).installFlash Flash.blank) (flashWinHi - 1) (by decide +kernel)
  revert hend
  decide +kernel

end Bus

/-! ## The maps of the two chips -/

theorem within_eq_false {lo hi a : Word} (l u : Nat) (hlo : lo.toNat = l) (hhi : hi.toNat = u)
    (h : a.toNat < l ∨ u ≤ a.toNat) : within lo hi a = false := by
  rw [within_eq_false_iff, BitVec.lt_def, BitVec.le_def, hlo, hhi]
  exact h

/-- The regions are apart if their windows are. -/
theorem pairwise_apart {rams : List Ram} (h : (rams.map Ram.window).Pairwise fun w w' =>
    w.1.toNat + w.2.toNat ≤ w'.1.toNat ∨ w'.1.toNat + w'.2.toNat ≤ w.1.toNat) :
    rams.Pairwise Ram.Apart :=
  (List.pairwise_map (R := fun w w' : Word × Word =>
    w.1.toNat + w.2.toNat ≤ w'.1.toNat ∨ w'.1.toNat + w'.2.toNat ≤ w.1.toNat)).mp h

/-- What holds of every window holds of every region. -/
theorem forall_ram_of_window {rams : List Ram} {P : Word × Word → Prop} [DecidablePred P]
    (h : (rams.map Ram.window).all (fun w => decide (P w)) = true) : ∀ r ∈ rams, P r.window :=
  fun _ hr => of_decide_eq_true (List.all_eq_true.mp h _ (List.mem_map_of_mem hr))

namespace Board

open Bus Soc

variable {ρ : Type} {b : Bus (SpDevices ρ)}

/-- All windows of the SP's bus but the flash aperture are above its RAM. -/
theorem ownWindow_of_ram {a : Word} (hflash : a.toNat < 0x8000000 ∨ 0x8200000 ≤ a.toNat)
    (hlow : a.toNat < 0x40028000) : ownWindow a = false := by
  have halign : (alignWord a).toNat < 0x40028000 := by
    rw [toNat_alignWord]
    omega
  have hbelow : ∀ {lo hi : Word}, 0x40028000 ≤ lo.toNat → within lo hi a = false :=
    fun h => within_eq_false_iff.mpr (Or.inl (BitVec.lt_def.mpr (by omega)))
  have hne : ∀ c : Word, 0x40028000 ≤ c.toNat → alignWord a ≠ c := by
    rintro c hc rfl
    omega
  have hwin : within flashWinLo flashWinHi a = false := by
    rw [within_eq_false_iff, BitVec.lt_def, BitVec.le_def]
    exact hflash
  simp only [ownWindow, hwin, hbelow (by decide : 0x40028000 ≤ flashRegLo.toNat),
    hbelow (by decide : 0x40028000 ≤ nvicLo.toNat),
    hbelow (by decide : 0x40028000 ≤ ethBase.toNat),
    beq_eq_false_iff_ne.mpr (hne scbIcsr (by decide)),
    beq_eq_false_iff_ne.mpr (hne scbAircr (by decide)), Bool.or_self]

theorem mapped (h : Board b) : b.Mapped where
  apart := pairwise_apart (by rw [h.rams]; decide)
  below := forall_ram_of_window (P := fun w => w.1.toNat + w.2.toNat < 2 ^ 32)
    (by rw [h.rams]; decide)
  isOpen := by
    intro r hr a ⟨hlo, hhi⟩
    have hram := forall_ram_of_window (P := fun w => w.1.toNat + w.2.toNat ≤ 0x40028000 ∧
      (w.1.toNat + w.2.toNat ≤ 0x8000000 ∨ 0x8200000 ≤ w.1.toNat))
      (by rw [h.rams]; decide) r hr
    simp only [Ram.window] at hram
    exact h.isOpen (ownWindow_of_ram (by omega) (by omega))

end Board

namespace Lpc55

open Bus

/-- Main SRAM and USB SRAM. -/
def ramWindows : List (Word × Word) := [(0x20000000, 0x48000), (0x40100000, 0x4000)]

def installMemory {δ : Type} (b : Bus δ) : Bus δ :=
  (b.addRam 0x20000000 0x48000 (by decide)).addRam 0x40100000 0x4000 (by decide)

/-- RAM, and the peripherals below the flash controller and the Ethernet block. -/
theorem open_of_ram {δ : Type} {b : Bus δ} (hflash : b.flash = none) {a : Word}
    (h : 0x20000000 ≤ a.toNat ∧ a.toNat < 0x20048000 ∨
      0x40000000 ≤ a.toNat ∧ a.toNat < 0x40028000 ∨
      0x40100000 ≤ a.toNat ∧ a.toNat < 0x40104000) : b.Open a := by
  have halign := toNat_alignWord a
  have hne : ∀ c : Word, 0x40104000 ≤ c.toNat → alignWord a ≠ c := by
    rintro c hc rfl
    omega
  constructor
  · rw [fold, within_eq_false 0x10000000 0x10100000 (by decide) (by decide) (by omega),
      within_eq_false 0x30000000 0x30080000 (by decide) (by decide) (by omega)]
    split <;> rfl
  · rw [flashWin, hflash, ite_self]
  · rw [flashRegs, hflash, ite_self]
  · rw [rotFlashWin, within_eq_false 0 0x100000 (by decide) (by decide) (by omega)]
    rfl
  · rw [rotFlashRegs, within_eq_false 0x40034000 0x40035000 (by decide) (by decide) (by omega)]
    rfl
  · rw [Romapi.romRead32_eq_none
      (within_eq_false 0x130010F0 0x13001130 (by decide) (by decide) (by omega))
      (within_eq_false 0x03000000 0x03010000 (by decide) (by decide) (by omega)), ite_self]
  · exact within_eq_false 0xE000E100 0xE000E500 (by decide) (by decide) (by omega)
  · exact hne scbIcsr (by decide)
  · exact hne scbAircr (by decide)
  · exact within_eq_false 0x40028000 0x4002A000 (by decide) (by decide) (by omega)

/-- The RoT has no SP flash, and its RAM is in no other window. -/
theorem mapped {δ : Type} {b : Bus δ} (hrams : b.rams.map Ram.window = ramWindows)
    (hflash : b.flash = none) : b.Mapped where
  apart := pairwise_apart (by rw [hrams]; decide)
  below := forall_ram_of_window (P := fun w => w.1.toNat + w.2.toNat < 2 ^ 32)
    (by rw [hrams]; decide)
  isOpen := by
    intro r hr a ⟨hlo, hhi⟩
    have hram := forall_ram_of_window (P := fun w =>
      0x20000000 ≤ w.1.toNat ∧ w.1.toNat + w.2.toNat ≤ 0x20048000 ∨
        0x40100000 ≤ w.1.toNat ∧ w.1.toNat + w.2.toNat ≤ 0x40104000)
      (by rw [hrams]; decide) r hr
    simp only [Ram.window] at hram
    exact open_of_ram hflash (by omega)

theorem mapped_install {δ : Type} (m : δ) : (installMemory (Bus.new m)).Mapped :=
  mapped rfl rfl

/-- The peripherals are between the two regions. -/
theorem ramFor_peripheral {rams : List Ram} (hrams : rams.map Ram.window = ramWindows) {a : Word}
    {k : Nat} (hk : k ≤ 4) (hpos : 0 < k) (hlo : 0x20048000 ≤ a.toNat)
    (hhi : a.toNat + k ≤ 0x40100000) : ramFor rams a (BitVec.ofNat 32 k) = none := by
  cases hram : ramFor rams a (BitVec.ofNat 32 k) with
  | none => rfl
  | some x =>
      obtain ⟨hr, hcov, -⟩ := ramFor_eq_some (r := x.1) (o := x.2) hram
      obtain ⟨hbase, hend⟩ := contains_of_covers hk hcov (by omega)
      have hwin := forall_ram_of_window (P := fun w =>
        w.1.toNat + w.2.toNat ≤ 0x20048000 ∨ 0x40100000 ≤ w.1.toNat)
        (by rw [hrams]; decide) x.1 hr
      simp only [Ram.window] at hwin
      omega

end Lpc55

/-- Off the end of the SP flash a word read takes two bytes and pads them, and a word store
programs two. -/
theorem memory_bytewise_end :
    let b := (Soc.installPeripherals (Soc.installMemory (Bus.new (⟨Scs.new, ()⟩ : SpDevices Unit)))
      []).installFlash Flash.blank
    b.Reaches 4 0x081FFFFE 2 ∧
      b.read .word 0x081FFFFE = (b.read8s 2 0x081FFFFE).map
        (fun r => (leWord 4 fun i => r.1.getD i erasedByte, r.2)) := by
  intro b
  have hdevs : ∀ d ∈ ([] : List Device), Soc.codeEnd ≤ d.base := nofun
  have htwo : min 4 (total - rel 0x081FFFFE) = 2 := by decide +kernel
  have hwin : b.flashWin 0x081FFFFE = some Flash.blank := if_pos (by decide)
  have hreach : b.Reaches 4 0x081FFFFE 2 :=
    ⟨fun _ _ => rfl, htwo ▸ Bus.Region.flash hwin nofun⟩
  exact ⟨hreach, ((Bus.memory_bytewise b (Board.of_install _ Flash.blank hdevs).mapped .word
    0x081FFFFE).1 2 hreach).2.1⟩

end SpEmu
