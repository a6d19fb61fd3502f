import SpEmu.Lib.RingQueue
import SpEmu.Lib.Runs
import SpEmu.Mem.BusSafety
import SpEmu.Mem.Service

/-!
# The receive ring between the DMA and the driver

The driver programs a ring of descriptors, each with a buffer, hands them all to the DMA, and
then takes the frames out in ring order, handing each descriptor back. The DMA fills the
descriptors in ring order from its own position, `rxNext`.

`RxSystem` is the bus with the driver's view of the ring; its events are injected frames,
receptions, software and system resets, the moment the driver has programmed a ring, and
everything else that leaves the ring alone. `rx_in_order`: as long as the first frame after
each programming finds the DMA at position 0, every accepted frame goes to the next descriptor
of the programmed ring and the driver receives the accepted frames once each and in order.
The ring is the queue of `RingQueue`.
-/

set_option autoImplicit false

namespace SpEmu

open ByteMem Mem

/-! ## Rings in memory -/

/-- A receive ring: the descriptor base and the buffer of each descriptor. -/
structure RxRing where
  base : Word
  bufs : List Word

namespace RxRing

variable (R : RxRing)

def len : Nat := R.bufs.length

/-- The address of descriptor `i`. -/
def desc (i : Nat) : Word := R.base + BitVec.ofNat 32 i * 16

/-- The buffer of descriptor `i`. -/
def buf (i : Nat) : Word := R.bufs.getD i 0

/-- The addresses that belong to slot `i`: its descriptor and its buffer. -/
def Slot (i x : Nat) : Prop :=
  (R.desc i).toNat ≤ x ∧ x < (R.desc i).toNat + 16 ∨
    (R.buf i).toNat ≤ x ∧ x < (R.buf i).toNat + bufsz.toNat

variable {δ : Type}

/-- The ring and its buffers lie in RAM, apart from each other. -/
structure Laid (b : Bus δ) (R : RxRing) : Prop where
  base_ne : R.base ≠ 0
  pos : 0 < R.len
  fits : R.base.toNat + 16 * R.len < 2 ^ 32
  bufFits : ∀ i, i < R.len → (R.buf i).toNat + bufsz.toNat < 2 ^ 32
  descServed : ∀ i, i < R.len → b.Served 4 (R.desc i) ∧ b.Served 4 (R.desc i + 12)
  bufServed : ∀ i j, i < R.len → j < bufsz.toNat → b.Served 1 (R.buf i + BitVec.ofNat 32 j)
  apart : ∀ i, i < R.len → (R.buf i).toNat + bufsz.toNat ≤ R.base.toNat ∨
    R.base.toNat + 16 * R.len ≤ (R.buf i).toNat
  bufsApart : ∀ i j, i < R.len → j < R.len → i ≠ j →
    (R.buf i).toNat + bufsz.toNat ≤ (R.buf j).toNat ∨
      (R.buf j).toNat + bufsz.toNat ≤ (R.buf i).toNat

/-- Descriptor `i` and its buffer lie in RAM, the buffer apart from the ring. -/
structure LaidAt (b : Bus δ) (R : RxRing) (i : Nat) : Prop where
  base_ne : R.base ≠ 0
  lt : i < R.len
  fits : R.base.toNat + 16 * R.len < 2 ^ 32
  bufFits : (R.buf i).toNat + bufsz.toNat < 2 ^ 32
  descServed : b.Served 4 (R.desc i) ∧ b.Served 4 (R.desc i + 12)
  bufServed : ∀ j, j < bufsz.toNat → b.Served 1 (R.buf i + BitVec.ofNat 32 j)
  apart : (R.buf i).toNat + bufsz.toNat ≤ R.base.toNat ∨
    R.base.toNat + 16 * R.len ≤ (R.buf i).toNat

/-- Descriptor `i` is the driver's and holds a frame. -/
structure SlotFull (b : Bus δ) (R : RxRing) (i : Nat) (f : RxFrame) : Prop where
  status : ∃ w, b.Holds 4 (R.desc i + 12) w ∧ w &&& Dma.ownBit = 0 ∧
    (w &&& 0x7FFF).toNat = f.data.length
  vid : b.Holds 4 (R.desc i) f.vid
  fits : f.data.length ≤ bufsz.toNat
  data : ∀ (j : Nat) (byte : Byte), f.data[j]? = some byte →
    b.Holds 1 (R.buf i + BitVec.ofNat 32 j) (byte.setWidth 32)

/-- Descriptor `i` is the DMA's and points to its buffer. -/
structure SlotFree (b : Bus δ) (R : RxRing) (i : Nat) : Prop where
  status : ∃ w, b.Holds 4 (R.desc i + 12) w ∧ w &&& Dma.ownBit ≠ 0
  buf : b.Holds 4 (R.desc i) (R.buf i)

/-- The registers describe the ring. -/
structure Registers (b : Bus δ) (R : RxRing) : Prop where
  base : b.eth.ethReg dmacrxdlar = R.base
  len : (b.eth.ethReg dmacrxrlr &&& 0xFFFF) + 1 = BitVec.ofNat 32 R.len

/-- The driver has programmed the ring and handed all of it to the DMA. -/
structure Programmed (b : Bus δ) (R : RxRing) : Prop where
  laid : R.Laid b
  registers : R.Registers b
  free : ∀ i, i < R.len → R.SlotFree b i

/-! ## Addresses of slots -/

variable {R} {b b' : Bus δ} {i j : Nat}

theorem toNat_desc (hfits : R.base.toNat + 16 * R.len < 2 ^ 32) (hi : i < R.len) :
    (R.desc i).toNat = R.base.toNat + 16 * i := by
  rw [desc, BitVec.toNat_add, BitVec.toNat_mul, BitVec.toNat_ofNat,
    show BitVec.toNat (16 : Word) = 16 from rfl]
  omega

theorem toNat_status (hfits : R.base.toNat + 16 * R.len < 2 ^ 32) (hi : i < R.len) :
    (R.desc i + 12).toNat = R.base.toNat + 16 * i + 12 := by
  have hd := toNat_desc hfits hi
  rw [BitVec.toNat_add, hd, show BitVec.toNat (12 : Word) = 12 from rfl]
  omega

theorem Laid.laidAt (h : R.Laid b) (hi : i < R.len) : R.LaidAt b i where
  base_ne := h.base_ne
  lt := hi
  fits := h.fits
  bufFits := h.bufFits i hi
  descServed := h.descServed i hi
  bufServed := fun j hj => h.bufServed i j hi hj
  apart := h.apart i hi

theorem LaidAt.toNat_bufByte (h : R.LaidAt b i) (hj : j < bufsz.toNat) :
    (R.buf i + BitVec.ofNat 32 j).toNat = (R.buf i).toNat + j := by
  have hfits := h.bufFits
  rw [BitVec.toNat_add, BitVec.toNat_ofNat]
  omega

/-- Different slots do not meet. -/
theorem LaidAt.disjoint (hi : R.LaidAt b i) (hj : R.LaidAt b j) (hij : i ≠ j)
    (hbb : (R.buf i).toNat + bufsz.toNat ≤ (R.buf j).toNat ∨
      (R.buf j).toNat + bufsz.toNat ≤ (R.buf i).toNat) {x : Nat}
    (hx : R.Slot i x) : ¬ R.Slot j x := by
  intro hx'
  have hdi := toNat_desc hi.fits hi.lt
  have hdj := toNat_desc hj.fits hj.lt
  have hli := hi.lt
  have hlj := hj.lt
  have hai := hi.apart
  have haj := hj.apart
  rw [Slot, hdi] at hx
  rw [Slot, hdj] at hx'
  omega

theorem slot_disjoint (h : R.Laid b) {x : Nat} (hi : i < R.len) (hj : j < R.len) (hij : i ≠ j)
    (hx : R.Slot i x) : ¬ R.Slot j x :=
  (h.laidAt hi).disjoint (h.laidAt hj) hij (h.bufsApart i j hi hj hij) hx

theorem Laid.mono (h : R.Laid b) (hs : ∀ {k : Nat} {a : Word}, b.Served k a → b'.Served k a) :
    R.Laid b' where
  base_ne := h.base_ne
  pos := h.pos
  fits := h.fits
  bufFits := h.bufFits
  descServed := fun i hi => ⟨hs (h.descServed i hi).1, hs (h.descServed i hi).2⟩
  bufServed := fun i j hi hj => hs (h.bufServed i j hi hj)
  apart := h.apart
  bufsApart := h.bufsApart

theorem LaidAt.mono (h : R.LaidAt b i)
    (hs : ∀ {k : Nat} {a : Word}, b.Served k a → b'.Served k a) : R.LaidAt b' i where
  base_ne := h.base_ne
  lt := h.lt
  fits := h.fits
  bufFits := h.bufFits
  descServed := ⟨hs h.descServed.1, hs h.descServed.2⟩
  bufServed := fun j hj => hs (h.bufServed j hj)
  apart := h.apart

/-- A slot is kept when the words and bytes in it read as before. -/
theorem SlotFull.mono {f : RxFrame} (hl : R.LaidAt b i) (h : R.SlotFull b i f)
    (hs : ∀ {k : Nat} {a v : Word}, b.Holds k a v → 0 < k →
      (∀ x, a.toNat ≤ x → x < a.toNat + k → R.Slot i x) → b'.Holds k a v) :
    R.SlotFull b' i f where
  status := by
    obtain ⟨w, hw, hown, hlen⟩ := h.status
    refine ⟨w, hs hw (by decide) fun x hlo hhi => Or.inl ?_, hown, hlen⟩
    rw [toNat_status hl.fits hl.lt] at hlo hhi
    rw [toNat_desc hl.fits hl.lt]
    omega
  vid := hs h.vid (by decide) fun x hlo hhi => Or.inl ⟨hlo, by omega⟩
  fits := h.fits
  data := by
    intro j byte hbyte
    have hj : j < bufsz.toNat := by
      have hlt := (List.getElem?_eq_some_iff.mp hbyte).1
      have hfits := h.fits
      omega
    refine hs (h.data j byte hbyte) (by decide) fun x hlo hhi => Or.inr ?_
    rw [hl.toNat_bufByte hj] at hlo hhi
    omega

theorem SlotFree.mono (hl : R.LaidAt b i) (h : R.SlotFree b i)
    (hs : ∀ {k : Nat} {a v : Word}, b.Holds k a v → 0 < k →
      (∀ x, a.toNat ≤ x → x < a.toNat + k → R.Slot i x) → b'.Holds k a v) :
    R.SlotFree b' i where
  status := by
    obtain ⟨w, hw, hown⟩ := h.status
    refine ⟨w, hs hw (by decide) fun x hlo hhi => Or.inl ?_, hown⟩
    rw [toNat_status hl.fits hl.lt] at hlo hhi
    rw [toNat_desc hl.fits hl.lt]
    omega
  buf := hs h.buf (by decide) fun x hlo hhi => Or.inl ⟨hlo, by omega⟩

end RxRing

/-! ## Bytes in buffers -/

theorem leWord_one (byte : Byte) : leWord 1 (byteOf (byte.setWidth 32)) = byte.setWidth 32 := by
  simp [leWord, byteOf]

namespace Bus

variable {δ : Type} [Mmio δ]

/-- Read `n` bytes one by one from `a` on. -/
def readBytes (a : Word) : (n : Nat) → Bus δ → Option (List Byte × Bus δ)
  | 0, b => some ([], b)
  | n + 1, b => do
      let (byte, b) ← b.read8 a
      let (bytes, b) ← readBytes (a + 1) n b
      some (byte :: bytes, b)

theorem add_ofNat_succ (a : Word) (j : Nat) :
    a + BitVec.ofNat 32 (j + 1) = a + 1 + BitVec.ofNat 32 j := by
  rw [Nat.add_comm, BitVec.ofNat_add, ← BitVec.add_assoc]
  rfl

theorem writeBytes_spec (bytes : List Byte) {a : Word} {b : Bus δ}
    (hfit : a.toNat + bytes.length < 2 ^ 32)
    (hs : ∀ j, j < bytes.length → b.Served 1 (a + BitVec.ofNat 32 j)) :
    ∃ b', b.writeBytes a bytes = some b' ∧
      Confined (fun x => a.toNat ≤ x ∧ x < a.toNat + bytes.length) b b' ∧
      ∀ (j : Nat) (byte : Byte), bytes[j]? = some byte →
        b'.Holds 1 (a + BitVec.ofNat 32 j) (byte.setWidth 32) := by
  induction bytes generalizing a b with
  | nil => exact ⟨b, rfl, Confined.refl _ b, fun j byte h => by cases h⟩
  | cons byte bytes ih =>
      rw [List.length_cons] at hfit hs
      have hnext : (a + 1).toNat = a.toNat + 1 := by
        rw [BitVec.toNat_add, show BitVec.toNat (1 : Word) = 1 from rfl]
        omega
      have hfirst : b.Served 1 a := by
        have h := hs 0 (by omega)
        rwa [BitVec.add_zero] at h
      obtain ⟨b₁, hb₁, hst⟩ := write8_of_served hfirst byte
      -- the rest starts one byte further on the bus after the first store
      obtain ⟨b', hb', hconf, hdata⟩ := ih (a := a + 1) (b := b₁) (by omega) fun j hj => by
        rw [← add_ofNat_succ]
        exact hst.served (hs (j + 1) (by omega))
      rw [hnext] at hconf
      refine ⟨b', ?_, ?_, ?_⟩
      · rw [writeBytes, hb₁]
        exact hb'
      · have hc₁ := hst.confined (S := fun x => a.toNat ≤ x ∧ x < a.toNat + (bytes.length + 1))
          (by decide) fun x hlo hhi => ⟨hlo, by omega⟩
        exact hc₁.trans (hconf.mono fun x hx => ⟨by omega, by omega⟩)
      · intro j byte' hj
        cases j with
        -- the first byte is below all that follows
        | zero =>
            cases hj
            rw [BitVec.add_zero]
            have hh := hst.holds
            rw [leWord_one] at hh
            exact hconf.frame hh (by decide) fun x hlo hhi => by omega
        | succ j =>
            rw [add_ofNat_succ]
            exact hdata j byte' hj

theorem readBytes_spec (bytes : List Byte) {a : Word} {b : Bus δ}
    (h : ∀ (j : Nat) (byte : Byte), bytes[j]? = some byte →
      b.Holds 1 (a + BitVec.ofNat 32 j) (byte.setWidth 32)) :
    readBytes a bytes.length b = some (bytes, b) := by
  induction bytes generalizing a with
  | nil => rfl
  | cons byte bytes ih =>
      have hfirst : b.Holds 1 a (byte.setWidth 32) := by
        have h₀ := h 0 byte rfl
        rwa [BitVec.add_zero] at h₀
      have hrest := ih (a := a + 1) fun j byte' hj => by
        rw [← add_ofNat_succ]
        exact h (j + 1) byte' hj
      have hbyte : (byte.setWidth 32).setWidth 8 = byte := by simp
      simp only [List.length_cons, readBytes, read8_of_holds hfirst, hbyte, hrest,
        Option.bind_eq_bind, Option.bind_some]

omit [Mmio δ] in
/-- Words in RAM do not depend on the Ethernet block. -/
theorem Holds.withEth {b : Bus δ} {k : Nat} {a v : Word} (h : b.Holds k a v) (e : EthDma) :
    Holds { b with eth := e } k a v :=
  ⟨h.isOpen.mono ⟨rfl, rfl, rfl, rfl⟩, h.load⟩

end Bus

/-! ## One frame from the DMA -/

theorem EthDma.ethReg_received (e : EthDma) (ringLen : Word) {off : Word}
    (h₁ : alignWord off ≠ dmacsr) (h₂ : alignWord off ≠ dmaisr) :
    (e.received ringLen).ethReg off = e.ethReg off := by
  simp only [ethReg, received, complete, regs_setReg, if_neg h₁, if_neg h₂]

namespace RxFrame

theorem fit_le (f : RxFrame) : f.fit ≤ bufsz.toNat := Nat.min_le_right _ _

theorem length_cut (f : RxFrame) : f.cut.data.length = f.fit := by
  have hle : f.fit ≤ f.data.length :=
    Nat.le_trans (Nat.min_le_left _ _) (Nat.mod_le _ _)
  exact List.length_take_of_le hle

/-- The fixed bits of a status word. -/
def statusBits : Word := (1 : Word) <<< 29 ||| (1 : Word) <<< 28 ||| (1 : Word) <<< 25

theorem status_own (f : RxFrame) : f.status &&& Dma.ownBit = 0 := by
  have h : f.status = statusBits ||| (BitVec.ofNat 32 f.fit &&& 0x7FFF) := rfl
  have h₁ : statusBits &&& Dma.ownBit = 0#32 := by decide
  have h₂ : (0x7FFF : Word) &&& Dma.ownBit = 0#32 := by decide
  rw [h, BitVec.and_comm, BitVec.and_or_distrib_left, BitVec.and_comm _ statusBits, h₁,
    BitVec.and_comm, BitVec.and_assoc, h₂, BitVec.and_zero, BitVec.or_zero]
  rfl

theorem status_length (f : RxFrame) : (f.status &&& 0x7FFF).toNat = f.cut.data.length := by
  have h : f.status = statusBits ||| (BitVec.ofNat 32 f.fit &&& 0x7FFF) := rfl
  have h₁ : statusBits &&& 0x7FFF = 0#32 := by decide
  have hfit := f.fit_le
  have hmask : (BitVec.ofNat 32 f.fit &&& 0x7FFF).toNat = f.fit := by
    have hb : bufsz.toNat = 1536 := rfl
    rw [BitVec.toNat_and, show BitVec.toNat (0x7FFF : Word) = 2 ^ 15 - 1 from rfl,
      Nat.and_two_pow_sub_one_eq_mod, BitVec.toNat_ofNat]
    omega
  rw [h, BitVec.and_comm, BitVec.and_or_distrib_left, BitVec.and_comm _ statusBits, h₁,
    BitVec.and_comm, BitVec.and_assoc, BitVec.and_self, BitVec.zero_or, hmask, length_cut]

end RxFrame

namespace RxRing

variable {δ : Type} {R : RxRing} {b b' : Bus δ} {i : Nat}

/-- Words in RAM do not depend on the rest of the bus. -/
theorem holds_of_sameRam {k : Nat} {a v : Word} (h : b.Holds k a v) (hr : b'.rams = b.rams)
    (hw : Bus.SameWindows b b') : b'.Holds k a v :=
  ⟨h.isOpen.mono hw, by rw [hr]; exact h.load⟩

/-- The DMA writes one slot of the ring: its memory changes inside the slot only, and its
registers keep describing the ring. -/
structure SlotWritten (R : RxRing) (i : Nat) (b b' : Bus δ) : Prop where
  frame : ∀ {k : Nat} {a v : Word}, b.Holds k a v → 0 < k →
    (∀ x, a.toNat ≤ x → x < a.toNat + k → ¬ R.Slot i x) → b'.Holds k a v
  served : ∀ {k : Nat} {a : Word}, b.Served k a → b'.Served k a
  registers : R.Registers b → R.Registers b'

theorem slotWritten_of_confined (h : Bus.Confined (R.Slot i) b b') : R.SlotWritten i b b' where
  frame := h.frame
  served := h.served
  registers := fun hr => ⟨by rw [h.eth]; exact hr.base, by rw [h.eth]; exact hr.len⟩

/-- The other slots of the ring are kept. -/
theorem SlotWritten.full {j : Nat} {f : RxFrame} (h : R.SlotWritten i b b') (hl : R.Laid b)
    (hi : i < R.len) (hj : j < R.len) (hji : j ≠ i) (hf : R.SlotFull b j f) :
    R.SlotFull b' j f :=
  hf.mono (hl.laidAt hj) fun hh hk hin => h.frame hh hk fun x hlo hhi =>
    slot_disjoint hl hj hi hji (hin x hlo hhi)

theorem SlotWritten.free {j : Nat} (h : R.SlotWritten i b b') (hl : R.Laid b)
    (hi : i < R.len) (hj : j < R.len) (hji : j ≠ i) (hf : R.SlotFree b j) : R.SlotFree b' j :=
  hf.mono (hl.laidAt hj) fun hh hk hin => h.frame hh hk fun x hlo hhi =>
    slot_disjoint hl hj hi hji (hin x hlo hhi)

theorem desc_of_next {x : Word} (h : x.toNat = i) : R.base + x * 16 = R.desc i := by
  rw [desc, ← h, BitVec.ofNat_toNat, BitVec.setWidth_eq]

variable [Mmio δ]

/-- A full ring refuses a frame. -/
theorem inject_full (hl : R.Laid b) (hr : R.Registers b) {f : RxFrame}
    (hnext : b.eth.rxNext.toNat = i) (hslot : R.SlotFull b i f) (frame : List Byte) :
    b.ethRxInject frame = some (false, b) := by
  obtain ⟨w, hw, hown, -⟩ := hslot.status
  simp only [Bus.ethRxInject, hr.base, if_neg hl.base_ne, desc_of_next hnext,
    Bus.read32_of_holds hw, if_pos hown, Option.bind_eq_bind, Option.bind_some]

/-- A free descriptor takes the frame, and the DMA moves on. -/
theorem inject_free (hl : R.LaidAt b i) (hr : R.Registers b)
    (hnext : b.eth.rxNext.toNat = i) (hslot : R.SlotFree b i) (frame : List Byte) :
    ∃ b', b.ethRxInject frame = some (true, b') ∧ R.SlotWritten i b b' ∧
      R.SlotFull b' i (RxFrame.ofWire frame).cut ∧ b'.eth.rxNext.toNat = (i + 1) % R.len := by
  generalize hf : RxFrame.ofWire frame = f
  obtain ⟨w, hw, hown⟩ := hslot.status
  have hlen := f.length_cut
  have hfit := f.fit_le
  have hi := hl.lt
  have hbuf := hl.bufFits
  have hd := toNat_desc hl.fits hi
  have hst := toNat_status hl.fits hi
  have hapart := hl.apart
  have hfits := hl.fits
  -- The bytes of the frame, the VID and the status word, one after the other.
  obtain ⟨b₁, hb₁, hc₁, hdata⟩ := Bus.writeBytes_spec (a := R.buf i) (b := b) f.cut.data
    (by omega) fun j hj => hl.bufServed j (by omega)
  obtain ⟨b₂, hb₂, hs₂⟩ := Bus.write32_of_served (hc₁.served hl.descServed.1) f.vid
  obtain ⟨b₃, hb₃, hs₃⟩ :=
    Bus.write32_of_served (hs₂.served (hc₁.served hl.descServed.2)) f.status
  have hconf : Bus.Confined (R.Slot i) b b₃ := by
    refine (hc₁.mono fun x hx => Or.inr ⟨hx.1, by omega⟩).trans ?_
    refine (hs₂.confined (by decide) fun x hlo hhi => Or.inl ⟨hlo, by omega⟩).trans ?_
    exact hs₃.confined (by decide) fun x hlo hhi => Or.inl (by omega)
  have hwin : Bus.SameWindows b₃ { b₃ with eth := b₃.eth.received (BitVec.ofNat 32 R.len) } :=
    ⟨rfl, rfl, rfl, rfl⟩
  have hsame : ∀ {k : Nat} {a v : Word}, b₃.Holds k a v →
      Bus.Holds { b₃ with eth := b₃.eth.received (BitVec.ofNat 32 R.len) } k a v :=
    fun hh => holds_of_sameRam hh rfl hwin
  refine ⟨{ b₃ with eth := b₃.eth.received (BitVec.ofNat 32 R.len) },
    ?_, ⟨?_, ?_, ?_⟩, ⟨?_, ?_, ?_, ?_⟩, ?_⟩
  · simp only [Bus.ethRxInject, hr.base, if_neg hl.base_ne, desc_of_next hnext,
      Bus.read32_of_holds hw, if_neg hown, Bus.read32_of_holds hslot.buf, hf, hb₁, hb₂, hb₃,
      hr.len, Option.bind_eq_bind, Option.bind_some]
  · exact fun hh hk hout => hsame (hconf.frame hh hk hout)
  · intro k a hh
    obtain ⟨v, hv⟩ := (hconf.served hh).holds
    exact (hsame hv).served
  · intro hreg
    have heth := hconf.eth
    refine ⟨?_, ?_⟩
    · rw [← hreg.base, ← heth]
      exact b₃.eth.ethReg_received _ (by decide) (by decide)
    · rw [← hreg.len, ← heth]
      exact congrArg (fun w => (w &&& 0xFFFF) + 1)
        (b₃.eth.ethReg_received _ (by decide) (by decide))
  · exact ⟨f.status, hsame hs₃.word, f.status_own, f.status_length⟩
  · exact hsame (hs₃.frame hs₂.word (by omega))
  · rw [f.length_cut]
    exact f.fit_le
  · intro j byte hbyte
    have hj : j < f.fit := hlen ▸ (List.getElem?_eq_some_iff.mp hbyte).1
    have ha := hl.toNat_bufByte (j := j) (by omega)
    exact hsame (hs₃.frame (hs₂.frame (hdata j byte hbyte) (by omega)) (by omega))
  · have hlt : R.len < 2 ^ 32 := by omega
    show ((b₃.eth.rxNext + 1) % BitVec.ofNat 32 R.len).toNat = (i + 1) % R.len
    rw [hconf.eth, BitVec.toNat_umod, BitVec.toNat_add, hnext, BitVec.toNat_ofNat,
      show BitVec.toNat (1 : Word) = 1 from rfl, Nat.mod_eq_of_lt hlt,
      Nat.mod_eq_of_lt (show i + 1 < 2 ^ 32 by omega)]

/-! ## One frame to the driver -/

/-- The status word with which the driver hands a descriptor to the DMA: OWN, IOC and a valid
buffer address. -/
def handOverBits : Word := (1 : Word) <<< 31 ||| (1 : Word) <<< 30 ||| (1 : Word) <<< 24

/-- The driver gives descriptor `i` to the DMA. -/
def handOver (R : RxRing) (i : Nat) (b : Bus δ) : Option (Bus δ) := do
  let b ← b.write32 (R.desc i) (R.buf i)
  b.write32 (R.desc i + 12) handOverBits

/-- The driver looks at descriptor `i`: while the DMA owns it there is nothing to receive;
else the driver takes the frame out and hands the descriptor back. -/
def receive (R : RxRing) (i : Nat) (b : Bus δ) : Option (Option RxFrame × Bus δ) := do
  let (rdes3, b) ← b.read32 (R.desc i + 12)
  if rdes3 &&& Dma.ownBit ≠ 0 then some (none, b)
  else do
    let (vid, b) ← b.read32 (R.desc i)
    let (data, b) ← b.readBytes (R.buf i) (rdes3 &&& 0x7FFF).toNat
    let b ← R.handOver i b
    some (some ⟨vid, data⟩, b)

theorem handOver_spec (hl : R.Laid b) (hi : i < R.len) :
    ∃ b', R.handOver i b = some b' ∧ Bus.Confined (R.Slot i) b b' ∧ R.SlotFree b' i := by
  have hd := toNat_desc hl.fits hi
  have hst := toNat_status hl.fits hi
  obtain ⟨b₁, hb₁, hs₁⟩ := Bus.write32_of_served (hl.descServed i hi).1 (R.buf i)
  obtain ⟨b₂, hb₂, hs₂⟩ :=
    Bus.write32_of_served (hs₁.served (hl.descServed i hi).2) handOverBits
  refine ⟨b₂, ?_, ?_, ⟨handOverBits, hs₂.word, by decide⟩, hs₂.frame hs₁.word (by omega)⟩
  · rw [handOver, hb₁]
    exact hb₂
  · refine (hs₁.confined (by decide) fun x hlo hhi => Or.inl ⟨hlo, by omega⟩).trans ?_
    exact hs₂.confined (by decide) fun x hlo hhi => Or.inl (by omega)

theorem receive_free (hslot : R.SlotFree b i) : R.receive i b = some (none, b) := by
  obtain ⟨w, hw, hown⟩ := hslot.status
  simp only [receive, Bus.read32_of_holds hw, Option.bind_eq_bind, Option.bind_some, if_pos hown]

theorem receive_full (hl : R.Laid b) (hi : i < R.len) {f : RxFrame} (hslot : R.SlotFull b i f) :
    ∃ b', R.receive i b = some (some f, b') ∧ Bus.Confined (R.Slot i) b b' ∧
      R.SlotFree b' i := by
  obtain ⟨w, hw, hown, hlen⟩ := hslot.status
  obtain ⟨b', hb', hconf, hfree⟩ := handOver_spec hl hi
  have hdata := Bus.readBytes_spec f.data hslot.data
  refine ⟨b', ?_, hconf, hfree⟩
  simp only [receive, Bus.read32_of_holds hw, Bus.read32_of_holds hslot.vid, hlen, hdata, hb',
    hown, ne_eq, not_true_eq_false, if_false, Option.bind_eq_bind, Option.bind_some]

end RxRing

/-! ## The system -/

/-- The bus, the ring that the driver works on, the frames that the DMA accepted since the
ring was programmed, and those that the driver took out. -/
structure RxSystem (δ : Type) where
  bus : Bus δ
  ring : Option RxRing
  accepted : List RxFrame
  received : List RxFrame

/-- What can happen. Between a reset of either kind and `programmed` the firmware
re-initialises the driver, by any stores in any order. -/
inductive RxEvent (δ : Type) where
  | inject (frame : List Byte)
  | receive
  | softReset
  | systemReset
  | programmed (R : RxRing)
  | other (b : Bus δ)

namespace RxSystem

variable {δ : Type} [Mmio δ]

def step (s : RxSystem δ) : RxEvent δ → Option (RxSystem δ)
  | .inject frame => do
      let (ok, b) ← s.bus.ethRxInject frame
      some { s with
        bus := b
        accepted := if ok then s.accepted ++ [(RxFrame.ofWire frame).cut] else s.accepted }
  | .receive =>
      match s.ring with
      | none => some s
      | some R => do
          let (f, b) ← R.receive (s.received.length % R.len) s.bus
          some { s with bus := b, received := s.received ++ f.toList }
  | .softReset => do
      let b ← s.bus.write32 (ethBase + dmamr) 1
      some ⟨b, none, [], []⟩
  | .systemReset => do
      let b ← s.bus.flashResetLatch.resetExceptionSources
      some ⟨b, none, [], []⟩
  | .programmed R => some ⟨s.bus, some R, [], []⟩
  | .other b => some { s with bus := b }

/-- Nothing but the DMA and the driver touches the ring in use. -/
structure Undisturbed (R : RxRing) (b b' : Bus δ) : Prop where
  registers : R.Registers b → R.Registers b'
  served : ∀ {k : Nat} {a : Word}, b.Served k a → b'.Served k a
  frame : ∀ {k : Nat} {a v : Word} {i : Nat}, b.Holds k a v → 0 < k → i < R.len →
    (∀ x, a.toNat ≤ x → x < a.toNat + k → R.Slot i x) → b'.Holds k a v

/-- The driver's part: a ring is taken into use once the registers describe it and all of it
is the DMA's, and until the next reset it is left alone. Nothing but the DMA ever moves the
receive position. -/
def Driven (s : RxSystem δ) : RxEvent δ → Prop
  | .programmed R => R.Programmed s.bus
  | .other b => b.eth.rxNext = s.bus.eth.rxNext ∧ ∀ R, s.ring = some R → Undisturbed R s.bus b
  | _ => True

/-- The first frame after a programming finds the DMA at the start of the ring. -/
def FreshStart (s : RxSystem δ) : RxEvent δ → Prop
  | .inject _ => s.ring ≠ none → s.accepted = [] → s.bus.eth.rxNext = 0
  | _ => True

/-- What the claim says of one event: the driver has so far received the accepted frames in
order; an injected frame goes to the next descriptor of the ring and changes nothing outside
this slot, or the ring is full; a reception yields the next accepted frame, if there is
one. -/
def InOrder (s : RxSystem δ) (e : RxEvent δ) : Prop :=
  ∀ R, s.ring = some R →
    s.received = s.accepted.take s.received.length ∧
    match e with
    | .inject frame =>
        (∃ b, s.step e = some { s with
            bus := b, accepted := s.accepted ++ [(RxFrame.ofWire frame).cut] } ∧
          R.SlotFull b (s.accepted.length % R.len) (RxFrame.ofWire frame).cut ∧
          R.SlotWritten (s.accepted.length % R.len) s.bus b) ∨
        s.accepted.length = s.received.length + R.len ∧ s.step e = some s
    | .receive =>
        ∃ b, s.step e = some { s with
          bus := b, received := s.accepted.take (s.received.length + 1) }
    | _ => True

/-- While a ring is in use, it is the queue of the frames accepted and not yet received, and
the DMA is at the end of the queue once it accepted a frame. -/
structure RingInv (s : RxSystem δ) (R : RxRing) : Prop where
  laid : R.Laid s.bus
  registers : R.Registers s.bus
  queue : RingQueue (R.SlotFull s.bus) (R.SlotFree s.bus) R.len s.accepted s.received.length
  order : s.received = s.accepted.take s.received.length
  next : s.accepted ≠ [] → s.bus.eth.rxNext.toNat = s.accepted.length % R.len

def Inv (s : RxSystem δ) : Prop := ∀ R, s.ring = some R → RingInv s R

variable {s s' : RxSystem δ}

omit [Mmio δ] in
theorem RingInv.slot_lt {R : RxRing} (h : RingInv s R) (k : Nat) : k % R.len < R.len :=
  Nat.mod_lt k h.laid.pos

omit [Mmio δ] in
/-- Where the DMA will look for its next descriptor. -/
theorem RingInv.next_eq {R : RxRing} (h : RingInv s R) (hfresh : s.accepted = [] →
    s.bus.eth.rxNext = 0) : s.bus.eth.rxNext.toNat = s.accepted.length % R.len := by
  by_cases hnil : s.accepted = []
  · rw [hfresh hnil, hnil, List.length_nil, Nat.zero_mod]
    rfl
  · exact h.next hnil

/-- A frame is injected into the ring in use. -/
theorem inject_spec {R : RxRing} (h : RingInv s R)
    (hfresh : s.accepted = [] → s.bus.eth.rxNext = 0) (frame : List Byte) :
    (∃ b, s.step (.inject frame) = some { s with
        bus := b, accepted := s.accepted ++ [(RxFrame.ofWire frame).cut] } ∧
      R.SlotFull b (s.accepted.length % R.len) (RxFrame.ofWire frame).cut ∧
      R.SlotWritten (s.accepted.length % R.len) s.bus b ∧
      RingInv { s with bus := b, accepted := s.accepted ++ [(RxFrame.ofWire frame).cut] } R) ∨
    s.accepted.length = s.received.length + R.len ∧ s.step (.inject frame) = some s := by
  have hnext := h.next_eq hfresh
  have hlt := h.slot_lt s.accepted.length
  -- the next slot is free, or the ring is full and the frame stays outside
  rcases h.queue.next_slot with ⟨hroom, hfree⟩ | ⟨hfull, f, hslot⟩
  · obtain ⟨b, hb, hw, hnew, hmove⟩ :=
      RxRing.inject_free (h.laid.laidAt hlt) h.registers hnext hfree frame
    refine Or.inl ⟨b, ?_, hnew, hw, ⟨?_, ?_, ?_, ?_, ?_⟩⟩
    · simp only [step, hb, Option.bind_eq_bind, Option.bind_some, if_true]
    · exact h.laid.mono hw.served
    · exact hw.registers h.registers
    · exact h.queue.put hroom hnew (fun i y hi hne hy => hw.full h.laid hlt hi hne hy)
        fun i hi hne hy => hw.free h.laid hlt hi hne hy
    · have hle := h.queue.taken_le
      show s.received = (s.accepted ++ [_]).take s.received.length
      rw [List.take_append_of_le_length hle]
      exact h.order
    · intro _
      show b.eth.rxNext.toNat = (s.accepted ++ [_]).length % R.len
      rw [hmove, List.length_append, List.length_singleton, Nat.mod_add_mod]
  · refine Or.inr ⟨hfull, ?_⟩
    simp only [step, RxRing.inject_full h.laid h.registers hnext hslot frame,
      Option.bind_eq_bind, Option.bind_some, Bool.false_eq_true, if_false]

/-- The driver looks into the ring in use. -/
theorem receive_spec {R : RxRing} (h : RingInv s R) (hring : s.ring = some R) :
    ∃ b, s.step .receive = some { s with
        bus := b, received := s.accepted.take (s.received.length + 1) } ∧
      RingInv { s with bus := b, received := s.accepted.take (s.received.length + 1) } R := by
  have hlt := h.slot_lt s.received.length
  rcases h.queue.oldest_slot with ⟨f, hf, hslot⟩ | ⟨hall, hfree⟩
  · obtain ⟨b, hb, hconf, hnew⟩ := RxRing.receive_full h.laid hlt hslot
    have hw := RxRing.slotWritten_of_confined hconf
    have hidx := (List.getElem?_eq_some_iff.mp hf).1
    -- the oldest slot holds the next accepted frame
    have htake : s.received ++ [f] = s.accepted.take (s.received.length + 1) := by
      rw [List.take_add_one, hf, ← h.order]
      rfl
    have hlen : (s.accepted.take (s.received.length + 1)).length = s.received.length + 1 :=
      List.length_take_of_le hidx
    refine ⟨b, ?_, ⟨?_, ?_, ?_, ?_, ?_⟩⟩
    · simp only [step, hring, hb, Option.bind_eq_bind, Option.bind_some, Option.toList_some,
        htake]
    · exact h.laid.mono hw.served
    · exact hw.registers h.registers
    · show RingQueue _ _ R.len s.accepted (s.accepted.take (s.received.length + 1)).length
      rw [hlen]
      exact h.queue.take hidx hnew (fun i y hi hne hy => hw.full h.laid hlt hi hne hy)
        fun i hi hne hy => hw.free h.laid hlt hi hne hy
    · rw [hlen]
    · intro hne
      show b.eth.rxNext.toNat = s.accepted.length % R.len
      rw [hconf.eth]
      exact h.next hne
  · -- Everything accepted has been received, and the DMA owns the descriptor.
    have htake : s.accepted.take (s.received.length + 1) = s.received := by
      rw [List.take_of_length_le (by omega)]
      have horder := h.order
      rw [hall, List.take_length] at horder
      exact horder.symm
    refine ⟨s.bus, ?_, ?_⟩
    · simp only [step, hring, RxRing.receive_free hfree, Option.bind_eq_bind, Option.bind_some,
        Option.toList_none, List.append_nil, htake]
    · rw [htake]
      exact h

omit [Mmio δ] in
theorem inv_programmed {R : RxRing} (h : R.Programmed s.bus) :
    RingInv (⟨s.bus, some R, [], []⟩ : RxSystem δ) R where
  laid := h.laid
  registers := h.registers
  queue := RingQueue.start h.laid.pos h.free
  order := rfl
  next := fun hne => absurd rfl hne

omit [Mmio δ] in
theorem inv_other {R : RxRing} {b : Bus δ} (h : RingInv s R)
    (hnext : b.eth.rxNext = s.bus.eth.rxNext) (hu : Undisturbed R s.bus b) :
    RingInv { s with bus := b } R where
  laid := h.laid.mono hu.served
  registers := hu.registers h.registers
  queue := h.queue.mono
    (fun i f hi hf => hf.mono (h.laid.laidAt hi) fun hh hk hin => hu.frame hh hk hi hin)
    fun i hi hf => hf.mono (h.laid.laidAt hi) fun hh hk hin => hu.frame hh hk hi hin
  order := h.order
  next := fun hne => by
    rw [hnext]
    exact h.next hne

/-- Every event of a driven run with fresh starts keeps the ring a queue. -/
theorem inv_step {e : RxEvent δ} (h : Inv s) (he : Driven s e ∧ FreshStart s e)
    (hstep : s.step e = some s') : Inv s' := by
  intro R hR
  cases e with
  | inject frame =>
      have hring : s.ring = some R := by
        obtain ⟨r, -, heq⟩ := Option.bind_eq_some_iff.mp hstep
        cases heq
        exact hR
      have hfresh := he.2 (by rw [hring]; nofun)
      rcases inject_spec (h R hring) hfresh frame with ⟨b, hb, -, -, hinv⟩ | ⟨-, hb⟩
      · cases hb.symm.trans hstep
        exact hinv
      · cases hb.symm.trans hstep
        exact h R hring
  | receive =>
      cases hring : s.ring with
      | none =>
          rw [step, hring] at hstep
          cases hstep
          exact h R hR
      | some R' =>
          obtain ⟨b, hb, hinv⟩ := receive_spec (h R' hring) hring
          cases hb.symm.trans hstep
          cases hring.symm.trans hR
          exact hinv
  -- a reset of either kind takes the ring out of use
  | softReset =>
      obtain ⟨b, -, heq⟩ := Option.bind_eq_some_iff.mp hstep
      cases heq
      cases hR
  | systemReset =>
      obtain ⟨b, -, heq⟩ := Option.bind_eq_some_iff.mp hstep
      cases heq
      cases hR
  | programmed R' =>
      cases hstep
      cases hR
      exact inv_programmed he.1
  | other b =>
      cases hstep
      exact inv_other (h R hR) he.1.1 (he.1.2 R hR)

theorem inOrder_of_inv {e : RxEvent δ} (h : Inv s) (he : FreshStart s e) : InOrder s e := by
  intro R hR
  refine ⟨(h R hR).order, ?_⟩
  cases e with
  | inject frame =>
      rcases inject_spec (h R hR) (he (by rw [hR]; nofun)) frame with
        ⟨b, hb, hfull, hw, -⟩ | hdrop
      · exact Or.inl ⟨b, hb, hfull, hw⟩
      · exact Or.inr hdrop
  | receive =>
      obtain ⟨b, hb, -⟩ := receive_spec (h R hR) hR
      exact ⟨b, hb⟩
  | softReset => trivial
  | systemReset => trivial
  | programmed R' => trivial
  | other b => trivial

/-- Along every run of the driver in which the first frame after each programming finds the
DMA at position 0, the accepted frames go round the programmed ring and are received once
each and in order. -/
theorem rx_in_order (es : List (RxEvent δ)) (s : RxSystem δ) (hs : s.ring = none)
    (h : Runs.Along step (fun s e => Driven s e ∧ FreshStart s e) es s) :
    Runs.Along step InOrder es s := by
  have hinv : Inv s := by
    intro R hR
    rw [hs] at hR
    cases hR
  exact Runs.Along.imp (fun s e s' hs he hstep => inv_step hs he hstep)
    (fun s e hs he => inOrder_of_inv hs he.2) hinv h

/-! ## A ring of two descriptors -/

section TwoDescriptors

/-- Two descriptors at 0x2000_0000 with their buffers behind them. -/
def twoRing : RxRing := ⟨0x20000000, [0x20000100, 0x20000800]⟩

/-- Both descriptors are the DMA's. -/
def twoData : Bytes (0x1000 : Word).toNat :=
  ((((Bytes.const _ 0).splice 0 4 (byteOf 0x20000100)).splice 12 4
    (byteOf RxRing.handOverBits)).splice 16 4 (byteOf 0x20000800)).splice 28 4
    (byteOf RxRing.handOverBits)

/-- The bus after the driver has programmed the ring, with the DMA at position `next`. -/
def twoBus (next : Word) : Bus Unit :=
  { Bus.new () with
    rams := [⟨0x20000000, 0x1000, twoData, Ram.fits_page⟩]
    eth := { (Bus.new ()).eth with
      rxNext := next
      regs := Function.update (Function.update (fun _ => 0) dmacrxdlar 0x20000000) dmacrxrlr 1 } }

theorem twoBus_open (next : Word) {a : Word} (hlo : 0x20000000 ≤ a.toNat)
    (hhi : a.toNat < 0x20001000) : (twoBus next).Open a :=
  (twoBus next).open_of_sram hlo (by omega)

theorem twoBus_served (next : Word) {a : Word} {k : Nat} (hk : k ≤ 4)
    (hlo : 0x20000000 ≤ a.toNat) (hhi : a.toNat + k ≤ 0x20001000) (hpos : 0 < k) :
    (twoBus next).Served k a := by
  have hrams : (twoBus next).rams = [⟨0x20000000, 0x1000, twoData, Ram.fits_page⟩] := rfl
  exact Bus.served_of_head hrams hk (twoBus_open next hlo (by omega)) hlo hhi (by decide)

theorem twoRing_programmed (next : Word) : twoRing.Programmed (twoBus next) := by
  have hlen : twoRing.len = 2 := rfl
  have hbz : bufsz.toNat = 1536 := rfl
  have hcases : ∀ {P : Nat → Prop}, P 0 → P 1 → ∀ i, i < twoRing.len → P i := by
    intro P h₀ h₁ i hi
    rw [hlen] at hi
    interval_cases i
    · exact h₀
    · exact h₁
  have hb₀ : (twoRing.buf 0).toNat = 0x20000100 := rfl
  have hb₁ : (twoRing.buf 1).toNat = 0x20000800 := rfl
  refine ⟨⟨by decide, by decide, by decide, ?_, ?_, ?_, ?_, ?_⟩, ⟨rfl, ?_⟩, ?_⟩
  · exact hcases (by decide) (by decide)
  · refine hcases ⟨?_, ?_⟩ ⟨?_, ?_⟩
    · exact twoBus_served next (by decide) (by decide) (by decide) (by decide)
    · exact twoBus_served next (by decide) (by decide) (by decide) (by decide)
    · exact twoBus_served next (by decide) (by decide) (by decide) (by decide)
    · exact twoBus_served next (by decide) (by decide) (by decide) (by decide)
  · have hbyte : ∀ (a : Word) (j : Nat), 0x20000000 ≤ a.toNat → a.toNat + 1536 ≤ 0x20001000 →
        j < bufsz.toNat → (twoBus next).Served 1 (a + BitVec.ofNat 32 j) := by
      intro a j hlo hhi hj
      have ha : (a + BitVec.ofNat 32 j).toNat = a.toNat + j := by
        rw [BitVec.toNat_add, BitVec.toNat_ofNat]
        omega
      exact twoBus_served next (by decide) (by omega) (by omega) (by decide)
    intro i j hi hj
    revert i
    exact hcases (hbyte _ j (by decide) (by decide) hj) (hbyte _ j (by decide) (by decide) hj)
  · exact hcases (by decide) (by decide)
  · intro i j hi hj hne
    rw [hlen] at hi hj
    interval_cases i
    · interval_cases j
      · exact absurd rfl hne
      · decide
    · interval_cases j
      · decide
      · exact absurd rfl hne
  · show ((1 : Word) &&& 0xFFFF) + 1 = 2
    decide
  · refine hcases ⟨⟨RxRing.handOverBits, ⟨?_, rfl⟩, by decide⟩, ⟨?_, rfl⟩⟩
      ⟨⟨RxRing.handOverBits, ⟨?_, rfl⟩, by decide⟩, ⟨?_, rfl⟩⟩
    · exact twoBus_open next (by decide) (by decide)
    · exact twoBus_open next (by decide) (by decide)
    · exact twoBus_open next (by decide) (by decide)
    · exact twoBus_open next (by decide) (by decide)

/-- From power-on, with the ring programmed: a frame goes in and is received. -/
theorem rx_in_order_twoRing :
    Runs.Along step InOrder [.programmed twoRing, .inject [1, 2, 3], .receive]
      (⟨twoBus 0, none, [], []⟩ : RxSystem Unit) := by
  refine rx_in_order _ _ rfl ⟨⟨twoRing_programmed 0, trivial⟩, fun s₁ hs₁ => ?_⟩
  cases hs₁
  exact ⟨⟨trivial, fun _ _ => rfl⟩, fun s₂ _ => ⟨⟨trivial, trivial⟩, fun s₃ _ => trivial⟩⟩

/-- A DMA software reset leaves the receive position where it is. -/
theorem softReset_next (b : Bus Unit) :
    ∃ b', b.write32 (ethBase + dmamr) 1 = some b' ∧ b'.eth.rxNext = b.eth.rxNext := by
  have hfold : b.fold (ethBase + dmamr) = ethBase + dmamr := by
    rw [Bus.fold]
    split
    · rfl
    · rfl
  refine ⟨_, Bus.write32With_eth (b := b) ?_ ?_ _ 1, b.eth.regWrite_rxNext _ 1⟩
  · rw [hfold]
    decide
  · rw [hfold]
    decide

/-- After one frame the driver resets the DMA and hands over its ring again: the next frame
goes to descriptor 1, while the driver waits at descriptor 0. -/
theorem rx_after_reinit :
    ¬ ∀ (es : List (RxEvent Unit)) (s : RxSystem Unit), s.ring = none →
      Runs.Along step Driven es s → Runs.Along step InOrder es s := by
  intro h
  have hprog := twoRing_programmed 0
  have hagain := twoRing_programmed 1
  -- The first frame goes to descriptor 0, and the reset leaves the position at 1.
  obtain ⟨b, hb, -, -, hmove⟩ := RxRing.inject_free (hprog.laid.laidAt (i := 0) (by decide))
    hprog.registers rfl (hprog.free 0 (by decide)) []
  obtain ⟨b', hb', hkept⟩ := softReset_next b
  have hinject : step (⟨twoBus 0, some twoRing, [], []⟩ : RxSystem Unit) (.inject []) =
      some ⟨b, some twoRing, [(RxFrame.ofWire []).cut], []⟩ := by
    simp only [step, hb]
    rfl
  have hreset : step (⟨b, some twoRing, [(RxFrame.ofWire []).cut], []⟩ : RxSystem Unit)
      .softReset = some ⟨b', none, [], []⟩ := by
    simp only [step, hb']
    rfl
  have horder := h [.programmed twoRing, .inject [], .softReset, .other (twoBus 1),
    .programmed twoRing, .inject []] ⟨twoBus 0, none, [], []⟩ rfl
    ⟨hprog, fun s₁ h₁ => ⟨trivial, fun s₂ h₂ => ⟨trivial, fun s₃ h₃ => ⟨?_, fun s₄ h₄ =>
      ⟨?_, fun s₅ h₅ => ⟨trivial, fun s₆ h₆ => trivial⟩⟩⟩⟩⟩⟩
  · -- The second frame: it fills slot 1 and leaves slot 0 with the DMA.
    have hlast := ((((horder.2 _ rfl).2 _ hinject).2 _ hreset).2 _ rfl).2 _ rfl |>.1 twoRing rfl
    obtain ⟨c, hc, hw, -, -⟩ := RxRing.inject_free (hagain.laid.laidAt (i := 1) (by decide))
      hagain.registers rfl (hagain.free 1 (by decide)) []
    have hstep : step (⟨twoBus 1, some twoRing, [], []⟩ : RxSystem Unit) (.inject []) =
        some ⟨c, some twoRing, [(RxFrame.ofWire []).cut], []⟩ := by
      simp only [step, hc]
      rfl
    rcases hlast.2 with ⟨c', hc', hfull, -⟩ | ⟨hfull, -⟩
    · obtain rfl : c = c' := congrArg RxSystem.bus (Option.some.inj (hstep.symm.trans hc'))
      obtain ⟨w, hw₀, hown, -⟩ := hfull.status
      obtain ⟨w', hw₁, hown'⟩ :=
        (hw.free hagain.laid (by decide) (by decide) (by decide) (hagain.free 0 (by decide))).status
      have heq := hw₀.load.symm.trans hw₁.load
      exact hown' (Option.some.inj heq ▸ hown)
    · cases hfull
  · obtain rfl := Option.some.inj h₁
    obtain rfl := Option.some.inj (hinject.symm.trans h₂)
    obtain rfl := Option.some.inj (hreset.symm.trans h₃)
    refine ⟨BitVec.eq_of_toNat_eq ?_, nofun⟩
    rw [hkept, hmove]
    rfl
  · obtain ⟨c, -, heq⟩ := Option.bind_eq_some_iff.mp h₃
    cases heq
    cases h₄
    exact hagain

end TwoDescriptors

end RxSystem

end SpEmu
