import SpEmu.Mem.RxRing

/-!
# The receive pump

`pumpEth` sends what the firmware has transmitted and then delivers queued frames while the DMA
owns the next receive descriptor. `RxRing.Ready` is any state of a ring: each descriptor may be
the DMA's, with a buffer in RAM, or the driver's. `Pumped` is what delivering some frames does:
they lie in consecutive descriptors, one each, in descriptors that were the DMA's.

`pump_eth_lossless` is the pump on every queue and every such state.
-/

set_option autoImplicit false

namespace SpEmu

open ByteMem Mem

namespace RxRing

/-! ## States of a ring -/

section States

variable {δ : Type}

/-- The DMA owns descriptor `i`. -/
def Owned (b : Bus δ) (R : RxRing) (i : Nat) : Prop :=
  ∃ w, b.Holds 4 (R.desc i + 12) w ∧ w &&& Dma.ownBit ≠ 0

/-- The ring lies in RAM, and so do the buffers of the DMA's descriptors, apart from the ring and
from each other. -/
structure Ready (b : Bus δ) (R : RxRing) : Prop where
  base_ne : R.base ≠ 0
  pos : 0 < R.len
  fits : R.base.toNat + 16 * R.len < 2 ^ 32
  descServed : ∀ i, i < R.len → b.Served 4 (R.desc i) ∧ b.Served 4 (R.desc i + 12)
  laidAt : ∀ i, i < R.len → R.Owned b i → R.LaidAt b i
  buf : ∀ i, i < R.len → R.Owned b i → b.Holds 4 (R.desc i) (R.buf i)
  bufsApart : ∀ i j, i < R.len → j < R.len → i ≠ j → R.Owned b i → R.Owned b j →
    (R.buf i).toNat + bufsz.toNat ≤ (R.buf j).toNat ∨
      (R.buf j).toNat + bufsz.toNat ≤ (R.buf i).toNat

variable {R : RxRing} {b b' : Bus δ} {i j : Nat}

/-- A ring that the driver has just programmed is ready. -/
theorem Programmed.ready (h : R.Programmed b) : R.Ready b where
  base_ne := h.laid.base_ne
  pos := h.laid.pos
  fits := h.laid.fits
  descServed := h.laid.descServed
  laidAt := fun _ hi _ => h.laid.laidAt hi
  buf := fun i hi _ => (h.free i hi).buf
  bufsApart := fun i j hi hj hij _ _ => h.laid.bufsApart i j hi hj hij

theorem Ready.slotFree (h : R.Ready b) (hi : i < R.len) (ho : R.Owned b i) : R.SlotFree b i :=
  ⟨ho, h.buf i hi ho⟩

theorem Ready.disjoint (h : R.Ready b) (hi : i < R.len) (hj : j < R.len) (hij : i ≠ j)
    (hoi : R.Owned b i) (hoj : R.Owned b j) {x : Nat} (hx : R.Slot i x) : ¬ R.Slot j x :=
  (h.laidAt i hi hoi).disjoint (h.laidAt j hj hoj) hij (h.bufsApart i j hi hj hij hoi hoj) hx

theorem SlotFull.not_owned {f : RxFrame} (h : R.SlotFull b i f) : ¬ R.Owned b i := by
  rintro ⟨w, hw, hown⟩
  obtain ⟨w', hw', hclear, -⟩ := h.status
  obtain rfl : w = w' := Option.some.inj (hw.load.symm.trans hw'.load)
  exact hown hclear

/-- The descriptor words of the other slots are outside of a slot. -/
theorem Ready.desc_outside (h : R.Ready b) (hi : i < R.len) (ho : R.Owned b i) (hj : j < R.len)
    (hji : j ≠ i) {x : Nat} (hlo : (R.desc j).toNat ≤ x) (hhi : x < (R.desc j).toNat + 16) :
    ¬ R.Slot i x := by
  intro hx
  have hl := h.laidAt i hi ho
  have hdi := toNat_desc hl.fits hi
  have hdj := toNat_desc hl.fits hj
  have hapart := hl.apart
  rw [Slot, hdi] at hx
  omega

/-- Writing the DMA's slot `i` leaves the descriptors of the other slots as they were. -/
theorem SlotWritten.desc_holds (hw : R.SlotWritten i b b') (h : R.Ready b) (hi : i < R.len)
    (ho : R.Owned b i) (hj : j < R.len) (hji : j ≠ i) {a v : Word} (hv : b.Holds 4 a v)
    (hlo : (R.desc j).toNat ≤ a.toNat) (hhi : a.toNat ≤ (R.desc j).toNat + 12) :
    b'.Holds 4 a v :=
  hw.frame hv (by decide) fun _ hx hx' =>
    h.desc_outside hi ho hj hji (Nat.le_trans hlo hx) (by omega)

theorem SlotWritten.status_holds (hw : R.SlotWritten i b b') (h : R.Ready b) (hi : i < R.len)
    (ho : R.Owned b i) (hj : j < R.len) (hji : j ≠ i) {v : Word}
    (hv : b.Holds 4 (R.desc j + 12) v) : b'.Holds 4 (R.desc j + 12) v := by
  have hd := toNat_desc h.fits hj
  have hst := toNat_status h.fits hj
  exact hw.desc_holds h hi ho hj hji hv (by omega) (by omega)

/-- A slot that is the DMA's after another one was written was so before. -/
theorem SlotWritten.owned (hw : R.SlotWritten i b b') (h : R.Ready b) (hi : i < R.len)
    (ho : R.Owned b i) (hj : j < R.len) (hji : j ≠ i) : R.Owned b' j ↔ R.Owned b j := by
  refine ⟨?_, ?_⟩
  · rintro ⟨w, hw', hown⟩
    obtain ⟨v, hv⟩ := (h.descServed j hj).2.holds
    have hv' := hw.status_holds h hi ho hj hji hv
    obtain rfl : w = v := Option.some.inj (hw'.load.symm.trans hv'.load)
    exact ⟨w, hv, hown⟩
  · rintro ⟨w, hv, hown⟩
    exact ⟨w, hw.status_holds h hi ho hj hji hv, hown⟩

/-- The ring after one frame: the slot that took it is the driver's, the others are as before. -/
theorem SlotWritten.ready (hw : R.SlotWritten i b b') (h : R.Ready b) (hi : i < R.len)
    (ho : R.Owned b i) (hgone : ¬ R.Owned b' i) : R.Ready b' where
  base_ne := h.base_ne
  pos := h.pos
  fits := h.fits
  descServed := fun j hj => ⟨hw.served (h.descServed j hj).1, hw.served (h.descServed j hj).2⟩
  laidAt := by
    intro j hj hoj
    have hji : j ≠ i := fun hji => hgone (hji ▸ hoj)
    exact (h.laidAt j hj ((hw.owned h hi ho hj hji).mp hoj)).mono hw.served
  buf := by
    intro j hj hoj
    have hji : j ≠ i := fun hji => hgone (hji ▸ hoj)
    have hv := h.buf j hj ((hw.owned h hi ho hj hji).mp hoj)
    exact hw.desc_holds h hi ho hj hji hv (Nat.le_refl _) (by omega)
  bufsApart := by
    intro j k hj hk hjk hoj hok
    have hji : j ≠ i := fun hji => hgone (hji ▸ hoj)
    have hki : k ≠ i := fun hki => hgone (hki ▸ hok)
    exact h.bufsApart j k hj hk hjk ((hw.owned h hi ho hj hji).mp hoj)
      ((hw.owned h hi ho hk hki).mp hok)

end States

/-! ## The gate and the injection -/

section Gate

variable {δ : Type} [Mmio δ] {R : RxRing} {b : Bus δ} {i : Nat}

/-- The space check looks at the descriptor that the injection looks at. -/
theorem hasSpace_of_ready (h : R.Ready b) (hr : R.Registers b)
    (hnext : b.eth.rxNext.toNat = i) (hi : i < R.len) :
    ∃ space, b.ethRxHasSpace = some (space, b) ∧ (space = true ↔ R.Owned b i) := by
  obtain ⟨w, hw⟩ := (h.descServed i hi).2.holds
  refine ⟨w &&& Dma.ownBit != 0, ?_, ?_⟩
  · simp only [Bus.ethRxHasSpace, hr.base, if_neg h.base_ne, desc_of_next hnext,
      Bus.read32_of_holds hw, Option.bind_eq_bind, Option.bind_some]
  · rw [bne_iff_ne]
    refine ⟨fun hown => ⟨w, hw, hown⟩, ?_⟩
    rintro ⟨v, hv, hown⟩
    obtain rfl : v = w := Option.some.inj (hv.load.symm.trans hw.load)
    exact hown

theorem inject_not_owned (h : R.Ready b) (hr : R.Registers b)
    (hnext : b.eth.rxNext.toNat = i) (hi : i < R.len) (ho : ¬ R.Owned b i)
    (frame : List Byte) : b.ethRxInject frame = some (false, b) := by
  obtain ⟨w, hw⟩ := (h.descServed i hi).2.holds
  have hclear : w &&& Dma.ownBit = 0 := by
    by_contra hown
    exact ho ⟨w, hw, hown⟩
  simp only [Bus.ethRxInject, hr.base, if_neg h.base_ne, desc_of_next hnext,
    Bus.read32_of_holds hw, if_pos hclear, Option.bind_eq_bind, Option.bind_some]

end Gate

/-! ## The loop -/

section Loop

variable {δ : Type} {R : RxRing} {b b₁ b' : Bus δ} {i : Nat}

/-- The descriptor that the `k`-th frame goes to. -/
def landing (R : RxRing) (b : Bus δ) (k : Nat) : Nat := (b.eth.rxNext.toNat + k) % R.len

/-- The ring after the frames `popped`: they lie in consecutive descriptors that were the DMA's,
and the rest of memory is as before. -/
structure Pumped (R : RxRing) (b : Bus δ) (popped : List (List Byte)) (b' : Bus δ) : Prop where
  ready : R.Ready b'
  registers : R.Registers b'
  bound : popped.length ≤ R.len
  filled : ∀ (k : Nat) (frame : List Byte), popped[k]? = some frame →
    R.Owned b (R.landing b k) ∧ R.SlotFull b' (R.landing b k) (RxFrame.ofWire frame).cut
  next : b'.eth.rxNext.toNat = R.landing b popped.length
  frame : ∀ {n : Nat} {a v : Word}, b.Holds n a v → 0 < n →
    (∀ x, a.toNat ≤ x → x < a.toNat + n → ∀ k, k < popped.length → ¬ R.Slot (R.landing b k) x) →
    b'.Holds n a v

theorem landing_lt (hpos : 0 < R.len) (b : Bus δ) (k : Nat) : R.landing b k < R.len :=
  Nat.mod_lt _ hpos

theorem landing_zero (hi : i < R.len) (hnext : b.eth.rxNext.toNat = i) : R.landing b 0 = i := by
  rw [landing, hnext, Nat.add_zero, Nat.mod_eq_of_lt hi]

theorem landing_succ (hnext : b.eth.rxNext.toNat = i)
    (hmove : b₁.eth.rxNext.toNat = (i + 1) % R.len) (k : Nat) :
    R.landing b (k + 1) = R.landing b₁ k := by
  rw [landing, landing, hnext, hmove, Nat.mod_add_mod, Nat.add_assoc, Nat.add_comm 1 k]

/-- A whole turn comes back to the same descriptor. -/
theorem landing_turn (hi : i < R.len) (hmove : b₁.eth.rxNext.toNat = (i + 1) % R.len) :
    R.landing b₁ (R.len - 1) = i := by
  have hsum : i + 1 + (R.len - 1) = i + R.len := by omega
  rw [landing, hmove, Nat.mod_add_mod, hsum, Nat.add_mod_right, Nat.mod_eq_of_lt hi]

theorem pumped_nil (h : R.Ready b) (hr : R.Registers b) (hnext : b.eth.rxNext.toNat < R.len) :
    R.Pumped b [] b where
  ready := h
  registers := hr
  bound := Nat.zero_le _
  filled := nofun
  next := (landing_zero hnext rfl).symm
  frame := fun hv _ _ => hv

/-- One frame, and then the rest: no later frame comes to the slot that the first one filled. -/
theorem Pumped.cons (h : R.Ready b) (hi : i < R.len) (hnext : b.eth.rxNext.toNat = i)
    (ho : R.Owned b i) (hw : R.SlotWritten i b b₁) {frame : List Byte}
    (hfull : R.SlotFull b₁ i (RxFrame.ofWire frame).cut)
    (hmove : b₁.eth.rxNext.toNat = (i + 1) % R.len) {popped : List (List Byte)}
    (hp : R.Pumped b₁ popped b') : R.Pumped b (frame :: popped) b' := by
  have hzero := landing_zero hi hnext
  have hsucc := landing_succ (R := R) hnext hmove
  have hne : ∀ k, k < popped.length → R.Owned b₁ (R.landing b₁ k) ∧ R.landing b₁ k ≠ i := by
    intro k hk
    have hown := (hp.filled k _ (List.getElem?_eq_getElem hk)).1
    exact ⟨hown, fun heq => hfull.not_owned (heq ▸ hown)⟩
  have hbefore : ∀ k, k < popped.length → R.Owned b (R.landing b₁ k) := fun k hk =>
    (hw.owned h hi ho (landing_lt h.pos b₁ k) (hne k hk).2).mp (hne k hk).1
  refine ⟨hp.ready, hp.registers, ?_, ?_, ?_, ?_⟩
  · -- a frame too many would have come round to the first slot
    rw [List.length_cons]
    by_contra hlong
    exact (hne (R.len - 1) (by omega)).2 (landing_turn hi hmove)
  · intro k frame' hk
    cases k with
    | zero =>
        obtain rfl := Option.some.inj hk
        rw [hzero]
        refine ⟨ho, hfull.mono ((h.laidAt i hi ho).mono hw.served) fun hv hn hin => ?_⟩
        refine hp.frame hv hn fun x hlo hhi k hlt => ?_
        exact h.disjoint hi (landing_lt h.pos b₁ k) (hne k hlt).2.symm ho (hbefore k hlt)
          (hin x hlo hhi)
    | succ k =>
        rw [List.getElem?_cons_succ] at hk
        have hlt := (List.getElem?_eq_some_iff.mp hk).1
        rw [hsucc]
        exact ⟨hbefore k hlt, (hp.filled k _ hk).2⟩
  · rw [List.length_cons, hsucc]
    exact hp.next
  · intro n a v hv hn hout
    refine hp.frame (hw.frame hv hn fun x hlo hhi => ?_) hn fun x hlo hhi k hk => ?_
    · have hx := hout x hlo hhi 0 (by rw [List.length_cons]; omega)
      rwa [hzero] at hx
    · have hx := hout x hlo hhi (k + 1) (by rw [List.length_cons]; omega)
      rwa [hsucc] at hx

variable [Mmio δ]

/-- The pump takes frames as long as there are any and the next descriptor is the DMA's. -/
theorem run_pumpRx (h : R.Ready b) (hr : R.Registers b) (hnext : b.eth.rxNext.toNat < R.len)
    (queue : List (List Byte)) :
    ∃ popped rest b', queue = popped ++ rest ∧ b.pumpRx queue = some (rest, b') ∧
      R.Pumped b popped b' ∧ (rest = [] ∨ ¬ R.Owned b' (R.landing b popped.length)) := by
  induction queue generalizing b with
  | nil =>
      obtain ⟨space, hspace, -⟩ := hasSpace_of_ready h hr rfl hnext
      refine ⟨[], [], b, rfl, ?_, pumped_nil h hr hnext, Or.inl rfl⟩
      rw [Bus.pumpRx, hspace]
      rfl
  | cons frame queue ih =>
      obtain ⟨space, hspace, hgate⟩ := hasSpace_of_ready h hr rfl hnext
      have hzero := landing_zero hnext rfl
      by_cases ho : R.Owned b b.eth.rxNext.toNat
      · obtain ⟨b₁, hb₁, hw, hfull, hmove⟩ :=
          inject_free (h.laidAt _ hnext ho) hr rfl (h.slotFree hnext ho) frame
        obtain ⟨popped, rest, b', hqueue, hrun, hp, hstop⟩ :=
          ih (hw.ready h hnext ho hfull.not_owned) (hw.registers hr)
            (hmove ▸ Nat.mod_lt _ h.pos)
        refine ⟨frame :: popped, rest, b', ?_, ?_,
          Pumped.cons h hnext rfl ho hw hfull hmove hp, ?_⟩
        · rw [hqueue, List.cons_append]
        · simp only [Bus.pumpRx, hspace, hgate.mpr ho, hb₁, hrun, if_true,
            Option.bind_eq_bind, Option.bind_some]
        · rwa [List.length_cons, landing_succ rfl hmove]
      · refine ⟨[], frame :: queue, b, rfl, ?_, pumped_nil h hr hnext, Or.inr ?_⟩
        · have hfull : space = false := by
            rw [← Bool.not_eq_true, hgate]
            exact ho
          simp only [Bus.pumpRx, hspace, hfull, Option.bind_eq_bind, Option.bind_some]
          rfl
        · rwa [List.length_nil, hzero]

end Loop

/-! ## The pump -/

section Pump

variable {δ : Type} {R : RxRing} {b b' : Bus δ}

theorem holds_withEth {e : EthDma} {k : Nat} {a v : Word} :
    Bus.Holds { b with eth := e } k a v ↔ b.Holds k a v :=
  ⟨fun h => h.withEth b.eth, fun h => h.withEth e⟩

theorem served_withEth {e : EthDma} {k : Nat} {a : Word} (h : b.Served k a) :
    Bus.Served { b with eth := e } k a := by
  obtain ⟨v, hv⟩ := h.holds
  exact (hv.withEth e).served

theorem owned_withEth {e : EthDma} {i : Nat} :
    R.Owned { b with eth := e } i ↔ R.Owned b i :=
  exists_congr fun _ => and_congr_left fun _ => holds_withEth

theorem Ready.withEth (h : R.Ready b) (e : EthDma) : R.Ready { b with eth := e } where
  base_ne := h.base_ne
  pos := h.pos
  fits := h.fits
  descServed := fun i hi =>
    ⟨served_withEth (h.descServed i hi).1, served_withEth (h.descServed i hi).2⟩
  laidAt := fun i hi ho => (h.laidAt i hi (owned_withEth.mp ho)).mono served_withEth
  buf := fun i hi ho => (h.buf i hi (owned_withEth.mp ho)).withEth e
  bufsApart := fun i j hi hj hij hoi hoj =>
    h.bufsApart i j hi hj hij (owned_withEth.mp hoi) (owned_withEth.mp hoj)

/-- Taking out what was transmitted changes nothing that the receive side looks at. -/
theorem Pumped.ofEth {e : EthDma} {popped : List (List Byte)} (hnext : e.rxNext = b.eth.rxNext)
    (h : R.Pumped { b with eth := e } popped b') : R.Pumped b popped b' := by
  have hland : ∀ k, R.landing { b with eth := e } k = R.landing b k := fun k => by
    rw [landing, landing, hnext]
  refine ⟨h.ready, h.registers, h.bound, fun k frame hk => ?_, ?_, fun hv hn hout => ?_⟩
  · have hfilled := h.filled k frame hk
    rw [hland] at hfilled
    exact ⟨owned_withEth.mp hfilled.1, hfilled.2⟩
  · rw [h.next, hland]
  · refine h.frame (hv.withEth e) hn fun x hlo hhi k hk => ?_
    rw [hland]
    exact hout x hlo hhi k hk

variable [Mmio δ]

/-- Without a ring nothing is taken from the queue. -/
theorem pumpEth_no_ring (h : b.eth.ethReg dmacrxdlar = 0) (queue : List (List Byte)) :
    b.pumpEth queue = some (b.eth.txFrames, queue,
      { b with eth := { b.eth with txFrames := [] } }) := by
  have hbase : { b.eth with txFrames := [] }.ethReg dmacrxdlar = 0 := h
  cases queue with
  | nil =>
      simp only [Bus.pumpEth, Bus.pumpRx, Bus.ethRxHasSpace, if_pos hbase, Option.map_some,
        Option.bind_eq_bind, Option.bind_some]
  | cons frame queue =>
      simp only [Bus.pumpEth, Bus.pumpRx, Bus.ethRxHasSpace, if_pos hbase, Option.bind_eq_bind,
        Option.bind_some]
      rfl

/-- **The pump loses nothing.** From every state of a ring it delivers a prefix of the queue, frame
by frame to consecutive descriptors that were the DMA's, and leaves the rest queued; it stops when
the queue is empty or the next descriptor is the driver's. The space check never lets a frame
through that the injection refuses, nor holds one back that it would take. Without a ring
nothing is taken from the queue. -/
theorem pump_eth_lossless (h : R.Ready b) (hr : R.Registers b)
    (hnext : b.eth.rxNext.toNat < R.len) (queue : List (List Byte)) :
    (∃ popped rest b', queue = popped ++ rest ∧
      b.pumpEth queue = some (b.eth.txFrames, rest, b') ∧ R.Pumped b popped b' ∧
      (rest = [] ∨ ¬ R.Owned b' (R.landing b popped.length))) ∧
    (∀ (c : Bus δ), R.Ready c → R.Registers c → c.eth.rxNext.toNat < R.len →
      ∃ space, c.ethRxHasSpace = some (space, c) ∧
        ∀ frame, ∃ c', c.ethRxInject frame = some (space, c')) ∧
    ∀ (c : Bus δ), c.eth.ethReg dmacrxdlar = 0 →
      c.pumpEth queue = some (c.eth.txFrames, queue,
        { c with eth := { c.eth with txFrames := [] } }) := by
  refine ⟨?_, fun c hc hcr hcn => ?_, fun c hc => pumpEth_no_ring hc queue⟩
  · obtain ⟨popped, rest, b', hqueue, hrun, hp, hstop⟩ :=
      run_pumpRx (b := { b with eth := { b.eth with txFrames := [] } }) (h.withEth _)
        ⟨hr.base, hr.len⟩ hnext queue
    refine ⟨popped, rest, b', hqueue, ?_,
      Pumped.ofEth (e := { b.eth with txFrames := [] }) rfl hp, hstop⟩
    simp only [Bus.pumpEth, hrun, Option.bind_eq_bind, Option.bind_some]
  · obtain ⟨space, hspace, hgate⟩ := hasSpace_of_ready hc hcr rfl hcn
    refine ⟨space, hspace, fun frame => ?_⟩
    by_cases ho : R.Owned c c.eth.rxNext.toNat
    · obtain ⟨c', hc', -⟩ :=
        inject_free (hc.laidAt _ hcn ho) hcr rfl (hc.slotFree hcn ho) frame
      exact ⟨c', hgate.mpr ho ▸ hc'⟩
    · have hfull : space = false := by
        rw [← Bool.not_eq_true, hgate]
        exact ho
      exact ⟨c, hfull ▸ inject_not_owned hc hcr rfl hcn ho frame⟩

end Pump

end RxRing

/-! ## Two descriptors -/

section TwoDescriptors

open RxSystem

/-- Three frames for two free descriptors. -/
theorem pump_eth_twoRing :
    ∃ popped rest b', [[1], [2], [3]] = popped ++ rest ∧
      (twoBus 1).pumpEth [[1], [2], [3]] = some ([], rest, b') ∧
      twoRing.Pumped (twoBus 1) popped b' ∧
      (rest = [] ∨ ¬ twoRing.Owned b' (twoRing.landing (twoBus 1) popped.length)) :=
  (RxRing.pump_eth_lossless (twoRing_programmed 1).ready (twoRing_programmed 1).registers
    (by decide) [[1], [2], [3]]).1

/-- The buffer of descriptor 0 begins at the status word of descriptor 1, which is the
driver's. -/
def overlapRing : RxRing := ⟨0x20000000, [0x2000001C, 0x20000800]⟩

def overlapData : Bytes (0x1000 : Word).toNat :=
  (((Bytes.const _ 0).splice 0 4 (byteOf 0x2000001C)).splice 12 4
    (byteOf RxRing.handOverBits)).splice 16 4 (byteOf 0x20000800)

def overlapBus : Bus Unit :=
  { twoBus 0 with rams := [⟨0x20000000, 0x1000, overlapData, Ram.fits_page⟩] }

theorem overlapBus_open {a : Word} (hlo : 0x20000000 ≤ a.toNat) (hhi : a.toNat < 0x20001000) :
    overlapBus.Open a :=
  overlapBus.open_of_sram hlo (by omega)

/-- The first of two frames hands descriptor 1 to the DMA, which puts the second one there. -/
theorem overlap_takes_unowned :
    ¬ ∀ (R : RxRing) (b b' : Bus Unit) (queue sent rest : List (List Byte)),
      R.base ≠ 0 → R.base.toNat + 16 * R.len < 2 ^ 32 → R.Registers b →
      b.eth.rxNext.toNat < R.len →
      (∀ i, i < R.len → b.Holds 4 (R.desc i) (R.buf i) ∧ b.Served 4 (R.desc i + 12)) →
      (∀ i j, i < R.len → j < bufsz.toNat → b.Served 1 (R.buf i + BitVec.ofNat 32 j)) →
      b.pumpEth queue = some (sent, rest, b') →
      ∀ k, k + rest.length < queue.length → R.Owned b (R.landing b k) := by
  intro h
  have hlen : overlapRing.len = 2 := rfl
  have hcases : ∀ {P : Nat → Prop}, P 0 → P 1 → ∀ i, i < overlapRing.len → P i := by
    intro P h₀ h₁ i hi
    rw [hlen] at hi
    interval_cases i
    · exact h₀
    · exact h₁
  have hrams : overlapBus.rams = [⟨0x20000000, 0x1000, overlapData, Ram.fits_page⟩] := rfl
  have hserved : ∀ {a : Word} {k : Nat}, k ≤ 4 → 0x20000000 ≤ a.toNat →
      a.toNat + k ≤ 0x20001000 → 0 < k → overlapBus.Served k a := fun hk hlo hhi hpos =>
    Bus.served_of_head hrams hk (overlapBus_open hlo (by omega)) hlo hhi (by decide)
  have hdesc : ∀ i, i < overlapRing.len →
      overlapBus.Holds 4 (overlapRing.desc i) (overlapRing.buf i) ∧
        overlapBus.Served 4 (overlapRing.desc i + 12) :=
    hcases ⟨⟨overlapBus_open (by decide) (by decide), by decide +kernel⟩,
      hserved (by decide) (by decide) (by decide) (by decide)⟩
      ⟨⟨overlapBus_open (by decide) (by decide), by decide +kernel⟩,
      hserved (by decide) (by decide) (by decide) (by decide)⟩
  have hbufs : ∀ i j, i < overlapRing.len → j < bufsz.toNat →
      overlapBus.Served 1 (overlapRing.buf i + BitVec.ofNat 32 j) := by
    intro i j hi hj
    have hbz : bufsz.toNat = 1536 := rfl
    have hbuf : ∀ a : Word, 0x20000000 ≤ a.toNat → a.toNat + 1536 ≤ 0x20001000 →
        overlapBus.Served 1 (a + BitVec.ofNat 32 j) := by
      intro a hlo hhi
      have ha : (a + BitVec.ofNat 32 j).toNat = a.toNat + j := by
        rw [BitVec.toNat_add, BitVec.toNat_ofNat]
        omega
      exact hserved (by decide) (by omega) (by omega) (by decide)
    revert i
    exact hcases (hbuf _ (by decide) (by decide)) (hbuf _ (by decide) (by decide))
  -- both frames are taken, although descriptor 1 was the driver's
  have hrest : (overlapBus.pumpEth [[0, 0, 0, 0x80], [1]]).map (fun r => r.2.1) = some [] := by
    decide +kernel
  obtain ⟨⟨sent, rest, b'⟩, hrun, hnil⟩ := Option.map_eq_some_iff.mp hrest
  obtain rfl : rest = [] := hnil
  obtain ⟨w, hw, hown⟩ := h overlapRing overlapBus b' [[0, 0, 0, 0x80], [1]] sent [] (by decide)
    (by decide) ⟨rfl, by decide⟩ (by decide) hdesc hbufs hrun 1 (by decide)
  have hclear : loadRam overlapBus.rams (overlapRing.desc 1 + 12) 4 = some 0 := by
    decide +kernel
  obtain rfl : w = 0 := Option.some.inj (hw.load.symm.trans hclear)
  exact hown (by decide)

end TwoDescriptors

end SpEmu
