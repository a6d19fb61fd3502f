import SpEmu.Mem.RxRing

/-!
# The transmit ring

A transmit walk goes over the whole ring: it hands every owned descriptor back, takes the VID of
a context descriptor and emits the frame of a packet descriptor. `TxSlot` is what a descriptor
holds, with the bytes of its buffer; `vidBefore` is the VID that a packet finds, that of the last
owned descriptor before it that either has one or uses one up.

`tx_ring` is the walk over any ring in RAM, and follows each emitted frame into a receive ring.
-/

set_option autoImplicit false

namespace SpEmu

open ByteMem Mem

/-! ## Descriptors -/

/-- The words of a transmit descriptor, and the bytes of its buffer. -/
structure TxSlot where
  tdes0 : Word
  tdes2 : Word
  tdes3 : Word
  bytes : List Byte

namespace TxSlot

variable (s : TxSlot)

def Owned : Prop := s.tdes3 &&& Dma.ownBit ≠ 0

/-- An owned descriptor with a frame to send. -/
def Packet : Prop := s.Owned ∧ s.tdes3 &&& Dma.contextBit = 0

/-- An owned context descriptor with a valid VID. -/
def HasVid : Prop := s.Owned ∧ s.tdes3 &&& Dma.contextBit ≠ 0 ∧ s.tdes3 &&& Dma.vidBit ≠ 0

instance : Decidable s.Owned := inferInstanceAs (Decidable (_ ≠ _))
instance : Decidable s.Packet := inferInstanceAs (Decidable (_ ∧ _))
instance : Decidable s.HasVid := inferInstanceAs (Decidable (_ ∧ _))

def vid : Half := (s.tdes3 &&& 0xFFF).setWidth 16

/-- The length field of the descriptor, cut to the buffer size. -/
def len : Nat := min (s.tdes2 &&& 0x3FFF).toNat bufsz.toNat

end TxSlot

/-- The VID that a packet finds after the descriptors `pre`, when the walk began with `p`: that of
the last context descriptor, unless a packet came after it. -/
def vidBefore (p : Option Half) (pre : List TxSlot) : Option Half :=
  match pre.reverse.find? fun s => decide (s.Packet ∨ s.HasVid) with
  | some s => if s.Packet then none else some s.vid
  | none => p

/-- The frames of the packets among the descriptors `rest`, which follow `pre`. -/
def packetFrames (p : Option Half) : (pre rest : List TxSlot) → List (List Byte)
  | _, [] => []
  | pre, s :: rest =>
      if s.Packet then Dma.tagFrame (vidBefore p pre) s.bytes :: packetFrames p (pre ++ [s]) rest
      else packetFrames p (pre ++ [s]) rest

/-- The Ethernet block after the descriptors `pre`: the frames are queued and a VID is pending. -/
def EthDma.queued (e : EthDma) (pre : List TxSlot) : EthDma :=
  { e with
    pendingVid := vidBefore e.pendingVid pre
    txFrames := e.txFrames ++ packetFrames e.pendingVid [] pre }

theorem vidBefore_append (p : Option Half) (pre : List TxSlot) (s : TxSlot) :
    vidBefore p (pre ++ [s]) =
      if s.Packet then none else if s.HasVid then some s.vid else vidBefore p pre := by
  rw [vidBefore, List.reverse_append, List.reverse_cons, List.reverse_nil, List.nil_append,
    List.singleton_append, List.find?_cons]
  by_cases hp : s.Packet
  · rw [if_pos hp, decide_eq_true (Or.inl hp)]
    exact if_pos hp
  · by_cases hv : s.HasVid
    · rw [if_neg hp, if_pos hv, decide_eq_true (Or.inr hv)]
      exact if_neg hp
    · rw [if_neg hp, if_neg hv, decide_eq_false (not_or.mpr ⟨hp, hv⟩)]
      rfl

/-- A VID of 12 bits, as a descriptor holds it. -/
def VidFits (p : Option Half) : Prop := ∀ vid, p = some vid → vid &&& 0xFFF = vid

theorem TxSlot.vid_fits (s : TxSlot) : s.vid &&& 0xFFF = s.vid := by
  have hmask : (0xFFF : Half) = (0xFFF : Word).setWidth 16 := rfl
  rw [vid, hmask, ← BitVec.setWidth_and, BitVec.and_assoc, BitVec.and_self]

theorem vidFits_vidBefore {p : Option Half} (hp : VidFits p) (pre : List TxSlot) :
    VidFits (vidBefore p pre) := by
  induction pre using List.reverseRecOn with
  | nil => exact hp
  | append_singleton pre s ih =>
      rw [vidBefore_append]
      split
      · exact nofun
      · split
        · rintro vid ⟨⟩
          exact s.vid_fits
        · exact ih

/-! ## Rings in memory -/

structure TxRing where
  base : Word
  slots : List TxSlot

namespace TxRing

variable (T : TxRing)

/-- The address of descriptor `i`. -/
def desc (i : Nat) : Word := T.base + BitVec.ofNat 32 i * 16

variable {δ : Type}

/-- A packet descriptor holds its words, and its buffer, apart from the ring, the frame. -/
structure PacketLaid (b : Bus δ) (T : TxRing) (i : Nat) (s : TxSlot) : Prop where
  tdes0 : b.Holds 4 (T.desc i) s.tdes0
  tdes2 : b.Holds 4 (T.desc i + 8) s.tdes2
  length : s.bytes.length = s.len
  data : ∀ (j : Nat) (byte : Byte), s.bytes[j]? = some byte →
    b.Holds 1 (s.tdes0 + BitVec.ofNat 32 j) (byte.setWidth 32)
  fits : s.tdes0.toNat + s.len < 2 ^ 32
  apart : s.len = 0 ∨ s.tdes0.toNat + s.len ≤ T.base.toNat ∨
    T.base.toNat + 16 * T.slots.length ≤ s.tdes0.toNat

/-- The registers describe the ring, and it lies in RAM. -/
structure Laid (b : Bus δ) (T : TxRing) : Prop where
  base : b.eth.ethReg dmactxdlar = T.base
  len : (b.eth.ethReg dmactxrlr &&& 0xFFFF).toNat + 1 = T.slots.length
  fits : T.base.toNat + 16 * T.slots.length < 2 ^ 32
  status : ∀ (i : Nat) (s : TxSlot), T.slots[i]? = some s → b.Holds 4 (T.desc i + 12) s.tdes3
  packet : ∀ (i : Nat) (s : TxSlot), T.slots[i]? = some s → s.Packet → PacketLaid b T i s

/-- The addresses of the status words that the walk hands back. -/
def Handed (x : Nat) : Prop :=
  ∃ i s, T.slots[i]? = some s ∧ s.Owned ∧
    T.base.toNat + 16 * i + 12 ≤ x ∧ x < T.base.toNat + 16 * i + 16

end TxRing

/-! ## One descriptor -/

theorem and_not_of_and_eq_zero {x m : Word} (h : x &&& m = 0) : x &&& ~~~m = x := by
  apply BitVec.eq_of_getLsbD_eq
  intro i hi
  have hbit := congrArg (fun w => w.getLsbD i) h
  simp only [BitVec.getLsbD_and, BitVec.getLsbD_not, hi, decide_true, Bool.true_and,
    BitVec.ofNat_eq_ofNat, BitVec.getLsbD_zero] at hbit ⊢
  cases hx : x.getLsbD i with
  | false => rfl
  | true =>
      rw [hx, Bool.true_and] at hbit
      rw [hbit]
      rfl

namespace Bus

variable {δ : Type} [Mmio δ] {b : Bus δ}

theorem write32N_of_served (n : Nat) {a : Word} (h : b.Served 4 a) (v : Word) :
    ∃ b', write32N n a v b = some b' ∧ Stored b b' 4 a v := by
  cases n with
  | zero => exact write32With_of_served h _ v
  | succ n => exact write32With_of_served h _ v

/-- The frame is what its buffer holds. -/
theorem run_readFrame (w32 : Word → Word → Bus δ → Option (Bus δ)) (bytes : List Byte) {a : Word}
    (h : ∀ (j : Nat) (byte : Byte), bytes[j]? = some byte →
      b.Holds 1 (a + BitVec.ofNat 32 j) (byte.setWidth 32)) :
    (Dma.readFrame a bytes.length).run (dmaHandler w32) b = some (bytes, b) := by
  induction bytes generalizing a with
  | nil => rfl
  | cons byte bytes ih =>
      have hfirst : b.Holds 1 a (byte.setWidth 32) := by
        have h₀ := h 0 byte rfl
        rwa [BitVec.add_zero] at h₀
      have hrest := ih (a := a + 1) fun j byte' hj => by
        rw [← add_ofNat_succ]
        exact h (j + 1) byte' hj
      have hbyte : (byte.setWidth 32).setWidth 8 = byte := by simp
      rw [List.length_cons, Dma.readFrame, Prog.bind_eq, Prog.lift_bind, Prog.run_call]
      simp only [dmaHandler, read8_of_holds hfirst, hbyte, Option.bind_some, Prog.bind_eq,
        Prog.run_bind, hrest, Prog.pure_eq, Prog.run_ret]

/-- The bus after a descriptor: its status word is handed back, and a VID is kept or used up. -/
structure Walked (b b' : Bus δ) (d : Word) (s : TxSlot) : Prop where
  rams : b' = { b with rams := b'.rams, eth := b'.eth }
  eth : b'.eth = { b.eth with
    pendingVid := if s.Packet then none else if s.HasVid then some s.vid else b.eth.pendingVid
    txFrames := if s.Packet then
      b.eth.txFrames ++ [Dma.tagFrame b.eth.pendingVid s.bytes] else b.eth.txFrames }
  status : b'.Holds 4 (d + 12) (s.tdes3 &&& ~~~Dma.ownBit)
  frame : ∀ {k : Nat} {a v : Word}, b.Holds k a v →
    (s.Owned → a.toNat + k ≤ (d + 12).toNat ∨ (d + 12).toNat + 4 ≤ a.toNat) → b'.Holds k a v

/-- What a packet descriptor at `d` and its buffer hold, apart from the status word. -/
structure PacketHeld (b : Bus δ) (d : Word) (s : TxSlot) : Prop where
  tdes0 : b.Holds 4 d s.tdes0
  tdes2 : b.Holds 4 (d + 8) s.tdes2
  length : s.bytes.length = s.len
  data : ∀ (j : Nat) (byte : Byte), s.bytes[j]? = some byte →
    b.Holds 1 (s.tdes0 + BitVec.ofNat 32 j) (byte.setWidth 32)
  top : d.toNat + 16 < 2 ^ 32
  fits : s.tdes0.toNat + s.len < 2 ^ 32
  apart : s.len = 0 ∨ s.tdes0.toNat + s.len ≤ d.toNat + 12 ∨ d.toNat + 16 ≤ s.tdes0.toNat

omit [Mmio δ] in
/-- The status word is in neither of the words that are read after it nor in the buffer. -/
theorem PacketHeld.stored {b₁ : Bus δ} {d v : Word} {s : TxSlot} (h : b.PacketHeld d s)
    (hst : Stored b b₁ 4 (d + 12) v) : b₁.PacketHeld d s := by
  obtain ⟨htdes0, htdes2, hlen, hdata, htop, hfits, hapart⟩ := h
  have hd12 : (d + 12).toNat = d.toNat + 12 := by
    rw [BitVec.toNat_add, show BitVec.toNat (12 : Word) = 12 from rfl]
    omega
  have hd8 : (d + 8).toNat = d.toNat + 8 := by
    rw [BitVec.toNat_add, show BitVec.toNat (8 : Word) = 8 from rfl]
    omega
  refine ⟨hst.frame htdes0 (by omega), hst.frame htdes2 (by omega), hlen, ?_, htop, hfits, hapart⟩
  intro j byte hj
  have hlt : j < s.len := hlen ▸ (List.getElem?_eq_some_iff.mp hj).1
  refine hst.frame (hdata j byte hj) ?_
  rw [BitVec.toNat_add, BitVec.toNat_ofNat]
  omega

theorem run_txDescriptor (n : Nat) {d : Word} {s : TxSlot}
    (hstatus : b.Holds 4 (d + 12) s.tdes3) (hpacket : s.Packet → b.PacketHeld d s) :
    ∃ b', (Dma.txDescriptor d).run (dmaHandler (write32N n)) b =
      some (decide s.Packet, b') ∧ Walked b b' d s := by
  rw [Dma.txDescriptor, Prog.bind_eq, Prog.lift_bind, Prog.run_call]
  simp only [dmaHandler, read32_of_holds hstatus, Option.bind_some]
  by_cases hown : s.Owned
  · obtain ⟨b₁, hb₁, hst⟩ := write32N_of_served n hstatus.served (s.tdes3 &&& ~~~Dma.ownBit)
    rw [if_neg hown, Prog.bind_eq, Prog.lift_bind, Prog.run_call]
    simp only [dmaHandler, hb₁, Option.map_some, Option.bind_some]
    have hframe : ∀ {k : Nat} {a v : Word}, b.Holds k a v →
        (s.Owned → a.toNat + k ≤ (d + 12).toNat ∨ (d + 12).toNat + 4 ≤ a.toNat) →
        b₁.Holds k a v := fun hh hout => hst.frame hh (hout hown)
    have hrams : b₁ = { b with rams := b₁.rams } := hst.only
    have heth : b₁.eth = b.eth := by rw [hrams]
    by_cases hctx : s.tdes3 &&& Dma.contextBit ≠ 0
    · have hnot : ¬ s.Packet := fun hp => hctx hp.2
      rw [if_pos hctx]
      by_cases hvid : s.tdes3 &&& Dma.vidBit ≠ 0
      · -- a context descriptor leaves its VID for the next packet
        have hhas : s.HasVid := ⟨hown, hctx, hvid⟩
        refine ⟨{ b₁ with eth := { b₁.eth with pendingVid := some s.vid } }, ?_, ?_, ?_, ?_, ?_⟩
        · rw [if_pos hvid, decide_eq_false hnot]
          rfl
        · rw [hrams]
        · rw [if_neg hnot, if_pos hhas, if_neg hnot, heth]
        · exact hst.word.withEth _
        · exact fun hh hout => (hframe hh hout).withEth _
      · have hhas : ¬ s.HasVid := fun h => hvid h.2.2
        refine ⟨b₁, ?_, ?_, ?_, hst.word, hframe⟩
        · rw [if_neg hvid, decide_eq_false hnot]
          rfl
        · rw [hrams]
        · rw [if_neg hnot, if_neg hhas, if_neg hnot, heth]
    · -- a packet is read from its buffer, which the status word is not in
      have hp : s.Packet := ⟨hown, not_not.mp hctx⟩
      have hheld := (hpacket hp).stored hst
      have hread := run_readFrame (write32N n) s.bytes hheld.data
      rw [hheld.length] at hread
      refine ⟨{ b₁ with eth := { b₁.eth with
        pendingVid := none
        txFrames := b₁.eth.txFrames ++ [Dma.tagFrame b₁.eth.pendingVid s.bytes] } },
        ?_, ?_, ?_, ?_, ?_⟩
      · rw [if_neg hctx, decide_eq_true hp, Prog.bind_eq, Prog.lift_bind, Prog.run_call]
        simp only [dmaHandler, read32_of_holds hheld.tdes0, Option.bind_some, Prog.bind_eq,
          Prog.lift_bind, Prog.run_call, read32_of_holds hheld.tdes2, Prog.run_bind,
          show min (s.tdes2 &&& 0x3FFF).toNat bufsz.toNat = s.len from rfl, hread,
          Prog.pure_eq, Prog.run_ret]
      · rw [hrams]
      · rw [if_pos hp, if_pos hp, heth]
      · exact hst.word.withEth _
      · exact fun hh hout => (hframe hh hout).withEth _
  · -- the driver has the descriptor
    have hzero : s.tdes3 &&& Dma.ownBit = 0 := not_not.mp hown
    have hp : ¬ s.Packet := fun h => hown h.1
    have hv : ¬ s.HasVid := fun h => hown h.1
    refine ⟨b, ?_, rfl, ?_, ?_, fun hh _ => hh⟩
    · rw [if_pos hzero, decide_eq_false hp]
      rfl
    · rw [if_neg hp, if_neg hv, if_neg hp]
    · rwa [and_not_of_and_eq_zero hzero]

end Bus

/-! ## The walk -/

theorem packetFrames_append (p : Option Half) (pre l : List TxSlot) (s : TxSlot) :
    packetFrames p pre (l ++ [s]) = packetFrames p pre l ++
      if s.Packet then [Dma.tagFrame (vidBefore p (pre ++ l)) s.bytes] else [] := by
  induction l generalizing pre with
  | nil =>
      rw [List.nil_append, packetFrames, packetFrames, packetFrames, List.append_nil,
        List.nil_append]
  | cons x l ih =>
      rw [List.cons_append, packetFrames, packetFrames, ih, List.append_assoc,
        List.singleton_append]
      split
      · rfl
      · rfl

namespace TxRing

variable {δ : Type} {T : TxRing} {b : Bus δ}

/-- The bus after the walk over the descriptors `pre`. -/
structure WalkedTo (b : Bus δ) (T : TxRing) (pre : List TxSlot) (c : Bus δ) : Prop where
  rams : c = { b with rams := c.rams, eth := c.eth }
  eth : c.eth = b.eth.queued pre
  status : ∀ (i : Nat) (s : TxSlot), pre[i]? = some s →
    c.Holds 4 (T.desc i + 12) (s.tdes3 &&& ~~~Dma.ownBit)
  frame : ∀ {k : Nat} {a v : Word}, b.Holds k a v →
    (∀ (i : Nat) (s : TxSlot), pre[i]? = some s → s.Owned →
      a.toNat + k ≤ (T.desc i + 12).toNat ∨ (T.desc i + 12).toNat + 4 ≤ a.toNat) →
    c.Holds k a v

theorem toNat_desc (h : T.Laid b) {i : Nat} (hi : i < T.slots.length) :
    (T.desc i).toNat = T.base.toNat + 16 * i := by
  have hfits := h.fits
  rw [desc, BitVec.toNat_add, BitVec.toNat_mul, BitVec.toNat_ofNat,
    show BitVec.toNat (16 : Word) = 16 from rfl]
  omega

theorem toNat_status (h : T.Laid b) {i : Nat} (hi : i < T.slots.length) :
    (T.desc i + 12).toNat = T.base.toNat + 16 * i + 12 := by
  have hfits := h.fits
  rw [BitVec.toNat_add, toNat_desc h hi, show BitVec.toNat (12 : Word) = 12 from rfl]
  omega

theorem walkedTo_nil (b : Bus δ) (T : TxRing) : WalkedTo b T [] b where
  rams := rfl
  eth := by
    rw [EthDma.queued, packetFrames, List.append_nil]
    rfl
  status := nofun
  frame := fun hh _ => hh

variable [Mmio δ]

/-- The walk goes on by one descriptor. -/
theorem walkedTo_snoc (h : T.Laid b) {pre rest : List TxSlot} {s : TxSlot}
    (hslots : T.slots = pre ++ s :: rest) {c : Bus δ} (hc : WalkedTo b T pre c) (n : Nat) :
    ∃ c', (Dma.txDescriptor (T.desc pre.length)).run (Bus.dmaHandler (Bus.write32N n)) c =
      some (decide s.Packet, c') ∧ WalkedTo b T (pre ++ [s]) c' := by
  have hlen : pre.length < T.slots.length := by
    rw [hslots, List.length_append, List.length_cons]
    omega
  have hs : T.slots[pre.length]? = some s := by
    rw [hslots, List.getElem?_append_right (Nat.le_refl _), Nat.sub_self, List.getElem?_cons_zero]
  have hd := toNat_desc h hlen
  have hd12 := toNat_status h hlen
  have hfits := h.fits
  -- what lies from here on, or outside of the ring, is not in a status word handed back before
  have hkeep : ∀ {k : Nat} {a v : Word}, b.Holds k a v →
      (a.toNat + k ≤ T.base.toNat ∨ (T.desc pre.length).toNat ≤ a.toNat) → c.Holds k a v := by
    intro k a v hv hout
    refine hc.frame hv fun i x hi _ => ?_
    have hlt : i < pre.length := (List.getElem?_eq_some_iff.mp hi).1
    rw [toNat_status h (by omega)]
    omega
  have hstatus : c.Holds 4 (T.desc pre.length + 12) s.tdes3 :=
    hkeep (h.status _ s hs) (by omega)
  have hpacket : s.Packet → c.PacketHeld (T.desc pre.length) s := by
    intro hp
    obtain ⟨htdes0, htdes2, hbytes, hdata, hbuf, hapart⟩ := h.packet _ s hs hp
    have hd8 : (T.desc pre.length + 8).toNat = (T.desc pre.length).toNat + 8 := by
      rw [BitVec.toNat_add, show BitVec.toNat (8 : Word) = 8 from rfl]
      omega
    refine ⟨hkeep htdes0 (by omega), hkeep htdes2 (by omega), hbytes, fun j byte hj => ?_,
      by omega, hbuf, by omega⟩
    have hlt : j < s.len := hbytes ▸ (List.getElem?_eq_some_iff.mp hj).1
    refine hkeep (hdata j byte hj) ?_
    rw [BitVec.toNat_add, BitVec.toNat_ofNat]
    omega
  obtain ⟨c', hrun, hwalked⟩ := Bus.run_txDescriptor n hstatus hpacket
  refine ⟨c', hrun, ?_, ?_, ?_, ?_⟩
  · rw [hwalked.rams, hc.rams]
  · rw [hwalked.eth, hc.eth, EthDma.queued, EthDma.queued, vidBefore_append, packetFrames_append,
      List.nil_append]
    by_cases hp : s.Packet
    · simp only [if_pos hp, List.append_assoc]
    · simp only [if_neg hp, List.append_nil]
  · intro i x hi
    rcases Nat.lt_trichotomy i pre.length with hlt | heq | hgt
    · rw [List.getElem?_append_left hlt] at hi
      refine hwalked.frame (hc.status i x hi) fun _ => ?_
      rw [toNat_status h (by omega)]
      omega
    · subst heq
      rw [List.getElem?_append_right (Nat.le_refl _), Nat.sub_self, List.getElem?_cons_zero,
        Option.some.injEq] at hi
      exact hi ▸ hwalked.status
    · rw [List.getElem?_eq_none (by rw [List.length_append, List.length_singleton]; omega)] at hi
      exact nomatch hi
  · intro k a v hv hout
    refine hwalked.frame (hc.frame hv fun i x hi ho => ?_) fun ho => ?_
    · have hlt : i < pre.length := (List.getElem?_eq_some_iff.mp hi).1
      exact hout i x (by rw [List.getElem?_append_left hlt, hi]) ho
    · refine hout pre.length s ?_ ho
      rw [List.getElem?_append_right (Nat.le_refl _), Nat.sub_self, List.getElem?_cons_zero]

/-- The loop goes over what is left of the ring. -/
theorem run_txLoop (h : T.Laid b) (n : Nat) (rest pre : List TxSlot)
    (hslots : T.slots = pre ++ rest) {c : Bus δ} (hc : WalkedTo b T pre c) (sent : Bool) :
    ∃ c', (Dma.txLoop T.base rest.length pre.length sent).run
        (Bus.dmaHandler (Bus.write32N n)) c =
      some (sent || rest.any (fun s => decide s.Packet), c') ∧ WalkedTo b T T.slots c' := by
  induction rest generalizing pre c sent with
  | nil =>
      refine ⟨c, ?_, ?_⟩
      · rw [List.any_nil, Bool.or_false]
        rfl
      · rwa [hslots, List.append_nil]
  | cons s rest ih =>
      obtain ⟨c₁, hrun, hc₁⟩ := walkedTo_snoc h hslots hc n
      obtain ⟨c', hloop, hc'⟩ := ih (pre ++ [s]) (by rw [hslots, List.append_assoc]; rfl) hc₁
        (sent || decide s.Packet)
      refine ⟨c', ?_, hc'⟩
      rw [List.length_append, List.length_singleton] at hloop
      rw [List.length_cons, Dma.txLoop, Prog.bind_eq, Prog.run_bind, ← desc, hrun,
        Option.bind_some, hloop, List.any_cons, Bool.or_assoc]

/-- What a walk leaves: the frames are queued, and reported if there are any, the status words
are handed back, and nothing else in memory is touched. -/
structure Sent (b : Bus δ) (T : TxRing) (b' : Bus δ) : Prop where
  only : b' = { b with rams := b'.rams, eth := b'.eth }
  eth : b'.eth = if T.slots.any (fun s => decide s.Packet) then
    (b.eth.queued T.slots).complete ((1 : Word) <<< 0 ||| (1 : Word) <<< 15)
    else b.eth.queued T.slots
  status : ∀ (i : Nat) (s : TxSlot), T.slots[i]? = some s →
    b'.Holds 4 (T.desc i + 12) (s.tdes3 &&& ~~~Dma.ownBit)
  frame : ∀ {k : Nat} {a v : Word}, b.Holds k a v → 0 < k →
    (∀ x, a.toNat ≤ x → x < a.toNat + k → ¬ T.Handed x) → b'.Holds k a v

theorem run_walk (h : T.Laid b) (n : Nat) :
    ∃ b', b.runTxWalk (Bus.write32N n) = some b' ∧ T.Sent b b' := by
  obtain ⟨c, hrun, hc⟩ := run_txLoop h n T.slots [] rfl (walkedTo_nil b T) false
  rw [List.length_nil, Bool.false_or] at hrun
  have hframe : ∀ {k : Nat} {a v : Word}, b.Holds k a v → 0 < k →
      (∀ x, a.toNat ≤ x → x < a.toNat + k → ¬ T.Handed x) → c.Holds k a v := by
    intro k a v hv hk hout
    refine hc.frame hv fun i s hi ho => ?_
    have hst := toNat_status h (List.getElem?_eq_some_iff.mp hi).1
    by_contra hmeet
    -- the two ranges meet at the larger of their starts
    refine hout (max a.toNat (T.desc i + 12).toNat) (by omega) (by omega) ⟨i, s, hi, ho, ?_, ?_⟩
    · omega
    · omega
  have hwalk : b.runTxWalk (Bus.write32N n) =
      some (if T.slots.any (fun s => decide s.Packet) then
        { c with eth := c.eth.complete ((1 : Word) <<< 0 ||| (1 : Word) <<< 15) } else c) := by
    rw [Bus.runTxWalk, Dma.ethTxWalk, h.base, h.len, hrun]
    rfl
  refine ⟨_, hwalk, ?_⟩
  split
  · refine ⟨?_, ?_, fun i s hi => (hc.status i s hi).withEth _,
      fun {k a v} hv hk hout => (hframe hv hk hout).withEth _⟩
    · rw [hc.rams]
    · rw [if_pos ‹_›, hc.eth]
  · refine ⟨hc.rams, ?_, hc.status, hframe⟩
    rw [if_neg ‹_›, hc.eth]

end TxRing

/-! ## The other side -/

namespace RxFrame

/-- A frame with an 802.1Q tag of its own. -/
def Tagged (frame : List Byte) : Prop :=
  16 ≤ frame.length ∧ (frame.drop 12).take 2 = [0x81, 0x00]

/-- Receiving strips the tag that transmitting inserted. -/
theorem ofWire_tagFrame (vid : Half) {bytes : List Byte} (h : 12 ≤ bytes.length) :
    ofWire (Dma.tagFrame (some vid) bytes) = ⟨(vid &&& 0xFFF).setWidth 32, bytes⟩ := by
  have hhead : (bytes.take 12).length = 12 := List.length_take_of_le h
  have hvid : ((vid >>> 8).setWidth 8 ++ vid.setWidth 8 : Half) = vid := by
    apply BitVec.eq_of_getLsbD_eq
    intro i hi
    rw [BitVec.getLsbD_append, BitVec.getLsbD_setWidth, BitVec.getLsbD_setWidth,
      BitVec.getLsbD_ushiftRight]
    by_cases hlt : i < 8
    · simp [hlt]
    · have hsub : 8 + (i - 8) = i := by omega
      have hhi : i - 8 < 8 := by omega
      simp [hlt, hhi, hsub]
  have htpid : ((vlanTpid >>> 8).setWidth 8 ++ vlanTpid.setWidth 8 : Half) = vlanTpid := by decide
  have hdrop : (Dma.tagFrame (some vid) bytes).drop 12 = (vlanTpid >>> 8).setWidth 8 ::
      vlanTpid.setWidth 8 :: (vid >>> 8).setWidth 8 :: vid.setWidth 8 :: bytes.drop 12 := by
    rw [Dma.tagFrame, if_pos h, List.append_assoc, List.drop_append_of_le_length (by omega),
      List.drop_of_length_le (by omega)]
    rfl
  have htake : (Dma.tagFrame (some vid) bytes).take 12 = bytes.take 12 := by
    rw [Dma.tagFrame, if_pos h, List.append_assoc, List.take_append_of_le_length (by omega),
      List.take_take, Nat.min_self]
  simp only [ofWire, hdrop, htake]
  rw [if_pos htpid, hvid, List.take_append_drop]

theorem ofWire_untagged {frame : List Byte} (h : ¬ Tagged frame) : ofWire frame = ⟨0, frame⟩ := by
  rw [ofWire]
  split
  · rename_i t₁ t₀ v₁ v₀ rest hdrop
    refine if_neg fun htpid => h ⟨?_, ?_⟩
    · have hlen := congrArg List.length hdrop
      simp only [List.length_drop, List.length_cons] at hlen
      omega
    · have h₁ := congrArg (fun w : Half => w.extractLsb' 8 8) htpid
      have h₀ := congrArg (fun w : Half => w.extractLsb' 0 8) htpid
      simp only [BitVec.extractLsb'_append_eq_left, BitVec.extractLsb'_append_eq_right] at h₁ h₀
      rw [hdrop, h₁, h₀]
      rfl
  · rfl

/-- A frame that fits the buffer is not cut. -/
theorem cut_of_le {f : RxFrame} (h : f.data.length ≤ bufsz.toNat) : f.cut = f := by
  have hb : bufsz.toNat = 1536 := rfl
  have hfit : f.fit = f.data.length := by
    rw [fit, Nat.mod_eq_of_lt (by omega)]
    exact Nat.min_eq_left h
  rw [cut, hfit, List.take_length]

end RxFrame

namespace TxRing

variable {δ ε : Type} [Mmio δ] [Mmio ε] {T : TxRing} {b : Bus δ}

/-- A free receive descriptor takes an emitted frame as `f`. -/
theorem inject_emitted {R : RxRing} {c : Bus ε} {i : Nat} (hl : R.LaidAt c i)
    (hr : R.Registers c) (hnext : c.eth.rxNext.toNat = i) (hfree : R.SlotFree c i)
    {frame : List Byte} {f : RxFrame} (hwire : RxFrame.ofWire frame = f)
    (hfit : f.data.length ≤ bufsz.toNat) :
    ∃ c', c.ethRxInject frame = some (true, c') ∧ R.SlotFull c' i f := by
  obtain ⟨c', hc', -, hfull, -⟩ := RxRing.inject_free hl hr hnext hfree frame
  rw [hwire, RxFrame.cut_of_le hfit] at hfull
  exact ⟨c', hc', hfull⟩

/-- **The transmit ring.** A walk over any ring in RAM emits the frame of each owned packet once
and in ring order, with the VID of the context descriptor before it, hands every descriptor back
and changes no other memory; and a receive ring takes such a frame of 12 bytes or more as its
payload and VID. A VID that an earlier walk left pending has 12 bits, and so has every other. -/
theorem tx_ring (h : T.Laid b) (n : Nat) :
    (∃ b', b.runTxWalk (Bus.write32N n) = some b' ∧ T.Sent b b') ∧
    ∀ (pre rest : List TxSlot) (s : TxSlot), T.slots = pre ++ s :: rest → s.Packet →
      ∀ (R : RxRing) (c : Bus ε) (i : Nat), R.LaidAt c i → R.Registers c →
        c.eth.rxNext.toNat = i → R.SlotFree c i →
        (∀ vid, vidBefore b.eth.pendingVid pre = some vid → 12 ≤ s.bytes.length →
          ∃ c', c.ethRxInject (Dma.tagFrame (some vid) s.bytes) = some (true, c') ∧
            R.SlotFull c' i ⟨(vid &&& 0xFFF).setWidth 32, s.bytes⟩) ∧
        (vidBefore b.eth.pendingVid pre = none → ¬ RxFrame.Tagged s.bytes →
          ∃ c', c.ethRxInject (Dma.tagFrame none s.bytes) = some (true, c') ∧
            R.SlotFull c' i ⟨0, s.bytes⟩) ∧
        (VidFits b.eth.pendingVid → VidFits (vidBefore b.eth.pendingVid pre)) := by
  refine ⟨run_walk h n, fun pre rest s hslots hp R c i hl hr hnext hfree => ?_⟩
  have hs : T.slots[pre.length]? = some s := by
    rw [hslots, List.getElem?_append_right (Nat.le_refl _), Nat.sub_self, List.getElem?_cons_zero]
  have hlen : s.bytes.length ≤ bufsz.toNat := by
    rw [(h.packet _ s hs hp).length]
    exact Nat.min_le_right _ _
  refine ⟨fun vid _ hmin => ?_, fun _ hown => ?_, fun hfits => vidFits_vidBefore hfits pre⟩
  · exact inject_emitted hl hr hnext hfree (RxFrame.ofWire_tagFrame vid hmin) hlen
  · exact inject_emitted hl hr hnext hfree (RxFrame.ofWire_untagged hown) hlen

end TxRing

/-! ## A ring of two packets -/

section TwoPackets

/-- Two packets, each after its context descriptor: four bytes for VLAN 0x123, and twelve for
VLAN 5. -/
def vlanRing : TxRing :=
  ⟨0x20000000,
    [⟨0, 0, 0xC0010123, []⟩,
      ⟨0x20000100, 4, 0x80000000, [1, 0, 0, 0]⟩,
      ⟨0, 0, 0xC0010005, []⟩,
      ⟨0x20000100, 12, 0x80000000, [1, 0, 0, 0, 0, 0, 0, 0, 0, 0, 0, 0]⟩]⟩

def vlanData : Bytes (0x1000 : Word).toNat :=
  [(12, (0xC0010123 : Word)), (16, 0x20000100), (24, 4), (28, 0x80000000), (44, 0xC0010005),
    (48, 0x20000100), (56, 12), (60, 0x80000000), (0x100, 1)].foldl
    (fun data w => data.splice w.1 4 (byteOf w.2)) (Bytes.const _ 0)

def vlanBus : Bus Unit :=
  { Bus.new () with
    rams := [⟨0x20000000, 0x1000, vlanData, Ram.fits_page⟩]
    eth := { (Bus.new ()).eth with
      regs := Function.update (Function.update (fun _ => 0) dmactxdlar 0x20000000)
        dmactxrlr 3 } }

theorem vlanBus_holds {k : Nat} {a v : Word} (hlo : 0x20000000 ≤ a.toNat)
    (hhi : a.toNat < 0x20001000) (hload : loadRam vlanBus.rams a k = some v) :
    vlanBus.Holds k a v :=
  ⟨vlanBus.open_of_sram hlo (by omega), hload⟩

theorem vlanRing_laid : vlanRing.Laid vlanBus := by
  have hcases : ∀ {P : Nat → TxSlot → Prop}, P 0 ⟨0, 0, 0xC0010123, []⟩ →
      P 1 ⟨0x20000100, 4, 0x80000000, [1, 0, 0, 0]⟩ → P 2 ⟨0, 0, 0xC0010005, []⟩ →
      P 3 ⟨0x20000100, 12, 0x80000000, [1, 0, 0, 0, 0, 0, 0, 0, 0, 0, 0, 0]⟩ →
      ∀ i s, vlanRing.slots[i]? = some s → P i s := by
    intro P h₀ h₁ h₂ h₃ i s hi
    match i, hi with
    | 0, rfl => exact h₀
    | 1, rfl => exact h₁
    | 2, rfl => exact h₂
    | 3, rfl => exact h₃
    | i + 4, hi => exact nomatch hi
  have hdata : ∀ (l : List Byte), l.length ≤ 0x100 → (∀ j, j < l.length →
      loadRam vlanBus.rams (0x20000100 + BitVec.ofNat 32 j) 1 = some (l[j]!.setWidth 32)) →
      ∀ (j : Nat) (byte : Byte), l[j]? = some byte →
        vlanBus.Holds 1 (0x20000100 + BitVec.ofNat 32 j) (byte.setWidth 32) := by
    intro l hl h j byte hj
    have hlt := (List.getElem?_eq_some_iff.mp hj).1
    have hbyte : l[j]! = byte := by
      rw [List.getElem!_eq_getElem?_getD, hj]
      rfl
    have ha : (0x20000100 + BitVec.ofNat 32 j : Word).toNat = 0x20000100 + j := by
      rw [BitVec.toNat_add, BitVec.toNat_ofNat, show BitVec.toNat (0x20000100 : Word) =
        0x20000100 from rfl]
      omega
    exact vlanBus_holds (by omega) (by omega) (hbyte ▸ h j hlt)
  refine ⟨rfl, rfl, by decide, hcases ?_ ?_ ?_ ?_, hcases ?_ ?_ ?_ ?_⟩
  · exact vlanBus_holds (by decide) (by decide) (by decide +kernel)
  · exact vlanBus_holds (by decide) (by decide) (by decide +kernel)
  · exact vlanBus_holds (by decide) (by decide) (by decide +kernel)
  · exact vlanBus_holds (by decide) (by decide) (by decide +kernel)
  · exact fun hp => absurd hp (by decide)
  · exact fun _ => ⟨vlanBus_holds (by decide) (by decide) (by decide +kernel),
      vlanBus_holds (by decide) (by decide) (by decide +kernel), rfl,
      hdata _ (by decide) (by decide +kernel), by decide, Or.inr (Or.inr (by decide))⟩
  · exact fun hp => absurd hp (by decide)
  · exact fun _ => ⟨vlanBus_holds (by decide) (by decide) (by decide +kernel),
      vlanBus_holds (by decide) (by decide) (by decide +kernel), rfl,
      hdata _ (by decide) (by decide +kernel), by decide, Or.inr (Or.inr (by decide))⟩

/-- The second packet of the ring arrives in the first slot of another board's ring. -/
theorem tx_ring_vlanRing :
    (∃ b', vlanBus.runTxWalk (Bus.write32N 1) = some b' ∧ vlanRing.Sent vlanBus b') ∧
    ∃ c', (RxSystem.twoBus 0).ethRxInject
        (Dma.tagFrame (some 5) [1, 0, 0, 0, 0, 0, 0, 0, 0, 0, 0, 0]) = some (true, c') ∧
      RxSystem.twoRing.SlotFull c' 0 ⟨5, [1, 0, 0, 0, 0, 0, 0, 0, 0, 0, 0, 0]⟩ := by
  obtain ⟨hsent, hround⟩ := TxRing.tx_ring (ε := Unit) vlanRing_laid 1
  have hprog := RxSystem.twoRing_programmed 0
  have harrives := (hround (vlanRing.slots.take 3) [] ⟨0x20000100, 12, 0x80000000,
    [1, 0, 0, 0, 0, 0, 0, 0, 0, 0, 0, 0]⟩ rfl (by decide) RxSystem.twoRing (RxSystem.twoBus 0) 0
    (hprog.laid.laidAt (by decide)) hprog.registers rfl (hprog.free 0 (by decide))).1 5
    (by decide) (by decide)
  rw [show ((5 : Half) &&& 0xFFF).setWidth 32 = (5 : Word) from by decide] at harrives
  exact ⟨hsent, harrives⟩

/-- A frame of four bytes has no room for a tag after two addresses: it goes out without the VID
of its context descriptor. -/
theorem short_frame_untagged :
    ¬ ∀ (T : TxRing) (b b' : Bus Unit), T.Laid b →
      b.runTxWalk (Bus.write32N 1) = some b' →
      ∀ (i : Nat) (x s : TxSlot), T.slots[i]? = some x → x.HasVid → T.slots[i + 1]? = some s →
        s.Packet → ∃ frame ∈ b'.eth.txFrames, ∃ l r, s.bytes = l ++ r ∧
          frame = l ++
            ([0x81, 0x00, (x.vid >>> 8).setWidth 8, x.vid.setWidth 8] : List Byte) ++ r := by
  intro h
  obtain ⟨b', hrun, hsent⟩ := TxRing.run_walk vlanRing_laid 1
  have hframes : b'.eth.txFrames = [[1, 0, 0, 0],
      Dma.tagFrame (some 5) [1, 0, 0, 0, 0, 0, 0, 0, 0, 0, 0, 0]] := by
    rw [hsent.eth]
    decide
  obtain ⟨frame, hmem, l, r, hbytes, hframe⟩ :=
    h vlanRing vlanBus b' vlanRing_laid hrun 0 _ _ rfl (by decide) rfl (by decide)
  have hlen : frame.length = 8 := by
    have hsum := congrArg List.length hbytes
    rw [List.length_append] at hsum
    rw [hframe, List.length_append, List.length_append]
    simp only [List.length_cons, List.length_nil] at hsum ⊢
    omega
  rw [hframes, List.mem_cons, List.mem_singleton] at hmem
  rcases hmem with rfl | rfl
  · exact absurd hlen (by decide)
  · exact absurd hlen (by decide)

end TwoPackets

end SpEmu
