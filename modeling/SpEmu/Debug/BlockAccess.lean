import SpEmu.Debug.DebugPort
import SpEmu.Debug.RotSwd
import SpEmu.Soc.ByteWise

/-!
# Block transfers of the MEM-AP

A debugger moves a block of memory by one write to CSW, one to TAR, and then one access of the data
register for each element: TAR moves on by itself, and the element sits in the lanes of its address.
The reads are pipelined, so that each answers with the element before it, and RDBUFF with the last.

`blockAddrs w a n` are the addresses of `n` consecutive elements. `transfers_reads` is the run of
the reads from any state that CSW has set up, and `transfers_writes` that of the writes: each is an
induction on the elements, with TAR at the first of those still to come.
-/

set_option autoImplicit false

namespace SpEmu

open ByteMem Mem

namespace MemAp

/-! ## Elements and their lanes -/

/-- CSW.Size of an access. -/
def cswSize : Width → Word
  | .byte => 0
  | .half => 1
  | .word => 2

/-- Where the element at an address sits in a data word: where it is in the word of memory around
it. -/
def lane (w : Width) (a : Word) : Nat := 8 * (a.toNat % 4 / w.bytes * w.bytes)

/-- The element that a data word has for an address. -/
def fromLane (w : Width) (a data : Word) : Word :=
  leWord w.bytes (byteOf (data >>> lane w a))

/-- The addresses of `n` consecutive elements. -/
def blockAddrs (w : Width) (a : Word) : Nat → List Word
  | 0 => []
  | n + 1 => a :: blockAddrs w (a + BitVec.ofNat 32 w.bytes) n

/-- The element at an address of RAM, in its lanes. -/
def laneAt {δ : Type} (b : Bus δ) (w : Width) (a : Word) : Word :=
  (loadRam b.rams a w.bytes).getD 0 <<< lane w a

theorem bytes_pos (w : Width) : 0 < w.bytes := by
  cases w with
  | byte => decide
  | half => decide
  | word => decide

theorem bytes_le (w : Width) : w.bytes ≤ 4 := by
  cases w with
  | byte => decide
  | half => decide
  | word => decide

theorem lane_byte (a : Word) : ((a &&& 3) * 8).toNat = lane .byte a := by
  have hlow := toNat_and_three a
  rw [BitVec.toNat_mul, hlow, lane]
  show a.toNat % 4 * 8 % 2 ^ 32 = 8 * (a.toNat % 4 / 1 * 1)
  omega

theorem lane_half (a : Word) : ((a &&& 2) * 8).toNat = lane .half a := by
  have hlow := toNat_and_two a
  rw [BitVec.toNat_mul, hlow, lane]
  show a.toNat % 4 / 2 * 2 * 8 % 2 ^ 32 = 8 * (a.toNat % 4 / 2 * 2)
  omega

/-- A word takes all lanes. -/
theorem lane_word (a : Word) : lane .word a = 0 := by
  rw [lane]
  show 8 * (a.toNat % 4 / 4 * 4) = 0
  omega

/-! ## The transfers of a block -/

/-- A write of a MEM-AP register. -/
def writeAp (a : Byte) (v : Word) : SwdReq := ⟨true, false, a, v⟩

/-- A read of the data register. -/
def drw : SwdReq := ⟨true, true, 0x0C, 0⟩

/-- A read of RDBUFF. -/
def rdbuff : SwdReq := ⟨false, true, 0x0C, 0⟩

/-- CSW, then TAR. -/
def addressBlock (csw tar : Word) : List SwdReq := [writeAp 0x00 csw, writeAp 0x04 tar]

/-- Read `n` elements. -/
def readBlock (csw tar : Word) (n : Nat) : List SwdReq :=
  addressBlock csw tar ++ (List.replicate n drw ++ [rdbuff])

/-- Write the elements that the data words have in their lanes. -/
def writeBlock (csw tar : Word) (data : List Word) : List SwdReq :=
  addressBlock csw tar ++ data.map (writeAp 0x0C)

end MemAp

open MemAp

namespace Bus

/-- Elements served from RAM, below the registers of the debug unit. -/
structure RamBlock {δ : Type} (b : Bus δ) (w : Width) (a : Word) (n : Nat) : Prop where
  served : ∀ x ∈ blockAddrs w a n, b.Served w.bytes x
  below : 0 < n → a.toNat + n * w.bytes ≤ SwDp.dfsr.toNat

section Narrow

variable {δ : Type} [Mmio δ] {b b' : Bus δ} {a v : Word}

theorem read16_of_holds (h : b.Holds 2 a v) : b.read16 a = some (v.setWidth 16, b) := by
  obtain ⟨r, hr, hv⟩ := ramFor_of_load h.load
  simp only [read16, h.isOpen.fold, h.isOpen.flash, h.isOpen.rot,
    show ramFor b.rams a 2 = some r from hr, hv, Option.map_some]

theorem write16_of_served (h : b.Served 2 a) (v : Half) :
    ∃ b', b.write16 a v = some b' ∧ Stored b b' 2 a (v.setWidth 32) := by
  obtain ⟨rams, hs⟩ := Option.isSome_iff_exists.mp (isSome_storeRam (v.setWidth 32) h.load)
  obtain ⟨r, hr⟩ := Option.isSome_iff_exists.mp (isSome_ramFor_of_load h.load)
  refine ⟨{ b with rams := rams }, ?_, stored_of_storeRam h hs⟩
  simp only [write16, h.isOpen.fold, show ramFor b.rams a 2 = some r from hr, hs, Option.map_some]

omit [Mmio δ] in
theorem Stored.congr {k : Nat} {v v' : Word} (h : Stored b b' k a v)
    (hv : ∀ i, i < k → byteOf v i = byteOf v' i) : Stored b b' k a v' where
  only := h.only
  holds := leWord_congr hv ▸ h.holds
  frame := h.frame
  served := h.served

end Narrow

/-- The block without its first element. -/
theorem RamBlock.tail {δ : Type} {b : Bus δ} {w : Width} {a : Word} {n : Nat}
    (h : b.RamBlock w a (n + 1)) :
    (a + BitVec.ofNat 32 w.bytes).toNat = a.toNat + w.bytes ∧
      b.RamBlock w (a + BitVec.ofNat 32 w.bytes) n := by
  have hbelow := h.below (Nat.succ_pos n)
  have htop : SwDp.dfsr.toNat < 2 ^ 32 := BitVec.isLt _
  have hpos := bytes_pos w
  have hmul : (n + 1) * w.bytes = n * w.bytes + w.bytes := Nat.succ_mul ..
  have hadd := toNat_add_ofNat (a := a) (i := w.bytes) (by omega)
  refine ⟨hadd, fun x hx => h.served x (List.mem_cons_of_mem _ hx), fun _ => ?_⟩
  omega

theorem RamBlock.confined {δ : Type} {b b' : Bus δ} {w : Width} {a : Word} {n : Nat}
    {S : Nat → Prop} (h : b.RamBlock w a n) (hc : Confined S b b') : b'.RamBlock w a n :=
  ⟨fun x hx => hc.served (h.served x hx), h.below⟩

end Bus

/-! ## Transfers one after the other -/

namespace DebugTarget

open SwDp

variable {δ : Type} [Mmio δ]

/-- The answers to a list of transfers. -/
def transfers : List SwdReq → DebugTarget δ → Option (List (Option Word) × DebugTarget δ)
  | [], t => some ([], t)
  | r :: rs, t => do
      let (out, t) ← t.transfer r.ap r.rnw r.a r.wdata
      let (outs, t) ← transfers rs t
      some (out :: outs, t)

theorem transfers_cons {t t' t'' : DebugTarget δ} {r : SwdReq} {rs : List SwdReq}
    {out : Option Word} {outs : List (Option Word)}
    (h : t.transfer r.ap r.rnw r.a r.wdata = some (out, t'))
    (hs : t'.transfers rs = some (outs, t'')) :
    t.transfers (r :: rs) = some (out :: outs, t'') := by
  rw [transfers, h]
  show (transfers rs t' >>= _) = _
  rw [hs]
  rfl

/-- The first bank of MEM-AP registers is selected. -/
def Banked (p : SwDp) : Prop := (p.select >>> 4) &&& 0xF = 0

/-- The port accesses elements of a size, and TAR moves on by itself. -/
structure Stepping (p : SwDp) (w : Width) : Prop where
  bank : Banked p
  size : p.csw &&& 0x7 = cswSize w
  inc : (p.csw >>> 4) &&& 0x3 = 1

/-- TAR after an access. -/
def stepped (p : SwDp) (w : Width) : SwDp := { p with tar := p.tar + BitVec.ofNat 32 w.bytes }

theorem Stepping.stepped {p : SwDp} {w : Width} (h : Stepping p w) (v : Word) :
    Stepping { stepped p w with posted := v } w := ⟨h.bank, h.size, h.inc⟩

theorem Stepping.accessSize {p : SwDp} {w : Width} (h : Stepping p w) :
    p.accessSize = BitVec.ofNat 32 w.bytes := by
  rw [SwDp.accessSize, h.size]
  cases w with
  | byte => rfl
  | half => rfl
  | word => rfl

theorem Stepping.autoInc {p : SwDp} {w : Width} (h : Stepping p w) :
    p.autoInc = DebugTarget.stepped p w := by
  rw [SwDp.autoInc, if_pos h.inc, h.accessSize, DebugTarget.stepped]

section Registers

variable {t : DebugTarget δ}

omit [Mmio δ] in
/-- The register that an address names in the first bank. -/
theorem apReg_of_banked (h : Banked t.port) (a : Byte) :
    (((t.port.select >>> 4) &&& 0xF) <<< 4) ||| ((a.setWidth 32 : Word) &&& 0x0C) =
      (a.setWidth 32 : Word) &&& 0x0C := by
  rw [show (t.port.select >>> 4) &&& 0xF = 0 from h, show (0 : Word) <<< 4 = 0#32 from rfl,
    BitVec.zero_or]

theorem transfer_csw (h : Banked t.port) (v : Word) :
    t.transfer true false 0x00 v = some (none, { t with port := { t.port with csw := v } }) := by
  rw [transfer, if_pos rfl, apTransfer, apReg_of_banked h]
  rfl

theorem transfer_tar (h : Banked t.port) (v : Word) :
    t.transfer true false 0x04 v = some (none, { t with port := { t.port with tar := v } }) := by
  rw [transfer, if_pos rfl, apTransfer, apReg_of_banked h]
  rfl

theorem transfer_rdbuff : t.transfer false true 0x0C 0 = some (some t.port.posted, t) := rfl

/-- A read of the data register answers with what was posted before, and posts what it reads. -/
theorem transfer_drwRead (h : Banked t.port) :
    t.transfer true true 0x0C 0 = t.drwRead.map fun r =>
      (some t.port.posted, { r.2 with port := { r.2.port with posted := r.1 } }) := by
  rw [transfer, if_pos rfl, apTransfer, apReg_of_banked h]
  show (t.drwRead >>= _) = _
  cases t.drwRead with
  | none => rfl
  | some r => rfl

theorem transfer_drwWrite (h : Banked t.port) (v : Word) :
    t.transfer true false 0x0C v = (t.drwWrite v).map fun t => (none, t) := by
  rw [transfer, if_pos rfl, apTransfer, apReg_of_banked h]
  show (t.drwWrite v >>= _) = _
  cases t.drwWrite v with
  | none => rfl
  | some t => rfl

/-- After CSW and TAR the port is set up for the block. -/
theorem transfers_address (h : Banked t.port) {csw tar : Word} {w : Width}
    (hsize : csw &&& 0x7 = cswSize w) (hinc : (csw >>> 4) &&& 0x3 = 1) (rs : List SwdReq) :
    t.transfers (addressBlock csw tar ++ rs) =
        (transfers rs { t with port := { t.port with csw := csw, tar := tar } }).map
          (fun r => (none :: none :: r.1, r.2)) ∧
      Stepping { t.port with csw := csw, tar := tar } w := by
  refine ⟨?_, h, hsize, hinc⟩
  rw [addressBlock, List.cons_append, List.cons_append, List.nil_append, transfers]
  simp only [writeAp, transfer_csw h, Option.bind_eq_bind, Option.bind_some, transfers]
  rw [transfer_tar (t := { t with port := { t.port with csw := csw } }) h, Option.bind_some]
  cases transfers rs { t with port := { t.port with csw := csw, tar := tar } } with
  | none => rfl
  | some r => rfl

end Registers

/-! ## One element -/

section Element

variable {t : DebugTarget δ} {w : Width}

/-- Below the debug unit a word access goes to the bus. -/
theorem memReadWord_below {a : Word} (h : a.toNat < dfsr.toNat) :
    t.memReadWord a = (t.bus.read32 a).map fun r => (r.1, { t with bus := r.2 }) := by
  have hne : ∀ x : Word, dfsr.toNat ≤ x.toNat → a ≠ x := by
    rintro x hx rfl
    omega
  rw [memReadWord, if_neg (hne _ (by decide)), if_neg (hne _ (by decide)),
    if_neg (hne _ (by decide)), if_neg (hne _ (by decide)), if_neg (hne _ (by decide))]

theorem memWriteWord_below {a : Word} (h : a.toNat < dfsr.toNat) (hair : a ≠ aircr) (v : Word) :
    t.memWriteWord a v = (t.bus.write32 a v).map fun bus => { t with bus := bus } := by
  have hne : ∀ x : Word, dfsr.toNat ≤ x.toNat → a ≠ x := by
    rintro x hx rfl
    omega
  rw [memWriteWord, if_neg (hne _ (by decide)), if_neg (hne _ (by decide)),
    if_neg (hne _ (by decide)), if_neg (hne _ (by decide)), if_neg (hne _ (by decide)),
    if_neg hair]

omit [Mmio δ] in
/-- What an access in RAM finds has no bits above its width. -/
theorem truncate_of_holds {k n : Nat} {a v : Word} (h : t.bus.Holds k a v) (hn : 8 * k ≤ n) :
    (v.setWidth n).setWidth 32 = v := by
  obtain ⟨r, -, hload⟩ := Bus.ramFor_of_load h.load
  rw [← (Bytes.load_eq_some_iff.mp hload).2]
  exact truncate_leWord _ hn

/-- A read of an element in RAM gives it in its lanes, and moves TAR on. -/
theorem drwRead_of_served (hp : Stepping t.port w) (hs : t.bus.Served w.bytes t.port.tar)
    (hbelow : t.port.tar.toNat < dfsr.toNat) :
    t.drwRead = some (laneAt t.bus w t.port.tar, { t with port := stepped t.port w }) := by
  obtain ⟨v, hv⟩ := hs.holds
  rw [laneAt, hv.load, Option.getD_some, drwRead, ← hp.autoInc]
  cases w with
  | byte =>
      have hsize : t.port.accessSize = 1 := hp.accessSize
      rw [if_pos hsize, Bus.read8_of_holds hv]
      show some (_, _) = _
      rw [truncate_of_holds hv (by decide), lane_byte]
  | half =>
      have hsize : t.port.accessSize = 2 := hp.accessSize
      rw [if_neg (by rw [hsize]; decide), if_pos hsize, Bus.read16_of_holds hv]
      show some (_, _) = _
      rw [truncate_of_holds hv (by decide), lane_half]
  | word =>
      have hsize : t.port.accessSize = 4 := hp.accessSize
      rw [if_neg (by rw [hsize]; decide), if_neg (by rw [hsize]; decide),
        memReadWord_below hbelow, Bus.read32_of_holds hv, lane_word, BitVec.shiftLeft_zero]
      rfl

/-- A write of an element in RAM stores what the data word has in its lanes, and moves TAR on. -/
theorem drwWrite_of_served (hp : Stepping t.port w) (hs : t.bus.Served w.bytes t.port.tar)
    (hbelow : t.port.tar.toNat < dfsr.toNat) (data : Word) :
    ∃ b, t.drwWrite data = some { t with port := stepped t.port w, bus := b } ∧
      Bus.Stored t.bus b w.bytes t.port.tar (data >>> lane w t.port.tar) := by
  rw [drwWrite, ← hp.autoInc]
  cases w with
  | byte =>
      have hsize : t.port.accessSize = 1 := hp.accessSize
      obtain ⟨b, hwrite, hstored⟩ := Bus.write8_of_served hs
        ((data >>> ((t.port.tar &&& 3) * 8).toNat).setWidth 8)
      refine ⟨b, ?_, hstored.congr fun i hi => ?_⟩
      · rw [if_pos hsize, hwrite]
        rfl
      · rw [lane_byte]
        have hi : i < 1 := hi
        exact byteOf_truncate _ (by decide) (by omega)
  | half =>
      have hsize : t.port.accessSize = 2 := hp.accessSize
      obtain ⟨b, hwrite, hstored⟩ := Bus.write16_of_served hs
        ((data >>> ((t.port.tar &&& 2) * 8).toNat).setWidth 16)
      refine ⟨b, ?_, hstored.congr fun i hi => ?_⟩
      · rw [if_neg (by rw [hsize]; decide), if_pos hsize, hwrite]
        rfl
      · rw [lane_half]
        have hi : i < 2 := hi
        exact byteOf_truncate _ (by decide) (by omega)
  | word =>
      have hsize : t.port.accessSize = 4 := hp.accessSize
      -- the reset register is no RAM
      have hair : t.port.tar ≠ aircr := by
        intro heq
        have hopen := hs.isOpen.aircr
        rw [heq] at hopen
        exact hopen (by decide)
      obtain ⟨b, hwrite, hstored⟩ := Bus.write32_of_served hs data
      refine ⟨b, ?_, ?_⟩
      · rw [if_neg (by rw [hsize]; decide), if_neg (by rw [hsize]; decide),
          memWriteWord_below hbelow hair, hwrite]
        rfl
      · rw [lane_word, BitVec.ushiftRight_zero]
        exact hstored

end Element

/-! ## Runs -/

section Runs

variable {t : DebugTarget δ} {w : Width} {n : Nat}

omit [Mmio δ] in
/-- The first element of a block lies below the debug unit. -/
theorem tar_below (h : t.bus.RamBlock w t.port.tar (n + 1)) :
    t.port.tar.toNat < dfsr.toNat := by
  have hbelow := h.below (Nat.succ_pos n)
  have hpos := bytes_pos w
  have hmul : (n + 1) * w.bytes = n * w.bytes + w.bytes := Nat.succ_mul ..
  omega

/-- `n` reads and RDBUFF answer with what was posted before, and then with the `n` elements. -/
theorem transfers_reads (hp : Stepping t.port w) (hblock : t.bus.RamBlock w t.port.tar n) :
    ∃ p, t.transfers (List.replicate n drw ++ [rdbuff]) =
        some ((t.port.posted :: (blockAddrs w t.port.tar n).map (laneAt t.bus w)).map some,
          { t with port := p }) := by
  induction n generalizing t with
  | zero => exact ⟨t.port, transfers_cons transfer_rdbuff rfl⟩
  | succ n ih =>
      have hread := drwRead_of_served hp (hblock.served _ List.mem_cons_self) (tar_below hblock)
      have hfirst := transfer_drwRead (t := t) hp.bank
      rw [hread] at hfirst
      obtain ⟨p, hrest⟩ := ih (t := { t with port := { stepped t.port w with
        posted := laneAt t.bus w t.port.tar } }) (hp.stepped _) hblock.tail.2
      refine ⟨p, ?_⟩
      rw [List.replicate_succ, List.cons_append]
      exact transfers_cons hfirst hrest

/-- The addresses that a block covers. -/
def Covered (w : Width) (a : Word) (n : Nat) (x : Nat) : Prop :=
  a.toNat ≤ x ∧ x < a.toNat + n * w.bytes

/-- Writes of the elements store them, and nothing beside them. -/
theorem transfers_writes {data : List Word} (hp : Stepping t.port w)
    (hblock : t.bus.RamBlock w t.port.tar data.length) :
    ∃ p b, t.transfers (data.map (writeAp 0x0C)) =
        some (List.replicate data.length none, { t with port := p, bus := b }) ∧
      p.select = t.port.select ∧ p.posted = t.port.posted ∧
      Bus.Confined (Covered w t.port.tar data.length) t.bus b ∧
      (blockAddrs w t.port.tar data.length).map (laneAt b w) =
        List.zipWith (fun a v => fromLane w a v <<< lane w a)
          (blockAddrs w t.port.tar data.length) data := by
  induction data generalizing t with
  | nil => exact ⟨t.port, t.bus, rfl, rfl, rfl, Bus.Confined.refl _ _, rfl⟩
  | cons v data ih =>
      obtain ⟨hnext, htail⟩ := hblock.tail
      obtain ⟨b, hwrite, hstored⟩ := drwWrite_of_served hp
        (hblock.served _ List.mem_cons_self) (tar_below hblock) v
      have hfirst := transfer_drwWrite (t := t) hp.bank v
      rw [hwrite] at hfirst
      have hconf : Bus.Confined (Covered w t.port.tar 1) t.bus b :=
        hstored.confined (bytes_pos w) fun x hlo hhi => ⟨hlo, by omega⟩
      obtain ⟨p, b', hrest, hsel, hposted, hconf', helems⟩ :=
        ih (t := { t with port := stepped t.port w, bus := b }) ⟨hp.bank, hp.size, hp.inc⟩
          (htail.confined hconf)
      have hmul : (data.length + 1) * w.bytes = data.length * w.bytes + w.bytes :=
        Nat.succ_mul ..
      refine ⟨p, b', ?_, hsel, hposted, ?_, ?_⟩
      · rw [List.map_cons, List.length_cons, List.replicate_succ]
        exact transfers_cons hfirst hrest
      · refine (hconf.mono fun x hx => ?_).trans (hconf'.mono fun x hx => ?_)
        · exact ⟨hx.1, by have := hx.2; rw [List.length_cons, hmul]; omega⟩
        · have hlo := hx.1
          have hhi := hx.2
          simp only [stepped, hnext] at hlo hhi
          exact ⟨by omega, by rw [List.length_cons, hmul]; omega⟩
      · -- the writes that follow leave the first element alone
        have hkept := hconf'.frame hstored.holds (bytes_pos w) fun x hlo hhi hx => by
          have hlo' := hx.1
          simp only [stepped, hnext] at hlo'
          omega
        rw [List.length_cons, blockAddrs, List.map_cons, List.zipWith_cons_cons]
        refine List.cons_eq_cons.mpr ⟨?_, helems⟩
        rw [laneAt, hkept.load, Option.getD_some, fromLane]

/-- CSW, TAR and the reads of a block in RAM. -/
theorem transfers_readBlock (h : Banked t.port) {csw a : Word} (hsize : csw &&& 0x7 = cswSize w)
    (hinc : (csw >>> 4) &&& 0x3 = 1) (hblock : t.bus.RamBlock w a n) :
    ∃ p, t.transfers (readBlock csw a n) =
      some (none :: none :: (t.port.posted :: (blockAddrs w a n).map (laneAt t.bus w)).map some,
        { t with port := p }) := by
  obtain ⟨haddr, hp⟩ := transfers_address h hsize hinc (List.replicate n drw ++ [rdbuff])
  obtain ⟨p, hreads⟩ := transfers_reads
    (t := { t with port := { t.port with csw := csw, tar := a } }) hp hblock
  refine ⟨p, ?_⟩
  rw [readBlock, haddr, hreads]
  rfl

/-- CSW, TAR and the writes of a block in RAM. -/
theorem transfers_writeBlock (h : Banked t.port) {csw a : Word} (hsize : csw &&& 0x7 = cswSize w)
    (hinc : (csw >>> 4) &&& 0x3 = 1) {data : List Word}
    (hblock : t.bus.RamBlock w a data.length) :
    ∃ p b, t.transfers (writeBlock csw a data) =
        some (List.replicate (data.length + 2) none, { t with port := p, bus := b }) ∧
      Banked p ∧ p.posted = t.port.posted ∧
      Bus.Confined (Covered w a data.length) t.bus b ∧
      (blockAddrs w a data.length).map (laneAt b w) =
        List.zipWith (fun a v => fromLane w a v <<< lane w a)
          (blockAddrs w a data.length) data := by
  obtain ⟨haddr, hp⟩ := transfers_address h hsize hinc (data.map (writeAp 0x0C))
  obtain ⟨p, b, hwrites, hsel, hposted, hconf, helems⟩ := transfers_writes
    (t := { t with port := { t.port with csw := csw, tar := a } }) hp hblock
  refine ⟨p, b, ?_, ?_, hposted, hconf, helems⟩
  · rw [writeBlock, haddr, hwrites]
    rfl
  · rw [Banked, hsel]
    exact h

end Runs

end DebugTarget

/-! ## Blocks on a board -/

namespace Board

variable {ρ : Type} {b : Bus (SpDevices ρ)} {a : Word}

/-- The flash lies between the two parts of the memory map that hold RAM. -/
theorem ownWindow_eq_false (h : a.toNat < flashWinLo.toNat ∨
    (flashWinHi.toNat ≤ a.toNat ∧ a.toNat < ethBase.toNat)) : ownWindow a = false := by
  have halign := toNat_alignWord a
  have hlo : flashWinLo.toNat < ethBase.toNat := by decide
  have hword : ∀ x : Word, ethBase.toNat ≤ x.toNat → alignWord a ≠ x := by
    rintro x hx rfl
    omega
  have hwin : ∀ lo hi : Word, ethBase.toNat ≤ lo.toNat → within lo hi a = false :=
    fun lo hi hx => within_eq_false_iff.mpr (Or.inl (BitVec.lt_def.mpr (by omega)))
  have hflash : within flashWinLo flashWinHi a = false :=
    within_eq_false_iff.mpr (h.imp BitVec.lt_def.mpr fun h => BitVec.le_def.mpr h.1)
  simp only [ownWindow, hflash, hwin flashRegLo _ (by decide), hwin nvicLo _ (by decide),
    hwin ethBase _ (by decide), beq_eq_false_iff_ne.mpr (hword scbIcsr (by decide)),
    beq_eq_false_iff_ne.mpr (hword scbAircr (by decide)), Bool.or_self]

/-- An access that a region has all bytes of is served from RAM, below the peripherals. -/
theorem served_of_load (h : Board b) {k : Nat} (hpos : 0 < k) (hk : k ≤ 4)
    (hload : (loadRam b.rams a k).isSome) : b.Served k a ∧ a.toNat + k ≤ ethBase.toNat := by
  obtain ⟨v, hv⟩ := Option.isSome_iff_exists.mp hload
  obtain ⟨⟨r, o⟩, hr, hbytes⟩ := Bus.ramFor_of_load hv
  obtain ⟨hmem, hcov, ho⟩ := ramFor_eq_some hr
  have hbase := covers_base_le hcov
  have hoff := toNat_offset hbase
  have hend : o + k ≤ r.size.toNat := (Bytes.load_eq_some_iff.mp hbytes).1
  have hwin : (r.base, r.size) ∈ Soc.ramWindows := by
    rw [← h.rams]
    exact List.mem_map_of_mem (f := Ram.window) hmem
  -- ITCM lies below the flash, and every other region between it and the peripherals
  have hmap : Soc.ramWindows.all (fun x => decide (x.1.toNat + x.2.toNat ≤ flashWinLo.toNat ∨
      (flashWinHi.toNat ≤ x.1.toNat ∧ x.1.toNat + x.2.toNat ≤ ethBase.toNat))) = true := by
    decide
  have hwhere := of_decide_eq_true (List.all_eq_true.mp hmap _ hwin)
  simp only at hwhere
  have hlo : flashWinLo.toNat < ethBase.toNat := by decide
  exact ⟨⟨h.isOpen (ownWindow_eq_false (by omega)), hload⟩, by omega⟩

/-- Elements that are in RAM make a block. -/
theorem ramBlock (h : Board b) {w : Width} {n : Nat}
    (hram : ∀ x ∈ blockAddrs w a n, (loadRam b.rams x w.bytes).isSome) : b.RamBlock w a n := by
  have hserved := fun x hx => h.served_of_load (bytes_pos w) (bytes_le w) (hram x hx)
  have hend : ethBase.toNat ≤ SwDp.dfsr.toNat := by decide
  refine ⟨fun x hx => (hserved x hx).1, fun hn => ?_⟩
  -- each element ends below the peripherals, and so the addresses do not wrap
  suffices hlast : a.toNat + n * w.bytes ≤ ethBase.toNat from Nat.le_trans hlast hend
  clear hram
  induction n generalizing a with
  | zero => cases hn
  | succ n ih =>
      have hfirst := (hserved a List.mem_cons_self).2
      have htop : ethBase.toNat < 2 ^ 32 := BitVec.isLt _
      have hadd := Bus.toNat_add_ofNat (a := a) (i := w.bytes) (by omega)
      rw [Nat.succ_mul]
      cases n with
      | zero => omega
      | succ n =>
          have hrest := ih (fun x hx => hserved x (List.mem_cons_of_mem _ hx)) (Nat.succ_pos n)
          omega

end Board

open DebugTarget in
/-- On a board, CSW and TAR and `n` reads of the data register and RDBUFF answer with what was
posted before, and then with the `n` elements in RAM, each in the lanes of its address. Writes of
`n` elements store them, so that such a read sequence answers with them; no other byte of RAM and
nothing else on the bus changes. -/
theorem pipelined_block_access {ρ : Type} [Mmio ρ] {t : DebugTarget (SpDevices ρ)} {w : Width}
    {csw a : Word} {n : Nat} (hboard : Board t.bus) (hbank : Banked t.port)
    (hsize : csw &&& 0x7 = cswSize w) (hinc : (csw >>> 4) &&& 0x3 = 1)
    (hram : ∀ x ∈ blockAddrs w a n, (loadRam t.bus.rams x w.bytes).isSome) :
    (∃ t', t.transfers (readBlock csw a n) =
        some (none :: none :: (t.port.posted :: (blockAddrs w a n).map (laneAt t.bus w)).map some,
          t') ∧ t'.bus = t.bus ∧ t'.core = t.core) ∧
    ∀ data : List Word, data.length = n → ∃ t₁ t₂,
      t.transfers (writeBlock csw a data) = some (List.replicate (n + 2) none, t₁) ∧
      t₁.transfers (readBlock csw a n) =
        some (none :: none :: (t.port.posted ::
          List.zipWith (fun x v => fromLane w x v <<< lane w x) (blockAddrs w a n) data).map some,
          t₂) ∧
      t₂.bus = t₁.bus ∧ t₁.core = t.core ∧ t₁.bus = { t.bus with rams := t₁.bus.rams } ∧
      ∀ x v, ¬ Covered w a n x.toNat →
        loadRam t.bus.rams x 1 = some v → loadRam t₁.bus.rams x 1 = some v := by
  have hblock := hboard.ramBlock hram
  constructor
  · obtain ⟨p, hreads⟩ := transfers_readBlock hbank hsize hinc hblock
    exact ⟨{ t with port := p }, hreads, rfl, rfl⟩
  · rintro data rfl
    obtain ⟨p, b, hwrites, hbank', hposted, hconf, helems⟩ :=
      transfers_writeBlock hbank hsize hinc hblock
    -- the block is there still, with the elements in it
    obtain ⟨p', hreads⟩ := transfers_readBlock (t := { t with port := p, bus := b }) hbank' hsize
      hinc (hblock.confined hconf)
    rw [← helems, ← hposted]
    refine ⟨{ t with port := p, bus := b }, { t with port := p', bus := b }, hwrites, hreads, rfl,
      rfl, hconf.only, fun x v hx hload => ?_⟩
    have hserved := (hboard.served_of_load (k := 1) (by decide) (by decide)
      (by rw [hload]; rfl)).1
    refine (hconf.frame ⟨hserved.isOpen, hload⟩ Nat.one_pos fun y hlo hhi hy => hx ?_).load
    have heq : y = x.toNat := by omega
    exact heq ▸ hy

/-- A debugger at a board with blank flash. -/
def boardTarget : DebugTarget (SpDevices Unit) :=
  ⟨SwDp.new, Core.new,
    (Soc.installPeripherals (Soc.installMemory (Bus.new ⟨Scs.new, ()⟩)) []).installFlash
      Flash.blank⟩

/-- Three halfwords from the upper half of a word on. -/
theorem pipelined_block_access_halves :
    ∃ t₁ t₂, boardTarget.transfers
        (writeBlock 0x11 0x20000002 [0x11110000, 0x00002222, 0x33330000]) =
          some (List.replicate 5 none, t₁) ∧
      t₁.transfers (readBlock 0x11 0x20000002 3) =
        some ([none, none, some 0, some 0x11110000, some 0x00002222, some 0x33330000], t₂) := by
  have hboard : Board boardTarget.bus := Board.of_install _ Flash.blank fun d hd => by cases hd
  have hram : ((blockAddrs .half 0x20000002 3).all
      fun x => (loadRam boardTarget.bus.rams x 2).isSome) = true := by decide +kernel
  have hsize : (0x11 : Word) &&& 0x7 = cswSize .half := rfl
  obtain ⟨-, hwrites⟩ := pipelined_block_access (n := 3) hboard rfl hsize rfl
    fun x hx => List.all_eq_true.mp hram x hx
  obtain ⟨t₁, t₂, hwrite, hread, -⟩ := hwrites [0x11110000, 0x00002222, 0x33330000] rfl
  refine ⟨t₁, t₂, hwrite, hread.trans ?_⟩
  have hout : List.zipWith (fun x v => fromLane .half x v <<< lane .half x)
      (blockAddrs .half 0x20000002 3) [0x11110000, 0x00002222, 0x33330000] =
        [0x11110000, 0x00002222, 0x33330000] := by decide +kernel
  rw [hout]
  rfl

end SpEmu
