import SpEmu.Mem.Service

/-!
# What interrupt collection pends

`collectIrqs` asks every device in turn, and asking a device takes its request back. The answers
go into a buffer of eight; an answer that comes when the buffer is full is dropped after its
device gave it up. `collectIrqs_keeps_iff` says when every answer ends up pending.

## What this module delivers

- `Pends b irqs b'`: the NVIC state of `b'` is that of `b` with the IRQs of a set pended.
- `pends_collectIrqs`: the set that a collection pends, the four sources together.
- `collectIrqs_keeps_iff`: no answer and no pending IRQ is lost exactly when every answer past the
  eighth is pended for another reason.
-/

set_option autoImplicit false

namespace SpEmu

open ByteMem

namespace Bus

variable {δ : Type}

/-- The pending bit of an IRQ. -/
def isPending (b : Bus δ) (irq : Half) : Bool :=
  (b.nvicPend.index (irq.toNat / 32)).any fun w => w.getLsbD (irq.toNat % 32)

variable {b b' b'' : Bus δ}

theorem isPending_eq {irq : Half} (h : irq.toNat / 32 < 8) :
    b.isPending irq = (b.nvicPend ⟨irq.toNat / 32, h⟩).getLsbD (irq.toNat % 32) := by
  rw [isPending, Table.index_of_lt _ h]
  rfl

/-- The NVIC has eight words of pending bits. -/
theorem not_isPending {irq : Half} (h : ¬ irq.toNat / 32 < 8) : b.isPending irq = false := by
  rw [isPending, Table.index, dif_neg h]
  rfl

/-! ## Pending one IRQ -/

/-- Exactly the IRQs of a set become pending. -/
def Pends (b : Bus δ) (irqs : Half → Prop) (b' : Bus δ) : Prop :=
  ∀ irq, b'.isPending irq = true ↔ b.isPending irq = true ∨ irqs irq

theorem Pends.trans {irqs irqs' : Half → Prop} (h : Pends b irqs b') (h' : Pends b' irqs' b'') :
    Pends b (fun irq => irqs irq ∨ irqs' irq) b'' := by
  intro irq
  rw [h' irq, h irq, or_assoc]

/-- What else changed before does not matter. -/
theorem Pends.of_eq {c : Bus δ} (hc : c.nvicPend = b.nvicPend) {irqs : Half → Prop}
    (h : Pends c irqs b') : Pends b irqs b' := by
  intro irq
  rw [h irq, isPending, hc]
  rfl

/-- A step that leaves the pending bits alone pends nothing. -/
theorem pends_none (h : b'.nvicPend = b.nvicPend) {irqs : Half → Prop}
    (hnone : ∀ irq, ¬ irqs irq) : Pends b irqs b' := by
  intro irq
  rw [isPending, h, or_iff_left (hnone irq)]
  rfl

theorem pendIrq_eq {irq : Half} (hirq : irq.toNat / 32 < 8) :
    b.pendIrq irq = some { b with
      nvicPend := Function.update b.nvicPend ⟨irq.toNat / 32, hirq⟩
        (b.nvicPend ⟨irq.toNat / 32, hirq⟩ ||| (1 : Word) <<< (irq.toNat % 32)) } := by
  rw [pendIrq, Table.modify_of_lt _ hirq]
  rfl

theorem pendIrq_eq_none {irq : Half} (hirq : ¬ irq.toNat / 32 < 8) : b.pendIrq irq = none := by
  rw [pendIrq, Table.modify, dif_neg hirq]
  rfl

/-- A one shifted into place is the one bit of its number. -/
theorem getLsbD_one_shiftLeft {m k : Nat} (hm : m < 32) :
    ((1 : Word) <<< k).getLsbD m = true ↔ m = k := by
  rw [show (1 : Word) = 1#32 from rfl, BitVec.getLsbD_shiftLeft, BitVec.getLsbD_one]
  simp only [hm, decide_true, Bool.true_and, Bool.and_eq_true, Bool.not_eq_true',
    decide_eq_false_iff_not, decide_eq_true_eq]
  omega

/-- Pending an IRQ sets its bit and no other. -/
theorem pends_pendIrq {irq : Half} (h : b.pendIrq irq = some b') : Pends b (· = irq) b' := by
  by_cases hirq : irq.toNat / 32 < 8
  · rw [pendIrq_eq hirq] at h
    have hpend : b'.nvicPend = Function.update b.nvicPend ⟨irq.toNat / 32, hirq⟩
        (b.nvicPend ⟨irq.toNat / 32, hirq⟩ ||| (1 : Word) <<< (irq.toNat % 32)) :=
      congrArg nvicPend (Option.some.inj h).symm
    intro j
    by_cases hj : j.toNat / 32 < 8
    · rw [isPending_eq hj, isPending_eq hj, hpend]
      by_cases hword : j.toNat / 32 = irq.toNat / 32
      · -- the same word of pending bits: the bit numbers tell the two IRQs apart
        have hfin : (⟨j.toNat / 32, hj⟩ : Fin 8) = ⟨irq.toNat / 32, hirq⟩ := Fin.ext hword
        have hsame : j.toNat % 32 = irq.toNat % 32 ↔ j = irq := by
          rw [← BitVec.toNat_inj]
          omega
        rw [hfin, Function.update_self, BitVec.getLsbD_or, Bool.or_eq_true,
          getLsbD_one_shiftLeft (Nat.mod_lt _ (by decide)), hsame]
      · have hfin : (⟨j.toNat / 32, hj⟩ : Fin 8) ≠ ⟨irq.toNat / 32, hirq⟩ :=
          fun heq => hword (congrArg Fin.val heq)
        have hne : ¬ j = irq := fun heq => hword (by rw [heq])
        rw [Function.update_of_ne hfin, or_iff_left hne]
    · have hne : ¬ j = irq := fun heq => hj (heq ▸ hirq)
      rw [not_isPending hj, not_isPending hj, or_iff_left hne]
  · rw [pendIrq_eq_none hirq] at h
    exact absurd h (by simp)

theorem exists_pendIrq_iff {irq : Half} : (∃ b', b.pendIrq irq = some b') ↔ irq.toNat < 256 := by
  by_cases h : irq.toNat / 32 < 8
  · rw [pendIrq_eq h]
    exact ⟨fun _ => by omega, fun _ => ⟨_, rfl⟩⟩
  · rw [pendIrq_eq_none h]
    exact ⟨fun ⟨_, hb⟩ => absurd hb (by simp), fun hlt => absurd hlt (by omega)⟩

theorem pendIrq_spec (b : Bus δ) (irq : Half) (hirq : irq.toNat / 32 < 8) :
    ∃ b', b.pendIrq irq = some b' ∧ b'.isPending irq = true := by
  have hlt : irq.toNat < 256 := by omega
  obtain ⟨b', hb'⟩ := (exists_pendIrq_iff (b := b)).mpr hlt
  exact ⟨b', hb', (pends_pendIrq hb' irq).mpr (Or.inr rfl)⟩

/-! ## Pending the answers of the devices -/

theorem pends_pendAll {irqs : List Half} (h : pendAll irqs b = some b') :
    Pends b (· ∈ irqs) b' := by
  induction irqs generalizing b with
  | nil =>
      rw [pendAll, List.foldlM_nil] at h
      rw [← Option.some.inj h]
      exact pends_none rfl fun irq => List.not_mem_nil
  | cons irq rest ih =>
      rw [pendAll, List.foldlM_cons] at h
      obtain ⟨c, hc, hrest⟩ := Option.bind_eq_some_iff.mp h
      have hboth := (pends_pendIrq hc).trans (ih hrest)
      intro j
      simp only [hboth j, List.mem_cons]

/-- An IRQ past the words of the NVIC is an index out of range. -/
theorem exists_pendAll_iff {irqs : List Half} :
    (∃ b', pendAll irqs b = some b') ↔ ∀ irq ∈ irqs, irq.toNat < 256 := by
  induction irqs generalizing b with
  | nil => exact ⟨fun _ irq h => absurd h List.not_mem_nil, fun _ => ⟨b, rfl⟩⟩
  | cons irq rest ih =>
      rw [List.forall_mem_cons]
      constructor
      · rintro ⟨b', h⟩
        rw [pendAll, List.foldlM_cons] at h
        obtain ⟨c, hc, hrest⟩ := Option.bind_eq_some_iff.mp h
        exact ⟨exists_pendIrq_iff.mp ⟨c, hc⟩, ih.mp ⟨b', hrest⟩⟩
      · rintro ⟨hirq, hrest⟩
        obtain ⟨c, hc⟩ := (exists_pendIrq_iff (b := b)).mpr hirq
        obtain ⟨b', hb'⟩ := (ih (b := c)).mpr hrest
        exact ⟨b', by rw [pendAll, List.foldlM_cons, hc]; exact hb'⟩

/-! ## The four sources of a collection -/

section Collect

variable [Mmio δ]

/-- The IRQs that the devices return when a collection polls them; none is polled unless one was
accessed since the last collection. -/
def returnedIrqs (b : Bus δ) : List Half :=
  if b.devTouched then (pollIrqs b.devs.length 0 b.mmio).1 else []

/-- The devices once a collection has polled them. -/
def polled (b : Bus δ) : δ :=
  if b.devTouched then (pollIrqs b.devs.length 0 b.mmio).2 else b.mmio

/-- The IRQs that a collection pends for the Ethernet DMA, an ended erase and a waiting host
byte. -/
def OwnIrq (b : Bus δ) (irq : Half) : Prop :=
  (b.eth.irq = true ∧ irq = Mem.ethIrq) ∨
    ((∃ f ∈ b.flash, f.takeEraseIrq.1 = true) ∧ irq = Mem.flashIrq) ∨
    (Mmio.uartRxWaiting b.polled = true ∧ irq = Mem.uart7Irq)

/-- What pending an IRQ leaves alone. -/
structure SameSources (b b' : Bus δ) : Prop where
  mmio : b'.mmio = b.mmio
  eth : b'.eth = b.eth
  flash : b'.flash = b.flash

omit [Mmio δ] in
theorem pendIrq_same {irq : Half} (h : b.pendIrq irq = some b') : SameSources b b' := by
  obtain ⟨t, -, heq⟩ := Option.bind_eq_some_iff.mp h
  rw [← Option.some.inj heq]
  exact ⟨rfl, rfl, rfl⟩

omit [Mmio δ] in
theorem pendAll_same {irqs : List Half} (h : pendAll irqs b = some b') : SameSources b b' := by
  induction irqs generalizing b with
  | nil =>
      rw [pendAll, List.foldlM_nil] at h
      rw [← Option.some.inj h]
      exact ⟨rfl, rfl, rfl⟩
  | cons irq rest ih =>
      rw [pendAll, List.foldlM_cons] at h
      obtain ⟨c, hc, hrest⟩ := Option.bind_eq_some_iff.mp h
      have hfst := pendIrq_same hc
      have hsnd := ih hrest
      exact ⟨hsnd.mmio.trans hfst.mmio, hsnd.eth.trans hfst.eth, hsnd.flash.trans hfst.flash⟩

/-- The first eight answers of the devices become pending, and no other. -/
theorem pends_collectDevices (h : b.collectDevices = some b') :
    Pends b (· ∈ b.returnedIrqs.take 8) b' ∧ b'.mmio = b.polled ∧ b'.eth = b.eth ∧
      b'.flash = b.flash := by
  rw [collectDevices] at h
  by_cases htouched : b.devTouched = true
  · rw [if_pos htouched] at h
    rw [returnedIrqs, polled, if_pos htouched, if_pos htouched]
    have hsame := pendAll_same h
    exact ⟨(pends_pendAll h).of_eq rfl, hsame.mmio, hsame.eth, hsame.flash⟩
  · rw [if_neg htouched] at h
    rw [returnedIrqs, polled, if_neg htouched, if_neg htouched, ← Option.some.inj h]
    exact ⟨pends_none rfl fun irq => List.not_mem_nil, rfl, rfl, rfl⟩

theorem exists_collectDevices_iff :
    (∃ b', b.collectDevices = some b') ↔ ∀ irq ∈ b.returnedIrqs.take 8, irq.toNat < 256 := by
  rw [collectDevices, returnedIrqs]
  by_cases htouched : b.devTouched = true
  · rw [if_pos htouched, if_pos htouched]
    exact exists_pendAll_iff
  · rw [if_neg htouched, if_neg htouched]
    exact ⟨fun _ irq hirq => absurd hirq List.not_mem_nil, fun _ => ⟨b, rfl⟩⟩

omit [Mmio δ] in
/-- One of the fixed sources: a flag that is taken down, and the IRQ that it pends. -/
theorem collects_flag {flag : Bool} {irq : Half} {c : Bus δ} (hc : c.nvicPend = b.nvicPend)
    (hirq : irq.toNat < 256) :
    ∃ b', (if flag = true then c.pendIrq irq else some c) = some b' ∧
      Pends b (fun j => flag = true ∧ j = irq) b' ∧ SameSources c b' := by
  cases flag with
  | true =>
      obtain ⟨b', hb'⟩ := exists_pendIrq_iff.mpr hirq
      refine ⟨b', hb', fun j => ?_, pendIrq_same hb'⟩
      rw [(pends_pendIrq hb').of_eq hc j]
      exact or_congr_right (and_iff_right rfl).symm
  | false =>
      refine ⟨c, if_neg Bool.false_ne_true, ?_, ⟨rfl, rfl, rfl⟩⟩
      exact pends_none hc fun j hj => Bool.false_ne_true hj.1

omit [Mmio δ] in
theorem collects_eth :
    ∃ b', b.collectEth = some b' ∧ Pends b (fun irq => b.eth.irq = true ∧ irq = Mem.ethIrq) b' ∧
      b'.mmio = b.mmio ∧ b'.flash = b.flash := by
  rw [collectEth]
  cases hirq : b.eth.irq with
  | true =>
      obtain ⟨b', hb', hpends, hsame⟩ :=
        collects_flag (b := b) (c := { b with eth := { b.eth with irq := false } }) rfl
          (show Mem.ethIrq.toNat < 256 by decide)
      exact ⟨b', hb', hpends, hsame.mmio, hsame.flash⟩
  | false =>
      refine ⟨b, rfl, ?_, rfl, rfl⟩
      exact pends_none rfl fun j hj => Bool.false_ne_true hj.1

omit [Mmio δ] in
theorem collects_flash :
    ∃ b', b.collectFlash = some b' ∧
      Pends b (fun irq => (∃ f ∈ b.flash, f.takeEraseIrq.1 = true) ∧ irq = Mem.flashIrq) b' ∧
      b'.mmio = b.mmio := by
  rw [collectFlash]
  cases hflash : b.flash with
  | none =>
      refine ⟨b, rfl, ?_, rfl⟩
      exact pends_none rfl fun j ⟨⟨f, hf, _⟩, _⟩ => absurd hf (by simp)
  | some f =>
      obtain ⟨b', hb', hpends, hsame⟩ :=
        collects_flag (b := b) (c := { b with flash := some f.takeEraseIrq.2 }) rfl
          (show Mem.flashIrq.toNat < 256 by decide)
      refine ⟨b', hb', fun j => ?_, hsame.mmio⟩
      rw [hpends j]
      simp only [Option.mem_some_iff, exists_eq_left', Flash.takeEraseIrq]

theorem collects_uart :
    ∃ b', b.collectUart = some b' ∧
      Pends b (fun irq => Mmio.uartRxWaiting b.mmio = true ∧ irq = Mem.uart7Irq) b' := by
  rw [collectUart]
  obtain ⟨b', hb', hpends, -⟩ :=
    collects_flag (b := b) (c := b) rfl (show Mem.uart7Irq.toNat < 256 by decide)
  exact ⟨b', hb', hpends⟩

/-- The stages after the poll of the devices always succeed, and pend the IRQs of their own
sources. -/
theorem collectIrqs_of_collectDevices {c : Bus δ} (h : b.collectDevices = some c) :
    ∃ b', b.collectIrqs = some b' ∧
      Pends b (fun irq => irq ∈ b.returnedIrqs.take 8 ∨ b.OwnIrq irq) b' := by
  obtain ⟨hdevs, hmmio, heth, hflash⟩ := pends_collectDevices h
  obtain ⟨b₁, h₁, heths, hmmio₁, hflash₁⟩ := collects_eth (b := c)
  obtain ⟨b₂, h₂, hflashs, hmmio₂⟩ := collects_flash (b := b₁)
  obtain ⟨b₃, h₃, huarts⟩ := collects_uart (b := b₂)
  refine ⟨b₃, ?_, ?_⟩
  · simp only [collectIrqs, h, h₁, h₂, h₃, Option.bind_eq_bind, Option.bind_some]
  · have hall := hdevs.trans (heths.trans (hflashs.trans huarts))
    rw [heth, hmmio₂, hmmio₁, hmmio, hflash₁, hflash] at hall
    exact hall

/-! ## When no interrupt is lost -/

/-- A collection succeeds, and every IRQ that a device returned in it or that was pending before
is pending after it. -/
def CollectKeeps (b : Bus δ) : Prop :=
  ∃ b', b.collectIrqs = some b' ∧
    ∀ irq, irq ∈ b.returnedIrqs ∨ b.isPending irq = true → b'.isPending irq = true

/-- The devices return numbers that the NVIC has, and what they return past the eighth answer is
pended anyway. -/
structure CollectFits (b : Bus δ) : Prop where
  numbers : ∀ irq ∈ b.returnedIrqs.take 8, irq.toNat < 256
  rest : ∀ irq ∈ b.returnedIrqs.drop 8,
    irq ∈ b.returnedIrqs.take 8 ∨ b.isPending irq = true ∨ b.OwnIrq irq

/-- No interrupt is lost exactly when the answers fit the buffer, up to answers that are pended
for another reason. -/
theorem collectKeeps_iff : b.CollectKeeps ↔ b.CollectFits := by
  constructor
  · rintro ⟨b', h, hkeeps⟩
    obtain ⟨c, hc, -⟩ := Option.bind_eq_some_iff.mp h
    obtain ⟨b'', h'', hpends⟩ := collectIrqs_of_collectDevices hc
    have heq : b'' = b' := Option.some.inj (h''.symm.trans h)
    subst heq
    refine ⟨exists_collectDevices_iff.mp ⟨c, hc⟩, fun irq hirq => ?_⟩
    have hmem : irq ∈ b.returnedIrqs := List.mem_of_mem_drop hirq
    rcases (hpends irq).mp (hkeeps irq (Or.inl hmem)) with hbefore | htaken | hown
    · exact Or.inr (Or.inl hbefore)
    · exact Or.inl htaken
    · exact Or.inr (Or.inr hown)
  · intro hfits
    obtain ⟨c, hc⟩ := exists_collectDevices_iff.mpr hfits.numbers
    obtain ⟨b', hb', hpends⟩ := collectIrqs_of_collectDevices hc
    refine ⟨b', hb', fun irq hirq => (hpends irq).mpr ?_⟩
    rcases hirq with hreturned | hbefore
    · rw [← List.take_append_drop 8 b.returnedIrqs, List.mem_append] at hreturned
      rcases hreturned with htaken | hdropped
      · exact Or.inr (Or.inl htaken)
      · rcases hfits.rest irq hdropped with htaken | hbefore | hown
        · exact Or.inr (Or.inl htaken)
        · exact Or.inl hbefore
        · exact Or.inr (Or.inr hown)
    · exact Or.inl hbefore

/-- Up to eight answers always fit. -/
theorem collectFits_of_length (hlen : b.returnedIrqs.length ≤ 8)
    (hnum : ∀ irq ∈ b.returnedIrqs, irq.toNat < 256) : b.CollectFits where
  numbers irq hirq := hnum irq (List.mem_of_mem_take hirq)
  rest irq hirq := by
    rw [List.drop_eq_nil_of_le hlen] at hirq
    exact absurd hirq List.not_mem_nil

end Collect

/-! ## Nine devices at once -/

/-- Devices that hold a request until it is taken, like the hash engine. -/
structure RequestLatches where
  held : List (Option Half)

/-- Asking a device takes its request back. -/
instance : Mmio RequestLatches where
  read _ _ m := (0, m)
  write _ _ _ m := m
  takeIrq i m := (m.held[i]?.join, ⟨m.held.set i none⟩)
  uartRxWaiting _ := false

/-- A bus of nine devices, one of which was just accessed; each holds the request for an IRQ of
its own. -/
def nineRequests : Bus RequestLatches :=
  { new (⟨(List.range 9).map fun i => some (BitVec.ofNat 16 (31 + i))⟩ : RequestLatches) with
    devs := (List.range 9).map fun i => ⟨BitVec.ofNat 32 (0x40000000 + 0x400 * i), 0x400⟩
    devTouched := true }

/-- The ninth request is taken from its device and IRQ 39 is not pending. -/
theorem nineRequests_lost : ¬ nineRequests.CollectKeeps := by
  rintro ⟨b', h, hkeeps⟩
  have hreturned : (39 : Half) ∈ nineRequests.returnedIrqs := by decide
  have hlost : (nineRequests.collectIrqs.map fun b => b.isPending 39) = some false := by
    decide +kernel
  rw [h, Option.map_some] at hlost
  rw [hkeeps 39 (Or.inl hreturned)] at hlost
  exact absurd hlost (by decide)

end Bus

end SpEmu
