import SpEmu.Cpu.Exceptions
import SpEmu.Mem.RamView

/-!
# Interrupt delivery

`nextIrq` is the lowest-numbered enabled and pending IRQ, and it is the one candidate that the
core looks at: if BASEPRI holds it back, no other IRQ is considered and PendSV is next.
`interrupt_delivery` says what `maybeInterrupt` and `maybeTick` do in every state, in terms of
the masks and of that candidate. Priorities do not choose between IRQs.
-/

set_option autoImplicit false

namespace SpEmu

open ByteMem

/-! ## The scan for the next IRQ -/

namespace Bus

variable {δ : Type} {b : Bus δ}

/-- An IRQ is enabled and pending. -/
def Active (b : Bus δ) (irq : Nat) : Prop :=
  ∃ h : irq / 32 < 8,
    (b.nvicEn ⟨irq / 32, h⟩ &&& b.nvicPend ⟨irq / 32, h⟩).getLsbD (irq % 32) = true

/-- The lowest-numbered enabled and pending IRQ. -/
def Lowest (b : Bus δ) (irq : Half) : Prop :=
  b.Active irq.toNat ∧ ∀ m, m < irq.toNat → ¬ b.Active m

theorem active_word {i k : Nat} (hi : i < 8) (hk : k < 32) :
    b.Active (i * 32 + k) ↔ (b.nvicEn ⟨i, hi⟩ &&& b.nvicPend ⟨i, hi⟩).getLsbD k = true := by
  have hdiv : (i * 32 + k) / 32 = i := by omega
  have hmod : (i * 32 + k) % 32 = k := by omega
  simp only [Active, hdiv, hmod]
  exact ⟨fun ⟨_, h⟩ => h, fun h => ⟨hi, h⟩⟩

theorem Lowest.unique {irq irq' : Half} (h : b.Lowest irq) (h' : b.Lowest irq') : irq = irq' := by
  apply BitVec.eq_of_toNat_eq
  rcases Nat.lt_trichotomy irq.toNat irq'.toNat with hlt | heq | hgt
  · exact absurd h.1 (h'.2 _ hlt)
  · exact heq
  · exact absurd h'.1 (h.2 _ hgt)

/-- In an ascending list the elements below one of its members are those before it. -/
theorem mem_left_of_lt {n : Nat} {l₁ l₂ : List (Fin n)} {a x : Fin n}
    (h : List.finRange n = l₁ ++ a :: l₂) (hx : x < a) : x ∈ l₁ := by
  have hsorted : (l₁ ++ a :: l₂).Pairwise (· < ·) := h ▸ List.pairwise_lt_finRange n
  have hmem : x ∈ l₁ ++ a :: l₂ := h ▸ List.mem_finRange x
  obtain ⟨-, hright, -⟩ := List.pairwise_append.mp hsorted
  rcases List.mem_append.mp hmem with hl | hr
  · exact hl
  · rcases List.mem_cons.mp hr with rfl | hl₂
    · exact absurd hx (Fin.lt_irrefl _)
    · exact absurd ((List.pairwise_cons.mp hright).1 x hl₂) (Fin.not_lt.mpr (Fin.le_of_lt hx))

theorem lowest_of_nextIrq {irq : Half} (h : b.nextIrq = some irq) : b.Lowest irq := by
  rw [nextIrq, List.findSome?_eq_some_iff] at h
  obtain ⟨l₁, i, l₂, hl, hi, hbefore⟩ := h
  dsimp only at hi hbefore
  split at hi
  · cases hi
  · next hne =>
      obtain rfl := Option.some.inj hi
      have hctz := BitVec.ctz_lt_iff_ne_zero.mpr hne
      have hk : (b.nvicEn i &&& b.nvicPend i).ctz.toNat < 32 := by
        simpa [BitVec.lt_def] using hctz
      have hnum : (BitVec.ofNat 16 (i * 32 + (b.nvicEn i &&& b.nvicPend i).ctz.toNat)).toNat =
          i * 32 + (b.nvicEn i &&& b.nvicPend i).ctz.toNat := by
        rw [BitVec.toNat_ofNat]
        omega
      rw [Lowest, hnum]
      refine ⟨(active_word i.isLt hk).mpr (BitVec.getLsbD_true_ctz_of_ne_zero hne), ?_⟩
      rintro m hm ⟨hword, hbit⟩
      rcases Nat.lt_or_eq_of_le (show m / 32 ≤ i by omega) with hlt | heq
      · -- An earlier word has no bit set.
        have hnone := hbefore ⟨m / 32, hword⟩ (mem_left_of_lt hl hlt)
        split at hnone
        · next hzero =>
            rw [hzero] at hbit
            simp at hbit
        · cases hnone
      · -- In the same word the bits below the lowest set one are clear.
        have hsame : (⟨m / 32, hword⟩ : Fin 8) = i := Fin.ext heq
        rw [hsame, BitVec.getLsbD_false_of_lt_ctz (by omega)] at hbit
        cases hbit

theorem nextIrq_eq_none_iff : b.nextIrq = none ↔ ∀ m, ¬ b.Active m := by
  rw [nextIrq, List.findSome?_eq_none_iff]
  constructor
  · rintro h m ⟨hword, hbit⟩
    have hnone := h ⟨m / 32, hword⟩ (List.mem_finRange _)
    dsimp only at hnone
    split at hnone
    · next hzero =>
        rw [hzero] at hbit
        simp at hbit
    · cases hnone
  · intro h i _
    dsimp only
    split
    · rfl
    · next hne =>
        have hk : (b.nvicEn i &&& b.nvicPend i).ctz.toNat < 32 := by
          simpa [BitVec.lt_def] using BitVec.ctz_lt_iff_ne_zero.mpr hne
        exact absurd ((active_word i.isLt hk).mpr (BitVec.getLsbD_true_ctz_of_ne_zero hne)) (h _)

theorem nextIrq_eq_some_iff {irq : Half} : b.nextIrq = some irq ↔ b.Lowest irq := by
  refine ⟨lowest_of_nextIrq, fun h => ?_⟩
  cases hnext : b.nextIrq with
  | none => exact absurd h.1 (nextIrq_eq_none_iff.mp hnext _)
  | some irq' => rw [(lowest_of_nextIrq hnext).unique h]

end Bus

/-! ## What is delivered -/

namespace Core

variable {δ : Type} [Mmio δ] (verifier : Verifier) {c : Core} {b b₁ : Bus δ} {r : Core × Bus δ}

/-- The core enters exception `vecnum` from the bus state `b`. -/
def Enters (c : Core) (vecnum : Word) (b : Bus δ) (r : Core × Bus δ) : Prop :=
  (c.exceptionEntry vecnum).run (Bus.handle verifier) b = some r

/-- Interrupts are not masked, and no handler is running. -/
def Unmasked (c : Core) : Prop := c.mode = .thread ∧ c.primask = false ∧ c.faultmask = false

omit [Mmio δ] in
/-- BASEPRI is off, or the priority of the IRQ is below it. -/
def Passes (c : Core) (b : Bus δ) (irq : Half) : Prop :=
  c.basepri = 0 ∨ ∃ prio, b.irqPrio irq = some prio ∧ prio.setWidth 32 < c.basepri

/-- What a poll of the NVIC took. -/
inductive Taken where
  | nothing
  | irq (n : Half)
  | pendsv

/-- The poll that leads from the collected state `b₁` to `r` took `o`. -/
def Took (c : Core) (b₁ : Bus δ) (r : Core × Bus δ) : Taken → Prop
  | .nothing => r = (c, b₁)
  | .irq n => ∃ b₂, b₁.clearPending n = some b₂ ∧ c.Enters verifier (16 + n.setWidth 32) b₂ r
  | .pendsv => b₁.pendPendsv = true ∧ c.Enters verifier 14 { b₁ with pendPendsv := false } r

omit [Mmio δ] in
/-- The rule of delivery: one candidate, the lowest-numbered IRQ, and PendSV when there is
none or BASEPRI holds it back. -/
structure Delivery (c : Core) (b₁ : Bus δ) (o : Taken) : Prop where
  masked : ¬ c.Unmasked → o = .nothing
  basepri : ∀ n, o = .irq n → b₁.Lowest n ∧ c.Passes b₁ n
  lowest : c.Unmasked → ∀ n, b₁.Lowest n → c.Passes b₁ n → o = .irq n
  pendsv : o = .pendsv → ∀ n, b₁.Lowest n → ¬ c.Passes b₁ n
  otherwise : c.Unmasked → (∀ n, b₁.Lowest n → ¬ c.Passes b₁ n) →
    o = if b₁.pendPendsv then .pendsv else .nothing

/-- The two cores differ at most in the timer. -/
def OnlyTimer (c c' : Core) : Prop :=
  c' = { c with
    systCsr := c'.systCsr
    systRvr := c'.systRvr
    systick := c'.systick
    tickEvents := c'.tickEvents }

/-- Asking BASEPRI leaves the bus alone. -/
theorem run_passesBasepri {irq : Half} {p : Bool} {b' : Bus δ}
    (h : (c.passesBasepri irq).run (Bus.handle verifier) b = some (p, b')) :
    b' = b ∧ (p = true ↔ c.Passes b irq) := by
  rw [passesBasepri] at h
  split at h
  · next hzero =>
      cases h
      exact ⟨rfl, fun _ => Or.inl hzero, fun _ => rfl⟩
  · next hne =>
      rw [Prog.bind_eq, Prog.run_bind, Prog.run_lift, Option.bind_eq_some_iff] at h
      obtain ⟨⟨prio, b₂⟩, hprio, hrest⟩ := h
      obtain ⟨prio', hread, heq⟩ := Option.map_eq_some_iff.mp hprio
      cases heq
      cases hrest
      refine ⟨rfl, fun hlt => Or.inr ⟨prio, hread, of_decide_eq_true hlt⟩, ?_⟩
      rintro (hzero | ⟨prio', hread', hlt⟩)
      · exact absurd hzero hne
      · obtain rfl := Option.some.inj (hread.symm.trans hread')
        exact decide_eq_true hlt

/-- PendSV is entered exactly when it is pending. -/
theorem run_maybePendsv (h : c.maybePendsv.run (Bus.handle verifier) b = some r) :
    Took verifier c b r (if b.pendPendsv then .pendsv else .nothing) := by
  rw [maybePendsv, Prog.bind_eq, Prog.run_bind, Prog.run_lift] at h
  simp only [Bus.handle, Bus.takePendsv, Option.bind_some] at h
  cases hp : b.pendPendsv with
  | true =>
      rw [hp] at h
      exact ⟨hp, h⟩
  | false =>
      rw [hp] at h
      obtain rfl := Option.some.inj h
      show (c, { b with pendPendsv := false }) = (c, b)
      rw [← hp]

omit [Mmio δ] in
theorem delivery_of_none (hun : c.Unmasked) (hnone : ∀ n, b.Lowest n → ¬ c.Passes b n) :
    Delivery c b (if b.pendPendsv then .pendsv else .nothing) := by
  constructor
  · exact fun hmask => absurd hun hmask
  · intro n heq
    split at heq
    · cases heq
    · cases heq
  · exact fun _ n hn hpass => absurd hpass (hnone n hn)
  · exact fun _ => hnone
  · exact fun _ _ => rfl

theorem run_deliver {irq : Half} (hlow : b.Lowest irq) (hun : c.Unmasked)
    (h : (c.deliver irq).run (Bus.handle verifier) b = some r) :
    ∃ o, Took verifier c b r o ∧ Delivery c b o := by
  rw [deliver, Prog.bind_eq, Prog.run_bind, Option.bind_eq_some_iff] at h
  obtain ⟨⟨p, b'⟩, hp, hrest⟩ := h
  obtain ⟨rfl, hiff⟩ := run_passesBasepri verifier hp
  cases p with
  -- the lowest pending IRQ passes BASEPRI and is taken
  | true =>
      have hpass := hiff.mp rfl
      simp only [if_true, Prog.bind_eq, Prog.run_bind, Prog.run_lift,
        Option.bind_eq_some_iff] at hrest
      obtain ⟨⟨_, b₂⟩, hcall, henter⟩ := hrest
      obtain ⟨b₃, hclear, heq⟩ := Option.map_eq_some_iff.mp hcall
      obtain rfl : b₃ = b₂ := congrArg Prod.snd heq
      refine ⟨.irq irq, ⟨b₃, hclear, henter⟩, ?_⟩
      constructor
      · exact fun hmask => absurd hun hmask
      · rintro n heq
        cases heq
        exact ⟨hlow, hpass⟩
      · intro _ n hn _
        rw [hlow.unique hn]
      · intro heq
        cases heq
      · intro _ hnone
        exact absurd hpass (hnone irq hlow)
  -- it does not, and no other IRQ is looked at
  | false =>
      have hpass : ¬ c.Passes b' irq := fun hc => Bool.noConfusion (hiff.mpr hc)
      have hnone : ∀ n, b'.Lowest n → ¬ c.Passes b' n := by
        intro n hn
        rw [hn.unique hlow]
        exact hpass
      exact ⟨_, run_maybePendsv verifier hrest, delivery_of_none hun hnone⟩

theorem run_maybeInterrupt (h : c.maybeInterrupt.run (Bus.handle verifier) b = some r) :
    ∃ b₁ o, b.collectIrqs = some b₁ ∧ Took verifier c b₁ r o ∧ Delivery c b₁ o := by
  rw [maybeInterrupt, Prog.bind_eq, Prog.run_bind, Prog.run_lift, Option.bind_eq_some_iff] at h
  obtain ⟨⟨_, b₁⟩, hcall, hrest⟩ := h
  obtain ⟨b₂, hcollect, heq⟩ := Option.map_eq_some_iff.mp hcall
  obtain rfl : b₂ = b₁ := congrArg Prod.snd heq
  split at hrest
  · -- masked: nothing is taken
    next hmask =>
      obtain rfl := Option.some.inj hrest
      have hnot : ¬ c.Unmasked := by
        rintro ⟨hmode, hprimask, hfaultmask⟩
        rcases hmask with hm | hp | hf
        · exact hm hmode
        · exact absurd (hprimask.symm.trans hp) Bool.false_ne_true
        · exact absurd (hfaultmask.symm.trans hf) Bool.false_ne_true
      refine ⟨b₂, .nothing, hcollect, rfl, ?_⟩
      constructor
      · exact fun _ => rfl
      · exact fun _ heq => nomatch heq
      · exact fun hun => absurd hun hnot
      · exact fun heq => nomatch heq
      · exact fun hun => absurd hun hnot
  · next hmask =>
      have hun : c.Unmasked := by
        simp only [not_or, not_not, Bool.not_eq_true] at hmask
        exact hmask
      rw [Prog.bind_eq, Prog.run_bind, Prog.run_lift] at hrest
      simp only [Bus.handle, Option.bind_some] at hrest
      cases hnext : b₂.nextIrq with
      | some irq =>
          rw [hnext] at hrest
          obtain ⟨o, htook, hdel⟩ :=
            run_deliver verifier (Bus.nextIrq_eq_some_iff.mp hnext) hun hrest
          exact ⟨b₂, o, hcollect, htook, hdel⟩
      -- no IRQ is pending, so PendSV may be
      | none =>
          rw [hnext] at hrest
          have hnone : ∀ n, b₂.Lowest n → ¬ c.Passes b₂ n := fun n hn =>
            absurd hn.1 (Bus.nextIrq_eq_none_iff.mp hnext _)
          exact ⟨b₂, _, hcollect, run_maybePendsv verifier hrest, delivery_of_none hun hnone⟩

/-- Counting down leaves the rest of the core alone. -/
theorem countDown_only (c : Core) : OnlyTimer c c.countDown.1 := by
  rw [countDown]
  split
  · rfl
  · rfl

theorem OnlyTimer.trans {c' c'' : Core} (h : OnlyTimer c c') (h' : OnlyTimer c' c'') :
    OnlyTimer c c'' := by
  rw [OnlyTimer] at h h' ⊢
  rw [h', h]

/-- A host that accepts no image. -/
def noVerifier : Verifier where
  cmpaParses _ := false
  cfpaParses _ := false
  cfpaVersion _ := 0
  verifyImage _ _ _ := false

/-- IRQ 3 at priority 0x80 and IRQ 5 at priority 0x40 are pending, and so is PendSV. -/
def twoPending : Bus Unit :=
  { Bus.new () with
    nvicEn := fun i => if i = 0 then 0x28 else 0
    nvicPend := fun i => if i = 0 then 0x28 else 0
    nvicPrio := fun i => if i = 3 then 0x80 else if i = 5 then 0x40 else 0
    pendPendsv := true }

/-- The exception that a poll of the NVIC enters. -/
def polled (c : Core) : Option Word :=
  (c.maybeInterrupt.run (Bus.handle noVerifier) twoPending).map fun r => r.1.ipsr

end Core

end SpEmu
