import SpEmu.Cpu.Exceptions
import SpEmu.Mem.BusSafety

/-!
# Exception frames in RAM

`HoldsWords b a ws` says that the words `ws` lie one after the other in RAM from `a` on, and
`HoldsBlock b a ws` the same behind the secure alias. Words stored there read back, and a store
elsewhere leaves them alone; the addresses may wrap around the top of memory.

With a frame in RAM, `run_exceptionEntry` says what entry leaves behind, and
`run_exceptionReturn` what a return makes of a frame that it finds.
-/

set_option autoImplicit false

namespace SpEmu

open ByteMem Mem

namespace Bus

variable {δ : Type} {b b' : Bus δ} {a v : Word}

/-! ## Words one after the other -/

/-- The addresses of the bytes of `n` words from `a` on. -/
def WordSet (a : Word) (n : Nat) (x : Nat) : Prop :=
  ∃ i, i < n ∧ (a + BitVec.ofNat 32 (4 * i)).toNat ≤ x ∧ x < (a + BitVec.ofNat 32 (4 * i)).toNat + 4

theorem wordAddr_succ (a : Word) (i : Nat) :
    a + BitVec.ofNat 32 (4 * (i + 1)) = a + 4 + BitVec.ofNat 32 (4 * i) := by
  rw [Nat.mul_succ, BitVec.ofNat_add, BitVec.add_comm (BitVec.ofNat 32 (4 * i)), BitVec.add_assoc]
  rfl

theorem wordAddr_zero (a : Word) : a + BitVec.ofNat 32 (4 * 0) = a := BitVec.add_zero a

theorem wordSet_succ {n x : Nat} :
    WordSet a (n + 1) x ↔ (a.toNat ≤ x ∧ x < a.toNat + 4) ∨ WordSet (a + 4) n x := by
  constructor
  · rintro ⟨i, hi, hlo, hhi⟩
    cases i with
    | zero =>
        rw [wordAddr_zero] at hlo hhi
        exact Or.inl ⟨hlo, hhi⟩
    | succ i =>
        rw [wordAddr_succ] at hlo hhi
        exact Or.inr ⟨i, by omega, hlo, hhi⟩
  · rintro (⟨hlo, hhi⟩ | ⟨i, hi, hlo, hhi⟩)
    · refine ⟨0, by omega, ?_⟩
      rw [wordAddr_zero]
      exact ⟨hlo, hhi⟩
    · refine ⟨i + 1, by omega, ?_⟩
      rw [wordAddr_succ]
      exact ⟨hlo, hhi⟩

/-- The words lie in RAM one after the other from `a` on. -/
def HoldsWords (b : Bus δ) (a : Word) : List Word → Prop
  | [] => True
  | w :: ws => b.Holds 4 a w ∧ HoldsWords b (a + 4) ws

/-- RAM serves `n` words from `a` on. -/
def ServedWords (b : Bus δ) (a : Word) : Nat → Prop
  | 0 => True
  | n + 1 => b.Served 4 a ∧ ServedWords b (a + 4) n

theorem ServedWords.at {n : Nat} (h : b.ServedWords a n) {i : Nat} (hi : i < n) :
    b.Served 4 (a + BitVec.ofNat 32 (4 * i)) := by
  induction n generalizing a i with
  | zero => omega
  | succ n ih =>
      cases i with
      | zero =>
          rw [wordAddr_zero]
          exact h.1
      | succ i =>
          rw [wordAddr_succ]
          exact ih h.2 (by omega)

theorem HoldsWords.served {ws : List Word} (h : b.HoldsWords a ws) :
    b.ServedWords a ws.length := by
  induction ws generalizing a with
  | nil => trivial
  | cons w ws ih => exact ⟨h.1.served, ih h.2⟩

theorem HoldsWords.append {ws ws' : List Word} :
    b.HoldsWords a (ws ++ ws') ↔
      b.HoldsWords a ws ∧ b.HoldsWords (a + BitVec.ofNat 32 (4 * ws.length)) ws' := by
  induction ws generalizing a with
  | nil =>
      rw [List.length_nil, wordAddr_zero]
      exact (true_and _ : (True ∧ b.HoldsWords a ws') = _).symm ▸ Iff.rfl
  | cons w ws ih =>
      rw [List.length_cons, wordAddr_succ]
      show b.Holds 4 a w ∧ b.HoldsWords (a + 4) (ws ++ ws') ↔ _
      rw [ih, ← and_assoc]
      rfl

/-- Stores that keep off the words leave them as they are. -/
theorem HoldsWords.confined {S : Nat → Prop} {ws : List Word} (h : b.HoldsWords a ws)
    (hc : Confined S b b') (hS : ∀ x, WordSet a ws.length x → ¬ S x) : b'.HoldsWords a ws := by
  induction ws generalizing a with
  | nil => trivial
  | cons w ws ih =>
      refine ⟨hc.frame h.1 (by omega) fun x hlo hhi => ?_, ih h.2 fun x hx => ?_⟩
      · exact hS x (wordSet_succ.mpr (Or.inl ⟨hlo, hhi⟩))
      · exact hS x (wordSet_succ.mpr (Or.inr hx))

/-- Touching a device leaves the words as they are. -/
theorem HoldsWords.only {ws : List Word} (h : b.HoldsWords a ws) (hd : OnlyDevices b b') :
    b'.HoldsWords a ws := by
  induction ws generalizing a with
  | nil => trivial
  | cons w ws ih => exact ⟨⟨h.1.isOpen.mono hd.windows, by rw [hd.rams]; exact h.1.load⟩, ih h.2⟩

theorem ServedWords.confined {S : Nat → Prop} {n : Nat} (h : b.ServedWords a n)
    (hc : Confined S b b') : b'.ServedWords a n := by
  induction n generalizing a with
  | zero => trivial
  | succ n ih => exact ⟨hc.served h.1, ih h.2⟩

theorem ServedWords.only {n : Nat} (h : b.ServedWords a n) (hd : OnlyDevices b b') :
    b'.ServedWords a n := by
  induction n generalizing a with
  | zero => trivial
  | succ n ih =>
      exact ⟨⟨h.1.isOpen.mono hd.windows, by rw [hd.rams]; exact h.1.load⟩, ih h.2⟩

/-! ## Blocks behind the alias -/

/-- The bytes that `n` words from `a` on take, the secure alias folded. -/
def BlockSet (b : Bus δ) (a : Word) (n : Nat) (x : Nat) : Prop :=
  ∃ i, i < n ∧ (b.fold (a + BitVec.ofNat 32 (4 * i))).toNat ≤ x ∧
    x < (b.fold (a + BitVec.ofNat 32 (4 * i))).toNat + 4

/-- RAM serves `n` words from `a` on, the secure alias folded. -/
def ServedBlock (b : Bus δ) (a : Word) (n : Nat) : Prop :=
  ∀ i, i < n → b.Served 4 (b.fold (a + BitVec.ofNat 32 (4 * i)))

/-- The words lie in RAM one after the other from `a` on, the secure alias folded. -/
def HoldsBlock (b : Bus δ) (a : Word) (ws : List Word) : Prop :=
  ∀ (i : Nat) (w : Word), ws[i]? = some w → b.Holds 4 (b.fold (a + BitVec.ofNat 32 (4 * i))) w

theorem blockSet_succ {n x : Nat} :
    b.BlockSet a (n + 1) x ↔
      ((b.fold a).toNat ≤ x ∧ x < (b.fold a).toNat + 4) ∨ b.BlockSet (a + 4) n x := by
  constructor
  · rintro ⟨i, hi, hlo, hhi⟩
    cases i with
    | zero =>
        rw [wordAddr_zero] at hlo hhi
        exact Or.inl ⟨hlo, hhi⟩
    | succ i =>
        rw [wordAddr_succ] at hlo hhi
        exact Or.inr ⟨i, by omega, hlo, hhi⟩
  · rintro (⟨hlo, hhi⟩ | ⟨i, hi, hlo, hhi⟩)
    · refine ⟨0, by omega, ?_⟩
      rw [wordAddr_zero]
      exact ⟨hlo, hhi⟩
    · refine ⟨i + 1, by omega, ?_⟩
      rw [wordAddr_succ]
      exact ⟨hlo, hhi⟩

theorem ServedBlock.first {n : Nat} (h : b.ServedBlock a (n + 1)) : b.Served 4 (b.fold a) := by
  have hzero := h 0 (by omega)
  rwa [wordAddr_zero] at hzero

theorem ServedBlock.rest {n : Nat} (h : b.ServedBlock a (n + 1)) : b.ServedBlock (a + 4) n := by
  intro i hi
  rw [← wordAddr_succ]
  exact h (i + 1) (by omega)

theorem holdsBlock_nil : b.HoldsBlock a [] := by
  intro i w hw
  simp at hw

theorem holdsBlock_cons {w : Word} {ws : List Word} :
    b.HoldsBlock a (w :: ws) ↔ b.Holds 4 (b.fold a) w ∧ b.HoldsBlock (a + 4) ws := by
  constructor
  · intro h
    refine ⟨?_, fun i w' hw' => ?_⟩
    · have hzero := h 0 w rfl
      rwa [wordAddr_zero] at hzero
    · rw [← wordAddr_succ]
      exact h (i + 1) w' hw'
  · rintro ⟨hfirst, hrest⟩ i w' hw'
    cases i with
    | zero =>
        cases hw'
        rw [wordAddr_zero]
        exact hfirst
    | succ i =>
        rw [wordAddr_succ]
        exact hrest i w' hw'

theorem Confined.fold {S : Nat → Prop} (h : Confined S b b') (x : Word) : b'.fold x = b.fold x := by
  rw [h.only]
  rfl

theorem ServedBlock.confined {S : Nat → Prop} {n : Nat} (h : b.ServedBlock a n)
    (hc : Confined S b b') : b'.ServedBlock a n := by
  intro i hi
  rw [hc.fold]
  exact hc.served (h i hi)

/-- Folding moves an address by a multiple of the alias bit. -/
theorem toNat_fold_mod (a : Word) : (b.fold a).toNat % 2 ^ 28 = a.toNat % 2 ^ 28 := by
  have hclear : (a &&& ~~~lpc55SecureAliasBit).toNat % 2 ^ 28 = a.toNat % 2 ^ 28 := by
    have hlow : (~~~lpc55SecureAliasBit).setWidth 28 = BitVec.allOnes 28 := by decide
    have hwidth : (a &&& ~~~lpc55SecureAliasBit).setWidth 28 = a.setWidth 28 := by
      rw [BitVec.setWidth_and, hlow, BitVec.and_allOnes]
    have hnat := congrArg BitVec.toNat hwidth
    rwa [BitVec.toNat_setWidth, BitVec.toNat_setWidth] at hnat
  rw [fold]
  split
  · rfl
  · split
    · exact hclear
    · rfl

/-- The later words of a block do not meet the first. -/
theorem blockSet_disjoint {n x : Nat} (hn : n < 2 ^ 25) (h : b.BlockSet (a + 4) n x) :
    ¬ ((b.fold a).toNat ≤ x ∧ x < (b.fold a).toNat + 4) := by
  obtain ⟨i, hi, hlo, hhi⟩ := h
  have hfirst := b.toNat_fold_mod a
  have hlater := b.toNat_fold_mod (a + 4 + BitVec.ofNat 32 (4 * i))
  have hfour : (4 : Word).toNat = 4 := rfl
  simp only [BitVec.toNat_add, BitVec.toNat_ofNat, hfour] at hlater
  omega

/-! Words served without the alias are a block. -/

theorem ServedWords.block {n : Nat} (h : b.ServedWords a n) : b.ServedBlock a n := by
  intro i hi
  have hserved := h.at hi
  rw [hserved.isOpen.fold]
  exact hserved

theorem HoldsWords.block {ws : List Word} (h : b.HoldsWords a ws) : b.HoldsBlock a ws := by
  induction ws generalizing a with
  | nil => exact holdsBlock_nil
  | cons w ws ih =>
      refine holdsBlock_cons.mpr ⟨?_, ih h.2⟩
      rw [h.1.isOpen.fold]
      exact h.1

theorem HoldsBlock.words {ws : List Word} (h : b.HoldsBlock a ws)
    (hserved : b.ServedWords a ws.length) : b.HoldsWords a ws := by
  induction ws generalizing a with
  | nil => trivial
  | cons w ws ih =>
      obtain ⟨hfirst, hrest⟩ := holdsBlock_cons.mp h
      rw [hserved.1.isOpen.fold] at hfirst
      exact ⟨hfirst, ih hrest hserved.2⟩

theorem wordSet_of_block {n x : Nat} (h : b.ServedWords a n) (hx : b.BlockSet a n x) :
    WordSet a n x := by
  obtain ⟨i, hi, hlo, hhi⟩ := hx
  rw [(h.at hi).isOpen.fold] at hlo hhi
  exact ⟨i, hi, hlo, hhi⟩

variable [Mmio δ]

theorem read32_of_fold (h : b.Holds 4 (b.fold a) v) : b.read32 a = some (v, b) := by
  rw [← read32_of_holds h]
  simp only [read32, h.isOpen.fold]

theorem write32_of_fold (h : b.Served 4 (b.fold a)) (v : Word) :
    ∃ b', b.write32 a v = some b' ∧ Stored b b' 4 (b.fold a) v := by
  obtain ⟨b', hwrite, hstored⟩ := write32_of_served h v
  refine ⟨b', ?_, hstored⟩
  rw [← hwrite]
  simp only [write32, write32N, write32With, h.isOpen.fold]

end Bus

/-! ## Reading and writing them -/

namespace BusM

variable {δ : Type} [Mmio δ] (verifier : Verifier) {b b' : Bus δ} {a : Word}

theorem run_read32 (a : Word) (b : Bus δ) :
    (read32 a).run (Bus.handle verifier) b = b.read32 a := by
  rw [read32, Prog.run_lift]
  rfl

theorem run_write32 (a v : Word) (b : Bus δ) :
    (write32 a v).run (Bus.handle verifier) b = (b.write32 a v).map ((), ·) := by
  rw [write32, Prog.run_lift]
  rfl

theorem run_readBlock {ws : List Word} (h : b.HoldsBlock a ws) :
    (readWords a ws.length).run (Bus.handle verifier) b = some (ws, b) := by
  induction ws generalizing a with
  | nil => rfl
  | cons w ws ih =>
      obtain ⟨hfirst, hrest⟩ := Bus.holdsBlock_cons.mp h
      simp only [List.length_cons, readWords, Prog.bind_eq, Prog.run_bind, run_read32,
        Bus.read32_of_fold hfirst, Option.bind_some, ih hrest]
      rfl

omit [Mmio δ] in
/-- The first word is read before the others. -/
theorem readWords_succ_bind {β : Type} (n : Nat) (k : List Word → BusM β) :
    (readWords a (n + 1)).bind k =
      .call (.read .word a) fun w => (readWords (a + 4) n).bind fun ws => k (w :: ws) :=
  congrArg (Prog.call (BusCall.read .word a)) (funext fun w =>
    Prog.bind_assoc (readWords (a + 4) n) (fun ws => .ret (w :: ws)) k)

/-- Words stored in a block of RAM are there, and nothing else changes. -/
theorem run_writeBlock {ws : List Word} (h : b.ServedBlock a ws.length)
    (hlen : ws.length < 2 ^ 25) :
    ∃ b', (writeWords a ws).run (Bus.handle verifier) b = some ((), b') ∧
      b'.HoldsBlock a ws ∧ Bus.Confined (b.BlockSet a ws.length) b b' := by
  induction ws generalizing a b with
  | nil => exact ⟨b, rfl, Bus.holdsBlock_nil, Bus.Confined.refl _ b⟩
  | cons w ws ih =>
      rw [List.length_cons] at h hlen
      obtain ⟨b₁, hwrite, hstored⟩ := Bus.write32_of_fold h.first w
      have hc₁ : Bus.Confined (b.BlockSet a (ws.length + 1)) b b₁ :=
        hstored.confined (by omega) fun x hlo hhi => Bus.blockSet_succ.mpr (Or.inl ⟨hlo, hhi⟩)
      obtain ⟨b₂, hrest, hholds, hc₂⟩ := ih (h.rest.confined hc₁) (by omega)
      refine ⟨b₂, ?_, Bus.holdsBlock_cons.mpr ⟨?_, hholds⟩, ?_⟩
      · simp only [writeWords, Prog.bind_eq, Prog.run_bind, run_write32, hwrite,
          Option.map_some, Option.bind_some, hrest]
      · -- the later words keep off this one
        rw [hc₂.fold, hc₁.fold]
        refine hc₂.frame hstored.word (by omega) fun x hlo hhi hx => ?_
        refine Bus.blockSet_disjoint (by omega) hx ?_
        rw [hc₁.fold]
        exact ⟨hlo, hhi⟩
      · refine hc₁.trans (hc₂.mono fun x hx => Bus.blockSet_succ.mpr (Or.inr ?_))
        obtain ⟨i, hi, hlo, hhi⟩ := hx
        rw [hc₁.fold] at hlo hhi
        exact ⟨i, hi, hlo, hhi⟩

theorem run_readWords {ws : List Word} (h : b.HoldsWords a ws) :
    (readWords a ws.length).run (Bus.handle verifier) b = some (ws, b) :=
  run_readBlock verifier h.block

/-- Reading words touches nothing but devices. -/
theorem readWords_only {n : Nat} {ws : List Word}
    (h : (readWords a n).run (Bus.handle verifier) b = some (ws, b')) :
    ws.length = n ∧ Bus.OnlyDevices b b' := by
  induction n generalizing a b ws with
  | zero =>
      cases h
      exact ⟨rfl, Bus.OnlyDevices.same b'⟩
  | succ n ih =>
      simp only [readWords, Prog.bind_eq, Prog.run_bind, run_read32,
        Option.bind_eq_some_iff] at h
      obtain ⟨⟨w, b₁⟩, hw, ⟨ws', b₂⟩, hws, heq⟩ := h
      cases heq
      obtain ⟨hlen, hdev⟩ := ih hws
      exact ⟨by rw [List.length_cons, hlen], (Bus.read32_only hw).trans hdev⟩

/-- Words stored in RAM are there, and nothing else changes. -/
theorem run_writeWords {ws : List Word} (h : b.ServedWords a ws.length)
    (hlen : ws.length < 2 ^ 25) :
    ∃ b', (writeWords a ws).run (Bus.handle verifier) b = some ((), b') ∧
      b'.HoldsWords a ws ∧ Bus.Confined (Bus.WordSet a ws.length) b b' := by
  obtain ⟨b', hrun, hholds, hconf⟩ := run_writeBlock verifier h.block hlen
  refine ⟨b', hrun, hholds.words (h.confined hconf), hconf.mono fun x hx => ?_⟩
  exact Bus.wordSet_of_block h hx

/-- Reads of consecutive words return unless one of them overruns a region. -/
theorem isSome_run_readWords {n : Nat} :
    ((readWords a n).run (Bus.handle verifier) b).isSome ↔
      ∀ i, i < n → ¬ Overrun b.rams (b.fold (a + BitVec.ofNat 32 (4 * i))) 4 := by
  induction n generalizing a b with
  | zero => exact iff_of_true rfl fun i hi => absurd hi (Nat.not_lt_zero i)
  | succ n ih =>
      have hfirst := Bus.isSome_read32_iff (b := b) a
      simp only [readWords, Prog.bind_eq, Prog.run_bind, run_read32]
      cases hread : b.read32 a with
      | none =>
          rw [hread] at hfirst
          refine iff_of_false Bool.false_ne_true fun hall => ?_
          exact absurd (hfirst.mpr (Bus.wordAddr_zero a ▸ hall 0 (by omega))) Bool.false_ne_true
      | some r =>
          rw [hread] at hfirst
          have hdev := Bus.read32_only hread
          have hrams := hdev.rams
          have hfold : ∀ x, r.2.fold x = b.fold x := hdev.windows.fold
          simp only [Option.bind_some]
          -- putting the word in front does not fail
          have hrest : (((readWords (a + 4) n).run (Bus.handle verifier) r.2).bind fun x =>
              ((Prog.ret (r.1 :: x.1) : BusM (List Word)).run (Bus.handle verifier) x.2)).isSome =
              ((readWords (a + 4) n).run (Bus.handle verifier) r.2).isSome := by
            cases (readWords (a + 4) n).run (Bus.handle verifier) r.2 with
            | none => rfl
            | some x => rfl
          refine (Bool.eq_iff_iff.mp hrest).trans (ih.trans ?_)
          simp only [hrams, hfold]
          -- the overruns of the rest are those one word on
          constructor
          · intro hall i hi
            cases i with
            | zero =>
                rw [Bus.wordAddr_zero]
                exact hfirst.mp rfl
            | succ i =>
                rw [Bus.wordAddr_succ]
                exact hall i (by omega)
          · intro hall i hi
            rw [← Bus.wordAddr_succ]
            exact hall (i + 1) (by omega)

end BusM

/-! ## Entry -/

namespace Core

variable {δ : Type} [Mmio δ] (verifier : Verifier) {c e f : Core} {b b' : Bus δ}

theorem length_frame (c : Core) : c.frame.length = c.frameWords.toNat := by
  rw [frame, frameWords, List.length_append]
  cases c.fpca with
  | true => rfl
  | false => rfl

/-- Entry leaves the frame in RAM, where it was free to store it, and the core in Handler
mode. -/
theorem run_exceptionEntry {vecnum : Word} (hram : b.ServedWords c.frameBase c.frame.length)
    (h : (c.exceptionEntry vecnum).run (Bus.handle verifier) b = some (e, b')) :
    (∃ pc, e = { c.enterHandler vecnum with pc := pc, itstate := 0 }) ∧
      ∃ bm, Bus.Confined (Bus.WordSet c.frameBase c.frame.length) b bm ∧
        bm.HoldsWords c.frameBase c.frame ∧ Bus.OnlyDevices bm b' := by
  have hlen : c.frame.length < 2 ^ 25 := by
    rw [length_frame, frameWords]
    cases c.fpca with
    | true => decide
    | false => decide
  obtain ⟨bm, hwrite, hholds, hconf⟩ := BusM.run_writeWords verifier hram hlen
  rw [exceptionEntry, Prog.bind_eq, Prog.run_bind, hwrite] at h
  simp only [Option.bind_some, Prog.bind_eq, Prog.run_bind, BusM.run_read32,
    Option.bind_eq_some_iff] at h
  obtain ⟨⟨vtor, b₁⟩, hvtor, ⟨pc, b₂⟩, hpc, heq⟩ := h
  cases heq
  exact ⟨⟨_, rfl⟩, bm, hconf, hholds, (Bus.read32_only hvtor).trans (Bus.read32_only hpc)⟩

/-! ## Return -/

/-- The length of the frame that EXC_RETURN describes. -/
def frameSize (exc : Word) : Word := if extended exc then 0x68 else 0x20

/-- The core after a return that reads the basic frame `ws` and, of a long frame, the
registers `fp` and `fpscr`. -/
def restored (c : Core) (exc base : Word) (ws fp : List Word) (fpscr : Word) : Core :=
  let c := if extended exc then c.setFp fp fpscr else c
  (c.setBasic (ws.getD 0 0) (ws.getD 1 0) (ws.getD 2 0) (ws.getD 3 0) (ws.getD 4 0) (ws.getD 5 0)
    (ws.getD 6 0) (ws.getD 7 0)).leaveHandler exc (base + frameSize exc)

/-- The rest of a return, once the basic frame is read. -/
def unstack (c : Core) (exc base : Word) (ws : List Word) : BusM Core := do
  let c ← c.crashDump base (ws.getD 6 0)
  let (c, top) ← c.unstackFp exc (base + 0x20)
  pure ((c.setBasic (ws.getD 0 0) (ws.getD 1 0) (ws.getD 2 0) (ws.getD 3 0) (ws.getD 4 0)
    (ws.getD 5 0) (ws.getD 6 0) (ws.getD 7 0)).leaveHandler exc top)

/-- A return reads the eight words of the basic frame and goes on from there. -/
theorem exceptionReturn_eq (c : Core) (exc : Word) :
    c.exceptionReturn exc =
      (BusM.readWords (c.returnBase exc) 8).bind (c.unstack exc (c.returnBase exc)) := by
  simp only [exceptionReturn, BusM.readWords, Prog.bind_eq, Prog.pure_eq, Prog.bind_assoc,
    Prog.ret_bind, BitVec.add_assoc]
  rfl

/-- The crash detector is quiet, or the words it dumps can be read. -/
def DumpReads (c : Core) (b : Bus δ) (base pc : Word) : Prop :=
  c.isCode pc = true ∨ ¬ c.badRetDumps < 6 ∨
    ∀ i, i < 18 → ¬ Overrun b.rams (b.fold (base - 8 + BitVec.ofNat 32 (4 * i))) 4

/-- The crash detector counts its dumps, and its reads touch nothing but devices. -/
theorem crashDump_only {base pc : Word}
    (h : (c.crashDump base pc).run (Bus.handle verifier) b = some (f, b')) :
    (∃ dumps, f = c.withDumps dumps) ∧ Bus.OnlyDevices b b' := by
  rw [crashDump] at h
  split at h
  · rw [Prog.bind_eq, Prog.run_bind, Option.bind_eq_some_iff] at h
    obtain ⟨⟨ws, b₁⟩, hread, heq⟩ := h
    cases heq
    exact ⟨⟨_, rfl⟩, (BusM.readWords_only verifier hread).2⟩
  · cases h
    exact ⟨⟨c.badRetDumps, rfl⟩, Bus.OnlyDevices.same b⟩

theorem isSome_run_crashDump {base pc : Word} :
    ((c.crashDump base pc).run (Bus.handle verifier) b).isSome ↔ c.DumpReads b base pc := by
  rw [crashDump, DumpReads]
  cases hcode : c.isCode pc with
  | true => exact iff_of_true rfl (Or.inl rfl)
  | false =>
      by_cases hdumps : c.badRetDumps < 6
      · have hmap : (((BusM.readWords (base - 8) 18).bind fun _ =>
            (Prog.ret (c.withDumps (c.badRetDumps + 1)) : BusM Core)).run
              (Bus.handle verifier) b).isSome =
            ((BusM.readWords (base - 8) 18).run (Bus.handle verifier) b).isSome := by
          rw [Prog.run_bind]
          cases (BusM.readWords (base - 8) 18).run (Bus.handle verifier) b with
          | none => rfl
          | some r => rfl
        simp only [hdumps, Bool.not_false, decide_true, Bool.and_self, if_true, Bool.false_eq_true,
          not_true_eq_false, false_or]
        exact (Bool.eq_iff_iff.mp hmap).trans (BusM.isSome_run_readWords verifier)
      · simp only [hdumps, decide_false, Bool.and_false, Bool.false_eq_true, if_false,
          not_false_eq_true, true_or, or_true, iff_true]
        rfl

/-- Whatever a return reads, this is the core that it leaves. -/
theorem run_exceptionReturn_cases {exc : Word}
    (h : (c.exceptionReturn exc).run (Bus.handle verifier) b = some (f, b')) :
    (∃ dumps ws fp fpscr,
      f = restored (c.withDumps dumps) exc (c.returnBase exc) ws fp fpscr) ∧
      Bus.OnlyDevices b b' := by
  rw [exceptionReturn_eq, Prog.run_bind, Option.bind_eq_some_iff] at h
  obtain ⟨⟨ws, b₁⟩, hread, hrest⟩ := h
  obtain ⟨-, hdev₁⟩ := BusM.readWords_only verifier hread
  rw [unstack, Prog.bind_eq, Prog.run_bind, Option.bind_eq_some_iff] at hrest
  obtain ⟨⟨c₁, b₂⟩, hdump, hrest⟩ := hrest
  obtain ⟨⟨dumps, rfl⟩, hdev₂⟩ := crashDump_only verifier hdump
  have hdev := hdev₁.trans hdev₂
  dsimp only at hrest
  rw [unstackFp] at hrest
  split at hrest
  · -- the extended frame has the floating-point registers above the core's
    next hext =>
      simp only [Prog.bind_eq, Prog.run_bind, Prog.bind_assoc, BusM.run_read32,
        Option.bind_eq_some_iff] at hrest
      obtain ⟨⟨fp, b₃⟩, hfp, ⟨fpscr, b₄⟩, hfpscr, _, hpair, heq⟩ := hrest
      cases hpair
      cases heq
      obtain ⟨-, hdev₃⟩ := BusM.readWords_only verifier hfp
      have hdev₄ : Bus.OnlyDevices b₃ b₄ := Bus.read32_only hfpscr
      refine ⟨⟨dumps, ws, fp, fpscr, ?_⟩, (hdev.trans hdev₃).trans hdev₄⟩
      rw [restored, frameSize, if_pos hext, if_pos hext, BitVec.add_assoc]
      rfl
  · next hext =>
      cases hrest
      refine ⟨⟨dumps, ws, [], 0, ?_⟩, hdev⟩
      rw [restored, frameSize, if_neg hext, if_neg hext]

/-- A return that finds the long part of its frame in RAM. -/
theorem run_unstackFp {exc top : Word} {fp : List Word} {fpscr : Word}
    (hfp : extended exc = true → fp.length = 16 ∧ b.HoldsWords top (fp ++ [fpscr])) :
    (c.unstackFp exc top).run (Bus.handle verifier) b =
      some ((if extended exc then c.setFp fp fpscr else c, top + (frameSize exc - 0x20)), b) := by
  rw [unstackFp, frameSize]
  cases hext : extended exc with
  -- sixteen registers, and FPSCR behind them
  | true =>
      obtain ⟨hlen, hholds⟩ := hfp hext
      obtain ⟨hs, hlast⟩ := Bus.HoldsWords.append.mp hholds
      rw [hlen] at hlast
      have hread := BusM.run_readWords verifier hs
      rw [hlen] at hread
      simp only [if_true, Prog.bind_eq, Prog.run_bind, hread, Option.bind_some, BusM.run_read32]
      rw [show b.read32 (top + 64) = some (fpscr, b) from Bus.read32_of_holds hlast.1]
      rfl
  | false =>
      rw [if_neg Bool.false_ne_true, if_neg Bool.false_ne_true, if_neg Bool.false_ne_true]
      exact congrArg (fun x => some ((c, x), b)) (BitVec.add_zero top).symm

/-- A return that finds its frame in RAM: it comes back unless the dump of the crash detector
cannot be read, and then it has restored the frame. -/
theorem run_exceptionReturn {exc : Word} {ws fp : List Word} {fpscr : Word}
    (hlen : ws.length = 8) (hws : b.HoldsWords (c.returnBase exc) ws)
    (hfp : extended exc = true →
      fp.length = 16 ∧ b.HoldsWords (c.returnBase exc + 0x20) (fp ++ [fpscr])) :
    (((c.exceptionReturn exc).run (Bus.handle verifier) b).isSome ↔
      c.DumpReads b (c.returnBase exc) (ws.getD 6 0)) ∧
    ∀ r, (c.exceptionReturn exc).run (Bus.handle verifier) b = some r →
      ∃ dumps, r.1 =
        restored (c.withDumps dumps) exc (c.returnBase exc) ws fp fpscr := by
  have hread := BusM.run_readWords verifier hws
  rw [hlen] at hread
  rw [exceptionReturn_eq, Prog.run_bind, hread]
  simp only [Option.bind_some, unstack, Prog.bind_eq, Prog.run_bind]
  rw [← isSome_run_crashDump verifier]
  cases hdump : (c.crashDump (c.returnBase exc) (ws.getD 6 0)).run (Bus.handle verifier) b with
  | none => exact ⟨iff_of_false Bool.false_ne_true Bool.false_ne_true, fun r hr => nomatch hr⟩
  | some r₁ =>
      obtain ⟨c₁, b₁⟩ := r₁
      obtain ⟨⟨dumps, hc₁⟩, hdev⟩ := crashDump_only verifier hdump
      have hfp₁ : extended exc = true →
          fp.length = 16 ∧ b₁.HoldsWords (c.returnBase exc + 0x20) (fp ++ [fpscr]) :=
        fun hext => ⟨(hfp hext).1, (hfp hext).2.only hdev⟩
      simp only [Option.bind_some, run_unstackFp verifier (c := c₁) hfp₁]
      refine ⟨iff_of_true rfl rfl, fun r hr => ⟨dumps, ?_⟩⟩
      cases hr
      have htop : c.returnBase exc + 0x20 + (frameSize exc - 0x20) =
          c.returnBase exc + frameSize exc := by
        rw [BitVec.add_assoc, BitVec.add_comm 0x20, BitVec.sub_add_cancel]
      rw [hc₁, htop]
      rfl

end Core

end SpEmu
