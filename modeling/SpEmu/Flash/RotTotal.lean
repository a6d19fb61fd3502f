import SpEmu.Flash.RotFlash
import SpEmu.Lib.Runs

/-!
# Totality of the LPC55 flash command engine

Every command but EraseRange returns for all register values and touches at most the page
it names. EraseRange clamps its erase loop to the array but not the slice it persists, so
with a data file it panics when the first page lies past both the page after the last one
and the end of the array (`EraseOvershoots`).

`commandsGood_iff` states both directions over every sequence of register writes.
-/

set_option autoImplicit false

namespace SpEmu

open ByteMem

namespace RotFlash

/-! ## Pages -/

/-- The page of the word number in STARTA. -/
def firstPage (f : RotFlash) : Nat := f.starta.toNat * word / page

/-- The page of the word number in STOPA. -/
def lastPage (f : RotFlash) : Nat := f.stopa.toNat * word / page

/-- Page `p` has the same bytes and the same erased mark in both states. -/
def PageKept (f f' : RotFlash) (p : Nat) : Prop :=
  (∀ i, i < page → f'.mem.get (p * page + i) = f.mem.get (p * page + i)) ∧
    f'.isErased p = f.isErased p

theorem PageKept.refl (f : RotFlash) (p : Nat) : PageKept f f p := ⟨fun _ _ => rfl, rfl⟩

theorem PageKept.trans {f f' f'' : RotFlash} {p : Nat} (h : PageKept f f' p)
    (h' : PageKept f' f'' p) : PageKept f f'' p :=
  ⟨fun i hi => (h'.1 i hi).trans (h.1 i hi), h'.2.trans h.2⟩

/-- States with the same array and the same bitset agree on every page. -/
theorem pageKept_of_eq {f f' : RotFlash} (hm : f'.mem = f.mem) (he : f'.erased = f.erased)
    (p : Nat) : PageKept f f' p := by
  refine ⟨fun i _ => by rw [hm], ?_⟩
  simp only [isErased, he]

/-! ## The erased bitset -/

theorem getLsbD_bit {a j : Nat} (hj : j < 8) :
    ((1 : Byte) <<< a).getLsbD j = decide (j = a) := by
  rw [BitVec.getLsbD_shiftLeft, show (1 : Byte) = 1#8 from rfl, BitVec.getLsbD_one]
  by_cases h : j = a
  · simp [h, show a < 8 by omega]
  · simp only [hj, h, decide_true, decide_false, Bool.true_and]
    simp
    omega

theorem or_bit_and_bit (x : Byte) {a b : Nat} (hab : a ≠ b) :
    (x ||| ((1 : Byte) <<< a)) &&& ((1 : Byte) <<< b) = x &&& ((1 : Byte) <<< b) := by
  apply BitVec.eq_of_getLsbD_eq
  intro j hj
  simp only [BitVec.getLsbD_and, BitVec.getLsbD_or, getLsbD_bit hj]
  by_cases hb : j = b
  · have ha : j ≠ a := by omega
    simp [ha]
  · simp [hb]

theorem clear_bit_and_bit (x : Byte) {a b : Nat} (hab : a ≠ b) :
    (x &&& ~~~((1 : Byte) <<< a)) &&& ((1 : Byte) <<< b) = x &&& ((1 : Byte) <<< b) := by
  apply BitVec.eq_of_getLsbD_eq
  intro j hj
  simp only [BitVec.getLsbD_and, BitVec.getLsbD_not, hj, decide_true, Bool.true_and,
    getLsbD_bit hj]
  by_cases hb : j = b
  · have ha : j ≠ a := by omega
    simp [ha]
  · simp [hb]

theorem setErased_spec (f : RotFlash) {p : Nat} (e : Bool) (hp : p < npages) :
    ∃ f', f.setErased p e = some f' ∧ f'.mem = f.mem ∧ f'.file = f.file ∧
      ∀ q, q ≠ p → f'.isErased q = f.isErased q := by
  have hidx : p / 8 < npages / 8 := by
    simp only [npages, size, page] at hp ⊢
    omega
  refine ⟨_, if_pos hidx, rfl, rfl, fun q hq => ?_⟩
  by_cases hbyte : q / 8 = p / 8
  · have hbit : p % 8 ≠ q % 8 := by omega
    simp only [isErased, hbyte, if_pos hidx]
    rw [Bytes.get_splice _ _ _ _ hidx, if_pos (by omega)]
    cases e with
    | true => simp only [if_true, or_bit_and_bit _ hbit]
    | false => simp only [Bool.false_eq_true, if_false, clear_bit_and_bit _ hbit]
  · simp only [isErased]
    rw [Bytes.get_splice_of_not_mem _ _ (by omega)]

/-! ## Persistence -/

/-- The slice of the array that persisting `first ..= last` writes starts past its end. -/
def SliceInverted (first last : Nat) : Prop := min (last + 1) npages < first

theorem persistBitset_same (f : RotFlash) :
    f.persistBitset.mem = f.mem ∧ f.persistBitset.erased = f.erased := ⟨rfl, rfl⟩

/-- Persisting pages panics exactly when the slice is inverted and the seek before it
succeeds. -/
theorem persistPages_eq_none_iff (f : RotFlash) (first last : Nat) :
    f.persistPages first last = none ↔
      SliceInverted first last ∧ ∃ file, f.file = some file ∧ file.succeeds 0 = true := by
  have hslice : first * page ≤ min ((last + 1) * page) size ↔ ¬ SliceInverted first last := by
    simp only [SliceInverted, page, size, npages]
    omega
  cases hfile : f.file with
  | none => simp [persistPages, hfile]
  | some file =>
      cases hok : file.succeeds 0 with
      | false => simp [persistPages, hfile, HostFile.attempt, hok]
      | true => simp [persistPages, hfile, HostFile.attempt, hok, hslice]

/-- Persisting pages changes no page. -/
theorem persistPages_same {f f' : RotFlash} {first last : Nat}
    (h : f.persistPages first last = some f') : f'.mem = f.mem ∧ f'.erased = f.erased := by
  cases hfile : f.file with
  | none =>
      simp only [persistPages, hfile, Option.some.injEq] at h
      subst h
      exact persistBitset_same f
  | some file =>
      cases hok : file.succeeds 0 with
      | false =>
          simp only [persistPages, hfile, HostFile.attempt, hok, Bool.false_eq_true, if_false,
            Option.some.injEq] at h
          subst h
          exact persistBitset_same _
      | true =>
          simp only [persistPages, hfile, HostFile.attempt, hok, if_true] at h
          split at h
          · obtain rfl := Option.some.inj h
            exact persistBitset_same _
          · cases h

/-! ## EraseRange -/

theorem eraseLoop_spec (count first : Nat) (f : RotFlash)
    (h : count = 0 ∨ first + count ≤ npages) :
    ∃ f', eraseLoop count first f = some f' ∧ f'.file = f.file ∧
      ∀ q, ¬ (first ≤ q ∧ q < first + count) → PageKept f f' q := by
  induction count generalizing first f with
  | zero => exact ⟨f, rfl, rfl, fun q _ => PageKept.refl f q⟩
  | succ count ih =>
      have hfirst : first < npages := by omega
      obtain ⟨mem, hmem⟩ :
          ∃ mem, f.mem.fill (first * page) (first * page + page) erasedByte = some mem := by
        refine ⟨_, Bytes.fill_eq_some_iff.mpr ⟨?_, rfl⟩⟩
        simp only [npages, size, page] at hfirst ⊢
        omega
      obtain ⟨f₁, hf₁, hmem₁, hfile, herased⟩ :=
        setErased_spec { f with mem := mem } true hfirst
      obtain ⟨f', hf', hfile', hkept⟩ := ih (first + 1) f₁ (by omega)
      refine ⟨f', ?_, hfile'.trans hfile, fun q hq =>
        PageKept.trans ⟨fun i hi => ?_, herased q (by omega)⟩ (hkept q (by omega))⟩
      · simp only [eraseLoop, hmem, Option.bind_eq_bind, Option.bind_some, hf₁, hf']
      · rw [hmem₁]
        refine Bytes.get_of_fill hmem ?_
        have hne : q < first ∨ first < q := by omega
        simp only [page] at hi ⊢
        omega

theorem eraseCount_le (f : RotFlash) :
    min f.lastPage (npages - 1) + 1 - f.firstPage = 0 ∨
      f.firstPage + (min f.lastPage (npages - 1) + 1 - f.firstPage) ≤ npages := by
  have hn : npages = 2048 := rfl
  omega

/-- EraseRange panics exactly on an inverted slice with a data file. -/
theorem cmdErase_eq_none_iff (f : RotFlash) :
    f.cmdErase = none ↔ SliceInverted f.firstPage f.lastPage ∧
      ∃ file, f.file = some file ∧ file.succeeds 0 = true := by
  obtain ⟨f₁, hf₁, hfile, -⟩ := eraseLoop_spec
    (min f.lastPage (npages - 1) + 1 - f.firstPage) f.firstPage f (eraseCount_le f)
  have hunfold : f.cmdErase =
      (f₁.persistPages f.firstPage f.lastPage).bind
        fun f => some { f with status := f.status ||| stDone } := by
    simp only [cmdErase, firstPage, lastPage, Option.bind_eq_bind] at hf₁ ⊢
    rw [hf₁, Option.bind_some]
  rw [hunfold, ← hfile, ← persistPages_eq_none_iff]
  cases f₁.persistPages f.firstPage f.lastPage <;> simp

theorem cmdErase_kept {f f' : RotFlash} (h : f.cmdErase = some f') {p : Nat}
    (hp : ¬ (p < npages ∧ f.firstPage ≤ p ∧ p ≤ f.lastPage)) : PageKept f f' p := by
  obtain ⟨f₁, hf₁, -, hkept⟩ := eraseLoop_spec
    (min f.lastPage (npages - 1) + 1 - f.firstPage) f.firstPage f (eraseCount_le f)
  simp only [cmdErase, Option.bind_eq_bind, Option.bind_eq_some_iff] at h
  obtain ⟨f₁', hf₁', f₂, hf₂, hf'⟩ := h
  obtain rfl : f₁ = f₁' := Option.some.inj (hf₁.symm.trans hf₁')
  obtain ⟨hm, he⟩ := persistPages_same hf₂
  obtain rfl := Option.some.inj hf'
  have hout : ¬ (f.firstPage ≤ p ∧
      p < f.firstPage + (min f.lastPage (npages - 1) + 1 - f.firstPage)) := by
    have hn : npages = 2048 := rfl
    omega
  exact (hkept p hout).trans (pageKept_of_eq hm he p)

/-! ## Program -/

theorem programLoop_spec (buf : Bytes page) (base : Nat) (hbase : base + page ≤ size)
    (is : List Nat) (his : ∀ i ∈ is, i < page) (mem : Bytes size) :
    ∃ mem', is.foldlM (fun mem i => mem.clearBits (base + i) (buf.get i)) mem = some mem' ∧
      ∀ j, j < base ∨ base + page ≤ j → mem'.get j = mem.get j := by
  induction is generalizing mem with
  | nil => exact ⟨mem, rfl, fun _ _ => rfl⟩
  | cons i is ih =>
      have hi : i < page := his i (List.mem_cons_self ..)
      have hlt : base + i < size := by omega
      obtain ⟨mem', hmem', hkept⟩ := ih (fun j hj => his j (List.mem_cons_of_mem _ hj))
        (mem.splice (base + i) 1 fun _ => mem.get (base + i) &&& buf.get i)
      refine ⟨mem', ?_, fun j hj => ?_⟩
      · simp only [List.foldlM_cons, Bytes.clearBits, if_pos hlt, Option.bind_eq_bind,
          Option.bind_some]
        exact hmem'
      · rw [hkept j hj, Bytes.get_splice_of_not_mem]
        omega

theorem cmdProgram_spec (f : RotFlash) :
    ∃ f', f.cmdProgram = some f' ∧
      ∀ p, ¬ (p < npages ∧ p = f.firstPage) → PageKept f f' p := by
  by_cases hp : f.firstPage < npages
  · have hbase : f.firstPage * page + page ≤ size := by
      simp only [npages, size, page] at hp ⊢
      omega
    obtain ⟨mem, hmem, hmemKept⟩ := programLoop_spec f.pageBuf (f.firstPage * page) hbase
      (List.range page) (fun i hi => List.mem_range.mp hi) f.mem
    obtain ⟨f₁, hf₁, hmem₁, -, herased⟩ :=
      setErased_spec { f with mem := mem } false hp
    -- A one-page slice that starts inside the array is never inverted.
    have hslice : f₁.persistPages f.firstPage f.firstPage ≠ none := fun hnone => by
      have hinv := ((persistPages_eq_none_iff _ _ _).mp hnone).1
      simp only [SliceInverted] at hinv
      omega
    obtain ⟨f₂, hf₂⟩ := Option.ne_none_iff_exists'.mp hslice
    obtain ⟨hm₂, he₂⟩ := persistPages_same hf₂
    have hcmd : f.cmdProgram = some { f₂ with
        pageBuf := Bytes.const page erasedByte
        status := f₂.status ||| stDone } := by
      simp only [firstPage] at hp hmem hf₁ hf₂
      simp only [cmdProgram, if_pos hp, Option.bind_eq_bind, hmem, Option.bind_some, hf₁, hf₂]
    refine ⟨_, hcmd, fun p hne => ?_⟩
    have hpage : PageKept f f₁ p → PageKept f { f₂ with
        pageBuf := Bytes.const page erasedByte
        status := f₂.status ||| stDone } p := fun h => h.trans (pageKept_of_eq hm₂ he₂ p)
    refine hpage ⟨fun i hi => ?_, ?_⟩
    · rw [hmem₁]
      by_cases hlt : p < npages
      · refine hmemKept _ ?_
        simp only [page] at hi ⊢
        omega
      · have hout : ¬ p * page + i < size := by
          simp only [npages, size, page] at hlt ⊢
          omega
        simp only [Bytes.get, dif_neg hout]
    · by_cases hlt : p < npages
      · exact herased p (by omega)
      · have hidx : ¬ p / 8 < npages / 8 := by
          simp only [npages, size, page] at hlt ⊢
          omega
        simp only [isErased, if_neg hidx]
  · refine ⟨{ f with
        pageBuf := Bytes.const page erasedByte
        status := f.status ||| stDone }, ?_, fun p _ => pageKept_of_eq rfl rfl p⟩
    simp only [firstPage] at hp
    simp only [cmdProgram, if_neg hp, Option.bind_eq_bind, Option.bind_some]

/-! ## Write, BlankCheck and ReadSingleWord -/

/-- A command returns and changes no page. -/
def Quiet (f : RotFlash) (r : Option RotFlash) : Prop :=
  ∃ f', r = some f' ∧ f'.mem = f.mem ∧ f'.erased = f.erased

theorem cmdWrite_quiet (f : RotFlash) : Quiet f f.cmdWrite := by
  have hrow : f.starta.toNat % wordsPerPage < 32 := Nat.mod_lt _ (by decide)
  have hstore : ∀ i : Fin 8, i.val < 4 →
      f.starta.toNat % wordsPerPage * word + i * 4 + 4 ≤ page := by
    intro i hi
    simp only [word, page]
    omega
  obtain ⟨buf, hbuf⟩ : ∃ buf, [0, 1, 2, 3].foldlM (fun buf (i : Fin 8) =>
      buf.store 4 (f.starta.toNat % wordsPerPage * word + i * 4) (f.dataw i)) f.pageBuf =
        some buf := by
    simp only [List.foldlM_cons, List.foldlM_nil, Bytes.store, if_pos (hstore 0 (by decide)),
      if_pos (hstore 1 (by decide)), if_pos (hstore 2 (by decide)),
      if_pos (hstore 3 (by decide)), Option.bind_eq_bind, Option.bind_some]
    exact ⟨_, rfl⟩
  have hcmd : f.cmdWrite = some { f with pageBuf := buf, status := f.status ||| stDone } := by
    simp only [cmdWrite, hbuf, Option.bind_eq_bind, Option.bind_some]
  exact ⟨_, hcmd, rfl, rfl⟩

theorem isErased_isSome (f : RotFlash) {p : Nat} (hp : p < npages) :
    ∃ b, f.isErased p = some b := by
  have hidx : p / 8 < npages / 8 := by
    simp only [npages, size, page] at hp ⊢
    omega
  exact ⟨_, if_pos hidx⟩

theorem blankLoop_quiet (f : RotFlash) (w : Word) : Quiet f (f.blankLoop w) := by
  induction w using blankLoop.induct f with
  | case1 w hle base hpast =>
      rw [blankLoop, if_pos hle, if_pos hpast]
      exact ⟨_, rfl, rfl, rfl⟩
  | case2 w hle base hpast hnone =>
      have hpage : base / page < npages := by
        simp only [npages, size, page, word] at hpast ⊢
        omega
      obtain ⟨b, hb⟩ := f.isErased_isSome hpage
      rw [hb] at hnone
      cases hnone
  | case3 w hle base hpast hfalse =>
      rw [blankLoop, if_pos hle, if_neg hpast]
      simp only [base] at hfalse
      simp only [hfalse]
      exact ⟨_, rfl, rfl, rfl⟩
  | case4 w hle base hpast htrue ih =>
      rw [blankLoop, if_pos hle, if_neg hpast]
      simp only [base] at htrue
      simp only [htrue]
      exact ih
  | case5 w hle =>
      rw [blankLoop, if_neg hle]
      exact ⟨_, rfl, rfl, rfl⟩

theorem cmdRead_quiet (f : RotFlash) : Quiet f f.cmdRead := by
  by_cases hp : f.firstPage < npages
  · obtain ⟨b, hb⟩ := f.isErased_isSome hp
    have hnp : ¬ f.starta.toNat * word / page ≥ npages := by
      simp only [firstPage] at hp
      omega
    simp only [firstPage] at hb
    cases b with
    -- an erased page reads as an ECC error
    | true =>
        have hcmd : f.cmdRead = some { f with status := f.status ||| (stDone ||| stEcc) } := by
          simp only [cmdRead, if_neg hnp, hb, Option.bind_eq_bind, Option.bind_some, if_true]
        exact ⟨_, hcmd, rfl, rfl⟩
    | false =>
        -- the four words are inside the page, and so inside the array
        have hload : ∀ k : Fin 8, k.val < 4 → f.starta.toNat * word + k * 4 + 4 ≤ size := by
          intro k hk
          simp only [ge_iff_le, npages, size, page, word] at hnp ⊢
          omega
        obtain ⟨dataw, hdataw⟩ : ∃ dataw, [0, 1, 2, 3].foldlM (fun dataw (k : Fin 8) => do
            let v ← f.mem.load 4 (f.starta.toNat * word + k * 4)
            some (Function.update dataw k v)) f.dataw = some dataw := by
          simp only [List.foldlM_cons, List.foldlM_nil, Bytes.load,
            if_pos (hload 0 (by decide)), if_pos (hload 1 (by decide)),
            if_pos (hload 2 (by decide)), if_pos (hload 3 (by decide)), Option.bind_eq_bind,
            Option.bind_some]
          exact ⟨_, rfl⟩
        have hcmd : f.cmdRead =
            some { f with dataw := dataw, status := f.status ||| stDone } := by
          simp only [Option.bind_eq_bind] at hdataw
          simp only [cmdRead, if_neg hnp, hb, Option.bind_eq_bind, Option.bind_some,
            Bool.false_eq_true, if_false, hdataw]
        exact ⟨_, hcmd, rfl, rfl⟩
  · have hnp : f.starta.toNat * word / page ≥ npages := by
      simp only [firstPage] at hp
      omega
    have hcmd : f.cmdRead = some { f with status := f.status ||| (stDone ||| stEcc) } :=
      if_pos hnp
    exact ⟨_, hcmd, rfl, rfl⟩

/-! ## Sequences of register writes -/

/-- One register write, given as offset and value. -/
def regStep (f : RotFlash) (w : Word × Word) : Option RotFlash := f.regWrite w.1 w.2

/-- Page `p` lies in the range that the register write `w` asks to change. -/
def Requested (f : RotFlash) (w : Word × Word) (p : Nat) : Prop :=
  w.1 = regCmd ∧
    (w.2 &&& 0xF = cmdCodeErase ∧ f.firstPage ≤ p ∧ p ≤ f.lastPage ∨
      w.2 &&& 0xF = cmdCodeProgram ∧ p = f.firstPage)

/-- The register write returns, and every page it changes lies in the array and in the
requested range. -/
def WriteGood (f : RotFlash) (w : Word × Word) : Prop :=
  ∃ f', f.regStep w = some f' ∧ ∀ p, PageKept f f' p ∨ p < npages ∧ f.Requested w p

/-- An EraseRange, with a data file whose next seek succeeds, whose first page lies past
the page after its last one or past the end of the array. -/
def EraseOvershoots (f : RotFlash) (w : Word × Word) : Prop :=
  w.1 = regCmd ∧ w.2 &&& 0xF = cmdCodeErase ∧ SliceInverted f.firstPage f.lastPage ∧
    ∃ file, f.file = some file ∧ file.succeeds 0 = true

theorem writeGood_of_quiet {f : RotFlash} {w : Word × Word} (h : Quiet f (f.regStep w)) :
    WriteGood f w := by
  obtain ⟨f', hf', hm, he⟩ := h
  exact ⟨f', hf', fun p => Or.inl (pageKept_of_eq hm he p)⟩

theorem doCmd_erase (f : RotFlash) {cmd : Word} (h : cmd &&& 0xF = cmdCodeErase) :
    f.doCmd cmd = f.cmdErase := if_pos h

theorem doCmd_program (f : RotFlash) {cmd : Word} (h : cmd &&& 0xF = cmdCodeProgram) :
    f.doCmd cmd = f.cmdProgram := by
  simp only [doCmd, h]
  rfl

theorem doCmd_quiet (f : RotFlash) {cmd : Word} (he : cmd &&& 0xF ≠ cmdCodeErase)
    (hp : cmd &&& 0xF ≠ cmdCodeProgram) : Quiet f (f.doCmd cmd) := by
  simp only [doCmd, if_neg he, if_neg hp]
  split
  · exact f.cmdWrite_quiet
  · split
    · exact f.blankLoop_quiet f.starta
    · split
      · exact f.cmdRead_quiet
      · exact ⟨_, rfl, rfl, rfl⟩

theorem regWrite_quiet (f : RotFlash) {off : Word} (val : Word) (h : off ≠ regCmd) :
    Quiet f (f.regWrite off val) := by
  simp only [regWrite, if_neg h]
  split
  · exact ⟨_, rfl, rfl, rfl⟩
  · split
    · exact ⟨_, rfl, rfl, rfl⟩
    · split
      · exact ⟨_, rfl, rfl, rfl⟩
      · split
        · exact ⟨_, rfl, rfl, rfl⟩
        · split
          · exact ⟨_, rfl, rfl, rfl⟩
          · exact ⟨_, rfl, rfl, rfl⟩

/-- One register write is good unless it is an erase that overshoots. -/
theorem writeGood_iff (f : RotFlash) (w : Word × Word) :
    WriteGood f w ↔ ¬ EraseOvershoots f w := by
  obtain ⟨off, val⟩ := w
  by_cases hcmd : off = regCmd
  · subst hcmd
    have hstep : f.regStep (regCmd, val) = f.doCmd val := rfl
    -- erase and program change pages, all other commands are quiet
    by_cases herase : val &&& 0xF = cmdCodeErase
    · rw [doCmd_erase f herase] at hstep
      constructor
      · rintro ⟨f', hf', -⟩ ⟨-, -, hinv⟩
        rw [hstep, (cmdErase_eq_none_iff f).mpr hinv] at hf'
        cases hf'
      · intro hok
        have hsome : f.cmdErase ≠ none := fun hnone =>
          hok ⟨rfl, herase, (cmdErase_eq_none_iff f).mp hnone⟩
        obtain ⟨f', hf'⟩ := Option.ne_none_iff_exists'.mp hsome
        refine ⟨f', hstep.trans hf', fun p => ?_⟩
        by_cases hp : p < npages ∧ f.firstPage ≤ p ∧ p ≤ f.lastPage
        · exact Or.inr ⟨hp.1, rfl, Or.inl ⟨herase, hp.2⟩⟩
        · exact Or.inl (cmdErase_kept hf' hp)
    · have hok : ¬ EraseOvershoots f (regCmd, val) := fun h => herase h.2.1
      refine iff_of_true ?_ hok
      by_cases hprog : val &&& 0xF = cmdCodeProgram
      · obtain ⟨f', hf', hkept⟩ := f.cmdProgram_spec
        refine ⟨f', by rw [hstep, doCmd_program f hprog, hf'], fun p => ?_⟩
        by_cases hp : p < npages ∧ p = f.firstPage
        · exact Or.inr ⟨hp.1, rfl, Or.inr ⟨hprog, hp.2⟩⟩
        · exact Or.inl (hkept p hp)
      · exact writeGood_of_quiet (by rw [hstep]; exact f.doCmd_quiet herase hprog)
  · exact iff_of_true (writeGood_of_quiet (f.regWrite_quiet val hcmd)) fun h => hcmd h.1

/-- A register write returns unless it is an erase that overshoots. -/
theorem isSome_regWrite_iff (f : RotFlash) (w : Word × Word) :
    (f.regWrite w.1 w.2).isSome ↔ ¬ EraseOvershoots f w := by
  constructor
  · rintro hsome ⟨hcmd, herase, hinv⟩
    rw [hcmd, show f.regWrite regCmd w.2 = f.doCmd w.2 from rfl, doCmd_erase f herase,
      (cmdErase_eq_none_iff f).mpr hinv] at hsome
    cases hsome
  · intro hok
    obtain ⟨f', hf', -⟩ := (writeGood_iff f w).mpr hok
    exact Option.isSome_iff_exists.mpr ⟨f', hf'⟩

/-- Along any sequence of register writes, every write returns and changes only requested
pages of the array if and only if no erase along it overshoots. -/
theorem commandsGood_iff (f : RotFlash) (ws : List (Word × Word)) :
    Runs.Along regStep WriteGood ws f ↔
      Runs.Along regStep (fun f w => ¬ EraseOvershoots f w) ws f :=
  Runs.along_iff (I := fun _ => True) (fun _ _ _ _ _ _ => trivial)
    (fun f w _ => writeGood_iff f w) ws f trivial

/-- A freshly erased flash whose data file accepts every operation. -/
def blankWithFile : RotFlash where
  mem := Bytes.const _ erasedByte
  erased := Bytes.const _ 0xFF
  pageBuf := Bytes.const _ erasedByte
  starta := 0
  stopa := 0
  dataw := fun _ => 0
  status := 0
  file := some ⟨size, fun _ => erasedByte, fun _ => true⟩
  bitsetFile := ⟨npages / 8, fun _ => 0xFF, fun _ => true⟩
  unknownCmdsLogged := 0
  bitsetWriteFailed := false

/-- STARTA = 64 (page 2), STOPA = 0 (page 0), CMD = EraseRange: the slice to persist is
`mem[1024..512]`. -/
theorem erase_reversed_panics :
    ¬ ∀ (f : RotFlash) (ws : List (Word × Word)), Runs.Along regStep WriteGood ws f := by
  intro h
  have hrun := h blankWithFile [(regStarta, 64), (regStopa, 0), (regCmd, cmdCodeErase)]
  have h₁ : blankWithFile.regStep (regStarta, 64) = some { blankWithFile with starta := 64 } :=
    rfl
  have h₂ : regStep { blankWithFile with starta := 64 } (regStopa, 0) =
      some { blankWithFile with starta := 64, stopa := 0 } := rfl
  obtain ⟨f', hf', -⟩ := ((hrun.2 _ h₁).2 _ h₂).1
  have hnone : regStep { blankWithFile with starta := 64, stopa := 0 }
      (regCmd, cmdCodeErase) = none := rfl
  rw [hnone] at hf'
  cases hf'

end RotFlash

end SpEmu
