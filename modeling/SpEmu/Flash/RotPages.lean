import SpEmu.Flash.RotTotal

/-!
# Programming a page of the LPC55 flash

A page is erased, its 32 words are loaded into the page buffer one Write at a time and in any
order, and Program commits the buffer. `page_programmed` follows the register writes of the
sequence: the page reads back the data on both paths, and no other page changes. It also says what
a blank check reports on any state.

The data of a page is `Bytes page`; `dataWord` is what the driver puts into a DATAW register.
-/

set_option autoImplicit false

namespace SpEmu

open ByteMem

namespace RotFlash

variable {f f' : RotFlash}

/-! ## Pages and marks -/

/-- Page `p` is marked erased and reads all ones. -/
def Blank (f : RotFlash) (p : Nat) : Prop :=
  (∀ i, i < page → f.mem.get (p * page + i) = erasedByte) ∧ f.isErased p = some true

theorem blank_of_pageKept {p : Nat} (hk : PageKept f f' p) (h : f.Blank p) : f'.Blank p :=
  ⟨fun i hi => (hk.1 i hi).trans (h.1 i hi), hk.2.trans h.2⟩

theorem bit_and_ne_zero_of_or (x : Byte) (a : Nat) (ha : a < 8) :
    (x ||| ((1 : Byte) <<< a)) &&& ((1 : Byte) <<< a) ≠ 0 := by
  intro h
  have hbit := congrArg (fun w => w.getLsbD a) h
  simp only [BitVec.getLsbD_and, BitVec.getLsbD_or, getLsbD_bit ha, decide_true, Bool.or_true,
    Bool.true_and] at hbit
  rw [show (0 : Byte).getLsbD a = false from BitVec.getLsbD_zero] at hbit
  cases hbit

theorem clear_bit_and_self (x : Byte) (a : Nat) :
    (x &&& ~~~((1 : Byte) <<< a)) &&& ((1 : Byte) <<< a) = 0 := by
  rw [BitVec.and_assoc, BitVec.and_comm (~~~_), BitVec.and_not_self]
  exact BitVec.and_zero

/-- A page carries the mark that was set last. -/
theorem setErased_self {p : Nat} {e : Bool} (h : f.setErased p e = some f') :
    f'.isErased p = some e := by
  simp only [setErased] at h
  split at h
  · next hidx =>
      obtain rfl := Option.some.inj h
      simp only [isErased, if_pos hidx]
      rw [Bytes.get_splice _ _ _ _ hidx, if_pos ⟨Nat.le_refl _, Nat.lt_succ_self _⟩]
      cases e with
      | true =>
          rw [if_pos rfl, bne_iff_ne.mpr (bit_and_ne_zero_of_or _ _ (Nat.mod_lt _ (by decide)))]
      | false =>
          rw [if_neg (by decide), clear_bit_and_self]
          rfl
  · cases h

/-- Every page that the erase loop goes over is blank afterwards. -/
theorem eraseLoop_blank {count first : Nat} (hcount : first + count ≤ npages)
    (h : eraseLoop count first f = some f') {q : Nat} (hq : first ≤ q ∧ q < first + count) :
    f'.Blank q := by
  induction count generalizing first f with
  | zero => omega
  | succ count ih =>
      simp only [eraseLoop, Option.bind_eq_bind, Option.bind_eq_some_iff] at h
      obtain ⟨mem, hmem, f₁, hf₁, hrest⟩ := h
      by_cases hfirst : q = first
      · subst hfirst
        -- the later iterations leave the page that this one erased
        obtain ⟨f₂, hf₂, -, hkept⟩ := eraseLoop_spec count (q + 1) f₁ (by omega)
        obtain rfl := Option.some.inj (hf₂.symm.trans hrest)
        obtain ⟨f₃, hf₃, hmem₃, -⟩ :=
          setErased_spec { f with mem := mem } true (show q < npages by omega)
        obtain rfl := Option.some.inj (hf₃.symm.trans hf₁)
        refine blank_of_pageKept (hkept q (by omega)) ⟨fun i hi => ?_, setErased_self hf₁⟩
        rw [hmem₃]
        exact Bytes.get_of_fill_mem hmem (by omega) (by omega)
      · exact ih (by omega) hrest (by omega)

theorem cmdErase_blank (h : f.cmdErase = some f') {p : Nat}
    (hp : p < npages ∧ f.firstPage ≤ p ∧ p ≤ f.lastPage) : f'.Blank p := by
  have hn : npages = 2048 := rfl
  have hpages : f.starta.toNat * word / page = f.firstPage := rfl
  have hlast : f.stopa.toNat * word / page = f.lastPage := rfl
  simp only [cmdErase, Option.bind_eq_bind, Option.bind_eq_some_iff, hpages, hlast] at h
  obtain ⟨f₁, hf₁, f₂, hf₂, hf'⟩ := h
  obtain ⟨hm, he⟩ := persistPages_same hf₂
  obtain rfl := Option.some.inj hf'
  refine blank_of_pageKept (pageKept_of_eq hm he p) (eraseLoop_blank ?_ hf₁ ⟨hp.2.1, ?_⟩)
  · omega
  · omega

/-! ## Program -/

/-- The program loop clears bits of the page and of nothing else. -/
theorem programLoop_get {buf : Bytes page} {base : Nat} {is : List Nat} {mem mem' : Bytes size}
    (h : is.foldlM (fun mem i => mem.clearBits (base + i) (buf.get i)) mem = some mem')
    (hnodup : is.Nodup) {j : Nat} :
    mem'.get (base + j) = if j ∈ is then mem.get (base + j) &&& buf.get j
      else mem.get (base + j) := by
  induction is generalizing mem with
  | nil =>
      obtain rfl := Option.some.inj h
      rfl
  | cons i is ih =>
      simp only [List.foldlM_cons, Bytes.clearBits, Option.bind_eq_bind,
        Option.bind_eq_some_iff, Option.ite_none_right_eq_some, Option.some.injEq] at h
      obtain ⟨mem₁, ⟨hlt, rfl⟩, hrest⟩ := h
      rw [List.nodup_cons] at hnodup
      rw [ih hrest hnodup.2]
      simp only [List.mem_cons]
      by_cases hj : j = i
      · subst hj
        rw [if_neg hnodup.1, if_pos (Or.inl rfl), Bytes.get_splice _ _ _ _ hlt,
          if_pos ⟨Nat.le_refl _, Nat.lt_succ_self _⟩]
      · rw [Bytes.get_splice_of_not_mem _ _ (by omega)]
        simp only [hj, false_or]

theorem cmdProgram_page (hp : f.firstPage < npages) :
    ∃ f', f.cmdProgram = some f' ∧ f'.isErased f.firstPage = some false ∧
      (∀ i, i < page → f'.mem.get (f.firstPage * page + i) =
        f.mem.get (f.firstPage * page + i) &&& f.pageBuf.get i) ∧
      ∀ q, q ≠ f.firstPage → PageKept f f' q := by
  obtain ⟨f', hf', hkept⟩ := f.cmdProgram_spec
  have hcmd := hf'
  have hpage := hp
  rw [firstPage] at hpage
  simp only [cmdProgram, if_pos hpage, Option.bind_eq_bind] at hcmd
  obtain ⟨mem, hmem, hcmd⟩ := Option.bind_eq_some_iff.mp hcmd
  obtain ⟨f₁, hf₁, hcmd⟩ := Option.bind_eq_some_iff.mp hcmd
  obtain ⟨f₂, hf₂, hend⟩ := Option.bind_eq_some_iff.mp hcmd
  obtain ⟨hm, he⟩ := persistPages_same hf₂
  obtain ⟨f₃, hf₃, hmem₃, -⟩ := setErased_spec { f with mem := mem } false hp
  obtain rfl := Option.some.inj (hf₃.symm.trans hf₁)
  obtain rfl := Option.some.inj hend
  refine ⟨_, hf', ?_, fun i hi => ?_, fun q hq => hkept q fun hin => hq hin.2⟩
  · have hmark := setErased_self hf₁
    simp only [isErased] at hmark ⊢
    rw [he]
    exact hmark
  · show f₂.mem.get _ = _
    rw [hm, hmem₃]
    exact (programLoop_get hmem List.nodup_range).trans (if_pos (List.mem_range.mpr hi))

/-! ## Write and ReadSingleWord -/

/-- Four words stored one after the other. -/
theorem foldlM_store {n base : Nat} {v : Fin 8 → Word} {ks : List (Fin 8)} {m m' : Bytes n}
    (h : ks.foldlM (fun m k => m.store 4 (base + k * 4) (v k)) m = some m')
    (hnodup : ks.Nodup) :
    (∀ k ∈ ks, ∀ j, j < 4 → m'.get (base + k * 4 + j) = byteOf (v k) j) ∧
      ∀ i, (∀ k ∈ ks, i < base + k * 4 ∨ base + k * 4 + 4 ≤ i) → m'.get i = m.get i := by
  induction ks generalizing m with
  | nil =>
      obtain rfl := Option.some.inj h
      exact ⟨nofun, fun _ _ => rfl⟩
  | cons k ks ih =>
      rw [List.foldlM_cons] at h
      obtain ⟨m₁, hm₁, hrest⟩ := Option.bind_eq_some_iff.mp h
      rw [List.nodup_cons] at hnodup
      obtain ⟨hin, hout⟩ := ih hrest hnodup.2
      refine ⟨fun l hl j hj => ?_, fun i hi => ?_⟩
      · rcases List.mem_cons.mp hl with rfl | hl
        · -- the later words go elsewhere
          rw [hout _ fun l' hl' => ?_]
          · exact Bytes.get_of_store_mem hm₁ hj
          · have hne : l.val ≠ l'.val := fun heq => hnodup.1 (Fin.ext heq ▸ hl')
            omega
        · exact hin l hl j hj
      · rw [hout i fun l hl => hi l (List.mem_cons_of_mem _ hl)]
        exact Bytes.get_of_store hm₁ (hi k List.mem_cons_self)

/-- Four words loaded one after the other. -/
theorem foldlM_load {n base : Nat} {m : Bytes n} {ks : List (Fin 8)} (dw : Fin 8 → Word)
    (hfit : ∀ k ∈ ks, base + k * 4 + 4 ≤ n) :
    ∃ dw', ks.foldlM (fun dw (k : Fin 8) => do
        let v ← m.load 4 (base + k * 4)
        some (Function.update dw k v)) dw = some dw' ∧
      (∀ k ∈ ks, dw' k = leWord 4 fun j => m.get (base + k * 4 + j)) ∧
      ∀ k, k ∉ ks → dw' k = dw k := by
  induction ks generalizing dw with
  | nil => exact ⟨dw, rfl, fun l hl => absurd hl List.not_mem_nil, fun _ _ => rfl⟩
  | cons k ks ih =>
      obtain ⟨dw', hdw', hget, hrest⟩ := ih
        (Function.update dw k (leWord 4 fun j => m.get (base + k * 4 + j)))
        fun l hl => hfit l (List.mem_cons_of_mem _ hl)
      refine ⟨dw', ?_, fun l hl => ?_, fun l hl => ?_⟩
      · rw [List.foldlM_cons, Bytes.load, if_pos (hfit k List.mem_cons_self)]
        exact hdw'
      · -- a word that is loaded twice is loaded from the same place
        by_cases hin : l ∈ ks
        · exact hget l hin
        · obtain rfl : l = k := (List.mem_cons.mp hl).resolve_right hin
          rw [hrest l hin, Function.update_self]
      · rw [List.mem_cons, not_or] at hl
        rw [hrest l hl.2, Function.update_of_ne hl.1]

/-- The row of the page buffer that a Write loads. -/
def row (f : RotFlash) : Nat := f.starta.toNat % wordsPerPage

theorem cmdWrite_row (f : RotFlash) :
    ∃ f', f.cmdWrite = some f' ∧ f'.mem = f.mem ∧ f'.erased = f.erased ∧
      (∀ k : Fin 8, k.val < 4 → ∀ j, j < 4 →
        f'.pageBuf.get (f.row * word + k * 4 + j) = byteOf (f.dataw k) j) ∧
      ∀ i, i / word ≠ f.row → f'.pageBuf.get i = f.pageBuf.get i := by
  obtain ⟨f', hf', hmem, hers⟩ := f.cmdWrite_quiet
  have hcmd := hf'
  simp only [cmdWrite, Option.bind_eq_bind, Option.bind_eq_some_iff] at hcmd
  obtain ⟨buf, hbuf, hend⟩ := hcmd
  obtain rfl := Option.some.inj hend
  obtain ⟨hin, hout⟩ := foldlM_store hbuf (by decide)
  refine ⟨_, hf', hmem, hers, fun k hk j hj => hin k ?_ j hj, fun i hi => hout i fun k hk => ?_⟩
  · revert k
    decide
  · have hk4 : k.val < 4 := by
      revert k
      decide
    rw [row] at hi
    simp only [word] at hi ⊢
    omega

theorem cmdRead_programmed (hp : f.firstPage < npages)
    (he : f.isErased f.firstPage = some false) :
    ∃ dw, f.cmdRead = some { f with dataw := dw, status := f.status ||| stDone } ∧
      ∀ k : Fin 8, k.val < 4 →
        dw k = leWord 4 fun j => f.mem.get (f.starta.toNat * word + k * 4 + j) := by
  have hfit : ∀ k ∈ ([0, 1, 2, 3] : List (Fin 8)),
      f.starta.toNat * word + k * 4 + 4 ≤ size := by
    intro k hk
    have hk4 : k.val < 4 := by
      revert k
      decide
    simp only [firstPage, npages, size, page, word] at hp ⊢
    omega
  obtain ⟨dw, hdw, hget, -⟩ := foldlM_load (m := f.mem) f.dataw hfit
  refine ⟨dw, ?_, fun k hk => ?_⟩
  · rw [firstPage] at hp he
    simp only [Option.bind_eq_bind] at hdw
    simp only [cmdRead, if_neg (Nat.not_le.mpr hp), he, Option.bind_eq_bind, Option.bind_some,
      Bool.false_eq_true, if_false, hdw]
  · refine hget k ?_
    revert k
    decide

/-! ## BlankCheck -/

/-- Word `w` lies in the scan from `a` on: in the range up to STOPA, and in the array. -/
def InScan (f : RotFlash) (a w : Word) : Prop :=
  a ≤ w ∧ w ≤ f.stopa ∧ w.toNat * word + word ≤ size

/-- Word `w` lies in a programmed page. -/
def ProgrammedWord (f : RotFlash) (w : Word) : Prop :=
  f.isErased (w.toNat * word / page) = some false

/-- The first programmed word of the scan fails it; without one it passes. -/
def BlankChecked (f : RotFlash) (a : Word) (r : Option RotFlash) : Prop :=
  (∃ w, f.InScan a w ∧ f.ProgrammedWord w ∧
      (∀ v, f.InScan a v → f.ProgrammedWord v → w ≤ v) ∧
      r = some { f with
        dataw := Function.update f.dataw 0 w
        status := f.status ||| (stDone ||| stFail) }) ∨
    (∀ w, f.InScan a w → ¬ f.ProgrammedWord w) ∧
      r = some { f with status := f.status ||| stDone }

theorem blankLoop_checked (f : RotFlash) (a : Word) : f.BlankChecked a (f.blankLoop a) := by
  induction a using blankLoop.induct f with
  | case1 w hle base hpast =>
      rw [blankLoop, if_pos hle, if_pos hpast]
      refine Or.inr ⟨fun v hv _ => ?_, rfl⟩
      have hwv := BitVec.le_def.mp hv.1
      have hend := hv.2.2
      simp only [base] at hpast
      simp only [word, size] at hpast hend
      omega
  | case2 w hle base hpast hnone =>
      have hpage : base / page < npages := by
        simp only [npages, size, page, word] at hpast ⊢
        omega
      obtain ⟨b, hb⟩ := f.isErased_isSome hpage
      rw [hb] at hnone
      cases hnone
  | case3 w hle base hpast hfalse =>
      rw [blankLoop, if_pos hle, if_neg hpast]
      simp only [base] at hpast hfalse
      simp only [hfalse]
      exact Or.inl ⟨w, ⟨BitVec.le_refl w, hle, Nat.not_lt.mp hpast⟩, hfalse,
        fun v hv _ => hv.1, rfl⟩
  | case4 w hle base hpast htrue ih =>
      rw [blankLoop, if_pos hle, if_neg hpast]
      simp only [base] at hpast htrue
      simp only [htrue]
      -- word `w` is blank, so the scans from `w` and from `w + 1` see the same programmed words
      have hsucc : (w + 1).toNat = w.toNat + 1 := by
        simp only [word, size] at hpast
        rw [BitVec.toNat_add, show BitVec.toNat (1 : Word) = 1 from rfl]
        omega
      have hscan : ∀ v, f.ProgrammedWord v → (f.InScan w v ↔ f.InScan (w + 1) v) := by
        intro v hv
        have hne : v ≠ w := by
          rintro rfl
          have habs := hv.symm.trans htrue
          cases habs
        have hnat : v.toNat ≠ w.toNat := fun heq => hne (BitVec.eq_of_toNat_eq heq)
        simp only [InScan, BitVec.le_def, hsucc]
        omega
      rcases ih with ⟨v, hv, hprog, hleast, hr⟩ | ⟨hnone, hr⟩
      · exact Or.inl ⟨v, (hscan v hprog).mpr hv, hprog,
          fun u hu hup => hleast u ((hscan u hup).mp hu) hup, hr⟩
      · exact Or.inr ⟨fun v hv hprog => hnone v ((hscan v hprog).mp hv) hprog, hr⟩
  | case5 w hle =>
      rw [blankLoop, if_neg hle]
      exact Or.inr ⟨fun v hv _ => hle (BitVec.le_trans hv.1 hv.2.1), rfl⟩

/-! ## The page write -/

/-- Word `k` of row `r` of a page of data, as a DATAW register takes it. -/
def dataWord (data : Bytes page) (r k : Nat) : Word :=
  leWord 4 fun j => data.get (r * word + k * 4 + j)

/-- EraseRange over the words `first` to `last`. -/
def eraseWrites (first last : Word) : List (Word × Word) :=
  [(regStarta, first), (regStopa, last), (regCmd, cmdCodeErase)]

/-- One Write: the four words of the row of `r`. -/
def rowWrites (data : Bytes page) (r : Word) : List (Word × Word) :=
  let d := dataWord data (r.toNat % wordsPerPage)
  [(regStarta, r), (regDataw, d 0), (regDataw + 4, d 1), (regDataw + 8, d 2),
    (regDataw + 12, d 3), (regCmd, cmdCodeWrite)]

/-- Program the page of the word `w`. -/
def programWrites (w : Word) : List (Word × Word) := [(regStarta, w), (regCmd, cmdCodeProgram)]

/-- Read the word `w` back. -/
def readWrites (w : Word) : List (Word × Word) := [(regStarta, w), (regCmd, cmdCodeRead)]

/-- The page of a word number. -/
def wordPage (w : Word) : Nat := w.toNat * word / page

/-- A run of register writes. -/
def regRun (f : RotFlash) (ws : List (Word × Word)) : Option RotFlash := Runs.run regStep ws f

theorem regRun_append (f : RotFlash) (ws ws' : List (Word × Word)) :
    f.regRun (ws ++ ws') = (f.regRun ws).bind fun f' => f'.regRun ws' :=
  Runs.run_append ws ws' f

theorem regRun_cons {w : Word × Word} (ws : List (Word × Word)) (h : f.regStep w = some f') :
    f.regRun (w :: ws) = f'.regRun ws := by
  rw [regRun, Runs.run_cons, h]
  rfl

theorem regRun_single (f : RotFlash) (w : Word × Word) : f.regRun [w] = f.regStep w := by
  rw [regRun, Runs.run_cons]
  cases f.regStep w with
  | none => rfl
  | some f' => rfl

theorem regStep_starta (f : RotFlash) (v : Word) :
    f.regStep (regStarta, v) = some { f with starta := v } := rfl

theorem regStep_stopa (f : RotFlash) (v : Word) :
    f.regStep (regStopa, v) = some { f with stopa := v } := rfl

theorem regStep_dataw (f : RotFlash) (v : Word) {off : Word} {k : Fin 8}
    (hk : datawIndex off = some k)
    (hout : off ∉ [regCmd, regStarta, regStopa, regIntClrStatus, regIntSetStatus]) :
    f.regStep (off, v) = some { f with dataw := Function.update f.dataw k v } := by
  simp only [List.mem_cons, List.not_mem_nil, or_false, not_or] at hout
  obtain ⟨h₁, h₂, h₃, h₄, h₅⟩ := hout
  simp only [regStep, regWrite, if_neg h₁, if_neg h₂, if_neg h₃, if_neg h₄, if_neg h₅, hk]

theorem run_erase (f : RotFlash) {p : Nat} {first last : Word} (hp : p < npages)
    (hfirst : wordPage first = p) (hlast : wordPage last = p) :
    ∃ f', f.regRun (eraseWrites first last) = some f' ∧ f'.Blank p ∧
      ∀ q, q ≠ p → PageKept f f' q := by
  let g : RotFlash := { f with starta := first, stopa := last }
  have hg : ∀ q, PageKept f g q := pageKept_of_eq rfl rfl
  have hrange : g.firstPage = p ∧ g.lastPage = p := ⟨hfirst, hlast⟩
  have hsome : g.cmdErase ≠ none := by
    intro hnone
    have hinv := ((cmdErase_eq_none_iff g).mp hnone).1
    rw [SliceInverted, hrange.1, hrange.2] at hinv
    omega
  obtain ⟨f', hf'⟩ := Option.ne_none_iff_exists'.mp hsome
  have hrun : f.regRun (eraseWrites first last) = g.cmdErase := by
    rw [eraseWrites, regRun_cons _ (regStep_starta f first), regRun_cons _ (regStep_stopa _ last),
      regRun_single]
    exact doCmd_erase g (show cmdCodeErase &&& 0xF = cmdCodeErase by decide)
  refine ⟨f', hrun.trans hf', cmdErase_blank hf' ⟨hp, by omega, by omega⟩, fun q hq => ?_⟩
  exact (hg q).trans (cmdErase_kept hf' fun hin => hq (by omega))

/-- One Write loads its row of the page buffer. -/
theorem run_row (f : RotFlash) (data : Bytes page) (r : Word) :
    ∃ f', f.regRun (rowWrites data r) = some f' ∧ f'.mem = f.mem ∧ f'.erased = f.erased ∧
      ∀ i, i < page → f'.pageBuf.get i =
        if i / word = r.toNat % wordsPerPage then data.get i else f.pageBuf.get i := by
  let d := dataWord data (r.toNat % wordsPerPage)
  let g : RotFlash := { f with
    starta := r
    dataw := Function.update (Function.update (Function.update (Function.update f.dataw
      0 (d 0)) 1 (d 1)) 2 (d 2)) 3 (d 3) }
  have hdata : ∀ k : Fin 8, k.val < 4 → g.dataw k = d k.val := by
    intro k hk
    match k, hk with
    | 0, _ => rfl
    | 1, _ => rfl
    | 2, _ => rfl
    | 3, _ => rfl
  obtain ⟨f', hf', hmem, hers, hin, hout⟩ := g.cmdWrite_row
  have hrow : g.row = r.toNat % wordsPerPage := rfl
  have hrun : f.regRun (rowWrites data r) = g.cmdWrite := by
    rw [rowWrites, regRun_cons _ (regStep_starta f r),
      regRun_cons _ (regStep_dataw _ (d 0) (k := 0) (by decide) (by decide)),
      regRun_cons _ (regStep_dataw _ (d 1) (k := 1) (by decide) (by decide)),
      regRun_cons _ (regStep_dataw _ (d 2) (k := 2) (by decide) (by decide)),
      regRun_cons _ (regStep_dataw _ (d 3) (k := 3) (by decide) (by decide)), regRun_single]
    rfl
  refine ⟨f', hrun.trans hf', hmem, hers, fun i hi => ?_⟩
  by_cases hr : i / word = r.toNat % wordsPerPage
  · -- byte `i` is byte `j` of word `k` of the row
    rw [if_pos hr]
    have hsplit : i / 16 * 16 + i % 16 / 4 * 4 + i % 4 = i := by omega
    have hk : i % 16 / 4 < 4 := by omega
    have hbyte := hin ⟨i % 16 / 4, by omega⟩ hk (i % 4) (Nat.mod_lt _ (by decide))
    rw [hrow, ← hr, hdata _ hk] at hbyte
    have hword : byteOf (d (i % 16 / 4)) (i % 4) = data.get i := by
      show byteOf (dataWord data (r.toNat % wordsPerPage) (i % 16 / 4)) (i % 4) = _
      rw [dataWord, byteOf_leWord _ (Nat.le_refl 4) (Nat.mod_lt _ (by decide)), ← hr]
      exact congrArg data.get hsplit
    rw [← hword, ← hbyte]
    exact (congrArg f'.pageBuf.get hsplit).symm
  · rw [if_neg hr]
    exact hout i (hrow ▸ hr)

/-- The Writes, in any order: every row that one of them names holds its data. -/
theorem run_rows (f : RotFlash) (data : Bytes page) (rows : List Word) :
    ∃ f', f.regRun (rows.flatMap (rowWrites data)) = some f' ∧ f'.mem = f.mem ∧
      f'.erased = f.erased ∧
      ∀ i, i < page → (∃ r ∈ rows, r.toNat % wordsPerPage = i / word) ∨
        f.pageBuf.get i = data.get i → f'.pageBuf.get i = data.get i := by
  induction rows generalizing f with
  | nil =>
      refine ⟨f, rfl, rfl, rfl, fun i hi h => ?_⟩
      rcases h with ⟨r, hr, -⟩ | h
      · cases hr
      · exact h
  | cons r rows ih =>
      obtain ⟨f₁, hf₁, hmem₁, hers₁, hbuf₁⟩ := run_row f data r
      obtain ⟨f', hf', hmem', hers', hbuf'⟩ := ih f₁
      refine ⟨f', ?_, hmem'.trans hmem₁, hers'.trans hers₁, fun i hi h => hbuf' i hi ?_⟩
      · rw [List.flatMap_cons, regRun_append, hf₁, Option.bind_some, hf']
      · by_cases hr : i / word = r.toNat % wordsPerPage
        · exact Or.inr (by rw [hbuf₁ i hi, if_pos hr])
        · rcases h with ⟨r', hmem, hrow⟩ | h
          · rcases List.mem_cons.mp hmem with rfl | hmem
            · exact absurd hrow.symm hr
            · exact Or.inl ⟨r', hmem, hrow⟩
          · exact Or.inr (by rw [hbuf₁ i hi, if_neg hr, h])

theorem run_program (f : RotFlash) {p : Nat} {w : Word} (hp : p < npages) (hw : wordPage w = p) :
    ∃ f', f.regRun (programWrites w) = some f' ∧ f'.isErased p = some false ∧
      (∀ i, i < page → f'.mem.get (p * page + i) =
        f.mem.get (p * page + i) &&& f.pageBuf.get i) ∧
      ∀ q, q ≠ p → PageKept f f' q := by
  let g : RotFlash := { f with starta := w }
  have hg : ∀ q, PageKept f g q := pageKept_of_eq rfl rfl
  have hpage : g.firstPage = p := hw
  obtain ⟨f', hf', hmark, hbytes, hkept⟩ := cmdProgram_page (f := g) (by rwa [hpage])
  rw [hpage] at hmark hbytes hkept
  refine ⟨f', ?_, hmark, hbytes, fun q hq => (hg q).trans (hkept q hq)⟩
  rw [programWrites, regRun_cons _ (regStep_starta f w), regRun_single]
  exact (doCmd_program g (show cmdCodeProgram &&& 0xF = cmdCodeProgram by decide)).trans hf'

/-- Page `p` is programmed and reads back `data`: through ReadSingleWord, and through loads of
every width in the page. -/
structure ReadsBack (f : RotFlash) (p : Nat) (data : Bytes page) : Prop where
  mark : f.isErased p = some false
  command : ∀ w, wordPage w = p → ∃ f', f.regRun (readWrites w) = some f' ∧
    f'.status = f.status ||| stDone ∧
    ∀ k, k < 4 → f'.regRead (regDataw + BitVec.ofNat 32 (4 * k)) =
      dataWord data (w.toNat % wordsPerPage) k
  mem8 : ∀ i, i < page → f.readMem8 (BitVec.ofNat 32 (p * page + i)) = some (data.get i)
  mem16 : ∀ i, i + 2 ≤ page → f.readMem16 (BitVec.ofNat 32 (p * page + i)) =
    some ((leWord 2 fun j => data.get (i + j)).setWidth 16)
  mem32 : ∀ i, i + 4 ≤ page → f.readMem32 (BitVec.ofNat 32 (p * page + i)) =
    some (leWord 4 fun j => data.get (i + j))

theorem page_fits {p : Nat} (hp : p < npages) : p * page + page ≤ size := by
  simp only [npages, size, page] at hp ⊢
  omega

theorem toNat_pageByte {p i : Nat} (hp : p < npages) (hi : i ≤ page) :
    (BitVec.ofNat 32 (p * page + i)).toNat = p * page + i := by
  have hfit := page_fits hp
  have hs : size = 1048576 := rfl
  rw [BitVec.toNat_ofNat]
  omega

theorem readBytes_page (f : RotFlash) {p i k : Nat} (hp : p < npages) (hi : i + k ≤ page)
    {data : Bytes page} (hbytes : ∀ j, j < page → f.mem.get (p * page + j) = data.get j) :
    ∃ g, f.readBytes k (BitVec.ofNat 32 (p * page + i)) = some g ∧
      ∀ j, j < k → g j = data.get (i + j) := by
  have hfit := page_fits hp
  have hmin : min (size - (p * page + i)) k = k := by omega
  refine ⟨fun j => if j < k then f.mem.get (p * page + i + j) else erasedByte, ?_,
    fun j hj => ?_⟩
  · rw [readBytes, toNat_pageByte hp (by omega), hmin]
    exact if_pos (by omega)
  · refine (if_pos hj).trans ?_
    rw [Nat.add_assoc]
    exact hbytes (i + j) (by omega)

theorem readsBack_of_bytes {p : Nat} {data : Bytes page} (hp : p < npages)
    (hmark : f.isErased p = some false)
    (hbytes : ∀ j, j < page → f.mem.get (p * page + j) = data.get j) : f.ReadsBack p data where
  mark := hmark
  command := by
    intro w hw
    let g : RotFlash := { f with starta := w }
    have hpage : g.firstPage = p := hw
    obtain ⟨dw, hread, hdw⟩ := cmdRead_programmed (f := g) (by rwa [hpage])
      (by rw [hpage]; exact hmark)
    refine ⟨{ g with dataw := dw, status := g.status ||| stDone }, ?_, rfl, fun k hk => ?_⟩
    · rw [readWrites, regRun_cons _ (regStep_starta f w), regRun_single]
      exact hread
    · have hreg : ∀ k, k < 4 → ∀ h : RotFlash,
          h.regRead (regDataw + BitVec.ofNat 32 (4 * k)) = h.dataw (Fin.ofNat 8 k) := by
        intro k hk h
        match k, hk with
        | 0, _ => rfl
        | 1, _ => rfl
        | 2, _ => rfl
        | 3, _ => rfl
      rw [hreg k hk]
      have hval : (Fin.ofNat 8 k).val = k := Nat.mod_eq_of_lt (by omega)
      have hword := hdw (Fin.ofNat 8 k) (by omega)
      rw [hval] at hword
      refine hword.trans (leWord_congr fun j hj => ?_)
      -- the word's place in the page
      have hw' : w.toNat * 16 / 512 = p := hw
      have hrow : w.toNat * 16 + k * 4 + j = p * 512 + (w.toNat % 32 * 16 + k * 4 + j) := by
        omega
      have hlt : w.toNat % 32 * 16 + k * 4 + j < 512 := by omega
      exact (congrArg f.mem.get hrow).trans (hbytes _ hlt)
  mem8 := by
    intro i hi
    have hfit := page_fits hp
    rw [readMem8, toNat_pageByte hp (Nat.le_of_lt hi), if_pos (by omega), hbytes i hi]
  mem16 := by
    intro i hi
    obtain ⟨g, hg, hget⟩ := f.readBytes_page hp hi hbytes
    rw [readMem16, hg, Option.map_some, leWord_congr hget]
  mem32 := by
    intro i hi
    obtain ⟨g, hg, hget⟩ := f.readBytes_page hp hi hbytes
    rw [readMem32, hg, Option.map_some, leWord_congr hget]

/-- **Programming a page.** From every state, an erase of page `p`, Writes of all 32 rows of `data`
in any order and Program make the page read back `data`, and leave every other page and its mark
alone. On every state a blank check fails exactly when the range holds a word of a programmed page,
and reports the first one. -/
theorem page_programmed (f : RotFlash) (data : Bytes page) {p : Nat} {first last w : Word}
    (hp : p < npages) (hfirst : wordPage first = p) (hlast : wordPage last = p)
    (hw : wordPage w = p) (rows : List Word)
    (hrows : ∀ i, i < wordsPerPage → ∃ r ∈ rows, r.toNat % wordsPerPage = i) :
    (∃ f', f.regRun (eraseWrites first last ++ rows.flatMap (rowWrites data) ++
        programWrites w) = some f' ∧
      f'.ReadsBack p data ∧ ∀ q, q ≠ p → PageKept f f' q) ∧
    ∀ g : RotFlash, g.BlankChecked g.starta (g.regStep (regCmd, cmdCodeBlank)) := by
  refine ⟨?_, fun g => g.blankLoop_checked g.starta⟩
  obtain ⟨f₁, hf₁, hblank, hkept₁⟩ := run_erase f hp hfirst hlast
  obtain ⟨f₂, hf₂, hmem₂, hers₂, hbuf⟩ := run_rows f₁ data rows
  obtain ⟨f₃, hf₃, hmark, hbytes, hkept₃⟩ := run_program f₂ hp hw
  have hkept₂ : ∀ q, PageKept f₁ f₂ q := pageKept_of_eq hmem₂ hers₂
  refine ⟨f₃, ?_, readsBack_of_bytes hp hmark fun j hj => ?_, fun q hq => ?_⟩
  · rw [regRun_append, regRun_append, hf₁, Option.bind_some, hf₂, Option.bind_some, hf₃]
  · -- all ones, and with the data, are the data
    have hall : f₂.pageBuf.get j = data.get j := hbuf j hj (Or.inl (hrows _ (by
      simp only [wordsPerPage, word, page] at hj ⊢
      omega)))
    rw [hbytes j hj, hmem₂, hblank.1 j hj, hall]
    exact BitVec.allOnes_and
  · exact (hkept₁ q hq).trans ((hkept₂ q).trans (hkept₃ q hq))

/-- Page 3 of a blank flash, row by row from the last one to the first. -/
theorem page_programmed_three :
    ∃ f', blankWithFile.regRun (eraseWrites 96 127 ++
        ((List.range 32).reverse.map (BitVec.ofNat 32)).flatMap
          (rowWrites (Bytes.const page 0x5A)) ++
        programWrites 96) = some f' ∧
      f'.ReadsBack 3 (Bytes.const page 0x5A) ∧ ∀ q, q ≠ 3 → PageKept blankWithFile f' q :=
  (page_programmed blankWithFile (Bytes.const page 0x5A) (p := 3) (by decide) (by decide)
    (by decide) (by decide)
    ((List.range 32).reverse.map (BitVec.ofNat 32)) fun i hi => ⟨BitVec.ofNat 32 i,
      List.mem_map_of_mem (List.mem_reverse.mpr (List.mem_range.mpr hi)), by
        have hi32 : i < 32 := hi
        have hw : wordsPerPage = 32 := rfl
        rw [BitVec.toNat_ofNat, hw]
        omega⟩).1

end RotFlash

end SpEmu
