import SpEmu.Flash.RotTotal
import SpEmu.Lib.Mirror

/-!
# The RoT flash across a restart

An erase and a program command write the pages they touch through to the data file, and every
such command replaces the bitset file. `Reconstructs` says that the model built from the two
files as they are has the array and the erased pages of the live model.

The data file may be shorter than the array. A command that writes past its end leaves a gap,
which the host fills with zeros while the array holds erased bytes there; `restart_iff` shows
that this is the one thing that goes wrong.
-/

set_option autoImplicit false

namespace SpEmu

open ByteMem

namespace RotFlash

/-- An image load or a register write. -/
inductive Op where
  | load (addr : Word) (bytes : List Byte)
  | reg (off val : Word)

def opStep (f : RotFlash) : Op → Option RotFlash
  | .load addr bytes => f.loadImageAt addr bytes
  | .reg off val => f.regWrite off val

/-- The model rebuilt from the files has the array and the erased pages of the live one. -/
def Reconstructs (f : RotFlash) : Prop :=
  ∃ data, f.file = some data ∧ (ofFiles data f.bitsetFile).mem = f.mem ∧
    ∀ p, (ofFiles data f.bitsetFile).isErased p = f.isErased p

/-- The pages that an operation writes through, from the first to the last. -/
def flushed (f : RotFlash) : Op → Option (Nat × Nat)
  | .load _ _ => none
  | .reg off val =>
      if off ≠ regCmd then none
      else if val &&& 0xF = cmdCodeErase then some (f.firstPage, f.lastPage)
      else if val &&& 0xF = cmdCodeProgram ∧ f.firstPage < npages then
        some (f.firstPage, f.firstPage)
      else none

/-- The operation writes pages through, and the first of them lies past the end of the data
file. -/
def LeavesGap (f : RotFlash) (op : Op) : Prop :=
  ∃ first last data, f.flushed op = some (first, last) ∧ f.file = some data ∧
    data.len < first * page ∧ first < min (last + 1) npages

/-- The states that `new` can return when both files can be opened: from a persisted pair of
files, or freshly seeded. -/
inductive Opened : RotFlash → Prop where
  | persisted (data bits : HostFile) (hd : data.Reliable) (hb : bits.Reliable) :
      Opened (ofFiles data bits)
  | fresh (mem : Bytes size) (erased : Bytes (npages / 8)) (data bits : HostFile)
      (hd : data.Reliable) (hb : bits.Reliable) : Opened (seeded mem erased data bits)

/-! ## Files and registers -/

/-- The command registers and the page buffer apart, nothing differs. -/
def OnlyRegs (f f' : RotFlash) : Prop :=
  f' = { f with
    pageBuf := f'.pageBuf
    starta := f'.starta
    stopa := f'.stopa
    dataw := f'.dataw
    status := f'.status
    unknownCmdsLogged := f'.unknownCmdsLogged }

variable {f f' : RotFlash}

theorem blankLoop_onlyRegs {w : Word} (h : f.blankLoop w = some f') : OnlyRegs f f' := by
  induction w using blankLoop.induct f with
  | case1 w hle base hpast =>
      rw [blankLoop, if_pos hle, if_pos hpast] at h
      cases h
      rfl
  | case2 w hle base hpast hnone =>
      rw [blankLoop, if_pos hle, if_neg hpast] at h
      simp only [base] at hnone
      simp only [hnone] at h
      cases h
  | case3 w hle base hpast hfalse =>
      rw [blankLoop, if_pos hle, if_neg hpast] at h
      simp only [base] at hfalse
      simp only [hfalse] at h
      cases h
      rfl
  -- a blank word: the scan goes on
  | case4 w hle base hpast htrue ih =>
      rw [blankLoop, if_pos hle, if_neg hpast] at h
      simp only [base] at htrue
      simp only [htrue] at h
      exact ih h
  | case5 w hle =>
      rw [blankLoop, if_neg hle] at h
      cases h
      rfl

theorem cmdRead_onlyRegs (h : f.cmdRead = some f') : OnlyRegs f f' := by
  simp only [cmdRead] at h
  split at h
  · cases h
    rfl
  · obtain ⟨b, -, h⟩ := Option.bind_eq_some_iff.mp h
    cases b with
    | true =>
        cases h
        rfl
    | false =>
        obtain ⟨dataw, -, h⟩ := Option.bind_eq_some_iff.mp h
        cases h
        rfl

theorem cmdWrite_onlyRegs (h : f.cmdWrite = some f') : OnlyRegs f f' := by
  obtain ⟨buf, -, h⟩ := Option.bind_eq_some_iff.mp h
  cases h
  rfl

theorem cmdProgram_onlyRegs (hp : ¬ f.firstPage < npages) (h : f.cmdProgram = some f') :
    OnlyRegs f f' := by
  rw [firstPage] at hp
  simp only [cmdProgram, if_neg hp, Option.bind_eq_bind, Option.bind_some] at h
  cases h
  rfl

/-- A register write that flushes no page changes registers only. -/
theorem regWrite_onlyRegs {off val : Word} (hf : f.flushed (.reg off val) = none)
    (h : f.regWrite off val = some f') : OnlyRegs f f' := by
  rw [regWrite] at h
  split at h
  · next hcmd =>
      simp only [flushed, hcmd, ne_eq, not_true_eq_false, if_false] at hf
      -- a CMD write; an erase would flush
      split at hf
      · cases hf
      next herase =>
      simp only [doCmd, if_neg herase] at h
      split at h
      · exact cmdWrite_onlyRegs h
      split at h
      · next hprog =>
          refine cmdProgram_onlyRegs (fun hp => ?_) h
          rw [if_pos ⟨hprog, hp⟩] at hf
          cases hf
      split at h
      · exact blankLoop_onlyRegs h
      split at h
      · exact cmdRead_onlyRegs h
      · cases h
        rfl
  · -- any other register
    split at h
    · cases h
      rfl
    split at h
    · cases h
      rfl
    split at h
    · cases h
      rfl
    split at h
    · cases h
      rfl
    split at h
    · cases h
      rfl
    · cases h
      rfl

/-! ## The files in step -/

/-- Both files are in step with the array and the bitset. -/
structure Synced (f : RotFlash) (data : HostFile) : Prop where
  file : f.file = some data
  dataOk : data.Reliable
  bitsOk : f.bitsetFile.Reliable
  mem : data.Mirrors erasedByte f.mem
  erased : f.bitsetFile.Mirrors 0xFF f.erased

theorem Synced.reconstructs {data : HostFile} (h : f.Synced data) : f.Reconstructs :=
  ⟨data, h.file, h.mem, fun p => by simp only [isErased, show (ofFiles data f.bitsetFile).erased =
    f.erased from h.erased]⟩

theorem Synced.onlyRegs {data : HostFile} (h : f.Synced data) (hr : OnlyRegs f f') :
    f'.Synced data := by
  rw [OnlyRegs] at hr
  rw [hr]
  exact ⟨h.file, h.dataOk, h.bitsOk, h.mem, h.erased⟩

/-- A flush writes the changed pages through and replaces the bitset file. -/
structure Flush (f f' : RotFlash) (data : HostFile) (o k : Nat) : Prop where
  write : ∃ data', f'.file = some data' ∧ data.attempt.2.writeAll o k f'.mem.get = some data'
  bits : f'.bitsetFile = (f.bitsetFile.rewrite (npages / 8) f'.erased.get).2
  same : ∀ i, i < o ∨ o + k ≤ i → f'.mem.get i = f.mem.get i

/-- A flush that starts within the data file keeps the files in step. -/
theorem Flush.synced {data : HostFile} {o k : Nat} (hf : Flush f f' data o k)
    (hs : f.Synced data) (hlen : o ≤ data.len ∨ k = 0) : ∃ data', f'.Synced data' := by
  obtain ⟨data', hfile, hwrite⟩ := hf.write
  have hok := hs.dataOk.attempt.2
  have hmem : data.attempt.2.Mirrors erasedByte f.mem := HostFile.mirrors_attempt.mpr hs.mem
  refine ⟨data', hfile, HostFile.reliable_writeAll hok hwrite, ?_, ?_, ?_⟩
  · rw [hf.bits]
    exact (HostFile.rewrite_spec hs.bitsOk _ _).2.1
  · rcases hlen with hle | rfl
    · exact HostFile.mirrors_writeAll hmem hle hf.same hwrite
    · -- Nothing is written, and nothing has changed.
      have hsame : ∀ i, i < 0 ∨ 0 + 0 ≤ i → f'.mem.get i = f.mem.get i :=
        fun i _ => hf.same i (by omega)
      exact HostFile.mirrors_writeAll hmem (Nat.zero_le _) hsame hwrite
  · rw [hf.bits]
    exact HostFile.mirrors_rewrite hs.bitsOk f'.erased

/-- One that starts past the end of the data file leaves zeros in between. -/
theorem Flush.not_reconstructs {data : HostFile} {o k : Nat} (hf : Flush f f' data o k)
    (hs : f.Synced data) (hgap : data.len < o) (hk : 0 < k) (hlen : data.len < size) :
    ¬ f'.Reconstructs := by
  rintro ⟨data', hfile, hmem, -⟩
  obtain ⟨data'', hfile', hwrite⟩ := hf.write
  obtain rfl := Option.some.inj (hfile.symm.trans hfile')
  have hold : data.attempt.2.Mirrors erasedByte f.mem := HostFile.mirrors_attempt.mpr hs.mem
  exact HostFile.not_mirrors_of_gap hold hgap hk hlen (by decide) hf.same
    hwrite hmem

/-! ## Erase and program -/

theorem setErased_bits {p : Nat} {e : Bool} (h : f.setErased p e = some f') :
    f'.file = f.file ∧ f'.bitsetFile = f.bitsetFile ∧ f'.mem = f.mem := by
  simp only [setErased] at h
  split at h
  · cases h
    exact ⟨rfl, rfl, rfl⟩
  · cases h

theorem eraseLoop_bits {count first : Nat} (h : eraseLoop count first f = some f') :
    f'.bitsetFile = f.bitsetFile := by
  induction count generalizing first f with
  | zero =>
      cases h
      rfl
  | succ count ih =>
      simp only [eraseLoop, Option.bind_eq_bind, Option.bind_eq_some_iff] at h
      obtain ⟨mem, -, f₁, hf₁, hrest⟩ := h
      exact (ih hrest).trans (setErased_bits hf₁).2.1

/-- Persisting pages of a state whose data file accepts every operation. -/
theorem persistPages_flush {data : HostFile} {first last : Nat} (hfile : f.file = some data)
    (hok : data.Reliable) (h : f.persistPages first last = some f') :
    first * page ≤ min ((last + 1) * page) size ∧
      (∃ data', f'.file = some data' ∧ data.attempt.2.writeAll (first * page)
        (min ((last + 1) * page) size - first * page) f.mem.get = some data') ∧
      f'.bitsetFile = (f.bitsetFile.rewrite (npages / 8) f.erased.get).2 := by
  obtain ⟨hattempt, hrel⟩ := hok.attempt
  simp only [persistPages, hfile, hattempt, if_true] at h
  split at h
  · next hle =>
      cases h
      obtain ⟨data', hdata'⟩ := HostFile.isSome_writeAll hrel (first * page)
        (min ((last + 1) * page) size - first * page) f.mem.get
      exact ⟨hle, ⟨data', hdata', hdata'⟩, rfl⟩
  · cases h

/-- The bytes outside a range of pages that are all kept. -/
theorem same_of_pageKept {first last : Nat}
    (h : ∀ p, ¬ (p < npages ∧ first ≤ p ∧ p ≤ last) → PageKept f f' p) {i : Nat}
    (hi : i < first * page ∨ min ((last + 1) * page) size ≤ i) : f'.mem.get i = f.mem.get i := by
  have hpage : i / page * page + i % page = i := Nat.div_add_mod' i page
  have hout : ¬ (i / page < npages ∧ first ≤ i / page ∧ i / page ≤ last) := by
    simp only [page, size, npages] at hi ⊢
    omega
  have hkept := (h (i / page) hout).1 (i % page) (Nat.mod_lt i (by decide))
  rwa [hpage] at hkept

theorem cmdErase_flush {data : HostFile} (hs : f.Synced data) (h : f.cmdErase = some f') :
    f.firstPage * page ≤ min ((f.lastPage + 1) * page) size ∧
      Flush f f' data (f.firstPage * page)
        (min ((f.lastPage + 1) * page) size - f.firstPage * page) := by
  have hsame : ∀ i, i < f.firstPage * page ∨ min ((f.lastPage + 1) * page) size ≤ i →
      f'.mem.get i = f.mem.get i :=
    fun i => same_of_pageKept fun p => cmdErase_kept h
  simp only [cmdErase, Option.bind_eq_bind, Option.bind_eq_some_iff] at h
  obtain ⟨f₁, hf₁, f₂, hf₂, heq⟩ := h
  obtain ⟨f₁', hf₁', hfile, -⟩ := eraseLoop_spec
    (min f.lastPage (npages - 1) + 1 - f.firstPage) f.firstPage f (eraseCount_le f)
  obtain rfl : f₁ = f₁' := Option.some.inj (hf₁.symm.trans hf₁')
  obtain ⟨hm, he⟩ := persistPages_same hf₂
  obtain ⟨hle, ⟨data', hdata', hwrite⟩, hbits⟩ :=
    persistPages_flush (hfile.trans hs.file) hs.dataOk hf₂
  cases heq
  rw [eraseLoop_bits hf₁] at hbits
  refine ⟨hle, ⟨data', hdata', ?_⟩, ?_, fun i hi => hsame i (by omega)⟩
  · show data.attempt.2.writeAll _ _ f₂.mem.get = some data'
    rw [hm]
    exact hwrite
  · show f₂.bitsetFile = (f.bitsetFile.rewrite (npages / 8) f₂.erased.get).2
    rw [he]
    exact hbits

theorem cmdProgram_flush {data : HostFile} (hs : f.Synced data) (hp : f.firstPage < npages)
    (h : f.cmdProgram = some f') :
    f.firstPage * page ≤ min ((f.firstPage + 1) * page) size ∧
      Flush f f' data (f.firstPage * page)
        (min ((f.firstPage + 1) * page) size - f.firstPage * page) := by
  -- outside the page the array is as it was
  have hsame : ∀ i, i < f.firstPage * page ∨ min ((f.firstPage + 1) * page) size ≤ i →
      f'.mem.get i = f.mem.get i := by
    obtain ⟨g, hg, hkept⟩ := f.cmdProgram_spec
    obtain rfl := Option.some.inj (hg.symm.trans h)
    exact fun i => same_of_pageKept fun p hout => hkept p fun hin => hout (by omega)
  rw [firstPage] at hp
  simp only [cmdProgram, if_pos hp, Option.bind_eq_bind] at h
  obtain ⟨mem, -, h⟩ := Option.bind_eq_some_iff.mp h
  obtain ⟨f₁, hf₁, h⟩ := Option.bind_eq_some_iff.mp h
  obtain ⟨f₂, hf₂, heq⟩ := Option.bind_eq_some_iff.mp h
  obtain ⟨hfile, hbits₁, -⟩ := setErased_bits hf₁
  obtain ⟨hm, he⟩ := persistPages_same hf₂
  obtain ⟨hle, ⟨data', hdata', hwrite⟩, hbits⟩ :=
    persistPages_flush (hfile.trans hs.file) hs.dataOk hf₂
  obtain rfl := Option.some.inj heq
  rw [hbits₁] at hbits
  refine ⟨hle, ⟨data', hdata', ?_⟩, ?_, fun i hi => hsame i ?_⟩
  · show data.attempt.2.writeAll _ _ f₂.mem.get = some data'
    rw [hm]
    exact hwrite
  · show f₂.bitsetFile = (f.bitsetFile.rewrite (npages / 8) f₂.erased.get).2
    rw [he]
    exact hbits
  · rw [← firstPage] at hle
    omega

/-! ## Image loads -/

/-- Writing the whole array brings the files in step, whatever they held. -/
theorem persistAll_synced {data : HostFile} (hfile : f.file = some data) (hd : data.Reliable)
    (hb : f.bitsetFile.Reliable) : ∃ data', f.persistAll.Synced data' := by
  obtain ⟨hok₁, hrel₁⟩ := hd.attempt
  obtain ⟨data₁, hwrite⟩ := HostFile.isSome_writeAll hrel₁ 0 size f.mem.get
  obtain ⟨hmirror, hlen⟩ : data₁.Mirrors erasedByte f.mem ∧ size ≤ data₁.len :=
    HostFile.mirrors_writeAll_whole (by decide) hwrite
  obtain ⟨hok₂, hrel₂⟩ := (HostFile.reliable_writeAll hrel₁ hwrite).attempt
  refine ⟨{ data₁.attempt.2 with len := size }, ?_, hrel₂, ?_, ?_, ?_⟩
  · simp only [persistAll, persistBitset, hfile, Option.bind_some, hok₁, if_true, hwrite, hok₂]
  · exact (HostFile.rewrite_spec hb _ _).2.1
  · exact HostFile.mirrors_setLen (HostFile.mirrors_attempt.mpr hmirror) hlen
  · exact HostFile.mirrors_rewrite hb f.erased

theorem foldlM_setErased_bits {ps : List Nat} {e : Bool}
    (h : ps.foldlM (fun f p => setErased f p e) f = some f') :
    f'.file = f.file ∧ f'.bitsetFile = f.bitsetFile := by
  induction ps generalizing f with
  | nil =>
      cases h
      exact ⟨rfl, rfl⟩
  | cons p ps ih =>
      rw [List.foldlM_cons] at h
      obtain ⟨f₁, hf₁, hrest⟩ := Option.bind_eq_some_iff.mp h
      obtain ⟨hfile, hbits, -⟩ := setErased_bits hf₁
      obtain ⟨hfile', hbits'⟩ := ih hrest
      exact ⟨hfile'.trans hfile, hbits'.trans hbits⟩

theorem loadImageAt_synced {data : HostFile} {addr : Word} {bytes : List Byte}
    (hs : f.Synced data) (h : f.loadImageAt addr bytes = some f') : ∃ data', f'.Synced data' := by
  obtain ⟨f₁, hf₁, rfl⟩ := Option.map_eq_some_iff.mp h
  have hfiles : f₁.file = f.file ∧ f₁.bitsetFile = f.bitsetFile := by
    simp only [writePages] at hf₁
    split at hf₁
    · cases hf₁
      exact ⟨rfl, rfl⟩
    · obtain ⟨hfile, hbits⟩ := foldlM_setErased_bits hf₁
      exact ⟨hfile, hbits⟩
  exact persistAll_synced (hfiles.1.trans hs.file) hs.dataOk (by rw [hfiles.2]; exact hs.bitsOk)

/-! ## Restarts -/

/-- One operation, from a state whose files are in step. -/
theorem opStep_synced {data : HostFile} {op : Op} (hs : f.Synced data)
    (h : f.opStep op = some f') :
    (¬ f.LeavesGap op → ∃ data', f'.Synced data') ∧ (f.LeavesGap op → ¬ f'.Reconstructs) := by
  cases hfl : f.flushed op with
  -- no page is flushed: an image load, or a change of registers
  | none =>
      refine ⟨fun _ => ?_, ?_⟩
      · cases op with
        | load addr bytes => exact loadImageAt_synced hs h
        | reg off val => exact ⟨data, hs.onlyRegs (regWrite_onlyRegs hfl h)⟩
      · rintro ⟨first, last, d, hsome, -⟩
        rw [hfl] at hsome
        cases hsome
  | some pages =>
      obtain ⟨first, last⟩ := pages
      -- an erase and a program flush the same way
      have hflush : first * page ≤ min ((last + 1) * page) size ∧
          Flush f f' data (first * page) (min ((last + 1) * page) size - first * page) := by
        cases op with
        | load addr bytes => cases hfl
        | reg off val =>
            simp only [flushed] at hfl
            split at hfl
            · cases hfl
            next hcmd =>
            have hcmd : off = regCmd := Classical.not_not.mp hcmd
            rw [opStep, hcmd, show f.regWrite regCmd val = f.doCmd val from rfl] at h
            split at hfl
            · next herase =>
                cases hfl
                rw [doCmd_erase f herase] at h
                exact cmdErase_flush hs h
            split at hfl
            · next hprog =>
                cases hfl
                rw [doCmd_program f hprog.1] at h
                exact cmdProgram_flush hs hprog.2 h
            · cases hfl
      obtain ⟨hle, hflush⟩ := hflush
      -- in terms of bytes, the gap is the part of the file below the first page
      have hgap : f.LeavesGap op ↔ data.len < first * page ∧
          0 < min ((last + 1) * page) size - first * page := by
        have hpages : first < min (last + 1) npages ↔
            0 < min ((last + 1) * page) size - first * page := by
          simp only [page, size, npages]
          omega
        rw [← hpages]
        constructor
        · rintro ⟨first', last', d, hsome, hfile, hlt, hin⟩
          rw [hfl] at hsome
          cases hsome
          obtain rfl := Option.some.inj (hs.file.symm.trans hfile)
          exact ⟨hlt, hin⟩
        · rintro ⟨hlt, hin⟩
          exact ⟨first, last, data, hfl, hs.file, hlt, hin⟩
      rw [hgap]
      constructor
      · intro hno
        exact hflush.synced hs (by omega)
      · rintro ⟨hlt, hpos⟩
        exact hflush.not_reconstructs hs hlt hpos (by omega)

/-- An operation that leaves a gap returns: the pages it writes start inside the array. -/
theorem isSome_of_leavesGap {op : Op} (h : f.LeavesGap op) : ∃ f', f.opStep op = some f' := by
  obtain ⟨first, last, data, hfl, -, -, hin⟩ := h
  cases op with
  | load addr bytes => cases hfl
  | reg off val =>
      simp only [flushed] at hfl
      split at hfl
      · cases hfl
      next hcmd =>
      have hcmd : off = regCmd := Classical.not_not.mp hcmd
      rw [opStep, hcmd, show f.regWrite regCmd val = f.doCmd val from rfl]
      split at hfl
      · -- an erase panics only where its pages are inverted
        next herase =>
          cases hfl
          rw [doCmd_erase f herase]
          refine Option.ne_none_iff_exists'.mp fun hnone => ?_
          have hinv := ((cmdErase_eq_none_iff f).mp hnone).1
          simp only [SliceInverted] at hinv
          omega
      split at hfl
      · next hprog =>
          cases hfl
          rw [doCmd_program f hprog.1]
          obtain ⟨f', hf', -⟩ := f.cmdProgram_spec
          exact ⟨f', hf'⟩
      · cases hfl

/-- The operation ends in a state that the files reconstruct. -/
def Survives (f : RotFlash) (op : Op) : Prop := ∀ f', f.opStep op = some f' → f'.Reconstructs

/-- From power-on with two files that accept every operation: the files reconstruct every
state that the operations reach if and only if no operation along them leaves a gap in the data
file. -/
theorem restart_iff (hf : f.Opened) (ops : List Op) :
    f.Reconstructs ∧
      (Runs.Along opStep Survives ops f ↔
        Runs.Along opStep (fun f op => ¬ f.LeavesGap op) ops f) := by
  have hs : ∃ data, f.Synced data := by
    cases hf with
    | persisted data bits hd hb => exact ⟨data, rfl, hd, hb, rfl, rfl⟩
    | fresh mem erased data bits hd hb => exact persistAll_synced rfl hd hb
  obtain ⟨data, hsync⟩ := hs
  refine ⟨hsync.reconstructs, ?_⟩
  refine Runs.along_iff (I := fun f => ∃ data, f.Synced data) ?_ ?_ ops f ⟨data, hsync⟩
  · rintro g op g' ⟨d, hd⟩ hsurv hstep
    have hboth := opStep_synced hd hstep
    exact hboth.1 fun hgap => hboth.2 hgap (hsurv g' hstep)
  · rintro g op ⟨d, hd⟩
    constructor
    · intro hsurv hgap
      obtain ⟨g', hstep⟩ := isSome_of_leavesGap hgap
      exact (opStep_synced hd hstep).2 hgap (hsurv g' hstep)
    · intro hno g' hstep
      obtain ⟨d', hd'⟩ := (opStep_synced hd hstep).1 hno
      exact hd'.reconstructs

/-- Metadata of a blank device, with a data file that was cut to nothing. -/
def truncated : RotFlash :=
  ofFiles ⟨0, fun _ => 0, fun _ => true⟩ ⟨npages / 8, fun _ => 0xFF, fun _ => true⟩

theorem truncated_opened : truncated.Opened :=
  .persisted _ _ (fun _ => rfl) fun _ => rfl

/-- Programming page 0 of the cut file writes from its end on. -/
theorem restart_iff_truncated :
    truncated.Reconstructs ∧
      (Runs.Along opStep Survives [.reg regCmd cmdCodeProgram] truncated ↔
        Runs.Along opStep (fun f op => ¬ f.LeavesGap op) [.reg regCmd cmdCodeProgram]
          truncated) :=
  restart_iff truncated_opened [.reg regCmd cmdCodeProgram]

/-- STARTA = 32 (page 1), CMD = Program: page 0 of the data file, which the array holds as
erased bytes, becomes zeros. -/
theorem program_past_end_not_survives :
    ¬ ∀ (f : RotFlash) (ops : List Op), f.Opened → Runs.Along opStep Survives ops f := by
  intro h
  have hrun := h truncated [.reg regStarta 32, .reg regCmd cmdCodeProgram] truncated_opened
  have hstart : truncated.opStep (.reg regStarta 32) = some { truncated with starta := 32 } := rfl
  have hsync : Synced { truncated with starta := 32 } ⟨0, fun _ => 0, fun _ => true⟩ :=
    ⟨rfl, fun _ => rfl, fun _ => rfl, rfl, rfl⟩
  have hgap : LeavesGap { truncated with starta := 32 } (.reg regCmd cmdCodeProgram) :=
    ⟨1, 1, _, rfl, rfl, by decide, by decide⟩
  obtain ⟨f', hf'⟩ := isSome_of_leavesGap hgap
  exact (opStep_synced hsync hf').2 hgap ((hrun.2 _ hstart).1 f' hf')

end RotFlash

end SpEmu
