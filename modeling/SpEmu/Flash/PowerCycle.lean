import SpEmu.Flash.FlashRefinement
import SpEmu.Flash.Metadata

/-!
# The SP flash across a power cycle

Programs, erases and image loads go through to the backing file as they happen, and an option
commit replaces the state file. `Durable` is what they keep: the backing file is the array, and
the state file loads the committed swap. A power cycle then lands where a reset of the live
model would (`power_cycle_eq_reset`).

The state file is text. What has to survive being written and read back is the swap bit, next
to an archive reference of any content, which was read from a line (`loadNv_swapBank`).
-/

set_option autoImplicit false

namespace SpEmu

open ByteMem

namespace Flash

variable {f f' : Flash}

/-! ## The files and the live model -/

/-- The backing file is the array, and the state file loads the committed swap. -/
structure Durable (f : Flash) : Prop where
  backed : ∃ file, f.file = some file ∧ file.Reliable ∧ file.len = total ∧
    file.Mirrors erasedByte f.mem
  nvOk : ∀ i, f.nvFile.succeeds i = true
  swap : (loadNv f.nvFile.text).swapBank = f.committedSwap
  archive : (NvState.mk f.committedSwap f.archive).OneLine

/-- The registers apart, nothing differs. -/
def SameFiles (f f' : Flash) : Prop :=
  f'.mem = f.mem ∧ f'.file = f.file ∧ f'.nvFile = f.nvFile ∧ f'.archive = f.archive ∧
    f'.committedSwap = f.committedSwap

theorem Durable.same (h : f.Durable) (hs : SameFiles f f') : f'.Durable := by
  obtain ⟨hmem, hfile, hnv, harchive, hswap⟩ := hs
  refine ⟨?_, ?_, ?_, ?_⟩
  · rw [hfile, hmem]
    exact h.backed
  · rw [hnv]
    exact h.nvOk
  · rw [hnv, hswap]
    exact h.swap
  · rw [hswap, harchive]
    exact h.archive

/-! ## Writing through -/

/-- The backing file after a window of `src` is written through. -/
def throughFile (file : Option HostFile) (off len : Nat) (src : Nat → Byte) : Option HostFile :=
  if len = 0 then file
  else file.bind fun file =>
    if file.attempt.1 then file.attempt.2.writeAll off len src else none

theorem writeThrough_file (f : Flash) (off len : Nat) :
    (f.writeThrough off len).file = throughFile f.file off len f.mem.get := by
  rw [Flash.writeThrough, throughFile]
  split
  · rfl
  · cases hfile : f.file with
    | none => exact hfile
    | some file => rfl

/-- The array changes inside one window, which is written through; the state file is left
alone. -/
structure WritesThrough (f f' : Flash) : Prop where
  window : ∃ off len, off + len ≤ total ∧ f'.file = throughFile f.file off len f'.mem.get ∧
    ∀ i, i < off ∨ off + len ≤ i → f'.mem.get i = f.mem.get i
  nvFile : f'.nvFile = f.nvFile
  archive : f'.archive = f.archive
  committed : f'.committedSwap = f.committedSwap

theorem SameFiles.writesThrough (hs : SameFiles f f') : WritesThrough f f' := by
  obtain ⟨hmem, hfile, hnv, harchive, hswap⟩ := hs
  exact ⟨⟨0, 0, Nat.zero_le _, hfile, fun i _ => by rw [hmem]⟩, hnv, harchive, hswap⟩

/-- Registers may change before the write, and after it. -/
theorem WritesThrough.same {g g' : Flash} (h : WritesThrough g g') (hf : SameFiles f g)
    (hf' : SameFiles g' f') : WritesThrough f f' := by
  obtain ⟨hmem, hfile, hnv, harchive, hswap⟩ := hf
  obtain ⟨hmem', hfile', hnv', harchive', hswap'⟩ := hf'
  obtain ⟨off, len, hin, hthrough, hsame⟩ := h.window
  refine ⟨⟨off, len, hin, ?_, ?_⟩, hnv'.trans (h.nvFile.trans hnv),
    harchive'.trans (h.archive.trans harchive), hswap'.trans (h.committed.trans hswap)⟩
  · rw [hfile', hthrough, hfile, hmem']
  · intro i hi
    rw [hmem', hsame i hi, hmem]

theorem writesThrough_window (f : Flash) {mem : Bytes total} {off len : Nat}
    (hin : len = 0 ∨ off + len ≤ total)
    (hsame : ∀ i, i < off ∨ off + len ≤ i → mem.get i = f.mem.get i) :
    WritesThrough f (({ f with mem := mem }).writeThrough off len) := by
  obtain ⟨file, heq⟩ := writeThrough_eq { f with mem := mem } off len
  have hfile := writeThrough_file { f with mem := mem } off len
  rw [heq] at hfile ⊢
  refine ⟨?_, rfl, rfl, rfl⟩
  rcases hin with rfl | hin
  · exact ⟨0, 0, Nat.zero_le _, hfile, fun i _ => hsame i (by omega)⟩
  · exact ⟨off, len, hin, hfile, hsame⟩

/-- The file that is written through still holds the array. -/
theorem Durable.writesThrough (h : f.Durable) (hw : WritesThrough f f') : f'.Durable := by
  obtain ⟨file, hfile, hok, hlen, hmirror⟩ := h.backed
  obtain ⟨off, len, hin, hthrough, hsame⟩ := hw.window
  refine ⟨?_, ?_, ?_, ?_⟩
  · obtain ⟨hattempt, hrel⟩ := hok.attempt
    obtain ⟨file', hfile'⟩ := HostFile.isSome_writeAll hrel off len f'.mem.get
    by_cases hzero : len = 0
    · have hmem : f'.mem = f.mem := Bytes.ext_get fun i => hsame i (by omega)
      rw [hthrough, throughFile, if_pos hzero, hmem]
      exact h.backed
    · rw [throughFile, if_neg hzero, hfile, Option.bind_some, if_pos hattempt] at hthrough
      have hwin : off + len ≤ file.attempt.2.len := hlen.symm ▸ hin
      refine ⟨file', hthrough.trans hfile', HostFile.reliable_writeAll hrel hfile', ?_, ?_⟩
      · rw [HostFile.len_writeAll hwin hfile']
        exact hlen
      · exact HostFile.mirrors_writeAll (HostFile.mirrors_attempt.mpr hmirror) (by omega)
          hsame hfile'
  · rw [hw.nvFile]
    exact h.nvOk
  · rw [hw.nvFile, hw.committed]
    exact h.swap
  · rw [hw.committed, hw.archive]
    exact h.archive

/-! ## Operations -/

theorem programLoop_count (o : Nat) (val : Word) (left i : Nat) (mem : Bytes total) :
    (programLoop o val left i mem).2 = i + min left (total - (o + i)) := by
  induction left generalizing i mem with
  | zero => rw [Nat.zero_min, Nat.add_zero]; rfl
  | succ left ih =>
      simp only [programLoop]
      split
      · rw [ih]
        omega
      · omega

theorem writesThrough_writeMem (f : Flash) (addr val : Word) (size : Nat) :
    WritesThrough f (f.writeMem addr val size) := by
  rw [writeMem]
  split
  · exact SameFiles.writesThrough ⟨rfl, rfl, rfl, rfl, rfl⟩
  · -- the loop stops at the end of the array, and so does the write to the file
    refine writesThrough_window f ?_ fun i hi => ?_
    · rw [programLoop_count]
      omega
    · rw [programLoop_count] at hi
      rw [programLoop_get, if_neg (by omega)]

theorem writesThrough_store {w : Width} {addr val : Word} (hs : f.store w addr val = some f') :
    WritesThrough f f' := by
  cases w with
  | word =>
      obtain rfl := Option.some.inj hs
      exact writesThrough_writeMem f _ _ _
  | half =>
      obtain ⟨old, -, hs⟩ := Option.bind_eq_some_iff.mp hs
      obtain rfl := Option.some.inj hs
      exact writesThrough_writeMem f _ _ _
  | byte =>
      obtain ⟨old, -, hs⟩ := Option.bind_eq_some_iff.mp hs
      obtain rfl := Option.some.inj hs
      exact writesThrough_writeMem f _ _ _

theorem writesThrough_loadImageAt {addr : Word} {bytes : List Byte}
    (hl : f.loadImageAt addr bytes = some f') : WritesThrough f f' := by
  simp only [loadImageAt] at hl
  split at hl
  · next hle =>
      obtain rfl := Option.some.inj hl
      exact writesThrough_window f (Or.inr hle) fun i hi =>
        Bytes.get_splice_of_not_mem _ _ (by omega)
  · cases hl

theorem writesThrough_eraseBank2 (he : f.eraseBank2 = some f') : WritesThrough f f' := by
  obtain ⟨mem, hmem, he⟩ := Option.bind_eq_some_iff.mp he
  obtain rfl := Option.some.inj he
  have hle := (Bytes.fill_eq_some_iff.mp hmem).1.2
  exact writesThrough_window f (Or.inr hle) fun i hi => Bytes.get_of_fill hmem (by omega)

/-- The bank erase of a CR2 write, with its completion flags. -/
theorem writesThrough_eraseCommand {val : Word}
    (he : (f.eraseBank2.bind fun f => some (if val &&& crEopie != 0 then
      { f with sr2 := f.sr2 ||| srEop, eraseIrq := true }
      else { f with sr2 := f.sr2 ||| srEop })) = some f') : WritesThrough f f' := by
  obtain ⟨g, hg, he⟩ := Option.bind_eq_some_iff.mp he
  have hgd := writesThrough_eraseBank2 hg
  obtain rfl := Option.some.inj he
  split
  · exact hgd.same ⟨rfl, rfl, rfl, rfl, rfl⟩ ⟨rfl, rfl, rfl, rfl, rfl⟩
  · exact hgd.same ⟨rfl, rfl, rfl, rfl, rfl⟩ ⟨rfl, rfl, rfl, rfl, rfl⟩

theorem writesThrough_writeCr2 {val : Word} (hw : f.writeCr2 val = some f') :
    WritesThrough f f' := by
  simp only [writeCr2, Option.bind_eq_bind] at hw
  -- LOCK, and then a start of an erase
  split at hw
  · have hlocked : SameFiles f { f with cr2 := val &&& ~~~crLock, bank2Locked := true } :=
      ⟨rfl, rfl, rfl, rfl, rfl⟩
    split at hw
    · exact (writesThrough_eraseCommand hw).same hlocked ⟨rfl, rfl, rfl, rfl, rfl⟩
    · obtain rfl := Option.some.inj hw
      exact hlocked.writesThrough
  · have hopen : SameFiles f { f with cr2 := val &&& ~~~crLock } := ⟨rfl, rfl, rfl, rfl, rfl⟩
    split at hw
    · exact (writesThrough_eraseCommand hw).same hopen ⟨rfl, rfl, rfl, rfl, rfl⟩
    · obtain rfl := Option.some.inj hw
      exact hopen.writesThrough

/-- A register write other than an option commit. -/
theorem writesThrough_regWrite {off val : Word} (hoff : off ≠ regOptcr)
    (hw : f.regWrite off val = some f') : WritesThrough f f' := by
  rw [regWrite] at hw
  split at hw
  · obtain rfl := Option.some.inj hw
    refine SameFiles.writesThrough ?_
    rw [writeKeyr2]
    split_ifs <;> exact ⟨rfl, rfl, rfl, rfl, rfl⟩
  split at hw
  · obtain rfl := Option.some.inj hw
    refine SameFiles.writesThrough ?_
    rw [writeOptkeyr]
    split_ifs <;> exact ⟨rfl, rfl, rfl, rfl, rfl⟩
  split at hw
  · exact writesThrough_writeCr2 hw
  split at hw
  · obtain rfl := Option.some.inj hw
    exact SameFiles.writesThrough ⟨rfl, rfl, rfl, rfl, rfl⟩
  split at hw
  · obtain rfl := Option.some.inj hw
    exact SameFiles.writesThrough ⟨rfl, rfl, rfl, rfl, rfl⟩
  split at hw
  · obtain rfl := Option.some.inj hw
    exact SameFiles.writesThrough ⟨rfl, rfl, rfl, rfl, rfl⟩
  split at hw
  · obtain rfl := Option.some.inj hw
    exact SameFiles.writesThrough ⟨rfl, rfl, rfl, rfl, rfl⟩
  · obtain rfl := Option.some.inj hw
    exact SameFiles.writesThrough ⟨rfl, rfl, rfl, rfl, rfl⟩

theorem regWrite_optcr (f : Flash) (val : Word) :
    f.regWrite regOptcr val = some (f.writeOptcr val) := rfl

/-- A commit writes the staged bit to the state file, from which it is read back. -/
theorem durable_writeOptcr (h : f.Durable) (val : Word) : (f.writeOptcr val).Durable := by
  have hset : (if val &&& optcrOptlock != 0 then { f with optLocked := true } else f).Durable := by
    split
    · exact h.same ⟨rfl, rfl, rfl, rfl, rfl⟩
    · exact h
  simp only [writeOptcr]
  generalize (if val &&& optcrOptlock != 0 then { f with optLocked := true } else f) = g at hset ⊢
  split
  · -- OPTSTART: the state file is one line again, and it holds the staged bit
    have hone : (NvState.mk g.stagedSwap g.archive).OneLine := hset.archive
    refine ⟨hset.backed, fun i => hset.nvOk (i + 1), ?_, hone⟩
    show (loadNv (if g.nvFile.succeeds 0 = true then _ else _)).swapBank = g.stagedSwap
    rw [if_pos (hset.nvOk 0), loadNv_swapBank hone]
  · exact hset

theorem durable_regWrite (h : f.Durable) {off val : Word} (hw : f.regWrite off val = some f') :
    f'.Durable := by
  by_cases hoff : off = regOptcr
  · rw [hoff, regWrite_optcr] at hw
    obtain rfl := Option.some.inj hw
    exact durable_writeOptcr h val
  · exact h.writesThrough (writesThrough_regWrite hoff hw)

theorem durable_flush (h : f.Durable) : f.flush.Durable := by
  obtain ⟨file, hfile, hok, hlen, hmirror⟩ := h.backed
  refine ⟨⟨file.attempt.2, ?_, hok.attempt.2, hlen, hmirror⟩, h.nvOk, h.swap, h.archive⟩
  simp only [flush, hfile, Option.map_some]

theorem durable_step (h : f.Durable) {e : FlashEvent} (hs : f.step e = some f') :
    f'.Durable := by
  cases e with
  | regRead off =>
      obtain rfl := Option.some.inj hs
      exact h
  | regWrite off val => exact durable_regWrite h hs
  | store w addr val =>
      rw [step] at hs
      split at hs
      · exact h.writesThrough (writesThrough_store hs)
      · obtain rfl := Option.some.inj hs
        exact h
  | takeEraseIrq =>
      obtain rfl := Option.some.inj hs
      exact h.same ⟨rfl, rfl, rfl, rfl, rfl⟩
  | reset =>
      obtain rfl := Option.some.inj hs
      exact (durable_flush h).same ⟨rfl, rfl, rfl, rfl, rfl⟩

/-! ## Power cycles -/

/-- An image load, an event of a run, or the flush on exit. -/
inductive NvOp where
  | load (addr : Word) (bytes : List Byte)
  | event (e : FlashEvent)
  | flush

def nvStep (f : Flash) : NvOp → Option Flash
  | .load addr bytes => f.loadImageAt addr bytes
  | .event e => f.step e
  | .flush => some f.flush

/-- The model built on an image, over the backing file and the state file on the host. -/
def powerOn (image : Bytes total) (file : HostFile) (nvFile : TextFile) : Flash :=
  Flash.new image (some file) nvFile (loadNv nvFile.text)

theorem durable_powerOn (image : Bytes total) {file : HostFile} {nvFile : TextFile}
    (hfile : file.Reliable) (hnv : ∀ i, nvFile.succeeds i = true) :
    (powerOn image file nvFile).Durable := by
  -- power-on writes the whole array and cuts the file to its length
  obtain ⟨hok₁, hrel₁⟩ := hfile.attempt
  obtain ⟨file₁, hwrite⟩ := HostFile.isSome_writeAll hrel₁ 0 total image.get
  obtain ⟨hmirror, hlen⟩ : file₁.Mirrors erasedByte image ∧ total ≤ file₁.len :=
    HostFile.mirrors_writeAll_whole (by decide) hwrite
  obtain ⟨hok₂, hrel₂⟩ := (HostFile.reliable_writeAll hrel₁ hwrite).attempt
  refine ⟨⟨{ file₁.attempt.2 with len := total }, ?_, hrel₂, rfl, ?_⟩, hnv, rfl,
    oneLine_loadNv nvFile.text⟩
  · simp only [powerOn, Flash.new, Option.bind_some, hok₁, if_true, hwrite, hok₂]
  · exact HostFile.mirrors_setLen (HostFile.mirrors_attempt.mpr hmirror) hlen

/-- The backing file holds the array, byte for byte, and a fresh model on the two files has the
array and the mapping that the live model has after a reset. -/
def SurvivesPowerCycle (f : Flash) : Prop :=
  ∃ file, f.file = some file ∧
    (file.len = total ∧ ∀ i, i < total → file.byte i = f.mem.get i) ∧
    (powerOn (loadNvm (some file)) file f.nvFile).mem = f.resetLatch.mem ∧
    ∀ addr, (powerOn (loadNvm (some file)) file f.nvFile).physOff addr = f.resetLatch.physOff addr

theorem Durable.survivesPowerCycle (h : f.Durable) : f.SurvivesPowerCycle := by
  obtain ⟨file, hfile, -, hlen, hmirror⟩ := h.backed
  refine ⟨file, hfile, ⟨hlen, fun i hi => ?_⟩, hmirror, fun addr => ?_⟩
  · rw [← hmirror, HostFile.get_load file erasedByte hi, if_pos (hlen.symm ▸ hi)]
  · -- the mapping after power-on is the committed one, as after a reset
    have hswap : (powerOn (loadNvm (some file)) file f.nvFile).effectiveSwap =
        f.resetLatch.effectiveSwap := h.swap
    rw [physOff, hswap]
    rfl

/-- With a host that reports no error: after every image load, register access, store, poll and
reset of a run from power-on, the backing file is the array, and a power cycle at that point
lands where a reset would. -/
theorem power_cycle_eq_reset (image : Bytes total) {file : HostFile} {nvFile : TextFile}
    (hfile : file.Reliable) (hnv : ∀ i, nvFile.succeeds i = true) (ops : List NvOp)
    (hrun : Runs.run nvStep ops (powerOn image file nvFile) = some f) : f.SurvivesPowerCycle := by
  have hstep : ∀ (g : Flash) (op : NvOp) (g' : Flash), g.Durable → g.nvStep op = some g' →
      g'.Durable := by
    intro g op g' hg hop
    cases op with
    | load addr bytes => exact hg.writesThrough (writesThrough_loadImageAt hop)
    | event e => exact durable_step hg hop
    | flush =>
        obtain rfl := Option.some.inj hop
        exact durable_flush hg
  have hdurable : f.Durable :=
    Runs.invariant_of_run hstep (durable_powerOn image hfile hnv) hrun
  exact hdurable.survivesPowerCycle

/-- An update that unlocks the option registers, stages the swap and commits it. -/
def commitSwap : List NvOp :=
  [.event (.regWrite regOptkeyr optkey1), .event (.regWrite regOptkeyr optkey2),
    .event (.regWrite regOptsrPrg optSwapBank), .event (.regWrite regOptcr optcrOptstart)]

theorem power_cycle_eq_reset_commitSwap :
    ∃ f, Runs.run nvStep commitSwap
        (powerOn (Bytes.const _ erasedByte) ⟨0, fun _ => 0, fun _ => true⟩
          ⟨none, fun _ => true⟩) = some f ∧
      f.committedSwap = true ∧ f.effectiveSwap = false ∧ f.SurvivesPowerCycle := by
  refine ⟨_, rfl, rfl, rfl, ?_⟩
  exact power_cycle_eq_reset _ (fun _ => rfl) (fun _ => rfl) commitSwap rfl

end Flash

end SpEmu
