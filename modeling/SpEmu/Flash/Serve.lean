import SpEmu.Flash.PowerCycle

/-!
# Serving from the SP flash

`serveForever` loads the flash image, refuses an empty boot slot, copies the one programmed slot
over the other in the image, and builds the flash model on the result.

The copy is meant for memory only, but the model seeds its backing file with the image it is given.
`serve_mirror_iff` says what a run then leaves in the file: a byte of the other slot that the guest
neither erases nor programs is the copied one, so that it keeps its value only where the two slots
agree. They never agree in the first word, which is how the slot was seen to be empty.
-/

set_option autoImplicit false

namespace SpEmu

open ByteMem

namespace Flash

/-! ## Slots -/

/-- Byte offset of a slot within the image. -/
def slotOffset (slot : Char) : Option Nat :=
  match slot.toLower with
  | 'a' => some 0
  | 'b' => some bankSize
  | _ => none

/-- Whether a slot holds a plausible vector table: its initial stack pointer points into RAM. -/
def slotProgrammed (nvm : Bytes total) (slot : Char) : Option Bool :=
  (slotOffset slot).map fun off =>
    let sp := leWord 4 fun i => nvm.get (off + i)
    sp != 0xFFFFFFFF && (decide (0x20000000 ≤ sp) && decide (sp < 0x40000000))

/-- If exactly one slot is programmed, copy it into the other bank of the image. -/
def mirrorUnprogrammedSlot (nvm : Bytes total) : Bytes total :=
  match (slotProgrammed nvm 'a').getD false, (slotProgrammed nvm 'b').getD false with
  | true, false => nvm.splice bankSize bankSize nvm.get
  | false, true => nvm.splice 0 bankSize fun i => nvm.get (bankSize + i)
  | _, _ => nvm

/-- Force the boot bank; the state file is left alone. -/
def forceSwap (f : Flash) (swap : Bool) : Flash :=
  { f with effectiveSwap := swap, committedSwap := swap, stagedSwap := swap }

/-- Build the flash model on an image, over the backing file and the state file. -/
def setup (image : Bytes total) (override : Option Bool) (file : HostFile)
    (nvFile : TextFile) : Flash :=
  let f := powerOn image file nvFile
  match override with
  | some s => f.forceSwap s
  | none => f

/-- The image behind the path of the backing file. -/
def nvmOf (backing : HostPath) : Bytes total :=
  loadNvm (if backing.present then some backing.file else none)

/-- A slot on the command line forces the boot bank. -/
def swapOverride (slot : Char) (slotGiven : Bool) : Option Bool :=
  if slotGiven then some (slot == 'b') else none

/-- The boot slot, from the command line or else from the state file. -/
def bootSlot (override : Option Bool) (nv : NvState) : Char :=
  if override.getD nv.swapBank then 'b' else 'a'

/-- The flash that the serve loop runs on, or the error it stops with. -/
def serveForever (path : String) (backing : HostPath) (nvFile : TextFile) (slot : Char)
    (slotGiven : Bool) : Except String Flash :=
  let (read, file) := if backing.present then backing.file.attempt else (true, backing.file)
  if read then
    let nvm := nvmOf backing
    let override := swapOverride slot slotGiven
    let boot := bootSlot override (loadNv nvFile.text)
    if slotProgrammed nvm boot = some true then
      .ok (setup (mirrorUnprogrammedSlot nvm) override file nvFile)
    else
      .error ("slot " ++ boot.toUpper.toString ++ " is empty; flash it first: sp-emu flash " ++
        boot.toString ++ " <image.bin>")
  else .error ("read " ++ path)

/-! ## The copied slot -/

/-- Exactly one slot of the image is programmed, and the bank of the other one starts at `o`. -/
inductive OneSlot (nvm : Bytes total) : Nat → Prop where
  | a (ha : slotProgrammed nvm 'a' = some true) (hb : slotProgrammed nvm 'b' = some false) :
      OneSlot nvm bankSize
  | b (ha : slotProgrammed nvm 'a' = some false) (hb : slotProgrammed nvm 'b' = some true) :
      OneSlot nvm 0

/-- The byte at `i` lies in the bank that starts at `o`. -/
def InBank (o i : Nat) : Prop := o ≤ i ∧ i < o + bankSize

variable {nvm : Bytes total} {o : Nat}

theorem OneSlot.le (h : OneSlot nvm o) : o + bankSize ≤ total := by
  cases h with
  | a => exact Nat.le_of_eq rfl
  | b => decide

/-- The copy replaces the bank of the other slot by the byte at the same place in the programmed
one. -/
theorem get_mirror (h : OneSlot nvm o) {i : Nat} (hi : InBank o i) :
    (mirrorUnprogrammedSlot nvm).get i = nvm.get (i ^^^ bankSize) := by
  have hlt : i < total := Nat.lt_of_lt_of_le hi.2 h.le
  cases h with
  | a ha hb =>
      rw [mirrorUnprogrammedSlot, ha, hb, xor_bankSize hlt, if_neg (Nat.not_lt.mpr hi.1)]
      exact (Bytes.get_splice nvm _ _ _ hlt).trans (if_pos hi)
  | b ha hb =>
      have hlow : i < bankSize := by
        rw [← Nat.zero_add bankSize]
        exact hi.2
      rw [mirrorUnprogrammedSlot, ha, hb, xor_bankSize hlt, if_pos hlow, Nat.add_comm i]
      exact (Bytes.get_splice nvm _ _ _ hlt).trans (if_pos hi)

/-- The programmed slot is left as it is. -/
theorem get_mirror_of_not_mem (h : OneSlot nvm o) {i : Nat} (hi : ¬ InBank o i) :
    (mirrorUnprogrammedSlot nvm).get i = nvm.get i := by
  have hout : i < o ∨ o + bankSize ≤ i := by
    rw [InBank] at hi
    omega
  cases h with
  | a ha hb =>
      rw [mirrorUnprogrammedSlot, ha, hb]
      exact Bytes.get_splice_of_not_mem nvm _ hout
  | b ha hb =>
      rw [mirrorUnprogrammedSlot, ha, hb]
      exact Bytes.get_splice_of_not_mem nvm _ hout

/-- The first words of the two slots differ. -/
theorem OneSlot.differs (h : OneSlot nvm o) :
    ∃ i, o ≤ i ∧ i < o + 4 ∧ nvm.get (i ^^^ bankSize) ≠ nvm.get i := by
  have hb4 : 4 ≤ bankSize := by decide
  have ht : total = 2 * bankSize := rfl
  by_contra hsame
  simp only [not_exists, not_and, not_not] at hsame
  -- then both slots have the same initial stack pointer
  have hword : leWord 4 (fun i => nvm.get (bankSize + i)) = leWord 4 fun i => nvm.get (0 + i) := by
    refine leWord_congr fun i hi => ?_
    rw [Nat.zero_add]
    cases h with
    | a =>
        have hi' := hsame (bankSize + i) (by omega) (by omega)
        rw [xor_bankSize (by omega), if_neg (by omega), Nat.add_sub_cancel_left] at hi'
        exact hi'.symm
    | b =>
        have hi' := hsame i (Nat.zero_le i) (by omega)
        rwa [xor_bankSize (by omega), if_pos (by omega), Nat.add_comm] at hi'
  have hslots : slotProgrammed nvm 'b' = slotProgrammed nvm 'a' :=
    congrArg (fun sp : Word =>
      some (sp != 0xFFFFFFFF && (decide (0x20000000 ≤ sp) && decide (sp < 0x40000000)))) hword
  cases h with
  | a ha hb =>
      rw [ha, hb] at hslots
      cases hslots
  | b ha hb =>
      rw [ha, hb] at hslots
      cases hslots

/-! ## What the guest touches -/

/-- The guest erases or programs the physical byte `i`. -/
def Touches (f : Flash) (e : FlashEvent) (i : Nat) : Prop :=
  (EraseCommand f e ∧ Inactive f i) ∨
    (f.Programs ∧ ∃ w addr val, e = .store w addr val ∧ inAperture addr = true ∧
      f.progStart w addr ≤ i ∧ i < f.progStart w addr + w.bytes)

/-- No event of the run touches the byte. -/
def Untouched (f : Flash) (es : List FlashEvent) (i : Nat) : Prop :=
  Runs.Along step (fun f e => ¬ Touches f e i) es f

variable {f f' : Flash}

theorem step_untouched {e : FlashEvent} {i : Nat} (hno : ¬ Touches f e i)
    (h : f.step e = some f') : f'.mem.get i = f.mem.get i := by
  rw [Touches, not_or, not_and, not_and] at hno
  have heff := effect_step h
  by_cases herase : EraseCommand f e
  · exact (heff.erase herase i).2 (hno.1 herase)
  · cases e with
    | store w addr val =>
        rw [step] at h
        split at h
        · next hin =>
            by_cases hprog : f.Programs
            · obtain ⟨mem, file, hstore, hmem⟩ := store_of_programs hprog w hin val
              obtain rfl := Option.some.inj (hstore.symm.trans h)
              refine (hmem i).trans (if_neg fun hwin => hno.2 hprog ?_)
              exact ⟨w, addr, val, rfl, hin, hwin.1, hwin.2.1⟩
            · rw [store_of_not_programs hprog w hin val] at h
              obtain rfl := Option.some.inj h
              rfl
        · obtain rfl := Option.some.inj h
          rfl
    | regRead off => rw [heff.keeps herase fun w addr val he => by cases he]
    | regWrite off val => rw [heff.keeps herase fun w addr val he => by cases he]
    | takeEraseIrq => rw [heff.keeps herase fun w addr val he => by cases he]
    | reset => rw [heff.keeps herase fun w addr val he => by cases he]

theorem run_untouched {es : List FlashEvent} {i : Nat} (hno : Untouched f es i)
    (hrun : Runs.run step es f = some f') : f'.mem.get i = f.mem.get i := by
  refine Runs.invariant_of_along (I := fun g => g.mem.get i = f.mem.get i) ?_ rfl hno hrun
  intro g e g' hg hno' hstep
  exact (step_untouched hno' hstep).trans hg

/-! ## The backing file -/

/-- While the backing file is open, it holds the array. -/
def Backed (f : Flash) : Prop :=
  ∀ file, f.file = some file → file.len = total ∧ file.Mirrors erasedByte f.mem

/-- A file that the host refuses stays closed, and one that stays open holds the array. -/
theorem WritesThrough.backed (hw : WritesThrough f f') :
    (f.Backed → f'.Backed) ∧ (f.file = none → f'.file = none) := by
  obtain ⟨off, len, hin, hthrough, hsame⟩ := hw.window
  rw [throughFile] at hthrough
  split at hthrough
  · next hzero =>
      have hmem : f'.mem = f.mem := Bytes.ext_get fun i => hsame i (by omega)
      refine ⟨fun h file hfile => ?_, fun h => hthrough.trans h⟩
      rw [hmem]
      exact h file (hthrough.symm.trans hfile)
  · refine ⟨fun h file' hfile' => ?_, fun h => by rw [hthrough, h, Option.bind_none]⟩
    obtain ⟨file, hfile, hwrite⟩ := Option.bind_eq_some_iff.mp (hthrough.symm.trans hfile')
    obtain ⟨hlen, hmirror⟩ := h file hfile
    split at hwrite
    · have hwin : off + len ≤ file.attempt.2.len := hlen.symm ▸ hin
      refine ⟨(HostFile.len_writeAll hwin hwrite).trans hlen, ?_⟩
      exact HostFile.mirrors_writeAll (HostFile.mirrors_attempt.mpr hmirror) (by omega) hsame
        hwrite
    · cases hwrite

theorem backed_writeOptcr (f : Flash) (val : Word) :
    (f.writeOptcr val).mem = f.mem ∧ (f.writeOptcr val).file = f.file := by
  simp only [writeOptcr]
  split_ifs <;> exact ⟨rfl, rfl⟩

theorem backed_step {e : FlashEvent} (hs : f.step e = some f') :
    (f.Backed → f'.Backed) ∧ (f.file = none → f'.file = none) := by
  cases e with
  | regRead off =>
      obtain rfl := Option.some.inj hs
      exact ⟨id, id⟩
  | regWrite off val =>
      by_cases hoff : off = regOptcr
      · rw [hoff, step, regWrite_optcr] at hs
        obtain rfl := Option.some.inj hs
        obtain ⟨hmem, hfile⟩ := backed_writeOptcr f val
        rw [Backed, Backed, hmem, hfile]
        exact ⟨id, id⟩
      · exact (writesThrough_regWrite hoff hs).backed
  | store w addr val =>
      rw [step] at hs
      split at hs
      · exact (writesThrough_store hs).backed
      · obtain rfl := Option.some.inj hs
        exact ⟨id, id⟩
  | takeEraseIrq =>
      obtain rfl := Option.some.inj hs
      exact ⟨id, id⟩
  | reset =>
      -- the flush costs the file one host operation, and changes no byte
      obtain rfl := Option.some.inj hs
      refine ⟨fun h file' hfile' => ?_, fun h => ?_⟩
      · obtain ⟨file, hfile, rfl⟩ := Option.map_eq_some_iff.mp hfile'
        exact h file hfile
      · show f.file.map _ = none
        rw [h, Option.map_none]

theorem setup_mem (image : Bytes total) (override : Option Bool) (file : HostFile)
    (nvFile : TextFile) : (setup image override file nvFile).mem = image := by
  cases override <;> rfl

theorem backed_setup (image : Bytes total) (override : Option Bool) (file : HostFile)
    (nvFile : TextFile) :
    (setup image override file nvFile).Backed ∧
      (file.attempt.1 = false → (setup image override file nvFile).file = none) := by
  have hfile : (setup image override file nvFile).file = (powerOn image file nvFile).file := by
    cases override <;> rfl
  rw [Backed, hfile, setup_mem]
  refine ⟨fun file' hfile' => ?_, fun hno => ?_⟩
  · -- power-on writes the whole array and cuts the file to its length
    simp only [powerOn, Flash.new, Option.bind_some] at hfile'
    split at hfile'
    · obtain ⟨file₁, hwrite, hcut⟩ := Option.bind_eq_some_iff.mp hfile'
      obtain ⟨hmirror, hlen⟩ : file₁.Mirrors erasedByte image ∧ total ≤ file₁.len :=
        HostFile.mirrors_writeAll_whole (by decide) hwrite
      split at hcut
      · obtain rfl := Option.some.inj hcut
        exact ⟨rfl, HostFile.mirrors_setLen (HostFile.mirrors_attempt.mpr hmirror) hlen⟩
      · cases hcut
    · cases hfile'
  · simp only [powerOn, Flash.new, Option.bind_some, hno, Bool.false_eq_true, if_false]

/-! ## A served run -/

/-- An image with a programmed slot comes from a file that is there. -/
theorem OneSlot.present {backing : HostPath} (h : OneSlot (nvmOf backing) o) :
    backing.present = true := by
  by_contra habs
  have herased : nvmOf backing = Bytes.const total erasedByte := by
    rw [nvmOf, if_neg habs]
    rfl
  have hempty : slotProgrammed (Bytes.const total erasedByte) 'a' = some false ∧
      slotProgrammed (Bytes.const total erasedByte) 'b' = some false := by
    decide +kernel
  rw [herased] at h
  cases h with
  | a ha hb => exact absurd (ha.symm.trans hempty.1) nofun
  | b ha hb => exact absurd (hb.symm.trans hempty.2) nofun

/-- What serving starts from, when it does not stop with an error. -/
theorem serveForever_ok {path : String} {backing : HostPath} {nvFile : TextFile} {slot : Char}
    {slotGiven : Bool} (hp : backing.present = true)
    (h : serveForever path backing nvFile slot slotGiven = .ok f) :
    f = setup (mirrorUnprogrammedSlot (nvmOf backing)) (swapOverride slot slotGiven)
      backing.file.attempt.2 nvFile := by
  simp only [serveForever, if_pos hp] at h
  split at h
  · split at h
    · exact (Except.ok.inj h).symm
    · cases h
  · cases h

/-- With one slot programmed, a run that is served leaves the untouched bytes of the other slot in
the backing file alone if and only if they are those of the programmed slot, which the first word
never is. Where the host refuses to open the file for writing, nothing is written. -/
theorem serve_mirror_iff {path : String} {backing : HostPath} {nvFile : TextFile} {slot : Char}
    {slotGiven : Bool} {es : List FlashEvent} (hone : OneSlot (nvmOf backing) o)
    (hserve : serveForever path backing nvFile slot slotGiven = .ok f)
    (hrun : Runs.run step es f = some f') :
    (∀ file', f'.file = some file' →
      ((∀ i, InBank o i → Untouched f es i →
          (nvmOf ⟨true, file'⟩).get i = (nvmOf backing).get i) ↔
        ∀ i, InBank o i → Untouched f es i →
          (nvmOf backing).get (i ^^^ bankSize) = (nvmOf backing).get i)) ∧
      (∃ i, o ≤ i ∧ i < o + 4 ∧ (nvmOf backing).get (i ^^^ bankSize) ≠ (nvmOf backing).get i) ∧
      (backing.file.attempt.2.attempt.1 = false → f'.file = none) := by
  have hf := serveForever_ok hone.present hserve
  have hstart := backed_setup (mirrorUnprogrammedSlot (nvmOf backing))
    (swapOverride slot slotGiven) backing.file.attempt.2 nvFile
  rw [← hf] at hstart
  have hback : f'.Backed :=
    Runs.invariant_of_run (fun g e g' hg hstep => (backed_step hstep).1 hg) hstart.1 hrun
  refine ⟨fun file' hfile' => ?_, hone.differs, fun hno => ?_⟩
  · -- an untouched byte of the file is the copied one
    have hbyte : ∀ i, InBank o i → Untouched f es i →
        (nvmOf ⟨true, file'⟩).get i = (nvmOf backing).get (i ^^^ bankSize) := by
      intro i hi hun
      calc (nvmOf ⟨true, file'⟩).get i = f'.mem.get i := by
            rw [← (hback file' hfile').2]
            rfl
        _ = f.mem.get i := run_untouched hun hrun
        _ = (nvmOf backing).get (i ^^^ bankSize) := by rw [hf, setup_mem, get_mirror hone hi]
    constructor
    · intro hkeep i hi hun
      exact (hbyte i hi hun).symm.trans (hkeep i hi hun)
    · intro hsame i hi hun
      exact (hbyte i hi hun).trans (hsame i hi hun)
  · exact Runs.invariant_of_run (I := fun g => g.file = none)
      (fun g e g' hg hstep => (backed_step hstep).2 hg) (hstart.2 hno) hrun

/-- A backing file with an image in slot A, and slot B erased. -/
def slotAOnly : HostPath :=
  ⟨true, ⟨total, fun i => if i = 3 then 0x20 else if i < bankSize then 0 else 0xFF, fun _ => true⟩⟩

theorem slotAOnly_oneSlot : OneSlot (nvmOf slotAOnly) bankSize :=
  .a (by decide +kernel) (by decide +kernel)

/-- Serving slot A of it without a state file. -/
theorem serve_slotAOnly :
    ∃ f file', serveForever "sp-flash.bin" slotAOnly ⟨none, fun _ => true⟩ 'a' false = .ok f ∧
      f.file = some file' := by
  have hboot : slotProgrammed (nvmOf slotAOnly)
      (bootSlot (swapOverride 'a' false) (loadNv none)) = some true := by
    decide +kernel
  have hread : slotAOnly.file.attempt.1 = true := rfl
  refine ⟨setup (mirrorUnprogrammedSlot (nvmOf slotAOnly)) (swapOverride 'a' false)
    slotAOnly.file.attempt.2 ⟨none, fun _ => true⟩, _, ?_, rfl⟩
  simp only [serveForever, if_pos (show slotAOnly.present = true from rfl), hread, if_true, hboot]

theorem serve_mirror_iff_slotAOnly :
    ∃ f, serveForever "sp-flash.bin" slotAOnly ⟨none, fun _ => true⟩ 'a' false = .ok f ∧
      ∀ file', f.file = some file' →
        ((∀ i, InBank bankSize i → Untouched f [] i →
            (nvmOf ⟨true, file'⟩).get i = (nvmOf slotAOnly).get i) ↔
          ∀ i, InBank bankSize i → Untouched f [] i →
            (nvmOf slotAOnly).get (i ^^^ bankSize) = (nvmOf slotAOnly).get i) := by
  obtain ⟨f, file', hserve, -⟩ := serve_slotAOnly
  exact ⟨f, hserve, (serve_mirror_iff slotAOnly_oneSlot hserve rfl).1⟩

/-- The first byte of slot B is 0xFF before, and 0 once the image is served. -/
theorem serve_writes_mirror :
    ¬ ∀ (path : String) (backing : HostPath) (nvFile : TextFile) (slot : Char) (slotGiven : Bool)
      (o : Nat) (es : List FlashEvent) (f f' : Flash) (file' : HostFile),
      OneSlot (nvmOf backing) o → serveForever path backing nvFile slot slotGiven = .ok f →
      Runs.run step es f = some f' → f'.file = some file' →
      ∀ i, InBank o i → Untouched f es i →
        (nvmOf ⟨true, file'⟩).get i = (nvmOf backing).get i := by
  intro h
  obtain ⟨f, file', hserve, hfile'⟩ := serve_slotAOnly
  have hkeep := h _ _ _ _ _ _ [] f f file' slotAOnly_oneSlot hserve rfl hfile' bankSize
    ⟨Nat.le_refl _, by decide⟩ trivial
  -- the file holds the array, which is the copy
  have hf := serveForever_ok rfl hserve
  have hback : f.Backed := by
    rw [hf]
    exact (backed_setup _ _ _ _).1
  have hload : nvmOf ⟨true, file'⟩ = f.mem := (hback file' hfile').2
  have hcopy : f.mem.get bankSize = 0 := by
    rw [hf, setup_mem, get_mirror slotAOnly_oneSlot ⟨Nat.le_refl _, by decide⟩]
    decide +kernel
  have hbefore : (nvmOf slotAOnly).get bankSize = 0xFF := by decide +kernel
  rw [hload, hcopy, hbefore] at hkeep
  exact absurd hkeep (by decide)

end Flash

end SpEmu
