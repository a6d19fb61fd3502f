import SpEmu.Flash.RotPages
import SpEmu.Flash.RotPersist
import SpEmu.Mem.BootRom

/-!
# The erased marks of the RoT flash

A fresh device is seeded with images and protected pages, whose contents come from the
configuration, from captured pages and from the identity of the instance; `RotSeed` holds them, and
`seedFresh` lays them down in the order of the source.

The marks and the bytes are kept by separate code. `PageStep` is what an operation may do to one
page; every operation and every seed write does only that (`opStep_pages`), so that a page that is
marked erased always reads all ones (`marks_sound`).
-/

set_option autoImplicit false

namespace SpEmu

open ByteMem

namespace RotFlash

/-! ## Seeding -/

def imageABase : Nat := 0x10000
def imageBBase : Nat := 0x50000
def nmpa : Nat := 0x9EC00
def nmpaPages : Nat := 10
def nmpaUuid : Nat := 0x9FC70
def stage0Base : Nat := 0
def stage0NextBase : Nat := 0x2000

/-- What a fresh device holds. -/
structure RotSeed where
  /-- The image of slot A, unless the slot is left erased. -/
  imageA : Option (List Byte)
  imageB : Option (List Byte)
  cmpa : Bytes page
  cfpa : Bytes page
  /-- A captured NMPA region in place of the bundled pages. -/
  nmpaRegion : Option (List Byte)
  nmpaP0 : Bytes page
  nmpaP1 : Bytes page
  nmpaP8 : Bytes page
  nmpaP9 : Bytes page
  uuid : Bytes 16
  stage0 : List Byte

/-- All of the bytes of a page. -/
def pageList (m : Bytes page) : List Byte := List.ofFn m

/-- Write the image of a slot, if there is one. -/
def writeImage (base : Nat) (image : Option (List Byte)) (f : RotFlash) : Option RotFlash :=
  match image with
  | some bytes => f.writePages base bytes
  | none => some f

/-- The NMPA region: a captured one, or the bundled pages with the UUID of the instance. -/
def seedNmpa (s : RotSeed) (f : RotFlash) : Option RotFlash :=
  match s.nmpaRegion with
  | some blob => f.writePages nmpa (blob.take (nmpaPages * page))
  | none => do
      let f ← [(0, s.nmpaP0), (1, s.nmpaP1), (8, s.nmpaP8), (9, s.nmpaP9)].foldlM
        (fun f (p : Nat × Bytes page) => f.writePages (nmpa + p.1 * page) (pageList p.2)) f
      setErased { f with mem := f.mem.splice nmpaUuid 16 s.uuid.get } (nmpaUuid / page) false

def seedFresh (s : RotSeed) (f : RotFlash) : Option RotFlash := do
  let f ← f.writeImage imageABase s.imageA
  let f ← f.writeImage imageBBase s.imageB
  let f ← f.writePages cmpa (pageList s.cmpa)
  let f ← f.writePages cfpaPing (pageList s.cfpa)
  let f ← f.writePages cfpaPong (List.replicate page 0)
  let f ← f.seedNmpa s
  let f ← f.writePages stage0Base s.stage0
  f.writePages stage0NextBase s.stage0

/-- A device before it is seeded: every page erased. -/
def unseeded (bits : HostFile) : RotFlash where
  mem := Bytes.const size erasedByte
  erased := Bytes.const (npages / 8) 0xFF
  pageBuf := Bytes.const page erasedByte
  starta := 0
  stopa := 0
  dataw := fun _ => 0
  status := 0
  file := none
  bitsetFile := bits
  unknownCmdsLogged := 0
  bitsetWriteFailed := false

/-- The model on a fresh device. The data file is opened after the seeding, if that works. -/
def newFresh (s : RotSeed) (file : Option HostFile) (bits : HostFile) : Option RotFlash :=
  ((unseeded bits).seedFresh s).map fun f => ({ f with file := file }).persistAll

/-! ## One page in one operation -/

variable {f f' f'' : RotFlash} {p : Nat}

/-- A page is kept, or erased, or marked as programmed. -/
def PageStep (f f' : RotFlash) (p : Nat) : Prop :=
  PageKept f f' p ∨ f'.Blank p ∨ f'.isErased p ≠ some true

theorem PageStep.trans (h : PageStep f f' p) (h' : PageStep f' f'' p) : PageStep f f'' p := by
  rcases h' with hk | hb | hm
  · rcases h with hk' | hb' | hm'
    · exact Or.inl (hk'.trans hk)
    · exact Or.inr (Or.inl (blank_of_pageKept hk hb'))
    · exact Or.inr (Or.inr (by rwa [hk.2]))
  · exact Or.inr (Or.inl hb)
  · exact Or.inr (Or.inr hm)

theorem pageStep_of_eq (hm : f'.mem = f.mem) (he : f'.erased = f.erased) (p : Nat) :
    PageStep f f' p :=
  Or.inl (pageKept_of_eq hm he p)

theorem pageStep_of_quiet {r : Option RotFlash} (h : Quiet f r) (hr : r = some f') (p : Nat) :
    PageStep f f' p := by
  obtain ⟨g, hg, hm, he⟩ := h
  obtain rfl := Option.some.inj (hg.symm.trans hr)
  exact pageStep_of_eq hm he p

/-- A step that returns and does to each page only what it may. -/
def Seeds (f : RotFlash) (r : Option RotFlash) : Prop :=
  ∃ f', r = some f' ∧ ∀ p, PageStep f f' p

theorem Seeds.bind {r : Option RotFlash} {k : RotFlash → Option RotFlash} (h : Seeds f r)
    (hk : ∀ f', Seeds f' (k f')) : Seeds f (r.bind k) := by
  obtain ⟨f', rfl, hp⟩ := h
  obtain ⟨f'', hk', hp'⟩ := hk f'
  exact ⟨f'', hk', fun p => (hp p).trans (hp' p)⟩

theorem foldlM_seeds {α : Type} {k : RotFlash → α → Option RotFlash}
    (hk : ∀ f x, Seeds f (k f x)) (l : List α) (f : RotFlash) : Seeds f (l.foldlM k f) := by
  induction l generalizing f with
  | nil => exact ⟨f, rfl, pageStep_of_eq rfl rfl⟩
  | cons x l ih =>
      rw [List.foldlM_cons]
      exact (hk f x).bind fun f' => ih f'

/-- Marking pages as programmed touches no byte and no other mark. -/
theorem foldlM_setErased {ps : List Nat} (hps : ∀ q ∈ ps, q < npages) (f : RotFlash) :
    ∃ f', ps.foldlM (fun f q => setErased f q false) f = some f' ∧ f'.mem = f.mem ∧
      ∀ q, if q ∈ ps then f'.isErased q = some false else f'.isErased q = f.isErased q := by
  induction ps generalizing f with
  | nil => exact ⟨f, rfl, rfl, fun _ => rfl⟩
  | cons q ps ih =>
      obtain ⟨f₁, hf₁, hmem₁, -, hothers⟩ := setErased_spec f false (hps q List.mem_cons_self)
      obtain ⟨f', hf', hmem', hmarks⟩ := ih (fun r hr => hps r (List.mem_cons_of_mem _ hr)) f₁
      refine ⟨f', ?_, hmem'.trans hmem₁, fun r => ?_⟩
      · rw [List.foldlM_cons, hf₁]
        exact hf'
      · have hr := hmarks r
        by_cases hmem : r ∈ ps
        · rw [if_pos hmem] at hr
          rwa [if_pos (List.mem_cons_of_mem _ hmem)]
        · rw [if_neg hmem] at hr
          by_cases hrq : r = q
          · subst hrq
            rw [if_pos List.mem_cons_self, hr, setErased_self hf₁]
          · rw [if_neg (by simp [hmem, hrq]), hr, hothers r hrq]

/-- Writing bytes marks every page that they touch. -/
theorem writePages_seeds (f : RotFlash) (off : Nat) (bytes : List Byte) :
    Seeds f (f.writePages off bytes) := by
  by_cases hn : min bytes.length (size - off) = 0
  · exact ⟨f, if_pos hn, fun p => pageStep_of_eq rfl rfl p⟩
  · -- the pages touched lie in the array
    have hin : ∀ q ∈ List.range' (off / page)
        ((off + min bytes.length (size - off) - 1) / page + 1 - off / page), q < npages := by
      intro q hq
      rw [List.mem_range'_1] at hq
      simp only [page, size, npages] at hq hn ⊢
      omega
    obtain ⟨f', hf', hmem, hmarks⟩ := foldlM_setErased hin
      { f with mem := f.mem.splice off (min bytes.length (size - off)) fun i => bytes.getD i 0 }
    refine ⟨f', by rw [writePages, if_neg hn]; exact hf', fun p => ?_⟩
    have hp := hmarks p
    split at hp
    · exact Or.inr (Or.inr (by rw [hp]; decide))
    · next hout =>
        rw [List.mem_range'_1] at hout
        refine Or.inl ⟨fun i hi => ?_, hp⟩
        rw [hmem, Bytes.get_splice_of_not_mem]
        simp only [page, size] at hi hout hn ⊢
        omega

/-! ## Operations -/

theorem loadImageAt_pages {addr : Word} {bytes : List Byte}
    (h : f.loadImageAt addr bytes = some f') (p : Nat) : PageStep f f' p := by
  obtain ⟨f₁, hf₁, rfl⟩ := Option.map_eq_some_iff.mp h
  obtain ⟨g, hg, hpages⟩ := f.writePages_seeds addr.toNat bytes
  obtain rfl := Option.some.inj (hg.symm.trans hf₁)
  exact (hpages p).trans (pageStep_of_eq rfl rfl p)

theorem regWrite_pages {off val : Word} (h : f.regWrite off val = some f') (p : Nat) :
    PageStep f f' p := by
  by_cases hcmd : off = regCmd
  · subst hcmd
    have hdo : f.doCmd val = some f' := h
    by_cases herase : val &&& 0xF = cmdCodeErase
    · rw [doCmd_erase f herase] at hdo
      by_cases hp : p < npages ∧ f.firstPage ≤ p ∧ p ≤ f.lastPage
      · exact Or.inr (Or.inl (cmdErase_blank hdo hp))
      · exact Or.inl (cmdErase_kept hdo hp)
    · by_cases hprog : val &&& 0xF = cmdCodeProgram
      · rw [doCmd_program f hprog] at hdo
        obtain ⟨g, hg, hkept⟩ := f.cmdProgram_spec
        obtain rfl := Option.some.inj (hg.symm.trans hdo)
        by_cases hp : p < npages ∧ p = f.firstPage
        · obtain ⟨hlt, rfl⟩ := hp
          obtain ⟨g', hg', hmark, -⟩ := cmdProgram_page hlt
          obtain rfl := Option.some.inj (hg'.symm.trans hdo)
          exact Or.inr (Or.inr (by rw [hmark]; decide))
        · exact Or.inl (hkept p hp)
      · exact pageStep_of_quiet (f.doCmd_quiet herase hprog) hdo p
  · exact pageStep_of_quiet (f.regWrite_quiet val hcmd) h p

theorem opStep_pages {op : Op} (h : f.opStep op = some f') (p : Nat) : PageStep f f' p := by
  cases op with
  | load addr bytes => exact loadImageAt_pages h p
  | reg off val => exact regWrite_pages h p

/-! ## Soundness of the marks -/

/-- A page that is marked erased reads all ones. -/
def MarksSound (f : RotFlash) : Prop :=
  ∀ p, f.isErased p = some true → ∀ i, i < page → f.mem.get (p * page + i) = erasedByte

theorem MarksSound.step (h : f.MarksSound) (hp : ∀ p, PageStep f f' p) : f'.MarksSound := by
  intro p hmark i hi
  rcases hp p with hk | hb | hm
  · rw [hk.1 i hi]
    exact h p (hk.2.symm.trans hmark) i hi
  · exact hb.1 i hi
  · exact absurd hmark hm

theorem writeImage_seeds (f : RotFlash) (base : Nat) (image : Option (List Byte)) :
    Seeds f (f.writeImage base image) := by
  cases image with
  | none => exact ⟨f, rfl, pageStep_of_eq rfl rfl⟩
  | some bytes => exact f.writePages_seeds base bytes

/-- The UUID lies in one page, which is marked. -/
theorem uuid_seeds (f : RotFlash) (uuid : Bytes 16) :
    Seeds f (setErased { f with mem := f.mem.splice nmpaUuid 16 uuid.get }
      (nmpaUuid / page) false) := by
  obtain ⟨f', hf', hmem, -, hothers⟩ :=
    setErased_spec { f with mem := f.mem.splice nmpaUuid 16 uuid.get } false
      (show nmpaUuid / page < npages by decide)
  refine ⟨f', hf', fun p => ?_⟩
  by_cases hp : p = nmpaUuid / page
  · exact Or.inr (Or.inr (by rw [hp, setErased_self hf']; decide))
  · refine Or.inl ⟨fun i hi => ?_, hothers p hp⟩
    rw [hmem, Bytes.get_splice_of_not_mem]
    simp only [page, nmpaUuid] at hi hp ⊢
    omega

theorem seedNmpa_seeds (s : RotSeed) (f : RotFlash) : Seeds f (f.seedNmpa s) := by
  rw [seedNmpa]
  cases s.nmpaRegion with
  | some blob => exact f.writePages_seeds _ _
  | none =>
      exact (foldlM_seeds (fun f p => f.writePages_seeds _ _) _ f).bind
        fun f' => f'.uuid_seeds s.uuid

theorem seedFresh_seeds (s : RotSeed) (f : RotFlash) : Seeds f (f.seedFresh s) :=
  (f.writeImage_seeds _ _).bind fun f => (f.writeImage_seeds _ _).bind fun f =>
    (f.writePages_seeds _ _).bind fun f => (f.writePages_seeds _ _).bind fun f =>
      (f.writePages_seeds _ _).bind fun f => (f.seedNmpa_seeds s).bind fun f =>
        (f.writePages_seeds _ _).bind fun f => f.writePages_seeds _ _

theorem unseeded_sound (bits : HostFile) : (unseeded bits).MarksSound := by
  intro p hmark i hi
  have hidx : p / 8 < npages / 8 := by
    by_contra hout
    simp only [isErased, if_neg hout] at hmark
    cases hmark
  have hin : p * page + i < size := by
    simp only [page, size, npages] at hidx hi ⊢
    omega
  show Bytes.get (Bytes.const size erasedByte) _ = _
  rw [Bytes.get, dif_pos hin]
  rfl

/-- A fresh device always comes up. -/
theorem newFresh_seeds (s : RotSeed) (file : Option HostFile) (bits : HostFile) :
    Seeds (unseeded bits) (newFresh s file bits) := by
  obtain ⟨f, hf, hp⟩ := (unseeded bits).seedFresh_seeds s
  refine ⟨_, by rw [newFresh, hf, Option.map_some], fun p => (hp p).trans ?_⟩
  exact pageStep_of_eq rfl rfl p

/-- **The erased marks are sound.** A fresh device comes up, and in every state that image loads
and register writes lead to from it, a page that is marked erased reads all ones. -/
theorem marks_sound (s : RotSeed) (file : Option HostFile) (bits : HostFile) :
    ∃ f, newFresh s file bits = some f ∧
      ∀ (ops : List Op) (f' : RotFlash), Runs.run opStep ops f = some f' →
        ∀ p, f'.isErased p = some true →
          ∀ i, i < page → f'.mem.get (p * page + i) = erasedByte := by
  obtain ⟨f, hf, hp⟩ := newFresh_seeds s file bits
  refine ⟨f, hf, fun ops f' hrun => ?_⟩
  have hsound : f.MarksSound := (unseeded_sound bits).step hp
  exact Runs.invariant_of_run (I := MarksSound)
    (fun _ _ _ h hstep => h.step (opStep_pages hstep)) hsound hrun

end RotFlash

end SpEmu
