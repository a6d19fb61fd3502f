import SpEmu.Lib.Bytes
import SpEmu.Lib.Runs

/-!
# The PUF key store of the RoT

`Puf` is the command engine: GENERATEKEY streams a keycode out of CODEOUTPUT, GETKEY takes one in
through CODEINPUT and streams the device seed out of KEYOUTPUT. Registers without a part in this are
a store.

IDXBLK_L is such a store too: no command looks at it. `contained_iff` says what that leaves of
index blocking. After a block, GETKEY keeps the seed in exactly when no keycode is completed with
a nonzero key size, and a lock holds exactly when nothing else is written to the register.
-/

set_option autoImplicit false

namespace SpEmu

open ByteMem Runs

namespace Puf

/-! ## Registers, command bits and status bits -/

def ctrl : Word := 0x00
def keyindexReg : Word := 0x04
def keysizeReg : Word := 0x08
def statReg : Word := 0x20
def allow : Word := 0x28
def keyinput : Word := 0x40
def codeinput : Word := 0x44
def codeoutput : Word := 0x48
def keyoutput : Word := 0x64
def ifstat : Word := 0xDC
def idxblkLReg : Word := 0x20C

def ctrlGeneratekey : Word := 1 <<< 3
def ctrlGetkey : Word := 1 <<< 6

def statBusy : Word := 1 <<< 0
def statSuccess : Word := 1 <<< 1
def statError : Word := 1 <<< 2
def statKeyoutavail : Word := 1 <<< 5
def statCodeinreq : Word := 1 <<< 6
def statCodeoutavail : Word := 1 <<< 7

/-- Enroll, start, set key and get key are all permitted. -/
def allowAll : Word := 0x0F

/-- KEYSIZE is a 6-bit field. -/
def keysizeMask : Word := 0x3F

end Puf

/-- The command engine. -/
structure Puf where
  keyindex : Word
  keysize : Word
  idxblkL : Word
  busy : Bool
  success : Bool
  error : Bool
  /-- The device seed that GETKEY streams. -/
  seed : Bytes 32
  /-- Keycode words to emit. -/
  codeout : List Word
  /-- Keycode words still to consume. -/
  codeinLeft : Nat
  /-- Key words to emit. -/
  keyout : List Word
  /-- The plain registers, 0 until written. -/
  regs : Word → Word

namespace Puf

def new (seed : Bytes 32) : Puf where
  keyindex := 0
  keysize := 0
  idxblkL := 0
  busy := false
  success := false
  error := false
  seed := seed
  codeout := []
  codeinLeft := 0
  keyout := []
  regs := fun _ => 0

variable (p : Puf)

/-- KEYSIZE holds the key length in units of 64 bits. -/
def keyBytes : Nat := p.keysize.toNat * 8

/-- The length of a keycode in words. -/
def keycodeWords : Nat := (20 + (p.keyBytes + 31) / 32 * 32) / 4

def stat : Word :=
  (if p.busy then statBusy else 0) ||| (if p.success then statSuccess else 0) |||
    (if p.error then statError else 0) ||| (if p.keyout ≠ [] then statKeyoutavail else 0) |||
    (if 0 < p.codeinLeft then statCodeinreq else 0) |||
    (if p.codeout ≠ [] then statCodeoutavail else 0)

/-! ## The commands -/

/-- The first word carries the key index in bits 11:8. -/
def startGenerate : Puf :=
  { p with
    success := false
    error := false
    codeout := ((p.keyindex &&& 0xF) <<< 8) ::
      (List.range (p.keycodeWords - 1)).map fun i => 0xC0DE0000 ||| BitVec.ofNat 32 (i + 1)
    busy := true }

def startGetkey : Puf :=
  { p with
    success := false, error := false, codeinLeft := p.keycodeWords, keyout := [], busy := true }

def popCodeout : Word × Puf :=
  let v := p.codeout.headD 0
  let p := { p with codeout := p.codeout.tail }
  (v, if p.codeout = [] then { p with busy := false, success := true } else p)

/-- The seed words of a key: one longer than the seed is clamped to it. -/
def seedWords : List Word :=
  (List.range (min p.keyBytes 32 / 4)).map fun i => leWord 4 fun j => p.seed.get (i * 4 + j)

/-- Take one keycode word; the last one makes the seed available. The words are not looked at. -/
def consumeCodein : Puf :=
  if 0 < p.codeinLeft then
    let p := { p with codeinLeft := p.codeinLeft - 1 }
    if p.codeinLeft = 0 then { p with keyout := p.keyout ++ p.seedWords } else p
  else p

def popKeyout : Word × Puf :=
  let v := p.keyout.headD 0
  let p := { p with keyout := p.keyout.tail }
  (v, if p.keyout = [] ∧ p.codeinLeft = 0 then { p with busy := false, success := true } else p)

/-! ## Register accesses -/

def read (off : Word) : Word × Puf :=
  if off = statReg then (p.stat, p)
  else if off = allow then (allowAll, p)
  else if off = codeoutput then p.popCodeout
  else if off = keyoutput then p.popKeyout
  else if off = ifstat then (0, p)
  else if off = idxblkLReg then (p.idxblkL, p)
  else if off = keyindexReg then (p.keyindex, p)
  else if off = keysizeReg then (p.keysize, p)
  else (p.regs off, p)

def write (off val : Word) : Puf :=
  if off = ctrl then
    if val &&& ctrlGeneratekey ≠ 0 then p.startGenerate
    else if val &&& ctrlGetkey ≠ 0 then p.startGetkey
    else p
  else if off = keyindexReg then { p with keyindex := val }
  else if off = keysizeReg then { p with keysize := val &&& keysizeMask }
  else if off = codeinput then p.consumeCodein
  else if off = idxblkLReg then { p with idxblkL := val }
  -- the SETKEY path, unused
  else if off = keyinput then p
  else { p with regs := Function.update p.regs off val }

/-- An access of the firmware to the register block. -/
inductive Access where
  | read (off : Word)
  | write (off val : Word)
  deriving DecidableEq

def step (p : Puf) : Access → Option Puf
  | .read off => some (p.read off).2
  | .write off val => some (p.write off val)

theorem isSome_step (p : Puf) (a : Access) : (step p a).isSome := by
  cases a <;> rfl

/-! ## Index blocking -/

/-- The CTRL values that start a GETKEY. -/
def StartsGetkey (val : Word) : Prop := val &&& ctrlGeneratekey = 0 ∧ val &&& ctrlGetkey ≠ 0

/-- KEYOUTPUT has no word of the seed to give. -/
def Empty (p : Puf) : Prop := p.keyout = []

/-- The access does not complete a keycode with a nonzero key size. -/
def NoDelivery (p : Puf) : Access → Prop
  | .write off _ => off = codeinput → p.codeinLeft = 1 → p.keysize = 0
  | .read _ => True

/-- The access leaves a value in IDXBLK_L that blocks. -/
def KeepsBlock (blocks : Word → Prop) (_ : Puf) : Access → Prop
  | .write off val => off = idxblkLReg → blocks val
  | .read _ => True

theorem seedWords_eq_nil : p.seedWords = [] ↔ p.keysize = 0 := by
  have hzero : p.keysize = 0 ↔ p.keysize.toNat = 0 :=
    ⟨fun h => by rw [h]; rfl, fun h => BitVec.eq_of_toNat_eq h⟩
  rw [seedWords, List.map_eq_nil_iff, List.range_eq_nil, hzero, keyBytes]
  omega

theorem keyout_popKeyout : p.popKeyout.2.keyout = p.keyout.tail := by
  unfold popKeyout
  dsimp only
  split_ifs <;> rfl

theorem popCodeout_frame :
    p.popCodeout.2.keyout = p.keyout ∧ p.popCodeout.2.idxblkL = p.idxblkL := by
  unfold popCodeout
  dsimp only
  split_ifs <;> exact ⟨rfl, rfl⟩

theorem idxblkL_popKeyout : p.popKeyout.2.idxblkL = p.idxblkL := by
  unfold popKeyout
  dsimp only
  split_ifs <;> rfl

/-- Reading never adds a key word, and leaves IDXBLK_L alone. -/
theorem read_frame (off : Word) :
    (Empty p → Empty (p.read off).2) ∧ (p.read off).2.idxblkL = p.idxblkL := by
  unfold read
  split_ifs with h1 h2 h3 h4
  case pos => exact ⟨id, rfl⟩
  case pos => exact ⟨id, rfl⟩
  case pos => exact ⟨fun h => (popCodeout_frame p).1.trans h, (popCodeout_frame p).2⟩
  case pos =>
    refine ⟨fun h => ?_, idxblkL_popKeyout p⟩
    rw [Empty, keyout_popKeyout, h]
    rfl
  all_goals exact ⟨id, rfl⟩

theorem idxblkL_consumeCodein : p.consumeCodein.idxblkL = p.idxblkL := by
  unfold consumeCodein
  dsimp only
  split_ifs <;> rfl

/-- A keycode word makes the seed available when it is the last one of a nonempty key. -/
theorem empty_consumeCodein (h : Empty p) :
    Empty p.consumeCodein ↔ (p.codeinLeft = 1 → p.keysize = 0) := by
  unfold consumeCodein
  dsimp only
  split_ifs with hleft hlast
  · have hone : p.codeinLeft = 1 := by omega
    have hkey : Empty { p with codeinLeft := p.codeinLeft - 1, keyout := p.keyout ++ p.seedWords } ↔
        p.seedWords = [] := by
      rw [Empty, h, List.nil_append]
    exact hkey.trans (p.seedWords_eq_nil.trans (by simp [hone]))
  · have hne : p.codeinLeft ≠ 1 := by omega
    exact iff_of_true h fun hone => absurd hone hne
  · have hne : p.codeinLeft ≠ 1 := by omega
    exact iff_of_true h fun hone => absurd hone hne

theorem write_codeinput (val : Word) : p.write codeinput val = p.consumeCodein := rfl

/-- A GETKEY empties the queue, and no other write but a keycode word touches it. -/
theorem empty_write (h : Empty p) {off : Word} (hoff : off ≠ codeinput) (val : Word) :
    Empty (p.write off val) := by
  unfold write
  split_ifs
  · exact h
  · rfl
  · exact h
  · exact h
  · exact h
  · exact h
  · exact h
  · exact h

theorem empty_step {p p' : Puf} {a : Access} (h : Empty p) (hstep : step p a = some p') :
    Empty p' ↔ NoDelivery p a := by
  cases a with
  | read off =>
      obtain rfl := Option.some.inj hstep
      exact iff_of_true ((read_frame p off).1 h) trivial
  | write off val =>
      obtain rfl := Option.some.inj hstep
      by_cases hoff : off = codeinput
      · subst hoff
        rw [write_codeinput, empty_consumeCodein p h]
        exact ⟨fun hk _ => hk, fun hk => hk rfl⟩
      · exact iff_of_true (empty_write p h hoff val) fun hc => absurd hc hoff

theorem idxblkL_write_of_ne {off : Word} (hoff : off ≠ idxblkLReg) (val : Word) :
    (p.write off val).idxblkL = p.idxblkL := by
  unfold write
  split_ifs
  · rfl
  · rfl
  · rfl
  · rfl
  · rfl
  · exact idxblkL_consumeCodein p
  · rfl
  · rfl

theorem idxblkL_write (val : Word) : (p.write idxblkLReg val).idxblkL = val := rfl

theorem blocks_step {blocks : Word → Prop} {p p' : Puf} {a : Access} (h : blocks p.idxblkL)
    (hstep : step p a = some p') : blocks p'.idxblkL ↔ KeepsBlock blocks p a := by
  cases a with
  | read off =>
      obtain rfl := Option.some.inj hstep
      rw [(read_frame p off).2]
      exact iff_of_true h trivial
  | write off val =>
      obtain rfl := Option.some.inj hstep
      by_cases hoff : off = idxblkLReg
      · subst hoff
        rw [idxblkL_write]
        exact ⟨fun hk _ => hk, fun hk => hk rfl⟩
      · rw [idxblkL_write_of_ne p hoff val]
        exact iff_of_true h fun hc => absurd hc hoff

/-- What index blocking promises from a state on: once a GETKEY is started KEYOUTPUT never holds a
word of the seed, and a locked block field stays blocked. -/
def Contained (blocks locks : Word → Prop) (p : Puf) (tail : List Access) : Prop :=
  (∀ mid val post p', tail = mid ++ .write ctrl val :: post → StartsGetkey val →
    run step (mid ++ [.write ctrl val]) p = some p' → Always step Empty post p') ∧
  (locks p.idxblkL → Always step (fun p => blocks p.idxblkL) tail p)

/-- No GETKEY of the run completes a keycode with a nonzero key size, and after a lock nothing that
does not block is written to IDXBLK_L. -/
def Withheld (blocks locks : Word → Prop) (p : Puf) (tail : List Access) : Prop :=
  (∀ mid val post p', tail = mid ++ .write ctrl val :: post → StartsGetkey val →
    run step (mid ++ [.write ctrl val]) p = some p' → Along step NoDelivery post p') ∧
  (locks p.idxblkL → Along step (KeepsBlock blocks) tail p)

theorem empty_startGetkey {p p' : Puf} {mid : List Access} {val : Word} (hval : StartsGetkey val)
    (hrun : run step (mid ++ [.write ctrl val]) p = some p') : Empty p' := by
  rw [run_append, Option.bind_eq_some_iff] at hrun
  obtain ⟨q, -, hlast⟩ := hrun
  have hwrite : q.write ctrl val = q.startGetkey := by
    rw [write, if_pos rfl, if_neg (not_not.mpr hval.1), if_pos hval.2]
  obtain rfl : q.write ctrl val = p' := Option.some.inj hlast
  rw [hwrite]
  rfl

/-- From the block write on, the block contains the seed exactly when nothing would have delivered
it anyway, and the lock holds exactly when nothing is written to the register that unblocks. -/
theorem contained_iff (blocks locks : Word → Prop) (p : Puf) {val : Word} (hval : blocks val)
    (tail : List Access) :
    Contained blocks locks (p.write idxblkLReg val) tail ↔
      Withheld blocks locks (p.write idxblkLReg val) tail := by
  have hlock : Always step (fun p => blocks p.idxblkL) tail (p.write idxblkLReg val) ↔
      Along step (KeepsBlock blocks) tail (p.write idxblkLReg val) :=
    always_iff_along (fun _ _ _ h hstep => blocks_step h hstep) isSome_step hval
  refine and_congr ?_ (imp_congr_right fun _ => hlock)
  refine forall_congr' fun mid => forall_congr' fun c => forall_congr' fun post =>
    forall_congr' fun p' => forall_congr' fun _ => forall_congr' fun hc =>
      forall_congr' fun hrun => ?_
  exact always_iff_along (fun _ _ _ h hstep => empty_step h hstep) isSome_step
    (empty_startGetkey hc hrun)

/-- Index 1 is blocked: a nonzero field at bits 3:2. -/
def blocksIndexOne (val : Word) : Prop := val &&& 0xC ≠ 0

/-- The low indices are locked: a nonzero field at bits 31:30. -/
def locksLow (val : Word) : Prop := val &&& 0xC0000000 ≠ 0

instance (val : Word) : Decidable (blocksIndexOne val) := by
  unfold blocksIndexOne
  infer_instance

instance (p : Puf) (a : Access) : Decidable (NoDelivery p a) := by
  cases a <;> unfold NoDelivery <;> infer_instance

theorem contained_iff_reset :
    Contained blocksIndexOne locksLow ((new fun _ => 0xA5).write idxblkLReg 0x80000008)
        [.write keysizeReg 4, .write ctrl ctrlGetkey, .write codeinput 0x100] ↔
      Withheld blocksIndexOne locksLow ((new fun _ => 0xA5).write idxblkLReg 0x80000008)
        [.write keysizeReg 4, .write ctrl ctrlGetkey, .write codeinput 0x100] :=
  contained_iff blocksIndexOne locksLow (new fun _ => 0xA5) (by decide) _

/-- After index 1 is blocked and locked, a GETKEY with a keycode for it still gives the seed. -/
theorem not_contained :
    ¬ ∀ (p : Puf) (val : Word) (tail : List Access), blocksIndexOne val →
      Contained blocksIndexOne locksLow (p.write idxblkLReg val) tail := by
  intro h
  have hkey := (h (new fun _ => 0xA5) 0x80000008 (.write keysizeReg 4 ::
    .write ctrl ctrlGetkey :: List.replicate 13 (.write codeinput 0x100)) (by decide)).1
      [.write keysizeReg 4] ctrlGetkey (List.replicate 13 (.write codeinput 0x100)) _ rfl
      ⟨by decide, by decide⟩ rfl
  have hquiet := (always_iff_along (C := NoDelivery)
    (fun _ _ _ h hstep => empty_step h hstep) isSome_step hkey.1).mp hkey
  revert hquiet
  decide +kernel

/-! ## Independence of the seed -/

/-- The values that the reads of a run return. -/
def outputs : List Access → Puf → List Word
  | [], _ => []
  | .read off :: tail, p => (p.read off).1 :: outputs tail (p.read off).2
  | .write off val :: tail, p => outputs tail (p.write off val)

/-- The same engine on a device with another seed. -/
def reseed (seed : Bytes 32) : Puf := { p with seed := seed }

theorem read_reseed (seed : Bytes 32) (off : Word) :
    (p.reseed seed).read off = ((p.read off).1, (p.read off).2.reseed seed) := by
  have hcode : (p.reseed seed).popCodeout = (p.popCodeout.1, p.popCodeout.2.reseed seed) := by
    by_cases h : p.codeout.tail = []
    · simp [popCodeout, reseed, h]
    · simp [popCodeout, reseed, h]
  have hkey : (p.reseed seed).popKeyout = (p.popKeyout.1, p.popKeyout.2.reseed seed) := by
    by_cases h : p.keyout.tail = [] ∧ p.codeinLeft = 0
    · simp [popKeyout, reseed, h]
    · simp [popKeyout, reseed, h]
  unfold read
  split_ifs
  · rfl
  · rfl
  · exact hcode
  · exact hkey
  · rfl
  · rfl
  · rfl
  · rfl
  · rfl

theorem write_reseed {off val : Word} (hquiet : NoDelivery p (.write off val)) (seed : Bytes 32) :
    (p.reseed seed).write off val = (p.write off val).reseed seed := by
  by_cases hoff : off = codeinput
  · subst hoff
    rw [write_codeinput, write_codeinput]
    by_cases hone : p.codeinLeft = 1
    -- the last word of a keycode of an empty key: there is nothing to stream
    · have hnil : ∀ r : Puf, r.keysize = p.keysize → r.seedWords = [] := fun r hr =>
        r.seedWords_eq_nil.mpr (hr.trans (hquiet rfl hone))
      simp [consumeCodein, reseed, hone, hnil]
    · by_cases hleft : 0 < p.codeinLeft
      · have hlast : ¬ p.codeinLeft - 1 = 0 := by omega
        simp [consumeCodein, reseed, hleft, hlast]
      · simp [consumeCodein, reseed, hleft]
  · unfold write startGenerate startGetkey
    split_ifs <;> rfl

/-- While nothing is delivered, what the firmware reads does not depend on the seed. -/
theorem outputs_reseed {tail : List Access} (hquiet : Along step NoDelivery tail p)
    (seed : Bytes 32) : outputs tail (p.reseed seed) = outputs tail p := by
  induction tail generalizing p with
  | nil => rfl
  | cons a tail ih =>
      cases a with
      | read off =>
          rw [outputs, outputs, read_reseed]
          exact congrArg _ (ih (p.read off).2 (hquiet.2 _ rfl))
      | write off val =>
          rw [outputs, outputs, write_reseed p hquiet.1]
          exact ih (p.write off val) (hquiet.2 _ rfl)

end Puf

end SpEmu
