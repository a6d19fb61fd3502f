import SpEmu.Mem.Memory

/-!
# Image verification in the boot ROM

The boot ROM verifies a signed image against the protected pages of the RoT flash. Parsing
those pages and checking the certificate chain and the signature are the host's: `Verifier`
has them as parameters. What is modelled is which bytes they are given.

The start address comes from the guest, and so does the image length behind it. The length is
harmless; an address whose length field lies past the end of the array is not
(`isSome_verifySlot_iff`).
-/

set_option autoImplicit false

namespace SpEmu

open ByteMem

/-- The host's page parsers and its signature check. -/
structure Verifier where
  cmpaParses : Bytes RotFlash.page → Bool
  cfpaParses : Bytes RotFlash.page → Bool
  /-- The version of a page that parses. -/
  cfpaVersion : Bytes RotFlash.page → Word
  /-- The check of an image against the two pages. -/
  verifyImage : List Byte → Bytes RotFlash.page → Bytes RotFlash.page → Bool

namespace RotFlash

def cfpaPing : Nat := 0x9E000
def cfpaPong : Nat := 0x9E200
def cmpa : Nat := 0x9E400

variable (f : RotFlash)

/-- The page at an address of the array. -/
def pageAt (a : Nat) : Bytes page := fun i => f.mem.get (a + i)

/-- The version of the page at an address; a page that does not parse reads as version 0. -/
def versionAt (verifier : Verifier) (a : Nat) : Word :=
  if verifier.cfpaParses (f.pageAt a) then verifier.cfpaVersion (f.pageAt a) else 0

/-- The higher version of ping and pong; ping wins a tie. -/
def activeCfpa (verifier : Verifier) : Nat :=
  if f.versionAt verifier cfpaPong ≤ f.versionAt verifier cfpaPing then cfpaPing else cfpaPong

/-- Up to `len` bytes from `addr` on. -/
def slice (addr : Word) (len : Nat) : List Byte :=
  let o := min addr.toNat size
  (List.range (min (o + len) size - o)).map fun i => f.mem.get (o + i)

end RotFlash

namespace Romapi

/-- The offset of the image length in the image header. -/
def nxpImageLengthOffset : Word := 0x20

/-- Verify the image at `start`, which may be a secure alias. A length field that is not
plausible stands for the whole window. -/
def verifySlot (verifier : Verifier) (flash : Option RotFlash) (start : Word) : Option Bool :=
  match flash with
  | none => some false
  | some f => do
      let start := start &&& ~~~Mem.lpc55SecureAliasBit
      let hdrLen ← f.readMem32 (start + nxpImageLengthOffset)
      let len :=
        if 0x100 ≤ hdrLen.toNat ∧ hdrLen.toNat ≤ RotFlash.size then hdrLen.toNat
        else RotFlash.size
      let cmpa := f.pageAt RotFlash.cmpa
      let cfpa := f.pageAt (f.activeCfpa verifier)
      some (verifier.cmpaParses cmpa && verifier.cfpaParses cfpa &&
        verifier.verifyImage (f.slice start len) cmpa cfpa)

/-- The byte address of the image length of the image at `start`. -/
def lengthField (start : Word) : Nat :=
  ((start &&& ~~~Mem.lpc55SecureAliasBit) + nxpImageLengthOffset).toNat

theorem isSome_readMem32_iff (f : RotFlash) (a : Word) :
    (f.readMem32 a).isSome ↔ a.toNat ≤ RotFlash.size := by
  have hread : a.toNat + min (RotFlash.size - a.toNat) 4 ≤ RotFlash.size ↔
      a.toNat ≤ RotFlash.size := by omega
  rw [RotFlash.readMem32, Option.isSome_map, RotFlash.readBytes]
  split
  · next h => exact iff_of_true rfl (hread.mp h)
  · next h => exact iff_of_false nofun fun hle => h (hread.mpr hle)

/-- Verification gives a verdict, whatever the flash holds, if and only if the length field
starts within the array or at its end. -/
theorem isSome_verifySlot_iff (verifier : Verifier) (flash : Option RotFlash) (start : Word) :
    (verifySlot verifier flash start).isSome ↔
      (flash.isSome → lengthField start ≤ RotFlash.size) := by
  cases flash with
  | none => exact iff_of_true rfl nofun
  | some f =>
      have hlen := isSome_readMem32_iff f
        ((start &&& ~~~Mem.lpc55SecureAliasBit) + nxpImageLengthOffset)
      rw [← lengthField] at hlen
      simp only [verifySlot, Option.isSome_some, true_implies, ← hlen]
      cases f.readMem32 ((start &&& ~~~Mem.lpc55SecureAliasBit) + nxpImageLengthOffset) with
      | none => exact Iff.rfl
      | some v => exact Iff.rfl

/-- An image said to start at 2 MB, in a flash of 1 MB. -/
theorem verifySlot_past_end :
    ¬ ∀ (verifier : Verifier) (flash : Option RotFlash) (start : Word),
      (verifySlot verifier flash start).isSome := by
  intro h
  have hsome := h ⟨fun _ => true, fun _ => true, fun _ => 0, fun _ _ _ => true⟩
    (some (RotFlash.ofFiles ⟨0, fun _ => 0, fun _ => true⟩ ⟨0, fun _ => 0, fun _ => true⟩))
    0x00200000
  cases hsome

end Romapi

end SpEmu
