import SpEmu.Lib.Bytes

/-!
# NOR flash arrays

What the instructions of a NOR flash do to an array of `n` bytes. Programming only clears bits: each
supplied byte is combined by bitwise and into the array, at consecutive addresses that wrap at the
end of the array. Erasing sets whole sectors, or the whole array, to `0xFF`.

`Op.apply` says it byte by byte. `landing n a j data` lists the supplied bytes that fall on address
`j`; with more than `n` bytes an address is programmed more than once. `apply_pageProgram_cons`
programs one byte and leaves the rest, which is how a loop over the data does it.
-/

set_option autoImplicit false

namespace Nor

open ByteMem

variable {n : Nat}

/-- An instruction that changes the array. -/
inductive Op where
  | sectorErase (addr : Nat)
  | bulkErase
  | pageProgram (addr : Nat) (data : List Byte)

/-- The bytes of `data`, laid out from `addr` on, whose address modulo `n` is `j`. -/
def landing (n addr j : Nat) (data : List Byte) : List Byte :=
  (data.zipIdx addr).filterMap fun x => if x.2 % n = j then some x.1 else none

/-- The array after an instruction, for sectors of `sector` bytes. -/
def Op.apply (sector : Nat) (m : Bytes n) : Op → Bytes n
  | .sectorErase addr => fun i => if i.val / sector = addr % n / sector then 0xFF else m i
  | .bulkErase => fun _ => 0xFF
  | .pageProgram addr data => fun i => (landing n addr i.val data).foldl (· &&& ·) (m i)

theorem landing_cons (addr j : Nat) (b : Byte) (data : List Byte) :
    landing n addr j (b :: data) =
      if addr % n = j then b :: landing n (addr + 1) j data else landing n (addr + 1) j data := by
  rw [landing, List.zipIdx_cons, List.filterMap_cons]
  split_ifs with h
  · rfl
  · rfl

@[simp] theorem apply_pageProgram_nil (sector addr : Nat) (m : Bytes n) :
    (Op.pageProgram addr []).apply sector m = m := rfl

/-- Programming one byte, then the rest at the next address. -/
theorem apply_pageProgram_cons (sector addr : Nat) (b : Byte) (data : List Byte) (m : Bytes n) :
    (Op.pageProgram addr (b :: data)).apply sector m =
      (Op.pageProgram (addr + 1) data).apply sector
        (m.splice (addr % n) 1 fun _ => m.get (addr % n) &&& b) := by
  funext i
  simp only [Op.apply, landing_cons]
  by_cases h : addr % n = i.val
  -- the byte falls on `i`: the splice has it already combined in
  · have hmem : addr % n ≤ i.val ∧ i.val < addr % n + 1 := by omega
    rw [if_pos h, List.foldl_cons, Bytes.splice, if_pos hmem, Bytes.get, dif_pos (h ▸ i.isLt)]
    exact congrArg (fun k => List.foldl _ (m k &&& b) _) (Fin.ext h.symm)
  · have hmem : ¬ (addr % n ≤ i.val ∧ i.val < addr % n + 1) := by omega
    rw [if_neg h, Bytes.splice, if_neg hmem]

end Nor
