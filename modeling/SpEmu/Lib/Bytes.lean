import Mathlib.Logic.Function.Basic
import Mathlib.Tactic.IntervalCases

/-!
# Byte memories and backing files

A memory of `n` bytes is a function on `Fin n`. A load or a store of `k` bytes at an
offset succeeds exactly when the slice lies inside the memory, as indexing a slice does
in a language with checked bounds; the failing case is `none`. Words are little endian:
`byteOf_leWord` and `leWord_byteOf` are the two round trips, and `get_of_store` is the frame
rule of a store.

A backing file is a length, its bytes and an oracle for the outcome of each host operation.
-/

set_option autoImplicit false

namespace ByteMem

abbrev Byte := BitVec 8
abbrev Half := BitVec 16
abbrev Word := BitVec 32

/-! The tables that are indexed by literals are not empty. -/

instance neZeroEight : NeZero 8 := ⟨by decide⟩
instance neZeroSixteen : NeZero 16 := ⟨by decide⟩
instance neZeroByte : NeZero 256 := ⟨by decide⟩

/-! ## Little-endian words -/

/-- Byte `i` of a word, byte 0 being the least significant. -/
def byteOf (w : Word) (i : Nat) : Byte :=
  (w >>> (8 * i)).setWidth 8

/-- The word whose `k` low bytes are `f 0, …, f (k - 1)`. -/
def leWord : Nat → (Nat → Byte) → Word
  | 0, _ => 0
  | k + 1, f => (f 0).setWidth 32 ||| (leWord k (fun i => f (i + 1)) <<< 8)

theorem byteOf_leWord {k i : Nat} (f : Nat → Byte) (hk : k ≤ 4) (hi : i < k) :
    byteOf (leWord k f) i = f i := by
  induction k generalizing i f with
  | zero => omega
  | succ k ih =>
      cases i with
      -- the low byte: the shifted rest has no bit below 8
      | zero =>
          apply BitVec.eq_of_getLsbD_eq
          intro j hj
          simp only [byteOf, leWord, BitVec.getLsbD_setWidth, BitVec.getLsbD_ushiftRight,
            BitVec.getLsbD_or, BitVec.getLsbD_shiftLeft]
          have h8 : j < 8 := hj
          have h32 : j < 32 := by omega
          simp [h8, h32]
      -- a higher byte comes from the rest, 8 bits further up
      | succ i =>
          have hrec := ih (fun j => f (j + 1)) (by omega) (i := i) (by omega)
          apply BitVec.eq_of_getLsbD_eq
          intro j hj
          have hbit := congrArg (fun b => b.getLsbD j) hrec
          simp only [byteOf, BitVec.getLsbD_setWidth, BitVec.getLsbD_ushiftRight] at hbit
          simp only [byteOf, leWord, BitVec.getLsbD_setWidth, BitVec.getLsbD_ushiftRight,
            BitVec.getLsbD_or, BitVec.getLsbD_shiftLeft]
          have h1 : 8 * (i + 1) + j - 8 = 8 * i + j := by omega
          have h2 : 8 * (i + 1) + j < 32 := by omega
          have h3 : ¬ 8 * (i + 1) + j < 8 := by omega
          have h4 : (f 0).getLsbD (8 * (i + 1) + j) = false :=
            BitVec.getLsbD_of_ge _ _ (by omega)
          simpa [h1, h2, h3, h4] using hbit

theorem leWord_byteOf (w : Word) : leWord 4 (byteOf w) = w := by
  ext i hi
  simp [leWord, byteOf]
  grind

theorem leWord_congr {k : Nat} {f g : Nat → Byte} (h : ∀ i, i < k → f i = g i) :
    leWord k f = leWord k g := by
  induction k generalizing f g with
  | zero => rfl
  | succ k ih =>
      have htail := ih (f := fun i => f (i + 1)) (g := fun i => g (i + 1))
        (fun i hi => h (i + 1) (by omega))
      simp only [leWord, h 0 (by omega), htail]

theorem byteOf_byte (x : Byte) : byteOf (x.setWidth 32) 0 = x := by
  rw [byteOf, Nat.mul_zero, BitVec.ushiftRight_zero, BitVec.setWidth_setWidth_of_le _ (by decide),
    BitVec.setWidth_eq]

theorem getLsbD_byteOf (v : Word) (i j : Nat) :
    (byteOf v i).getLsbD j = (decide (j < 8) && v.getLsbD (8 * i + j)) := by
  rw [byteOf, BitVec.getLsbD_setWidth, BitVec.getLsbD_ushiftRight]

theorem eq_iff_byteOf {x y : Word} : x = y ↔ ∀ i, i < 4 → byteOf x i = byteOf y i := by
  refine ⟨fun h i _ => by rw [h], fun h => ?_⟩
  rw [← leWord_byteOf x, ← leWord_byteOf y]
  exact leWord_congr h

theorem getLsbD_leWord {k j : Nat} (f : Nat → Byte) (hj : 8 * k ≤ j) :
    (leWord k f).getLsbD j = false := by
  induction k generalizing f j with
  | zero => exact BitVec.getLsbD_zero
  | succ k ih =>
      have hlow : ((f 0).setWidth 32).getLsbD j = false := by
        rw [BitVec.getLsbD_setWidth, BitVec.getLsbD_of_ge _ _ (by omega), Bool.and_false]
      rw [leWord, BitVec.getLsbD_or, BitVec.getLsbD_shiftLeft, ih _ (by omega), hlow,
        Bool.and_false, Bool.or_false]

/-- A word of `k` bytes keeps its value when it is cut to them. -/
theorem truncate_leWord {k n : Nat} (f : Nat → Byte) (h : 8 * k ≤ n) :
    ((leWord k f).setWidth n).setWidth 32 = leWord k f := by
  apply BitVec.eq_of_getLsbD_eq
  intro j hj
  rw [BitVec.getLsbD_setWidth, BitVec.getLsbD_setWidth]
  by_cases hlow : j < n
  · simp [hj, hlow]
  · simp [hlow, getLsbD_leWord f (by omega : 8 * k ≤ j)]

/-- The `n` low bytes of a word, the least significant first. -/
def toLeBytes (n : Nat) (w : Word) : List Byte := (List.range n).map (byteOf w)

def fromLeBytes (b₀ b₁ b₂ b₃ : Byte) : Word := leWord 4 fun i => [b₀, b₁, b₂, b₃].getD i 0

theorem toLeBytes_four (w : Word) :
    toLeBytes 4 w = [byteOf w 0, byteOf w 1, byteOf w 2, byteOf w 3] := rfl

theorem fromLeBytes_byteOf (w : Word) :
    fromLeBytes (byteOf w 0) (byteOf w 1) (byteOf w 2) (byteOf w 3) = w := by
  have hbytes : fromLeBytes (byteOf w 0) (byteOf w 1) (byteOf w 2) (byteOf w 3) =
      leWord 4 (byteOf w) := leWord_congr fun i hi => by interval_cases i <;> rfl
  rw [hbytes, leWord_byteOf]

/-! ## Access widths and alignment -/

/-- The width of a memory access. -/
inductive Width where
  | byte
  | half
  | word
  deriving DecidableEq, Repr

def Width.bytes : Width → Nat
  | .byte => 1
  | .half => 2
  | .word => 4

/-- The word-aligned address at or below `a`. -/
def alignWord (a : Word) : Word := a &&& ~~~3

theorem getLsbD_mask (m i : Nat) :
    (BitVec.ofNat 32 (2 ^ m - 1)).getLsbD i = (decide (i < 32) && decide (i < m)) := by
  rw [BitVec.getLsbD_ofNat, Nat.testBit_two_pow_sub_one]

theorem alignWord_eq_shift (a : Word) : alignWord a = (a >>> 2) <<< 2 := by
  apply BitVec.eq_of_getLsbD_eq
  intro i hi
  have hthree : (3 : Word).getLsbD i = (decide (i < 32) && decide (i < 2)) := getLsbD_mask 2 i
  simp only [alignWord, BitVec.getLsbD_and, BitVec.getLsbD_not, hthree, hi, decide_true,
    Bool.true_and, BitVec.getLsbD_shiftLeft, BitVec.getLsbD_ushiftRight]
  by_cases h : i < 2
  · simp [h]
  · simp [h, show 2 + (i - 2) = i by omega]

theorem toNat_alignWord (a : Word) : (alignWord a).toNat = a.toNat / 4 * 4 := by
  rw [alignWord_eq_shift, BitVec.toNat_shiftLeft, BitVec.toNat_ushiftRight,
    Nat.shiftLeft_eq, Nat.shiftRight_eq_div_pow]
  omega

theorem toNat_and_three (a : Word) : (a &&& 3).toNat = a.toNat % 4 := by
  rw [BitVec.toNat_and, show BitVec.toNat (3 : Word) = 2 ^ 2 - 1 from rfl,
    Nat.and_two_pow_sub_one_eq_mod]

theorem toNat_and_two (a : Word) : (a &&& 2).toNat = a.toNat % 4 / 2 * 2 := by
  have h : (a &&& 2).toNat = ((a &&& 3) &&& 2).toNat := by
    rw [BitVec.and_assoc]
    rfl
  have hlt : (a &&& 3).toNat < 4 := by
    rw [toNat_and_three]
    omega
  rw [h, BitVec.toNat_and, ← toNat_and_three]
  generalize (a &&& 3).toNat = r at hlt
  interval_cases r <;> rfl

/-- Replace the `n` bytes of `w` from byte `s` on by the low bytes of `v`, as a
read-modify-write of the containing word does. -/
def mergeBytes (n s : Nat) (w v : Word) : Word :=
  (w &&& ~~~(BitVec.ofNat 32 (2 ^ (8 * n) - 1) <<< (8 * s))) ||| (v <<< (8 * s))

/-- The low bits of a word, widened again, are below their power of two. -/
theorem toNat_truncate_lt (v : Word) (n : Nat) (hn : n ≤ 32) :
    ((v.setWidth n).setWidth 32).toNat < 2 ^ n := by
  rw [BitVec.toNat_setWidth_of_le hn]
  exact BitVec.isLt _

theorem byteOf_truncate (v : Word) {n k : Nat} (hn : n ≤ 32) (hk : 8 * k + 8 ≤ n) :
    byteOf ((v.setWidth n).setWidth 32) k = byteOf v k := by
  apply BitVec.eq_of_getLsbD_eq
  intro j hj
  have hbit : 8 * k + j < n := by omega
  have hbit32 : 8 * k + j < 32 := by omega
  simp only [byteOf, BitVec.getLsbD_setWidth, BitVec.getLsbD_ushiftRight, hbit, hbit32,
    decide_true, Bool.true_and]

theorem byteOf_mergeBytes {n s k : Nat} {w v : Word} (hv : v.toNat < 2 ^ (8 * n))
    (hk : k < 4) :
    byteOf (mergeBytes n s w v) k =
      if s ≤ k ∧ k < s + n then byteOf v (k - s) else byteOf w k := by
  apply BitVec.eq_of_getLsbD_eq
  intro j hj
  have hbit : 8 * k + j < 32 := by omega
  have hsub : 8 * k + j - 8 * s < 32 := by omega
  -- bit by bit: the old bits outside the mask, the new bits inside
  have hleft : (byteOf (mergeBytes n s w v) k).getLsbD j =
      (w.getLsbD (8 * k + j) &&
        !(!decide (8 * k + j < 8 * s) && decide (8 * k + j - 8 * s < 8 * n)) ||
        !decide (8 * k + j < 8 * s) && v.getLsbD (8 * k + j - 8 * s)) := by
    simp only [byteOf, mergeBytes, BitVec.getLsbD_setWidth, BitVec.getLsbD_ushiftRight,
      BitVec.getLsbD_or, BitVec.getLsbD_and, BitVec.getLsbD_not, BitVec.getLsbD_shiftLeft,
      getLsbD_mask, hj, hbit, hsub, decide_true, Bool.true_and]
  rw [hleft]
  by_cases hin : s ≤ k ∧ k < s + n
  · have h1 : ¬ 8 * k + j < 8 * s := by omega
    have h2 : 8 * k + j - 8 * s < 8 * n := by omega
    have h3 : 8 * (k - s) + j = 8 * k + j - 8 * s := by omega
    rw [if_pos hin]
    simp [byteOf, hj, h1, h2, h3]
  · rw [if_neg hin]
    by_cases hlow : 8 * k + j < 8 * s
    · simp [byteOf, hj, hlow]
    · -- Past the replaced bytes, where `v` has no bit left.
      have h2 : ¬ 8 * k + j - 8 * s < 8 * n := by omega
      have h3 : v.getLsbD (8 * k + j - 8 * s) = false := by
        have hle : 2 ^ (8 * n) ≤ 2 ^ (8 * k + j - 8 * s) :=
          Nat.pow_le_pow_right (by decide) (by omega)
        exact Nat.testBit_lt_two_pow (Nat.lt_of_lt_of_le hv hle)
      simp [byteOf, hj, hlow, h2, h3]

/-! ## Memories -/

/-- A memory of `n` bytes. -/
abbrev Bytes (n : Nat) := Fin n → Byte

namespace Bytes

variable {n : Nat}

/-- The byte at offset `i`, or `0` past the end. -/
def get (m : Bytes n) (i : Nat) : Byte :=
  if h : i < n then m ⟨i, h⟩ else 0

/-- The memory filled with one byte. -/
def const (n : Nat) (b : Byte) : Bytes n := fun _ => b

/-- The `k`-byte little-endian word at offset `o`; `none` when the slice leaves the
memory. -/
def load (m : Bytes n) (k o : Nat) : Option Word :=
  if o + k ≤ n then some (leWord k fun i => m.get (o + i)) else none

/-- Overwrite the bytes at `o, …, o + k - 1` by `f 0, …, f (k - 1)`. -/
def splice (m : Bytes n) (o k : Nat) (f : Nat → Byte) : Bytes n :=
  fun i => if o ≤ i.val ∧ i.val < o + k then f (i.val - o) else m i

/-- Store the `k` low bytes of `v` at offset `o`; `none` when the slice leaves the
memory. -/
def store (m : Bytes n) (k o : Nat) (v : Word) : Option (Bytes n) :=
  if o + k ≤ n then some (m.splice o k (byteOf v)) else none

/-- Set the bytes of the slice `lo .. hi` to `b`; `none` for a slice that is not one. -/
def fill (m : Bytes n) (lo hi : Nat) (b : Byte) : Option (Bytes n) :=
  if lo ≤ hi ∧ hi ≤ n then some (m.splice lo (hi - lo) fun _ => b) else none

/-- Combine the byte at offset `o` with `b` by bitwise and; `none` past the end. -/
def clearBits (m : Bytes n) (o : Nat) (b : Byte) : Option (Bytes n) :=
  if o < n then some (m.splice o 1 fun _ => m.get o &&& b) else none

theorem ext_get {m m' : Bytes n} (h : ∀ i, m.get i = m'.get i) : m = m' := by
  funext i
  have hi := h i.val
  rwa [get, get, dif_pos i.isLt, dif_pos i.isLt] at hi

theorem get_splice (m : Bytes n) (o k : Nat) (f : Nat → Byte) {i : Nat} (hi : i < n) :
    (m.splice o k f).get i = if o ≤ i ∧ i < o + k then f (i - o) else m.get i := by
  simp [get, splice, hi]

theorem get_splice_of_not_mem (m : Bytes n) {o k i : Nat} (f : Nat → Byte)
    (h : i < o ∨ o + k ≤ i) : (m.splice o k f).get i = m.get i := by
  by_cases hi : i < n
  · rw [get_splice _ _ _ _ hi, if_neg (by omega)]
  · simp [get, hi]

@[simp] theorem splice_zero (m : Bytes n) (o : Nat) (f : Nat → Byte) :
    m.splice o 0 f = m := by
  funext i
  simp only [splice]
  exact if_neg (by omega)

theorem load_eq_some_iff {m : Bytes n} {k o : Nat} {v : Word} :
    m.load k o = some v ↔ o + k ≤ n ∧ leWord k (fun i => m.get (o + i)) = v := by
  simp [load]

theorem store_eq_some_iff {m m' : Bytes n} {k o : Nat} {v : Word} :
    m.store k o v = some m' ↔ o + k ≤ n ∧ m.splice o k (byteOf v) = m' := by
  simp [store]

@[simp] theorem isSome_load {m : Bytes n} {k o : Nat} :
    (m.load k o).isSome ↔ o + k ≤ n := by
  simp [load]

@[simp] theorem isSome_store {m : Bytes n} {k o : Nat} {v : Word} :
    (m.store k o v).isSome ↔ o + k ≤ n := by
  simp [store]

theorem fill_eq_some_iff {m m' : Bytes n} {lo hi : Nat} {b : Byte} :
    m.fill lo hi b = some m' ↔
      (lo ≤ hi ∧ hi ≤ n) ∧ m.splice lo (hi - lo) (fun _ => b) = m' := by
  simp [fill]

/-- Filling a slice leaves every byte outside it alone. -/
theorem get_of_fill {m m' : Bytes n} {lo hi i : Nat} {b : Byte}
    (h : m.fill lo hi b = some m') (hi' : i < lo ∨ hi ≤ i) : m'.get i = m.get i := by
  obtain ⟨hle, rfl⟩ := fill_eq_some_iff.mp h
  exact get_splice_of_not_mem m _ (by omega)

theorem get_of_fill_mem {m m' : Bytes n} {lo hi i : Nat} {b : Byte}
    (h : m.fill lo hi b = some m') (hlo : lo ≤ i) (hhi : i < hi) : m'.get i = b := by
  obtain ⟨hle, rfl⟩ := fill_eq_some_iff.mp h
  rw [get_splice _ _ _ _ (by omega), if_pos (by omega)]

/-- A store leaves every byte outside its slice alone. -/
theorem get_of_store {m m' : Bytes n} {k o i : Nat} {v : Word}
    (h : m.store k o v = some m') (hi : i < o ∨ o + k ≤ i) : m'.get i = m.get i := by
  obtain ⟨-, rfl⟩ := store_eq_some_iff.mp h
  exact get_splice_of_not_mem m _ hi

/-- A store puts the bytes of its word into its slice. -/
theorem get_of_store_mem {m m' : Bytes n} {k o i : Nat} {v : Word}
    (h : m.store k o v = some m') (hi : i < k) : m'.get (o + i) = byteOf v i := by
  obtain ⟨hok, rfl⟩ := store_eq_some_iff.mp h
  rw [get_splice _ _ _ _ (by omega), if_pos (by omega)]
  congr 1
  omega

/-- Loads see only the bytes of their slice. -/
theorem load_congr {m m' : Bytes n} {k o : Nat}
    (h : ∀ i, i < k → m.get (o + i) = m'.get (o + i)) : m.load k o = m'.load k o := by
  simp only [load, leWord_congr h]

end Bytes

/-! ## Tables -/

/-- A table of `n` entries, indexed with a bounds check. -/
abbrev Table (n : Nat) (α : Type) := Fin n → α

namespace Table

variable {n : Nat} {α : Type}

/-- The entry at index `i`; `none` past the end. -/
def index (t : Table n α) (i : Nat) : Option α :=
  if h : i < n then some (t ⟨i, h⟩) else none

/-- Change the entry at index `i`; `none` past the end. -/
def modify (t : Table n α) (i : Nat) (f : α → α) : Option (Table n α) :=
  if h : i < n then some (Function.update t ⟨i, h⟩ (f (t ⟨i, h⟩))) else none

theorem index_of_lt (t : Table n α) {i : Nat} (h : i < n) : t.index i = some (t ⟨i, h⟩) :=
  dif_pos h

theorem modify_of_lt (t : Table n α) {i : Nat} (h : i < n) (f : α → α) :
    t.modify i f = some (Function.update t ⟨i, h⟩ (f (t ⟨i, h⟩))) :=
  dif_pos h

end Table

/-! ## Backing files -/

/-- A host file open for writing: its length, its bytes, and an oracle that says whether
the next host operations succeed, consumed one entry an operation. -/
structure HostFile where
  len : Nat
  byte : Nat → Byte
  succeeds : Nat → Bool

namespace HostFile

/-- The outcome of the next host operation, and the file with the oracle advanced. -/
def attempt (f : HostFile) : Bool × HostFile :=
  (f.succeeds 0, { f with succeeds := fun i => f.succeeds (i + 1) })

/-- Write the bytes `src o, …, src (o + k - 1)` at the offset `o`, extending the file when
the write runs past its end; `none` when the host reports an error. Writing nothing makes
no host operation. -/
def writeAll (f : HostFile) (o k : Nat) (src : Nat → Byte) : Option HostFile :=
  if k = 0 then some f
  else if f.attempt.1 then
    some { f.attempt.2 with
      len := max f.len (o + k)
      byte := fun i => if o ≤ i ∧ i < o + k then src i else if i < f.len then f.byte i else 0 }
  else none

/-- Replace the whole content of the file by the `k` bytes of `src`, and report whether the
host did so. -/
def rewrite (f : HostFile) (k : Nat) (src : Nat → Byte) : Bool × HostFile :=
  if f.attempt.1 then (true, { f.attempt.2 with len := k, byte := src })
  else (false, f.attempt.2)

end HostFile

/-- A host text file that is only ever replaced as a whole: its content, if it exists, and
the outcomes of the next writes. -/
structure TextFile where
  text : Option String
  succeeds : Nat → Bool

/-- Replace the content; a failed write leaves the old one. -/
def TextFile.rewrite (f : TextFile) (body : String) : TextFile where
  text := if f.succeeds 0 then some body else f.text
  succeeds := fun i => f.succeeds (i + 1)

end ByteMem
