import Mathlib.Data.List.Basic
import Mathlib.Data.BitVec

/-!
# Byte stuffing with a bounded overhead

A message without a zero symbol, for a stream in which zero ends a message. The data are cut into
runs without zeros; in front of each run stands a code that counts it, and after each run a zero is
understood, but not after the last run and not after one that has the greatest length. A message is
its closed blocks and a last one.

`Block` carries what a run has to satisfy. `closed` and `stuffed` are the data and the symbols of
closed blocks.
-/

set_option autoImplicit false

namespace Stuffing

variable {w : Nat}

structure Block (w : Nat) where
  run : List (BitVec w)
  nonzero : 0 ∉ run
  short : run.length + 1 < 2 ^ w

namespace Block

/-- The length of the run and the code itself. -/
def code (b : Block w) : BitVec w := BitVec.ofNat w (b.run.length + 1)

def symbols (b : Block w) : List (BitVec w) := b.code :: b.run

/-- The run has the greatest length. -/
def Full (b : Block w) : Prop := b.run.length + 2 = 2 ^ w

instance (b : Block w) : Decidable b.Full := inferInstanceAs (Decidable (_ = _))

/-- The run of a closed block with the zero that is understood after it. -/
def data (b : Block w) : List (BitVec w) := b.run ++ if b.Full then [] else [0]

variable (b : Block w)

@[simp] theorem toNat_code : b.code.toNat = b.run.length + 1 := by
  rw [code, BitVec.toNat_ofNat, Nat.mod_eq_of_lt b.short]

theorem code_ne_zero : b.code ≠ 0 := by
  intro h
  have htoNat := congrArg BitVec.toNat h
  rw [b.toNat_code] at htoNat
  exact absurd htoNat (by simp)

theorem zero_not_mem_symbols : 0 ∉ b.symbols := by
  intro h
  rcases List.mem_cons.mp h with hcode | hrun
  · exact b.code_ne_zero hcode.symm
  · exact b.nonzero hrun

end Block

def closed (bs : List (Block w)) : List (BitVec w) := bs.flatMap Block.data

def stuffed (bs : List (Block w)) : List (BitVec w) := bs.flatMap Block.symbols

@[simp] theorem closed_nil : closed ([] : List (Block w)) = [] := rfl

@[simp] theorem stuffed_nil : stuffed ([] : List (Block w)) = [] := rfl

@[simp] theorem closed_concat (bs : List (Block w)) (b : Block w) :
    closed (bs ++ [b]) = closed bs ++ b.data := by
  rw [closed, List.flatMap_append, List.flatMap_singleton]
  rfl

@[simp] theorem stuffed_concat (bs : List (Block w)) (b : Block w) :
    stuffed (bs ++ [b]) = stuffed bs ++ b.symbols := by
  rw [stuffed, List.flatMap_append, List.flatMap_singleton]
  rfl

/-- A stuffed message holds no zero. -/
theorem zero_not_mem_stuffed (bs : List (Block w)) : 0 ∉ stuffed bs := by
  intro h
  obtain ⟨b, -, hb⟩ := List.mem_flatMap.mp h
  exact b.zero_not_mem_symbols hb

end Stuffing
