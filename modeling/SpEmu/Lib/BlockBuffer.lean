import Mathlib.Data.List.Induction

/-!
# Streams taken in by blocks

A buffer collects the items of a stream, and hands them on as a block each time that it holds `n`.
`blocks n xs` are the complete blocks at the front of a stream, those that were handed on, and
`rest n xs` is what the buffer holds: `blocks_concat` and `rest_concat` take one item more.

`blocks_flatMap` compares the blocks of a stream with those of its encoding, where every item is
encoded in the same number of items.
-/

set_option autoImplicit false

namespace BlockBuffer

variable {α β : Type}

/-- The complete blocks of `n` items at the front of a stream. -/
def blocks (n : Nat) (xs : List α) : List (List α) :=
  (List.range (xs.length / n)).map fun j => (xs.drop (n * j)).take n

/-- The items after the complete blocks. -/
def rest (n : Nat) (xs : List α) : List α := xs.drop (n * (xs.length / n))

variable {n : Nat}

theorem length_rest (n : Nat) (xs : List α) : (rest n xs).length = xs.length % n := by
  rw [rest, List.length_drop, Nat.mod_eq_sub]

/-- Complete blocks do not change when the stream goes on. -/
theorem take_drop_concat {xs : List α} {j : Nat} (hj : j < xs.length / n) (x : α) :
    ((xs ++ [x]).drop (n * j)).take n = (xs.drop (n * j)).take n := by
  have hend : n * (j + 1) ≤ xs.length :=
    Nat.le_trans (Nat.mul_le_mul_left n hj) (Nat.mul_div_le xs.length n)
  rw [Nat.mul_succ] at hend
  rw [List.drop_append_of_le_length (by omega),
    List.take_append_of_le_length (by rw [List.length_drop]; omega)]

/-- The number of complete blocks after one item more. -/
theorem div_succ (hn : 0 < n) (k : Nat) :
    (k + 1) / n = if k % n + 1 = n then k / n + 1 else k / n := by
  have hdiv := Nat.div_add_mod k n
  have hlt := Nat.mod_lt k hn
  split
  · next hfull =>
      have heq : k + 1 = n * (k / n + 1) := by
        rw [Nat.mul_succ]
        omega
      rw [heq, Nat.mul_div_cancel_left _ hn]
  · next hpart =>
      rw [Nat.div_eq_iff hn]
      constructor
      · rw [Nat.mul_comm]
        omega
      · rw [Nat.mul_comm]
        omega

theorem blocks_concat (hn : 0 < n) (xs : List α) (x : α) :
    blocks n (xs ++ [x]) =
      if (rest n xs).length + 1 = n then blocks n xs ++ [rest n xs ++ [x]] else blocks n xs := by
  have hfront : (List.range (xs.length / n)).map (fun j => ((xs ++ [x]).drop (n * j)).take n) =
      blocks n xs :=
    List.map_congr_left fun j hj => take_drop_concat (List.mem_range.mp hj) x
  have hle := Nat.mul_div_le xs.length n
  rw [length_rest, blocks, List.length_append, List.length_singleton, div_succ hn]
  split
  · next hfull =>
      rw [List.range_succ, List.map_append, hfront, List.map_singleton]
      have hlast : ((xs ++ [x]).drop (n * (xs.length / n))).take n = rest n xs ++ [x] := by
        rw [List.drop_append_of_le_length hle]
        refine List.take_of_length_le ?_
        rw [List.length_append, List.length_singleton]
        show (rest n xs).length + 1 ≤ n
        rw [length_rest]
        exact Nat.le_of_eq hfull
      rw [hlast]
  · exact hfront

theorem rest_concat (hn : 0 < n) (xs : List α) (x : α) :
    rest n (xs ++ [x]) = if (rest n xs).length + 1 = n then [] else rest n xs ++ [x] := by
  have hle := Nat.mul_div_le xs.length n
  have hdiv := Nat.div_add_mod xs.length n
  rw [length_rest]
  rw [rest, List.length_append, List.length_singleton, div_succ hn]
  split
  · next hfull =>
      refine List.drop_eq_nil_of_le ?_
      rw [List.length_append, List.length_singleton, Nat.mul_succ]
      omega
  · exact List.drop_append_of_le_length hle

/-! ## Encoded streams -/

section Encoded

variable {f : α → List β} {k : Nat}

theorem length_flatMap_uniform (hf : ∀ x, (f x).length = k) (xs : List α) :
    (xs.flatMap f).length = k * xs.length := by
  induction xs with
  | nil => rfl
  | cons x xs ih => rw [List.flatMap_cons, List.length_append, hf, ih, List.length_cons,
      Nat.mul_succ, Nat.add_comm]

theorem drop_flatMap_uniform (hf : ∀ x, (f x).length = k) (j : Nat) (xs : List α) :
    (xs.flatMap f).drop (k * j) = (xs.drop j).flatMap f := by
  induction j generalizing xs with
  | zero => rfl
  | succ j ih =>
      cases xs with
      | nil => rw [List.flatMap_nil, List.drop_nil, List.drop_nil, List.flatMap_nil]
      | cons x xs =>
          rw [List.flatMap_cons, Nat.mul_succ, Nat.add_comm, ← List.drop_drop, ← hf x,
            List.drop_left, hf x, ih, List.drop_succ_cons]

theorem take_flatMap_uniform (hf : ∀ x, (f x).length = k) (j : Nat) (xs : List α) :
    (xs.flatMap f).take (k * j) = (xs.take j).flatMap f := by
  induction j generalizing xs with
  | zero => rw [Nat.mul_zero, List.take_zero, List.take_zero, List.flatMap_nil]
  | succ j ih =>
      cases xs with
      | nil => rw [List.flatMap_nil, List.take_nil, List.take_nil, List.flatMap_nil]
      | cons x xs =>
          rw [List.flatMap_cons, Nat.mul_succ, Nat.add_comm, List.take_succ_cons,
            List.flatMap_cons, ← ih xs, ← hf x, List.take_length_add_append]

theorem getElem?_flatMap_uniform (hk : 0 < k) (hf : ∀ x, (f x).length = k) (xs : List α) (j : Nat) :
    (xs.flatMap f)[j]? = (xs[j / k]?).bind fun x => (f x)[j % k]? := by
  induction xs generalizing j with
  | nil => rfl
  | cons x xs ih =>
      rw [List.flatMap_cons]
      by_cases hj : j < k
      · rw [List.getElem?_append_left (by rw [hf]; exact hj), Nat.div_eq_of_lt hj,
          Nat.mod_eq_of_lt hj]
        rfl
      · -- an item of the rest, `k` places before
        have hle : k ≤ j := Nat.le_of_not_lt hj
        rw [List.getElem?_append_right (by rw [hf]; exact hle), hf, ih,
          Nat.div_eq_sub_div hk hle, ← Nat.mod_eq_sub_mod hle]
        rfl

/-- The blocks of the encoded stream are the encoded blocks. -/
theorem blocks_flatMap (hk : 0 < k) (hf : ∀ x, (f x).length = k) (xs : List α) :
    blocks (k * n) (xs.flatMap f) = (blocks n xs).map fun block => block.flatMap f := by
  rw [blocks, blocks, length_flatMap_uniform hf, Nat.mul_div_mul_left _ _ hk, List.map_map]
  refine List.map_congr_left fun j _ => ?_
  rw [Function.comp_apply, Nat.mul_assoc, drop_flatMap_uniform hf, take_flatMap_uniform hf]

end Encoded

end BlockBuffer
