import Mathlib.Data.Nat.ModEq
import Mathlib.Algebra.BigOperators.Group.List.Basic

/-!
# One's-complement sums

Numbers of a fixed width are added with the carry put back in at the low end. `m` is the greatest
number of the width, all ones. A sum is what its terms add up to modulo `m`, except that only zeros
add up to 0: `residue m n` is the number that stands for `n`, and `sum_eq` says that the order and
the grouping of the additions and of the carries do not matter.

A message is checked by the sum of its halves, two bytes each, and a zero byte behind the last one
where it is odd.
-/

set_option autoImplicit false

namespace OnesComplement

variable {m a b n : Nat}

/-- Addition with the carry put back in. -/
def add (m a b : Nat) : Nat := if a + b ≤ m then a + b else a + b - m

def sum (m : Nat) (ws : List Nat) : Nat := ws.foldr (add m) 0

/-- The number of the width that stands for `n`. -/
def residue (m n : Nat) : Nat := if n = 0 then 0 else (n - 1) % m + 1

theorem residue_of_le (h : n ≤ m) : residue m n = n := by
  rw [residue]
  split
  · next hzero => exact hzero.symm
  · next hpos =>
      rw [Nat.mod_eq_of_lt (by omega)]
      omega

theorem residue_le (hm : 0 < m) (n : Nat) : residue m n ≤ m := by
  rw [residue]
  split
  · exact Nat.zero_le m
  · exact Nat.mod_lt _ hm

theorem residue_eq_zero_iff : residue m n = 0 ↔ n = 0 := by
  rw [residue]
  split
  · next hzero => exact iff_of_true rfl hzero
  · next hpos => exact iff_of_false (Nat.succ_ne_zero _) hpos

theorem residue_modEq (n : Nat) : residue m n ≡ n [MOD m] := by
  rw [residue]
  split
  · next hzero => rw [hzero]
  · next hpos =>
      have hmod : (n - 1) % m + 1 ≡ n - 1 + 1 [MOD m] := (Nat.mod_modEq (n - 1) m).add_right 1
      rwa [Nat.sub_add_cancel (Nat.pos_of_ne_zero hpos)] at hmod

/-- Numbers stand for the same one if they are congruent and both or none of them are 0. -/
theorem residue_congr (h : a ≡ b [MOD m]) (hzero : a = 0 ↔ b = 0) : residue m a = residue m b := by
  rw [residue, residue]
  by_cases ha : a = 0
  · rw [if_pos ha, if_pos (hzero.mp ha)]
  · rw [if_neg ha, if_neg (ha ∘ hzero.mpr)]
    have hb : 0 < b := Nat.pos_of_ne_zero (ha ∘ hzero.mpr)
    have hpred : a - 1 ≡ b - 1 [MOD m] := by
      refine Nat.ModEq.add_right_cancel' 1 ?_
      rwa [Nat.sub_add_cancel (Nat.pos_of_ne_zero ha), Nat.sub_add_cancel hb]
    exact congrArg (· + 1) hpred

theorem residue_add_residue (a b : Nat) : residue m (a + residue m b) = residue m (a + b) := by
  refine residue_congr ((residue_modEq b).add_left a) ?_
  rw [Nat.add_eq_zero_iff, Nat.add_eq_zero_iff, residue_eq_zero_iff]

theorem add_eq (ha : a ≤ m) (hb : b ≤ m) : add m a b = residue m (a + b) := by
  rw [add]
  split
  · next hle => exact (residue_of_le hle).symm
  · next hgt =>
      have hle : a + b - m ≤ m := by omega
      rw [← residue_of_le hle]
      refine residue_congr ?_ (by omega)
      have hcong : a + b - m ≡ a + b - m + m [MOD m] := (Nat.add_modEq_right (a := _)).symm
      rwa [Nat.sub_add_cancel (by omega)] at hcong

/-- A sum stands for what its terms add up to. -/
theorem sum_eq {ws : List Nat} (hm : 0 < m) (h : ∀ w ∈ ws, w ≤ m) :
    sum m ws = residue m ws.sum := by
  induction ws with
  | nil => rfl
  | cons w ws ih =>
      obtain ⟨hw, hws⟩ := List.forall_mem_cons.mp h
      rw [sum, List.foldr_cons, show ws.foldr (add m) 0 = _ from ih hws,
        add_eq hw (residue_le hm _), residue_add_residue, List.sum_cons]

/-- Putting the carries back in all at once. -/
theorem residue_carry (n : Nat) : residue m (n % (m + 1) + n / (m + 1)) = residue m n := by
  have hdiv := Nat.div_add_mod n (m + 1)
  refine residue_congr ?_ ?_
  · -- the carry weighs m + 1, which is congruent to 1
    have hcarry : (m + 1) * (n / (m + 1)) ≡ n / (m + 1) [MOD m] := by
      have hone : m + 1 ≡ 1 [MOD m] := Nat.add_modEq_left
      simpa using hone.mul_right (n / (m + 1))
    have hcong := (hcarry.add_right (n % (m + 1))).symm
    rwa [hdiv, Nat.add_comm] at hcong
  · rw [Nat.add_eq_zero_iff]
    constructor
    · rintro ⟨hmod, hquot⟩
      rw [← hdiv, hmod, hquot, Nat.mul_zero]
    · rintro rfl
      exact ⟨Nat.zero_mod _, Nat.zero_div _⟩

theorem residue_eq_max (hn : n ≠ 0) (h : m ∣ n) : residue m n = m := by
  obtain ⟨k, rfl⟩ := h
  have hm : 0 < m := Nat.pos_of_ne_zero fun hm => hn (by rw [hm, Nat.zero_mul])
  rw [residue_congr (b := m) ((Nat.modEq_zero_iff_dvd.mpr ⟨k, rfl⟩).trans
    (Nat.modEq_zero_iff_dvd.mpr (Nat.dvd_refl m)).symm) (iff_of_false hn hm.ne')]
  exact residue_of_le (Nat.le_refl m)

/-- The complement of a sum makes it all ones. -/
theorem residue_add_complement (hm : 0 < m) (n : Nat) :
    residue m (n + (m - residue m n)) = m := by
  have hle := residue_le hm n
  refine residue_eq_max ?_ ?_
  · have hzero := residue_eq_zero_iff (m := m) (n := n)
    omega
  · have hcong : n + (m - residue m n) ≡ residue m n + (m - residue m n) [MOD m] :=
      (residue_modEq n).symm.add_right _
    rw [Nat.add_sub_cancel' hle] at hcong
    exact (Nat.modEq_zero_iff_dvd.mp (hcong.trans (Nat.modEq_zero_iff_dvd.mpr (Nat.dvd_refl m))))

/-- All ones may stand for a complement of 0, but for an empty sum. -/
theorem residue_add_max (h : residue m n = m) (hm : 0 < m) : residue m (n + m) = m := by
  refine residue_eq_max (by omega) ?_
  have hn := residue_modEq (m := m) n
  rw [h] at hn
  have hdvd : m ∣ n := Nat.modEq_zero_iff_dvd.mp
    (hn.symm.trans (Nat.modEq_zero_iff_dvd.mpr (Nat.dvd_refl m)))
  exact Nat.dvd_add hdvd (Nat.dvd_refl m)

/-! ## The halves of a message -/

/-- The big-endian halves of a byte string, the last one padded with a zero byte. -/
def halves : List (BitVec 8) → List Nat
  | hi :: lo :: rest => (256 * hi.toNat + lo.toNat) :: halves rest
  | [hi] => [256 * hi.toNat]
  | [] => []

theorem halves_le (bs : List (BitVec 8)) : ∀ w ∈ halves bs, w ≤ 65535 := by
  induction bs using halves.induct with
  | case1 hi lo rest ih =>
      rw [halves, List.forall_mem_cons]
      exact ⟨by omega, ih⟩
  | case2 hi =>
      rw [halves, List.forall_mem_cons]
      exact ⟨by omega, fun w hw => (by cases hw)⟩
  | case3 => exact fun w hw => (by cases hw)

theorem sum_halves_le (bs : List (BitVec 8)) : (halves bs).sum ≤ 65535 * ((bs.length + 1) / 2) := by
  induction bs using halves.induct with
  | case1 hi lo rest ih =>
      simp only [halves, List.sum_cons, List.length_cons]
      omega
  | case2 hi =>
      simp only [halves, List.sum_cons, List.sum_nil, List.length_cons, List.length_nil]
      omega
  | case3 => exact Nat.zero_le _

/-- Halves do not cross an even position. -/
theorem halves_append {bs : List (BitVec 8)} (heven : bs.length % 2 = 0) (cs : List (BitVec 8)) :
    halves (bs ++ cs) = halves bs ++ halves cs := by
  induction bs using halves.induct with
  | case1 hi lo rest ih =>
      rw [List.length_cons, List.length_cons] at heven
      rw [List.cons_append, List.cons_append, halves, halves, ih (by omega), List.cons_append]
  | case2 hi => simp at heven
  | case3 => rfl

end OnesComplement
