import Mathlib.Data.List.Destutter
import Mathlib.Data.List.Lex
import SpEmu.Lib.Keyed

/-!
# Sorting by name and dropping the repeated names

`firstWins` sorts a list of named values by name and then leaves out each value that has the same
name as the one before it. The sort is stable, so of the values with one name the first in the
list is kept: a name is looked up in the result as in the list (`lookup_firstWins`), and no name
comes twice (`nodup_firstWins`).
-/

set_option autoImplicit false

namespace Keyed

variable {N V : Type} [LinearOrder N]

def firstWins (ps : List (N × V)) : List (N × V) :=
  (ps.mergeSort fun a b => a.1 ≤ b.1).destutter fun a b => a.1 ≠ b.1

/-! ## No name comes twice -/

theorem le_name_trans (a b c : N × V) (hab : decide (a.1 ≤ b.1) = true)
    (hbc : decide (b.1 ≤ c.1) = true) : decide (a.1 ≤ c.1) = true := by
  rw [decide_eq_true_iff] at hab hbc ⊢
  exact hab.trans hbc

theorem le_name_total (a b : N × V) : (decide (a.1 ≤ b.1) || decide (b.1 ≤ a.1)) = true := by
  rw [Bool.or_eq_true, decide_eq_true_iff, decide_eq_true_iff]
  exact le_total a.1 b.1

theorem pairwise_mergeSort_name (ps : List (N × V)) :
    (ps.mergeSort fun a b => a.1 ≤ b.1).Pairwise fun a b => a.1 ≤ b.1 :=
  (List.pairwise_mergeSort le_name_trans le_name_total ps).imp of_decide_eq_true

theorem nodup_firstWins (ps : List (N × V)) : ((firstWins ps).map Prod.fst).Nodup := by
  have hle := (pairwise_mergeSort_name ps).sublist
    (List.destutter_sublist (fun a b : N × V => a.1 ≠ b.1) _)
  have hne := List.isChain_destutter (fun a b : N × V => a.1 ≠ b.1)
    (ps.mergeSort fun a b => a.1 ≤ b.1)
  -- Neighbours differ and the names ascend, so they ascend strictly.
  have hlt : ((firstWins ps).map Prod.fst).IsChain (· < ·) := by
    rw [List.isChain_map, List.isChain_iff_getElem]
    intro i hi
    exact lt_of_le_of_ne (List.isChain_iff_getElem.mp hle.isChain i hi)
      (List.isChain_iff_getElem.mp hne i hi)
  exact (List.isChain_iff_pairwise.mp hlt).imp ne_of_lt

/-! ## The first value of a name is kept -/

/-- The values of one name keep their order. -/
theorem filter_mergeSort (n : N) (ps : List (N × V)) :
    (ps.mergeSort fun a b => a.1 ≤ b.1).filter (fun p => p.1 = n) =
      ps.filter fun p => p.1 = n := by
  have hsame : (ps.filter fun p => p.1 = n).Pairwise fun a b => decide (a.1 ≤ b.1) = true := by
    refine List.pairwise_of_forall_mem_list fun a ha b hb => ?_
    have ha' : a.1 = n := of_decide_eq_true (List.mem_filter.mp ha).2
    have hb' : b.1 = n := of_decide_eq_true (List.mem_filter.mp hb).2
    rw [ha', hb']
    exact decide_eq_true le_rfl
  have hsub := (List.sublist_mergeSort le_name_trans le_name_total hsame
    List.filter_sublist).filter fun p => p.1 = n
  rw [List.filter_filter, List.filter_congr fun a _ => Bool.and_self _] at hsub
  refine (hsub.eq_of_length ?_).symm
  exact ((List.mergeSort_perm ps _).filter _).length_eq.symm

variable [BEq N] [LawfulBEq N]

theorem lookup_eq_head? (n : N) (ps : List (N × V)) :
    ps.lookup n = ((ps.filter fun p => p.1 = n).head?).map Prod.snd := by
  induction ps with
  | nil => rfl
  | cons p ps ih =>
      obtain ⟨m, v⟩ := p
      by_cases h : n = m
      · subst h
        rw [lookup_cons_self, List.filter_cons_of_pos (by simp)]
        rfl
      · rw [lookup_cons_of_ne h, List.filter_cons_of_neg (by simpa using Ne.symm h), ih]

theorem lookup_destutter' (n : N) (a : N × V) (ps : List (N × V)) :
    (ps.destutter' (fun a b => a.1 ≠ b.1) a).lookup n = (a :: ps).lookup n := by
  induction ps generalizing a with
  | nil => rfl
  | cons b ps ih =>
      by_cases h : a.1 = b.1
      · rw [List.destutter'_cons_neg _ (not_not_intro h), ih]
        by_cases hn : n = a.1
        · subst hn
          rw [lookup_cons_self, lookup_cons_self]
        · rw [lookup_cons_of_ne hn, lookup_cons_of_ne hn, lookup_cons_of_ne (h ▸ hn)]
      · rw [List.destutter'_cons_pos _ h]
        by_cases hn : n = a.1
        · subst hn
          rw [lookup_cons_self, lookup_cons_self]
        · rw [lookup_cons_of_ne hn, lookup_cons_of_ne hn, ih]

theorem lookup_firstWins (n : N) (ps : List (N × V)) : (firstWins ps).lookup n = ps.lookup n := by
  have hsort : (ps.mergeSort fun a b => a.1 ≤ b.1).lookup n = ps.lookup n := by
    rw [lookup_eq_head?, filter_mergeSort, ← lookup_eq_head?]
  rw [firstWins, ← hsort]
  cases ps.mergeSort fun a b => a.1 ≤ b.1 with
  | nil => rfl
  | cons a as => exact lookup_destutter' n a as

theorem mem_firstWins {n : N} {v : V} {ps : List (N × V)} :
    (n, v) ∈ firstWins ps ↔ ps.lookup n = some v := by
  rw [← lookup_firstWins]
  exact ⟨lookup_of_mem (nodup_firstWins ps), mem_of_lookup⟩

end Keyed
