import Mathlib.Data.List.Basic
import Mathlib.Data.List.Dedup
import Mathlib.Data.List.Induction

/-!
# Queues of keyed items

A queue of items, each with the key of its flow, is one list for each key: `flow k` is the list of
`k` in the order of the queue. `dropFirst k` takes the oldest item of `k` away and leaves the other
flows alone. `Lossy` relates what was pushed, what was delivered and what is queued, for a queue
that may lose items and that keeps each flow in order; `Lossy.push`, `Lossy.drop` and
`Lossy.deliver` are its rules.

`maxByKey` is the last of the greatest elements of a list.
-/

set_option autoImplicit false

namespace FlowQueue

universe u v

variable {κ : Type u} {α : Type v} [DecidableEq κ]

/-- The items of a flow, oldest first. -/
def flow (k : κ) (q : List (κ × α)) : List α := (q.filter fun x => x.1 = k).map Prod.snd

/-- The queue without the oldest item of a flow. -/
def dropFirst (k : κ) (q : List (κ × α)) : List (κ × α) := q.eraseP fun x => x.1 = k

variable {k j : κ} {q : List (κ × α)}

@[simp] theorem flow_nil : flow k ([] : List (κ × α)) = [] := rfl

theorem flow_cons_self (a : α) : flow k ((k, a) :: q) = a :: flow k q := by
  simp [flow]

theorem flow_cons_of_ne {x : κ × α} (h : x.1 ≠ k) : flow k (x :: q) = flow k q := by
  simp [flow, h]

theorem flow_append (q' : List (κ × α)) : flow k (q ++ q') = flow k q ++ flow k q' := by
  rw [flow, List.filter_append, List.map_append]
  rfl

theorem flow_sublist {q' : List (κ × α)} (h : q'.Sublist q) : (flow k q').Sublist (flow k q) :=
  (h.filter _).map _

theorem flow_eq_nil : flow k q = [] ↔ ∀ x ∈ q, x.1 ≠ k := by
  simp [flow]

theorem flow_dropFirst_self : flow k (dropFirst k q) = (flow k q).tail := by
  induction q with
  | nil => rfl
  | cons x q ih =>
      obtain ⟨i, a⟩ := x
      by_cases hi : i = k
      · subst hi
        rw [flow_cons_self, dropFirst, List.eraseP_cons_of_pos (by simp)]
        rfl
      · rw [flow_cons_of_ne hi, dropFirst, List.eraseP_cons_of_neg (by simpa using hi),
          flow_cons_of_ne hi]
        exact ih

theorem flow_dropFirst_of_ne (h : j ≠ k) : flow j (dropFirst k q) = flow j q := by
  induction q with
  | nil => rfl
  | cons x q ih =>
      obtain ⟨i, a⟩ := x
      by_cases hi : i = k
      · subst hi
        rw [dropFirst, List.eraseP_cons_of_pos (by simp), flow_cons_of_ne (Ne.symm h)]
      · rw [dropFirst, List.eraseP_cons_of_neg (by simpa using hi)]
        by_cases hj : i = j
        · subst hj
          rw [flow_cons_self, flow_cons_self]
          exact congrArg (a :: ·) ih
        · rw [flow_cons_of_ne hj, flow_cons_of_ne hj]
          exact ih

theorem dropFirst_sublist : (dropFirst k q).Sublist q := List.eraseP_sublist

theorem length_dropFirst (h : flow k q ≠ []) : (dropFirst k q).length + 1 = q.length := by
  obtain ⟨x, hx, hk⟩ : ∃ x ∈ q, x.1 = k := by
    by_contra hno
    exact h (flow_eq_nil.mpr fun x hx hk => hno ⟨x, hx, hk⟩)
  have hlen := List.length_eraseP_of_mem (p := fun x => decide (x.1 = k)) hx (by simpa using hk)
  have hpos := List.length_pos_of_mem hx
  rw [dropFirst, hlen]
  omega

/-- The first item found with a key is the oldest of its flow. -/
theorem flow_of_find {x : κ × α} (h : q.find? (fun x => x.1 = k) = some x) :
    x.1 = k ∧ flow k q = x.2 :: flow k (dropFirst k q) := by
  have hk : x.1 = k := by simpa using List.find?_some h
  refine ⟨hk, ?_⟩
  rw [flow_dropFirst_self]
  induction q with
  | nil => exact nomatch h
  | cons y q ih =>
      by_cases hy : y.1 = k
      · rw [List.find?_cons_of_pos (by simpa using hy)] at h
        obtain rfl := Option.some.inj h
        obtain ⟨i, a⟩ := y
        obtain rfl := hy
        rw [flow_cons_self]
        rfl
      · rw [List.find?_cons_of_neg (by simpa using hy)] at h
        rw [flow_cons_of_ne hy]
        exact ih h

/-! ## Lossy delivery in order -/

/-- In every flow the delivered items and then the queued ones are a subsequence of the pushed
ones. -/
def Lossy (pushed delivered queued : List (κ × α)) : Prop :=
  ∀ k, (flow k delivered ++ flow k queued).Sublist (flow k pushed)

variable {pushed delivered queued : List (κ × α)}

theorem lossy_nil : Lossy ([] : List (κ × α)) [] [] := fun _ => List.Sublist.refl _

theorem Lossy.push (h : Lossy pushed delivered queued) (x : κ × α) :
    Lossy (pushed ++ [x]) delivered (queued ++ [x]) := by
  intro k
  rw [flow_append, flow_append, ← List.append_assoc]
  exact (h k).append (List.Sublist.refl _)

theorem Lossy.drop (h : Lossy pushed delivered queued) {queued' : List (κ × α)}
    (hsub : queued'.Sublist queued) : Lossy pushed delivered queued' :=
  fun k => ((List.Sublist.refl _).append (flow_sublist hsub)).trans (h k)

theorem Lossy.deliver (h : Lossy pushed delivered queued) {x : κ × α}
    (hx : flow x.1 queued = x.2 :: flow x.1 (dropFirst x.1 queued)) :
    Lossy pushed (delivered ++ [x]) (dropFirst x.1 queued) := by
  intro k
  rw [flow_append]
  by_cases hk : x.1 = k
  · subst hk
    obtain ⟨i, a⟩ := x
    have hone : flow i [(i, a)] = [a] := flow_cons_self a
    rw [hone, List.append_assoc, List.singleton_append, ← hx]
    exact h i
  · rw [flow_cons_of_ne hk, flow_nil, List.append_nil, flow_dropFirst_of_ne (Ne.symm hk)]
    exact h k

/-- What a lossy queue delivered is a subsequence of what was pushed. -/
theorem Lossy.delivered_sublist (h : Lossy pushed delivered queued) (k : κ) :
    (flow k delivered).Sublist (flow k pushed) :=
  (List.sublist_append_left _ _).trans (h k)

/-! ## The busiest flow -/

/-- The last of the elements with the greatest key. -/
def maxByKey {β : Type u} (key : β → Nat) (l : List β) : Option β :=
  l.foldl (fun best x => match best with
    | none => some x
    | some b => if key b ≤ key x then some x else some b) none

theorem maxByKey_append_singleton {β : Type u} (key : β → Nat) (l : List β) (x : β) :
    maxByKey key (l ++ [x]) = match maxByKey key l with
      | none => some x
      | some b => if key b ≤ key x then some x else some b := by
  rw [maxByKey, List.foldl_append]
  rfl

theorem maxByKey_spec {β : Type u} (key : β → Nat) (l : List β) :
    match maxByKey key l with
    | none => l = []
    | some b => b ∈ l ∧ ∀ x ∈ l, key x ≤ key b := by
  induction l using List.reverseRecOn with
  | nil => rfl
  | append_singleton l x ih =>
      rw [maxByKey_append_singleton]
      cases hbest : maxByKey key l with
      | none =>
          rw [hbest] at ih
          subst ih
          simp
      | some b =>
          rw [hbest] at ih
          obtain ⟨hb, hmax⟩ := ih
          dsimp only
          -- a later item wins a tie
          by_cases hle : key b ≤ key x
          · rw [if_pos hle]
            refine ⟨List.mem_append_right l (List.mem_singleton_self x), fun y hy => ?_⟩
            rcases List.mem_append.mp hy with hy | hy
            · exact Nat.le_trans (hmax y hy) hle
            · exact Nat.le_of_eq (congrArg key (List.mem_singleton.mp hy))
          · rw [if_neg hle]
            refine ⟨List.mem_append_left _ hb, fun y hy => ?_⟩
            rcases List.mem_append.mp hy with hy | hy
            · exact hmax y hy
            · rw [List.mem_singleton.mp hy]
              exact Nat.le_of_not_le hle

/-- An order in which a hash map may be iterated. -/
structure IterOrder (β : Type u) where
  iter : List β → List β
  perm : ∀ l, (iter l).Perm l

/-- The order of the entries as they stand. -/
def IterOrder.asIs (β : Type u) : IterOrder β := ⟨id, fun l => List.Perm.refl l⟩

end FlowQueue
