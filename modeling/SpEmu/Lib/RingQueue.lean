import Mathlib.Data.Nat.ModEq

/-!
# A ring of slots as a queue

A producer fills the slots of a ring in order and a consumer empties them in the same order.
`RingQueue full free len items taken` says that the ring holds the queue of the items
produced but not yet taken: item `k` is in slot `k % len`, and the slots that the producer may
fill next are free. What is in a slot is described by two predicates of the user, so that the
rules apply to any representation; a step supplies what it does to its own slot and that it
leaves the other slots alone.
-/

set_option autoImplicit false

/-- The ring of `len` slots holds the items from `taken` on. -/
structure RingQueue {α : Type} (full : Nat → α → Prop) (free : Nat → Prop) (len : Nat)
    (items : List α) (taken : Nat) : Prop where
  pos : 0 < len
  taken_le : taken ≤ items.length
  length_le : items.length ≤ taken + len
  full : ∀ (k : Nat) (x : α), taken ≤ k → items[k]? = some x → full (k % len) x
  free : ∀ k, items.length ≤ k → k < taken + len → free (k % len)

namespace RingQueue

variable {α : Type} {full full' : Nat → α → Prop} {free free' : Nat → Prop} {len : Nat}
  {items : List α} {taken : Nat}

/-- Positions less than a lap apart are in different slots. -/
theorem slot_ne {j k : Nat} (hjk : j < k) (hk : k < j + len) : j % len ≠ k % len := by
  intro h
  have hmod : j ≡ k [MOD len] := h
  have hdvd : len ∣ k - j := (Nat.modEq_iff_dvd' (Nat.le_of_lt hjk)).mp hmod
  exact absurd (Nat.le_of_dvd (by omega) hdvd) (by omega)

/-- The empty ring. -/
theorem start (hpos : 0 < len) (hfree : ∀ i, i < len → free i) :
    RingQueue full free len [] 0 where
  pos := hpos
  taken_le := Nat.le_refl 0
  length_le := Nat.zero_le _
  full := by
    intro k x _ hx
    cases hx
  free := fun k _ _ => hfree (k % len) (Nat.mod_lt k hpos)

theorem mono (h : RingQueue full free len items taken)
    (hfull : ∀ i x, i < len → full i x → full' i x) (hfree : ∀ i, i < len → free i → free' i) :
    RingQueue full' free' len items taken where
  pos := h.pos
  taken_le := h.taken_le
  length_le := h.length_le
  full := fun k x hk hx => hfull _ x (Nat.mod_lt k h.pos) (h.full k x hk hx)
  free := fun k hk hlt => hfree _ (Nat.mod_lt k h.pos) (h.free k hk hlt)

/-- The producer fills the next slot. -/
theorem put (h : RingQueue full free len items taken) (hroom : items.length < taken + len)
    {x : α} (hx : full' (items.length % len) x)
    (hfull : ∀ i y, i < len → i ≠ items.length % len → full i y → full' i y)
    (hfree : ∀ i, i < len → i ≠ items.length % len → free i → free' i) :
    RingQueue full' free' len (items ++ [x]) taken where
  pos := h.pos
  taken_le := by
    rw [List.length_append]
    exact Nat.le_add_right_of_le h.taken_le
  length_le := by
    rw [List.length_append]
    exact hroom
  full := by
    intro k y hk hy
    -- an older item keeps its slot, and the new one is in the slot just filled
    rcases Nat.lt_trichotomy k items.length with hlt | heq | hgt
    · rw [List.getElem?_append_left hlt] at hy
      have hne : k % len ≠ items.length % len := slot_ne hlt (by omega)
      exact hfull _ y (Nat.mod_lt k h.pos) hne (h.full k y hk hy)
    · subst heq
      rw [List.getElem?_append_right (Nat.le_refl _), Nat.sub_self] at hy
      cases hy
      exact hx
    · rw [List.getElem?_eq_none (by simp; omega)] at hy
      cases hy
  free := by
    intro k hk hlt
    rw [List.length_append, List.length_singleton] at hk
    have hle := h.taken_le
    have hne : items.length % len ≠ k % len := slot_ne (by omega) (by omega)
    exact hfree _ (Nat.mod_lt k h.pos) hne.symm (h.free k (by omega) hlt)

/-- The consumer empties the oldest slot. -/
theorem take (h : RingQueue full free len items taken) (hne : taken < items.length)
    (hx : free' (taken % len))
    (hfull : ∀ i y, i < len → i ≠ taken % len → full i y → full' i y)
    (hfree : ∀ i, i < len → i ≠ taken % len → free i → free' i) :
    RingQueue full' free' len items (taken + 1) where
  pos := h.pos
  taken_le := hne
  length_le := by
    have := h.length_le
    omega
  full := by
    intro k y hk hy
    have hlt : k < items.length := (List.getElem?_eq_some_iff.mp hy).1
    have hle := h.length_le
    have hslot : taken % len ≠ k % len := slot_ne (by omega) (by omega)
    exact hfull _ y (Nat.mod_lt k h.pos) hslot.symm (h.full k y (by omega) hy)
  free := by
    intro k hk hlt
    by_cases hlast : k = taken + len
    · -- The slot just emptied is the producer's last one, a lap further on.
      rw [hlast, Nat.add_mod_right]
      exact hx
    · have hslot : taken % len ≠ k % len := slot_ne (by omega) (by omega)
      exact hfree _ (Nat.mod_lt k h.pos) hslot.symm (h.free k hk (by omega))

/-- The producer's next slot is free, unless the ring is full; then it holds the oldest
item. -/
theorem next_slot (h : RingQueue full free len items taken) :
    items.length < taken + len ∧ free (items.length % len) ∨
      items.length = taken + len ∧ ∃ x, full (items.length % len) x := by
  rcases Nat.lt_or_eq_of_le h.length_le with hlt | heq
  · exact Or.inl ⟨hlt, h.free _ (Nat.le_refl _) hlt⟩
  · refine Or.inr ⟨heq, ?_⟩
    have hin : taken < items.length := by
      have := h.pos
      omega
    refine ⟨items[taken], ?_⟩
    rw [heq, Nat.add_mod_right]
    exact h.full taken _ (Nat.le_refl _) (List.getElem?_eq_getElem hin)

/-- The consumer's next slot holds the next item, unless all items are taken; then it is
free. -/
theorem oldest_slot (h : RingQueue full free len items taken) :
    (∃ x, items[taken]? = some x ∧ full (taken % len) x) ∨
      taken = items.length ∧ free (taken % len) := by
  rcases Nat.lt_or_eq_of_le h.taken_le with hlt | heq
  · exact Or.inl ⟨items[taken], List.getElem?_eq_getElem hlt,
      h.full taken _ (Nat.le_refl _) (List.getElem?_eq_getElem hlt)⟩
  · refine Or.inr ⟨heq, h.free _ (by omega) ?_⟩
    have := h.pos
    omega

end RingQueue
