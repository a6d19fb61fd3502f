import Mathlib.Data.List.Basic

/-!
# Units cut off the front of a growing buffer

A reader of a stream appends what arrives to a buffer and takes the complete units off its front. A
`Cutter` says what the first complete unit is: what is left after it is shorter, and nothing that
arrives later changes it. `cut` takes all of them, and `feed` is one delivery to a reader that
executes each unit it takes.

How the stream was cut into deliveries makes no difference (`feed_feed`, `feed_nil`). The two
cutters are `delimited`, units that a symbol ends, and `prefixed`, units with a length that their
first symbol determines.
-/

set_option autoImplicit false

universe u v w

structure Cutter (α : Type u) (β : Type v) where
  /-- The first complete unit and what stands after it. -/
  next : List α → Option (β × List α)
  shorter : ∀ {buf rest : List α} {x : β}, next buf = some (x, rest) → rest.length < buf.length
  stable : ∀ {buf rest : List α} {x : β}, next buf = some (x, rest) →
    ∀ more, next (buf ++ more) = some (x, rest ++ more)

namespace Cutter

variable {α : Type u} {β : Type v} {σ : Type w} (c : Cutter α β)

/-- All complete units, and what is left. -/
def cut (buf : List α) : List β × List α :=
  match _h : c.next buf with
  | none => ([], buf)
  | some (x, rest) => (x :: (cut rest).1, (cut rest).2)
termination_by buf.length
decreasing_by all_goals exact c.shorter ‹_›

variable {c}

theorem cut_of_none {buf : List α} (h : c.next buf = none) : c.cut buf = ([], buf) := by
  rw [cut]
  split
  · rfl
  · next heq => rw [h] at heq; cases heq

theorem cut_of_some {buf rest : List α} {x : β} (h : c.next buf = some (x, rest)) :
    c.cut buf = (x :: (c.cut rest).1, (c.cut rest).2) := by
  rw [cut]
  split
  · next heq => rw [h] at heq; cases heq
  · next heq =>
      rw [h] at heq
      cases heq
      rfl

/-- What is left starts with no complete unit. -/
theorem next_cut (buf : List α) : c.next (c.cut buf).2 = none := by
  induction buf using cut.induct (c := c) with
  | case1 buf h => rwa [cut_of_none h]
  | case2 buf x rest h ih => rwa [cut_of_some h]

/-- What arrives later is cut together with what was left. -/
theorem cut_append (a b : List α) :
    c.cut (a ++ b) =
      ((c.cut a).1 ++ (c.cut ((c.cut a).2 ++ b)).1, (c.cut ((c.cut a).2 ++ b)).2) := by
  induction a using cut.induct (c := c) with
  | case1 a h => rw [cut_of_none h, List.nil_append]
  | case2 a x rest h ih => rw [cut_of_some h, cut_of_some (c.stable h b), ih, List.cons_append]

/-- What was written unit by unit is cut into these units. -/
theorem cut_flatMap {write : β → List α} {xs : List β} {tail : List α} (htail : c.next tail = none)
    (h : ∀ x ∈ xs, ∀ rest, c.next (write x ++ rest) = some (x, rest)) :
    c.cut (xs.flatMap write ++ tail) = (xs, tail) := by
  induction xs with
  | nil => exact cut_of_none htail
  | cons x xs ih =>
      have hx := h x List.mem_cons_self (xs.flatMap write ++ tail)
      rw [List.flatMap_cons, List.append_assoc, cut_of_some hx,
        ih fun y hy => h y (List.mem_cons_of_mem x hy)]

/-! ## Deliveries -/

variable (c) (exec : σ → β → Option σ)

/-- One delivery: execute every unit that is complete with it. -/
def feed (s : List α × σ) (chunk : List α) : Option (List α × σ) :=
  ((c.cut (s.1 ++ chunk)).1.foldlM exec s.2).map fun t => ((c.cut (s.1 ++ chunk)).2, t)

variable {c exec}

/-- Two deliveries are one. -/
theorem feed_feed (s : List α × σ) (a b : List α) :
    (c.feed exec s a).bind (fun s' => c.feed exec s' b) = c.feed exec s (a ++ b) := by
  rw [feed, feed, ← List.append_assoc, cut_append (s.1 ++ a) b, List.foldlM_append,
    Option.bind_map, Option.bind_eq_bind, Option.map_bind]
  rfl

theorem feed_nil {s : List α × σ} (h : c.next s.1 = none) : c.feed exec s [] = some s := by
  rw [feed, List.append_nil, cut_of_none h]
  rfl

/-! ## Units that a symbol ends -/

section delimited

variable [DecidableEq α]

/-- What stands before and after the first `d`. -/
def upTo (d : α) : List α → Option (List α × List α)
  | [] => none
  | a :: as => if a = d then some ([], as) else (upTo d as).map fun r => (a :: r.1, r.2)

theorem upTo_append {d : α} {unit : List α} (h : d ∉ unit) (rest : List α) :
    upTo d (unit ++ d :: rest) = some (unit, rest) := by
  induction unit with
  | nil => exact if_pos rfl
  | cons a as ih =>
      have ha : a ≠ d := fun heq => h (heq ▸ List.mem_cons_self)
      have has : d ∉ as := fun hmem => h (List.mem_cons_of_mem a hmem)
      rw [List.cons_append, upTo, if_neg ha, ih has, Option.map_some]

theorem eq_of_upTo {d : α} {buf unit rest : List α} (h : upTo d buf = some (unit, rest)) :
    buf = unit ++ d :: rest ∧ d ∉ unit := by
  induction buf generalizing unit with
  | nil => cases h
  | cons a as ih =>
      rw [upTo] at h
      split at h
      · next ha =>
          cases h
          exact ⟨ha ▸ rfl, List.not_mem_nil⟩
      · next ha =>
          obtain ⟨⟨unit', rest'⟩, hr, heq⟩ := Option.map_eq_some_iff.mp h
          cases heq
          obtain ⟨rfl, hd⟩ := ih hr
          refine ⟨rfl, fun hmem => ?_⟩
          rcases List.mem_cons.mp hmem with hda | hmem
          · exact ha hda.symm
          · exact hd hmem

theorem upTo_of_not_mem {d : α} {buf : List α} (h : d ∉ buf) : upTo d buf = none := by
  cases hr : upTo d buf with
  | none => rfl
  | some r =>
      obtain ⟨unit, rest⟩ := r
      refine absurd ?_ h
      rw [(eq_of_upTo hr).1]
      exact List.mem_append_right _ List.mem_cons_self

/-- Units that `d` ends. -/
def delimited (d : α) : Cutter α (List α) where
  next := upTo d
  shorter h := by
    rw [(eq_of_upTo h).1, List.length_append, List.length_cons]
    omega
  stable h more := by
    obtain ⟨rfl, hd⟩ := eq_of_upTo h
    rw [List.append_assoc, List.cons_append, upTo_append hd]

/-- A stream of complete units is cut into these. -/
theorem cut_delimited {d : α} {units : List (List α)} (h : ∀ x ∈ units, d ∉ x) :
    (delimited d).cut (units.flatMap (· ++ [d])) = (units, []) := by
  have hnext : ∀ x ∈ units, ∀ rest,
      (delimited d).next (x ++ [d] ++ rest) = some (x, rest) := by
    intro x hx rest
    rw [List.append_assoc, List.singleton_append]
    exact upTo_append (h x hx) rest
  have hcut : (delimited d).cut (units.flatMap (· ++ [d]) ++ []) = (units, []) :=
    cut_flatMap rfl hnext
  rwa [List.append_nil] at hcut

end delimited

/-! ## Units that begin with their length -/

section prefixed

/-- A unit of the length that its first symbol determines. -/
def Complete (len : α → Nat) (x : List α) : Prop := ∃ a as, x = a :: as ∧ x.length = len a

/-- The beginning of a unit, short of its end. -/
def Incomplete (len : α → Nat) (x : List α) : Prop := ∀ a as, x = a :: as → x.length < len a

variable (len : α → Nat)

def nextPrefixed : List α → Option (List α × List α)
  | [] => none
  | a :: as =>
      if (a :: as).length < len a then none
      else some ((a :: as).take (len a), (a :: as).drop (len a))

variable {len}

theorem nextPrefixed_eq_some {buf unit rest : List α} (hlen : ∀ a, 0 < len a)
    (h : nextPrefixed len buf = some (unit, rest)) :
    buf = unit ++ rest ∧ Complete len unit := by
  cases buf with
  | nil => cases h
  | cons a as =>
      rw [nextPrefixed] at h
      split at h
      · cases h
      · next hle =>
          cases h
          refine ⟨(List.take_append_drop _ _).symm, a, as.take (len a - 1), ?_, ?_⟩
          · conv_lhs => rw [← Nat.sub_add_cancel (hlen a), List.take_succ_cons]
          · exact List.length_take_of_le (Nat.le_of_not_lt hle)

theorem nextPrefixed_append {unit : List α} (h : Complete len unit) (rest : List α) :
    nextPrefixed len (unit ++ rest) = some (unit, rest) := by
  obtain ⟨a, as, rfl, hlength⟩ := h
  have hle : ¬((a :: as) ++ rest).length < len a := by
    rw [List.length_append]
    omega
  rw [List.cons_append] at hle ⊢
  rw [nextPrefixed, if_neg hle, ← List.cons_append, ← hlength, List.take_left, List.drop_left]

theorem nextPrefixed_eq_none {buf : List α} :
    nextPrefixed len buf = none ↔ Incomplete len buf := by
  cases buf with
  | nil => exact ⟨fun _ a as h => (nomatch h), fun _ => rfl⟩
  | cons a as =>
      rw [nextPrefixed]
      constructor
      · intro h b bs heq
        cases heq
        by_contra hle
        rw [if_neg hle] at h
        cases h
      · exact fun h => if_pos (h a as rfl)

/-- Units of a length that their first symbol determines. -/
def prefixed (len : α → Nat) (hlen : ∀ a, 0 < len a) : Cutter α (List α) where
  next := nextPrefixed len
  shorter h := by
    obtain ⟨rfl, a, as, rfl, -⟩ := nextPrefixed_eq_some hlen h
    rw [List.length_append, List.length_cons]
    omega
  stable h more := by
    obtain ⟨rfl, hunit⟩ := nextPrefixed_eq_some hlen h
    rw [List.append_assoc, nextPrefixed_append hunit]

theorem cut_incomplete {hlen : ∀ a, 0 < len a} {buf : List α} (h : Incomplete len buf) :
    (prefixed len hlen).cut buf = ([], buf) :=
  cut_of_none (nextPrefixed_eq_none.mpr h)

/-- A buffer is the complete units that were cut off it and the beginning of the next one. -/
theorem cut_prefixed {hlen : ∀ a, 0 < len a} (buf : List α) :
    buf = ((prefixed len hlen).cut buf).1.flatten ++ ((prefixed len hlen).cut buf).2 ∧
      (∀ x ∈ ((prefixed len hlen).cut buf).1, Complete len x) ∧
      Incomplete len ((prefixed len hlen).cut buf).2 := by
  refine ⟨?_, ?_, nextPrefixed_eq_none.mp (next_cut (c := prefixed len hlen) buf)⟩
  · induction buf using cut.induct (c := prefixed len hlen) with
    | case1 buf h => rw [cut_of_none h, List.flatten_nil, List.nil_append]
    | case2 buf x rest h ih =>
        rw [cut_of_some h, List.flatten_cons, List.append_assoc, ← ih]
        exact (nextPrefixed_eq_some hlen h).1
  · induction buf using cut.induct (c := prefixed len hlen) with
    | case1 buf h =>
        rw [cut_of_none h]
        nofun
    | case2 buf x rest h ih =>
        rw [cut_of_some h]
        intro y hy
        rcases List.mem_cons.mp hy with rfl | hy
        · exact (nextPrefixed_eq_some hlen h).2
        · exact ih y hy

end prefixed

end Cutter
