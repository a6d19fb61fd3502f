import Mathlib.Data.List.Basic
import Mathlib.Data.List.Nodup
import Mathlib.Logic.Function.Basic
import Mathlib.Order.Lattice

/-!
# Records that are read and written by name

A record with finitely many fields of different types is a function on the type of its fields,
`∀ i, β i`. `all` lists the fields and `name` tells them apart. This file is about the ways in which
such a record and a list of named values turn into each other:

- `assign` writes the values into the record, one after another (`assign_apply`);
- `entries` lists the fields that have a value (`lookup_entries`), and `tryEntries` does so when a
  value may fail;
- `collect` takes a record of results to a result: the record, or the first error in the order of
  the fields (`collect_eq_ok`).
-/

set_option autoImplicit false

namespace Keyed

variable {ι N V ε : Type} {β : ι → Type}

/-! ## Names -/

section Names

variable [BEq N] [LawfulBEq N] (all : List ι) (name : ι → N)

/-- The field of a name. -/
def ofName (n : N) : Option ι := all.find? fun i => name i == n

theorem name_of_ofName {n : N} {i : ι} (h : ofName all name n = some i) : name i = n :=
  eq_of_beq (List.find?_some (p := fun i => name i == n) h)

variable {all name}

theorem ofName_name (hall : ∀ i, i ∈ all) (hname : Function.Injective name) (i : ι) :
    ofName all name (name i) = some i := by
  cases h : ofName all name (name i) with
  | none => exact absurd (List.find?_eq_none.mp h i (hall i)) (by simp)
  | some j => rw [hname (name_of_ofName all name h)]

end Names

/-! ## Lists of named values -/

section Lookup

variable [BEq N] [LawfulBEq N]

theorem lookup_cons_self (n : N) (v : V) (ps : List (N × V)) :
    ((n, v) :: ps).lookup n = some v := by
  rw [List.lookup_cons, beq_self_eq_true]

theorem lookup_cons_of_ne {n m : N} (h : n ≠ m) (v : V) (ps : List (N × V)) :
    ((m, v) :: ps).lookup n = ps.lookup n := by
  rw [List.lookup_cons, beq_false_of_ne h]

theorem lookup_of_not_mem {n : N} {ps : List (N × V)} (h : n ∉ ps.map Prod.fst) :
    ps.lookup n = none := by
  refine List.lookup_eq_none_iff.mpr fun p hp => ?_
  exact bne_iff_ne.mpr fun heq => h (heq ▸ List.mem_map_of_mem hp)

theorem mem_of_lookup {n : N} {v : V} {ps : List (N × V)} (h : ps.lookup n = some v) :
    (n, v) ∈ ps := by
  obtain ⟨l₁, l₂, rfl, -⟩ := List.lookup_eq_some_iff.mp h
  exact List.mem_append_right _ List.mem_cons_self

theorem lookup_of_mem {n : N} {v : V} {ps : List (N × V)} (hps : (ps.map Prod.fst).Nodup)
    (h : (n, v) ∈ ps) : ps.lookup n = some v := by
  induction ps with
  | nil => cases h
  | cons p ps ih =>
      rw [List.map_cons, List.nodup_cons] at hps
      rcases List.mem_cons.mp h with rfl | hmem
      · exact lookup_cons_self n v ps
      · obtain ⟨m, w⟩ := p
        have hne : n ≠ m := by
          rintro rfl
          exact hps.1 (List.mem_map.mpr ⟨(n, v), hmem, rfl⟩)
        rw [lookup_cons_of_ne hne, ih hps.2 hmem]

theorem lookup_map_values {W : Type} (f : V → W) (n : N) (ps : List (N × V)) :
    (ps.map fun p => (p.1, f p.2)).lookup n = (ps.lookup n).map f := by
  induction ps with
  | nil => rfl
  | cons p ps ih =>
      obtain ⟨m, v⟩ := p
      rw [List.map_cons]
      by_cases h : n = m
      · subst h
        rw [lookup_cons_self, lookup_cons_self, Option.map_some]
      · rw [lookup_cons_of_ne h, lookup_cons_of_ne h, ih]

/-- Pairs that are left out do not uncover others, since no name comes twice. -/
theorem lookup_filterMap_values {W : Type} (f : V → Option W) (n : N) {ps : List (N × V)}
    (hps : (ps.map Prod.fst).Nodup) :
    (ps.filterMap fun p => (f p.2).map fun w => (p.1, w)).lookup n = (ps.lookup n).bind f := by
  induction ps with
  | nil => rfl
  | cons p ps ih =>
      obtain ⟨m, v⟩ := p
      rw [List.map_cons, List.nodup_cons] at hps
      have hrest := ih hps.2
      by_cases h : n = m
      · subst h
        rw [lookup_of_not_mem hps.1, Option.bind_none] at hrest
        rw [lookup_cons_self, Option.bind_some, List.filterMap_cons]
        cases hf : f v with
        | none => exact hrest
        | some w => exact lookup_cons_self n w _
      · rw [lookup_cons_of_ne h, ← hrest, List.filterMap_cons]
        cases hf : f v with
        | none => rfl
        | some w => exact lookup_cons_of_ne h w _

/-- In a list whose values follow from the names. -/
theorem lookup_map_name [DecidableEq ι] {name : ι → N} (hname : Function.Injective name)
    (f : ι → V) (i : ι) (is : List ι) :
    (is.map fun j => (name j, f j)).lookup (name i) = if i ∈ is then some (f i) else none := by
  induction is with
  | nil => rfl
  | cons j js ih =>
      rw [List.map_cons]
      by_cases h : i = j
      · subst h
        rw [lookup_cons_self, if_pos List.mem_cons_self]
      · rw [lookup_cons_of_ne fun heq => h (hname heq), ih]
        simp only [List.mem_cons, h, false_or]

end Lookup

/-- Values that can all be read are read under their names. -/
theorem mapM_values {W : Type} {read : V → Option W} {ps : List (N × V)}
    (h : ∀ p ∈ ps, (read p.2).isSome) :
    ∃ qs, ps.mapM (fun p => (read p.2).map fun w => (p.1, w)) = some qs ∧
      qs.map Prod.fst = ps.map Prod.fst ∧
      ∀ n w, (n, w) ∈ qs ↔ ∃ v, (n, v) ∈ ps ∧ read v = some w := by
  induction ps with
  | nil => exact ⟨[], rfl, rfl, fun n w => by simp⟩
  | cons p ps ih =>
      obtain ⟨qs, hqs, hnames, hmem⟩ := ih fun q hq => h q (List.mem_cons_of_mem p hq)
      obtain ⟨m, v⟩ := p
      obtain ⟨w, hw⟩ := Option.isSome_iff_exists.mp (h (m, v) List.mem_cons_self)
      dsimp only at hw
      refine ⟨(m, w) :: qs, ?_, congrArg (m :: ·) hnames, fun n w' => ?_⟩
      · rw [List.mapM_cons, hqs, hw]
        rfl
      · rw [List.mem_cons, hmem]
        constructor
        · rintro (heq | ⟨v', hv', hread⟩)
          · obtain ⟨rfl, rfl⟩ := Prod.mk.inj heq
            exact ⟨v, List.mem_cons_self, hw⟩
          · exact ⟨v', List.mem_cons_of_mem _ hv', hread⟩
        · rintro ⟨v', hv', hread⟩
          rcases List.mem_cons.mp hv' with heq | hv'
          · obtain ⟨rfl, rfl⟩ := Prod.mk.inj heq
            exact .inl (by rw [Option.some.inj (hw.symm.trans hread)])
          · exact .inr ⟨v', hv', hread⟩

/-! ## Writing by name -/

section Assign

variable [DecidableEq ι] [BEq N] [LawfulBEq N] (all : List ι) (name : ι → N)
  (g : ∀ i, V → β i → β i)

/-- Write one value; a name that no field has is ignored. -/
def assignOne (c : ∀ i, β i) (p : N × V) : ∀ i, β i :=
  match ofName all name p.1 with
  | none => c
  | some i => Function.update c i (g i p.2 (c i))

def assign (c : ∀ i, β i) (ps : List (N × V)) : ∀ i, β i := ps.foldl (assignOne all name g) c

variable {all name}

theorem assignOne_of_ne (c : ∀ i, β i) {p : N × V} {i : ι} (h : name i ≠ p.1) :
    assignOne all name g c p i = c i := by
  unfold assignOne
  cases hj : ofName all name p.1 with
  | none => rfl
  | some j =>
      have hne : i ≠ j := by
        rintro rfl
        exact h (name_of_ofName all name hj)
      exact Function.update_of_ne hne _ _

theorem assignOne_name (hall : ∀ i, i ∈ all) (hname : Function.Injective name) (c : ∀ i, β i)
    (i : ι) (v : V) : assignOne all name g c (name i, v) i = g i v (c i) := by
  rw [assignOne, ofName_name hall hname]
  exact Function.update_self i _ c

theorem assign_of_not_mem {ps : List (N × V)} {i : ι} (h : name i ∉ ps.map Prod.fst)
    (c : ∀ i, β i) : assign all name g c ps i = c i := by
  induction ps generalizing c with
  | nil => rfl
  | cons p ps ih =>
      rw [List.map_cons, List.mem_cons, not_or] at h
      have hrest := ih h.2 (assignOne all name g c p)
      rw [assignOne_of_ne g c h.1] at hrest
      exact hrest

omit [LawfulBEq N] in
/-- The last value. -/
theorem assign_concat (ps : List (N × V)) (p : N × V) (c : ∀ i, β i) :
    assign all name g c (ps ++ [p]) = assignOne all name g (assign all name g c ps) p :=
  List.foldl_concat ..

/-- With distinct names each field is written at most once, in whatever order they come. -/
theorem assign_apply (hall : ∀ i, i ∈ all) (hname : Function.Injective name)
    {ps : List (N × V)} (hps : (ps.map Prod.fst).Nodup) (c : ∀ i, β i) (i : ι) :
    assign all name g c ps i = (ps.lookup (name i)).elim (c i) (g i · (c i)) := by
  induction ps generalizing c with
  | nil => rfl
  | cons p ps ih =>
      obtain ⟨n, v⟩ := p
      rw [List.map_cons, List.nodup_cons] at hps
      by_cases h : name i = n
      · subst h
        have hrest : assign all name g (assignOne all name g c (name i, v)) ps i = _ :=
          assign_of_not_mem g hps.1 _
        rw [assignOne_name g hall hname] at hrest
        rw [lookup_cons_self]
        exact hrest
      · have hrest := ih hps.2 (assignOne all name g c (n, v))
        rw [assignOne_of_ne g c h] at hrest
        rw [lookup_cons_of_ne h]
        exact hrest

end Assign

/-! ## Listing the values -/

section Entries

variable (all : List ι) (name : ι → N) (f : ι → Option V)

/-- The fields that have a value, in their order. -/
def entries : List (N × V) := all.filterMap fun i => (f i).map fun v => (name i, v)

variable {all name}

theorem mem_entries {n : N} {v : V} :
    (n, v) ∈ entries all name f ↔ ∃ i ∈ all, f i = some v ∧ name i = n := by
  simp only [entries, List.mem_filterMap, Option.map_eq_some_iff, Prod.mk.injEq]
  constructor
  · rintro ⟨i, hi, v', hv', hn, rfl⟩
    exact ⟨i, hi, hv', hn⟩
  · rintro ⟨i, hi, hv, hn⟩
    exact ⟨i, hi, v, hv, hn, rfl⟩

theorem nodup_entries (hall : (all.map name).Nodup) :
    ((entries all name f).map Prod.fst).Nodup := by
  have hkeys : (entries all name f).map Prod.fst = (all.filter fun i => (f i).isSome).map name := by
    clear hall
    induction all with
    | nil => rfl
    | cons i is ih =>
        cases h : f i with
        | none => simpa [entries, List.filterMap_cons, List.filter_cons, h] using ih
        | some v => simpa [entries, List.filterMap_cons, List.filter_cons, h] using ih
  rw [hkeys]
  exact hall.sublist (List.filter_sublist.map name)

theorem lookup_entries [BEq N] [LawfulBEq N] (hall : (all.map name).Nodup) {i : ι}
    (hi : i ∈ all) : (entries all name f).lookup (name i) = f i := by
  cases h : f i with
  | some v => exact lookup_of_mem (nodup_entries f hall) ((mem_entries f).mpr ⟨i, hi, h, rfl⟩)
  | none =>
      refine lookup_of_not_mem fun hmem => ?_
      obtain ⟨⟨n, v⟩, hp, hn⟩ := List.mem_map.mp hmem
      obtain ⟨j, hj, hv, hnj⟩ := (mem_entries f).mp hp
      rw [List.inj_on_of_nodup_map hall hj hi (hnj.trans hn), h] at hv
      cases hv

/-- A name that no field has is not listed. -/
theorem lookup_entries_of_not_name [BEq N] [LawfulBEq N] {n : N} (h : ∀ i, name i ≠ n) :
    (entries all name f).lookup n = none := by
  refine lookup_of_not_mem fun hmem => ?_
  obtain ⟨⟨m, v⟩, hp, rfl⟩ := List.mem_map.mp hmem
  obtain ⟨j, -, -, hj⟩ := (mem_entries f).mp hp
  exact h j hj

/-! Values that may fail: the list of all of them, or the first error. -/

def tryEntries (name : ι → N) (f : ι → Option (Except ε V)) : List ι → Except ε (List (N × V))
  | [] => .ok []
  | i :: is =>
      match f i with
      | none => tryEntries name f is
      | some (.error e) => .error e
      | some (.ok v) => (tryEntries name f is).map ((name i, v) :: ·)

variable (all name) in
/-- When none fails the list is that of the values. -/
theorem tryEntries_eq {f : ι → Option (Except ε V)} {g : ι → Option V}
    (h : ∀ i ∈ all, f i = (g i).map .ok) : tryEntries name f all = .ok (entries all name g) := by
  induction all with
  | nil => rfl
  | cons i is ih =>
      have hi := h i List.mem_cons_self
      have hrest := ih fun j hj => h j (List.mem_cons_of_mem i hj)
      rw [tryEntries, entries, List.filterMap_cons]
      cases hg : g i with
      | none =>
          rw [hg, Option.map_none] at hi
          rw [hi]
          exact hrest
      | some v =>
          rw [hg, Option.map_some] at hi
          rw [hi]
          exact congrArg (Except.map _) hrest

/-- One that fails is enough. -/
theorem tryEntries_error (name : ι → N) {f : ι → Option (Except ε V)} {is : List ι} {i : ι} {e : ε}
    (hi : i ∈ is) (h : f i = some (.error e)) : ∃ e', tryEntries name f is = .error e' := by
  induction is with
  | nil => cases hi
  | cons j js ih =>
      rw [tryEntries]
      cases hj : f j with
      | none =>
          rcases List.mem_cons.mp hi with rfl | hmem
          · rw [hj] at h
            cases h
          · exact ih hmem
      | some r =>
          cases r with
          | error e' => exact ⟨e', rfl⟩
          | ok v =>
              rcases List.mem_cons.mp hi with rfl | hmem
              · rw [hj] at h
                cases h
              · obtain ⟨e', he'⟩ := ih hmem
                exact ⟨e', congrArg (Except.map _) he'⟩

end Entries

/-! ## Results field by field -/

section Collect

def errorOf {α : Type} : Except ε α → Option ε
  | .error e => some e
  | .ok _ => none

def valueOf {α : Type} : (r : Except ε α) → errorOf r = none → α
  | .ok a, _ => a

theorem eq_ok_valueOf {α : Type} : ∀ (r : Except ε α) (h : errorOf r = none), r = .ok (valueOf r h)
  | .ok _, _ => rfl

variable {all : List ι}

theorem errorOf_eq_none (hall : ∀ i, i ∈ all) (f : ∀ i, Except ε (β i))
    (h : (all.findSome? fun i => errorOf (f i)) = none) (i : ι) :
    errorOf (f i) = none := List.findSome?_eq_none_iff.mp h i (hall i)

variable (hall : ∀ i, i ∈ all) (f : ∀ i, Except ε (β i))

/-- The record of the values, or the error of the first field that has one. -/
def collect : Except ε (∀ i, β i) :=
  match h : all.findSome? fun i => errorOf (f i) with
  | some e => .error e
  | none => .ok fun i => valueOf (f i) (errorOf_eq_none hall f h i)

theorem collect_eq_ok {c : ∀ i, β i} : collect hall f = .ok c ↔ ∀ i, f i = .ok (c i) := by
  unfold collect
  split
  · next e he =>
      obtain ⟨l₁, i, l₂, -, hi, -⟩ := List.findSome?_eq_some_iff.mp he
      refine ⟨nofun, fun h => ?_⟩
      rw [h i] at hi
      cases hi
  · next h =>
      have hok := fun i => eq_ok_valueOf (f i) (errorOf_eq_none hall f h i)
      constructor
      · rintro ⟨⟩
        exact hok
      · intro hc
        refine congrArg _ (funext fun i => ?_)
        exact Except.ok.inj ((hok i).symm.trans (hc i))

end Collect

end Keyed
