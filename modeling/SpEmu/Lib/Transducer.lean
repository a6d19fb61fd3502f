import Mathlib.Logic.Basic
import Mathlib.Data.List.Basic

/-!
# Partial transducers

A transducer takes one item at a time, gives one for it and goes on from another state; `none` is a
step that does not return. `run` takes a list of items.

`isSome_run_iff` says on which inputs a run returns, from a condition on the items taken so far and
an invariant that knows them. `run_simulates` compares two transducers that give the same.
-/

set_option autoImplicit false

namespace Transducer

universe u v w x

variable {σ : Type u} {α : Type v} {β : Type w}

/-- What comes out for the items, and the state after them. -/
def run (step : σ → α → Option (β × σ)) : List α → σ → Option (List β × σ)
  | [], s => some ([], s)
  | a :: as, s => (step s a).bind fun r => (run step as r.2).map fun t => (r.1 :: t.1, t.2)

variable {step : σ → α → Option (β × σ)}

@[simp] theorem run_nil (s : σ) : run step [] s = some ([], s) := rfl

theorem run_cons (a : α) (as : List α) (s : σ) : run step (a :: as) s =
    (step s a).bind fun r => (run step as r.2).map fun t => (r.1 :: t.1, t.2) := rfl

theorem run_cons_eq_some {a : α} {as : List α} {s t : σ} {bs : List β} :
    run step (a :: as) s = some (bs, t) ↔ ∃ b bs' s', step s a = some (b, s') ∧
      run step as s' = some (bs', t) ∧ bs = b :: bs' := by
  rw [run_cons, Option.bind_eq_some_iff]
  constructor
  · rintro ⟨⟨b, s'⟩, hstep, hrest⟩
    obtain ⟨⟨bs', t'⟩, hrun, heq⟩ := Option.map_eq_some_iff.mp hrest
    cases heq
    exact ⟨b, bs', s', hstep, hrun, rfl⟩
  · rintro ⟨b, bs', s', hstep, hrun, rfl⟩
    exact ⟨(b, s'), hstep, by rw [hrun, Option.map_some]⟩

theorem run_append_eq_some {as as' : List α} {s t : σ} {bs : List β} :
    run step (as ++ as') s = some (bs, t) ↔ ∃ bs₁ bs₂ m, run step as s = some (bs₁, m) ∧
      run step as' m = some (bs₂, t) ∧ bs = bs₁ ++ bs₂ := by
  induction as generalizing s bs with
  | nil =>
      constructor
      · intro h
        exact ⟨[], bs, s, rfl, h, rfl⟩
      · rintro ⟨bs₁, bs₂, m, hnil, hrun, rfl⟩
        cases hnil
        exact hrun
  | cons a as ih =>
      rw [List.cons_append, run_cons_eq_some]
      constructor
      · rintro ⟨b, rest, s', hstep, hrest, rfl⟩
        obtain ⟨bs₁, bs₂, m, hrun, hrun', rfl⟩ := ih.mp hrest
        exact ⟨b :: bs₁, bs₂, m, run_cons_eq_some.mpr ⟨b, bs₁, s', hstep, hrun, rfl⟩, hrun', rfl⟩
      · rintro ⟨bs₁, bs₂, m, hrun, hrun', rfl⟩
        obtain ⟨b, rest, s', hstep, hrest, rfl⟩ := run_cons_eq_some.mp hrun
        exact ⟨b, rest ++ bs₂, s', hstep, ih.mpr ⟨rest, bs₂, m, hrest, hrun', rfl⟩, rfl⟩

theorem run_map {γ : Type x} (f : γ → α) (cs : List γ) (s : σ) :
    run step (cs.map f) s = run (fun s c => step s (f c)) cs s := by
  induction cs generalizing s with
  | nil => rfl
  | cons c cs ih => simp only [List.map_cons, run_cons, ih]

/-- One item comes out for each that goes in. -/
theorem length_of_run {as : List α} {s t : σ} {bs : List β} (h : run step as s = some (bs, t)) :
    bs.length = as.length := by
  induction as generalizing s bs with
  | nil =>
      cases h
      rfl
  | cons a as ih =>
      obtain ⟨b, bs', s', -, hrun, rfl⟩ := run_cons_eq_some.mp h
      rw [List.length_cons, List.length_cons, ih hrun]

/-- What every step preserves, together with the items taken so far, holds after a run. -/
theorem invariant_of_run {I : List α → σ → Prop}
    (hstep : ∀ p s a b s', I p s → step s a = some (b, s') → I (p ++ [a]) s') {as : List α}
    {p : List α} {s t : σ} {bs : List β} (hs : I p s) (h : run step as s = some (bs, t)) :
    I (p ++ as) t := by
  induction as generalizing p s bs with
  | nil =>
      cases h
      rwa [List.append_nil]
  | cons a as ih =>
      obtain ⟨b, bs', s', ha, hrun, -⟩ := run_cons_eq_some.mp h
      have hnext := ih (hstep p s a b s' hs ha) hrun
      rwa [List.append_assoc, List.singleton_append] at hnext

/-- Two steps that agree where the invariant holds have the same runs. -/
theorem run_congr {step' : σ → α → Option (β × σ)} {I : List α → σ → Prop}
    (hagree : ∀ p s a, I p s → step s a = step' s a)
    (hstep : ∀ p s a b s', I p s → step' s a = some (b, s') → I (p ++ [a]) s') {as p : List α}
    {s : σ} (hs : I p s) : run step as s = run step' as s := by
  induction as generalizing p s with
  | nil => rfl
  | cons a as ih =>
      rw [run_cons, run_cons, hagree p s a hs]
      cases ha : step' s a with
      | none => rfl
      | some r =>
          obtain ⟨b, s'⟩ := r
          rw [Option.bind_some, Option.bind_some, ih (hstep p s a b s' hs ha)]

/-- A run returns on the inputs that meet a condition, if a step does on the items that keep it. -/
theorem isSome_run_iff {I : List α → σ → Prop} {C : List α → Prop}
    (hclosed : ∀ p q, C (p ++ q) → C p)
    (hsome : ∀ p s a, I p s → C p → ((step s a).isSome ↔ C (p ++ [a])))
    (hstep : ∀ p s a b s', I p s → step s a = some (b, s') → I (p ++ [a]) s')
    {as p : List α} {s : σ} (hs : I p s) (hp : C p) :
    (run step as s).isSome ↔ C (p ++ as) := by
  induction as generalizing p s with
  | nil =>
      rw [List.append_nil]
      exact iff_of_true rfl hp
  | cons a as ih =>
      rw [run_cons]
      cases ha : step s a with
      | none =>
          -- an item that is excluded excludes all that comes behind it
          have hnot : ¬ C (p ++ [a]) := fun hC => by
            have hsome' := (hsome p s a hs hp).mpr hC
            rw [ha] at hsome'
            cases hsome'
          refine iff_of_false Bool.false_ne_true fun hC => hnot (hclosed (p ++ [a]) as ?_)
          rwa [List.append_assoc, List.singleton_append]
      | some r =>
          obtain ⟨b, s'⟩ := r
          have hC : C (p ++ [a]) := (hsome p s a hs hp).mp (by rw [ha]; rfl)
          rw [Option.bind_some, Option.isSome_map, ih (hstep p s a b s' hs ha) hC,
            List.append_assoc, List.singleton_append]

/-- Transducers in related states give the same for the items that both are meant for, and stay
related. -/
theorem run_simulates {τ : Type x} {step' : τ → α → Option (β × τ)} {R : σ → τ → Prop}
    {P : α → Prop}
    (hstep : ∀ s t a, R s t → P a → ∃ b s' t', step s a = some (b, s') ∧
      step' t a = some (b, t') ∧ R s' t')
    {as : List α} (has : ∀ a ∈ as, P a) {s : σ} {t : τ} (h : R s t) :
    ∃ bs s' t', run step as s = some (bs, s') ∧ run step' as t = some (bs, t') ∧ R s' t' := by
  induction as generalizing s t with
  | nil => exact ⟨[], s, t, rfl, rfl, h⟩
  | cons a as ih =>
      obtain ⟨ha, has⟩ := List.forall_mem_cons.mp has
      obtain ⟨b, s₁, t₁, hs, ht, hR⟩ := hstep s t a h ha
      obtain ⟨bs, s', t', hs', ht', hR'⟩ := ih has hR
      exact ⟨b :: bs, s', t', run_cons_eq_some.mpr ⟨b, bs, s₁, hs, hs', rfl⟩,
        run_cons_eq_some.mpr ⟨b, bs, t₁, ht, ht', rfl⟩, hR'⟩

end Transducer
