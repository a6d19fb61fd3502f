import Mathlib.Logic.Basic

/-!
# Programs over an interface of calls

`Prog E R α` is a program that makes calls `e : E`, continues with the answer in `R e` and
returns an `α`. A handler gives each call its meaning as a partial state transformer, and
`run` executes a program under a handler; `none` is a call that does not return.

`Calls h P` says that `P` holds of every call the program makes and of the state it makes it
in. A property of a run that is spoken of call by call is stated with it once, and proved by
the rules here: `run_bind` and `calls_bind` for composition, `invariant_of_calls` for what
every call preserves, `isSome_run_iff` for the runs that return and `run_congr` for two
handlers that agree on the calls made.

`Returns P` says that `P` holds of every value that the program can return, whatever the calls
answer; `returns_bind` composes it, and `of_returns` brings it to a run.
-/

set_option autoImplicit false

/-- A program over the interface `E` with answers `R`. -/
inductive Prog (E : Type) (R : E → Type) (α : Type) where
  | ret (a : α)
  | call (e : E) (k : R e → Prog E R α)

namespace Prog

variable {E : Type} {R : E → Type} {α β γ σ : Type}

def bind : Prog E R α → (α → Prog E R β) → Prog E R β
  | .ret a, f => f a
  | .call e k, f => .call e fun r => (k r).bind f

instance : Monad (Prog E R) where
  pure := .ret
  bind := bind

/-- The program that makes one call and returns its answer. -/
def lift (e : E) : Prog E R (R e) := .call e .ret

/-- A handler: the answer to a call and the state after it. -/
abbrev Handler (E : Type) (R : E → Type) (σ : Type) := (e : E) → σ → Option (R e × σ)

def run (h : Handler E R σ) : Prog E R α → σ → Option (α × σ)
  | .ret a, s => some (a, s)
  | .call e k, s => (h e s).bind fun r => (k r.1).run h r.2

/-- The first call of a program. -/
def first : Prog E R α → Option E
  | .ret _ => none
  | .call e _ => some e

/-- `P` holds of every call the program makes from `s`, and of the state it is made in. -/
def Calls (h : Handler E R σ) (P : E → σ → Prop) : Prog E R α → σ → Prop
  | .ret _, _ => True
  | .call e k, s => P e s ∧ ∀ r s', h e s = some (r, s') → (k r).Calls h P s'

variable (h : Handler E R σ)

@[simp] theorem pure_eq (a : α) : (pure a : Prog E R α) = .ret a := rfl

@[simp] theorem bind_eq (p : Prog E R α) (f : α → Prog E R β) : p >>= f = p.bind f := rfl

@[simp] theorem ret_bind (a : α) (f : α → Prog E R β) : (Prog.ret a).bind f = f a := rfl

@[simp] theorem call_bind (e : E) (k : R e → Prog E R α) (f : α → Prog E R β) :
    (Prog.call e k).bind f = .call e fun r => (k r).bind f := rfl

@[simp] theorem lift_bind (e : E) (f : R e → Prog E R β) : (lift e).bind f = .call e f := rfl

@[simp] theorem calls_ret (P : E → σ → Prop) (a : α) (s : σ) :
    (Prog.ret a : Prog E R α).Calls h P s := trivial

theorem bind_assoc (p : Prog E R α) (f : α → Prog E R β) (g : β → Prog E R γ) :
    (p.bind f).bind g = p.bind fun a => (f a).bind g := by
  induction p with
  | ret a => rfl
  | call e k ih => exact congrArg (Prog.call e) (funext fun r => ih r)

@[simp] theorem bind_ret (p : Prog E R α) : p.bind .ret = p := by
  induction p with
  | ret a => rfl
  | call e k ih => exact congrArg (Prog.call e) (funext fun r => ih r)

@[simp] theorem run_ret (a : α) (s : σ) : (Prog.ret a : Prog E R α).run h s = some (a, s) := rfl

theorem run_call (e : E) (k : R e → Prog E R α) (s : σ) :
    (Prog.call e k).run h s = (h e s).bind fun r => (k r.1).run h r.2 := rfl

@[simp] theorem run_lift (e : E) (s : σ) : (lift e : Prog E R (R e)).run h s = h e s := by
  rw [lift, run_call]
  cases h e s with
  | none => rfl
  | some r => rfl

theorem run_bind (p : Prog E R α) (f : α → Prog E R β) (s : σ) :
    (p.bind f).run h s = (p.run h s).bind fun r => (f r.1).run h r.2 := by
  induction p generalizing s with
  | ret a => rfl
  | call e k ih =>
      rw [call_bind, run_call, run_call]
      cases h e s with
      | none => rfl
      | some r => exact ih r.1 r.2

theorem calls_bind {P : E → σ → Prop} {p : Prog E R α} {f : α → Prog E R β} {s : σ} :
    (p.bind f).Calls h P s ↔
      p.Calls h P s ∧ ∀ a s', p.run h s = some (a, s') → (f a).Calls h P s' := by
  induction p generalizing s with
  | ret a =>
      refine ⟨fun hf => ⟨trivial, fun a' s' heq => ?_⟩, fun hf => hf.2 a s rfl⟩
      cases heq
      exact hf
  | call e k ih =>
      constructor
      · rintro ⟨hP, hk⟩
        refine ⟨⟨hP, fun r s' hr => (ih r).mp (hk r s' hr) |>.1⟩, fun a s' hrun => ?_⟩
        rw [run_call, Option.bind_eq_some_iff] at hrun
        obtain ⟨⟨r, s₁⟩, hr, hrest⟩ := hrun
        exact ((ih r).mp (hk r s₁ hr)).2 a s' hrest
      · rintro ⟨⟨hP, hk⟩, hf⟩
        refine ⟨hP, fun r s₁ hr => (ih r).mpr ⟨hk r s₁ hr, fun a s' hrun => hf a s' ?_⟩⟩
        rw [run_call, hr]
        exact hrun

theorem Calls.mono {P Q : E → σ → Prop} (hPQ : ∀ e s, P e s → Q e s) {p : Prog E R α} {s : σ}
    (hp : p.Calls h P s) : p.Calls h Q s := by
  induction p generalizing s with
  | ret a => trivial
  | call e k ih => exact ⟨hPQ e s hp.1, fun r s' hr => ih r (hp.2 r s' hr)⟩

/-- A condition that every call meets holds of every program. -/
theorem calls_of_forall {P : E → σ → Prop} (hP : ∀ e s, P e s) (p : Prog E R α) (s : σ) :
    p.Calls h P s := by
  induction p generalizing s with
  | ret a => trivial
  | call e k ih => exact ⟨hP e s, fun r s' _ => ih r s'⟩

/-- A condition on calls may use what the calls before it preserve. -/
theorem Calls.imp {I : σ → Prop} {P Q : E → σ → Prop}
    (hstep : ∀ e s r s', I s → P e s → h e s = some (r, s') → I s')
    (hPQ : ∀ e s, I s → P e s → Q e s) {p : Prog E R α} {s : σ} (hs : I s)
    (hp : p.Calls h P s) : p.Calls h Q s := by
  induction p generalizing s with
  | ret a => trivial
  | call e k ih =>
      refine ⟨hPQ e s hs hp.1, fun r s' hr => ?_⟩
      exact ih r (hstep e s r s' hs hp.1 hr) (hp.2 r s' hr)

/-- A program returns exactly when every call it makes does. -/
theorem isSome_run_iff {p : Prog E R α} {s : σ} :
    (p.run h s).isSome ↔ p.Calls h (fun e s => (h e s).isSome) s := by
  induction p generalizing s with
  | ret a => simp [Calls]
  | call e k ih =>
      rw [run_call]
      cases hr : h e s with
      | none => simp [Calls, hr]
      | some r =>
          simp only [Option.bind_some, Calls, hr, Option.isSome_some, true_and]
          refine (ih r.1).trans ⟨fun hk r' s' heq => ?_, fun hk => hk r.1 r.2 rfl⟩
          obtain rfl : r = (r', s') := Option.some.inj heq
          exact hk

/-- Step conditions that agree under an invariant of the calls agree along the program. -/
theorem calls_iff {I : σ → Prop} {P Q : E → σ → Prop}
    (hstep : ∀ e s r s', I s → P e s → h e s = some (r, s') → I s')
    (hPQ : ∀ e s, I s → (P e s ↔ Q e s)) (p : Prog E R α) {s : σ} (hs : I s) :
    p.Calls h P s ↔ p.Calls h Q s := by
  induction p generalizing s with
  | ret a => exact Iff.rfl
  | call e k ih =>
      refine and_congr_left' (hPQ e s hs) |>.trans (and_congr_right fun hQ => ?_)
      refine forall_congr' fun r => forall_congr' fun s' => forall_congr' fun hr => ?_
      exact ih r (hstep e s r s' hs ((hPQ e s hs).mpr hQ) hr)

/-- What every guarded call preserves holds after the program. -/
theorem invariant_of_calls {I : σ → Prop} {P : E → σ → Prop}
    (hstep : ∀ e s r s', I s → P e s → h e s = some (r, s') → I s')
    {p : Prog E R α} {s s' : σ} {a : α} (hs : I s) (hP : p.Calls h P s)
    (hrun : p.run h s = some (a, s')) : I s' := by
  induction p generalizing s with
  | ret b =>
      cases hrun
      exact hs
  | call e k ih =>
      rw [run_call, Option.bind_eq_some_iff] at hrun
      obtain ⟨⟨r, s₁⟩, hr, hrest⟩ := hrun
      exact ih r (hstep e s r s₁ hs hP.1 hr) (hP.2 r s₁ hr) hrest

/-- What every call preserves holds after the program. -/
theorem invariant_of_run {I : σ → Prop}
    (hstep : ∀ e s r s', I s → h e s = some (r, s') → I s')
    {p : Prog E R α} {s s' : σ} {a : α} (hs : I s) (hrun : p.run h s = some (a, s')) :
    I s' := by
  have htriv : p.Calls h (fun _ _ => True) s := by
    clear hrun hs
    induction p generalizing s with
    | ret a => trivial
    | call e k ih => exact ⟨trivial, fun r s' _ => ih r⟩
  exact invariant_of_calls h (fun e s r s' hI _ hr => hstep e s r s' hI hr) hs htriv hrun

/-- Two handlers that agree on every call the program makes run it alike. -/
theorem run_congr {h h' : Handler E R σ} {p : Prog E R α} {s : σ}
    (hp : p.Calls h (fun e s => h' e s = h e s) s) : p.run h' s = p.run h s := by
  induction p generalizing s with
  | ret a => rfl
  | call e k ih =>
      rw [run_call, run_call, hp.1]
      cases hr : h e s with
      | none => rfl
      | some r => exact ih r.1 (hp.2 r.1 r.2 hr)

/-! ## Whatever the calls answer -/

/-- `P` holds of every value that the program can return. -/
def Returns (P : α → Prop) : Prog E R α → Prop
  | .ret a => P a
  | .call _ k => ∀ r, (k r).Returns P

theorem Returns.mono {P Q : α → Prop} (hPQ : ∀ a, P a → Q a) {p : Prog E R α}
    (hp : p.Returns P) : p.Returns Q := by
  induction p with
  | ret a => exact hPQ a hp
  | call e k ih => exact fun r => ih r (hp r)

theorem returns_of_forall {P : α → Prop} (hP : ∀ a, P a) (p : Prog E R α) : p.Returns P := by
  induction p with
  | ret a => exact hP a
  | call e k ih => exact fun r => ih r

theorem returns_bind {P : β → Prop} {p : Prog E R α} {f : α → Prog E R β} :
    (p.bind f).Returns P ↔ p.Returns fun a => (f a).Returns P := by
  induction p with
  | ret a => exact Iff.rfl
  | call e k ih => exact forall_congr' ih

/-- What every value has, the value of a run has. -/
theorem of_returns {h : Handler E R σ} {P : α → Prop} {p : Prog E R α} (hp : p.Returns P)
    {s s' : σ} {a : α} (hrun : p.run h s = some (a, s')) : P a := by
  induction p generalizing s with
  | ret b =>
      cases hrun
      exact hp
  | call e k ih =>
      rw [run_call, Option.bind_eq_some_iff] at hrun
      obtain ⟨⟨r, s₁⟩, -, hrest⟩ := hrun
      exact ih r (hp r) hrest

end Prog
