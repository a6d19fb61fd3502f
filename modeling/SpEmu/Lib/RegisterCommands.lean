import SpEmu.Lib.Transducer
import Mathlib.Logic.Function.Iterate

/-!
# Commands on a register file

A register file is a function from addresses to contents. A command goes over the data that follow
it, one address at a time: at each it gives something for the contents and stores something for the
contents and the data. `access` is what the data give and the file that they leave.

`run_access` is the rule for a device that executes a command step by step: it does so if every
step does it at the address at which the device stands.
-/

set_option autoImplicit false

namespace RegisterCommands

open Transducer

universe u v w x

variable {A : Type u} {B : Type v}

structure Command (A : Type u) (B : Type v) where
  /-- The address behind this one. -/
  next : A → A
  /-- What the contents give. -/
  out : B → B
  /-- What is stored for the contents and the data. -/
  store : B → B → B

/-- The addresses that the data are for. -/
def Covers (c : Command A B) (n : Nat) (a b : A) : Prop := ∃ i, i < n ∧ c.next^[i] a = b

theorem covers_succ {c : Command A B} {n : Nat} {a b : A} (h : Covers c n (c.next a) b) :
    Covers c (n + 1) a b := by
  obtain ⟨i, hi, hb⟩ := h
  exact ⟨i + 1, by omega, hb⟩

theorem covers_self (c : Command A B) (n : Nat) (a : A) : Covers c (n + 1) a a :=
  ⟨0, by omega, rfl⟩

variable [DecidableEq A]

/-- A command over its data, from an address on. -/
def access (c : Command A B) : List B → A → (A → B) → List B × (A → B)
  | [], _, file => ([], file)
  | d :: data, a, file =>
      let r := access c data (c.next a) (Function.update file a (c.store (file a) d))
      (c.out (file a) :: r.1, r.2)

section Device

variable {σ : Type w} {α : Type x} (step : σ → α → Option (B × σ)) (datum : α → B)
  (file : σ → A → B) {At : A → List α → σ → Prop}

/-- A device that executes each step of a command executes the command. `At` is what it needs at an
address, with the items that are still to come. -/
theorem run_access (c : Command A B)
    (hstep : ∀ a d data s, At a (d :: data) s → ∃ s', step s d = some (c.out (file s a), s') ∧
      At (c.next a) data s' ∧
      file s' = Function.update (file s) a (c.store (file s a) (datum d)))
    {data : List α} {a : A} {s : σ} (h : At a data s) :
    ∃ s' a', run step data s = some ((access c (data.map datum) a (file s)).1, s') ∧
      At a' [] s' ∧ file s' = (access c (data.map datum) a (file s)).2 := by
  induction data generalizing a s with
  | nil => exact ⟨s, a, rfl, h, rfl⟩
  | cons d data ih =>
      obtain ⟨s₁, hs, hat, hfile⟩ := hstep a d data s h
      obtain ⟨s', a', hrun, hat', hfile'⟩ := ih hat
      rw [hfile] at hrun hfile'
      exact ⟨s', a', run_cons_eq_some.mpr ⟨_, _, s₁, hs, hrun, rfl⟩, hat', hfile'⟩

end Device

end RegisterCommands
