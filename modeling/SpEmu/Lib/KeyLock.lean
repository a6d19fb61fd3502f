import Mathlib.Data.List.Induction

/-!
# Two-key locks

A register lock that a pair of keys opens: writing the first key and then the second one to
the key register opens it, any other write starts over, and a lock command closes it. The
automaton keeps only its progress through the pair. `openedBy_of_run` recovers the history:
an open lock has been opened by the two keys, written one after the other, with the second
after the last lock command.
-/

set_option autoImplicit false

universe u

/-- What a two-key lock sees of an event: a write to its key register, its lock command, or
nothing. -/
inductive LockEvent (κ : Type u) where
  | key (w : κ)
  | lock
  | other

/-- Progress through the key pair, and whether the lock is closed. -/
structure KeyLock where
  primed : Bool
  locked : Bool

namespace KeyLock

variable {κ : Type u}

/-! ## Histories -/

/-- The writes to the key register, in order. -/
def keyWrites (h : List (LockEvent κ)) : List κ :=
  h.filterMap fun e => match e with
    | .key w => some w
    | _ => none

/-- The history contains a write of `k₂` with no lock command after it, whose preceding
write to the key register is `k₁`. -/
def OpenedBy (k₁ k₂ : κ) (h : List (LockEvent κ)) : Prop :=
  ∃ pre post, h = pre ++ .key k₂ :: post ∧ (keyWrites pre).getLast? = some k₁ ∧
    .lock ∉ post

theorem keyWrites_append (h : List (LockEvent κ)) (e : LockEvent κ) :
    keyWrites (h ++ [e]) = keyWrites h ++ keyWrites [e] := by
  simp [keyWrites]

theorem OpenedBy.snoc {k₁ k₂ : κ} {h : List (LockEvent κ)} (hopen : OpenedBy k₁ k₂ h)
    {e : LockEvent κ} (he : e ≠ .lock) : OpenedBy k₁ k₂ (h ++ [e]) := by
  obtain ⟨pre, post, rfl, hlast, hlock⟩ := hopen
  refine ⟨pre, post ++ [e], by simp, hlast, ?_⟩
  rw [List.mem_append, List.mem_singleton]
  exact fun hmem => hmem.elim hlock fun heq => he heq.symm

/-! ## The automaton -/

/-- The closed lock with no key written. -/
def init : KeyLock := ⟨false, true⟩

/-- The automaton's state, as a statement about the history. -/
structure Explains (k₁ k₂ : κ) (h : List (LockEvent κ)) (s : KeyLock) : Prop where
  primed : s.primed = true → (keyWrites h).getLast? = some k₁
  unlocked : s.locked = false → OpenedBy k₁ k₂ h

theorem explains_init (k₁ k₂ : κ) : Explains k₁ k₂ [] init := ⟨nofun, nofun⟩

variable [DecidableEq κ]

def step (k₁ k₂ : κ) (s : KeyLock) : LockEvent κ → KeyLock
  | .key w =>
      if s.primed = false ∧ w = k₁ then { s with primed := true }
      else if s.primed = true ∧ w = k₂ then ⟨false, false⟩
      else { s with primed := false }
  | .lock => { s with locked := true }
  | .other => s

def run (k₁ k₂ : κ) (s : KeyLock) (h : List (LockEvent κ)) : KeyLock :=
  h.foldl (step k₁ k₂) s

theorem Explains.step {k₁ k₂ : κ} {h : List (LockEvent κ)} {s : KeyLock}
    (hs : Explains k₁ k₂ h s) (e : LockEvent κ) :
    Explains k₁ k₂ (h ++ [e]) (KeyLock.step k₁ k₂ s e) := by
  cases e with
  | key w =>
      simp only [KeyLock.step]
      have hkeys : keyWrites (h ++ [.key w]) = keyWrites h ++ [w] := keyWrites_append h _
      -- the first key, the second key after it, or a wrong key
      by_cases h₁ : s.primed = false ∧ w = k₁
      · rw [if_pos h₁]
        refine ⟨fun _ => ?_, fun hu => (hs.unlocked hu).snoc nofun⟩
        rw [hkeys, h₁.2, List.getLast?_concat]
      · rw [if_neg h₁]
        by_cases h₂ : s.primed = true ∧ w = k₂
        · rw [if_pos h₂]
          refine ⟨nofun, fun _ => ⟨h, [], ?_, hs.primed h₂.1, List.not_mem_nil⟩⟩
          rw [h₂.2]
        · rw [if_neg h₂]
          exact ⟨nofun, fun hu => (hs.unlocked hu).snoc nofun⟩
  | lock =>
      refine ⟨fun hp => ?_, nofun⟩
      rw [keyWrites_append]
      simpa [keyWrites] using hs.primed hp
  | other =>
      refine ⟨fun hp => ?_, fun hu => (hs.unlocked hu).snoc nofun⟩
      rw [keyWrites_append]
      simpa [keyWrites] using hs.primed hp

theorem explains_run (k₁ k₂ : κ) (h : List (LockEvent κ)) :
    Explains k₁ k₂ h (run k₁ k₂ init h) := by
  induction h using List.reverseRecOn with
  | nil => exact explains_init k₁ k₂
  | append_singleton h e ih =>
      have hrun : run k₁ k₂ init (h ++ [e]) = step k₁ k₂ (run k₁ k₂ init h) e := by
        simp [run]
      rw [hrun]
      exact ih.step e

/-- A lock found open was opened by its two keys after the last lock command. -/
theorem openedBy_of_run {k₁ k₂ : κ} {h : List (LockEvent κ)}
    (hopen : (run k₁ k₂ init h).locked = false) : OpenedBy k₁ k₂ h :=
  (explains_run k₁ k₂ h).unlocked hopen

end KeyLock
