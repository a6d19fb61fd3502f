import SpEmu.Lib.Runs
import SpEmu.Soc.Qspi

/-!
# The QUADSPI array and its backing file

A command that erases or programs changes a window of the array, which wraps at its end, and writes
it through in one or two segments. `window` is the window of an access; `step_of_window` and
`step_of_no_window` say that nothing else touches the array or the file.

A file that was cut short is loaded with erased bytes past its end. A window that starts past the
end of the file is written there all the same, and the host fills the gap with zeros, which the
array does not have (`LeavesGap`). `qspi_restart_iff`: the model rebuilt from the file has the array
of the live one as long as no command leaves a gap, and only then.
-/

set_option autoImplicit false

namespace SpEmu

open ByteMem Nor

namespace Qspi

variable {q q' : Qspi}

/-! ## Windows -/

/-- What is behind the path after the last write. -/
def backing (q : Qspi) : Option HostPath :=
  match q.file with
  | some f => some ⟨true, f⟩
  | none => q.path

/-- The model rebuilt from the backing file has the array of the live one. -/
def Reconstructs (q : Qspi) : Prop := (withBacking q.backing).mem = q.mem

/-- The window that an erase clears. -/
def eraseWindow (instr : Byte) (ar : Word) : Nat × Nat :=
  if instr = 0xC7 then (0, size) else (wrap ar.toNat / sector * sector, sector)

/-- The window, offset and length, that an access erases or programs. -/
def window (q : Qspi) : Access → Option (Nat × Nat)
  | .read _ => none
  | .write off val =>
      if q.wel then
        match regAt off with
        | .ccr => if isRead val = false ∧ instruction val = 0xC7 then some (0, size) else none
        | .ar =>
            match q.xfer with
            | .writeAtAddr instr false => some (eraseWindow instr val)
            | _ => none
        | .dr =>
            match q.xfer with
            | .writeData remaining =>
                if remaining ≤ q.wrBuf.length + 1 then some (wrap q.ar.toNat, q.wrBuf.length + 1)
                else none
            | _ => none
        | _ => none
      else none

/-- The access writes a window that starts past the end of the backing file, and does not come
round to the gap. -/
def LeavesGap (q : Qspi) (a : Access) : Prop :=
  ∃ o n f, q.window a = some (o, n) ∧ q.file = some f ∧ f.len < o ∧ n < size

/-- Write a window of the array through, in two segments if it wraps. -/
def writeWindow (q : Qspi) (o n : Nat) : Option Qspi :=
  (q.writeThrough o (min n (size - o))).bind fun q =>
    if min n (size - o) < n then q.writeThrough 0 (n - min n (size - o)) else some q

/-- Array address `i` lies outside the window. -/
def Outside (o n i : Nat) : Prop := ∀ j, j < n → wrap (o + j) ≠ i

/-- The array, the file and the path are as before. -/
structure SameStore (q q' : Qspi) : Prop where
  mem : q'.mem = q.mem
  file : q'.file = q.file
  path : q'.path = q.path

theorem writeWindow_of_fit {o n : Nat} (h : o + n ≤ size) :
    q.writeWindow o n = q.writeThrough o n := by
  have hmin : min n (size - o) = n := by omega
  simp only [writeWindow, hmin, if_neg (Nat.lt_irrefl n)]
  exact Option.bind_fun_some (q.writeThrough o n)

/-! ## What an access does -/

theorem doErase_window (hw : q.wel = true) (instr : Byte) :
    ∃ q₀ : Qspi, q₀.file = q.file ∧ q₀.path = q.path ∧
      (∀ i, Outside (eraseWindow instr q.ar).1 (eraseWindow instr q.ar).2 i →
        q₀.mem.get i = q.mem.get i) ∧
      q.doErase instr = (q₀.writeWindow (eraseWindow instr q.ar).1 (eraseWindow instr q.ar).2).map
        fun q => { q with tcf := true } := by
  -- an erased window does not wrap
  have hfit : (eraseWindow instr q.ar).1 + (eraseWindow instr q.ar).2 ≤ size := by
    rw [eraseWindow]
    split
    · exact Nat.le_of_eq (Nat.zero_add size)
    · exact sector_window q.ar.toNat
  generalize hwin : eraseWindow instr q.ar = win at hfit
  refine ⟨{ q with wel := false, mem := q.mem.splice win.1 win.2 fun _ => erasedByte }, rfl, rfl,
    fun i hi => ?_, ?_⟩
  · show (q.mem.splice win.1 win.2 fun _ => erasedByte).get i = q.mem.get i
    rw [Bytes.get_splice_of_not_mem]
    by_contra hin
    refine hi (i - win.1) (by omega) ?_
    rw [wrap_eq_mod, Nat.mod_eq_of_lt (by omega)]
    omega
  · rw [writeWindow_of_fit hfit, doErase, if_pos hw, ← hwin, eraseWindow]

/-- Programming changes the addresses of its window only. -/
theorem get_programLoop {data : List Byte} {base i : Nat} (h : Outside base data.length i)
    (m : Bytes size) : (programLoop data base m).get i = m.get i := by
  induction data generalizing base m with
  | nil => rfl
  | cons b data ih =>
      have hrest : Outside (base + 1) data.length i := by
        intro j hj
        have hj' := h (j + 1) (by rw [List.length_cons]; omega)
        rwa [Nat.add_comm j 1, ← Nat.add_assoc] at hj'
      have hfirst : wrap base ≠ i := h 0 (by rw [List.length_cons]; omega)
      rw [programLoop, ih hrest]
      exact Bytes.get_splice_of_not_mem m _ (by omega)

theorem doProgram_window (hw : q.wel = true) :
    ∃ q₀ : Qspi, q₀.file = q.file ∧ q₀.path = q.path ∧
      (∀ i, Outside (wrap q.ar.toNat) q.wrBuf.length i → q₀.mem.get i = q.mem.get i) ∧
      q.doProgram = (q₀.writeWindow (wrap q.ar.toNat) q.wrBuf.length).map
        fun q => { q with tcf := true } := by
  refine ⟨{ q with
    wrBuf := [], wel := false, mem := programLoop q.wrBuf (wrap q.ar.toNat) q.mem }, rfl, rfl,
    fun i hi => get_programLoop hi q.mem, ?_⟩
  rw [doProgram, if_pos hw]
  rfl

/-- Without the latch an erase is ignored. -/
theorem doErase_same (hw : q.wel = false) {instr : Byte} (h : q.doErase instr = some q') :
    SameStore q q' := by
  rw [doErase_of_not_wel q hw] at h
  obtain rfl := Option.some.inj h
  exact ⟨rfl, rfl, rfl⟩

theorem writeCcr_same {val : Word}
    (hno : q.wel = true → ¬ (isRead val = false ∧ instruction val = 0xC7))
    (h : q.writeCcr val = some q') : SameStore q q' := by
  rw [writeCcr] at h
  split at h
  · obtain rfl := Option.some.inj h
    split
    · exact ⟨rfl, rfl, rfl⟩
    · exact ⟨rfl, rfl, rfl⟩
  · next hread =>
      rw [Bool.not_eq_true] at hread
      dsimp only at h
      split at h
      · obtain rfl := Option.some.inj h
        exact ⟨rfl, rfl, rfl⟩
      · split at h
        · obtain rfl := Option.some.inj h
          exact ⟨rfl, rfl, rfl⟩
        · split at h
          · next hbulk =>
              have hw : q.wel = false := by
                rw [← Bool.not_eq_true]
                exact fun hw => hno hw ⟨hread, hbulk⟩
              obtain ⟨hm, hf, hp⟩ := doErase_same (q := { q with
                modeRead := false, wrBuf := [], xfer := .idle }) hw h
              exact ⟨hm, hf, hp⟩
          · split at h
            · obtain rfl := Option.some.inj h
              exact ⟨rfl, rfl, rfl⟩
            · obtain rfl := Option.some.inj h
              exact ⟨rfl, rfl, rfl⟩

theorem writeAr_same {val : Word}
    (hno : q.wel = true → ∀ instr, q.xfer ≠ .writeAtAddr instr false)
    (h : q.writeAr val = some q') : SameStore q q' := by
  rw [writeAr] at h
  dsimp only at h
  split at h
  · obtain rfl := Option.some.inj h
    exact ⟨rfl, rfl, rfl⟩
  · next instr data hx =>
      split at h
      · obtain rfl := Option.some.inj h
        exact ⟨rfl, rfl, rfl⟩
      · next hdata =>
          rw [Bool.not_eq_true] at hdata
          have hw : q.wel = false := by
            rw [← Bool.not_eq_true]
            exact fun hw => hno hw instr (hdata ▸ hx)
          obtain ⟨hm, hf, hp⟩ := doErase_same (q := { q with ar := val, xfer := .idle }) hw h
          exact ⟨hm, hf, hp⟩
  · obtain rfl := Option.some.inj h
    exact ⟨rfl, rfl, rfl⟩
  · obtain rfl := Option.some.inj h
    exact ⟨rfl, rfl, rfl⟩

theorem writeDr_same {val : Word}
    (hno : q.wel = true → ∀ remaining, q.xfer = .writeData remaining →
      ¬ remaining ≤ q.wrBuf.length + 1)
    (h : q.writeDr val = some q') : SameStore q q' := by
  rw [writeDr] at h
  split at h
  · next remaining hx =>
      dsimp only at h
      split at h
      · next hlast =>
          rw [List.length_append, List.length_singleton] at hlast
          have hw : q.wel = false := by
            rw [← Bool.not_eq_true]
            exact fun hw => hno hw remaining hx hlast
          rw [doProgram_of_not_wel _ (show Qspi.wel { q with
            wrBuf := q.wrBuf ++ [val.setWidth 8], xfer := .idle } = false from hw)] at h
          obtain rfl := Option.some.inj h
          exact ⟨rfl, rfl, rfl⟩
      · obtain rfl := Option.some.inj h
        exact ⟨rfl, rfl, rfl⟩
  · obtain rfl := Option.some.inj h
    exact ⟨rfl, rfl, rfl⟩
  · obtain rfl := Option.some.inj h
    exact ⟨rfl, rfl, rfl⟩
  · obtain rfl := Option.some.inj h
    exact ⟨rfl, rfl, rfl⟩

/-- An access without a window leaves the array and the file alone. -/
theorem step_of_no_window {a : Access} (hwin : q.window a = none) (h : q.step a = some q') :
    SameStore q q' := by
  cases a with
  | read off =>
      obtain rfl := Option.some.inj h
      rw [read]
      split
      · exact ⟨rfl, rfl, rfl⟩
      · exact ⟨rfl, rfl, rfl⟩
      · dsimp only
        split
        · exact ⟨rfl, rfl, rfl⟩
        · exact ⟨rfl, rfl, rfl⟩
      · exact ⟨rfl, rfl, rfl⟩
      · exact ⟨rfl, rfl, rfl⟩
      · rw [readDr]
        split
        · exact ⟨rfl, rfl, rfl⟩
        · exact ⟨rfl, rfl, rfl⟩
      · exact ⟨rfl, rfl, rfl⟩
      · exact ⟨rfl, rfl, rfl⟩
      · exact ⟨rfl, rfl, rfl⟩
  | write off val =>
      have hwrite : q.write off val = some q' := h
      rw [window] at hwin
      rw [write] at hwrite
      split at hwrite
      · obtain rfl := Option.some.inj hwrite
        exact ⟨rfl, rfl, rfl⟩
      · obtain rfl := Option.some.inj hwrite
        exact ⟨rfl, rfl, rfl⟩
      · obtain rfl := Option.some.inj hwrite
        split
        · exact ⟨rfl, rfl, rfl⟩
        · exact ⟨rfl, rfl, rfl⟩
      · obtain rfl := Option.some.inj hwrite
        exact ⟨rfl, rfl, rfl⟩
      · next hreg =>
          refine writeCcr_same (fun hw hbulk => ?_) hwrite
          rw [if_pos hw, hreg] at hwin
          exact absurd (hwin.symm.trans (if_pos hbulk)) nofun
      · next hreg =>
          refine writeAr_same (fun hw instr hx => ?_) hwrite
          rw [if_pos hw, hreg, hx] at hwin
          cases hwin
      · next hreg =>
          refine writeDr_same (fun hw remaining hx hlast => ?_) hwrite
          rw [if_pos hw, hreg, hx] at hwin
          exact absurd (hwin.symm.trans (if_pos hlast)) nofun
      · obtain rfl := Option.some.inj hwrite
        exact ⟨rfl, rfl, rfl⟩
      · obtain rfl := Option.some.inj hwrite
        exact ⟨rfl, rfl, rfl⟩

/-- The bulk erase is executed at the CCR write. -/
theorem writeCcr_bulk {val : Word} (hread : isRead val = false) (hbulk : instruction val = 0xC7) :
    q.writeCcr val =
      Qspi.doErase { q with modeRead := false, wrBuf := [], xfer := .idle } 0xC7 := by
  rw [writeCcr, if_neg (by rw [hread]; decide), hbulk]
  rfl

theorem writeAr_eraseAt {val : Word} {instr : Byte} (hx : q.xfer = .writeAtAddr instr false) :
    q.writeAr val = Qspi.doErase { q with ar := val, xfer := .idle } instr := by
  rw [writeAr]
  simp only [hx, Bool.false_eq_true, if_false]

theorem writeDr_last {val : Word} {remaining : Nat} (hx : q.xfer = .writeData remaining)
    (hlast : remaining ≤ q.wrBuf.length + 1) :
    q.writeDr val =
      Qspi.doProgram { q with wrBuf := q.wrBuf ++ [val.setWidth 8], xfer := .idle } := by
  rw [writeDr]
  simp only [hx, List.length_append, List.length_singleton, if_pos hlast]

theorem eraseWindow_spec (instr : Byte) (ar : Word) :
    (eraseWindow instr ar).1 < size ∧ 0 < (eraseWindow instr ar).2 := by
  have hfit := sector_window ar.toNat
  have hs : 0 < sector := by decide
  rw [eraseWindow]
  split
  · exact ⟨by decide, by decide⟩
  · exact ⟨by omega, hs⟩

/-- An access with a window writes it through and changes nothing outside it. -/
theorem step_of_window {a : Access} {o n : Nat} (hwin : q.window a = some (o, n)) :
    o < size ∧ 0 < n ∧ ∃ q₀ : Qspi, q₀.file = q.file ∧ q₀.path = q.path ∧
      (∀ i, Outside o n i → q₀.mem.get i = q.mem.get i) ∧
      q.step a = (q₀.writeWindow o n).map fun q => { q with tcf := true } := by
  cases a with
  | read off => cases hwin
  | write off val =>
      rw [window] at hwin
      split at hwin
      · next hw =>
          split at hwin
          · next hreg =>
              -- the bulk erase
              split at hwin
              · next hbulk =>
                  obtain ⟨rfl, rfl⟩ := Prod.mk.inj (Option.some.inj hwin)
                  refine ⟨by decide, by decide, ?_⟩
                  obtain ⟨q₀, hf, hp, hm, hdo⟩ := doErase_window (q := { q with
                    modeRead := false, wrBuf := [], xfer := .idle }) hw 0xC7
                  refine ⟨q₀, hf, hp, hm, ?_⟩
                  rw [step, write, hreg]
                  exact (writeCcr_bulk hbulk.1 hbulk.2).trans hdo
              · cases hwin
          · next hreg =>
              -- a sector erase, at its address
              split at hwin
              · next instr hx =>
                  have hspec := eraseWindow_spec instr val
                  rw [Option.some.inj hwin] at hspec
                  refine ⟨hspec.1, hspec.2, ?_⟩
                  obtain ⟨q₀, hf, hp, hm, hdo⟩ := doErase_window (q := { q with
                    ar := val, xfer := .idle }) hw instr
                  rw [show eraseWindow instr _ = (o, n) from Option.some.inj hwin] at hm hdo
                  refine ⟨q₀, hf, hp, hm, ?_⟩
                  rw [step, write, hreg]
                  exact (writeAr_eraseAt hx).trans hdo
              · cases hwin
          · next hreg =>
              -- a page program, at its last byte
              split at hwin
              · next remaining hx =>
                  split at hwin
                  · next hlast =>
                      obtain ⟨rfl, rfl⟩ := Prod.mk.inj (Option.some.inj hwin)
                      refine ⟨wrap_lt _, Nat.succ_pos _, ?_⟩
                      obtain ⟨q₀, hf, hp, hm, hdo⟩ := doProgram_window (q := { q with
                        wrBuf := q.wrBuf ++ [val.setWidth 8], xfer := .idle }) hw
                      simp only [List.length_append, List.length_singleton] at hm hdo
                      refine ⟨q₀, hf, hp, hm, ?_⟩
                      rw [step, write, hreg]
                      exact (writeDr_last hx hlast).trans hdo
                  · cases hwin
              · cases hwin
          · cases hwin
      · cases hwin

/-! ## Writing a window through -/

/-- The array and its backing file are in step: the file is open and holds the array, or it does
not exist and the array is erased. -/
inductive InStep (q : Qspi) : Prop where
  | opened (f : HostFile) (hfile : q.file = some f) (hr : f.Reliable)
      (hm : f.Mirrors erasedByte q.mem)
  | absent (p : HostPath) (hfile : q.file = none) (hpath : q.path = some p)
      (hp : p.present = false) (hr : p.file.Reliable) (hm : q.mem = Bytes.const size erasedByte)

theorem withBacking_mem {f : HostFile} (hr : f.Reliable) :
    (withBacking (some ⟨true, f⟩)).mem = f.load size erasedByte := by
  obtain ⟨h₁, hr₁⟩ := hr.attempt
  obtain ⟨h₂, -⟩ := hr₁.attempt
  simp only [withBacking, if_true, h₁, h₂]
  rfl

theorem InStep.reconstructs (h : q.InStep) : q.Reconstructs := by
  cases h with
  | opened f hfile hr hm =>
      rw [Reconstructs, backing, hfile]
      exact (withBacking_mem hr).trans hm
  | absent p hfile hpath hp hr hm =>
      rw [Reconstructs, backing, hfile, hpath, hm]
      simp only [withBacking, hp, Bool.false_eq_true, if_false]

theorem writeThrough_opened {f : HostFile} {o k : Nat} (hfile : q.file = some f)
    (hr : f.Reliable) (hk : 0 < k) (h : q.writeThrough o k = some q') :
    o + k ≤ size ∧ ∃ f', q' = { q with file := some f' } ∧ f'.Reliable ∧
      f'.len = max f.len (o + k) ∧ ∀ i, i < size → (f'.load size erasedByte).get i =
        if o ≤ i ∧ i < o + k then q.mem.get i
        else if f.len ≤ i ∧ i < o then 0 else (f.load size erasedByte).get i := by
  obtain ⟨hok, hr₁⟩ := hr.attempt
  obtain ⟨f', hf', hr', hlen, -⟩ := HostFile.writeAll_spec (o := o) hr₁ hk q.mem.get
  have hens : q.ensureFile = q := by
    rw [ensureFile, hfile]
  rw [writeThrough, if_neg (by omega), hens] at h
  simp only [hfile, hok, if_true, hf'] at h
  split at h
  · next hin =>
      refine ⟨hin, f', (Option.some.inj h).symm, hr', hlen, fun i hi => ?_⟩
      exact HostFile.get_load_writeAll hk hf' hi
  · cases h

/-- The first write creates the file and seeds it with the array. -/
theorem writeThrough_absent {p : HostPath} {o k : Nat} (hfile : q.file = none)
    (hpath : q.path = some p) (hr : p.file.Reliable) (hk : 0 < k) :
    ∃ f, f.Reliable ∧ f.len = size ∧ f.Mirrors erasedByte q.mem ∧
      q.writeThrough o k = Qspi.writeThrough { q with file := some f } o k := by
  obtain ⟨h₁, hr₁⟩ := hr.attempt
  obtain ⟨h₂, hr₂⟩ := hr₁.attempt
  obtain ⟨f₀, hf₀⟩ := HostFile.isSome_writeAll hr₂ 0 size q.mem.get
  obtain ⟨hm₀, hlen₀⟩ : f₀.Mirrors erasedByte q.mem ∧ size ≤ f₀.len :=
    HostFile.mirrors_writeAll_whole (by decide) hf₀
  obtain ⟨h₃, hr₃⟩ := (HostFile.reliable_writeAll hr₂ hf₀).attempt
  have hens : q.ensureFile = { q with file := some { f₀.attempt.2 with len := size } } := by
    simp only [ensureFile, hfile, hpath, h₁, h₂, Bool.and_self, if_true, hf₀, h₃]
  refine ⟨{ f₀.attempt.2 with len := size }, hr₃, rfl,
    HostFile.mirrors_setLen (HostFile.mirrors_attempt.mpr hm₀) hlen₀, ?_⟩
  rw [writeThrough, writeThrough, if_neg (by omega), if_neg (by omega), hens]
  rfl

/-- An address outside a window, told from its two segments. -/
theorem outside_of_segments {o n i : Nat} (ho : o < size) (hfit : n - min n (size - o) ≤ size)
    (hi : i < size) (h₁ : ¬ (o ≤ i ∧ i < o + min n (size - o)))
    (h₂ : ¬ i < n - min n (size - o)) : Outside o n i := by
  intro j hj heq
  rw [wrap_eq_mod] at heq
  by_cases hlt : o + j < size
  · rw [Nat.mod_eq_of_lt hlt] at heq
    omega
  · rw [Nat.mod_eq_sub_mod (by omega), Nat.mod_eq_of_lt (by omega)] at heq
    omega

/-- Both segments: the window holds the array, and a gap before it zeros, except where the second
segment came round to it. -/
theorem writeWindow_opened {f : HostFile} {o n : Nat} (hfile : q.file = some f)
    (hr : f.Reliable) (ho : o < size) (hn : 0 < n) (h : q.writeWindow o n = some q') :
    n - min n (size - o) ≤ size ∧ ∃ f', q' = { q with file := some f' } ∧ f'.Reliable ∧
      ∀ i, i < size → (f'.load size erasedByte).get i =
        if (o ≤ i ∧ i < o + min n (size - o)) ∨ i < n - min n (size - o) then q.mem.get i
        else if f.len ≤ i ∧ i < o then 0 else (f.load size erasedByte).get i := by
  rw [writeWindow] at h
  obtain ⟨q₁, hq₁, h⟩ := Option.bind_eq_some_iff.mp h
  obtain ⟨-, f₁, rfl, hr₁, hlen₁, hget₁⟩ := writeThrough_opened hfile hr (by omega) hq₁
  split at h
  · next hlt =>
      obtain ⟨hin, f₂, rfl, hr₂, -, hget₂⟩ := writeThrough_opened rfl hr₁ (by omega) h
      refine ⟨by omega, f₂, rfl, hr₂, fun i hi => ?_⟩
      have hnone : ¬ (f₁.len ≤ i ∧ i < 0) := fun h => Nat.not_lt_zero i h.2
      rw [hget₂ i hi, if_neg hnone, hget₁ i hi, Nat.zero_add]
      by_cases hsecond : i < n - min n (size - o)
      · rw [if_pos ⟨Nat.zero_le i, hsecond⟩, if_pos (Or.inr hsecond)]
      · rw [if_neg (show ¬ (0 ≤ i ∧ i < n - min n (size - o)) from fun h => hsecond h.2)]
        by_cases hfirst : o ≤ i ∧ i < o + min n (size - o)
        · rw [if_pos hfirst, if_pos (Or.inl hfirst)]
        · rw [if_neg hfirst, if_neg (not_or.mpr ⟨hfirst, hsecond⟩)]
  · next hlt =>
      obtain rfl := Option.some.inj h
      refine ⟨by omega, f₁, rfl, hr₁, fun i hi => ?_⟩
      rw [hget₁ i hi]
      by_cases hfirst : o ≤ i ∧ i < o + min n (size - o)
      · rw [if_pos hfirst, if_pos (Or.inl hfirst)]
      · have hnone : ¬ i < n - min n (size - o) := by omega
        rw [if_neg hfirst, if_neg (not_or.mpr ⟨hfirst, hnone⟩)]

/-- A window written through brings the file in step again, unless it leaves a gap. -/
theorem writeWindow_inStep {f : HostFile} {o n : Nat} {m : Bytes size} (hfile : q.file = some f)
    (hr : f.Reliable) (ho : o < size) (hn : 0 < n) (hm : f.Mirrors erasedByte m)
    (hout : ∀ i, Outside o n i → q.mem.get i = m.get i) (h : q.writeWindow o n = some q') :
    (¬ (f.len < o ∧ n < size) → q'.InStep) ∧ ((f.len < o ∧ n < size) → ¬ q'.Reconstructs) := by
  obtain ⟨hfit, f', rfl, hr', hget⟩ := writeWindow_opened hfile hr ho hn h
  have hload : ∀ i, (f.load size erasedByte).get i = m.get i := fun i => by rw [hm]
  refine ⟨fun hno => ?_, fun hgap hrec => ?_⟩
  · refine InStep.opened f' rfl hr' (Bytes.ext_get fun i => ?_)
    by_cases hi : i < size
    · rw [hget i hi, hload]
      by_cases hin : (o ≤ i ∧ i < o + min n (size - o)) ∨ i < n - min n (size - o)
      · rw [if_pos hin]
      · rw [not_or] at hin
        rw [if_neg (not_or.mpr hin), if_neg (by omega)]
        exact (hout i (outside_of_segments ho hfit hi hin.1 hin.2)).symm
    · rw [Bytes.get, Bytes.get, dif_neg hi, dif_neg hi]
  · -- the first byte of the gap that the second segment does not reach is zero in the file only
    let i := max f.len (n - min n (size - o))
    have hi : i < size := by omega
    have hzero : (f'.load size erasedByte).get i = 0 := by
      rw [hget i hi, if_neg (by omega), if_pos (by omega)]
    have hlive : q.mem.get i = erasedByte := by
      rw [hout i (outside_of_segments ho hfit hi (by omega) (by omega)), ← hm,
        HostFile.get_load _ _ hi, if_neg (by omega)]
    have hsame : f'.load size erasedByte = q.mem := (withBacking_mem hr').symm.trans hrec
    rw [hsame, hlive] at hzero
    exact absurd hzero (by decide)

/-- The first segment of the first window creates the file; the rest finds it open. -/
theorem writeWindow_absent {p : HostPath} {o n : Nat} (hfile : q.file = none)
    (hpath : q.path = some p) (hr : p.file.Reliable) (ho : o < size) (hn : 0 < n) :
    ∃ f, f.Reliable ∧ f.len = size ∧ f.Mirrors erasedByte q.mem ∧
      q.writeWindow o n = Qspi.writeWindow { q with file := some f } o n := by
  obtain ⟨f, hr', hlen, hm, heq⟩ :=
    writeThrough_absent (o := o) hfile hpath hr (show 0 < min n (size - o) by omega)
  exact ⟨f, hr', hlen, hm, by rw [writeWindow, writeWindow, heq]⟩

/-! ## Whole runs -/

theorem InStep.sameStore (h : q.InStep) (hs : SameStore q q') : q'.InStep := by
  cases h with
  | opened f hfile hr hm => exact .opened f (hs.file.trans hfile) hr (hs.mem ▸ hm)
  | absent p hfile hpath hp hr hm =>
      exact .absent p (hs.file.trans hfile) (hs.path.trans hpath) hp hr (hs.mem.trans hm)

theorem reconstructs_sameStore (hs : SameStore q q') : q'.Reconstructs ↔ q.Reconstructs := by
  rw [Reconstructs, Reconstructs, backing, backing, hs.file, hs.path, hs.mem]

/-- An access keeps the array and the file in step, unless it leaves a gap. -/
theorem step_inStep {a : Access} (hs : q.InStep) (h : q.step a = some q') :
    (¬ q.LeavesGap a → q'.InStep) ∧ (q.LeavesGap a → ¬ q'.Reconstructs) := by
  cases hwin : q.window a with
  | none =>
      refine ⟨fun _ => hs.sameStore (step_of_no_window hwin h), ?_⟩
      rintro ⟨o, n, f, hsome, -⟩
      rw [hwin] at hsome
      cases hsome
  | some win =>
      obtain ⟨o, n⟩ := win
      obtain ⟨ho, hn, q₀, hfile₀, hpath₀, hout, hstep⟩ := step_of_window hwin
      rw [hstep] at h
      obtain ⟨q₁, hq₁, rfl⟩ := Option.map_eq_some_iff.mp h
      -- the flag that ends the command is no part of the store
      have hflag : SameStore q₁ { q₁ with tcf := true } := ⟨rfl, rfl, rfl⟩
      cases hs with
      | opened f hfile hr hm =>
          obtain ⟨hkeep, hlose⟩ :=
            writeWindow_inStep (hfile₀.trans hfile) hr ho hn hm hout hq₁
          refine ⟨fun hno => (hkeep fun hgap => ?_).sameStore hflag, ?_⟩
          · exact hno ⟨o, n, f, hwin, hfile, hgap⟩
          · rintro ⟨o', n', f', hsome, hfile', hgap⟩
            obtain ⟨rfl, rfl⟩ := Prod.mk.inj (Option.some.inj (hwin.symm.trans hsome))
            obtain rfl := Option.some.inj (hfile.symm.trans hfile')
            exact fun hrec => hlose hgap ((reconstructs_sameStore hflag).mp hrec)
      | absent p hfile hpath hp hr hm =>
          -- the first write seeds a file of full length: there is no gap to leave
          obtain ⟨f, hr', hlen, hmir, heq⟩ := writeWindow_absent (n := n)
            (hfile₀.trans hfile) (hpath₀.trans hpath) hr ho hn
          rw [heq] at hq₁
          obtain ⟨hkeep, -⟩ := writeWindow_inStep (q := { q₀ with file := some f }) rfl hr' ho hn
            hmir (fun i _ => rfl) hq₁
          refine ⟨fun _ => (hkeep fun hgap => ?_).sameStore hflag, ?_⟩
          · omega
          · rintro ⟨o', n', f', -, hfile', -⟩
            rw [hfile] at hfile'
            cases hfile'

/-- An access that leaves a gap returns: its window is shorter than the array. -/
theorem isSome_of_leavesGap {a : Access} (h : q.LeavesGap a) : ∃ q', q.step a = some q' := by
  obtain ⟨o, n, f, hwin, -, -, hn⟩ := h
  obtain ⟨ho, -, q₀, -, -, -, hstep⟩ := step_of_window hwin
  obtain ⟨q₁, hq₁⟩ := Option.isSome_iff_exists.mp
    (isSome_writeThrough q₀ (show o + min n (size - o) ≤ size by omega))
  rw [hstep, writeWindow, hq₁, Option.bind_some]
  split
  · obtain ⟨q₂, hq₂⟩ := Option.isSome_iff_exists.mp
      (isSome_writeThrough q₁ (show 0 + (n - min n (size - o)) ≤ size by omega))
    exact ⟨_, by rw [hq₂]; rfl⟩
  · exact ⟨_, rfl⟩

/-- The access ends in a state that the backing file reconstructs. -/
def Survives (q : Qspi) (a : Access) : Prop := ∀ q', q.step a = some q' → q'.Reconstructs

theorem inStep_withBacking (p : HostPath) (hr : p.file.Reliable) :
    (withBacking (some p)).InStep := by
  by_cases hp : p.present
  · obtain ⟨h₁, hr₁⟩ := hr.attempt
    obtain ⟨h₂, hr₂⟩ := hr₁.attempt
    refine InStep.opened p.file.attempt.2.attempt.2 ?_ hr₂ ?_
    · simp only [withBacking, hp, if_true, h₁, h₂]
    · simp only [withBacking, hp, if_true, h₁, h₂]
      rfl
  · rw [Bool.not_eq_true] at hp
    have heq : withBacking (some p) = { withBacking none with path := some p } := by
      simp only [withBacking, hp, Bool.false_eq_true, if_false]
    rw [heq]
    exact InStep.absent p rfl rfl hp hr rfl

/-- From power-on with a backing file of any length, or none yet, that accepts every operation: the
file reconstructs every state that the accesses reach if and only if no access along them leaves a
gap in it. -/
theorem qspi_restart_iff (p : HostPath) (hr : p.file.Reliable) (accs : List Access) :
    (withBacking (some p)).Reconstructs ∧
      (Runs.Along step Survives accs (withBacking (some p)) ↔
        Runs.Along step (fun q a => ¬ q.LeavesGap a) accs (withBacking (some p))) := by
  have hstart := inStep_withBacking p hr
  refine ⟨hstart.reconstructs, ?_⟩
  refine Runs.along_iff (I := InStep) ?_ ?_ accs _ hstart
  · intro q a q' hs hsurv hstep
    obtain ⟨hkeep, hlose⟩ := step_inStep hs hstep
    exact hkeep fun hgap => hlose hgap (hsurv q' hstep)
  · intro q a hs
    constructor
    · intro hsurv hgap
      obtain ⟨q', hstep⟩ := isSome_of_leavesGap hgap
      exact (step_inStep hs hstep).2 hgap (hsurv q' hstep)
    · intro hno q' hstep
      exact ((step_inStep hs hstep).1 hno).reconstructs

/-- A backing file that was cut to nothing. -/
def cutFile : HostPath := ⟨true, ⟨0, fun _ => 0, fun _ => true⟩⟩

/-- Write enable, and a one-byte program at address 100. -/
def programRun : List Access :=
  [.write 0x14 0x06, .write 0x14 0x01000412, .write 0x18 100, .write 0x20 0]

theorem qspi_restart_iff_cutFile :
    (withBacking (some cutFile)).Reconstructs ∧
      (Runs.Along step Survives programRun (withBacking (some cutFile)) ↔
        Runs.Along step (fun q a => ¬ q.LeavesGap a) programRun (withBacking (some cutFile))) :=
  qspi_restart_iff cutFile (fun _ => rfl) programRun

/-- Bytes 0 to 99 of the file become zeros, which the array holds as erased bytes. -/
theorem program_past_end_not_reconstructs :
    ¬ ∀ (p : HostPath) (accs : List Access) (q : Qspi), p.file.Reliable →
      Runs.run step accs (withBacking (some p)) = some q → q.Reconstructs := by
  intro h
  let q₁ : Qspi := { withBacking (some cutFile) with wel := true, tcf := true }
  let q₂ : Qspi := { q₁ with xfer := .writeAtAddr 0x12 true, tcf := false }
  let q₃ : Qspi := { q₂ with ar := 100, xfer := .writeData 1 }
  have h₁ : (withBacking (some cutFile)).step (.write 0x14 0x06) = some q₁ := rfl
  have h₂ : q₁.step (.write 0x14 0x01000412) = some q₂ := rfl
  have h₃ : q₂.step (.write 0x18 100) = some q₃ := rfl
  have hs : q₃.InStep := .opened _ rfl (fun _ => rfl) rfl
  have hwin : q₃.window (.write 0x20 0) = some (100, 1) := by decide +kernel
  have hgap : q₃.LeavesGap (.write 0x20 0) := ⟨100, 1, _, hwin, rfl, by decide, by decide⟩
  obtain ⟨q₄, h₄⟩ := isSome_of_leavesGap hgap
  refine (step_inStep hs h₄).2 hgap (h cutFile programRun q₄ (fun _ => rfl) ?_)
  rw [programRun, Runs.run_cons, h₁, Option.bind_some, Runs.run_cons, h₂, Option.bind_some,
    Runs.run_cons, h₃, Option.bind_some, Runs.run_cons, h₄]
  rfl

end Qspi

end SpEmu
