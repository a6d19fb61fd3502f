import SpEmu.Lib.Bytes

/-!
# An array and its backing file

`load` reads a file into an array that is filled beforehand, so that a short file leaves the
fill byte at its end; `Mirrors` says that an array is what loading its file gives.

An array and its file stay in step under a write-through of the changed bytes, provided that it
does not start past the end of the file: the host fills the gap with zeros
(`mirrors_writeAll`, `not_mirrors_of_gap`). A host operation that fails is outside these laws;
`Reliable` says that none does.
-/

set_option autoImplicit false

namespace ByteMem

variable {n : Nat}

/-- What a path of the host names: whether a file is there, and the file, empty before it is
created. -/
structure HostPath where
  present : Bool
  file : HostFile

namespace HostFile

/-- No host operation on the file fails. -/
def Reliable (f : HostFile) : Prop := ∀ i, f.succeeds i = true

/-- The first `n` bytes of the file, with `fill` past its end. -/
def load (f : HostFile) (n : Nat) (fill : Byte) : Bytes n :=
  fun i => if i.val < f.len then f.byte i.val else fill

/-- The array is what loading the file gives. -/
def Mirrors (f : HostFile) (fill : Byte) (m : Bytes n) : Prop := f.load n fill = m

variable {f f' : HostFile} {fill : Byte} {m m' : Bytes n} {o k : Nat}

theorem Reliable.attempt (h : f.Reliable) : f.attempt.1 = true ∧ f.attempt.2.Reliable :=
  ⟨h 0, fun i => h (i + 1)⟩

theorem get_load (f : HostFile) (fill : Byte) {i : Nat} (hi : i < n) :
    (f.load n fill).get i = if i < f.len then f.byte i else fill := by
  rw [Bytes.get, dif_pos hi]
  rfl

/-- The oracle of a file has no part in its content. -/
theorem mirrors_attempt : f.attempt.2.Mirrors fill m ↔ f.Mirrors fill m := Iff.rfl

/-- The length and the bytes after a write that writes something. -/
theorem writeAll_spec (h : f.Reliable) (hk : 0 < k) (src : Nat → Byte) :
    ∃ f', f.writeAll o k src = some f' ∧ f'.Reliable ∧ f'.len = max f.len (o + k) ∧
      ∀ i, f'.byte i =
        if o ≤ i ∧ i < o + k then src i else if i < f.len then f.byte i else 0 := by
  obtain ⟨hok, hrel⟩ := h.attempt
  refine ⟨{ f.attempt.2 with
    len := max f.len (o + k)
    byte := fun i => if o ≤ i ∧ i < o + k then src i else if i < f.len then f.byte i else 0 },
    ?_, hrel, rfl, fun i => rfl⟩
  rw [writeAll, if_neg (by omega), if_pos hok]

theorem writeAll_zero (f : HostFile) (o : Nat) (src : Nat → Byte) :
    f.writeAll o 0 src = some f := if_pos rfl

theorem reliable_writeAll (h : f.Reliable) {src : Nat → Byte}
    (hw : f.writeAll o k src = some f') : f'.Reliable := by
  rcases Nat.eq_zero_or_pos k with rfl | hk
  · rw [writeAll_zero] at hw
    cases hw
    exact h
  · obtain ⟨f₁, hf₁, hrel, -⟩ := writeAll_spec h hk src
    obtain rfl := Option.some.inj (hf₁.symm.trans hw)
    exact hrel

/-- The same, told from a write that the host did. -/
theorem content_writeAll (hk : 0 < k) {src : Nat → Byte} (hw : f.writeAll o k src = some f') :
    f'.len = max f.len (o + k) ∧
      ∀ i, f'.byte i =
        if o ≤ i ∧ i < o + k then src i else if i < f.len then f.byte i else 0 := by
  rw [writeAll, if_neg (by omega)] at hw
  split at hw
  · obtain rfl := Option.some.inj hw
    exact ⟨rfl, fun i => rfl⟩
  · cases hw

/-- A write within the file leaves its length. -/
theorem len_writeAll (hin : o + k ≤ f.len) {src : Nat → Byte}
    (hw : f.writeAll o k src = some f') : f'.len = f.len := by
  rcases Nat.eq_zero_or_pos k with rfl | hk
  · rw [writeAll_zero] at hw
    cases hw
    rfl
  · rw [(content_writeAll hk hw).1, Nat.max_eq_left hin]

theorem isSome_writeAll (h : f.Reliable) (o k : Nat) (src : Nat → Byte) :
    ∃ f', f.writeAll o k src = some f' := by
  rcases Nat.eq_zero_or_pos k with rfl | hk
  · exact ⟨f, writeAll_zero f o src⟩
  · obtain ⟨f', hf', -⟩ := writeAll_spec (o := o) h hk src
    exact ⟨f', hf'⟩

/-- Byte for byte: a write past the end of the file puts zeros in between. -/
theorem get_load_writeAll (hk : 0 < k) {src : Nat → Byte}
    (hw : f.writeAll o k src = some f') {i : Nat} (hi : i < n) :
    (f'.load n fill).get i =
      if o ≤ i ∧ i < o + k then src i
      else if f.len ≤ i ∧ i < o then 0 else (f.load n fill).get i := by
  obtain ⟨hlen, hbyte⟩ := content_writeAll hk hw
  rw [get_load _ _ hi, get_load _ _ hi, hlen, hbyte]
  by_cases hin : o ≤ i ∧ i < o + k
  · rw [if_pos (by omega), if_pos hin, if_pos hin]
  · rw [if_neg hin, if_neg hin]
    by_cases hold : i < f.len
    · rw [if_pos (by omega), if_pos hold, if_neg (by omega), if_pos hold]
    · rw [if_neg hold, if_neg hold]
      by_cases hgap : f.len ≤ i ∧ i < o
      · rw [if_pos (by omega), if_pos hgap]
      · rw [if_neg (by omega), if_neg hgap]

/-- Writing the changed bytes through keeps the file in step. -/
theorem mirrors_writeAll (hm : f.Mirrors fill m) (hlen : o ≤ f.len)
    (hsame : ∀ i, i < o ∨ o + k ≤ i → m'.get i = m.get i)
    (hw : f.writeAll o k m'.get = some f') : f'.Mirrors fill m' := by
  have hget : ∀ i, i < n → m.get i = if i < f.len then f.byte i else fill := by
    intro i hi
    rw [← hm, get_load f fill hi]
  funext i
  have hi := i.isLt
  have hm' : m' i = m'.get i.val := by
    rw [Bytes.get, dif_pos hi]
  rw [hm', load]
  rcases Nat.eq_zero_or_pos k with rfl | hk
  · rw [writeAll_zero] at hw
    cases hw
    rw [hsame i.val (by omega), hget i.val hi]
  · obtain ⟨hlen', hbyte⟩ := content_writeAll hk hw
    rw [hlen', hbyte]
    by_cases hin : o ≤ i.val ∧ i.val < o + k
    · rw [if_pos hin, if_pos (by omega)]
    · rw [if_neg hin, hsame i.val (by omega), hget i.val hi]
      by_cases hold : i.val < f.len
      · rw [if_pos (by omega), if_pos hold, if_pos hold]
      · rw [if_neg (by omega), if_neg hold]

/-- A write that starts past the end of the file leaves zeros in between. -/
theorem not_mirrors_of_gap (hm : f.Mirrors fill m) (hgap : f.len < o)
    (hk : 0 < k) (hn : f.len < n) (hfill : fill ≠ 0)
    (hsame : ∀ i, i < o ∨ o + k ≤ i → m'.get i = m.get i)
    (hw : f.writeAll o k m'.get = some f') : ¬ f'.Mirrors fill m' := by
  intro hm'
  obtain ⟨hlen', hbyte⟩ := content_writeAll hk hw
  have hold : m.get f.len = fill := by
    rw [← hm, get_load f fill hn, if_neg (Nat.lt_irrefl _)]
  have hnew : m'.get f.len = 0 := by
    rw [← hm', get_load f' fill hn, hlen', if_pos (by omega), hbyte, if_neg (by omega),
      if_neg (Nat.lt_irrefl _)]
  rw [hsame f.len (Or.inl hgap), hold] at hnew
  exact hfill hnew

/-- Writing the whole array brings any file in step. -/
theorem mirrors_writeAll_whole (hn : 0 < n)
    (hw : f.writeAll 0 n m.get = some f') : f'.Mirrors fill m ∧ n ≤ f'.len := by
  obtain ⟨hlen', hbyte⟩ := content_writeAll hn hw
  refine ⟨?_, by omega⟩
  funext i
  have hi := i.isLt
  rw [load, hlen', if_pos (by omega), hbyte, if_pos (by omega), Bytes.get, dif_pos hi]

/-- Cutting a file that is long enough keeps it in step. -/
theorem mirrors_setLen (hm : f.Mirrors fill m) (hlen : n ≤ f.len) :
    ({ f with len := n } : HostFile).Mirrors fill m := by
  rw [← hm]
  funext i
  have hi := i.isLt
  show (if i.val < n then f.byte i.val else fill) = if i.val < f.len then f.byte i.val else fill
  rw [if_pos hi, if_pos (by omega)]

theorem rewrite_spec (h : f.Reliable) (k : Nat) (src : Nat → Byte) :
    (f.rewrite k src).1 = true ∧ (f.rewrite k src).2.Reliable ∧
      (f.rewrite k src).2.len = k ∧ (f.rewrite k src).2.byte = src := by
  obtain ⟨hok, hrel⟩ := h.attempt
  rw [rewrite, if_pos hok]
  exact ⟨rfl, hrel, rfl, rfl⟩

/-- So does replacing its whole content. -/
theorem mirrors_rewrite (h : f.Reliable) (m : Bytes n) :
    (f.rewrite n m.get).2.Mirrors fill m := by
  obtain ⟨-, -, hlen, hbyte⟩ := rewrite_spec h n m.get
  funext i
  have hi := i.isLt
  rw [load, hlen, hbyte, if_pos hi, Bytes.get, dif_pos hi]

end HostFile

end ByteMem
