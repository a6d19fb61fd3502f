import SpEmu.Config.Leniency
import SpEmu.Config.Readers

/-!
# The version guard

`--load-config` reads flat files. A typed file would lose its sections, so the guard asks
`peekVersion` first and refuses what has a version. A version that is no number of 32 bits is an
error of the probe, which the guard takes for a file without a version, and it never looks for
sections. `versionGuard_iff` says which files it tells apart.
-/

set_option autoImplicit false

namespace SpEmu

namespace Config

variable {lib : TomlLib} {text : List Char} {t : Toml.Table}

/-- A section with something in it. -/
def HoldsSection (t : Toml.Table) : Prop :=
  ∃ (s : Section) (kvs : List (List Char × Toml.Value)),
    t.entries.lookup s.name = some (.table kvs) ∧ kvs ≠ []

/-- Only a text that is no TOML fails the probe, and only flat files are loaded. -/
def Guarded (lib : TomlLib) (text : List Char) (seed : Option (List Char)) : Prop :=
  (∀ e, peekVersion lib text = .error e → lib.parse text = none) ∧
    ∀ r t, loadConfig lib text seed = .ok r → lib.parse text = some t →
      IsFlat t ∧ ¬ HoldsSection t

/-- The version, if there is one, is a number of 32 bits. -/
def Readable (t : Toml.Table) : Prop :=
  ∀ v, t.entries.lookup schemaKey = some v →
    ∃ i : BitVec 64, v = .integer i ∧ 0 ≤ i.toInt ∧ i.toInt < 2 ^ 32

/-- What the flat reader looks a knob up in. -/
def loadedText (lib : TomlLib) (t : Toml.Table) (n : List Char) : Option (List Char) :=
  (t.entries.lookup n).bind (loadString lib)

/-! ## The probe -/

theorem readUInt_eq_some {w : Nat} {v : Toml.Value} {n : BitVec w} : readUInt w v = some n ↔
    ∃ i : BitVec 64, v = .integer i ∧ (0 ≤ i.toInt ∧ i.toInt < 2 ^ w) ∧
      BitVec.ofInt w i.toInt = n := by
  constructor
  · intro h
    cases v with
    | integer i =>
        rw [readUInt] at h
        split at h
        · next hi => exact ⟨i, rfl, hi, Option.some.inj h⟩
        · cases h
    | _ =>
        -- a version of another type
        cases h
  · rintro ⟨i, rfl, hi, rfl⟩
    rw [readUInt, if_pos hi]

theorem readVersion_isOk_iff (t : Toml.Table) :
    (∃ v, readVersion t.entries = .ok v) ↔ Readable t := by
  rw [readVersion, Readable]
  cases ht : t.entries.lookup schemaKey with
  | none =>
      refine iff_of_true ⟨none, rfl⟩ fun v hv => ?_
      cases hv
  | some v =>
      constructor
      · rintro ⟨n, hn⟩ v' hv'
        obtain rfl := Option.some.inj hv'
        cases hv : readUInt 32 v with
        | none =>
            dsimp only at hn
            rw [hv] at hn
            cases hn
        | some m =>
            obtain ⟨i, hi, hrange, -⟩ := readUInt_eq_some.mp hv
            exact ⟨i, hi, hrange⟩
      · intro h
        obtain ⟨i, rfl, hrange⟩ := h v rfl
        have hread : readUInt 32 (.integer i) = some _ := readUInt_eq_some.mpr ⟨i, rfl, hrange, rfl⟩
        exact ⟨_, by dsimp only; rw [hread]⟩

/-- What a version says. -/
def classify : Option (BitVec 32) → SchemaVersion
  | none => .legacyFlat
  | some n => if n ≤ current then .known n else .newer n

theorem peekVersion_eq (hparse : lib.parse text = some t) :
    peekVersion lib text = (readVersion t.entries).map classify := by
  rw [peekVersion, hparse]
  dsimp only
  cases readVersion t.entries with
  | error e => rfl
  | ok v => cases v <;> rfl

/-- Of the TOML texts, the probe fails those whose version it cannot read. -/
theorem peekVersion_error_iff (hparse : lib.parse text = some t) :
    (∃ e, peekVersion lib text = .error e) ↔ ¬ Readable t := by
  rw [← readVersion_isOk_iff, peekVersion_eq hparse]
  cases readVersion t.entries with
  | error e =>
      refine iff_of_true ⟨e, rfl⟩ ?_
      rintro ⟨v, hv⟩
      cases hv
  | ok v =>
      refine iff_of_false ?_ (not_not_intro ⟨v, rfl⟩)
      rintro ⟨e, he⟩
      cases he

/-! ## The guard -/

theorem ofInt_toInt_eq_zero_iff {i : BitVec 64} (hlo : 0 ≤ i.toInt) (hhi : i.toInt < 2 ^ 32) :
    i = 0 ↔ BitVec.ofInt 32 i.toInt = 0 := by
  constructor
  · rintro rfl
    rfl
  · intro h
    have hnat := congrArg BitVec.toNat h
    rw [BitVec.toNat_ofInt] at hnat
    apply BitVec.eq_of_toInt_eq
    show i.toInt = 0
    have hzero : (0 : BitVec 32).toNat = 0 := rfl
    omega

theorem isFlat_iff_of_readVersion {v : Option (BitVec 32)} (h : readVersion t.entries = .ok v) :
    IsFlat t ↔ v = none ∨ v = some 0 := by
  rw [readVersion] at h
  rw [IsFlat]
  cases ht : t.entries.lookup schemaKey with
  | none =>
      rw [ht] at h
      cases h
      exact iff_of_true (.inl rfl) (.inl rfl)
  | some w =>
      rw [ht] at h
      dsimp only at h
      cases hw : readUInt 32 w with
      | none =>
          rw [hw] at h
          cases h
      | some n =>
          rw [hw] at h
          cases h
          obtain ⟨i, rfl, ⟨hlo, hhi⟩, rfl⟩ := readUInt_eq_some.mp hw
          rw [or_iff_right (Option.some_ne_none _), or_iff_right (Option.some_ne_none _),
            Option.some_inj, Option.some_inj, Toml.Value.integer.injEq]
          exact ofInt_toInt_eq_zero_iff hlo hhi

/-- A version that can be read and that is not 0 is refused. -/
theorem loadConfig_of_not_isFlat (hparse : lib.parse text = some t) (hread : Readable t)
    (hflat : ¬ IsFlat t) (seed : Option (List Char)) :
    loadConfig lib text seed = .error .versioned := by
  obtain ⟨v, hv⟩ := (readVersion_isOk_iff t).mpr hread
  rw [isFlat_iff_of_readVersion hv, not_or] at hflat
  obtain ⟨n, rfl⟩ := Option.ne_none_iff_exists'.mp hflat.1
  have hn : n ≠ 0 := fun h => hflat.2 (congrArg some h)
  rw [loadConfig, peekVersion_eq hparse, hv, Except.map, classify]
  -- the arms of the guard: no version, a known one, a newer one, and a probe that fails
  split
  · next heq =>
      split at heq <;> cases heq
  · next m heq =>
      split at heq
      · cases heq
        rw [if_neg hn]
      · cases heq
  · rfl
  · next heq => cases heq

theorem exists_loadConfig_iff (hparse : lib.parse text = some t) (hread : Readable t)
    (seed : Option (List Char)) :
    (∃ r, loadConfig lib text seed = .ok r) ↔ IsFlat t ∧ WellSpelled (loadedText lib t) := by
  by_cases hflat : IsFlat t
  · obtain ⟨file, hfile, hlookup⟩ := parseConfigToml_eq hparse
    have hresolve := exists_resolve_iff (fun n => file.lookup n) seed
    rw [loadConfig_of_flat hparse hflat, loadFlat, hfile]
    dsimp only
    rw [hlookup] at hresolve ⊢
    refine Iff.trans ?_ (hresolve.trans (and_iff_right hflat).symm)
    cases resolve _ seed with
    | error e =>
        refine iff_of_false ?_ ?_
        · rintro ⟨r, hr⟩
          cases hr
        · rintro ⟨r, hr⟩
          cases hr
    | ok r => exact iff_of_true ⟨r, rfl⟩ ⟨r, rfl⟩
  · rw [loadConfig_of_not_isFlat hparse hread hflat]
    refine iff_of_false ?_ fun h => hflat h.1
    rintro ⟨r, hr⟩
    cases hr

end Config

open Config in
/-- The guard tells a text apart if and only if it is no TOML, or its version can be read and, where
a section holds something, the version is not 0 or the mode or the slot is refused anyway. -/
theorem versionGuard_iff (lib : TomlLib) (text : List Char) (seed : Option (List Char)) :
    Guarded lib text seed ↔ ∀ t, lib.parse text = some t →
      Readable t ∧ (HoldsSection t → ¬ IsFlat t ∨ ¬ WellSpelled (loadedText lib t)) := by
  constructor
  · rintro ⟨hpeek, hload⟩ t hparse
    have hread : Readable t := by
      by_contra hnot
      obtain ⟨e, he⟩ := (peekVersion_error_iff hparse).mpr hnot
      rw [hpeek e he] at hparse
      cases hparse
    refine ⟨hread, fun hholds => ?_⟩
    -- a flat file that can be resolved is loaded, and its sections are lost
    by_contra hboth
    rw [not_or, not_not, not_not] at hboth
    obtain ⟨r, hr⟩ := (exists_loadConfig_iff hparse hread seed).mpr hboth
    exact (hload r t hr hparse).2 hholds
  · intro h
    constructor
    · intro e he
      cases hparse : lib.parse text with
      | none => rfl
      | some t => exact absurd (h t hparse).1 ((peekVersion_error_iff hparse).mp ⟨e, he⟩)
    · intro r t hr hparse
      obtain ⟨hread, hsection⟩ := h t hparse
      have hboth := (exists_loadConfig_iff hparse hread seed).mp ⟨r, hr⟩
      refine ⟨hboth.1, fun hholds => ?_⟩
      rcases hsection hholds with hnot | hnot
      · exact hnot hboth.1
      · exact hnot hboth.2

/-- A file that only declares version `"1"`. -/
def quotedVersion : Toml.Table := ⟨[(Config.schemaKey, .string "1".toList)], List.nodup_singleton _⟩

def quotedText : List Char := "schema_version = \"1\"".toList

/-- A version in quotation marks fails the probe. -/
theorem quoted_version_fails :
    ¬ ∀ (lib : TomlLib) (text : List Char) (seed : Option (List Char)),
      Config.Guarded lib text seed := by
  intro h
  have hparse := TomlLib.parse_ofText quotedText quotedVersion
  have hpeek : Config.peekVersion (.ofText quotedText quotedVersion) quotedText =
      .error .parse := by
    rw [Config.peekVersion, hparse]
    rfl
  have hnone := (h (.ofText quotedText quotedVersion) quotedText none).1 _ hpeek
  rw [hparse] at hnone
  cases hnone

end SpEmu
