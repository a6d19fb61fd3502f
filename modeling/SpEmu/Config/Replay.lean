import SpEmu.Config.Flat
import SpEmu.Lib.FlatToml

/-!
# The dumped configuration

`flatToml` prints the inputs of a resolved configuration as a flat file, one line for each knob
that was set, and `--load-config` reads it back. Two things are lost. `escapeToml` leaves control
characters other than a line feed as they are, and a TOML reader refuses them in a string; and the
seed of the command line is no input.

`replays_iff` says that this is all.
-/

set_option autoImplicit false

namespace SpEmu

namespace Config

/-! ## The dump -/

/-- `NOT_PERSISTED`. -/
def notPersisted : List Knob := [.configdbg]

def replace (c : Char) (t s : List Char) : List Char := s.flatMap fun d => if d = c then t else [d]

def escapeToml (s : List Char) : List Char :=
  replace '\n' "\\n".toList (replace '"' "\\\"".toList (replace '\\' "\\\\".toList s))

def flatHeader : List (List Char) :=
  ["# sp-emu configuration (mirrors $SP_EMU_*; the environment overrides it).".toList,
    "# Load with `--load-config <this file>`; omitted variables use their default.".toList,
    "# A flag is on by presence -- delete its line to disable it.".toList,
    []]

def flatToml (inputs : List (Knob × List Char)) : List Char :=
  Toml.unlines flatHeader ++ inputs.flatMap fun p =>
    if p.1 ∈ notPersisted then []
    else p.1.name ++ " = \"".toList ++ escapeToml p.2 ++ "\"\n".toList

theorem escapeToml_eq (s : List Char) : escapeToml s = Toml.escape s := by
  rw [escapeToml, replace, replace, replace, List.flatMap_assoc, List.flatMap_assoc, Toml.escape]
  refine List.flatMap_congr fun c _ => ?_
  by_cases hback : c = '\\'
  · subst hback
    rfl
  by_cases hquote : c = '"'
  · subst hquote
    rfl
  · rw [if_neg hback, List.flatMap_singleton, if_neg hquote, List.flatMap_singleton,
      Toml.escapeChar, if_neg hback, if_neg hquote]
    rfl

/-- The inputs that are printed. -/
def persisted (get : List Char → Option (List Char)) (k : Knob) : Option (List Char) :=
  if k ∈ notPersisted then none else get k.name

def dumped (get : List Char → Option (List Char)) : List (List Char × List Char) :=
  Keyed.entries Knob.all Knob.name (persisted get)

theorem line_eq (k : Knob) (s : List Char) :
    k.name ++ " = \"".toList ++ escapeToml s ++ "\"\n".toList =
      Toml.entryLine k.name s ++ ['\n'] := by
  have hend : "\"\n".toList = ['"'] ++ ['\n'] := by decide
  rw [escapeToml_eq, hend, Toml.entryLine, List.append_assoc _ ['"']]

theorem flatToml_inputsOf (get : List Char → Option (List Char)) :
    flatToml (inputsOf get) =
      Toml.unlines (flatHeader ++ (dumped get).map fun p => Toml.entryLine p.1 p.2) := by
  rw [flatToml, Toml.unlines, Toml.unlines, List.flatMap_append]
  congr 1
  rw [inputsOf, dumped, Keyed.entries]
  induction Knob.all with
  | nil => rfl
  | cons k ks ih =>
      rw [List.filterMap_cons, List.filterMap_cons, persisted]
      cases hget : get k.name with
      | none => simpa using ih
      | some s =>
          by_cases hk : k ∈ notPersisted
          · simpa [hk] using ih
          · simp only [line_eq] at ih ⊢
            rw [if_neg hk, Option.map_some, Option.map_some]
            dsimp only
            rw [List.flatMap_cons, List.map_cons, List.flatMap_cons, if_neg hk, ih]

theorem header_skipped : ∀ l ∈ flatHeader,
    Toml.readLine l = some none ∧ '\n' ∉ l ∧ Text.stripCr l = l := by decide +kernel

/-- All names at once: a name is a bare key, and not the one of the schema version. -/
theorem names_checked : (Knob.all.all fun k =>
    k.name.all Toml.isBareKey && !k.name.isEmpty && k.name != schemaKey) = true := by
  decide +kernel

theorem name_checked (k : Knob) :
    k.name.all Toml.isBareKey = true ∧ k.name ≠ [] ∧ k.name ≠ schemaKey := by
  have hk := List.all_eq_true.mp names_checked k k.mem_all
  simpa [and_assoc] using hk

theorem name_isBareKey (k : Knob) : k.name.all Toml.isBareKey = true ∧ k.name ≠ [] :=
  ⟨(name_checked k).1, (name_checked k).2.1⟩

theorem lookup_dumped (get : List Char → Option (List Char)) (k : Knob) :
    (dumped get).lookup k.name = persisted get k :=
  Keyed.lookup_entries _ Knob.nodup_names k.mem_all

/-- The dump is read in full, or not at all. -/
theorem readFlat_flatToml (get : List Char → Option (List Char)) :
    Toml.readFlat (flatToml (inputsOf get)) =
      if ∀ p ∈ dumped get, Toml.Writable p.2 then some (dumped get) else none := by
  rw [flatToml_inputsOf]
  refine Toml.readFlat_unlines header_skipped (fun p hp => ?_)
    (Keyed.nodup_entries _ Knob.nodup_names)
  obtain ⟨k, -, -, hk⟩ := (Keyed.mem_entries _).mp hp
  exact hk ▸ name_isBareKey k

theorem writable_dumped_iff (get : List Char → Option (List Char)) :
    (∀ p ∈ dumped get, Toml.Writable p.2) ↔
      ∀ k ∉ notPersisted, ∀ s, get k.name = some s → Toml.Writable s := by
  constructor
  · intro h k hk s hs
    have hpersisted : persisted get k = some s := by rw [persisted, if_neg hk, hs]
    exact h (k.name, s) ((Keyed.mem_entries _).mpr ⟨k, k.mem_all, hpersisted, rfl⟩)
  · rintro h ⟨n, s⟩ hp
    obtain ⟨k, -, hs, -⟩ := (Keyed.mem_entries _).mp hp
    rw [persisted] at hs
    split at hs
    · cases hs
    · next hk => exact h k hk s hs

/-! ## Reading it back -/

end Config

/-- A library that reads the flat document as TOML 1.0 has it. -/
def TomlLib.ReadsFlat (lib : TomlLib) (text : List Char) : Prop :=
  (lib.parse text).map Toml.Table.entries =
    (Toml.readFlat text).map fun ps => ps.map fun p => (p.1, .string p.2)

namespace Config

/-- Printed and read again, the inputs resolve to the same configuration. -/
def Replays (lib : TomlLib) (r : Resolved) : Prop :=
  ∃ r', loadFlat lib (flatToml r.inputs) none = .ok r' ∧
    ∀ k, k ≠ Knob.configdbg → r'.config k = r.config k

variable {lib : TomlLib} {get : List Char → Option (List Char)} {seed : Option (List Char)}
  {r : Resolved}

/-- If each value is writable the file has a table with what was printed. -/
theorem parse_flatToml (hlib : lib.ReadsFlat (flatToml (inputsOf get)))
    (h : ∀ p ∈ dumped get, Toml.Writable p.2) :
    ∃ t, lib.parse (flatToml (inputsOf get)) = some t ∧
      (fun n => (t.entries.lookup n).bind (loadString lib)) = fun n => (dumped get).lookup n := by
  rw [TomlLib.ReadsFlat, readFlat_flatToml, if_pos h, Option.map_some] at hlib
  obtain ⟨t, ht, hentries⟩ := Option.map_eq_some_iff.mp hlib
  refine ⟨t, ht, funext fun n => ?_⟩
  rw [hentries, Keyed.lookup_map_values]
  cases (dumped get).lookup n <;> rfl

theorem parse_flatToml_eq_none (hlib : lib.ReadsFlat (flatToml (inputsOf get)))
    (h : ¬ ∀ p ∈ dumped get, Toml.Writable p.2) :
    lib.parse (flatToml (inputsOf get)) = none := by
  rw [TomlLib.ReadsFlat, readFlat_flatToml, if_neg h] at hlib
  exact Option.map_eq_none_iff.mp hlib

theorem knobs_dumped (get : List Char → Option (List Char)) (k : Knob) :
    (fileOf fun n => (dumped get).lookup n).knobs k =
      (persisted get k).bind (k.kind.set · none) := by
  rw [fileOf]
  dsimp only
  rw [lookup_dumped]

/-- What `overrideSeed` leaves alone. -/
theorem knobs_overrideSeed {k : Knob} (hk : k ≠ .seed) (ext : ConfigFileV1)
    (seed : Option (List Char)) : (overrideSeed ext seed).knobs k = ext.knobs k := by
  cases seed with
  | none => rfl
  | some x => exact Function.update_of_ne hk _ _

theorem knobs_overrideSeed_seed (ext : ConfigFileV1) (seed : Option (List Char)) :
    (overrideSeed ext seed).knobs .seed = seed.or (ext.knobs .seed) := by
  cases seed with
  | none => rfl
  | some x => exact Function.update_self Knob.seed _ ext.knobs

/-- A knob other than the seed is the same after the reload. -/
theorem ingest_dumped (hr : resolve get seed = .ok r) {k : Knob} (hk : k ≠ .configdbg)
    (hseed : k ≠ .seed) :
    k.kind.ingest ((fileOf fun n => (dumped get).lookup n).knobs k) = .ok (r.config k) := by
  have hnot : k ∉ notPersisted := fun h => hk (List.mem_singleton.mp h)
  have hr' := (resolve_eq_ok.mp hr).2 k
  rw [knobs_overrideSeed hseed] at hr'
  rw [knobs_dumped, persisted, if_neg hnot]
  exact hr'

theorem config_seed (hr : resolve get seed = .ok r) :
    r.config .seed = seed.or (get Knob.seed.name) := by
  have hr' := (resolve_eq_ok.mp hr).2 .seed
  rw [knobs_overrideSeed_seed] at hr'
  have hval : seed.or ((fileOf get).knobs .seed) = r.config .seed := Except.ok.inj hr'
  have hfile : (fileOf get).knobs .seed = get Knob.seed.name := by
    rw [fileOf]
    dsimp only
    cases get Knob.seed.name <;> rfl
  rw [← hval, hfile]

/-- The dumped inputs resolve, to what they are. -/
theorem exists_resolve_dumped (hr : resolve get seed = .ok r) :
    ∃ r', resolve (fun n => (dumped get).lookup n) none = .ok r' ∧
      (∀ k, k ≠ Knob.configdbg → k ≠ .seed → r'.config k = r.config k) ∧
      r'.config .seed = get Knob.seed.name := by
  have hknob : ∀ k : Knob, ∃ x,
      k.kind.ingest ((fileOf fun n => (dumped get).lookup n).knobs k) = .ok x := by
    intro k
    by_cases hk : k = .configdbg
    · subst hk
      rw [knobs_dumped, persisted, if_pos (by decide), Option.bind_none]
      exact Kind.ingest_none_eq_ok _
    by_cases hseed : k = .seed
    · subst hseed
      exact ⟨_, rfl⟩
    · exact ⟨_, ingest_dumped hr hk hseed⟩
  choose c hc using hknob
  have hr' : resolve (fun n => (dumped get).lookup n) none =
      .ok ⟨c, inputsOf fun n => (dumped get).lookup n⟩ := resolve_eq_ok.mpr ⟨rfl, hc⟩
  refine ⟨_, hr', fun k hk hseed => ?_, ?_⟩
  · exact Except.ok.inj ((hc k).symm.trans (ingest_dumped hr hk hseed))
  · rw [config_seed hr', Option.none_or, lookup_dumped, persisted, if_neg (by decide)]

theorem or_eq_iff {seed input : Option (List Char)} :
    input = seed.or input ↔ ∀ x, seed = some x → input = some x := by
  cases seed with
  | none => exact ⟨fun _ => nofun, fun _ => rfl⟩
  | some x =>
      constructor
      · rintro h y ⟨⟩
        exact h
      · exact fun h => h x rfl

theorem loadFlat_flatToml (hlib : lib.ReadsFlat (flatToml (inputsOf get)))
    (h : ∀ p ∈ dumped get, Toml.Writable p.2) :
    loadFlat lib (flatToml (inputsOf get)) none =
      (resolve (fun n => (dumped get).lookup n) none).mapError .invalid := by
  obtain ⟨t, ht, hlookup⟩ := parse_flatToml hlib h
  obtain ⟨file, hfile, hget⟩ := parseConfigToml_eq ht
  rw [loadFlat, hfile]
  dsimp only
  rw [hget, hlookup]

/-- The dump replays exactly if each value is writable and the seed is that of the inputs. -/
theorem replays_iff (hr : resolve get seed = .ok r) (hlib : lib.ReadsFlat (flatToml r.inputs)) :
    Replays lib r ↔
      (∀ k ∉ notPersisted, ∀ s, get k.name = some s → Toml.Writable s) ∧
        ∀ x, seed = some x → get Knob.seed.name = some x := by
  have hinputs := (resolve_eq_ok.mp hr).1
  obtain ⟨r', hr', hsame, hseed⟩ := exists_resolve_dumped hr
  rw [hinputs] at hlib
  rw [Replays, hinputs, ← writable_dumped_iff, ← or_eq_iff, ← config_seed hr, ← hseed]
  constructor
  · rintro ⟨r'', hload, heq⟩
    have hwritable : ∀ p ∈ dumped get, Toml.Writable p.2 := by
      by_contra hnot
      rw [loadFlat, parseConfigToml, parse_flatToml_eq_none hlib hnot] at hload
      cases hload
    rw [loadFlat_flatToml hlib hwritable, hr'] at hload
    cases hload
    exact ⟨hwritable, heq .seed (by decide)⟩
  · rintro ⟨hwritable, hseed'⟩
    refine ⟨r', by rw [loadFlat_flatToml hlib hwritable, hr']; rfl, fun k hk => ?_⟩
    by_cases hks : k = .seed
    · subst hks
      exact hseed'
    · exact hsame k hk hks

/-- `--load-config` takes the dump for a flat file. -/
theorem loadConfig_flatToml (hlib : lib.ReadsFlat (flatToml (inputsOf get)))
    (seed : Option (List Char)) :
    loadConfig lib (flatToml (inputsOf get)) seed =
      loadFlat lib (flatToml (inputsOf get)) seed := by
  rw [loadConfig, peekVersion]
  cases hparse : lib.parse (flatToml (inputsOf get)) with
  | none => rfl
  | some t =>
      rw [TomlLib.ReadsFlat, readFlat_flatToml, hparse, Option.map_some] at hlib
      have hversion : t.entries.lookup schemaKey = none := by
        split at hlib
        · have hentries : t.entries = (dumped get).map fun p => (p.1, .string p.2) :=
            Option.some.inj hlib
          have hname (k : Knob) : k.name ≠ schemaKey := (name_checked k).2.2
          rw [hentries, Keyed.lookup_map_values, dumped, Keyed.lookup_entries_of_not_name _ hname]
          rfl
        · cases hlib
      dsimp only
      rw [readVersion, hversion]
      rfl

/-- A run that was given one value. -/
def serialOnly (s : List Char) (n : List Char) : Option (List Char) :=
  if n = Knob.vpdSerial.name then some s else none

theorem eq_of_serialOnly {s v : List Char} {k : Knob} (h : serialOnly s k.name = some v) :
    k = .vpdSerial ∧ s = v := by
  rw [serialOnly] at h
  split at h
  · next hname => exact ⟨Knob.name_injective hname, Option.some.inj h⟩
  · cases h

theorem exists_resolve_serialOnly (s : List Char) : ∃ r, resolve (serialOnly s) none = .ok r := by
  refine exists_resolve fun k v hv hrefuses => ?_
  obtain ⟨rfl, -⟩ := eq_of_serialOnly hv
  exact hrefuses

end Config

/-- A library that reads flat documents and no others. -/
def TomlLib.flat : TomlLib where
  parse text := (Toml.readFlat text).pmap
    (fun ps hps => ⟨ps.map fun p => (p.1, .string p.2), by
      rw [List.map_map]
      exact Toml.nodup_of_readFlat hps⟩) fun _ h => h
  floatText _ := []
  arrayText _ := "[]".toList
  tableText _ := "{}".toList
  print _ := []

theorem TomlLib.flat_readsFlat (text : List Char) : TomlLib.flat.ReadsFlat text := by
  rw [ReadsFlat, flat, Option.map_pmap, Option.pmap_eq_map]

namespace Config

/-- Quotation marks and backslashes come back. -/
theorem replays_iff_quoted :
    ∃ r, resolve (serialOnly "a\"b\\c\n".toList) none = .ok r ∧ Replays TomlLib.flat r := by
  obtain ⟨r, hr⟩ := exists_resolve_serialOnly "a\"b\\c\n".toList
  refine ⟨r, hr, (replays_iff hr (TomlLib.flat_readsFlat _)).mpr ⟨fun k _ s hs => ?_, nofun⟩⟩
  obtain ⟨-, rfl⟩ := eq_of_serialOnly hs
  decide

/-- A carriage return does not. -/
theorem not_replays : ¬ ∀ (lib : TomlLib) (get : List Char → Option (List Char))
    (seed : Option (List Char)) (r : Resolved), resolve get seed = .ok r →
      lib.ReadsFlat (flatToml r.inputs) → Replays lib r := by
  intro hall
  obtain ⟨r, hr⟩ := exists_resolve_serialOnly "a\rb".toList
  obtain ⟨r', hload, -⟩ := hall TomlLib.flat _ none r hr (TomlLib.flat_readsFlat _)
  have hnot : ¬ ∀ p ∈ dumped (serialOnly "a\rb".toList), Toml.Writable p.2 := by
    rw [writable_dumped_iff]
    intro h
    exact absurd (h .vpdSerial (by decide) _ (if_pos rfl)) (by decide)
  rw [(resolve_eq_ok.mp hr).1, loadFlat, parseConfigToml,
    parse_flatToml_eq_none (TomlLib.flat_readsFlat _) hnot] at hload
  cases hload

end Config

end SpEmu
