import SpEmu.Config.Ingest
import SpEmu.Lib.Toml

/-!
# The flat file

Two readers of a flat file, each with its own way to make a text of a TOML value.
`parseConfigToml` is that of `--load-config`; it leaves out a `false` and what is no scalar.
`flatToV1` is that of the typed tools; it takes every value. `peekVersion` tells a flat file from a
typed one.

Either way each knob reads its own entry of the table: `fileOf_parseConfigToml` and `flatToV1_eq`.
-/

set_option autoImplicit false

namespace SpEmu

/-- What is used of the TOML library. -/
structure TomlLib where
  parse : List Char → Option Toml.Table
  floatText : Ieee.F64 → List Char
  arrayText : List Toml.Value → List Char
  tableText : List (List Char × Toml.Value) → List Char
  /-- Prints a document. -/
  print : List (List Char × Toml.Value) → List Char

/-- A library as far as one text and its table go. -/
def TomlLib.ofText (text : List Char) (t : Toml.Table) : TomlLib where
  parse s := if s = text then some t else none
  floatText _ := []
  arrayText _ := "[]".toList
  tableText _ := "{}".toList
  print _ := text

theorem TomlLib.parse_ofText (text : List Char) (t : Toml.Table) :
    (TomlLib.ofText text t).parse text = some t := if_pos rfl

namespace Config

/-- The file in which each knob has what its own text makes of it. -/
def fileOf (get : List Char → Option (List Char)) : ConfigFileV1 :=
  ⟨none, fun k => (get k.name).bind (k.kind.set · none)⟩

theorem flatPairsToV1_eq {pairs : List (List Char × List Char)} (h : (pairs.map Prod.fst).Nodup) :
    flatPairsToV1 pairs = fileOf fun n => pairs.lookup n := by
  ext1
  · rfl
  · exact funext fun k => flatPairsToV1_knobs h k

/-- `resolve` looks a knob up under its name. -/
theorem flatPairsToV1_inputsOf (get : List Char → Option (List Char)) :
    flatPairsToV1 ((inputsOf get).map fun p => (p.1.name, p.2)) = fileOf get := by
  have hentries : ((inputsOf get).map fun p => (p.1.name, p.2)) =
      Keyed.entries Knob.all Knob.name fun k => get k.name := by
    rw [inputsOf, List.map_filterMap, Keyed.entries]
    exact List.filterMap_congr fun k _ => by rw [Option.map_map]; rfl
  rw [hentries, flatPairsToV1_eq (Keyed.nodup_entries _ Knob.nodup_names)]
  ext1
  · rfl
  · funext k
    unfold fileOf
    dsimp only
    rw [Keyed.lookup_entries _ Knob.nodup_names k.mem_all]

theorem resolve_eq (get : List Char → Option (List Char)) (seed : Option (List Char)) :
    resolve get seed =
      (ingest (overrideSeed (fileOf get) seed)).map fun c => ⟨c, inputsOf get⟩ := by
  unfold resolve
  dsimp only
  rw [flatPairsToV1_inputsOf]
  cases ingest (overrideSeed (fileOf get) seed) <;> rfl

theorem resolve_eq_ok {get : List Char → Option (List Char)} {seed : Option (List Char)}
    {r : Resolved} :
    resolve get seed = .ok r ↔ r.inputs = inputsOf get ∧
      ∀ k : Knob, k.kind.ingest ((overrideSeed (fileOf get) seed).knobs k) = .ok (r.config k) := by
  rw [resolve_eq, ← ingest_eq_ok]
  obtain ⟨c, inputs⟩ := r
  cases ingest (overrideSeed (fileOf get) seed) with
  | error e => exact ⟨nofun, fun h => nomatch h.2⟩
  | ok c' =>
      constructor
      · rintro ⟨⟩
        exact ⟨rfl, rfl⟩
      · rintro ⟨rfl, ⟨⟩⟩
        rfl

/-- Texts that no knob refuses resolve. -/
theorem exists_resolve {get : List Char → Option (List Char)}
    (h : ∀ (k : Knob) (s : List Char), get k.name = some s → ¬ k.kind.Refuses s) :
    ∃ r, resolve get none = .ok r := by
  have hknob : ∀ k : Knob, ∃ x, k.kind.ingest ((fileOf get).knobs k) = .ok x := by
    intro k
    rw [fileOf]
    dsimp only
    cases hs : get k.name with
    | none => exact Kind.ingest_none_eq_ok k.kind
    | some s => exact Kind.ingest_set_eq_ok (h k s hs)
  choose c hc using hknob
  exact ⟨⟨c, inputsOf get⟩, resolve_eq_ok.mpr ⟨rfl, hc⟩⟩

/-! ## The version -/

inductive SchemaVersion
  | legacyFlat
  | known (n : BitVec 32)
  | newer (n : BitVec 32)
deriving DecidableEq

/-- The version that this build writes. -/
def current : BitVec 32 := 1

/-- An unsigned number as it is read from a TOML integer. -/
def readUInt (w : Nat) : Toml.Value → Option (BitVec w)
  | .integer i => if 0 ≤ i.toInt ∧ i.toInt < 2 ^ w then some (BitVec.ofInt w i.toInt) else none
  | _ => none

def schemaKey : List Char := "schema_version".toList

/-- The version that a table declares. -/
def readVersion (t : List (List Char × Toml.Value)) : Except ConfigError (Option (BitVec 32)) :=
  match t.lookup schemaKey with
  | none => .ok none
  | some v =>
      match readUInt 32 v with
      | some n => .ok (some n)
      | none => .error .parse

variable (lib : TomlLib)

def peekVersion (text : List Char) : Except ConfigError SchemaVersion :=
  match lib.parse text with
  | none => .error .parse
  | some t => do
      match ← readVersion t.entries with
      | none => return .legacyFlat
      | some n => return if n ≤ current then .known n else .newer n

/-! ## The two readers -/

/-- The text that `--load-config` makes of a value; `none` if the value is skipped. -/
def loadString : Toml.Value → Option (List Char)
  | .string s => some s
  | .integer i => some (Toml.integerText i)
  | .float f => some (lib.floatText f)
  | .boolean true => some "1".toList
  | .boolean false => none
  | .datetime _ | .array _ | .table _ => none

def parseConfigToml (text : List Char) : Option (List (List Char × List Char)) :=
  (lib.parse text).map fun t =>
    t.entries.filterMap fun kv => (loadString lib kv.2).map fun s => (kv.1, s)

/-- The text that the typed tools make of a value. -/
def scalarString : Toml.Value → List Char
  | .string s => s
  | .integer i => Toml.integerText i
  | .boolean b => if b then "true".toList else "false".toList
  | .float f => lib.floatText f
  | .datetime d => d.toText
  | .array vs => lib.arrayText vs
  | .table kvs => lib.tableText kvs

def flatToV1 (text : List Char) : Except ConfigError ConfigFileV1 :=
  match lib.parse text with
  | none => .error .parse
  | some t => .ok (flatPairsToV1 (t.entries.map fun kv => (kv.1, scalarString lib kv.2)))

inductive LoadError
  | versioned
  | malformed
  | invalid (e : ConfigError)

def loadFlat (text : List Char) (seed : Option (List Char)) : Except LoadError Resolved :=
  match parseConfigToml lib text with
  | none => .error .malformed
  | some file => (resolve (fun n => file.lookup n) seed).mapError .invalid

/-- `--load-config`: a typed file is refused, and what has no readable version is tried. -/
def loadConfig (text : List Char) (seed : Option (List Char)) : Except LoadError Resolved :=
  match peekVersion lib text with
  | .ok .legacyFlat => loadFlat lib text seed
  | .ok (.known n) => if n = 0 then loadFlat lib text seed else .error .versioned
  | .ok (.newer _) => .error .versioned
  | .error _ => loadFlat lib text seed

variable {lib}

theorem parseConfigToml_eq {text : List Char} {t : Toml.Table} (h : lib.parse text = some t) :
    ∃ file, parseConfigToml lib text = some file ∧
      (fun n => file.lookup n) = fun n => (t.entries.lookup n).bind (loadString lib) := by
  refine ⟨_, by rw [parseConfigToml, h, Option.map_some], ?_⟩
  exact funext fun n => Keyed.lookup_filterMap_values _ n t.nodup

theorem flatToV1_eq {text : List Char} {t : Toml.Table} (h : lib.parse text = some t) :
    flatToV1 lib text =
      .ok (fileOf fun n => (t.entries.lookup n).map (scalarString lib)) := by
  have hkeys : ((t.entries.map fun kv => (kv.1, scalarString lib kv.2)).map Prod.fst).Nodup := by
    rw [List.map_map]
    exact t.nodup
  rw [flatToV1, h]
  dsimp only
  rw [flatPairsToV1_eq hkeys]
  congr
  exact funext fun n => Keyed.lookup_map_values _ n _

end Config

end SpEmu
