import SpEmu.Config.Flat

/-!
# The typed file

A typed file has a table for each section, with the fields under their keys. `deserialize` reads it,
and refuses a key it does not know; `serialize` writes it, without what is unset. The library writes
integers of 64 bits with a sign, so that an unsigned one from 2^63 on cannot be written.

`migrate` reads a text of either form. `dump` writes a resolved configuration, `upgrade` a text of
any version, as a typed file.
-/

set_option autoImplicit false

namespace SpEmu

open Config

/-! ## The fields -/

namespace Kind

def read : (k : Kind) → Toml.Value → Option k.Ext
  | text, v | textOr _, v | nonempty, v | oneOf _ _ _, v | board, v | bootPref, v | rotdump, v =>
      match v with
      | .string s => some s
      | _ => none
  | flag, v | coupling, v =>
      match v with
      | .boolean b => some b
      | _ => none
  | dec w, v | decOr w _, v | positive w _, v | hex w, v => readUInt w v
  | ambient, v =>
      match v with
      | .float f => some (Ieee.narrow f)
      | .integer i => some (Ieee.F32.ofInt i.toInt)
      | _ => none

/-- An integer of the library. -/
def writeUInt {w : Nat} (n : BitVec w) : Except ConfigError Toml.Value :=
  if n.toNat < 2 ^ 63 then .ok (.integer (BitVec.ofNat 64 n.toNat)) else .error .serialize

/-- A number of the library. The sign and the payload of a NaN are not written. -/
def writeF32 (x : Ieee.F32) : Toml.Value :=
  .float (if x.isNaN then Ieee.F64.nan false else Ieee.widen x)

def write : (k : Kind) → k.Ext → Except ConfigError Toml.Value
  | text, s | textOr _, s | nonempty, s | oneOf _ _ _, s | board, s | bootPref, s | rotdump, s =>
      .ok (.string s)
  | flag, b | coupling, b => .ok (.boolean b)
  | dec _, n | decOr _ _, n | positive _ _, n | hex _, n => writeUInt n
  | ambient, x => .ok (writeF32 x)

end Kind

namespace Config

/-! ## The document -/

/-- The entries of a section. A struct is also read from the sequence of its fields. -/
def sectionEntries (s : Section) : Toml.Value → Option (List (List Char × Toml.Value))
  | .table kvs => if ∀ kv ∈ kvs, kv.1 ∈ s.knobs.map Knob.key then some kvs else none
  | .array vs => if s.knobs.length ≤ vs.length then some ((s.knobs.map Knob.key).zip vs) else none
  | _ => none

def readKnob (t : List (List Char × Toml.Value)) (k : Knob) :
    Except ConfigError (Option k.kind.Ext) :=
  match t.lookup k.sect.name with
  | none => .ok none
  | some v =>
      match sectionEntries k.sect v with
      | none => .error .parse
      | some es =>
          match es.lookup k.key with
          | none => .ok none
          | some w =>
              match k.kind.read w with
              | none => .error .parse
              | some x => .ok (some x)

def topKeys : List (List Char) := schemaKey :: Section.all.map Section.name

def deserialize (t : List (List Char × Toml.Value)) : Except ConfigError ConfigFileV1 :=
  if ∀ kv ∈ t, kv.1 ∈ topKeys then do
    let version ← readVersion t
    let knobs ← Keyed.collect Knob.mem_all (readKnob t)
    return ⟨version, knobs⟩
  else .error .parse

/-- A section without a field that is set is left out. -/
def writeSection (ext : ConfigFileV1) (s : Section) : Option (Except ConfigError Toml.Value) :=
  if ∀ k ∈ s.knobs, (ext.knobs k).isNone then none
  else some ((Keyed.tryEntries Knob.key (fun k => (ext.knobs k).map k.kind.write) s.knobs).map
    Toml.Value.table)

def versionEntry (ext : ConfigFileV1) : List (List Char × Toml.Value) :=
  ext.schemaVersion.toList.map fun n => (schemaKey, .integer (n.setWidth 64))

def serialize (ext : ConfigFileV1) : Except ConfigError (List (List Char × Toml.Value)) :=
  (Keyed.tryEntries Section.name (writeSection ext) Section.all).map (versionEntry ext ++ ·)

/-! ## Texts of either form -/

variable (lib : TomlLib)

def migrate (text : List Char) : Except ConfigError ConfigFileV1 := do
  match ← peekVersion lib text with
  | .legacyFlat => flatToV1 lib text
  | .known n =>
      if n = 0 then flatToV1 lib text
      else if n = 1 then
        match lib.parse text with
        | none => .error .parse
        | some t => deserialize t.entries
      else .error (.validation schemaKey (.noMigration n))
  | .newer found => .error (.newerSchema found current)

def loadStr (text : List Char) : Except ConfigError Config := do ingest (← migrate lib text)

def validate (text : List Char) : Except ConfigError SchemaVersion := do
  let version ← peekVersion lib text
  let _ ← ingest (← migrate lib text)
  return version

def toToml (ext : ConfigFileV1) : Except ConfigError (List Char) := (serialize ext).map lib.print

/-- `config upgrade`. -/
def upgrade (text : List Char) : Except ConfigError (List Char) := do
  let external ← migrate lib text
  let _ ← ingest external
  toToml lib { external with schemaVersion := some current }

end Config

/-! ## A resolved configuration as a file -/

def Config.Board.str : Config.Board → List Char
  | .gimlet => "gimlet".toList
  | .sidecar => "sidecar".toList

namespace Kind

/-- `{a:#x}:{l}`. -/
def rotdumpText (w : BitVec 32 × BitVec 32) : List Char :=
  "0x".toList ++ Nat.toDigits 16 w.1.toNat ++ ':' :: Nat.toDigits 10 w.2.toNat

def toExternal : (k : Kind) → k.Store → Option k.Ext
  | text, o | nonempty, o | oneOf _ _ _, o | bootPref, o => o
  | textOr _, s => some s
  | board, b => some b.str
  | flag, b | coupling, b => some b
  | dec _, o | hex _, o => o
  | decOr _ _, n | positive _ _, n => some n
  | ambient, x => some x
  | rotdump, o => o.map rotdumpText

end Kind

namespace Config

def configToExternal (c : Config) : ConfigFileV1 :=
  ⟨some current, fun k => k.kind.toExternal (c k)⟩

def dump (lib : TomlLib) (c : Config) : Except ConfigError (List Char) :=
  toToml lib (configToExternal c)

end Config

end SpEmu
