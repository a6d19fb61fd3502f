import SpEmu.Config.Knob

/-!
# From texts to a resolved configuration

`flatPairsToV1` writes flat `(SP_EMU_NAME, value)` pairs into the typed file, each knob with its
own leniency (`Kind.set`); `ingest` checks the file and gives the defaults (`Kind.ingest`).
`resolve` puts the two together for a source of texts and the seed of the command line.

Both act on each knob by itself: `flatPairsToV1_knobs` and `ingest_eq_ok` are what the other modules
use of them. The error of a knob names the field and what was found there.
-/

set_option autoImplicit false

namespace SpEmu

inductive Problem
  | expected (what got : List Char)
  | noMigration (version : BitVec 32)
deriving DecidableEq

inductive ConfigError
  | parse
  | serialize
  | validation (path : List Char) (problem : Problem)
  | newerSchema (found known : BitVec 32)
deriving DecidableEq

/-- The typed file, as written. -/
@[ext]
structure ConfigFileV1 where
  schemaVersion : Option (BitVec 32)
  knobs : ∀ k : Knob, Option k.kind.Ext

/-- The resolved configuration. -/
def Config : Type := ∀ k : Knob, k.kind.Store

/-! ## A flat value -/

namespace Config

/-- `trim_start_matches("0x")`. -/
def trimStart0x : List Char → List Char
  | '0' :: 'x' :: cs => trimStart0x cs
  | cs => cs

def dec (w : Nat) (s : List Char) : Option (BitVec w) :=
  (Numeral.parseUInt 10 w s).map (BitVec.ofNat w)

def hex (w : Nat) (s : List Char) : Option (BitVec w) :=
  ((Numeral.parseUInt 16 64 (trimStart0x (Text.trim s))).filter (· < 2 ^ w)).map (BitVec.ofNat w)

/-- The window `0xADDR:LEN`. -/
def parseRotdump (s : List Char) : Option (BitVec 32 × BitVec 32) := do
  let (a, l) ← Text.splitOnce ':' s
  let addr ← Numeral.parseUInt 16 32 (trimStart0x (Text.trim a))
  let len ← dec 32 (Text.trim l)
  some (BitVec.ofNat 32 addr, len)

end Config

open Config

namespace Kind

/-- What a flat value makes of the field. -/
def set : (k : Kind) → List Char → Option k.Ext → Option k.Ext
  | text, s, _ | textOr _, s, _ | nonempty, s, _ | oneOf _ _ _, s, _ => some s
  | board, s, old => if s = "sidecar".toList then some s else old
  | bootPref, s, old => if s = "a".toList ∨ s = "b".toList then some s else old
  | flag, _, _ => some true
  | coupling, s, _ => some (decide (s ≠ "0".toList))
  | dec w, s, _ | decOr w _, s, _ | positive w _, s, _ => Config.dec w s
  | hex w, s, _ => Config.hex w s
  | ambient, s, _ => Ieee.parseF32 (Text.trim s)
  | rotdump, s, old => if (parseRotdump s).isSome then some s else old

end Kind

namespace ConfigFileV1

def default : ConfigFileV1 := ⟨none, fun _ => none⟩

end ConfigFileV1

namespace Config

/-- The typed file of flat pairs. Unknown names are ignored. -/
def flatPairsToV1 (pairs : List (List Char × List Char)) : ConfigFileV1 :=
  { ConfigFileV1.default with
    knobs := Keyed.assign Knob.all Knob.name (fun k => k.kind.set) (fun _ => none) pairs }

theorem flatPairsToV1_knobs {pairs : List (List Char × List Char)}
    (h : (pairs.map Prod.fst).Nodup) (k : Knob) :
    (flatPairsToV1 pairs).knobs k = (pairs.lookup k.name).bind (k.kind.set · none) := by
  refine (Keyed.assign_apply _ Knob.mem_all Knob.name_injective h _ k).trans ?_
  cases pairs.lookup k.name <;> rfl

/-! ## Ingest -/

/-- An empty text counts as none. -/
def nonempty (o : Option (List Char)) : Option (List Char) := o.filter fun s => !s.isEmpty

/-- The texts as a list in quotation marks. -/
def debugList (ss : List (List Char)) : List Char :=
  ['['] ++ (", ".toList).intercalate (ss.map fun s => '"' :: s ++ ['"']) ++ [']']

def oneOf (path : List Char) (allowed : List (List Char)) (o : Option (List Char)) :
    Except ConfigError (Option (List Char)) :=
  match nonempty o with
  | none => .ok none
  | some s =>
      if s ∈ allowed then .ok (some s)
      else .error (.validation path
        (.expected ("expected one of ".toList ++ debugList allowed) s))

def board : Option (List Char) → Except ConfigError Config.Board
  | none => .ok .gimlet
  | some s =>
      if s = "gimlet".toList then .ok .gimlet
      else if s = "sidecar".toList then .ok .sidecar
      else .error (.validation "op.board".toList
        (.expected "expected \"gimlet\" or \"sidecar\"".toList s))

def rotdump : Option (List Char) → Except ConfigError (Option (BitVec 32 × BitVec 32))
  | none => .ok none
  | some s =>
      match parseRotdump s with
      | some w => .ok (some w)
      | none => .error (.validation "trace.rotdump".toList
          (.expected "expected \"0xADDR:LEN\"".toList s))

theorem rotdump_of_parse {s : List Char} {w : BitVec 32 × BitVec 32}
    (h : parseRotdump s = some w) : rotdump (some s) = .ok (some w) := by rw [rotdump, h]

end Config

namespace Kind

/-- Check the field of the file and give it its default. -/
def ingest : (k : Kind) → Option k.Ext → Except ConfigError k.Store
  | text, o => .ok o
  | textOr d, o => .ok (o.getD d.toList)
  | nonempty, o => .ok (Config.nonempty o)
  | oneOf path a b, o => Config.oneOf path.toList [a.toList, b.toList] o
  | board, o => Config.board o
  | bootPref, o => Config.oneOf "rot.boot_pref".toList ["a".toList, "b".toList] o
  | flag, o => .ok (o.getD false)
  | coupling, o => .ok (o.getD true)
  | dec _, o | hex _, o => .ok o
  | decOr w d, o => .ok (o.getD (BitVec.ofNat w d))
  | positive w d, o => .ok ((o.filter fun (n : BitVec w) => 0 < n).getD (BitVec.ofNat w d))
  -- 30.0
  | ambient, o => .ok (o.getD ⟨false, 131, 0x700000⟩)
  | rotdump, o => Config.rotdump o

theorem ingest_none_eq_ok (k : Kind) : ∃ x, k.ingest none = .ok x := by
  cases k <;> exact ⟨_, rfl⟩

/-! A flat value is refused for its spelling only. -/

/-- Neither of the two spellings. -/
def Refuses : Kind → List Char → Prop
  | oneOf _ a b, s => s ≠ [] ∧ s ≠ a.toList ∧ s ≠ b.toList
  | _, _ => False

variable {k : Kind} {s : List Char}

theorem oneOf_eq {path : List Char} {allowed : List (List Char)} (hs : s ≠ []) :
    Config.oneOf path allowed (some s) =
      if s ∈ allowed then .ok (some s)
      else .error (.validation path
        (.expected ("expected one of ".toList ++ debugList allowed) s)) := by
  rw [Config.oneOf, Config.nonempty, Option.filter_some, if_pos (by simpa using hs)]

theorem ingest_refused (h : k.Refuses s) : ∃ e, k.ingest (k.set s none) = .error e := by
  cases k with
  | oneOf path a b =>
      obtain ⟨hs, ha, hb⟩ := h
      refine ⟨_, (oneOf_eq hs).trans (if_neg ?_)⟩
      simp [ha, hb]
  | _ => exact h.elim

theorem ingest_set_eq_ok (h : ¬ k.Refuses s) : ∃ x, k.ingest (k.set s none) = .ok x := by
  cases k with
  | oneOf path a b =>
      by_cases hs : s = []
      · subst hs
        exact ⟨none, rfl⟩
      · refine ⟨some s, (oneOf_eq hs).trans (if_pos ?_)⟩
        by_contra hmem
        exact h ⟨hs, by simpa using hmem⟩
  | board =>
      by_cases hs : s = "sidecar".toList
      · exact ⟨.sidecar, by rw [set, if_pos hs, hs]; rfl⟩
      · exact ⟨.gimlet, by rw [set, if_neg hs]; rfl⟩
  | bootPref =>
      by_cases hs : s = "a".toList ∨ s = "b".toList
      · refine ⟨some s, ?_⟩
        rw [set, if_pos hs]
        rcases hs with rfl | rfl <;> rfl
      · exact ⟨none, by rw [set, if_neg hs]; rfl⟩
  | rotdump =>
      cases hs : parseRotdump s with
      | none => exact ⟨none, by rw [set, hs]; rfl⟩
      | some w =>
          refine ⟨some w, ?_⟩
          have hset : set rotdump s none = some s := by rw [set, hs]; rfl
          rw [hset]
          exact rotdump_of_parse hs
  | _ => exact ⟨_, rfl⟩

end Kind

namespace Config

/-- The first error, in the order of the knobs, or the configuration. -/
def ingest (ext : ConfigFileV1) : Except ConfigError Config :=
  Keyed.collect Knob.mem_all fun k => k.kind.ingest (ext.knobs k)

theorem ingest_eq_ok {ext : ConfigFileV1} {c : Config} :
    ingest ext = .ok c ↔ ∀ k : Knob, k.kind.ingest (ext.knobs k) = .ok (c k) :=
  Keyed.collect_eq_ok Knob.mem_all _

/-! ## Resolve -/

/-- The configuration and the knobs that were set, with what. -/
structure Resolved where
  config : Config
  inputs : List (Knob × List Char)

/-- `--seed` beats the seed of the source. -/
def overrideSeed (ext : ConfigFileV1) : Option (List Char) → ConfigFileV1
  | none => ext
  | some seed => { ext with knobs := Function.update ext.knobs .seed (some seed) }

def inputsOf (get : List Char → Option (List Char)) : List (Knob × List Char) :=
  Knob.all.filterMap fun k => (get k.name).map fun v => (k, v)

def resolve (get : List Char → Option (List Char)) (seedOverride : Option (List Char)) :
    Except ConfigError Resolved := do
  let inputs := inputsOf get
  let pairs := inputs.map fun p => (p.1.name, p.2)
  let config ← ingest (overrideSeed (flatPairsToV1 pairs) seedOverride)
  return ⟨config, inputs⟩

end Config

end SpEmu
