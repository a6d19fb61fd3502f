import SpEmu.Config.Typed

/-!
# Typed files that are written and read again

`config upgrade` and `dump` write a typed file, and `loadStr` reads it. A file that can be written
is read back as it was (`deserialize_document`), but for what TOML does not keep of a NaN. Whether
it can be written depends on the integers alone: one from 2^63 on has no TOML integer (`Fits`). No
knob bounds its value so.

`round_trip_iff` puts the two together for `upgrade` and `dump`.
-/

set_option autoImplicit false

namespace SpEmu

open Config

/-! ## One field -/

namespace Kind

/-- The value has a TOML integer. -/
def InRange : (k : Kind) → k.Ext → Prop
  | dec _, n | decOr _ _, n | positive _ _, n | hex _, n => n.toNat < 2 ^ 63
  | text, _ | textOr _, _ | nonempty, _ | oneOf _ _ _, _ | board, _ | bootPref, _ | flag, _
  | coupling, _ | ambient, _ | rotdump, _ => True

def writtenUInt {w : Nat} (n : BitVec w) : Toml.Value := .integer (BitVec.ofNat 64 n.toNat)

/-- What is written, when the value is in range. -/
def written : (k : Kind) → k.Ext → Toml.Value
  | text, s | textOr _, s | nonempty, s | oneOf _ _ _, s | board, s | bootPref, s | rotdump, s =>
      .string s
  | flag, b | coupling, b => .boolean b
  | dec _, n | decOr _ _, n | positive _ _, n | hex _, n => writtenUInt n
  | ambient, x => writeF32 x

def quietF32 (x : Ieee.F32) : Ieee.F32 := if x.isNaN then Ieee.F32.nan false else x

/-- What is read again. -/
def quiet : (k : Kind) → k.Ext → k.Ext
  | ambient, x => quietF32 x
  | text, x | textOr _, x | nonempty, x | oneOf _ _ _, x | board, x | bootPref, x | flag, x
  | coupling, x | dec _, x | decOr _ _, x | positive _ _, x | hex _, x | rotdump, x => x

theorem write_of_inRange {k : Kind} {x : k.Ext} (h : k.InRange x) :
    k.write x = .ok (k.written x) := by
  cases k with
  | dec w | decOr w d | positive w d | hex w => exact if_pos h
  | _ => rfl

theorem write_of_not_inRange {k : Kind} {x : k.Ext} (h : ¬ k.InRange x) :
    k.write x = .error .serialize := by
  cases k with
  | dec w | decOr w d | positive w d | hex w => exact if_neg h
  | _ => exact absurd trivial h

theorem readUInt_written {w : Nat} {n : BitVec w} (h : n.toNat < 2 ^ 63) :
    readUInt w (writtenUInt n) = some n := by
  have hint : (BitVec.ofNat 64 n.toNat).toInt = n.toNat := by
    have hnat : (BitVec.ofNat 64 n.toNat).toNat = n.toNat := by
      rw [BitVec.toNat_ofNat, Nat.mod_eq_of_lt (by omega)]
    rw [BitVec.toInt_eq_toNat_of_lt (by omega), hnat]
  have hlt : (n.toNat : Int) < 2 ^ w := by exact_mod_cast n.isLt
  rw [writtenUInt, readUInt, hint, if_pos ⟨by omega, hlt⟩, BitVec.ofInt_natCast, BitVec.ofNat_toNat,
    BitVec.setWidth_eq]

theorem read_writeF32 (x : Ieee.F32) : read ambient (writeF32 x) = some (quietF32 x) := by
  rw [writeF32, quietF32]
  split
  · exact congrArg some (Ieee.narrow_nan false)
  · exact congrArg some (Ieee.narrow_widen x)

/-- A field that is in range is read back. -/
theorem read_written {k : Kind} {x : k.Ext} (h : k.InRange x) :
    k.read (k.written x) = some (k.quiet x) := by
  cases k with
  | dec w | decOr w d | positive w d | hex w => exact readUInt_written h
  | ambient => exact read_writeF32 x
  | _ => rfl

theorem isNaN_quietF32 {x : Ieee.F32} : (quietF32 x).isNaN ↔ x.isNaN := by
  rw [quietF32]
  split
  · next h => exact ⟨fun _ => h, fun _ => by decide⟩
  · exact Iff.rfl

theorem writeF32_quietF32 (x : Ieee.F32) : writeF32 (quietF32 x) = writeF32 x := by
  by_cases h : x.isNaN
  · rw [writeF32, if_pos (isNaN_quietF32.mpr h), writeF32, if_pos h]
  · rw [quietF32, if_neg h]

/-- Once quiet, nothing is lost any more. -/
theorem written_quiet (k : Kind) (x : k.Ext) : k.written (k.quiet x) = k.written x := by
  cases k with
  | ambient => exact writeF32_quietF32 x
  | _ => rfl

theorem inRange_quiet {k : Kind} {x : k.Ext} : k.InRange (k.quiet x) ↔ k.InRange x := by
  cases k <;> exact Iff.rfl

/-- What is read from a typed file is in range. -/
theorem inRange_of_read {k : Kind} {v : Toml.Value} {x : k.Ext} (h : k.read v = some x) :
    k.InRange x := by
  have huint : ∀ {w : Nat} {v : Toml.Value} {n : BitVec w}, readUInt w v = some n →
      n.toNat < 2 ^ 63 := by
    intro w v n h
    cases v with
    | integer i =>
        rw [readUInt] at h
        split at h
        · next hi =>
            cases h
            have htop := i.toInt_lt
            have hmod : i.toInt % ((2 ^ w : Nat) : Int) = i.toInt :=
              Int.emod_eq_of_lt hi.1 (by exact_mod_cast hi.2)
            rw [BitVec.toNat_ofInt, hmod]
            omega
        · cases h
    | _ => cases h
  cases k with
  | dec w | decOr w d | positive w d | hex w => exact huint h
  | _ => trivial

end Kind

namespace Config

/-! ## The document -/

/-- Every integer of the file is in range. -/
def Fits (ext : ConfigFileV1) : Prop :=
  ∀ (k : Knob) (x : k.kind.Ext), ext.knobs k = some x → k.kind.InRange x

def quiet (ext : ConfigFileV1) : ConfigFileV1 :=
  { ext with knobs := fun k => (ext.knobs k).map k.kind.quiet }

def sectionTable (ext : ConfigFileV1) (s : Section) : Option Toml.Value :=
  if ∀ k ∈ s.knobs, (ext.knobs k).isNone then none
  else some (.table (Keyed.entries s.knobs Knob.key fun k => (ext.knobs k).map k.kind.written))

/-- What is written of a file that fits. -/
def document (ext : ConfigFileV1) : List (List Char × Toml.Value) :=
  versionEntry ext ++ Keyed.entries Section.all Section.name (sectionTable ext)

theorem serialize_of_fits {ext : ConfigFileV1} (h : Fits ext) :
    serialize ext = .ok (document ext) := by
  have hsection : ∀ s ∈ Section.all, writeSection ext s = (sectionTable ext s).map .ok := by
    intro s _
    rw [writeSection, sectionTable]
    split
    · rfl
    · have hentries := Keyed.tryEntries_eq (ε := ConfigError) s.knobs Knob.key
        (f := fun k => (ext.knobs k).map k.kind.write)
        (g := fun k => (ext.knobs k).map k.kind.written) (fun k _ => by
          cases hx : ext.knobs k with
          | none => rfl
          | some x => exact congrArg some (Kind.write_of_inRange (h k x hx)))
      rw [hentries]
      rfl
  rw [serialize, Keyed.tryEntries_eq _ _ hsection]
  rfl

theorem serialize_of_not_fits {ext : ConfigFileV1} (h : ¬ Fits ext) :
    ∃ e, serialize ext = .error e := by
  simp only [Fits, not_forall] at h
  obtain ⟨k, x, hx, hnot⟩ := h
  have hwrite : (ext.knobs k).map k.kind.write = some (.error .serialize) := by
    rw [hx]
    exact congrArg some (Kind.write_of_not_inRange hnot)
  obtain ⟨e, he⟩ := Keyed.tryEntries_error Knob.key
    (f := fun k => (ext.knobs k).map k.kind.write) k.mem_knobs hwrite
  have hset : ¬ ∀ j ∈ k.sect.knobs, (ext.knobs j).isNone = true := by
    intro hall
    have hk := hall k k.mem_knobs
    rw [hx] at hk
    cases hk
  have hsection : writeSection ext k.sect = some (.error e) := by
    rw [writeSection, if_neg hset, he]
    rfl
  obtain ⟨e', he'⟩ := Keyed.tryEntries_error Section.name k.sect.mem_all hsection
  exact ⟨e', by rw [serialize, he']; rfl⟩

/-! ## Reading it again -/

theorem schemaKey_ne_name (s : Section) : s.name ≠ schemaKey := by cases s <;> decide

theorem lookup_document_section (ext : ConfigFileV1) (s : Section) :
    (document ext).lookup s.name = sectionTable ext s := by
  have hversion : (versionEntry ext).lookup s.name = none := by
    refine Keyed.lookup_of_not_mem fun h => ?_
    obtain ⟨p, hp, hname⟩ := List.mem_map.mp h
    obtain ⟨n, -, rfl⟩ := List.mem_map.mp hp
    exact schemaKey_ne_name s hname.symm
  rw [document, List.lookup_append, hversion, Option.none_or,
    Keyed.lookup_entries _ Section.nodup_names s.mem_all]

theorem readVersion_document (ext : ConfigFileV1) :
    readVersion (document ext) = .ok ext.schemaVersion := by
  have hrest :
      (Keyed.entries Section.all Section.name (sectionTable ext)).lookup schemaKey = none :=
    Keyed.lookup_entries_of_not_name _ schemaKey_ne_name
  rw [readVersion, document, List.lookup_append, hrest, Option.or_none, versionEntry]
  cases hv : ext.schemaVersion with
  | none => rfl
  | some n =>
      have hread : readUInt 32 (.integer (n.setWidth 64)) = some n := by
        have hn := n.isLt
        rw [← BitVec.ofNat_toNat]
        exact Kind.readUInt_written (by omega)
      have hlookup : ∀ rest : List (List Char × Toml.Value),
          ((schemaKey, Toml.Value.integer (n.setWidth 64)) :: rest).lookup schemaKey =
            some (.integer (n.setWidth 64)) := fun rest => by simp
      simp only [Option.toList_some, List.map_cons, hlookup, hread]

theorem sectionEntries_table (s : Section) (f : Knob → Option Toml.Value) :
    sectionEntries s (.table (Keyed.entries s.knobs Knob.key f)) =
      some (Keyed.entries s.knobs Knob.key f) := by
  refine if_pos fun kv hkv => ?_
  obtain ⟨k, hk, -, hname⟩ := (Keyed.mem_entries f).mp hkv
  exact List.mem_map.mpr ⟨k, hk, hname⟩

theorem readKnob_document {ext : ConfigFileV1} (h : Fits ext) (k : Knob) :
    readKnob (document ext) k = .ok ((ext.knobs k).map k.kind.quiet) := by
  rw [readKnob, lookup_document_section, sectionTable]
  by_cases hnone : ∀ j ∈ k.sect.knobs, (ext.knobs j).isNone = true
  · have hk : ext.knobs k = none := Option.isNone_iff_eq_none.mp (hnone k k.mem_knobs)
    rw [if_pos hnone, hk]
    rfl
  · rw [if_neg hnone]
    dsimp only
    rw [sectionEntries_table]
    dsimp only
    rw [Keyed.lookup_entries _ (Knob.nodup_key k.sect) k.mem_knobs]
    cases hx : ext.knobs k with
    | none => rfl
    | some x =>
        rw [Option.map_some]
        dsimp only
        rw [Kind.read_written (h k x hx)]
        rfl

theorem keys_document (ext : ConfigFileV1) : ∀ kv ∈ document ext, kv.1 ∈ topKeys := by
  intro kv hkv
  rcases List.mem_append.mp hkv with hkv | hkv
  · obtain ⟨n, -, rfl⟩ := List.mem_map.mp hkv
    exact List.mem_cons_self
  · obtain ⟨s, hs, -, hname⟩ := (Keyed.mem_entries _).mp hkv
    exact List.mem_cons_of_mem _ (List.mem_map.mpr ⟨s, hs, hname⟩)

theorem nodup_document (ext : ConfigFileV1) : ((document ext).map Prod.fst).Nodup := by
  have hsections := Keyed.nodup_entries (sectionTable ext) Section.nodup_names
  rw [document, List.map_append]
  cases hv : ext.schemaVersion with
  | none => rw [versionEntry, hv]; exact hsections
  | some n =>
      rw [versionEntry, hv]
      refine List.nodup_cons.mpr ⟨fun hmem => ?_, hsections⟩
      obtain ⟨⟨m, v⟩, hp, hname⟩ := List.mem_map.mp hmem
      obtain ⟨s, -, -, hs⟩ := (Keyed.mem_entries _).mp hp
      exact schemaKey_ne_name s (hs.trans hname)

/-- A file that fits is read back, each knob of it. -/
theorem deserialize_document {ext : ConfigFileV1} (h : Fits ext) :
    deserialize (document ext) = .ok (quiet ext) := by
  have hknobs : Keyed.collect Knob.mem_all (readKnob (document ext)) =
      .ok fun k => (ext.knobs k).map k.kind.quiet :=
    (Keyed.collect_eq_ok Knob.mem_all _).mpr (readKnob_document h)
  rw [deserialize, if_pos (keys_document ext), readVersion_document, hknobs]
  rfl

theorem exists_of_readKnob {t : List (List Char × Toml.Value)} {k : Knob} {x : k.kind.Ext}
    (h : readKnob t k = .ok (some x)) : ∃ v, k.kind.read v = some x := by
  unfold readKnob at h
  split at h
  · cases h
  · split at h
    · cases h
    · split at h
      · cases h
      · next v _ =>
          split at h
          · cases h
          · next y hread =>
              cases h
              exact ⟨v, hread⟩

/-- What was read from a typed file fits. -/
theorem fits_of_deserialize {t : List (List Char × Toml.Value)} {ext : ConfigFileV1}
    (h : deserialize t = .ok ext) : Fits ext := by
  intro k x hx
  rw [deserialize] at h
  split at h
  · cases hversion : readVersion t with
    | error e => rw [hversion] at h; cases h
    | ok version =>
        cases hknobs : Keyed.collect Knob.mem_all (readKnob t) with
        | error e => rw [hversion, hknobs] at h; cases h
        | ok knobs =>
            rw [hversion, hknobs] at h
            cases h
            have hk := (Keyed.collect_eq_ok Knob.mem_all _).mp hknobs k
            obtain ⟨v, hv⟩ := exists_of_readKnob (hk.trans (congrArg _ hx))
            exact Kind.inRange_of_read hv
  · cases h

end Config

/-- The library reads the document that it printed. -/
def TomlLib.Keeps (lib : TomlLib) (doc : List (List Char × Toml.Value)) : Prop :=
  (lib.parse (lib.print doc)).map Toml.Table.entries = some doc

/-! ## The same configuration -/

namespace Kind

/-- Equal, any two NaN being so. -/
def Same : (k : Kind) → k.Store → k.Store → Prop
  | ambient, x, y => x = y ∨ Ieee.Bits.isNaN x ∧ Ieee.Bits.isNaN y
  | text, x, y | textOr _, x, y | nonempty, x, y | oneOf _ _ _, x, y | board, x, y
  | bootPref, x, y | flag, x, y | coupling, x, y | dec _, x, y | decOr _ _, x, y
  | positive _ _, x, y | hex _, x, y | rotdump, x, y => x = y

theorem same_refl (k : Kind) (x : k.Store) : k.Same x x := by
  cases k with
  | ambient => exact .inl rfl
  | _ => rfl

theorem same_quietF32 (x : Ieee.F32) : Same ambient (quietF32 x) x := by
  by_cases h : x.isNaN
  · exact .inr ⟨isNaN_quietF32.mpr h, h⟩
  · exact .inl (if_neg h)

/-- Quieting a field changes nothing else. -/
theorem ingest_quiet {k : Kind} {o : Option k.Ext} {y : k.Store} (h : k.ingest o = .ok y) :
    ∃ y', k.ingest (o.map k.quiet) = .ok y' ∧ k.Same y' y := by
  cases o with
  | none => exact ⟨y, h, k.same_refl y⟩
  | some x =>
      cases k with
      | ambient =>
          cases h
          exact ⟨_, rfl, same_quietF32 x⟩
      | _ => exact ⟨y, h, rfl⟩

end Kind

namespace Config

def Same (c c' : Config) : Prop := ∀ k : Knob, k.kind.Same (c k) (c' k)

theorem ingest_quiet {ext : ConfigFileV1} {c : Config} (h : ingest ext = .ok c) :
    ∃ c', ingest (quiet ext) = .ok c' ∧ Same c' c := by
  have hknob := fun k => Kind.ingest_quiet (ingest_eq_ok.mp h k)
  choose c' hc' hsame using hknob
  exact ⟨c', ingest_eq_ok.mpr hc', hsame⟩

theorem fits_quiet {ext : ConfigFileV1} : Fits (quiet ext) ↔ Fits ext := by
  constructor
  · intro h k x hx
    exact Kind.inRange_quiet.mp (h k _ (congrArg (Option.map k.kind.quiet) hx))
  · intro h k x hx
    obtain ⟨y, hy, rfl⟩ := Option.map_eq_some_iff.mp hx
    exact Kind.inRange_quiet.mpr (h k y hy)

theorem document_quiet (ext : ConfigFileV1) : document (quiet ext) = document ext := by
  have hsection : sectionTable (quiet ext) = sectionTable ext := by
    funext s
    have hwritten : (fun k => ((quiet ext).knobs k).map k.kind.written) =
        fun k => (ext.knobs k).map k.kind.written := by
      funext k
      rw [quiet, Option.map_map]
      cases ext.knobs k with
      | none => rfl
      | some x => exact congrArg some (k.kind.written_quiet x)
    have hset : ∀ k : Knob, ((quiet ext).knobs k).isNone = (ext.knobs k).isNone := by
      intro k
      rw [quiet, Option.isNone_map]
    simp only [sectionTable, hwritten, hset]
  rw [document, document, hsection]
  rfl

/-! ## Upgrade -/

variable {lib : TomlLib} {text : List Char} {ext : ConfigFileV1} {c : Config}

/-- With the version of this build. -/
def stamped (ext : ConfigFileV1) : ConfigFileV1 := { ext with schemaVersion := some current }

theorem toToml_of_fits (h : Fits ext) : toToml lib ext = .ok (lib.print (document ext)) := by
  rw [toToml, serialize_of_fits h]
  rfl

/-- A printed file migrates to what was printed. -/
theorem migrate_print (h : Fits ext) (hversion : ext.schemaVersion = some current)
    (hlib : lib.Keeps (document ext)) :
    migrate lib (lib.print (document ext)) = .ok (quiet ext) := by
  obtain ⟨t, ht, hentries⟩ := Option.map_eq_some_iff.mp hlib
  have hpeek : peekVersion lib (lib.print (document ext)) = .ok (.known current) := by
    rw [peekVersion, ht]
    dsimp only
    rw [hentries, readVersion_document, hversion]
    rfl
  have hrest : deserialize t.entries = .ok (quiet ext) := by
    rw [hentries, deserialize_document h]
  simp only [migrate, hpeek, ht, hrest, current, bind, Except.bind]
  rfl

theorem upgrade_eq (hmigrate : migrate lib text = .ok ext) (hingest : ingest ext = .ok c) :
    upgrade lib text = toToml lib (stamped ext) := by
  rw [upgrade, hmigrate]
  show (ingest ext).bind (fun _ => toToml lib (stamped ext)) = _
  rw [hingest]
  rfl

/-- The text that is printed loads to the same configuration and is a fixed point. -/
def Upgrades (lib : TomlLib) (text : List Char) (c : Config) : Prop :=
  ∃ text', upgrade lib text = .ok text' ∧ (∃ c', loadStr lib text' = .ok c' ∧ Same c' c) ∧
    upgrade lib text' = .ok text'

theorem upgrades_iff (hmigrate : migrate lib text = .ok ext) (hingest : ingest ext = .ok c)
    (hlib : Fits ext → lib.Keeps (document (stamped ext))) :
    Upgrades lib text c ↔ Fits ext := by
  constructor
  · rintro ⟨text', hup, -, -⟩
    by_contra hnot
    have hstamped : ¬ Fits (stamped ext) := hnot
    obtain ⟨e, he⟩ := serialize_of_not_fits hstamped
    rw [upgrade_eq hmigrate hingest, toToml, he] at hup
    cases hup
  · intro hfits
    have hstamped : Fits (stamped ext) := hfits
    have hprint := migrate_print hstamped rfl (hlib hfits)
    have hread : ingest (stamped ext) = .ok c := hingest
    obtain ⟨c', hc', hsame⟩ := ingest_quiet hread
    refine ⟨_, by rw [upgrade_eq hmigrate hingest, toToml_of_fits hstamped], ⟨c', ?_, hsame⟩, ?_⟩
    · rw [loadStr, hprint]
      exact hc'
    · have hagain : toToml lib _ = _ := toToml_of_fits (fits_quiet.mpr hstamped)
      rw [document_quiet] at hagain
      rw [upgrade_eq hprint hc']
      exact hagain

end Config

/-! ## Dump -/

namespace Kind

/-- A hexadecimal digit is none of the characters around it. -/
theorem digit_ne {radix : Nat} (hone : 1 < radix) (hr : radix ≤ 16) {n : Nat} {c : Char}
    (h : c ∈ Nat.toDigits radix n) : Text.isWhitespace c = false ∧ c ≠ ':' ∧ c ≠ 'x' := by
  obtain ⟨d, hd, rfl⟩ := Numeral.exists_of_mem_toDigits hone h
  have hall : ∀ e < 16, Text.isWhitespace (Nat.digitChar e) = false ∧ Nat.digitChar e ≠ ':' ∧
      Nat.digitChar e ≠ 'x' := by decide
  exact hall d (Nat.lt_of_lt_of_le hd hr)

theorem trimStart0x_of_no_x {s : List Char} (h : 'x' ∉ s) : trimStart0x s = s := by
  unfold trimStart0x
  split
  · exact absurd (List.mem_cons_of_mem _ List.mem_cons_self) h
  · rfl

theorem parseRotdump_rotdumpText (w : BitVec 32 × BitVec 32) :
    parseRotdump (rotdumpText w) = some w := by
  obtain ⟨a, l⟩ := w
  have hhex : ∀ c ∈ Nat.toDigits 16 a.toNat,
      Text.isWhitespace c = false ∧ c ≠ ':' ∧ c ≠ 'x' := fun c => digit_ne (by decide) (by decide)
  have hdec : ∀ c ∈ Nat.toDigits 10 l.toNat, Text.isWhitespace c = false :=
    fun c hc => (digit_ne (by decide) (by decide) hc).1
  have hcolon : ':' ∉ "0x".toList ++ Nat.toDigits 16 a.toNat := by
    intro h
    rcases List.mem_append.mp h with h | h
    · exact absurd h (by decide)
    · exact (hhex _ h).2.1 rfl
  have htrim : Text.trim ("0x".toList ++ Nat.toDigits 16 a.toNat) =
      "0x".toList ++ Nat.toDigits 16 a.toNat := by
    refine Text.trim_of_no_white fun c hc => ?_
    rcases List.mem_append.mp hc with hc | hc
    · have hall : "0x".toList.all (fun c => !Text.isWhitespace c) = true := by decide
      simpa using List.all_eq_true.mp hall c hc
    · exact (hhex c hc).1
  have hstart : trimStart0x ("0x".toList ++ Nat.toDigits 16 a.toNat) = Nat.toDigits 16 a.toNat :=
    trimStart0x_of_no_x fun h => (hhex _ h).2.2 rfl
  have haddr : Numeral.parseUInt 16 32 (trimStart0x (Text.trim
      ("0x".toList ++ Nat.toDigits 16 a.toNat))) = some a.toNat := by
    rw [htrim, hstart, Numeral.parseUInt_toDigits (by decide) (by decide) a.isLt]
  have hlen : Config.dec 32 (Text.trim (Nat.toDigits 10 l.toNat)) = some l := by
    rw [Text.trim_of_no_white hdec, Config.dec,
      Numeral.parseUInt_toDigits (by decide) (by decide) l.isLt, Option.map_some,
      BitVec.ofNat_toNat, BitVec.setWidth_eq]
  rw [parseRotdump, rotdumpText, Text.splitOnce_append hcolon]
  simp only [Option.bind_eq_bind, Option.bind_some, haddr, hlen, BitVec.ofNat_toNat,
    BitVec.setWidth_eq]

theorem oneOf_idem {path : List Char} {allowed : List (List Char)} {o x : Option (List Char)}
    (h : Config.oneOf path allowed o = .ok x) : Config.oneOf path allowed x = .ok x := by
  unfold Config.oneOf at h
  split at h
  · cases h
    rfl
  · next s hs =>
      split at h
      · next hmem =>
          cases h
          obtain ⟨-, hne⟩ := Option.filter_eq_some_iff.mp hs
          rw [oneOf_eq (by simpa using hne), if_pos hmem]
      · cases h

theorem nonempty_idem (o : Option (List Char)) :
    Config.nonempty (Config.nonempty o) = Config.nonempty o := by
  rw [Config.nonempty, Config.nonempty, Option.filter_filter]
  simp

/-- A default stays, be it positive or not. -/
theorem positive_idem {w : Nat} (d : BitVec w) (o : Option (BitVec w)) :
    ((some ((o.filter fun n => 0 < n).getD d)).filter fun n => 0 < n).getD d =
      (o.filter fun n => 0 < n).getD d := by
  rw [Option.filter_some]
  split
  · rfl
  · next hnot =>
      cases h : o.filter fun n => 0 < n with
      | none => rfl
      | some n =>
          obtain ⟨-, hn⟩ := Option.filter_eq_some_iff.mp h
          rw [h] at hnot
          exact absurd hn hnot

/-- A value that `ingest` gave is what it gives again. -/
theorem ingest_toExternal {k : Kind} {o : Option k.Ext} {x : k.Store} (h : k.ingest o = .ok x) :
    k.ingest (k.toExternal x) = .ok x := by
  cases k with
  | nonempty =>
      cases h
      exact congrArg Except.ok (nonempty_idem o)
  | oneOf path a b => exact oneOf_idem h
  | bootPref => exact oneOf_idem h
  | board =>
      cases x with
      | gimlet => rfl
      | sidecar => rfl
  | positive w d =>
      cases h
      exact congrArg Except.ok (positive_idem (BitVec.ofNat w d) o)
  | rotdump =>
      cases x with
      | none => rfl
      | some w => exact rotdump_of_parse (parseRotdump_rotdumpText w)
  | _ => rfl

end Kind

namespace Config

variable {lib : TomlLib} {c : Config}

/-- `ingest` can give it. -/
def Produced (c : Config) : Prop := ∃ ext, ingest ext = .ok c

/-- The dump is written, and loads to the same configuration. -/
def DumpReloads (lib : TomlLib) (c : Config) : Prop :=
  ∃ text, dump lib c = .ok text ∧ loadStr lib text = .ok c

theorem ingest_configToExternal (h : Produced c) : ingest (configToExternal c) = .ok c := by
  obtain ⟨ext, hext⟩ := h
  exact ingest_eq_ok.mpr fun k => Kind.ingest_toExternal (ingest_eq_ok.mp hext k)

theorem quiet_configToExternal (h : Ieee.Bits.isFinite (c .ambientC)) :
    quiet (configToExternal c) = configToExternal c := by
  have hknobs : (quiet (configToExternal c)).knobs = (configToExternal c).knobs := by
    funext k
    by_cases hk : k = .ambientC
    · subst hk
      have hnot : ¬ Ieee.Bits.isNaN (c .ambientC) := fun hnan => h hnan.1
      exact congrArg some (if_neg hnot : Kind.quietF32 (c .ambientC) = c .ambientC)
    · have hkind : ∀ x : k.kind.Ext, k.kind.quiet x = x := by
        revert hk
        cases k <;> first | exact fun h => absurd rfl h | exact fun _ _ => rfl
      show ((configToExternal c).knobs k).map k.kind.quiet = _
      cases (configToExternal c).knobs k with
      | none => rfl
      | some x => exact congrArg some (hkind x)
  exact ConfigFileV1.ext rfl hknobs

theorem dumpReloads_iff (hprod : Produced c) (hfin : Ieee.Bits.isFinite (c .ambientC))
    (hlib : Fits (configToExternal c) → lib.Keeps (document (configToExternal c))) :
    DumpReloads lib c ↔ Fits (configToExternal c) := by
  constructor
  · rintro ⟨text, hdump, -⟩
    by_contra hnot
    obtain ⟨e, he⟩ := serialize_of_not_fits hnot
    rw [dump, toToml, he] at hdump
    cases hdump
  · intro hfits
    refine ⟨_, toToml_of_fits hfits, ?_⟩
    rw [loadStr, migrate_print hfits rfl (hlib hfits), quiet_configToExternal hfin]
    exact ingest_configToExternal hprod

/-! ## Round trips -/

/-- What is written is read again, exactly if every integer is below 2^63. -/
theorem round_trip_iff (lib : TomlLib) :
    (∀ text ext c, migrate lib text = .ok ext → ingest ext = .ok c →
      (Fits ext → lib.Keeps (document (stamped ext))) → (Upgrades lib text c ↔ Fits ext)) ∧
    ∀ c, Produced c → Ieee.Bits.isFinite (c .ambientC) →
      (Fits (configToExternal c) → lib.Keeps (document (configToExternal c))) →
        (DumpReloads lib c ↔ Fits (configToExternal c)) :=
  ⟨fun _ _ _ hmigrate hingest hlib => upgrades_iff hmigrate hingest hlib,
    fun _ hprod hfin hlib => dumpReloads_iff hprod hfin hlib⟩

/-! A flat file with an instruction budget. -/

def runMaxTable (s : List Char) : Toml.Table :=
  ⟨[("SP_EMU_RUN_MAX".toList, .string s)], List.nodup_singleton _⟩

def runMaxText (s : List Char) : List Char :=
  "SP_EMU_RUN_MAX = \"".toList ++ s ++ "\"\n".toList

def runMaxFile (s : List Char) : ConfigFileV1 :=
  fileOf fun n => if n = Knob.runMax.name then some s else none

theorem knobs_runMaxFile {s : List Char} {k : Knob} {x : k.kind.Ext}
    (h : (runMaxFile s).knobs k = some x) : k = .runMax := by
  by_contra hk
  have hname : k.name ≠ Knob.runMax.name := fun h => hk (Knob.name_injective h)
  rw [runMaxFile, fileOf] at h
  dsimp only at h
  rw [if_neg hname] at h
  cases h

theorem exists_ingest_runMaxFile (s : List Char) : ∃ c, ingest (runMaxFile s) = .ok c := by
  have hknob : ∀ k : Knob, ∃ x, k.kind.ingest ((runMaxFile s).knobs k) = .ok x := by
    intro k
    cases hx : (runMaxFile s).knobs k with
    | none => exact Kind.ingest_none_eq_ok k.kind
    | some x =>
        obtain rfl := knobs_runMaxFile hx
        exact ⟨some x, rfl⟩
  choose c hc using hknob
  exact ⟨c, ingest_eq_ok.mpr hc⟩

theorem migrate_runMax {lib : TomlLib} {s : List Char}
    (h : lib.parse (runMaxText s) = some (runMaxTable s)) :
    migrate lib (runMaxText s) = .ok (runMaxFile s) := by
  have hversion : (runMaxTable s).entries.lookup schemaKey = none :=
    Keyed.lookup_cons_of_ne (by decide) _ _
  have hpeek : peekVersion lib (runMaxText s) = .ok .legacyFlat := by
    rw [peekVersion, h]
    dsimp only
    rw [readVersion, hversion]
    rfl
  rw [migrate, hpeek]
  show flatToV1 lib (runMaxText s) = _
  rw [flatToV1_eq h, runMaxFile]
  congr 2
  funext n
  by_cases hn : n = Knob.runMax.name
  · rw [if_pos hn]
    subst hn
    exact congrArg (Option.map _) (Keyed.lookup_cons_self _ _ _)
  · rw [if_neg hn]
    exact congrArg (Option.map _) (Keyed.lookup_cons_of_ne hn _ _)

theorem knobs_runMax (s : List Char) : (runMaxFile s).knobs .runMax = Config.dec 64 s := by
  rw [runMaxFile, fileOf]
  dsimp only
  rw [if_pos rfl, Option.bind_some]
  rfl

theorem not_fits_runMax : ¬ Fits (runMaxFile "9223372036854775808".toList) := by
  intro h
  have hvalue := (knobs_runMax "9223372036854775808".toList).trans
    (by decide : Config.dec 64 "9223372036854775808".toList = some (BitVec.ofNat 64 (2 ^ 63)))
  have hrange : (BitVec.ofNat 64 (2 ^ 63)).toNat < 2 ^ 63 := h .runMax _ hvalue
  exact absurd hrange (by decide)

theorem fits_runMax : Fits (runMaxFile "5".toList) := by
  intro k x hx
  obtain rfl := knobs_runMaxFile hx
  have hvalue := (knobs_runMax "5".toList).trans
    (by decide : Config.dec 64 "5".toList = some (BitVec.ofNat 64 5))
  cases hx.symm.trans hvalue
  show (BitVec.ofNat 64 5).toNat < 2 ^ 63
  decide

/-- A library as far as the flat file and its upgrade go. -/
def runMaxLib : TomlLib :=
  { TomlLib.ofText (runMaxText "5".toList) (runMaxTable "5".toList) with
    parse := fun s =>
      if s = runMaxText "5".toList then some (runMaxTable "5".toList)
      else if s = "schema_version = 1\n\n[op]\nrun_max = 5\n".toList then
        some ⟨document (stamped (runMaxFile "5".toList)), nodup_document _⟩
      else none
    print := fun _ => "schema_version = 1\n\n[op]\nrun_max = 5\n".toList }

theorem round_trip_iff_runMax : ∃ c, Upgrades runMaxLib (runMaxText "5".toList) c := by
  obtain ⟨c, hc⟩ := exists_ingest_runMaxFile "5".toList
  have hparse : runMaxLib.parse (runMaxText "5".toList) = some (runMaxTable "5".toList) := by
    rw [runMaxLib]
    dsimp only
    rw [if_pos rfl]
  have hmigrate := migrate_runMax hparse
  have hlib : runMaxLib.Keeps (document (stamped (runMaxFile "5".toList))) := by
    have hne : "schema_version = 1\n\n[op]\nrun_max = 5\n".toList ≠ runMaxText "5".toList := by
      decide
    rw [TomlLib.Keeps, runMaxLib]
    dsimp only
    rw [if_neg hne, if_pos rfl]
    rfl
  exact ⟨c, ((round_trip_iff runMaxLib).1 _ _ c hmigrate hc fun _ => hlib).mpr fits_runMax⟩

/-- A budget of 2^63 is read, and cannot be upgraded. -/
theorem not_upgrades : ¬ ∀ (lib : TomlLib) (text : List Char) (ext : ConfigFileV1) (c : Config),
    migrate lib text = .ok ext → ingest ext = .ok c →
      (Fits ext → lib.Keeps (document (stamped ext))) → Upgrades lib text c := by
  intro hall
  have hmigrate := migrate_runMax
    (TomlLib.parse_ofText (runMaxText "9223372036854775808".toList) (runMaxTable _))
  obtain ⟨c, hc⟩ := exists_ingest_runMaxFile "9223372036854775808".toList
  have hup := hall _ _ _ c hmigrate hc fun h => absurd h not_fits_runMax
  exact not_fits_runMax ((upgrades_iff hmigrate hc fun h => absurd h not_fits_runMax).mp hup)

end Config

end SpEmu
