import SpEmu.Config.Typed

/-!
# The two readers of a flat file

`--load-config` and the typed tools make the same text of a string, an integer or a float, but not
of a boolean: the one takes `true` for `"1"` and leaves out `false`, the other has `"true"` and
`"false"`. A date, an array or a table is left out by the one and printed by the other. Whether
that shows depends on the knob (`Kind.Agrees`): a flag is switched on by `false`, a number drops a
word either way.

`agree_iff` says exactly on which flat texts the two give the same configuration, or both none.
-/

set_option autoImplicit false

namespace SpEmu

open Config

/-! ## Texts that mean nothing to a knob -/

namespace Kind

/-- The texts that the kind tells from others. -/
def words : Kind → List (List Char)
  | textOr d => [d.toList]
  | oneOf _ a b => [a.toList, b.toList]
  | board => ["sidecar".toList]
  | bootPref => ["a".toList, "b".toList]
  | coupling => ["0".toList]
  | text | nonempty | flag | dec _ | decOr _ _ | positive _ _ | hex _ | ambient | rotdump => []

/-- A letter or `0` at the front, and then no digit. -/
def plainWord : List Char → Bool
  | [] => true
  | c :: cs => (('a' ≤ c && c ≤ 'z') || c == '0') && !Ieee.isDigit (cs.headD 'x')

end Kind

theorem Knob.plainWord_of_mem_words (k : Knob) : ∀ w ∈ k.kind.words, Kind.plainWord w = true := by
  cases k <;> decide +kernel

/-- A text that is no number, no window and no word of any knob. -/
structure Meaningless (s : List Char) : Prop where
  ne_nil : s ≠ []
  word (k : Knob) : s ∉ k.kind.words
  dec (w : Nat) : Config.dec w s = none
  hex (w : Nat) : Config.hex w s = none
  ambient : Ieee.parseF32 (Text.trim s) = none
  rotdump : parseRotdump s = none

namespace Config

theorem mem_trimStart0x {s : List Char} {c : Char} (h : c ∈ s) (h0 : c ≠ '0') (hx : c ≠ 'x') :
    c ∈ trimStart0x s := by
  induction s using trimStart0x.induct with
  | case1 cs ih =>
      rw [trimStart0x]
      refine ih ?_
      simpa [h0, hx] using h
  | case2 cs hne =>
      rw [trimStart0x]
      · exact h
      · exact hne

/-- A character that no number has. -/
structure NoNumber (c : Char) : Prop where
  white : Text.isWhitespace c = false
  plus : c ≠ '+'
  x : c ≠ 'x'
  dec : Numeral.toDigit 10 c = none
  hex : Numeral.toDigit 16 c = none

namespace NoNumber

variable {c : Char} (hc : NoNumber c) {s : List Char}

include hc

theorem parse_hex (h : c ∈ s) (w : Nat) :
    Numeral.parseUInt 16 w (trimStart0x (Text.trim s)) = none := by
  have h0 : c ≠ '0' := by
    rintro rfl
    exact absurd hc.dec (by decide)
  exact Numeral.parseUInt_of_not_digit
    (mem_trimStart0x (Text.mem_trim_of_mem h hc.white) h0 hc.x) hc.plus hc.hex

theorem dec_eq_none (h : c ∈ s) (w : Nat) : Config.dec w s = none := by
  rw [Config.dec, Numeral.parseUInt_of_not_digit h hc.plus hc.dec, Option.map_none]

theorem hex_eq_none (h : c ∈ s) (w : Nat) : Config.hex w s = none := by
  rw [Config.hex, hc.parse_hex h]
  rfl

/-- It is in what stands before the first colon. -/
theorem rotdump_of_before (h : ∀ a l, Text.splitOnce ':' s = some (a, l) → c ∈ a) :
    parseRotdump s = none := by
  rw [parseRotdump]
  cases hs : Text.splitOnce ':' s with
  | none => rfl
  | some al =>
      obtain ⟨a, l⟩ := al
      rw [Option.bind_eq_bind, Option.bind_some]
      dsimp only
      rw [hc.parse_hex (h a l hs)]
      rfl

/-- It is in what stands after the first colon. -/
theorem rotdump_of_after (h : ∀ a l, Text.splitOnce ':' s = some (a, l) → c ∈ l) :
    parseRotdump s = none := by
  rw [parseRotdump]
  cases hs : Text.splitOnce ':' s with
  | none => rfl
  | some al =>
      obtain ⟨a, l⟩ := al
      rw [Option.bind_eq_bind, Option.bind_some]
      dsimp only
      rw [hc.dec_eq_none (Text.mem_trim_of_mem (h a l hs) hc.white)]
      cases Numeral.parseUInt 16 32 (trimStart0x (Text.trim a)) <;> rfl

end NoNumber

end Config

namespace Meaningless

theorem of_word {s : List Char} {c : Char} (hc : NoNumber c) (hmem : c ∈ s)
    (hword : ∀ k : Knob, s ∉ k.kind.words) (hambient : Ieee.parseF32 (Text.trim s) = none)
    (hcolon : Text.splitOnce ':' s = none) : Meaningless s where
  ne_nil := List.ne_nil_of_mem hmem
  word := hword
  dec := hc.dec_eq_none hmem
  hex := hc.hex_eq_none hmem
  ambient := hambient
  rotdump := by
    refine hc.rotdump_of_before fun a l h => ?_
    rw [hcolon] at h
    cases h

theorem noNumber_t : NoNumber 't' := by constructor <;> decide

theorem noNumber_l : NoNumber 'l' := by constructor <;> decide

theorem of_true : Meaningless "true".toList :=
  of_word noNumber_t (by decide) (fun k => by cases k <;> decide) (by decide) (by decide)

theorem of_false : Meaningless "false".toList :=
  of_word noNumber_l (by decide) (fun k => by cases k <;> decide) (by decide) (by decide)

/-- A text with a bracket at its front. -/
theorem of_bracket {c : Char} (hc : c = '[' ∨ c = '{') (t : List Char) : Meaningless (c :: t) := by
  have hno : NoNumber c := by rcases hc with rfl | rfl <;> constructor <;> decide
  have hword : Kind.plainWord (c :: t) = false := by rcases hc with rfl | rfl <;> rfl
  have hcolon : c ≠ ':' := by rcases hc with rfl | rfl <;> decide
  refine ⟨List.cons_ne_nil c t, fun k hmem => ?_, hno.dec_eq_none List.mem_cons_self,
    hno.hex_eq_none List.mem_cons_self, ?_, hno.rotdump_of_before fun a l h => ?_⟩
  · rw [k.plainWord_of_mem_words _ hmem] at hword
    cases hword
  · obtain ⟨t', ht'⟩ := Text.exists_trim_cons hno.white t
    rw [ht']
    rcases hc with rfl | rfl <;> exact Ieee.parseF32_of_head (by decide) (by decide) (by decide)
      (by decide) (by decide) (by decide) t'
  · rw [Text.splitOnce, if_neg hcolon] at h
    obtain ⟨kv, -, heq⟩ := Option.map_eq_some_iff.mp h
    rw [← (Prod.mk.inj heq).1]
    exact List.mem_cons_self

theorem isWhitespace_of_isDigit {c : Char} (h : Ieee.isDigit c = true) :
    Text.isWhitespace c = false := by
  simp only [Ieee.isDigit, Bool.and_eq_true, decide_eq_true_eq, Char.le_def,
    UInt32.le_iff_toNat_le] at h
  have hlow : 48 ≤ c.toNat := h.1
  have hhigh : c.toNat ≤ 57 := h.2
  simp only [Text.isWhitespace, Bool.or_eq_false_iff, Bool.and_eq_false_iff,
    decide_eq_false_iff_not, beq_eq_false_iff_ne]
  omega

theorem of_datetime (dt : Toml.Datetime) : Meaningless dt.toText := by
  obtain ⟨d, e, ds, c, t, hds, hc, htext⟩ := dt.toText_begins
  have hno : NoNumber c := by rcases hc with rfl | ⟨rfl, -⟩ <;> constructor <;> decide
  have hdigit : ∀ {x : Char}, Ieee.isDigit x = false → x ∉ d :: e :: ds := by
    intro x hx hmem
    rw [hds x hmem] at hx
    cases hx
  have hcdigit : Ieee.isDigit c = false := by rcases hc with rfl | ⟨rfl, -⟩ <;> rfl
  have htext' : dt.toText = (d :: e :: ds) ++ c :: t := htext
  have hmem : c ∈ dt.toText := htext' ▸ List.mem_append_right _ List.mem_cons_self
  refine ⟨List.ne_nil_of_mem hmem, fun k hword => ?_, hno.dec_eq_none hmem, hno.hex_eq_none hmem,
    ?_, ?_⟩
  · -- The second character of a word is no digit.
    have hplain := k.plainWord_of_mem_words _ hword
    rw [htext, Kind.plainWord, List.headD_cons, hds e (by simp), Bool.not_true, Bool.and_false]
      at hplain
    cases hplain
  · obtain ⟨t', ht'⟩ := Text.exists_trim_append (isWhitespace_of_isDigit (hds d (by simp)))
      hno.white (e :: ds) t
    have htrim : Text.trim dt.toText = d :: ((e :: ds) ++ c :: t') := by rw [htext]; exact ht'
    rw [htrim]
    refine Ieee.parseF32_of_digits (hds d (by simp)) (fun x hx => hds x (List.mem_cons_of_mem d hx))
      hcdigit ?_ ?_ ?_ t' <;> rcases hc with rfl | ⟨rfl, -⟩ <;> decide
  · rcases hc with rfl | ⟨rfl, hlater⟩
    · refine hno.rotdump_of_before fun a l h => ?_
      rw [htext'] at h
      exact Text.mem_fst_of_splitOnce (hdigit rfl) (by decide) h
    · refine hno.rotdump_of_after fun a l h => ?_
      rw [htext', Text.splitOnce_append (hdigit rfl)] at h
      cases h
      exact hlater

end Meaningless

/-! ## One knob -/

namespace Kind

/-- A text that is none of its words is like no text. -/
def ignoresWords : Kind → Bool
  | coupling | board | bootPref | rotdump => true
  | _ => false

def isNumber : Kind → Bool
  | dec _ | decOr _ _ | positive _ _ | hex _ | ambient => true
  | _ => false

/-- The number one fits, and is not the default. -/
def oneCounts : Kind → Bool
  | dec w | hex w => 0 < w
  | decOr w d | positive w d => 0 < w && BitVec.ofNat w 1 != BitVec.ofNat w d
  | _ => true

/-- Either reading of the value does the same to the knob. -/
def Agrees (k : Kind) : Toml.Value → Prop
  | .string _ | .integer _ | .float _ => True
  | .boolean true => k.ignoresWords ∨ k = flag
  | .boolean false | .datetime _ | .array _ | .table _ => k.ignoresWords ∨ k.isNumber

variable {k : Kind} {s : List Char}

theorem ingest_meaningless (hs : Meaningless s) (hword : s ∉ k.words)
    (h : k.ignoresWords = true ∨ k.isNumber = true) :
    k.ingest (k.set s none) = k.ingest none := by
  cases k with
  | coupling =>
      have hne : s ≠ "0".toList := by simpa [words] using hword
      rw [set, decide_eq_true hne]
      rfl
  | board => rw [set, if_neg (by simpa [words] using hword)]
  | bootPref => rw [set, if_neg (by simpa [words] using hword)]
  | rotdump => rw [set, hs.rotdump]; rfl
  | dec w => exact congrArg (ingest _) (hs.dec w)
  | decOr w d => exact congrArg (ingest _) (hs.dec w)
  | positive w d => exact congrArg (ingest _) (hs.dec w)
  | hex w => exact congrArg (ingest _) (hs.hex w)
  | ambient => exact congrArg (ingest _) hs.ambient
  | _ => simp [ignoresWords, isNumber] at h

theorem ingest_meaningless_ne (hs : Meaningless s) (hword : s ∉ k.words)
    (h : ¬ (k.ignoresWords = true ∨ k.isNumber = true)) :
    k.ingest (k.set s none) ≠ k.ingest none := by
  cases k with
  | text => rintro ⟨⟩
  | textOr d =>
      intro heq
      have hd : s = d.toList := Except.ok.inj heq
      exact hword (hd ▸ List.mem_cons_self)
  | nonempty =>
      intro heq
      have hnone : Config.nonempty (some s) = none := Except.ok.inj heq
      rw [Config.nonempty, Option.filter_some, if_pos (by simpa using hs.ne_nil)] at hnone
      cases hnone
  | oneOf path a b =>
      intro heq
      have hok : Config.oneOf path.toList [a.toList, b.toList] (some s) = .ok none := heq
      have hnot : s ∉ [a.toList, b.toList] := hword
      rw [(oneOf_eq hs.ne_nil).trans (if_neg hnot)] at hok
      cases hok
  | flag => rintro ⟨⟩
  | _ => exact absurd (by simp [ignoresWords, isNumber]) h

theorem dec_one {w : Nat} (hw : 0 < w) : Config.dec w "1".toList = some (BitVec.ofNat w 1) := by
  have hfit : 1 < 2 ^ w := Nat.one_lt_two_pow (Nat.pos_iff_ne_zero.mp hw)
  have hparse : Numeral.parseUInt 10 w "1".toList = some 1 := by
    show (some 1 : Option Nat).filter (· < 2 ^ w) = some 1
    rw [Option.filter_some, if_pos (by simpa using hfit)]
  rw [Config.dec, hparse, Option.map_some]

theorem hex_one {w : Nat} (hw : 0 < w) : Config.hex w "1".toList = some (BitVec.ofNat w 1) := by
  have hfit : 1 < 2 ^ w := Nat.one_lt_two_pow (Nat.pos_iff_ne_zero.mp hw)
  have hparse : Numeral.parseUInt 16 64 (trimStart0x (Text.trim "1".toList)) = some 1 := by decide
  rw [Config.hex, hparse, Option.filter_some, if_pos (by simpa using hfit), Option.map_some]

/-- `true` is `"1"` to the one reader and `"true"` to the other. -/
theorem ingest_true (h : k.ignoresWords = true ∨ k = flag) :
    k.ingest (k.set "1".toList none) = k.ingest (k.set "true".toList none) := by
  cases k with
  | flag | coupling | board | bootPref | rotdump => rfl
  | _ => simp [ignoresWords] at h

theorem oneOf_eq_ok {path : List Char} {allowed : List (List Char)} (hs : s ≠ [])
    {x : Option (List Char)} (h : Config.oneOf path allowed (some s) = .ok x) : x = some s := by
  rw [oneOf_eq hs] at h
  split at h
  · exact (Except.ok.inj h).symm
  · cases h

theorem ingest_true_ne (h : ¬ (k.ignoresWords = true ∨ k = flag)) (hone : k.oneCounts = true)
    {x : k.Store} (hx : k.ingest (k.set "1".toList none) = .ok x) :
    k.ingest (k.set "true".toList none) ≠ .ok x := by
  have htrue := Meaningless.of_true
  intro hy
  have heq := hx.trans hy.symm
  cases k with
  | text =>
      have hne : some "1".toList = some "true".toList := Except.ok.inj heq
      exact absurd hne (by decide)
  | textOr d =>
      have hne : "1".toList = "true".toList := Except.ok.inj heq
      exact absurd hne (by decide)
  | nonempty =>
      have hne : some "1".toList = some "true".toList := Except.ok.inj heq
      exact absurd hne (by decide)
  | oneOf path a b =>
      have hx' : x = some "1".toList := oneOf_eq_ok (by decide) hx
      have hy' : x = some "true".toList := oneOf_eq_ok (by decide) hy
      have hne : some "1".toList = some "true".toList := hx'.symm.trans hy'
      exact absurd hne (by decide)
  | dec w =>
      have hopt : Config.dec w "1".toList = Config.dec w "true".toList := Except.ok.inj heq
      rw [dec_one (of_decide_eq_true hone), htrue.dec] at hopt
      cases hopt
  | decOr w d =>
      have hopt : (Config.dec w "1".toList).getD (BitVec.ofNat w d) =
          (Config.dec w "true".toList).getD (BitVec.ofNat w d) := Except.ok.inj heq
      obtain ⟨hw, hd⟩ : 0 < w ∧ BitVec.ofNat w 1 ≠ BitVec.ofNat w d := by
        simpa [oneCounts] using hone
      rw [dec_one hw, htrue.dec] at hopt
      exact hd hopt
  | positive w d =>
      have hopt : ((Config.dec w "1".toList).filter fun n => 0 < n).getD (BitVec.ofNat w d) =
          ((Config.dec w "true".toList).filter fun n => 0 < n).getD (BitVec.ofNat w d) :=
        Except.ok.inj heq
      obtain ⟨hw, hd⟩ : 0 < w ∧ BitVec.ofNat w 1 ≠ BitVec.ofNat w d := by
        simpa [oneCounts] using hone
      have hpos : 0 < BitVec.ofNat w 1 := by
        rw [BitVec.lt_def, BitVec.toNat_ofNat,
          Nat.mod_eq_of_lt (Nat.one_lt_two_pow (Nat.pos_iff_ne_zero.mp hw))]
        simp
      rw [dec_one hw, htrue.dec, Option.filter_some, if_pos (decide_eq_true hpos)] at hopt
      exact hd hopt
  | hex w =>
      have hopt : Config.hex w "1".toList = Config.hex w "true".toList := Except.ok.inj heq
      rw [hex_one (of_decide_eq_true hone), htrue.hex] at hopt
      cases hopt
  | ambient =>
      have hopt : (Ieee.parseF32 (Text.trim "1".toList)).getD ⟨false, 131, 0x700000⟩ =
          (Ieee.parseF32 (Text.trim "true".toList)).getD ⟨false, 131, 0x700000⟩ :=
        Except.ok.inj heq
      have hparse : Ieee.parseF32 (Text.trim "1".toList) = some ⟨false, 127, 0⟩ := by decide
      rw [hparse, htrue.ambient] at hopt
      exact absurd hopt (by decide)
  | _ => exact absurd (by simp [ignoresWords]) h

end Kind

theorem Knob.oneCounts (k : Knob) : k.kind.oneCounts = true := by
  cases k <;> simp [kind, row, Kind.oneCounts]

/-! ## The whole file -/

/-- How the library prints what is not a scalar. -/
structure TomlLib.Brackets (lib : TomlLib) : Prop where
  array (vs : List Toml.Value) : ∃ t, lib.arrayText vs = '[' :: t
  table (kvs : List (List Char × Toml.Value)) : ∃ t, lib.tableText kvs = '{' :: t

namespace Config

variable {lib : TomlLib}

/-- What is skipped by the one reader is a word without meaning to the other. -/
theorem meaningless_of_skipped (hlib : lib.Brackets) {v : Toml.Value}
    (h : loadString lib v = none) : Meaningless (scalarString lib v) := by
  cases v with
  | boolean b =>
      cases b with
      | true => cases h
      | false => exact .of_false
  | datetime d => exact .of_datetime d
  | array vs =>
      obtain ⟨t, ht⟩ := hlib.array vs
      rw [scalarString, ht]
      exact .of_bracket (.inl rfl) t
  | table kvs =>
      obtain ⟨t, ht⟩ := hlib.table kvs
      rw [scalarString, ht]
      exact .of_bracket (.inr rfl) t
  | _ => cases h

/-- The knob as `--load-config` has it, and as the typed tools do. -/
def loaded (lib : TomlLib) (k : Kind) (v : Toml.Value) : Option k.Ext :=
  (loadString lib v).bind (k.set · none)

def typed (lib : TomlLib) (k : Kind) (v : Toml.Value) : Option k.Ext :=
  k.set (scalarString lib v) none

theorem agrees_of_skipped {k : Kind} {v : Toml.Value} (h : loadString lib v = none) :
    k.Agrees v ↔ k.ignoresWords = true ∨ k.isNumber = true := by
  cases v with
  | boolean b =>
      cases b with
      | true => cases h
      | false => exact Iff.rfl
  | datetime d => exact Iff.rfl
  | array vs => exact Iff.rfl
  | table kvs => exact Iff.rfl
  | _ => cases h

/-- What is read by both is the same text, but for `true`. -/
theorem scalarString_of_loadString {v : Toml.Value} {s : List Char}
    (h : loadString lib v = some s) :
    v = .boolean true ∧ s = "1".toList ∨ scalarString lib v = s ∧ ∀ k : Kind, k.Agrees v := by
  cases v with
  | string _ => exact .inr ⟨Option.some.inj h, fun _ => trivial⟩
  | integer _ => exact .inr ⟨Option.some.inj h, fun _ => trivial⟩
  | float _ => exact .inr ⟨Option.some.inj h, fun _ => trivial⟩
  | boolean b =>
      cases b with
      | true => exact .inl ⟨rfl, (Option.some.inj h).symm⟩
      | false => cases h
  | _ => cases h

theorem ingest_typed (hlib : lib.Brackets) (k : Knob) {v : Toml.Value} (h : k.kind.Agrees v) :
    k.kind.ingest (typed lib k.kind v) = k.kind.ingest (loaded lib k.kind v) := by
  rw [typed, loaded]
  cases hload : loadString lib v with
  | none =>
      have hm := meaningless_of_skipped hlib hload
      exact Kind.ingest_meaningless hm (hm.word k) ((agrees_of_skipped hload).mp h)
  | some s =>
      rw [Option.bind_some]
      rcases scalarString_of_loadString hload with ⟨rfl, rfl⟩ | ⟨hs, -⟩
      · exact (Kind.ingest_true h).symm
      · rw [hs]

/-- Otherwise the typed tools refuse the value, or take it for another. -/
theorem ingest_typed_ne (hlib : lib.Brackets) (k : Knob) {v : Toml.Value}
    (h : ¬ k.kind.Agrees v) {x : k.kind.Store} (hx : k.kind.ingest (loaded lib k.kind v) = .ok x) :
    k.kind.ingest (typed lib k.kind v) ≠ .ok x := by
  rw [loaded] at hx
  rw [typed]
  cases hload : loadString lib v with
  | none =>
      have hm := meaningless_of_skipped hlib hload
      rw [hload, Option.bind_none] at hx
      intro hy
      exact Kind.ingest_meaningless_ne hm (hm.word k)
        (fun hk => h ((agrees_of_skipped hload).mpr hk)) (hy.trans hx.symm)
  | some s =>
      rw [hload, Option.bind_some] at hx
      rcases scalarString_of_loadString hload with ⟨rfl, rfl⟩ | ⟨-, hagrees⟩
      · exact Kind.ingest_true_ne h k.oneCounts hx
      · exact absurd (hagrees k.kind) h

/-- What `--load-config` refuses the typed tools refuse too. -/
theorem ingest_typed_refused (k : Knob) {v : Toml.Value} {s : List Char}
    (hload : loadString lib v = some s) (h : k.kind.Refuses s) (x : k.kind.Store) :
    k.kind.ingest (typed lib k.kind v) ≠ .ok x := by
  have hrefused : k.kind.Refuses (scalarString lib v) := by
    rcases scalarString_of_loadString hload with ⟨rfl, rfl⟩ | ⟨hs, -⟩
    · have hword := Meaningless.of_true.word k
      revert h hword
      cases k.kind with
      | oneOf path a b =>
          intro _ hword
          have hne : "true".toList ≠ a.toList ∧ "true".toList ≠ b.toList := by
            simpa [Kind.words] using hword
          exact ⟨Meaningless.of_true.ne_nil, hne⟩
      | _ => exact fun h _ => h.elim
    · rwa [hs]
  obtain ⟨e, he⟩ := Kind.ingest_refused hrefused
  rw [typed, he]
  nofun

/-! ## Agreement -/

/-- Without a version, or with version 0. -/
def IsFlat (t : Toml.Table) : Prop :=
  t.entries.lookup schemaKey = none ∨ t.entries.lookup schemaKey = some (.integer 0)

/-- Both give this configuration, or neither gives any. -/
def Agree (a : Except LoadError Resolved) (b : Except ConfigError Config) : Prop :=
  ∀ c, (∃ r, a = .ok r ∧ r.config = c) ↔ b = .ok c

/-- A value is neither of the two spellings that its knob has. -/
def Refused (lib : TomlLib) (t : Toml.Table) : Prop :=
  ∃ (k : Knob) (v : Toml.Value) (s : List Char), t.entries.lookup k.name = some v ∧
    loadString lib v = some s ∧ k.kind.Refuses s

section Flat

variable {text : List Char} {t : Toml.Table} (hparse : lib.parse text = some t) (hflat : IsFlat t)

include hparse hflat

theorem peekVersion_of_flat :
    peekVersion lib text = .ok .legacyFlat ∨ peekVersion lib text = .ok (.known 0) := by
  rw [peekVersion, hparse]
  dsimp only
  rw [readVersion]
  rcases hflat with h | h
  · exact .inl (by rw [h]; rfl)
  · exact .inr (by rw [h]; rfl)

theorem migrate_of_flat : migrate lib text = flatToV1 lib text := by
  rw [migrate]
  rcases peekVersion_of_flat hparse hflat with h | h
  · rw [h]; rfl
  · rw [h]; rfl

theorem loadConfig_of_flat (seed : Option (List Char)) :
    loadConfig lib text seed = loadFlat lib text seed := by
  rw [loadConfig]
  rcases peekVersion_of_flat hparse hflat with h | h
  · rw [h]
  · rw [h]; rfl

/-- Each knob of the loaded configuration comes from its own entry. -/
theorem loadConfig_iff (c : Config) :
    (∃ r, loadConfig lib text none = .ok r ∧ r.config = c) ↔
      ∀ k : Knob, k.kind.ingest ((t.entries.lookup k.name).bind (loaded lib k.kind)) =
        .ok (c k) := by
  obtain ⟨file, hfile, hlookup⟩ := parseConfigToml_eq hparse
  rw [loadConfig_of_flat hparse hflat, loadFlat, hfile]
  dsimp only
  rw [hlookup, resolve_eq]
  have hok : ∀ (inputs : List (Knob × List Char)) (r : Except ConfigError Config),
      (∃ r', (r.map fun c => (⟨c, inputs⟩ : Resolved)).mapError LoadError.invalid = .ok r' ∧
        r'.config = c) ↔ r = .ok c := by
    intro inputs r
    cases r with
    | error e => exact ⟨fun ⟨r', h, _⟩ => (nomatch h), nofun⟩
    | ok c' =>
        constructor
        · rintro ⟨r', h, rfl⟩
          cases h
          rfl
        · rintro ⟨⟩
          exact ⟨_, rfl, rfl⟩
  refine (hok _ _).trans (ingest_eq_ok.trans (forall_congr' fun k => ?_))
  rw [overrideSeed, fileOf]
  dsimp only
  rw [Option.bind_assoc]
  rfl

theorem loadStr_iff (c : Config) :
    loadStr lib text = .ok c ↔
      ∀ k : Knob, k.kind.ingest ((t.entries.lookup k.name).bind (typed lib k.kind)) =
        .ok (c k) := by
  rw [loadStr, migrate_of_flat hparse hflat, flatToV1_eq hparse]
  refine ingest_eq_ok.trans (forall_congr' fun k => ?_)
  rw [fileOf]
  dsimp only
  cases t.entries.lookup k.name <;> rfl

end Flat

/-- The condition on the entries of a table. -/
def Harmless (lib : TomlLib) (t : Toml.Table) : Prop :=
  Refused lib t ∨
    ∀ (k : Knob) (v : Toml.Value), t.entries.lookup k.name = some v → k.kind.Agrees v

variable {text : List Char} {t : Toml.Table}

theorem exists_loaded_of_not_refused (hparse : lib.parse text = some t) (hflat : IsFlat t)
    (h : ¬ Refused lib t) : ∃ c r, loadConfig lib text none = .ok r ∧ r.config = c := by
  have hknob : ∀ k : Knob, ∃ x,
      k.kind.ingest ((t.entries.lookup k.name).bind (loaded lib k.kind)) = .ok x := by
    intro k
    cases hv : t.entries.lookup k.name with
    | none => exact Kind.ingest_none_eq_ok k.kind
    | some v =>
        rw [Option.bind_some, loaded]
        cases hs : loadString lib v with
        | none => exact Kind.ingest_none_eq_ok k.kind
        | some s => exact Kind.ingest_set_eq_ok fun hr => h ⟨k, v, s, hv, hs, hr⟩
  choose c hc using hknob
  obtain ⟨r, hr, heq⟩ := (loadConfig_iff hparse hflat c).mpr hc
  exact ⟨c, r, hr, heq⟩

theorem agree_of_harmless (hlib : lib.Brackets) (hparse : lib.parse text = some t)
    (hflat : IsFlat t) (h : Harmless lib t) :
    Agree (loadConfig lib text none) (loadStr lib text) := by
  intro c
  rw [loadConfig_iff hparse hflat, loadStr_iff hparse hflat]
  rcases h with ⟨k, v, s, hv, hs, hr⟩ | hagrees
  · -- Neither accepts the text.
    refine ⟨fun hc => ?_, fun hc => ?_⟩
    · obtain ⟨e, he⟩ := Kind.ingest_refused hr
      have hk := hc k
      rw [hv, Option.bind_some, loaded, hs, Option.bind_some, he] at hk
      cases hk
    · have hk := hc k
      rw [hv, Option.bind_some] at hk
      exact absurd hk (ingest_typed_refused k hs hr _)
  · refine forall_congr' fun k => ?_
    cases hv : t.entries.lookup k.name with
    | none => exact Iff.rfl
    | some v => rw [Option.bind_some, Option.bind_some, ingest_typed hlib k (hagrees k v hv)]

theorem harmless_of_agree (hlib : lib.Brackets) (hparse : lib.parse text = some t)
    (hflat : IsFlat t) (h : Agree (loadConfig lib text none) (loadStr lib text)) :
    Harmless lib t := by
  by_contra hharm
  obtain ⟨hnot, hsome⟩ := not_or.mp hharm
  obtain ⟨c, hc⟩ := exists_loaded_of_not_refused hparse hflat hnot
  have htyped := (loadStr_iff hparse hflat c).mp ((h c).mp hc)
  have hloaded := (loadConfig_iff hparse hflat c).mp hc
  refine hsome fun k v hv => ?_
  by_contra hk
  have hl := hloaded k
  have ht := htyped k
  rw [hv, Option.bind_some] at hl ht
  exact ingest_typed_ne hlib k hk hl ht

/-- On a flat text the two readers agree exactly if the table is harmless, or there is none. -/
theorem agree_iff (hlib : lib.Brackets)
    (hflat : ∀ t, lib.parse text = some t → IsFlat t) :
    Agree (loadConfig lib text none) (loadStr lib text) ↔
      ∀ t, lib.parse text = some t → Harmless lib t := by
  cases hparse : lib.parse text with
  | none =>
      refine ⟨fun _ => nofun, fun _ c => ⟨?_, fun h => ?_⟩⟩
      · rintro ⟨r, hr, -⟩
        rw [loadConfig, peekVersion, hparse] at hr
        dsimp only at hr
        rw [loadFlat, parseConfigToml, hparse] at hr
        cases hr
      · rw [loadStr, migrate, peekVersion, hparse] at h
        cases h
  | some t =>
      have hflat' := hflat t hparse
      constructor
      · rintro h t' ⟨⟩
        exact harmless_of_agree hlib hparse hflat' h
      · exact fun h => agree_of_harmless hlib hparse hflat' (h t rfl)

/-! A flag that is `true` is on either way; one that is `false` is off and on. -/

def ethdbgTable (b : Bool) : Toml.Table :=
  ⟨[("SP_EMU_ETHDBG".toList, .boolean b)], List.nodup_singleton _⟩

def ethdbgText (b : Bool) : List Char :=
  "SP_EMU_ETHDBG = ".toList ++ (if b then "true".toList else "false".toList)

def ethdbgLib (b : Bool) : TomlLib := .ofText (ethdbgText b) (ethdbgTable b)

theorem ethdbgLib_brackets (b : Bool) : (ethdbgLib b).Brackets :=
  ⟨fun _ => ⟨_, rfl⟩, fun _ => ⟨_, rfl⟩⟩

theorem isFlat_ethdbg (b : Bool) : ∀ t, (ethdbgLib b).parse (ethdbgText b) = some t → IsFlat t := by
  intro t ht
  cases (TomlLib.parse_ofText _ _).symm.trans ht
  exact .inl rfl

theorem lookup_ethdbg (b : Bool) : (ethdbgTable b).entries.lookup Knob.ethdbg.name =
    some (.boolean b) := Keyed.lookup_cons_self _ _ _

/-- No other knob is set. -/
theorem eq_of_lookup_ethdbg {b : Bool} {k : Knob} {v : Toml.Value}
    (h : (ethdbgTable b).entries.lookup k.name = some v) : k = .ethdbg ∧ v = .boolean b := by
  have hpair := List.mem_singleton.mp (Keyed.mem_of_lookup h)
  have hname : k.name = Knob.ethdbg.name := (Prod.mk.inj hpair).1
  exact ⟨Knob.name_injective hname, (Prod.mk.inj hpair).2⟩

theorem agree_iff_ethdbg : Agree (loadConfig (ethdbgLib true) (ethdbgText true) none)
    (loadStr (ethdbgLib true) (ethdbgText true)) := by
  refine (agree_iff (ethdbgLib_brackets true) (isFlat_ethdbg true)).mpr fun t ht => ?_
  cases (TomlLib.parse_ofText _ _).symm.trans ht
  refine .inr fun k v hv => ?_
  obtain ⟨rfl, rfl⟩ := eq_of_lookup_ethdbg hv
  exact .inr rfl

theorem not_agree : ¬ ∀ (lib : TomlLib), lib.Brackets → ∀ text : List Char,
    (∀ t, lib.parse text = some t → IsFlat t) →
      Agree (loadConfig lib text none) (loadStr lib text) := by
  intro hall
  have hagree := hall (ethdbgLib false) (ethdbgLib_brackets false) (ethdbgText false)
    (isFlat_ethdbg false)
  have hparse : (ethdbgLib false).parse (ethdbgText false) = some (ethdbgTable false) :=
    TomlLib.parse_ofText _ _
  have hflat := isFlat_ethdbg false _ hparse
  have hnot : ¬ Refused (ethdbgLib false) (ethdbgTable false) := by
    rintro ⟨k, v, s, hv, -, hr⟩
    obtain ⟨rfl, rfl⟩ := eq_of_lookup_ethdbg hv
    exact hr
  obtain ⟨c, hc⟩ := exists_loaded_of_not_refused hparse hflat hnot
  have hoff := (loadConfig_iff hparse hflat c).mp hc .ethdbg
  have hon := (loadStr_iff hparse hflat c).mp ((hagree c).mp hc) .ethdbg
  rw [lookup_ethdbg, Option.bind_some] at hoff hon
  have hoff' : false = c .ethdbg := Except.ok.inj hoff
  have hon' : true = c .ethdbg := Except.ok.inj hon
  exact Bool.noConfusion (hoff'.trans hon'.symm)

end Config

end SpEmu
