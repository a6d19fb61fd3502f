import Mathlib.Data.List.OfFn
import Mathlib.Data.Set.Function
import SpEmu.Lib.Utf8
import SpEmu.Soc.Identity

/-!
# The identity file keeps the source

A start with an argument writes the source to the identity file, and a later start without one
reads it back from the first line that begins with seed. `roundTrips_iff` says which sources give
the same identity again.

What a source says is a `Seed`: the fixed identity, or the bytes that are hashed. Two sources with
the same seed have the same identity under every hash, and `exists_separating` is a hash without
collisions that tells two different seeds apart.
-/

set_option autoImplicit false

namespace SpEmu

open ByteMem

namespace Identity

/-! ## Seeds -/

/-- What an identity is derived from. -/
inductive Seed where
  | fixed
  | hashed (bytes : List Byte)
deriving DecidableEq

/-- The seed of a source. -/
def seedOf (source : List Char) : Except String Seed :=
  let s := Text.trim source
  if s.map Char.toLower = legacySource then .ok .fixed
  else
    match stripHex s with
    | some hex => (parseHexU64 hex).map fun n => .hashed (toLeBytes64 n)
    | none => .ok (.hashed (utf8 s))

def tags : List (List Byte) := [tagSpUid, tagRotUuid, tagDiceCdi, tagPufUds, tagMac]

namespace Seed

variable (sha3 : List Byte → Bytes 32)

def master : Seed → Bytes 32
  | fixed => ofBytes 32 legacyMaster
  | hashed bytes => sha3 bytes

def identity : Seed → Identity
  | fixed => legacy sha3
  | hashed bytes => fromMaster sha3 (sha3 bytes)

/-- The texts that are hashed on the way from a seed to the identity. -/
def inputs (seed : Seed) : Set (List Byte) :=
  {x | seed = hashed x ∨ ∃ tag ∈ tags, x = List.ofFn (seed.master sha3) ++ tag}

end Seed

theorem identityFromSource_eq (sha3 : List Byte → Bytes 32) (source : List Char) :
    identityFromSource sha3 source = (seedOf source).map (Seed.identity sha3) := by
  unfold identityFromSource seedOf
  dsimp only
  split
  · rfl
  · cases stripHex (Text.trim source) with
    | none => rfl
    | some hex =>
        dsimp only
        cases parseHexU64 hex with
        | error e => rfl
        | ok n => rfl

/-- White space around a source makes no difference. -/
theorem seedOf_trim (source : List Char) : seedOf (Text.trim source) = seedOf source := by
  unfold seedOf
  rw [Text.trim_trim]

/-! ## A hash that tells seeds apart -/

/-- The digest that numbers its input. -/
def digest (i : Nat) : Bytes 32 := fun j => if j.val = 0 then BitVec.ofNat 8 i else 0

/-- Every input of a list is hashed to its place there. -/
def numbered (inputs : List (List Byte)) (x : List Byte) : Bytes 32 := digest (inputs.idxOf x)

theorem digest_injOn {i j : Nat} (hi : i < 256) (hj : j < 256) (h : digest i = digest j) :
    i = j := by
  have hfirst := congrArg BitVec.toNat (congrFun h 0)
  simpa [digest, Nat.mod_eq_of_lt hi, Nat.mod_eq_of_lt hj] using hfirst

theorem numbered_injOn {inputs : List (List Byte)} (h : inputs.length ≤ 256) :
    Set.InjOn (numbered inputs) {x | x ∈ inputs} := by
  intro x hx y hy heq
  have hx' := List.idxOf_lt_length_of_mem hx
  have hy' := List.idxOf_lt_length_of_mem hy
  have hidx := digest_injOn (by omega) (by omega) heq
  exact (List.idxOf_inj hx).mp hidx

/-- The texts that a master is hashed with. -/
def tagged (master : Bytes 32) : List (List Byte) := tags.map (List.ofFn master ++ ·)

theorem inputs_subset {seed : Seed} {sha3 : List Byte → Bytes 32} {L : List (List Byte)}
    {m : Bytes 32} (hmaster : seed.master sha3 = m) (hself : ∀ x, seed = .hashed x → x ∈ L)
    (htagged : ∀ x ∈ tagged m, x ∈ L) : seed.inputs sha3 ⊆ {x | x ∈ L} := by
  rintro x (hx | ⟨tag, htag, rfl⟩)
  · exact hself x hx
  · rw [hmaster]
    exact htagged _ (List.mem_map.mpr ⟨tag, htag, rfl⟩)

theorem derive_full (sha3 : List Byte → Bytes 32) (m : Bytes 32) (tag : List Byte) :
    derive sha3 m tag 32 = sha3 (List.ofFn m ++ tag) := by
  funext i
  exact dif_pos i.isLt

theorem length_tagged (m : Bytes 32) : (tagged m).length = 5 := by
  rw [tagged, List.length_map]
  rfl

/-- The numbers of a list tell two hashed seeds apart. -/
theorem separated_hashed {x y : List Byte} (h : x ≠ y) :
    ∃ sha3, Set.InjOn sha3 ((Seed.hashed x).inputs sha3 ∪ (Seed.hashed y).inputs sha3) ∧
      (Seed.hashed x).identity sha3 ≠ (Seed.hashed y).identity sha3 := by
  obtain ⟨L, hL⟩ : ∃ L, L = x :: y :: (tagged (digest 0) ++ tagged (digest 1)) := ⟨_, rfl⟩
  have hlen : L.length ≤ 256 := by
    rw [hL, List.length_cons, List.length_cons, List.length_append, length_tagged, length_tagged]
    decide
  have hx : numbered L x = digest 0 := by
    rw [numbered, hL, List.idxOf_cons_self]
  have hy : numbered L y = digest 1 := by
    rw [numbered, hL, List.idxOf_cons_ne _ h, List.idxOf_cons_self]
  have hsub : (Seed.hashed x).inputs (numbered L) ∪ (Seed.hashed y).inputs (numbered L) ⊆
      {z | z ∈ L} := by
    refine Set.union_subset (inputs_subset hx ?_ ?_) (inputs_subset hy ?_ ?_)
    · rintro z ⟨⟩
      rw [hL]
      exact List.mem_cons_self
    · intro z hz
      rw [hL]
      exact List.mem_cons_of_mem _ (List.mem_cons_of_mem _ (List.mem_append_left _ hz))
    · rintro z ⟨⟩
      rw [hL]
      exact List.mem_cons_of_mem _ List.mem_cons_self
    · intro z hz
      rw [hL]
      exact List.mem_cons_of_mem _ (List.mem_cons_of_mem _ (List.mem_append_right _ hz))
  have hinj := (numbered_injOn hlen).mono hsub
  refine ⟨numbered L, hinj, fun heq => ?_⟩
  have hdice : derive (numbered L) (numbered L x) tagDiceCdi 32 =
      derive (numbered L) (numbered L y) tagDiceCdi 32 := congrArg Identity.diceCdi heq
  rw [derive_full, derive_full, hx, hy] at hdice
  -- the two masters are hashed with one tag, and they are numbered apart
  have htag : tagDiceCdi ∈ tags := by simp [tags]
  have hmem := hinj (Or.inl (Or.inr ⟨_, htag, by rw [Seed.master, hx]⟩))
    (Or.inr (Or.inr ⟨_, htag, by rw [Seed.master, hy]⟩)) hdice
  have hdigest := List.ofFn_injective (List.append_cancel_right hmem)
  exact absurd (digest_injOn (by decide) (by decide) hdigest) (by decide)

/-- The fixed identity has constants of its own. -/
theorem separated_fixed (x : List Byte) :
    ∃ sha3, Set.InjOn sha3 (Seed.fixed.inputs sha3 ∪ (Seed.hashed x).inputs sha3) ∧
      Seed.fixed.identity sha3 ≠ (Seed.hashed x).identity sha3 := by
  obtain ⟨L, hL⟩ : ∃ L, L = x :: (tagged (digest 0) ++ tagged (ofBytes 32 legacyMaster)) :=
    ⟨_, rfl⟩
  have hlen : L.length ≤ 256 := by
    rw [hL, List.length_cons, List.length_append, length_tagged, length_tagged]
    decide
  have hx : numbered L x = digest 0 := by
    rw [numbered, hL, List.idxOf_cons_self]
  have hsub : Seed.fixed.inputs (numbered L) ∪ (Seed.hashed x).inputs (numbered L) ⊆
      {z | z ∈ L} := by
    refine Set.union_subset (inputs_subset rfl ?_ ?_) (inputs_subset hx ?_ ?_)
    · rintro z ⟨⟩
    · intro z hz
      rw [hL]
      exact List.mem_cons_of_mem _ (List.mem_append_right _ hz)
    · rintro z ⟨⟩
      rw [hL]
      exact List.mem_cons_self
    · intro z hz
      rw [hL]
      exact List.mem_cons_of_mem _ (List.mem_append_left _ hz)
  refine ⟨numbered L, (numbered_injOn hlen).mono hsub, fun heq => ?_⟩
  -- the second byte of a number is zero, and the constant's is not
  have hdice : wordsToLeBytes 32 legacyDiceCdiWords =
      derive (numbered L) (numbered L x) tagDiceCdi 32 := congrArg Identity.diceCdi heq
  rw [derive_full] at hdice
  have hbyte : wordsToLeBytes 32 legacyDiceCdiWords 1 = 0 := congrFun hdice 1
  exact absurd hbyte (by decide)

/-- Two seeds have different identities under some hash without a collision. -/
theorem exists_separating {a b : Seed} (h : a ≠ b) :
    ∃ sha3, Set.InjOn sha3 (a.inputs sha3 ∪ b.inputs sha3) ∧
      a.identity sha3 ≠ b.identity sha3 := by
  cases a with
  | fixed =>
      cases b with
      | fixed => exact absurd rfl h
      | hashed y => exact separated_fixed y
  | hashed x =>
      cases b with
      | fixed =>
          obtain ⟨sha3, hinj, hne⟩ := separated_fixed x
          exact ⟨sha3, Set.union_comm _ _ ▸ hinj, hne.symm⟩
      | hashed y => exact separated_hashed fun heq => h (heq ▸ rfl)

/-- One seed alone needs no collision either. -/
theorem exists_injOn (a : Seed) : ∃ sha3, Set.InjOn sha3 (a.inputs sha3) := by
  cases a with
  | fixed =>
      obtain ⟨sha3, hinj, -⟩ := separated_fixed []
      exact ⟨sha3, hinj.mono Set.subset_union_left⟩
  | hashed x =>
      obtain ⟨sha3, hinj, -⟩ := separated_fixed x
      exact ⟨sha3, hinj.mono Set.subset_union_right⟩

/-! ## A number is not the text around it -/

theorem utf8_eq (s : List Char) : utf8 s = (Utf8.encode s).map UInt8.toBitVec := rfl

theorem utf8_injective : Function.Injective utf8 := by
  intro s t h
  exact Utf8.encode_injective (List.map_injective_iff.mpr (fun _ _ => UInt8.toBitVec_inj.mp) h)

/-- A digit has a byte that is not zero, no earlier than its place in the text. -/
theorem exists_byte_of_digit {c : Char} (h : (Numeral.toDigit 16 c).isSome) (s t : List Char) :
    ∃ (i : Nat) (b : Byte), s.length ≤ i ∧ (utf8 (s ++ c :: t))[i]? = some b ∧ b ≠ 0 := by
  obtain ⟨hge, hle⟩ := toNat_of_digit h
  have hsplit : utf8 (s ++ c :: t) = utf8 s ++ c.toUInt8.toBitVec :: utf8 t := by
    rw [utf8_eq, utf8_eq, utf8_eq, Utf8.encode_append, ← List.singleton_append (x := c),
      Utf8.encode_append, Utf8.encode_ascii (by omega), List.map_append, List.map_append]
    rfl
  have hlen : (utf8 s).length = (Utf8.encode s).length := by
    rw [utf8_eq, List.length_map]
  refine ⟨(utf8 s).length, c.toUInt8.toBitVec, hlen ▸ Utf8.length_le_encode s, ?_, ?_⟩
  · rw [hsplit, List.getElem?_append_right (Nat.le_refl _), Nat.sub_self]
    rfl
  · intro hzero
    have hnat : c.toNat % 256 = 0 := congrArg BitVec.toNat hzero
    omega

/-- A byte of a number that is not zero makes the number large. -/
theorem le_of_byte {n : BitVec 64} {i : Nat} {b : Byte} (h : (toLeBytes64 n)[i]? = some b)
    (hb : b ≠ 0) : 2 ^ (8 * i) ≤ n.toNat := by
  rw [toLeBytes64, List.getElem?_map] at h
  obtain ⟨j, hj, rfl⟩ := Option.map_eq_some_iff.mp h
  obtain ⟨hlen, rfl⟩ := List.getElem?_eq_some_iff.mp hj
  rw [List.getElem_range] at hb
  by_contra hlt
  apply hb
  apply BitVec.eq_of_toNat_eq
  rw [BitVec.toNat_setWidth, BitVec.toNat_ushiftRight, Nat.shiftRight_eq_div_pow,
    Nat.div_eq_of_lt (by omega)]
  rfl

theorem parseHexU64_lt {hex : List Char} {n : BitVec 64} (h : parseHexU64 hex = .ok n) :
    n.toNat < 16 ^ hex.length := by
  unfold parseHexU64 at h
  dsimp only at h
  split at h
  · cases h
  · split at h
    · cases h
    · split at h
      · rename_i v hv
        cases h
        rw [Numeral.parseUInt] at hv
        split at hv
        · cases hv
        · have hread := Numeral.readDigits_lt (Option.filter_eq_some_iff.mp hv).1
          rw [Nat.zero_add, Nat.one_mul] at hread
          calc (BitVec.ofNat 64 v).toNat ≤ v := Nat.mod_le _ _
            _ < 16 ^ (Numeral.dropPlus hex).length := hread
            _ ≤ 16 ^ hex.length := Nat.pow_le_pow_right (by decide) (length_dropPlus_le hex)
      · cases h

theorem exists_last_of_isHexSeed {hex : List Char} (h : IsHexSeed hex) :
    ∃ ds c, hex = ds ++ [c] ∧ (Numeral.toDigit 16 c).isSome := by
  obtain ⟨-, hne, hdigits⟩ := h
  obtain ⟨p, hp⟩ : ∃ p, hex = p ++ Numeral.dropPlus hex := by
    unfold Numeral.dropPlus
    split
    · exact ⟨['+'], rfl⟩
    · exact ⟨[], rfl⟩
  refine ⟨p ++ (Numeral.dropPlus hex).dropLast, (Numeral.dropPlus hex).getLast hne, ?_,
    hdigits _ (List.getLast_mem hne)⟩
  rw [List.append_assoc, List.dropLast_append_getLast hne]
  exact hp

/-- A text with a number in it is not the eight bytes of that number. -/
theorem toLeBytes64_ne_utf8 {hex t : List Char} {n : BitVec 64} {x : Char}
    (h : parseHexU64 hex = .ok n) (ht : '0' :: x :: hex <:+: t) : toLeBytes64 n ≠ utf8 t := by
  obtain ⟨ds, c, rfl, hc⟩ := exists_last_of_isHexSeed ((parseHexU64_ok_iff hex).mp ⟨n, h⟩)
  obtain ⟨u, v, rfl⟩ := ht
  intro heq
  have hsplit : u ++ '0' :: x :: (ds ++ [c]) ++ v = (u ++ '0' :: x :: ds) ++ c :: v := by
    simp only [List.append_assoc, List.cons_append, List.nil_append]
  -- the last digit has a byte behind all the others, too far on for a number of so few digits
  obtain ⟨i, b, hi, hget, hb⟩ := exists_byte_of_digit hc (u ++ '0' :: x :: ds) v
  rw [← hsplit, ← heq] at hget
  have hlarge := le_of_byte hget hb
  have hsmall := parseHexU64_lt h
  rw [List.length_append, List.length_cons, List.length_cons] at hi
  rw [List.length_append, List.length_singleton, show (16 : Nat) = 2 ^ 4 from rfl,
    ← Nat.pow_mul] at hsmall
  have hpow := (Nat.pow_lt_pow_iff_right (a := 2) (by decide)).mp
    (Nat.lt_of_le_of_lt hlarge hsmall)
  omega

/-! ## What the file says -/

/-- The characters that are dropped before a value. -/
def isMark (c : Char) : Bool := c = ' ' || c = '='

/-- The source in a line of the file. -/
def sourceInLine (line : List Char) : Option (List Char) := do
  let v ← stripPrefix "seed".toList (Text.trim line)
  let v := Text.trim (v.dropWhile isMark)
  if v = [] then none else some v

theorem findSource_eq (t : List Char) :
    findSource t = (Text.lines t).findSome? sourceInLine := rfl

theorem stripPrefix_append (pre s : List Char) : stripPrefix pre (pre ++ s) = some s := by
  rw [stripPrefix, if_pos (List.isPrefixOf_iff_prefix.mpr (List.prefix_append pre s)),
    List.drop_left]

theorem eq_append_of_stripPrefix {pre s r : List Char} (h : stripPrefix pre s = some r) :
    s = pre ++ r := by
  rw [stripPrefix] at h
  split at h
  · next hpre =>
      obtain ⟨t, rfl⟩ := List.isPrefixOf_iff_prefix.mp hpre
      rw [List.drop_left] at h
      rw [Option.some.inj h]
  · cases h

/-- A line with a source begins with seed, and the source is the rest without its marks. -/
theorem exists_of_sourceInLine {line v : List Char} (h : sourceInLine line = some v) :
    ∃ rest, Text.trim line = "seed".toList ++ rest ∧ v = Text.trim (rest.dropWhile isMark) ∧
      v ≠ [] := by
  obtain ⟨rest, hrest, h⟩ := Option.bind_eq_some_iff.mp h
  dsimp only at h
  split at h
  · cases h
  · next hne =>
      cases h
      exact ⟨rest, eq_append_of_stripPrefix hrest, rfl, hne⟩

/-- A comment says nothing. -/
theorem findSource_comment {a : List Char} (ha : '\n' ∉ a) (t : List Char) :
    findSource ('#' :: (a ++ '\n' :: t)) = findSource t := by
  have hfeed : '\n' ∉ '#' :: a := by
    simpa using ha
  have hnone : sourceInLine (Text.stripCr ('#' :: a)) = none := by
    rw [Option.eq_none_iff_forall_ne_some]
    intro v hv
    obtain ⟨rest, htrim, -⟩ := exists_of_sourceInLine hv
    obtain ⟨a', ha'⟩ := Text.exists_trim_cons (a := '#') rfl a
    rw [Text.trim_stripCr, ha'] at htrim
    exact absurd (List.cons.inj htrim).1 (by decide)
  rw [findSource_eq, ← List.cons_append, Text.lines_append hfeed, List.findSome?_cons, hnone]
  rfl

/-- A text is a comment with its line feed. -/
def IsComment (t : List Char) : Prop := ∃ a, '\n' ∉ a ∧ t = '#' :: (a ++ ['\n'])

theorem isComment_path :
    IsComment "# sp-emu per-instance identity (see src/identity.rs)\n".toList :=
  ⟨" sp-emu per-instance identity (see src/identity.rs)".toList, by simp, by simp⟩

theorem isComment_delete : IsComment
    "# Delete this file to mint a new identity, or pass --seed to set one.\n".toList :=
  ⟨" Delete this file to mint a new identity, or pass --seed to set one.".toList, by simp, by simp⟩

theorem isComment_sources :
    IsComment "# Sources: `legacy`, a 0x-prefixed hex u64, or any string.\n".toList :=
  ⟨" Sources: `legacy`, a 0x-prefixed hex u64, or any string.".toList, by simp, by simp⟩

theorem IsComment.findSource {c : List Char} (h : IsComment c) (t : List Char) :
    findSource (c ++ t) = Identity.findSource t := by
  obtain ⟨a, ha, rfl⟩ := h
  rw [← findSource_comment ha t, List.cons_append, List.append_assoc, List.singleton_append]

theorem findSource_comments {a b c : List Char} (ha : IsComment a) (hb : IsComment b)
    (hc : IsComment c) (t : List Char) : findSource (a ++ b ++ c ++ t) = findSource t := by
  rw [List.append_assoc, List.append_assoc, ha.findSource, hb.findSource, hc.findSource]

theorem findSource_header (t : List Char) : findSource (header ++ t) = findSource t :=
  findSource_comments isComment_path isComment_delete isComment_sources t

/-- The first line of a source. -/
def firstLine (s : List Char) : List Char := s.takeWhile (· ≠ '\n')

/-- What the file says of a first line. -/
def stored (s : List Char) : List Char := Text.trim ((firstLine s).dropWhile isMark)

theorem sourceInLine_stored (s : List Char) :
    sourceInLine (Text.stripCr ("seed = ".toList ++ firstLine s)) =
      if stored s = [] then none else some (stored s) := by
  obtain ⟨w, hw, hline⟩ := Text.exists_split_cons (a := 's') rfl ("eed = ".toList ++ firstLine s)
  obtain ⟨rest, hrest⟩ := Text.exists_trim_append (a := 's') (c := 'd') rfl rfl "ee".toList
    (" = ".toList ++ firstLine s)
  have htrim : Text.trim ("seed = ".toList ++ firstLine s) = "seed".toList ++ rest := hrest
  have hvalue : " = ".toList ++ firstLine s = rest ++ w := by
    have hcut : "seed".toList ++ (" = ".toList ++ firstLine s) = "seed".toList ++ (rest ++ w) := by
      rw [← List.append_assoc, ← List.append_assoc, ← htrim]
      exact hline
    exact List.append_cancel_left hcut
  have hstored : Text.trim (rest.dropWhile isMark) = stored s := by
    rw [← Text.trim_dropWhile_append hw, ← hvalue]
    rfl
  rw [sourceInLine, Text.trim_stripCr, htrim, stripPrefix_append]
  show (if Text.trim (rest.dropWhile isMark) = [] then none
    else some (Text.trim (rest.dropWhile isMark))) = _
  rw [hstored]

theorem newline_not_mem_firstLine (s : List Char) : '\n' ∉ firstLine s := by
  intro h
  simpa using List.mem_takeWhile_imp h

theorem firstLine_isPrefix (s : List Char) : firstLine s <+: s := List.takeWhile_prefix _

/-- The file says what is stored of the first line, or else what a later line says. -/
theorem exists_findSource_body (s : List Char) :
    ∃ more, findSource (body s) =
        (if stored s = [] then findSource more else some (stored s)) ∧
      ∀ t, '\n' ∉ t → t <:+: more → t <:+: s := by
  have hfeed : '\n' ∉ "seed = ".toList ++ firstLine s := by
    intro h
    rcases List.mem_append.mp h with h | h
    · exact absurd h (by decide)
    · exact newline_not_mem_firstLine s h
  have hbody : ∀ more, s ++ ['\n'] = firstLine s ++ '\n' :: more → findSource (body s) =
      (if stored s = [] then findSource more else some (stored s)) := by
    intro more hmore
    have hsplit : body s = header ++ (("seed = ".toList ++ firstLine s) ++ '\n' :: more) := by
      rw [body, List.append_assoc, List.append_assoc, hmore, List.append_assoc]
    rw [hsplit, findSource_header, findSource_eq, Text.lines_append hfeed, List.findSome?_cons,
      sourceInLine_stored]
    by_cases hnil : stored s = []
    · rw [if_pos hnil, if_pos hnil]
      rfl
    · rw [if_neg hnil, if_neg hnil]
  have hcut := List.takeWhile_append_dropWhile (p := fun c => decide (c ≠ '\n')) (l := s)
  cases hrest : s.dropWhile (fun c => decide (c ≠ '\n')) with
  | nil =>
      -- the source is one line, and nothing follows it
      rw [hrest, List.append_nil] at hcut
      refine ⟨[], hbody [] ?_, fun t _ ht => ?_⟩
      · rw [firstLine, hcut]
      · rw [List.eq_nil_of_infix_nil ht]
        exact List.nil_infix
  | cons c more =>
      have hc : c = '\n' := by
        have hnot := List.head?_dropWhile_not (fun c => decide (c ≠ '\n')) s
        rw [hrest] at hnot
        simpa using hnot
      rw [hrest, hc] at hcut
      refine ⟨more ++ ['\n'], hbody _ ?_, fun t hfeed ht => ?_⟩
      · rw [← List.cons_append, ← List.append_assoc, firstLine, hcut]
      · -- a text without a line feed does not reach the last one
        rcases List.infix_concat_iff.mp ht with hsuffix | hinfix
        · rcases List.suffix_concat_iff.mp hsuffix with rfl | ⟨u, rfl, -⟩
          · exact List.nil_infix
          · exact absurd (List.mem_append_right u List.mem_cons_self) hfeed
        · rw [← hcut]
          exact hinfix.trans ((List.suffix_cons _ _).trans (List.suffix_append _ _)).isInfix

/-! ## Sources that the file keeps -/

/-- A source that the file gives back: it says something, on its first line, and does not begin
with an equals sign. -/
structure Storable (s : List Char) : Prop where
  nonblank : Text.trim s ≠ []
  oneLine : Text.trim (firstLine s) = Text.trim s
  unmarked : ((firstLine s).dropWhile (· = ' ')).head? ≠ some '='

/-- The blanks before a value are dropped first. -/
theorem dropWhile_isMark (l : List Char) :
    l.dropWhile isMark = (l.dropWhile (· = ' ')).dropWhile isMark := by
  induction l with
  | nil => rfl
  | cons c cs ih =>
      by_cases hc : c = ' '
      · subst hc
        exact ih
      · rw [List.dropWhile_cons_of_neg (p := (· = ' ')) (by simpa using hc)]

theorem dropWhile_isMark_of_unmarked {l : List Char}
    (h : (l.dropWhile (· = ' ')).head? ≠ some '=') :
    l.dropWhile isMark = l.dropWhile (· = ' ') := by
  rw [dropWhile_isMark]
  have hblank := List.head?_dropWhile_not (· = ' ') l
  cases hl : l.dropWhile (· = ' ') with
  | nil => rfl
  | cons c cs =>
      rw [hl] at h hblank
      have hspace : c ≠ ' ' := by simpa using hblank
      have heq : c ≠ '=' := fun heq => h (congrArg some heq)
      exact List.dropWhile_cons_of_neg (by simp [isMark, hspace, heq])

theorem dropWhile_isMark_of_equals {l r : List Char} (h : l.dropWhile (· = ' ') = '=' :: r) :
    l.dropWhile isMark = r.dropWhile isMark := by
  rw [dropWhile_isMark, h]
  exact List.dropWhile_cons_of_pos rfl

theorem stored_isInfix (s : List Char) : stored s <:+: firstLine s :=
  (Text.trim_isInfix _).trans (List.dropWhile_suffix _).isInfix

/-- What is stored of a source that begins with an equals sign is shorter than its line. -/
theorem length_stored_lt {s r : List Char} (h : (firstLine s).dropWhile (· = ' ') = '=' :: r) :
    (stored s).length < (Text.trim (firstLine s)).length := by
  obtain ⟨w, hw, hcut⟩ := Text.exists_split_cons (a := '=') rfl r
  obtain ⟨t, ht⟩ := Text.exists_trim_cons (a := '=') rfl r
  have hline : Text.trim (firstLine s) = '=' :: t := by
    rw [← ht, ← h]
    exact (Text.trim_dropWhile_of_white (fun c hc => by rw [of_decide_eq_true hc]; rfl) _).symm
  have hr : r = t ++ w := by
    rw [ht] at hcut
    exact (List.cons.inj hcut).2
  have hstored : stored s = Text.trim (t.dropWhile isMark) := by
    rw [stored, dropWhile_isMark_of_equals h, hr, Text.trim_dropWhile_append hw]
  have hle := ((Text.trim_isInfix (t.dropWhile isMark)).trans
    (List.dropWhile_suffix _).isInfix).length_le
  rw [hline, hstored, List.length_cons]
  omega

theorem storable_iff (s : List Char) :
    Storable s ↔ Text.trim s ≠ [] ∧ stored s = Text.trim s := by
  constructor
  · intro h
    refine ⟨h.nonblank, ?_⟩
    rw [stored, dropWhile_isMark_of_unmarked h.unmarked, ← h.oneLine]
    exact Text.trim_dropWhile_of_white (fun c hc => by rw [of_decide_eq_true hc]; rfl) _
  · rintro ⟨hne, hstored⟩
    have hline : Text.trim (firstLine s) = Text.trim s := by
      have hin : Text.trim s <:+: Text.trim (firstLine s) := by
        refine (Text.tight_trim s).infix_trim ?_
        rw [← hstored]
        exact stored_isInfix s
      have hout : Text.trim (firstLine s) <:+: Text.trim s :=
        (Text.tight_trim _).infix_trim ((Text.trim_isInfix _).trans (firstLine_isPrefix s).isInfix)
      exact hout.eq_of_length (Nat.le_antisymm hout.length_le hin.length_le)
    refine ⟨hne, hline, fun hmark => ?_⟩
    -- an equals sign would be missing from what is stored
    obtain ⟨r, hr⟩ := List.head?_eq_some_iff.mp hmark
    have hlt := length_stored_lt hr
    rw [hstored, hline] at hlt
    exact absurd hlt (Nat.lt_irrefl _)

/-! ## Sources that the file loses -/

/-- A character that neither the fixed source nor a number has. -/
def isForeign (c : Char) : Bool := c = '=' || c = '\n' || c = 's'

theorem not_digit_of_foreign {c : Char} (h : isForeign c = true) :
    Numeral.toDigit 16 c = none ∧ c ∉ ['0', 'x', 'X', '+'] ∧ c.toLower ∉ legacySource := by
  have hc : c = '=' ∨ c = '\n' ∨ c = 's' := by simpa [isForeign, or_assoc] using h
  rcases hc with rfl | rfl | rfl
  · decide
  · decide
  · decide

theorem eq_cons_of_stripHex {s hex : List Char} (h : stripHex s = some hex) :
    ∃ x, x ∈ ['x', 'X'] ∧ s = '0' :: x :: hex := by
  unfold stripHex at h
  split at h
  · cases h
    exact ⟨'x', by decide, rfl⟩
  · cases h
    exact ⟨'X', by decide, rfl⟩
  · cases h

theorem mem_dropPlus {s : List Char} {c : Char} (h : c ∈ s) (hc : c ≠ '+') :
    c ∈ Numeral.dropPlus s := by
  unfold Numeral.dropPlus
  split
  · exact (List.mem_cons.mp h).resolve_left hc
  · exact h

/-- With such a character the source is hashed as it is, or refused. -/
theorem seedOf_of_foreign {s : List Char} {c : Char} (hc : c ∈ Text.trim s)
    (hforeign : isForeign c = true) {seed : Seed} (h : seedOf s = .ok seed) :
    seed = .hashed (utf8 (Text.trim s)) := by
  obtain ⟨hdigit, hlead, hlegacy⟩ := not_digit_of_foreign hforeign
  unfold seedOf at h
  dsimp only at h
  split at h
  · next heq => exact absurd (heq ▸ List.mem_map_of_mem hc) hlegacy
  · cases hstrip : stripHex (Text.trim s) with
    | none =>
        rw [hstrip] at h
        exact (Except.ok.inj h).symm
    | some hex =>
        rw [hstrip] at h
        dsimp only at h
        cases hparse : parseHexU64 hex with
        | error e =>
            rw [hparse] at h
            cases h
        | ok n =>
            obtain ⟨x, hx, heq⟩ := eq_cons_of_stripHex hstrip
            simp only [List.mem_cons, List.not_mem_nil, or_false, not_or] at hlead hx
            rw [heq, List.mem_cons, List.mem_cons] at hc
            have hcx : c ≠ x := by
              rcases hx with rfl | rfl
              · exact hlead.2.1
              · exact hlead.2.2.1
            have hmem := mem_dropPlus ((hc.resolve_left hlead.1).resolve_left hcx) hlead.2.2.2
            have hdigits := ((parseHexU64_ok_iff hex).mp ⟨n, hparse⟩).2.2 c hmem
            rw [hdigit] at hdigits
            cases hdigits

/-- The first line of a text on one line, behind blank lines at most. -/
theorem trim_firstLine {s : List Char} (hfeed : '\n' ∉ Text.trim s) (hne : stored s ≠ []) :
    Text.trim (firstLine s) = Text.trim s := by
  obtain ⟨w, w', hw, hw', hsplit, ht⟩ := Text.exists_split s
  by_cases hblank : '\n' ∈ w
  · -- the first line is blank
    have hwhite : Text.White (firstLine s) := by
      have hlen : ¬ (w.takeWhile fun c => decide (c ≠ '\n')).length = w.length := by
        intro hlen
        have hall := (List.takeWhile_prefix fun c => decide (c ≠ '\n')).eq_of_length hlen
        exact newline_not_mem_firstLine w (by rw [firstLine, hall]; exact hblank)
      intro c hc
      rw [firstLine, hsplit, List.takeWhile_append, if_neg hlen] at hc
      exact hw c ((List.takeWhile_prefix _).subset hc)
    have hdrop : Text.White ((firstLine s).dropWhile isMark) := fun c hc =>
      hwhite c ((List.dropWhile_sublist _).subset hc)
    exact absurd (Text.trim_append_of_white hdrop []) hne
  · have hkeep : ∀ u : List Char, '\n' ∉ u → ∀ c ∈ u, decide (c ≠ '\n') = true := by
      intro u hu c hc
      exact decide_eq_true fun heq => hu (heq ▸ hc)
    have hline : firstLine s = w ++ (Text.trim s ++ firstLine w') := by
      conv_lhs => rw [firstLine, hsplit]
      rw [List.takeWhile_append_of_pos (hkeep w hblank),
        List.takeWhile_append_of_pos (hkeep _ hfeed), firstLine]
    rw [hline]
    exact Text.trim_of_split hw (fun c hc => hw' c ((firstLine_isPrefix w').subset hc)) ht

/-- A line that says a source says less than it holds. -/
theorem sourceInLine_part {line v : List Char} (h : sourceInLine line = some v) :
    Text.Tight v ∧ v <:+: Text.trim line ∧ v.length < (Text.trim line).length ∧
      's' ∈ Text.trim line := by
  obtain ⟨rest, htrim, rfl, -⟩ := exists_of_sourceInLine h
  have hrest : Text.trim (rest.dropWhile isMark) <:+: rest :=
    (Text.trim_isInfix _).trans (List.dropWhile_suffix _).isInfix
  have hpart : rest <:+: Text.trim line := by
    rw [htrim]
    exact (List.suffix_append _ _).isInfix
  refine ⟨Text.tight_trim _, hrest.trans hpart, ?_, ?_⟩
  · have hshort := hrest.length_le
    have hseed : "seed".toList.length = 4 := rfl
    rw [htrim, List.length_append]
    omega
  · rw [htrim]
    exact List.mem_append_left rest (by decide)

/-- A source whose first line is stored in part has an equals sign or a line feed. -/
theorem exists_foreign_of_stored {s : List Char} (hnil : stored s ≠ []) (hs : ¬ Storable s) :
    ∃ c ∈ Text.trim s, isForeign c = true := by
  by_cases hline : Text.trim (firstLine s) = Text.trim s
  · -- it begins with an equals sign
    have hmark : ((firstLine s).dropWhile (· = ' ')).head? = some '=' := by
      by_contra hmark
      refine hs ⟨fun h0 => hnil (List.eq_nil_of_infix_nil ?_), hline, hmark⟩
      rw [← h0, ← hline]
      exact (Text.tight_trim _).infix_trim (stored_isInfix s)
    obtain ⟨r, hr⟩ := List.head?_eq_some_iff.mp hmark
    refine ⟨'=', Text.mem_trim_of_mem ?_ rfl, rfl⟩
    apply (firstLine_isPrefix s).subset
    apply (List.dropWhile_sublist (· = ' ')).subset
    rw [hr]
    exact List.mem_cons_self
  · refine ⟨'\n', ?_, rfl⟩
    by_contra hfeed
    exact hline (trim_firstLine hfeed hnil)

/-- What the file says of another source is a part of it, and the source has a character that no
number has. -/
theorem lost_of_findSource {s v : List Char} (h : findSource (body s) = some v)
    (hs : ¬ Storable s) :
    Text.Tight v ∧ v <:+: Text.trim s ∧ v ≠ Text.trim s ∧
      ∃ c ∈ Text.trim s, isForeign c = true := by
  obtain ⟨more, hbody, hmore⟩ := exists_findSource_body s
  rw [hbody] at h
  by_cases hnil : stored s = []
  · -- a later line says it, behind the word seed
    rw [if_pos hnil] at h
    obtain ⟨line, hline, hv⟩ := List.exists_of_findSome?_eq_some h
    obtain ⟨htight, hpart, hshort, hletter⟩ := sourceInLine_part hv
    have hfeed : '\n' ∉ Text.trim line := fun hmem =>
      Text.newline_not_mem_lines hline ((Text.trim_isInfix line).subset hmem)
    have hin : Text.trim line <:+: Text.trim s := by
      refine (Text.tight_trim line).infix_trim (hmore _ hfeed ?_)
      exact (Text.trim_isInfix line).trans (Text.infix_of_mem_lines hline)
    refine ⟨htight, hpart.trans hin, fun heq => ?_, 's', hin.subset hletter, rfl⟩
    have hlong := hin.length_le
    rw [heq] at hshort
    omega
  · rw [if_neg hnil] at h
    obtain rfl := Option.some.inj h
    have hin : stored s <:+: Text.trim s :=
      (Text.tight_trim _).infix_trim ((stored_isInfix s).trans (firstLine_isPrefix s).isInfix)
    have hne : stored s ≠ Text.trim s := fun heq =>
      hs ((storable_iff s).mpr ⟨fun h0 => hnil (heq.trans h0), heq⟩)
    exact ⟨Text.tight_trim _, hin, hne, exists_foreign_of_stored hnil hs⟩

/-- What is read back has another seed, or none. -/
theorem seedOf_ne {s v : List Char} (h : findSource (body s) = some v) (hs : ¬ Storable s)
    {a b : Seed} (ha : seedOf s = .ok a) (hb : seedOf v = .ok b) : a ≠ b := by
  obtain ⟨htight, hin, hne, c, hc, hforeign⟩ := lost_of_findSource h hs
  rw [seedOf_of_foreign hc hforeign ha]
  unfold seedOf at hb
  dsimp only at hb
  rw [htight.trim_eq] at hb
  split at hb
  · cases hb
    exact Seed.noConfusion
  · cases hstrip : stripHex v with
    | none =>
        -- another text has other bytes
        rw [hstrip] at hb
        cases hb
        intro heq
        exact hne (utf8_injective (Seed.hashed.inj heq)).symm
    | some hex =>
        rw [hstrip] at hb
        dsimp only at hb
        cases hparse : parseHexU64 hex with
        | error e =>
            rw [hparse] at hb
            cases hb
        | ok n =>
            rw [hparse] at hb
            cases hb
            obtain ⟨x, -, rfl⟩ := eq_cons_of_stripHex hstrip
            intro heq
            exact toLeBytes64_ne_utf8 hparse hin (Seed.hashed.inj heq).symm

/-! ## Starts after one with an argument -/

/-- A host without an error. -/
def calm (random : BitVec 64) : Host := ⟨true, .done, some random⟩

/-- The file after starts without an argument. -/
inductive Later (sha3 : List Byte → Bytes 32) (file : Option Contents) :
    Option Contents → Prop where
  | none : Later sha3 file file
  | start {f : Option Contents} (random : BitVec 64) (h : Later sha3 file f) :
      Later sha3 file (init sha3 (calm random) f none).2

/-- The source of a start without an argument. -/
def laterSource (host : Host) (file : Option Contents) : List Char :=
  (loadSource host file).getD (randomSource host.random)

/-- SHA3-256 has no collision among the texts that it is given for two sources. -/
def Collisionless (sha3 : List Byte → Bytes 32) (s t : List Char) : Prop :=
  Set.InjOn sha3 {x | ∃ seed, (seedOf s = .ok seed ∨ seedOf t = .ok seed) ∧ x ∈ seed.inputs sha3}

/-- If a start with the argument gives an identity, every later start without one gives the same,
whatever the hash. -/
def RoundTrips (s : List Char) : Prop :=
  ∀ (sha3 : List Byte → Bytes 32) (file f : Option Contents) (random random' : BitVec 64),
    Later sha3 (init sha3 (calm random) file (some s)).2 f →
    Collisionless sha3 s (laterSource (calm random') f) →
    ∀ id, (init sha3 (calm random) file (some s)).1 = .ok id →
      (init sha3 (calm random') f none).1 = .ok id

/-- A source behind 0x or 0X is accepted if it has one to sixteen digits there and nothing else. -/
def HexSeedsOnly (s : List Char) : Prop :=
  ∀ (sha3 : List Byte → Bytes 32) (file : Option Contents) (random : BitVec 64) (hex : List Char),
    stripHex (Text.trim s) = some hex →
      ((∃ id, (init sha3 (calm random) file (some s)).1 = .ok id) ↔
        0 < hex.length ∧ hex.length ≤ 16 ∧ ∀ c ∈ hex, (Numeral.toDigit 16 c).isSome)

theorem init_none (sha3 : List Byte → Bytes 32) (host : Host) (file : Option Contents) :
    (init sha3 host file none).1 = identityFromSource sha3 (laterSource host file) := by
  rw [init, laterSource]
  cases loadSource host file with
  | none => rfl
  | some s => rfl

theorem exists_seedOf_iff (s : List Char) : (∃ seed, seedOf s = .ok seed) ↔ Accepted s := by
  have herror := identityFromSource_error_iff (fun _ => Bytes.const 32 0) s
  rw [identityFromSource_eq] at herror
  cases hseed : seedOf s with
  | error e =>
      rw [hseed] at herror
      refine iff_of_false ?_ (herror.mp ⟨e, rfl⟩)
      rintro ⟨seed, hok⟩
      cases hok
  | ok seed =>
      rw [hseed] at herror
      refine iff_of_true ⟨seed, rfl⟩ (by_contra fun hacc => ?_)
      obtain ⟨e, he⟩ := herror.mpr hacc
      cases he

/-- A source that can be stored is what the file says, trimmed. -/
theorem Storable.findSource {s : List Char} (h : Storable s) :
    findSource (body s) = some (Text.trim s) := by
  obtain ⟨hne, hstored⟩ := (storable_iff s).mp h
  obtain ⟨more, hbody, -⟩ := exists_findSource_body s
  rw [hbody, hstored, if_neg hne]

/-- Later starts leave a file with a source as it is. -/
theorem Later.eq {sha3 : List Byte → Bytes 32} {t v : List Char} {f : Option Contents}
    (hfind : Identity.findSource t = some v) (h : Later sha3 (some (.text t)) f) :
    f = some (.text t) := by
  induction h with
  | none => rfl
  | @start f random _ ih =>
      subst ih
      have hload : loadSource (calm random) (some (.text t)) = some v := hfind
      rw [init, hload]

/-- One hash without a collision under which a later start ends otherwise is enough. -/
theorem not_roundTrips_of_collisionless {s : List Char} {sha3 : List Byte → Bytes 32}
    {id : Identity} (random : BitVec 64) (hid : identityFromSource sha3 s = .ok id)
    (hcoll : Collisionless sha3 s (laterSource (calm random) (some (.text (body s)))))
    (hne : identityFromSource sha3 (laterSource (calm random) (some (.text (body s)))) ≠ .ok id) :
    ¬ RoundTrips s := by
  intro h
  have hlater := h sha3 none _ 0 random (.none) hcoll id hid
  rw [init_none] at hlater
  exact hne hlater

theorem not_roundTrips {s : List Char} {a : Seed} (ha : seedOf s = .ok a) (random : BitVec 64)
    (hne : ∀ b, seedOf (laterSource (calm random) (some (.text (body s)))) = .ok b → a ≠ b) :
    ¬ RoundTrips s := by
  have hid : ∀ sha3, identityFromSource sha3 s = .ok (a.identity sha3) := by
    intro sha3
    rw [identityFromSource_eq, ha]
    rfl
  cases hb : seedOf (laterSource (calm random) (some (.text (body s)))) with
  | error e =>
      obtain ⟨sha3, hinj⟩ := exists_injOn a
      refine not_roundTrips_of_collisionless random (hid sha3) (hinj.mono ?_) ?_
      · rintro x ⟨seed, hseed, hx⟩
        have heq : seed = a := by
          rcases hseed with hseed | hseed
          · exact Except.ok.inj (hseed.symm.trans ha)
          · cases hb.symm.trans hseed
        exact heq ▸ hx
      · rw [identityFromSource_eq, hb]
        intro heq
        cases heq
  | ok b =>
      obtain ⟨sha3, hinj, hsep⟩ := exists_separating (hne b hb)
      refine not_roundTrips_of_collisionless random (hid sha3) (hinj.mono ?_) ?_
      · rintro x ⟨seed, hseed, hx⟩
        rcases hseed with hseed | hseed
        · have heq : seed = a := Except.ok.inj (hseed.symm.trans ha)
          exact Or.inl (heq ▸ hx)
        · have heq : seed = b := Except.ok.inj (hseed.symm.trans hb)
          exact Or.inr (heq ▸ hx)
      · rw [identityFromSource_eq, hb]
        intro heq
        exact hsep (Except.ok.inj heq).symm

theorem seedOf_random (n : BitVec 64) (h : n = 0 ∨ n = 1) :
    seedOf (randomSource (some n)) = .ok (.hashed (toLeBytes64 n)) := by
  rcases h with rfl | rfl
  · rfl
  · rfl

/-- The sources that keep their identity. -/
theorem roundTrips_iff (s : List Char) : RoundTrips s ↔ (Accepted s → Storable s) := by
  constructor
  · intro h hacc
    by_contra hs
    obtain ⟨a, ha⟩ := (exists_seedOf_iff s).mpr hacc
    cases hfind : findSource (body s) with
    | some v =>
        have hload : laterSource (calm 0) (some (.text (body s))) = v := by
          show (findSource (body s)).getD _ = v
          rw [hfind]
          rfl
        refine not_roundTrips ha 0 (fun b hb => ?_) h
        rw [hload] at hb
        exact seedOf_ne hfind hs ha hb
    | none =>
        -- one of two random numbers differs from the seed of the source
        have hload : ∀ n, laterSource (calm n) (some (.text (body s))) =
            randomSource (some n) := by
          intro n
          show (findSource (body s)).getD _ = _
          rw [hfind]
          rfl
        by_cases hzero : a = .hashed (toLeBytes64 0)
        · refine not_roundTrips ha 1 (fun b hb => ?_) h
          rw [hload, seedOf_random 1 (Or.inr rfl)] at hb
          rw [hzero, ← Except.ok.inj hb]
          decide
        · refine not_roundTrips ha 0 (fun b hb => ?_) h
          rw [hload, seedOf_random 0 (Or.inl rfl)] at hb
          rw [← Except.ok.inj hb]
          exact hzero
  · -- the file does not change any more, and says the source
    intro h sha3 file f random random' hlater _ id hid
    have hid : identityFromSource sha3 s = .ok id := hid
    have hacc : Accepted s := by
      by_contra hacc
      obtain ⟨e, he⟩ := (identityFromSource_error_iff sha3 s).mpr hacc
      rw [he] at hid
      cases hid
    have hfind := (h hacc).findSource
    have hfile : f = some (.text (body s)) := Later.eq hfind hlater
    have hload : laterSource (calm random') f = Text.trim s := by
      rw [hfile]
      show (findSource (body s)).getD _ = _
      rw [hfind]
      rfl
    rw [init_none, hload, identityFromSource_eq, seedOf_trim, ← identityFromSource_eq]
    exact hid

/-! ## Numbers with a sign -/

/-- A number of at most fifteen digits behind a plus sign. -/
def SignedHex (s : List Char) : Prop :=
  ∃ ds, stripHex (Text.trim s) = some ('+' :: ds) ∧ ds ≠ [] ∧ ds.length ≤ 15 ∧
    ∀ c ∈ ds, (Numeral.toDigit 16 c).isSome

theorem exists_init_iff (sha3 : List Byte → Bytes 32) (host : Host) (file : Option Contents)
    (s : List Char) : (∃ id, (init sha3 host file (some s)).1 = .ok id) ↔ Accepted s := by
  show (∃ id, identityFromSource sha3 s = .ok id) ↔ _
  rw [identityFromSource_eq, ← exists_seedOf_iff]
  cases seedOf s with
  | error e =>
      refine iff_of_false ?_ ?_
      · rintro ⟨id, hid⟩
        cases hid
      · rintro ⟨seed, hseed⟩
        cases hseed
  | ok seed => exact iff_of_true ⟨_, rfl⟩ ⟨seed, rfl⟩

/-- Without a sign the accepted numbers are those of one to sixteen digits. -/
theorem isHexSeed_iff {hex : List Char} (h : ∀ ds, hex ≠ '+' :: ds) :
    IsHexSeed hex ↔
      0 < hex.length ∧ hex.length ≤ 16 ∧ ∀ c ∈ hex, (Numeral.toDigit 16 c).isSome := by
  have hdrop : Numeral.dropPlus hex = hex := by
    unfold Numeral.dropPlus
    split
    · next ds => exact absurd rfl (h ds)
    · rfl
  rw [IsHexSeed, hdrop, List.length_pos_iff]
  exact and_left_comm

theorem hexSeedsOnly_iff (s : List Char) : HexSeedsOnly s ↔ ¬ SignedHex s := by
  have haccepted : ∀ hex, stripHex (Text.trim s) = some hex → (Accepted s ↔ IsHexSeed hex) := by
    intro hex hstrip
    constructor
    · exact fun h => h hex hstrip
    · intro h hex' hstrip'
      exact Option.some.inj (hstrip.symm.trans hstrip') ▸ h
  have hplus : ¬ (Numeral.toDigit 16 '+').isSome := by decide
  constructor
  · rintro h ⟨ds, hstrip, hne, hlen, hdigits⟩
    have hiff := h (fun _ => Bytes.const 32 0) none 0 _ hstrip
    rw [exists_init_iff, haccepted _ hstrip] at hiff
    have hseed : IsHexSeed ('+' :: ds) := ⟨Nat.succ_le_succ hlen, hne, hdigits⟩
    exact hplus ((hiff.mp hseed).2.2 '+' List.mem_cons_self)
  · intro h sha3 file random hex hstrip
    rw [exists_init_iff, haccepted hex hstrip]
    by_cases hsign : ∃ ds, hex = '+' :: ds
    · -- an accepted number with a sign is excluded, and a sign is no digit
      obtain ⟨ds, rfl⟩ := hsign
      refine iff_of_false ?_ fun hhex => hplus (hhex.2.2 '+' List.mem_cons_self)
      rintro ⟨hlen, hne, hdigits⟩
      exact h ⟨ds, hstrip, hne, Nat.le_of_succ_le_succ hlen, hdigits⟩
    · exact isHexSeed_iff fun ds heq => hsign ⟨ds, heq⟩

/-- When a source keeps its identity over later starts, and is read as a number only if it is
one. -/
theorem identitySource_iff (s : List Char) :
    (RoundTrips s ∧ HexSeedsOnly s) ↔ (Accepted s → Storable s) ∧ ¬ SignedHex s :=
  and_congr (roundTrips_iff s) (hexSeedsOnly_iff s)

/-- An equals sign at the front is lost, and a plus sign is no digit. -/
theorem equals_sign_lost : ¬ RoundTrips "=a".toList ∧ ¬ HexSeedsOnly "0x+1".toList := by
  have hacc : Accepted "=a".toList := by
    intro hex hstrip
    have hnone : stripHex (Text.trim "=a".toList) = none := by decide
    cases hnone.symm.trans hstrip
  have hsigned : SignedHex "0x+1".toList := by
    refine ⟨['1'], by decide, by decide, by decide, ?_⟩
    intro c hc
    rw [List.mem_singleton.mp hc]
    decide
  constructor
  · exact fun h => ((roundTrips_iff _).mp h hacc).unmarked (by decide)
  · exact fun h => (hexSeedsOnly_iff _).mp h hsigned

end Identity

end SpEmu
