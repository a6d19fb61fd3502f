import SpEmu.Lib.Bytes
import SpEmu.Lib.Numeral

/-!
# The identity of an instance

Everything that tells one instance from another is derived from a master seed, and the seed from a
source text: an argument, the identity file, or fresh randomness. `init` chooses the source, saves
an argument or a fresh source to the file, and derives the identity.

The source is saved before it is looked at. `init_atomic_iff` says when a failing `init` leaves the
file as it was.
-/

set_option autoImplicit false

namespace SpEmu

open ByteMem

/-- What is derived for an instance. -/
structure Identity where
  spUid : Bytes 12
  rotUuid : Bytes 16
  diceCdi : Bytes 32
  pufUds : Bytes 32
  mac : Bytes 6

namespace Identity

/-- The bytes of a text. -/
def utf8 (s : List Char) : List Byte := (String.ofList s).toUTF8.toList.map UInt8.toBitVec

/-! ## Derivation -/

def tagSpUid : List Byte := utf8 "sp-emu/stm32h753-uid".toList
def tagRotUuid : List Byte := utf8 "sp-emu/lpc55-device-uuid".toList
def tagDiceCdi : List Byte := utf8 "sp-emu/lpc55-dice-cdi".toList
def tagPufUds : List Byte := utf8 "sp-emu/lpc55-puf-uds".toList
def tagMac : List Byte := utf8 "sp-emu/vpd-mac-base".toList

def legacySource : List Char := "legacy".toList

def legacySpUidWords : List Word := [0x53504D45, 0x2D454D55, 0x00000001]

def legacyDiceCdiWords : List Word :=
  [0xC0DED1CE, 0x0BADF00D, 0x12345678, 0x9ABCDEF0, 0x0F1E2D3C, 0x4B5A6978, 0x8796A5B4, 0xC3D2E1F0]

def legacyPufUds : List Byte := utf8 "SP-EMU-PUF-dice-seed-v1.0.0-!!!!".toList

def legacyMaster : List Byte := utf8 "sp-emu-legacy-identity-master-v1".toList

/-- The first bytes of a list. -/
def ofBytes (n : Nat) (bytes : List Byte) : Bytes n := fun i => bytes.getD i.val 0

def wordsToLeBytes (n : Nat) (words : List Word) : Bytes n :=
  ofBytes n (words.flatMap (toLeBytes 4))

section Digest

variable (sha3 : List Byte → Bytes 32)

/-- SHA3-256 of the master seed and a tag, cut to the width of the field. -/
def derive (master : Bytes 32) (tag : List Byte) (n : Nat) : Bytes n :=
  fun i => (sha3 (List.ofFn master ++ tag)).get i.val

/-- The UUID is shaped as one of version 3, and the MAC as locally administered and unicast. -/
def fromMaster (master : Bytes 32) : Identity where
  spUid := derive sha3 master tagSpUid 12
  rotUuid := fun i =>
    let b := derive sha3 master tagRotUuid 16 i
    if i.val = 6 then (b &&& 0x0F) ||| 0x30
    else if i.val = 8 then (b &&& 0x3F) ||| 0x80
    else b
  diceCdi := derive sha3 master tagDiceCdi 32
  pufUds := derive sha3 master tagPufUds 32
  mac := fun i =>
    let b := derive sha3 master tagMac 6 i
    if i.val = 0 then (b ||| 0x02) &&& ~~~0x01 else b

/-- The fixed identity. -/
def legacy : Identity :=
  { fromMaster sha3 (ofBytes 32 legacyMaster) with
    spUid := wordsToLeBytes 12 legacySpUidWords
    diceCdi := wordsToLeBytes 32 legacyDiceCdiWords
    pufUds := ofBytes 32 legacyPufUds }

/-! ## Sources -/

/-- The text behind a prefix 0x or 0X. -/
def stripHex : List Char → Option (List Char)
  | '0' :: 'x' :: hex => some hex
  | '0' :: 'X' :: hex => some hex
  | _ => none

/-- A hexadecimal number of 64 bits, without its prefix. -/
def parseHexU64 (hex : List Char) : Except String (BitVec 64) :=
  let len := (hex.map Char.utf8Size).sum
  if hex = [] then .error "--seed 0x… is missing its hex value"
  else if 16 < len then
    .error s!"--seed 0x{String.ofList hex} exceeds 64 bits ({len} hex digits, max 16)"
  else
    match Numeral.parseUInt 16 64 hex with
    | some n => .ok (BitVec.ofNat 64 n)
    | none => .error s!"--seed 0x{String.ofList hex} is not valid hexadecimal"

def toLeBytes64 (n : BitVec 64) : List Byte :=
  (List.range 8).map fun i => (n >>> (8 * i)).setWidth 8

def identityFromSource (source : List Char) : Except String Identity :=
  let s := Text.trim source
  if s.map Char.toLower = legacySource then .ok (legacy sha3)
  else
    match stripHex s with
    | some hex => (parseHexU64 hex).map fun n => fromMaster sha3 (sha3 (toLeBytes64 n))
    | none => .ok (fromMaster sha3 (sha3 (utf8 s)))

/-! ## The identity file -/

/-- What a file holds: text, or bytes that are none. -/
inductive Contents where
  | text (t : List Char)
  | other (bytes : List Byte)

/-- How the write of a file ends: it goes through, or it fails and leaves something. -/
inductive WriteEnd where
  | done
  | failed (left : Option Contents)

/-- What the host does in one start: whether a file can be read, how a write ends, and the bytes of
its random device. -/
structure Host where
  readable : Bool
  writeEnd : WriteEnd
  random : Option (BitVec 64)

def stripPrefix (pre s : List Char) : Option (List Char) :=
  if pre.isPrefixOf s then some (s.drop pre.length) else none

/-- The source in a text: the first line that begins with seed and says something. -/
def findSource (t : List Char) : Option (List Char) :=
  (Text.lines t).findSome? fun line => do
    let v ← stripPrefix "seed".toList (Text.trim line)
    let v := Text.trim (v.dropWhile fun c => c = ' ' || c = '=')
    if v = [] then none else some v

def loadSource (host : Host) : Option Contents → Option (List Char)
  | some (.text t) => if host.readable then findSource t else none
  | _ => none

/-- The comment that the file begins with. -/
def header : List Char :=
  "# sp-emu per-instance identity (see src/identity.rs)\n".toList ++
  "# Delete this file to mint a new identity, or pass --seed to set one.\n".toList ++
  "# Sources: `legacy`, a 0x-prefixed hex u64, or any string.\n".toList

def body (source : List Char) : List Char := header ++ "seed = ".toList ++ source ++ ['\n']

/-- A write that fails is reported and no error. -/
def saveSource (host : Host) (source : List Char) : Option Contents :=
  match host.writeEnd with
  | .done => some (.text (body source))
  | .failed left => left

/-- The sixteen digits of a number. -/
def hex16 (n : BitVec 64) : List Char :=
  (List.range 16).map fun i => Nat.digitChar ((n.toNat >>> (4 * (15 - i))) % 16)

def randomSource : Option (BitVec 64) → List Char
  | some n => '0' :: 'x' :: hex16 n
  | none => legacySource

/-- The identity of a start, and the file after it. -/
def init (host : Host) (file : Option Contents) (seedArg : Option (List Char)) :
    Except String Identity × Option Contents :=
  match seedArg with
  | some s => (identityFromSource sha3 s, saveSource host s)
  | none =>
      match loadSource host file with
      | some s => (identityFromSource sha3 s, file)
      | none =>
          let s := randomSource host.random
          (identityFromSource sha3 s, saveSource host s)

/-! ## Which sources are accepted -/

/-- Digits behind an optional plus sign, sixteen characters at most. -/
def IsHexSeed (hex : List Char) : Prop :=
  hex.length ≤ 16 ∧ Numeral.dropPlus hex ≠ [] ∧
    ∀ c ∈ Numeral.dropPlus hex, (Numeral.toDigit 16 c).isSome

/-- A source that begins like a number has to be one. -/
def Accepted (source : List Char) : Prop :=
  ∀ hex, stripHex (Text.trim source) = some hex → IsHexSeed hex

/-- A digit of a number in base sixteen lies between 0 and f. -/
theorem toNat_of_digit {c : Char} (h : (Numeral.toDigit 16 c).isSome) :
    48 ≤ c.toNat ∧ c.toNat ≤ 102 := by
  obtain ⟨d, hd⟩ := Option.isSome_iff_exists.mp h
  have hsome := (Option.filter_eq_some_iff.mp hd).1
  split at hsome
  · rename_i hc
    exact ⟨hc.1, Nat.le_trans hc.2 (by decide)⟩
  · split at hsome
    · rename_i hc
      exact ⟨Nat.le_trans (by decide) hc.1, hc.2⟩
    · split at hsome
      · rename_i hc
        exact ⟨Nat.le_trans (by decide) hc.1, Nat.le_trans hc.2 (by decide)⟩
      · cases hsome

theorem utf8Size_of_digit {c : Char} (h : (Numeral.toDigit 16 c).isSome) : c.utf8Size = 1 := by
  have hle := (toNat_of_digit h).2
  unfold Char.utf8Size
  exact if_pos (Nat.le_trans hle (by decide))

theorem length_le_utf8 (s : List Char) : s.length ≤ (s.map Char.utf8Size).sum := by
  induction s with
  | nil => exact Nat.le_refl 0
  | cons c cs ih =>
      rw [List.length_cons, List.map_cons, List.sum_cons]
      have hpos := Char.utf8Size_pos c
      omega

theorem utf8_of_digits {s : List Char} (h : ∀ c ∈ s, (Numeral.toDigit 16 c).isSome) :
    (s.map Char.utf8Size).sum = s.length := by
  induction s with
  | nil => rfl
  | cons c cs ih =>
      obtain ⟨hc, hcs⟩ := List.forall_mem_cons.mp h
      rw [List.map_cons, List.sum_cons, List.length_cons, utf8Size_of_digit hc, ih hcs,
        Nat.add_comm]

theorem utf8_eq_length {hex : List Char}
    (h : ∀ c ∈ Numeral.dropPlus hex, (Numeral.toDigit 16 c).isSome) :
    (hex.map Char.utf8Size).sum = hex.length := by
  unfold Numeral.dropPlus at h
  split at h
  · rename_i cs
    rw [List.map_cons, List.sum_cons, List.length_cons, utf8_of_digits h, Nat.add_comm]
    rfl
  · exact utf8_of_digits h

theorem length_dropPlus_le (s : List Char) : (Numeral.dropPlus s).length ≤ s.length := by
  unfold Numeral.dropPlus
  split
  · exact Nat.le_succ _
  · exact Nat.le_refl _

theorem parseHexU64_ok_iff (hex : List Char) :
    (∃ n, parseHexU64 hex = .ok n) ↔ IsHexSeed hex := by
  unfold parseHexU64
  dsimp only
  constructor
  · rintro ⟨n, h⟩
    split at h
    · cases h
    · split at h
      · cases h
      · rename_i hlong
        split at h
        · rename_i v hv
          -- the bound counts bytes, of which a character has one at least
          have hlen : hex.length ≤ 16 := Nat.le_trans (length_le_utf8 hex) (by omega)
          have hfits : 16 ^ (Numeral.dropPlus hex).length ≤ 2 ^ 64 :=
            Nat.pow_le_pow_right (n := 16) (by decide)
              (Nat.le_trans (length_dropPlus_le hex) hlen)
          have hsome : (Numeral.parseUInt 16 64 hex).isSome := by rw [hv]; rfl
          exact ⟨hlen, (Numeral.isSome_parseUInt_iff hfits).mp hsome⟩
        · cases h
  · rintro ⟨hlen, hne, hdigits⟩
    have hfits : 16 ^ (Numeral.dropPlus hex).length ≤ 2 ^ 64 :=
      Nat.pow_le_pow_right (n := 16) (by decide) (Nat.le_trans (length_dropPlus_le hex) hlen)
    obtain ⟨v, hv⟩ := Option.isSome_iff_exists.mp
      ((Numeral.isSome_parseUInt_iff hfits).mpr ⟨hne, hdigits⟩)
    have hnil : hex ≠ [] := by
      rintro rfl
      exact hne rfl
    rw [if_neg hnil, utf8_eq_length hdigits, if_neg (by omega), hv]
    exact ⟨_, rfl⟩

theorem stripHex_of_legacy {s : List Char} (h : s.map Char.toLower = legacySource) :
    stripHex s = none := by
  unfold stripHex
  split
  · have hhead := congrArg List.head? h
    exact absurd hhead (by decide : some '0' ≠ some 'l')
  · have hhead := congrArg List.head? h
    exact absurd hhead (by decide : some '0' ≠ some 'l')
  · rfl

theorem identityFromSource_error_iff (source : List Char) :
    (∃ e, identityFromSource sha3 source = .error e) ↔ ¬ Accepted source := by
  unfold identityFromSource Accepted
  dsimp only
  split
  -- the fixed identity has no number in it
  · rename_i hlegacy
    rw [stripHex_of_legacy hlegacy]
    refine iff_of_false ?_ fun h => h fun hex hno => by cases hno
    rintro ⟨e, he⟩
    cases he
  · cases hstrip : stripHex (Text.trim source) with
    | none =>
        refine iff_of_false ?_ fun h => h fun hex hno => by cases hno
        rintro ⟨e, he⟩
        cases he
    | some hex =>
        have haccept : (∀ hex', some hex = some hex' → IsHexSeed hex') ↔
            ∃ n, parseHexU64 hex = .ok n := by
          rw [parseHexU64_ok_iff]
          exact ⟨fun h => h hex rfl, fun h hex' heq => Option.some.inj heq ▸ h⟩
        rw [haccept]
        dsimp only
        cases parseHexU64 hex with
        | error e =>
            refine iff_of_true ⟨e, rfl⟩ ?_
            rintro ⟨n, hn⟩
            cases hn
        | ok n =>
            refine iff_of_false ?_ fun h => h ⟨n, rfl⟩
            rintro ⟨e, he⟩
            cases he

theorem mem_hex16 {n : BitVec 64} {c : Char} (h : c ∈ hex16 n) :
    (Numeral.toDigit 16 c).isSome ∧ c ≠ '+' ∧ Text.isWhitespace c = false := by
  obtain ⟨i, -, rfl⟩ := List.mem_map.mp h
  have hall : ∀ d < 16, (Numeral.toDigit 16 (Nat.digitChar d)).isSome ∧ Nat.digitChar d ≠ '+' ∧
      Text.isWhitespace (Nat.digitChar d) = false := by decide
  exact hall _ (Nat.mod_lt _ (by decide))

theorem isHexSeed_hex16 (n : BitVec 64) : IsHexSeed (hex16 n) := by
  obtain ⟨c, cs, hcons⟩ : ∃ c cs, hex16 n = c :: cs := ⟨_, _, rfl⟩
  have hc : c ∈ hex16 n := hcons ▸ List.mem_cons_self
  have hdrop : Numeral.dropPlus (hex16 n) = hex16 n := by
    rw [hcons, Numeral.dropPlus_cons (mem_hex16 hc).2.1]
  have hlen : (hex16 n).length = 16 := by rw [hex16, List.length_map, List.length_range]
  refine ⟨Nat.le_of_eq hlen, ?_, ?_⟩
  · rw [hdrop, hcons]
    exact List.cons_ne_nil c cs
  · rw [hdrop]
    exact fun d hd => (mem_hex16 hd).1

/-- A fresh source is never refused. -/
theorem accepted_randomSource (random : Option (BitVec 64)) : Accepted (randomSource random) := by
  intro hex hstrip
  cases random with
  | none =>
      have hnone : stripHex (Text.trim legacySource) = none := by decide
      cases hnone.symm.trans hstrip
  | some n =>
      have hne : hex16 n ≠ [] := List.ne_nil_of_length_pos (by
        rw [hex16, List.length_map, List.length_range]
        decide)
      have hlast := (mem_hex16 (List.getLast_mem hne)).2.2
      have htrim : Text.trim (randomSource (some n)) = '0' :: 'x' :: hex16 n := by
        have hself := Text.trim_eq_self (a := '0') (by decide) hlast ('x' :: (hex16 n).dropLast)
        rwa [List.cons_append, List.dropLast_append_getLast hne] at hself
      rw [htrim] at hstrip
      cases hstrip
      exact isHexSeed_hex16 n

/-! ## A start that fails -/

/-- A start that fails leaves the identity file alone. -/
def Atomic (host : Host) (file : Option Contents) (seedArg : Option (List Char)) : Prop :=
  ∀ e, (init sha3 host file seedArg).1 = .error e → (init sha3 host file seedArg).2 = file

/-- The file would be written as it is. -/
def Kept (host : Host) (file : Option Contents) (source : List Char) : Prop :=
  match host.writeEnd with
  | .done => file = some (.text (body source))
  | .failed left => left = file

/-- A failing start leaves the file alone unless an argument is refused that the file does not hold
already. -/
theorem init_atomic_iff (host : Host) (file : Option Contents) (seedArg : Option (List Char)) :
    Atomic sha3 host file seedArg ↔
      ∀ s, seedArg = some s → Accepted s ∨ Kept host file s := by
  unfold Atomic init
  cases seedArg with
  | some s =>
      dsimp only
      -- the argument is saved whether it is refused or not
      have hkept : saveSource host s = file ↔ Kept host file s := by
        unfold saveSource Kept
        cases host.writeEnd with
        | done => exact eq_comm
        | failed left => exact Iff.rfl
      constructor
      · rintro h s' hs
        cases hs
        by_cases hacc : Accepted s
        · exact .inl hacc
        · obtain ⟨e, he⟩ := (identityFromSource_error_iff sha3 s).mpr hacc
          exact .inr (hkept.mp (h e he))
      · intro h e he
        rcases h s rfl with hacc | hkeep
        · exact absurd hacc ((identityFromSource_error_iff sha3 s).mp ⟨e, he⟩)
        · exact hkept.mpr hkeep
  | none =>
      refine iff_of_true (fun e he => ?_) fun s hs => by cases hs
      dsimp only at he ⊢
      cases hload : loadSource host file with
      | some s => rfl
      | none =>
          rw [hload] at he
          exact absurd (accepted_randomSource host.random)
            ((identityFromSource_error_iff sha3 _).mp ⟨e, he⟩)

end Digest

/-- A host on which nothing fails. -/
def plainHost : Host := ⟨true, .done, some 0⟩

theorem body_inj {s t : List Char} (h : body s = body t) : s = t := by
  unfold body at h
  exact List.append_cancel_left (List.append_cancel_right h)

/-- A refused argument replaces a good file, and every later start fails. -/
theorem not_atomic : ¬ Atomic (fun _ => Bytes.const 32 0) plainHost
    (some (.text (body legacySource))) (some "0xZZ".toList) := by
  intro h
  have hrefused : ¬ Accepted "0xZZ".toList := fun hacc =>
    absurd ((hacc "ZZ".toList rfl).2.2 'Z' (by decide)) (by decide)
  obtain ⟨e, he⟩ := (identityFromSource_error_iff (fun _ => Bytes.const 32 0) _).mpr hrefused
  have hbody := body_inj (Contents.text.inj (Option.some.inj (h e he)))
  exact absurd hbody (by decide)

end Identity

end SpEmu
