import SpEmu.Lib.Numeral
import SpEmu.Soc.Tlvc

/-!
# The identity of an SP in its VPD EEPROM

`buildVpdEeprom` writes the MAC address block and the barcode of an SP as TLV-C chunks. Both depend
on the index of the instance, which `a4x2Offset` takes from the port of its bridge. `identityOf`
reads them back from an image.

A MAC block starts one address after that of the instance before it and counts 128 addresses, so
that the blocks of all instances overlap, and with the block of the sidecar (`identities_overlap`).
The serial number ends in the first digit of the index only.
-/

set_option autoImplicit false

namespace SpEmu

open ByteMem Tlvc

namespace Vpd

/-! ## The instance -/

/-- Instance `k` binds its bridge to this port plus `10 * k`. -/
def a4x2BasePort : Nat := 33300

/-- The port offset of a bridge address in the a4x2 layout. -/
def a4x2Offset (bridge : List Char) : Option Nat := do
  let port ← Numeral.parseUInt 10 16 (← (bridge.splitOn ':').getLast?)
  if port < a4x2BasePort then none
  else (some (port - a4x2BasePort)).filter fun off => off % 10 = 0 ∧ off < 1000

/-- The settings that the image depends on. -/
structure Config where
  sidecar : Bool
  bridge : Option (List Char)
  vpdSerial : Option (List Char)
  vpdPart : Option (List Char)
  vpdRev : Option (List Char)

variable (cfg : Config)

def offset : Option Nat := cfg.bridge.bind a4x2Offset

def idx : Byte := ((offset cfg).map fun off => BitVec.ofNat 8 (off / 10)).getD 0

/-! ## The image -/

/-- Drop what the barcode format cannot hold, and bound the length. -/
def vpdAsciiField (value : List Char) (max : Nat) : List Char :=
  (value.filter fun c => ' ' ≤ c ∧ c ≤ '~' ∧ c ≠ ':').take max

def macLast : Byte := if cfg.sidecar then 0x30 else 0x20 + idx cfg

/-- The base address, the count and the stride. -/
def mac0 : List Byte := [0x0E, 0x1D, 0xB7, 0xFE, 0x45, macLast cfg, 128, 0, 1]

def serial : List Char :=
  vpdAsciiField (cfg.vpdSerial.getD
    (if cfg.sidecar then "BRM42220001".toList
     else "BRM4422000".toList ++ Nat.toDigits 10 (idx cfg).toNat)) 11

def part : List Char :=
  vpdAsciiField (cfg.vpdPart.getD
    (if cfg.sidecar then "SIDECAR-C".toList else "913-0000019".toList)) 11

def rev : List Char := vpdAsciiField (cfg.vpdRev.getD "002".toList) 11

def asciiBytes (s : List Char) : List Byte := s.map fun c => BitVec.ofNat 8 c.toNat

/-- The separator of the barcode fields. -/
def colon : Byte := 0x3A

def barc : List Byte :=
  [colon].intercalate
    [asciiBytes "0XV2".toList, asciiBytes (part cfg), asciiBytes (rev cfg), asciiBytes (serial cfg)]

def tagMac0 : Tag := ⟨0x4D, 0x41, 0x43, 0x30⟩
def tagBarc : Tag := ⟨0x42, 0x41, 0x52, 0x43⟩
def tagFru0 : Tag := ⟨0x46, 0x52, 0x55, 0x30⟩

def fru0 : List Byte := [⟨tagMac0, mac0 cfg⟩, ⟨tagBarc, barc cfg⟩].flatMap Chunk.write

/-- The image of 1024 bytes, blank after the root chunk. -/
def buildVpdEeprom : List Byte :=
  let root := tlvcChunk tagFru0 (fru0 cfg)
  root ++ List.replicate (1024 - root.length) 0xFF

/-! ## The identity in an image -/

structure MacBlock where
  base : Nat
  count : Nat
  stride : Nat
deriving DecidableEq

def MacBlock.Contains (b : MacBlock) (mac : Nat) : Prop :=
  ∃ k < b.count, mac = b.base + k * b.stride

def MacBlock.Disjoint (b b' : MacBlock) : Prop := ∀ mac, b.Contains mac → ¬b'.Contains mac

structure Identity where
  macs : MacBlock
  serial : List Byte
deriving DecidableEq

/-- The base address is big endian, the count little endian. -/
def readMacBlock : List Byte → Option MacBlock
  | [m₀, m₁, m₂, m₃, m₄, m₅, c₀, c₁, s] =>
      some ⟨[m₀, m₁, m₂, m₃, m₄, m₅].foldl (fun n b => n * 256 + b.toNat) 0,
        c₀.toNat + 256 * c₁.toNat, s.toNat⟩
  | _ => none

def readSerial (barcode : List Byte) : Option (List Byte) :=
  match barcode.splitOn colon with
  | [_, _, _, serial] => some serial
  | _ => none

def identityOf (image : List Byte) : Option Identity := do
  let (root, _) ← readChunk image
  let (cs, rest) := chunks.cut root.body
  if root.tag = tagFru0 ∧ rest = [] then
    let mac ← cs.find? (·.tag = tagMac0)
    let barc ← cs.find? (·.tag = tagBarc)
    some ⟨← readMacBlock mac.body, ← readSerial barc.body⟩
  else none

/-! ## What the image of a configuration holds -/

theorem length_vpdAsciiField (value : List Char) (max : Nat) :
    (vpdAsciiField value max).length ≤ max :=
  (List.length_take_le _ _)

theorem colon_not_mem_field (value : List Char) (max : Nat) :
    colon ∉ asciiBytes (vpdAsciiField value max) := by
  intro h
  obtain ⟨c, hc, hcolon⟩ := List.mem_map.mp h
  have hkept := (List.mem_filter.mp (List.mem_of_mem_take hc)).2
  simp only [decide_eq_true_eq] at hkept
  obtain ⟨-, htop, hne⟩ := hkept
  have hsmall : c.toNat ≤ '~'.toNat := htop
  have hnat := congrArg BitVec.toNat hcolon
  rw [BitVec.toNat_ofNat, Nat.mod_eq_of_lt (Nat.lt_of_le_of_lt hsmall (by decide))] at hnat
  exact hne (Char.toNat_inj.mp hnat)

/-- Printable seven-bit ASCII. -/
def printable (b : Byte) : Bool := decide (0x20 ≤ b) && decide (b ≤ 0x7E)

theorem printable_field (value : List Char) (max : Nat) :
    ∀ b ∈ asciiBytes (vpdAsciiField value max), printable b = true := by
  intro b hb
  obtain ⟨c, hc, rfl⟩ := List.mem_map.mp hb
  have hkept := (List.mem_filter.mp (List.mem_of_mem_take hc)).2
  simp only [decide_eq_true_eq] at hkept
  obtain ⟨hbottom, htop, -⟩ := hkept
  have hlow : 32 ≤ c.toNat := hbottom
  have hhigh : c.toNat ≤ 126 := htop
  have hnat : (BitVec.ofNat 8 c.toNat).toNat = c.toNat := by
    rw [BitVec.toNat_ofNat, Nat.mod_eq_of_lt (by omega)]
  rw [printable, Bool.and_eq_true, decide_eq_true_eq, decide_eq_true_eq, BitVec.le_def,
    BitVec.le_def, hnat]
  exact ⟨hlow, hhigh⟩

theorem length_barc : (barc cfg).length ≤ 40 := by
  have hpart : (part cfg).length ≤ 11 := length_vpdAsciiField _ _
  have hrev : (rev cfg).length ≤ 11 := length_vpdAsciiField _ _
  have hserial : (serial cfg).length ≤ 11 := length_vpdAsciiField _ _
  simp [barc, asciiBytes, List.intercalate]
  omega

theorem splitOn_barc : (barc cfg).splitOn colon =
    [asciiBytes "0XV2".toList, asciiBytes (part cfg), asciiBytes (rev cfg),
      asciiBytes (serial cfg)] := by
  refine List.splitOn_intercalate colon (fun field hfield => ?_) (List.cons_ne_nil _ _)
  simp only [List.mem_cons, List.not_mem_nil, or_false] at hfield
  rcases hfield with rfl | rfl | rfl | rfl
  · decide
  · exact colon_not_mem_field _ _
  · exact colon_not_mem_field _ _
  · exact colon_not_mem_field _ _

theorem readSerial_barc : readSerial (barc cfg) = some (asciiBytes (serial cfg)) := by
  rw [readSerial, splitOn_barc]

theorem readMacBlock_mac0 :
    readMacBlock (mac0 cfg) = some ⟨0x0E1DB7FE4500 + (macLast cfg).toNat, 128, 1⟩ := rfl

theorem fru0_cut : chunks.cut (fru0 cfg) = ([⟨tagMac0, mac0 cfg⟩, ⟨tagBarc, barc cfg⟩], []) := by
  refine cut_chunks fun c hc => ?_
  rcases List.mem_cons.mp hc with rfl | hc
  · exact (by decide : 9 < 2 ^ 32)
  · obtain rfl := List.mem_singleton.mp hc
    exact Nat.lt_of_le_of_lt (length_barc cfg) (by decide)

/-- A field of the barcode. -/
def IsField (f : List Byte) : Prop := f.length ≤ 11 ∧ ∀ b ∈ f, printable b = true

theorem isField_vpdAsciiField (value : List Char) :
    IsField (asciiBytes (vpdAsciiField value 11)) := by
  refine ⟨?_, printable_field value 11⟩
  rw [asciiBytes, List.length_map]
  exact length_vpdAsciiField value 11

theorem isField_of_mem_splitOn {f : List Byte} (h : f ∈ (barc cfg).splitOn colon) : IsField f := by
  rw [splitOn_barc] at h
  simp only [List.mem_cons, List.not_mem_nil, or_false] at h
  rcases h with rfl | rfl | rfl | rfl
  · exact ⟨by decide, by decide⟩
  · exact isField_vpdAsciiField _
  · exact isField_vpdAsciiField _
  · exact isField_vpdAsciiField _

/-- Chunks are read back whatever they are nested in, and the barcode that is among the chunks of
the image has four fields. -/
theorem chunks_recovered :
    (∀ n : Nested, n.Fits → Nested.read n.shape 0 n.write = some n) ∧
    ∀ cfg : Config, (⟨tagBarc, barc cfg⟩ : Chunk) ∈ (chunks.cut (fru0 cfg)).1 ∧
      ((barc cfg).splitOn colon).length = 4 ∧ ∀ f ∈ (barc cfg).splitOn colon, IsField f := by
  refine ⟨fun n hn => Nested.read_write hn rfl, fun cfg => ⟨?_, ?_, ?_⟩⟩
  · rw [fru0_cut]
    exact List.mem_cons_of_mem _ (List.mem_singleton_self _)
  · rw [splitOn_barc]
    rfl
  · exact fun f hf => isField_of_mem_splitOn cfg hf

/-- A body of five bytes in a chunk, and an empty one behind it. -/
theorem chunks_recovered_root :
    let n : Nested := .inner tagFru0 (.body tagMac0 [1, 2, 3, 4, 5] (.body tagBarc [] .nil)) .nil
    Nested.read n.shape 0 n.write = some n :=
  chunks_recovered.1 _ ⟨by decide, ⟨by decide, by decide, trivial⟩, trivial⟩

theorem length_fru0 : (fru0 cfg).length ≤ 84 := by
  have hbarc := length_barc cfg
  simp [fru0, Chunk.write, tlvcChunk, padWord, mac0, Tag.bytes, toLeBytes]
  omega

theorem identityOf_buildVpdEeprom :
    identityOf (buildVpdEeprom cfg) =
      some ⟨⟨0x0E1DB7FE4500 + (macLast cfg).toNat, 128, 1⟩, asciiBytes (serial cfg)⟩ := by
  have hshort : (fru0 cfg).length < 2 ^ 32 := Nat.lt_of_le_of_lt (length_fru0 cfg) (by decide)
  rw [identityOf, buildVpdEeprom, readChunk_tlvcChunk hshort, Option.bind_eq_bind, Option.bind_some]
  dsimp only
  have hmac : [(⟨tagMac0, mac0 cfg⟩ : Chunk), ⟨tagBarc, barc cfg⟩].find? (·.tag = tagMac0) =
      some ⟨tagMac0, mac0 cfg⟩ := rfl
  have hbarc : [(⟨tagMac0, mac0 cfg⟩ : Chunk), ⟨tagBarc, barc cfg⟩].find? (·.tag = tagBarc) =
      some ⟨tagBarc, barc cfg⟩ := rfl
  rw [fru0_cut]
  dsimp only
  rw [if_pos ⟨rfl, rfl⟩, hmac, hbarc]
  simp only [Option.bind_eq_bind, Option.bind_some, readMacBlock_mac0, readSerial_barc]

/-! ## Two instances and the sidecar -/

theorem offset_spec {cfg : Config} {off : Nat} (h : offset cfg = some off) :
    off % 10 = 0 ∧ off < 1000 := by
  obtain ⟨bridge, -, h⟩ := Option.bind_eq_some_iff.mp h
  obtain ⟨text, -, h⟩ := Option.bind_eq_some_iff.mp h
  obtain ⟨port, -, h⟩ := Option.bind_eq_some_iff.mp h
  split at h
  · cases h
  · have hfilter := (Option.filter_eq_some_iff.mp h).2
    simpa using hfilter

theorem toNat_idx {cfg : Config} {off : Nat} (h : offset cfg = some off) :
    (idx cfg).toNat = off / 10 := by
  obtain ⟨-, hlt⟩ := offset_spec h
  rw [idx, h, Option.map_some, Option.getD_some, BitVec.toNat_ofNat, Nat.mod_eq_of_lt (by omega)]

/-- The first decimal digit of an index below 100. -/
def leading (k : Nat) : Nat := if k < 10 then k else k / 10

/-- Of the index, the serial number has room for the first digit. -/
theorem serial_default {cfg : Config} (hside : cfg.sidecar = false) (hserial : cfg.vpdSerial = none)
    {off : Nat} (h : offset cfg = some off) :
    serial cfg = "BRM4422000".toList ++ [(leading (off / 10)).digitChar] := by
  have htrunc : ∀ k < 100, vpdAsciiField ("BRM4422000".toList ++ Nat.toDigits 10 k) 11 =
      "BRM4422000".toList ++ [(leading k).digitChar] := by decide +kernel
  obtain ⟨-, hlt⟩ := offset_spec h
  rw [serial, hserial, Option.getD_none, hside, if_neg Bool.false_ne_true, toNat_idx h]
  exact htrunc _ (by omega)

theorem macLast_of_offset {cfg : Config} (hside : cfg.sidecar = false) {off : Nat}
    (h : offset cfg = some off) : (macLast cfg).toNat = 0x20 + off / 10 := by
  obtain ⟨-, hlt⟩ := offset_spec h
  rw [macLast, hside, if_neg Bool.false_ne_true, BitVec.toNat_add, toNat_idx h]
  exact Nat.mod_eq_of_lt (by show 0x20 + off / 10 < 256; omega)

theorem MacBlock.Disjoint.symm {b b' : MacBlock} (h : b.Disjoint b') : b'.Disjoint b :=
  fun mac h' hb => h mac hb h'

/-- Two blocks overlap when the one starts among the addresses of the other. -/
theorem not_disjoint {a b n : Nat} (hle : a ≤ b) (hlt : b < a + n) :
    ¬(⟨a, n, 1⟩ : MacBlock).Disjoint ⟨b, n, 1⟩ := by
  intro h
  refine h b ⟨b - a, ?_, ?_⟩ ⟨0, ?_, ?_⟩
  · show b - a < n
    omega
  · show b = a + (b - a) * 1
    omega
  · show 0 < n
    omega
  · show b = b + 0 * 1
    omega

/-- Blocks of 128 addresses that start less than 128 addresses apart overlap. -/
theorem not_disjoint_of_near {base a b : Nat} (hab : a < b + 128) (hba : b < a + 128) :
    ¬(⟨base + a, 128, 1⟩ : MacBlock).Disjoint ⟨base + b, 128, 1⟩ := by
  rcases Nat.le_total a b with hle | hle
  · exact not_disjoint (by omega) (by omega)
  · exact fun h => not_disjoint (by omega) (by omega) h.symm

/-- What distinct identities of two instances and the sidecar would be. -/
structure Apart (i₁ i₂ side : Identity) : Prop where
  serials : i₁.serial ≠ i₂.serial
  macs : i₁.macs.Disjoint i₂.macs
  side₁ : i₁.macs.Disjoint side.macs
  side₂ : i₂.macs.Disjoint side.macs

theorem digitChar_injOn {j k : Nat} (hj : j < 10) (hk : k < 10) (h : j.digitChar = k.digitChar) :
    j = k := by
  have hj' := Numeral.toDigit_digitChar (by decide : 10 ≤ 16) hj
  rw [h, Numeral.toDigit_digitChar (by decide) hk] at hj'
  exact (Option.some.inj hj').symm

/-- Two default serial numbers are equal when the indices begin with the same digit. -/
theorem serial_eq_iff {c₁ c₂ : Config} (h₁ : c₁.sidecar = false) (h₂ : c₂.sidecar = false)
    (hs₁ : c₁.vpdSerial = none) (hs₂ : c₂.vpdSerial = none) {o₁ o₂ : Nat}
    (ho₁ : offset c₁ = some o₁) (ho₂ : offset c₂ = some o₂) :
    serial c₁ = serial c₂ ↔ leading (o₁ / 10) = leading (o₂ / 10) := by
  have hlead : ∀ {o : Nat}, o < 1000 → leading (o / 10) < 10 := by
    intro o ho
    rw [leading]
    split_ifs <;> omega
  rw [serial_default h₁ hs₁ ho₁, serial_default h₂ hs₂ ho₂]
  constructor
  · intro h
    have hlast := List.singleton_inj.mp (List.append_cancel_left h)
    exact digitChar_injOn (hlead (offset_spec ho₁).2) (hlead (offset_spec ho₂).2) hlast
  · intro h
    rw [h]

/-- No two instances have distinct identities: their blocks overlap, and both overlap the block of
the sidecar. This holds of equal offsets too. -/
theorem identities_overlap {c₁ c₂ side : Config} (h₁ : c₁.sidecar = false)
    (h₂ : c₂.sidecar = false) (hside : side.sidecar = true) {o₁ o₂ : Nat}
    (ho₁ : offset c₁ = some o₁) (ho₂ : offset c₂ = some o₂) :
    ∃ i₁ i₂ j, identityOf (buildVpdEeprom c₁) = some i₁ ∧
      identityOf (buildVpdEeprom c₂) = some i₂ ∧ identityOf (buildVpdEeprom side) = some j ∧
      ¬i₁.macs.Disjoint i₂.macs ∧ ¬i₁.macs.Disjoint j.macs ∧ ¬i₂.macs.Disjoint j.macs ∧
      ¬Apart i₁ i₂ j := by
  have hlt₁ := (offset_spec ho₁).2
  have hlt₂ := (offset_spec ho₂).2
  refine ⟨_, _, _, identityOf_buildVpdEeprom c₁, identityOf_buildVpdEeprom c₂,
    identityOf_buildVpdEeprom side, ?_⟩
  have hlast : (macLast side).toNat = 0x30 := by
    rw [macLast, hside]
    rfl
  rw [macLast_of_offset h₁ ho₁, macLast_of_offset h₂ ho₂, hlast]
  refine ⟨?_, ?_, ?_, fun h => absurd h.macs ?_⟩
  · exact not_disjoint_of_near (by omega) (by omega)
  · exact not_disjoint_of_near (by omega) (by omega)
  · exact not_disjoint_of_near (by omega) (by omega)
  · exact not_disjoint_of_near (by omega) (by omega)

/-- A gimlet on a port, with nothing overridden. -/
def gimletAt (bridge : String) : Config := ⟨false, some bridge.toList, none, none, none⟩

/-- A sidecar, with nothing overridden. -/
def plainSidecar : Config := ⟨true, none, none, none, none⟩

theorem identities_overlap_first_two :
    ∃ i₁ i₂ j, identityOf (buildVpdEeprom (gimletAt "[::1]:33300")) = some i₁ ∧
      identityOf (buildVpdEeprom (gimletAt "[::1]:33310")) = some i₂ ∧
      identityOf (buildVpdEeprom plainSidecar) = some j ∧
      ¬i₁.macs.Disjoint i₂.macs ∧ ¬i₁.macs.Disjoint j.macs ∧ ¬i₂.macs.Disjoint j.macs ∧
      ¬Apart i₁ i₂ j :=
  identities_overlap rfl rfl rfl (by decide : offset (gimletAt "[::1]:33300") = some 0)
    (by decide : offset (gimletAt "[::1]:33310") = some 10)

/-- Instances 1 and 10 have one serial number, besides the addresses that they share. -/
theorem not_apart :
    ¬∀ (b₁ b₂ : String) (o₁ o₂ : Nat), a4x2Offset b₁.toList = some o₁ →
      a4x2Offset b₂.toList = some o₂ → o₁ ≠ o₂ →
        ∃ i₁ i₂ j, identityOf (buildVpdEeprom (gimletAt b₁)) = some i₁ ∧
          identityOf (buildVpdEeprom (gimletAt b₂)) = some i₂ ∧
          identityOf (buildVpdEeprom plainSidecar) = some j ∧ Apart i₁ i₂ j := by
  intro h
  obtain ⟨i₁, i₂, j, h₁, h₂, -, hapart⟩ :=
    h "[::1]:33310" "[::1]:33400" 10 100 (by decide) (by decide) (by decide)
  rw [identityOf_buildVpdEeprom] at h₁ h₂
  cases h₁
  cases h₂
  exact hapart.serials (by decide)

end Vpd

end SpEmu
