import SpEmu.Lib.Bytes
import SpEmu.Lib.Cutter

/-!
# TLV-C chunks

`tlvcChunk` writes a chunk: a header of the tag, the length of the body and a checksum over the two,
the body padded to words, and its CRC. `readChunk` is a reader by the same rules. It takes a chunk
off the front of its input and gives back the one that was written (`readChunk_tlvcChunk`); a body
that is itself made of chunks is cut into them by `Chunk.cutter`.
-/

set_option autoImplicit false

namespace SpEmu

open ByteMem

namespace Tlvc

structure Tag where
  b₀ : Byte
  b₁ : Byte
  b₂ : Byte
  b₃ : Byte
deriving DecidableEq

def Tag.bytes (t : Tag) : List Byte := [t.b₀, t.b₁, t.b₂, t.b₃]

structure Chunk where
  tag : Tag
  body : List Byte
deriving DecidableEq

/-! ## Checksums -/

/-- One bit of the reflected polynomial division. -/
def crcBit (crc : Word) : Word :=
  if crc &&& 1 ≠ 0 then (crc >>> 1) ^^^ 0x82F63B78 else crc >>> 1

def crcByte (crc : Word) (b : Byte) : Word := crcBit^[8] (crc ^^^ b.setWidth 32)

/-- CRC-32C (Castagnoli). -/
def crc32c (data : List Byte) : Word := ~~~(data.foldl crcByte 0xFFFFFFFF)

def headerMagic : Word := 0x6B329F69

def headerChecksum (tag : Tag) (len : Word) : Word :=
  ~~~(fromLeBytes tag.b₀ tag.b₁ tag.b₂ tag.b₃ * headerMagic + len)

/-! ## The writer -/

/-- Zero bytes up to the next word boundary. -/
def padWord (v : List Byte) : List Byte := v ++ List.replicate ((4 - v.length % 4) % 4) 0

def tlvcChunk (tag : Tag) (body : List Byte) : List Byte :=
  let len : Word := BitVec.ofNat 32 body.length
  padWord (tag.bytes ++ toLeBytes 4 len ++ toLeBytes 4 (headerChecksum tag len) ++ body) ++
    toLeBytes 4 (crc32c body)

def Chunk.write (c : Chunk) : List Byte := tlvcChunk c.tag c.body

/-! ## A reader -/

/-- The body of a chunk whose header was read, and what follows the chunk. -/
def readBody (n : Nat) (data : List Byte) : Option (List Byte × List Byte) :=
  match data.drop ((n + 3) / 4 * 4) with
  | c₀ :: c₁ :: c₂ :: c₃ :: rest =>
      if fromLeBytes c₀ c₁ c₂ c₃ = crc32c (data.take n) then some (data.take n, rest) else none
  | _ => none

/-- The first chunk, if both of its checksums are right, and what follows it. -/
def readChunk : List Byte → Option (Chunk × List Byte)
  | t₀ :: t₁ :: t₂ :: t₃ :: l₀ :: l₁ :: l₂ :: l₃ :: k₀ :: k₁ :: k₂ :: k₃ :: data =>
      let tag : Tag := ⟨t₀, t₁, t₂, t₃⟩
      let len := fromLeBytes l₀ l₁ l₂ l₃
      if fromLeBytes k₀ k₁ k₂ k₃ = headerChecksum tag len then
        (readBody len.toNat data).map fun r => (⟨tag, r.1⟩, r.2)
      else none
  | _ => none

/-! ## What was written is read -/

theorem padWord_eq (front body : List Byte) (h : front.length = 12) :
    padWord (front ++ body) =
      front ++ (body ++ List.replicate ((body.length + 3) / 4 * 4 - body.length) 0) := by
  have hpad : (4 - (front ++ body).length % 4) % 4 =
      (body.length + 3) / 4 * 4 - body.length := by
    rw [List.length_append, h]
    omega
  rw [padWord, hpad, List.append_assoc]

theorem readBody_append (body rest : List Byte) :
    readBody body.length
        (body ++ List.replicate ((body.length + 3) / 4 * 4 - body.length) 0 ++
          toLeBytes 4 (crc32c body) ++ rest) = some (body, rest) := by
  have hpadded :
      (body ++ List.replicate ((body.length + 3) / 4 * 4 - body.length) (0 : Byte)).length =
        (body.length + 3) / 4 * 4 := by
    rw [List.length_append, List.length_replicate]
    omega
  have hdrop : (body ++ List.replicate ((body.length + 3) / 4 * 4 - body.length) 0 ++
      (toLeBytes 4 (crc32c body) ++ rest)).drop ((body.length + 3) / 4 * 4) =
        toLeBytes 4 (crc32c body) ++ rest := List.drop_left' hpadded
  have htake : (body ++ List.replicate ((body.length + 3) / 4 * 4 - body.length) 0 ++
      (toLeBytes 4 (crc32c body) ++ rest)).take body.length = body := by
    rw [List.append_assoc]
    exact List.take_left
  rw [List.append_assoc _ _ rest, readBody, hdrop, htake, toLeBytes_four]
  exact if_pos (fromLeBytes_byteOf _)

/-- A chunk is read back from the front of any input. -/
theorem readChunk_tlvcChunk {tag : Tag} {body : List Byte} (h : body.length < 2 ^ 32)
    (rest : List Byte) :
    readChunk (tlvcChunk tag body ++ rest) = some (⟨tag, body⟩, rest) := by
  have hlen : (BitVec.ofNat 32 body.length).toNat = body.length := by
    rw [BitVec.toNat_ofNat, Nat.mod_eq_of_lt h]
  have hbody := readBody_append body rest
  rw [tlvcChunk, padWord_eq _ _ rfl, toLeBytes_four (BitVec.ofNat 32 body.length),
    toLeBytes_four (headerChecksum tag _), Tag.bytes]
  simp only [List.cons_append, List.nil_append, readChunk, fromLeBytes_byteOf, hlen, hbody]
  rfl

/-! ## Chunks in a row -/

theorem readBody_eq_some {n : Nat} {data body rest : List Byte}
    (h : readBody n data = some (body, rest)) :
    rest.length < data.length ∧
      ∀ more, readBody n (data ++ more) = some (body, rest ++ more) := by
  rw [readBody] at h
  split at h
  · next c₀ c₁ c₂ c₃ rest' heq =>
      split at h
      · next hcrc =>
          cases h
          have hlen := congrArg List.length heq
          simp only [List.length_drop, List.length_cons] at hlen
          refine ⟨by omega, fun more => ?_⟩
          rw [readBody, List.drop_append_of_le_length (by omega),
            List.take_append_of_le_length (by omega), heq]
          exact if_pos hcrc
      · cases h
  · cases h

theorem readChunk_eq_some {data rest : List Byte} {c : Chunk}
    (h : readChunk data = some (c, rest)) :
    rest.length < data.length ∧ ∀ more, readChunk (data ++ more) = some (c, rest ++ more) := by
  unfold readChunk at h
  split at h
  · next t₀ t₁ t₂ t₃ l₀ l₁ l₂ l₃ k₀ k₁ k₂ k₃ data =>
      dsimp only at h
      split at h
      · next hsum =>
          obtain ⟨⟨body, rest'⟩, hr, heq⟩ := Option.map_eq_some_iff.mp h
          cases heq
          obtain ⟨hshorter, hstable⟩ := readBody_eq_some hr
          refine ⟨?_, fun more => ?_⟩
          · simp only [List.length_cons]
            omega
          · simp only [List.cons_append, readChunk, if_pos hsum, hstable more]
            rfl
      · cases h
  · cases h

/-- The reader as a cutter of chunks. -/
def chunks : Cutter Byte Chunk where
  next := readChunk
  shorter h := (readChunk_eq_some h).1
  stable h := (readChunk_eq_some h).2

/-- A body made of chunks is cut into them. -/
theorem cut_chunks {cs : List Chunk} (h : ∀ c ∈ cs, c.body.length < 2 ^ 32) :
    chunks.cut (cs.flatMap Chunk.write) = (cs, []) := by
  have hcut : chunks.cut (cs.flatMap Chunk.write ++ []) = (cs, []) :=
    Cutter.cut_flatMap rfl fun c hc rest => readChunk_tlvcChunk (h c hc) rest
  rwa [List.append_nil] at hcut

/-! ## Nested chunks -/

/-- Chunks in a row, each with the bytes of its body or with the chunks that the body is made of. -/
inductive Nested where
  | nil
  | body (tag : Tag) (bytes : List Byte) (rest : Nested)
  | inner (tag : Tag) (chunks rest : Nested)
deriving DecidableEq

/-- What a reader has to know of chunks: which bodies are made of chunks. -/
inductive Shape where
  | nil
  | body (rest : Shape)
  | inner (chunks rest : Shape)

namespace Nested

def write : Nested → List Byte
  | nil => []
  | body tag bytes rest => tlvcChunk tag bytes ++ rest.write
  | inner tag chunks rest => tlvcChunk tag chunks.write ++ rest.write

def shape : Nested → Shape
  | nil => .nil
  | body _ _ rest => .body rest.shape
  | inner _ chunks rest => .inner chunks.shape rest.shape

/-- The length of every body fits its header. -/
def Fits : Nested → Prop
  | nil => True
  | body _ bytes rest => bytes.length < 2 ^ 32 ∧ rest.Fits
  | inner _ chunks rest => chunks.write.length < 2 ^ 32 ∧ chunks.Fits ∧ rest.Fits

/-- Read all of the data, which are at an offset. Every chunk has to be aligned and to have the
right checksums. -/
def read : Shape → Nat → List Byte → Option Nested
  | .nil, _, data => if data = [] then some nil else none
  | .body rest, off, data =>
      if off % 4 = 0 then do
        let (c, more) ← readChunk data
        let rest ← read rest (off + (data.length - more.length)) more
        some (body c.tag c.body rest)
      else none
  | .inner chunks rest, off, data =>
      if off % 4 = 0 then do
        let (c, more) ← readChunk data
        let chunks ← read chunks (off + 12) c.body
        let rest ← read rest (off + (data.length - more.length)) more
        some (Nested.inner c.tag chunks rest)
      else none

end Nested

theorem length_tlvcChunk (tag : Tag) (body : List Byte) :
    (tlvcChunk tag body).length = 16 + (body.length + 3) / 4 * 4 := by
  rw [tlvcChunk, padWord_eq _ _ rfl]
  simp only [List.length_append, List.length_replicate, Tag.bytes, List.length_cons,
    List.length_nil, toLeBytes, List.length_map, List.length_range]
  omega

namespace Nested

/-- The chunks are read back, with their checksums and aligned at every level. -/
theorem read_write {n : Nested} (h : n.Fits) {off : Nat} (hoff : off % 4 = 0) :
    read n.shape off n.write = some n := by
  induction n generalizing off with
  | nil => rfl
  | body tag bytes rest ih =>
      obtain ⟨hbytes, hrest⟩ := h
      -- the chunk behind starts on a word again
      have hnext : (off + ((tlvcChunk tag bytes ++ rest.write).length - rest.write.length)) % 4 =
          0 := by
        rw [List.length_append, Nat.add_sub_cancel, length_tlvcChunk]
        omega
      rw [shape, write, read, if_pos hoff, readChunk_tlvcChunk hbytes, Option.bind_eq_bind,
        Option.bind_some]
      dsimp only
      rw [ih hrest hnext]
      rfl
  | inner tag chunks rest ihchunks ihrest =>
      obtain ⟨hbytes, hchunks, hrest⟩ := h
      have hnext : (off + ((tlvcChunk tag chunks.write ++ rest.write).length -
          rest.write.length)) % 4 = 0 := by
        rw [List.length_append, Nat.add_sub_cancel, length_tlvcChunk]
        omega
      rw [shape, write, read, if_pos hoff, readChunk_tlvcChunk hbytes, Option.bind_eq_bind,
        Option.bind_some]
      dsimp only
      rw [ihchunks hchunks (by omega), Option.bind_eq_bind, Option.bind_some, ihrest hrest hnext]
      rfl

end Nested

/-- A length that is a multiple of 2 ^ 32 is written as zero, and zero bytes are a good checksum of
an empty body. -/
theorem readChunk_of_wraps (tag : Tag) {n : Nat} (h : (n + 4) % 2 ^ 32 = 0) :
    ∃ rest, readChunk (tlvcChunk tag (List.replicate (n + 4) 0)) = some (⟨tag, []⟩, rest) := by
  have hlen : (BitVec.ofNat 32 (n + 4) : Word) = 0 := by
    apply BitVec.eq_of_toNat_eq
    rw [BitVec.toNat_ofNat, h]
    rfl
  have hbody (more : List Byte) :
      readBody 0 (0 :: 0 :: 0 :: 0 :: more) = some ([], more) := by
    have hcrc : fromLeBytes 0 0 0 0 = crc32c [] := by decide
    rw [readBody]
    exact if_pos hcrc
  rw [tlvcChunk, List.length_replicate, hlen, padWord_eq _ _ rfl, toLeBytes_four (0 : Word),
    toLeBytes_four (headerChecksum tag _), Tag.bytes]
  simp only [List.replicate_succ, List.cons_append, List.nil_append, readChunk, fromLeBytes_byteOf,
    if_true, show BitVec.toNat (0 : Word) = 0 from rfl, hbody]
  exact ⟨_, rfl⟩

theorem read_ne_of_wraps (tag : Tag) {n : Nat} (h : (n + 4) % 2 ^ 32 = 0) :
    Nested.read (.body .nil) 0 (tlvcChunk tag (List.replicate (n + 4) 0)) ≠
      some (.body tag (List.replicate (n + 4) 0) .nil) := by
  intro hread
  obtain ⟨rest, hchunk⟩ := readChunk_of_wraps tag h
  rw [Nested.read, if_pos rfl, hchunk, Option.bind_eq_bind, Option.bind_some] at hread
  obtain ⟨r, -, heq⟩ := Option.bind_eq_some_iff.mp hread
  cases heq

/-- The length of a body of 2 ^ 32 bytes is lost. -/
theorem not_read_write : ¬ ∀ n : Nested, Nested.read n.shape 0 n.write = some n := by
  intro h
  have hread := h (.body ⟨0, 0, 0, 0⟩ (List.replicate (4294967292 + 4) 0) .nil)
  rw [Nested.write, Nested.write, List.append_nil] at hread
  exact read_ne_of_wraps ⟨0, 0, 0, 0⟩ (n := 4294967292) (by decide) hread

end Tlvc

end SpEmu
