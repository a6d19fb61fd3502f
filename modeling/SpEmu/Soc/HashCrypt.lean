import SpEmu.Lib.BlockBuffer
import SpEmu.Lib.Bytes
import SpEmu.Lib.Runs

/-!
# The HASHCRYPT engine of the RoT

`HashCrypt` takes the words of a message through INDATA and runs the raw block compression of
SHA-256; the firmware pads the message. The compression itself is a parameter.

Against a `BlockBuffer` that hands its blocks to the compression, `Streams h old ws` says what the
engine holds after the words `ws` of a hash. `streams_step` is one access, and
`hash_streaming` the run from any state in which a hash is started.
-/

set_option autoImplicit false

namespace SpEmu

open ByteMem Runs

/-- The bytes of a word in reverse order. -/
def swapBytes (w : Word) : Word := fromLeBytes (byteOf w 3) (byteOf w 2) (byteOf w 1) (byteOf w 0)

theorem swapBytes_swapBytes (w : Word) : swapBytes (swapBytes w) = w := by
  have hbytes : ∀ i, i < 4 → byteOf (swapBytes w) i = [byteOf w 3, byteOf w 2, byteOf w 1,
      byteOf w 0].getD i 0 := fun i hi => byteOf_leWord _ (by decide) hi
  rw [swapBytes, hbytes 0 (by decide), hbytes 1 (by decide), hbytes 2 (by decide),
    hbytes 3 (by decide)]
  exact fromLeBytes_byteOf w

structure HashCrypt where
  /-- The running state, compressed a block at a time. -/
  state : Table 8 Word
  /-- The block that INDATA fills. -/
  block : Table 16 Word
  fill : Nat
  /-- The state with the bytes of each word swapped, as DIGEST0 to DIGEST7 read it. -/
  digest : Table 8 Word
  status : Word

namespace HashCrypt

def regCtrl : Word := 0x00
def regStatus : Word := 0x04
def regIndata : Word := 0x20
def regDigest0 : Word := 0x40

def stWaiting : Word := 1 <<< 0
def stDigest : Word := 1 <<< 1
def modeMask : Word := 0x7
def modeSha2_256 : Word := 2
def newHash : Word := 1 <<< 4
def digestBytes : Word := 8 * 4

/-- The initial hash values of SHA-256. -/
def sha256Iv : Table 8 Word := fun i =>
  [0x6a09e667, 0xbb67ae85, 0x3c6ef372, 0xa54ff53a, 0x510e527f, 0x9b05688c, 0x1f83d9ab,
    0x5be0cd19].getD i.val 0

def new : HashCrypt where
  state := sha256Iv
  block := fun _ => 0
  fill := 0
  digest := fun _ => 0
  status := 0

variable (compress256 : Table 8 Word → Bytes 64 → Table 8 Word) (h : HashCrypt)

/-- A CTRL write that selects SHA2-256 and a new hash. -/
def start : HashCrypt := { h with state := sha256Iv, fill := 0, status := stWaiting }

/-- The bytes of a block, each word little-endian. -/
def blockBytes (block : Table 16 Word) : Bytes 64 := fun i =>
  byteOf (block ⟨i.val / 4, Nat.div_lt_of_lt_mul i.isLt⟩) (i.val % 4)

/-- One INDATA word; the last one of a block compresses it and shows the digest. -/
def feed (word : Word) : Option HashCrypt := do
  let h := { h with status := h.status &&& ~~~stDigest }
  let block ← h.block.modify h.fill fun _ => word
  let h := { h with block := block, fill := h.fill + 1 }
  let h :=
    if h.fill = 16 then
      let state := compress256 h.state (blockBytes h.block)
      { h with
        state := state
        fill := 0
        digest := fun i => swapBytes (state i)
        status := h.status ||| stDigest }
    else h
  some { h with status := h.status ||| stWaiting }

def read (off : Word) : Option Word :=
  if off = regStatus then some h.status
  else if regDigest0 ≤ off ∧ off < regDigest0 + digestBytes then
    h.digest.index ((off - regDigest0).toNat / 4)
  else some 0

/-- The CTRL values that start a hash. -/
def Starts (val : Word) : Prop := val &&& modeMask = modeSha2_256 ∧ val &&& newHash ≠ 0

instance (val : Word) : Decidable (Starts val) := inferInstanceAs (Decidable (_ ∧ _))

def write (off val : Word) : Option HashCrypt :=
  if off = regCtrl ∧ Starts val then some h.start
  else if off = regIndata then h.feed compress256 val
  -- a mode without a new hash, and the registers that are not modelled
  else some h

/-- An access of the firmware to the register block. -/
inductive Access where
  | read (off : Word)
  | write (off val : Word)
  deriving DecidableEq

def step (h : HashCrypt) : Access → Option HashCrypt
  | .read off => (h.read off).map fun _ => h
  | .write off val => h.write compress256 off val

/-! ## The words of a hash -/

/-- The access does not start a hash. -/
def Continues : Access → Prop
  | .read _ => True
  | .write off val => off = regCtrl → ¬ Starts val

/-- The words that accesses put into INDATA. -/
def fed : List Access → List Word
  | [] => []
  | .read _ :: as => fed as
  | .write off val :: as => if off = regIndata then val :: fed as else fed as

/-- The complete blocks of 64 bytes at the front of a message of words. -/
def messageBlocks (ws : List Word) : List (Bytes 64) :=
  (BlockBuffer.blocks 64 (ws.flatMap (toLeBytes 4))).map fun block i => block.getD i.val 0

/-- The compression folded over the complete blocks. -/
def hashOf (ws : List Word) : Table 8 Word := (messageBlocks ws).foldl compress256 sha256Iv

/-- The bytes of a list of words, as a block. -/
def listBytes (ws : List Word) : Bytes 64 := fun i => (ws.flatMap (toLeBytes 4)).getD i.val 0

theorem length_toLeBytes (n : Nat) (w : Word) : (toLeBytes n w).length = n := by
  rw [toLeBytes, List.length_map, List.length_range]

theorem messageBlocks_eq (ws : List Word) :
    messageBlocks ws = (BlockBuffer.blocks 16 ws).map listBytes := by
  have hblocks : BlockBuffer.blocks 64 (ws.flatMap (toLeBytes 4)) = _ :=
    BlockBuffer.blocks_flatMap (n := 16) (by decide) (length_toLeBytes 4) ws
  rw [messageBlocks, hblocks, List.map_map]
  rfl

variable {compress256} {h}

variable (compress256) in
/-- One word more completes a block or leaves the hash as it is. -/
theorem hashOf_concat (ws : List Word) (w : Word) :
    hashOf compress256 (ws ++ [w]) =
      if ws.length % 16 + 1 = 16 then
        compress256 (hashOf compress256 ws) (listBytes (BlockBuffer.rest 16 ws ++ [w]))
      else hashOf compress256 ws := by
  rw [hashOf, hashOf, messageBlocks_eq, messageBlocks_eq, BlockBuffer.blocks_concat (by decide),
    BlockBuffer.length_rest]
  split
  · rw [List.map_append, List.foldl_append]
    rfl
  · rfl

/-- A table that holds the words of a list has its bytes. -/
theorem blockBytes_eq {block : Table 16 Word} {ws : List Word}
    (hws : ∀ i : Fin 16, ws[i.val]? = some (block i)) : blockBytes block = listBytes ws := by
  funext i
  have hi : i.val / 4 < 16 := Nat.div_lt_of_lt_mul i.isLt
  have hword := hws ⟨i.val / 4, hi⟩
  have hbyte : (toLeBytes 4 (block ⟨i.val / 4, hi⟩))[i.val % 4]? =
      some (byteOf (block ⟨i.val / 4, hi⟩) (i.val % 4)) := by
    rw [toLeBytes, List.getElem?_map, List.getElem?_range (Nat.mod_lt _ (by decide))]
    rfl
  rw [listBytes, List.getD_eq_getElem?_getD,
    BlockBuffer.getElem?_flatMap_uniform (by decide) (length_toLeBytes 4), hword, Option.bind_some,
    hbyte]
  rfl

/-- The DIGEST bit after the words of a hash. -/
def digestBit (ws : List Word) : Word :=
  if 0 < ws.length ∧ ws.length % 16 = 0 then stDigest else 0

theorem digestBit_concat (ws : List Word) (w : Word) :
    digestBit (ws ++ [w]) = if ws.length % 16 + 1 = 16 then stDigest else 0 := by
  have hiff : (0 < ws.length + 1 ∧ (ws.length + 1) % 16 = 0) ↔ ws.length % 16 + 1 = 16 := by omega
  rw [digestBit, List.length_append, List.length_singleton]
  simp only [hiff]

/-- The engine after the words `ws` of a hash; `old` were the digest registers when it started. -/
structure Streams (compress256 : Table 8 Word → Bytes 64 → Table 8 Word) (h : HashCrypt)
    (old : Table 8 Word) (ws : List Word) : Prop where
  state : h.state = hashOf compress256 ws
  fill : h.fill = ws.length % 16
  block : ∀ i : Fin 16, i.val < h.fill → (BlockBuffer.rest 16 ws)[i.val]? = some (h.block i)
  digest : h.digest = if ws.length < 16 then old else fun i => swapBytes (hashOf compress256 ws i)
  status : h.status = stWaiting ||| digestBit ws

theorem streams_start (h : HashCrypt) : Streams compress256 h.start h.digest [] where
  state := rfl
  fill := rfl
  block _ hi := absurd hi (Nat.not_lt_zero _)
  digest := rfl
  status := rfl

/-- An INDATA write clears the DIGEST bit before it may set it. -/
theorem status_feed {status : Word} {ws : List Word} (h : status = stWaiting ||| digestBit ws)
    {d : Word} (hd : d = stDigest ∨ d = 0) :
    (status &&& ~~~stDigest ||| d) ||| stWaiting = stWaiting ||| d := by
  rw [h, digestBit]
  split
  · rcases hd with rfl | rfl
    · decide
    · decide
  · rcases hd with rfl | rfl
    · decide
    · decide

theorem feed_of_lt (hlt : h.fill < 16) (w : Word) :
    h.feed compress256 w = some
      (if h.fill + 1 = 16 then
        { state := compress256 h.state (blockBytes (Function.update h.block ⟨h.fill, hlt⟩ w))
          block := Function.update h.block ⟨h.fill, hlt⟩ w
          fill := 0
          digest := fun i => swapBytes
            (compress256 h.state (blockBytes (Function.update h.block ⟨h.fill, hlt⟩ w)) i)
          status := (h.status &&& ~~~stDigest ||| stDigest) ||| stWaiting }
      else
        { h with
          block := Function.update h.block ⟨h.fill, hlt⟩ w
          fill := h.fill + 1
          status := h.status &&& ~~~stDigest ||| stWaiting }) := by
  simp only [feed, Table.modify_of_lt _ hlt, Option.bind_eq_bind, Option.bind_some]
  split
  · rfl
  · rfl

theorem Streams.length_rest {old : Table 8 Word} {ws : List Word}
    (hs : Streams compress256 h old ws) : (BlockBuffer.rest 16 ws).length = h.fill :=
  (BlockBuffer.length_rest 16 ws).trans hs.fill.symm

/-- The block with one word more in it holds the rest of the stream with that word. -/
theorem Streams.update_block {old : Table 8 Word} {ws : List Word}
    (hs : Streams compress256 h old ws) (hlt : h.fill < 16) (w : Word) (i : Fin 16)
    (hi : i.val < h.fill + 1) : (BlockBuffer.rest 16 ws ++ [w])[i.val]? =
      some (Function.update h.block ⟨h.fill, hlt⟩ w i) := by
  have hlen := hs.length_rest
  by_cases heq : i = ⟨h.fill, hlt⟩
  · have hlast : (BlockBuffer.rest 16 ws ++ [w])[(BlockBuffer.rest 16 ws).length]? = some w :=
      List.getElem?_concat_length
    rw [heq, Function.update_self]
    rwa [hlen] at hlast
  · have hne : i.val ≠ h.fill := fun hval => heq (Fin.ext hval)
    rw [Function.update_of_ne heq, List.getElem?_append_left (by omega)]
    exact hs.block i (by omega)

/-- The word that INDATA takes extends the block, and completes it when it is the sixteenth. -/
theorem streams_feed {old : Table 8 Word} {ws : List Word} (hs : Streams compress256 h old ws)
    (w : Word) : ∃ h', h.feed compress256 w = some h' ∧ Streams compress256 h' old (ws ++ [w]) := by
  have hlt : h.fill < 16 := hs.fill ▸ Nat.mod_lt _ (by decide)
  have hlen := hs.length_rest
  have hrest := BlockBuffer.rest_concat (n := 16) (by decide) ws w
  have hhash := hashOf_concat compress256 ws w
  have hbit := digestBit_concat ws w
  rw [← hs.fill] at hhash hbit
  rw [hlen] at hrest
  have hblock := hs.update_block hlt w
  have hfill := hs.fill
  refine ⟨_, feed_of_lt hlt w, ?_⟩
  by_cases hfull : h.fill + 1 = 16
  · -- the digest shows the new state, and the block starts over
    rw [if_pos hfull] at hhash hrest hbit ⊢
    have hbytes := blockBytes_eq fun i => hblock i (by omega)
    have hstate : compress256 h.state (blockBytes (Function.update h.block ⟨h.fill, hlt⟩ w)) =
        hashOf compress256 (ws ++ [w]) := by
      rw [hhash, hs.state, hbytes]
    constructor
    · exact hstate
    · rw [List.length_append, List.length_singleton]
      show 0 = _
      omega
    · intro i hi
      cases hi
    · have hlong : ¬ (ws ++ [w]).length < 16 := by
        rw [List.length_append, List.length_singleton]
        omega
      rw [if_neg hlong, ← hstate]
    · exact hbit ▸ status_feed hs.status (Or.inl rfl)
  · rw [if_neg hfull] at hhash hrest hbit ⊢
    constructor
    · exact hs.state.trans hhash.symm
    · rw [List.length_append, List.length_singleton]
      show h.fill + 1 = _
      omega
    · intro i hi
      rw [hrest]
      exact hblock i hi
    · have hsame : (ws ++ [w]).length < 16 ↔ ws.length < 16 := by
        rw [List.length_append, List.length_singleton]
        omega
      rw [hhash]
      simp only [hsame]
      exact hs.digest
    · have hstatus := status_feed hs.status (Or.inr rfl)
      rw [show h.status &&& ~~~stDigest ||| 0 = h.status &&& ~~~stDigest from BitVec.or_zero]
        at hstatus
      exact hbit ▸ hstatus

theorem isSome_read (h : HashCrypt) (off : Word) : (h.read off).isSome := by
  rw [read]
  split
  · rfl
  · split
    · next hin =>
        have hlo : regDigest0.toNat ≤ off.toNat := BitVec.le_def.mp hin.1
        have hhi : off.toNat < 0x60 := BitVec.lt_def.mp hin.2
        have hbase : regDigest0.toNat = 0x40 := rfl
        have hoff := BitVec.toNat_sub_of_le (BitVec.le_def.mpr hlo)
        rw [Table.index_of_lt _ (by omega)]
        rfl
    · rfl

theorem read_digest (h : HashCrypt) (i : Fin 8) :
    h.read (regDigest0 + 4 * BitVec.ofNat 32 i.val) = some (h.digest i) := by
  have hoff : ∀ i : Fin 8, regDigest0 + 4 * BitVec.ofNat 32 i.val ≠ regStatus ∧
      (regDigest0 ≤ regDigest0 + 4 * BitVec.ofNat 32 i.val ∧
        regDigest0 + 4 * BitVec.ofNat 32 i.val < regDigest0 + digestBytes) ∧
      (regDigest0 + 4 * BitVec.ofNat 32 i.val - regDigest0).toNat / 4 = i.val := by
    decide
  obtain ⟨hne, hin, hindex⟩ := hoff i
  rw [read, if_neg hne, if_pos hin, hindex, Table.index_of_lt _ i.isLt]

/-- An access that starts no hash adds the word that it puts into INDATA. -/
theorem streams_step {old : Table 8 Word} {ws : List Word} (hs : Streams compress256 h old ws)
    {a : Access} (ha : Continues a) :
    ∃ h', step compress256 h a = some h' ∧ Streams compress256 h' old (ws ++ fed [a]) := by
  cases a with
  | read off =>
      obtain ⟨v, hv⟩ := Option.isSome_iff_exists.mp (isSome_read h off)
      refine ⟨h, by rw [step, hv]; rfl, ?_⟩
      rw [fed, fed, List.append_nil]
      exact hs
  | write off val =>
      have hstart : ¬ (off = regCtrl ∧ Starts val) := fun hc => ha hc.1 hc.2
      rw [step, write, if_neg hstart, fed, fed]
      by_cases hin : off = regIndata
      · rw [if_pos hin, if_pos hin]
        exact streams_feed hs val
      · rw [if_neg hin, if_neg hin, List.append_nil]
        exact ⟨h, rfl, hs⟩

theorem fed_cons (a : Access) (as : List Access) : fed (a :: as) = fed [a] ++ fed as := by
  cases a with
  | read off => rfl
  | write off val =>
      rw [fed, fed, fed]
      split
      · rfl
      · rfl

theorem streams_run {old : Table 8 Word} {ws : List Word} (hs : Streams compress256 h old ws)
    {as : List Access} (has : ∀ a ∈ as, Continues a) :
    ∃ h', run (step compress256) as h = some h' ∧ Streams compress256 h' old (ws ++ fed as) := by
  induction as generalizing h ws with
  | nil => exact ⟨h, rfl, by rw [fed, List.append_nil]; exact hs⟩
  | cons a as ih =>
      obtain ⟨h₁, hstep, hs₁⟩ := streams_step hs (has a List.mem_cons_self)
      obtain ⟨h', hrun, hs'⟩ := ih hs₁ fun x hx => has x (List.mem_cons_of_mem _ hx)
      refine ⟨h', run_cons_eq_some.mpr ⟨h₁, hstep, hrun⟩, ?_⟩
      rwa [fed_cons, ← List.append_assoc]

end HashCrypt

open HashCrypt in
/-- After a hash is started from any state, and whatever is read and written without starting
another, the engine has the words of INDATA in it: the block is never full, the DIGEST bit is set
exactly when they are some whole blocks, and the digest registers have the compression folded over
the complete blocks, their bytes swapped. Until the first block is complete they keep what they
held before. -/
theorem hash_streaming (compress256 : Table 8 Word → Bytes 64 → Table 8 Word) (h : HashCrypt)
    {val : Word} (hval : Starts val) {as : List Access} (has : ∀ a ∈ as, Continues a) :
    ∃ h', run (step compress256) (.write regCtrl val :: as) h = some h' ∧ h'.fill < 16 ∧
      (∃ status, h'.read regStatus = some status ∧
        (status &&& stDigest ≠ 0 ↔ 0 < (fed as).length ∧ (fed as).length % 16 = 0)) ∧
      ∀ i : Fin 8, ∃ digest, h'.read (regDigest0 + 4 * BitVec.ofNat 32 i.val) = some digest ∧
        if (fed as).length < 16 then digest = h.digest i
        else swapBytes digest = hashOf compress256 (fed as) i := by
  have hfresh : Streams compress256 h.start h.digest [] := streams_start h
  obtain ⟨h', hrun, hs⟩ := streams_run hfresh has
  rw [List.nil_append] at hs
  have hstart : step compress256 h (.write regCtrl val) = some h.start := by
    rw [step, write, if_pos ⟨rfl, hval⟩]
  refine ⟨h', run_cons_eq_some.mpr ⟨_, hstart, hrun⟩, ?_, ⟨h'.status, rfl, ?_⟩, fun i => ?_⟩
  · rw [hs.fill]
    exact Nat.mod_lt _ (by decide)
  · rw [hs.status, digestBit]
    split
    · next hfull => exact iff_of_true (by decide) hfull
    · next hpart => exact iff_of_false (by decide) hpart
  · refine ⟨_, read_digest h' i, ?_⟩
    rw [hs.digest]
    split
    · rfl
    · exact swapBytes_swapBytes _

open HashCrypt in
/-- A start by a mode write with NEW_HASH, whatever the compression is. -/
theorem hash_streaming_start :
    ∃ h', run (step fun s _ => s) [.write regCtrl 0x12, .read regStatus, .write regIndata 7]
        HashCrypt.new = some h' ∧ h'.fill < 16 := by
  have hmid : ∀ a ∈ [Access.read regStatus, Access.write regIndata 7], Continues a := by
    simp only [List.forall_mem_cons]
    exact ⟨trivial, fun h => absurd h (by decide), fun a h => by cases h⟩
  have hstart : Starts 0x12 := by decide
  obtain ⟨h', hrun, hfill, -⟩ := hash_streaming (fun s _ => s) HashCrypt.new hstart hmid
  exact ⟨h', hrun, hfill⟩

open HashCrypt in
/-- Before the first block is complete the digest registers do not have the initial state. -/
theorem digest_before_first_block :
    ¬ ∀ as : List Access, (∀ a ∈ as, Continues a) → ∀ h',
      run (step fun s _ => s) (.write regCtrl 0x12 :: as) HashCrypt.new = some h' →
        ∀ i : Fin 8, (h'.read (regDigest0 + 4 * BitVec.ofNat 32 i.val)).map swapBytes =
          some (hashOf (fun s _ => s) (fed as) i) := by
  intro hall
  have hfirst := hall [] (fun a ha => by cases ha) _ rfl 0
  rw [read_digest] at hfirst
  revert hfirst
  decide

end SpEmu
