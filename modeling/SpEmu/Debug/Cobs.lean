import SpEmu.Lib.Bytes
import SpEmu.Lib.Stuffing

/-!
# The COBS codec of the Glasgow applets

`cobsEncode` and `cobsDecode` as the server computes them. The encoder keeps a placeholder in front
of the block it is in, at `codeIdx`, and writes the count there when the block closes.

`Encoding` is the invariant of the encoder: its output is the stuffed form of what it closed, and
the open block. From it follow that the encoding holds no zero and that the decoder gives the data
back.
-/

set_option autoImplicit false

namespace SpEmu

open ByteMem Stuffing

namespace Glasgow

/-! ## The encoder -/

structure CobsEncoder where
  out : List Byte
  /-- The place of the code byte of the open block. -/
  codeIdx : Nat
  code : Byte

namespace CobsEncoder

def start : CobsEncoder := ⟨[0], 0, 1⟩

variable (e : CobsEncoder)

/-- Write the code byte and open the next block. -/
def close : CobsEncoder where
  out := e.out.set e.codeIdx e.code ++ [0]
  codeIdx := e.out.length
  code := 1

def push (b : Byte) : CobsEncoder :=
  if b ≠ 0 then
    let e : CobsEncoder := { e with out := e.out ++ [b], code := e.code + 1 }
    if e.code = 0xFF then e.close else e
  else e.close

end CobsEncoder

def cobsEncode (data : List Byte) : List Byte :=
  let e := data.foldl CobsEncoder.push CobsEncoder.start
  e.out.set e.codeIdx e.code

/-! ## The decoder -/

/-- Decode a frame without its delimiter; `none` if it is malformed. -/
def cobsDecode : List Byte → Option (List Byte)
  | [] => some []
  | code :: rest =>
      if code = 0 then none
      else if rest.length < code.toNat - 1 then none
      else
        let run := rest.take (code.toNat - 1)
        let rest := rest.drop (code.toNat - 1)
        -- A zero stands between blocks, but not after the last.
        (cobsDecode rest).map fun out =>
          run ++ (if code.toNat < 0xFF ∧ rest ≠ [] then [0] else []) ++ out
termination_by data => data.length
decreasing_by
  rw [List.length_drop, List.length_cons]
  omega

/-! ## What the encoder has written -/

/-- The encoder has closed `done` and is in a block with `run`; `data` is what it was given. -/
structure Encoding (done : List (Block 8)) (run data : List Byte) (e : CobsEncoder) : Prop where
  out : e.out = stuffed done ++ 0 :: run
  codeIdx : e.codeIdx = (stuffed done).length
  code : e.code = BitVec.ofNat 8 (run.length + 1)
  nonzero : 0 ∉ run
  short : run.length ≤ 254
  given : data = closed done ++ run

variable {done : List (Block 8)} {run data : List Byte} {e : CobsEncoder}

theorem encoding_start : Encoding [] [] [] CobsEncoder.start where
  out := rfl
  codeIdx := rfl
  code := rfl
  nonzero := List.not_mem_nil
  short := Nat.zero_le _
  given := rfl

namespace Encoding

/-- The open block as it would be closed. -/
def block (h : Encoding done run data e) : Block 8 where
  run := run
  nonzero := h.nonzero
  short := Nat.lt_of_le_of_lt (Nat.succ_le_succ h.short) (by decide)

theorem full_block_iff (h : Encoding done run data e) : h.block.Full ↔ run.length = 254 := by
  show run.length + 2 = 2 ^ 8 ↔ _
  omega

/-- Writing the code byte completes the open block. -/
theorem set_code (h : Encoding done run data e) :
    e.out.set e.codeIdx e.code = stuffed (done ++ [h.block]) := by
  rw [h.out, h.codeIdx, h.code, List.set_append_right _ _ (Nat.le_refl _), Nat.sub_self,
    List.set_cons_zero, stuffed_concat]
  rfl

/-- Closing the block: what was given is the data of the closed blocks, a zero after the last one
included unless that is full. -/
theorem close (h : Encoding done run data e) :
    Encoding (done ++ [h.block]) [] (data ++ if h.block.Full then [] else [0]) e.close where
  out := by rw [CobsEncoder.close, h.set_code]
  codeIdx := by
    have hlen := congrArg List.length h.set_code
    rwa [List.length_set] at hlen
  code := rfl
  nonzero := List.not_mem_nil
  short := Nat.zero_le _
  given := by
    have hclosed : closed done ++ h.block.data = data ++ if h.block.Full then [] else [0] := by
      rw [Block.data, ← List.append_assoc]
      exact congrArg (· ++ _) h.given.symm
    rw [List.append_nil, closed_concat, hclosed]

/-- A nonzero byte joins the open block. -/
theorem join (h : Encoding done run data e) {b : Byte} (hb : b ≠ 0) (hshort : run.length < 254) :
    Encoding done (run ++ [b]) (data ++ [b])
      { e with out := e.out ++ [b], code := e.code + 1 } where
  out := by rw [h.out, List.append_assoc, List.cons_append]
  codeIdx := h.codeIdx
  code := by
    rw [List.length_append, List.length_singleton, BitVec.ofNat_add, ← h.code]
    rfl
  nonzero hmem := by
    rcases List.mem_append.mp hmem with hrun | hlast
    · exact h.nonzero hrun
    · exact hb (List.mem_singleton.mp hlast).symm
  short := by rwa [List.length_append, List.length_singleton]
  given := by rw [h.given, List.append_assoc]

/-- The code byte tells when the block is full. -/
theorem code_eq_iff (h : Encoding done run data e) : e.code = 0xFF ↔ run.length = 254 := by
  have hshort := h.short
  rw [h.code, ← BitVec.toNat_inj, BitVec.toNat_ofNat, Nat.mod_eq_of_lt (by omega)]
  exact Nat.succ_inj (b := 254)

end Encoding

/-- Between two bytes the open block has room for one more. -/
theorem Encoding.push (h : Encoding done run data e) (hroom : run.length < 254) (b : Byte) :
    ∃ done' run', Encoding done' run' (data ++ [b]) (e.push b) ∧ run'.length < 254 := by
  by_cases hb : b = 0
  · have hclose := h.close
    rw [if_neg fun hfull => absurd (h.full_block_iff.mp hfull) (Nat.ne_of_lt hroom)] at hclose
    rw [CobsEncoder.push, if_neg (not_not_intro hb), hb]
    exact ⟨_, _, hclose, by decide⟩
  · have hjoin := h.join hb hroom
    rw [CobsEncoder.push, if_pos hb]
    dsimp only
    split_ifs with hcode
    · -- The block is full: it closes, and no zero is understood after it.
      have hclose := hjoin.close
      rw [if_pos (hjoin.full_block_iff.mpr (hjoin.code_eq_iff.mp hcode)), List.append_nil] at hclose
      exact ⟨_, _, hclose, by decide⟩
    · refine ⟨_, _, hjoin, Nat.lt_of_le_of_ne hjoin.short ?_⟩
      exact fun hfull => hcode (hjoin.code_eq_iff.mpr hfull)

/-- The encoding of the data is a stuffed message for them. -/
theorem cobsEncode_eq (data : List Byte) :
    ∃ (done : List (Block 8)) (last : Block 8),
      cobsEncode data = stuffed (done ++ [last]) ∧ data = closed done ++ last.run := by
  have hrun : ∀ data : List Byte, ∃ done run,
      Encoding done run data (data.foldl CobsEncoder.push CobsEncoder.start) ∧
        run.length < 254 := by
    intro data
    induction data using List.reverseRecOn with
    | nil => exact ⟨[], [], encoding_start, by decide⟩
    | append_singleton data b ih =>
        obtain ⟨done, run, h, hroom⟩ := ih
        rw [List.foldl_append]
        exact h.push hroom b
  obtain ⟨done, run, h, -⟩ := hrun data
  exact ⟨done, h.block, h.set_code, h.given⟩

theorem zero_not_mem_cobsEncode (data : List Byte) : 0 ∉ cobsEncode data := by
  obtain ⟨done, last, henc, -⟩ := cobsEncode_eq data
  rw [henc]
  exact zero_not_mem_stuffed _

/-! ## What the decoder makes of it -/

/-- The decoder takes one block off. -/
theorem cobsDecode_symbols (b : Block 8) (rest : List Byte) :
    cobsDecode (b.symbols ++ rest) = (cobsDecode rest).map fun out =>
      b.run ++ (if ¬b.Full ∧ rest ≠ [] then [0] else []) ++ out := by
  have hcode : b.code.toNat - 1 = b.run.length := by rw [b.toNat_code, Nat.add_sub_cancel]
  have hfull : b.code.toNat < 0xFF ↔ ¬b.Full := by
    have hshort := b.short
    rw [b.toNat_code, Block.Full]
    omega
  rw [Block.symbols, List.cons_append, cobsDecode, if_neg b.code_ne_zero, if_neg (by
    rw [hcode, List.length_append]
    omega)]
  simp only [hcode, hfull, List.take_left, List.drop_left]

theorem cobsDecode_stuffed (done : List (Block 8)) (last : Block 8) :
    cobsDecode (stuffed (done ++ [last])) = some (closed done ++ last.run) := by
  induction done with
  | nil =>
      have hlast := cobsDecode_symbols last []
      rw [List.append_nil, cobsDecode, if_neg fun h => h.2 rfl] at hlast
      rw [List.nil_append, stuffed, List.flatMap_singleton, hlast]
      simp
  | cons b done ih =>
      have hrest : stuffed (done ++ [last]) ≠ [] := by
        rw [stuffed_concat]
        exact List.append_ne_nil_of_right_ne_nil _ (List.cons_ne_nil _ _)
      have hsplit : stuffed (b :: done ++ [last]) = b.symbols ++ stuffed (done ++ [last]) := rfl
      rw [hsplit, cobsDecode_symbols, ih, Option.map_some]
      have hdata : b.run ++ (if ¬b.Full ∧ stuffed (done ++ [last]) ≠ [] then [0] else []) =
          b.data := by
        by_cases hfull : b.Full
        · rw [Block.data, if_pos hfull, if_neg fun h => h.1 hfull]
        · rw [Block.data, if_neg hfull, if_pos ⟨hfull, hrest⟩]
      rw [hdata, ← List.append_assoc]
      rfl

/-- Decoding gives back what was encoded. -/
theorem cobsDecode_cobsEncode (data : List Byte) : cobsDecode (cobsEncode data) = some data := by
  obtain ⟨done, last, henc, hdata⟩ := cobsEncode_eq data
  rw [henc, cobsDecode_stuffed, ← hdata]

end Glasgow

end SpEmu
