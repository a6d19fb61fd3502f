import SpEmu.Cpu.RomCall

/-!
# The decode cache and a step of the core

A core keeps the decoded form of an instruction under its PC: for the PCs of its flash window at
all times, and for those of the ITCM while it is under debug control. `fetch` is the lookup that a
step makes, and `fetchDecode` reads the four bytes at the PC and decodes them. An entry leaves the
cache when the debug port stores near it (`invalidateDecode`) or when all do (`flushDecodeCache`).

`Core.step` is one step of the interpreter. The bodies of the instructions are a parameter: what a
step does with the cache does not depend on them.
-/

set_option autoImplicit false

namespace SpEmu

open ByteMem Romapi

/-- The four bytes of an instruction, its length, and the instruction if the decoder knows it. -/
structure Decoded where
  raw : Word
  len : Word
  inst : Option Instruction

/-- What the decoder makes of four bytes; what it does not know is four bytes long. -/
def Isa.decoded (isa : Isa) (raw : Word) : Decoded :=
  match isa.decode raw with
  | some (inst, len) => ⟨raw, len, some inst⟩
  | none => ⟨raw, 4, none⟩

/-- What instructions do. `execute` gets the instruction, its address, its length and its bytes;
`fallback` gets the encodings that the decoder does not know. -/
structure Bodies where
  execute : Instruction → (pc len raw : Word) → Exec Unit
  fallback : (raw pc : Word) → Exec Unit

/-- An instruction set of NOPs. -/
def nopIsa : Isa where
  decode _ := some (⟨.nop, .al, false, .nothing, .nothing, .nothing, .nothing⟩, 2)
  f32 := ⟨fun x _ => x, fun x _ => x, fun x _ => x, fun x _ => x, id, fun _ => false,
    fun _ _ => false, fun _ _ => false, id, id, id, id⟩
  f64 := ⟨fun x _ => x, fun x _ => x, fun x _ => x, fun x _ => x, id, fun _ => false,
    fun _ _ => false, fun _ _ => false, fun x => x.setWidth 64, fun x => x.setWidth 64,
    fun x => x.setWidth 32, fun x => x.setWidth 32⟩

/-- The bodies of an instruction set of NOPs. -/
def nopBodies : Bodies := ⟨fun _ _ _ _ => pure (), fun _ _ => Exec.fail⟩

structure DecodeCache where
  /-- The PCs of this core's own flash. -/
  flashCache : PcRange
  entries : Word → Option Decoded

namespace DecodeCache

/-- The empty cache of the SP. -/
def new : DecodeCache := ⟨⟨Core.flashLo, Core.flashHi⟩, fun _ => none⟩

variable (k : DecodeCache)

/-- Whether the decode of a PC is cached: flash always, the ITCM only under debug. -/
def cacheable (c : Core) (pc : Word) : Bool :=
  k.flashCache.contains pc || (c.debugEn && decide (pc < Core.itcmHi))

def insert (pc : Word) (d : Decoded) : DecodeCache :=
  { k with entries := Function.update k.entries pc (some d) }

/-- Drop what a store to the word at `addr` may have changed. -/
def invalidateDecode (addr : Word) : DecodeCache :=
  { k with entries := fun pc =>
      if pc = addr - 2 ∨ pc = addr ∨ pc = addr + 2 then none else k.entries pc }

def flushDecodeCache : DecodeCache := { k with entries := fun _ => none }

end DecodeCache

variable {δ : Type} [Mmio δ]

/-- Read the two halfwords at a PC and decode them. -/
def Bus.fetchDecode (isa : Isa) (pc : Word) (b : Bus δ) : Option (Decoded × Bus δ) := do
  let (lo, b) ← b.read16 pc
  let (hi, b) ← b.read16 (pc + 2)
  some (isa.decoded (hi ++ lo), b)

/-- The decoded instruction at a PC, from the cache if it has it. -/
def DecodeCache.fetch (isa : Isa) (k : DecodeCache) (c : Core) (pc : Word) (b : Bus δ) :
    Option (Decoded × DecodeCache × Bus δ) :=
  if k.cacheable c pc then
    match k.entries pc with
    | some d => some (d, k, b)
    | none => do
        let (d, b) ← b.fetchDecode isa pc
        some (d, k.insert pc d, b)
  else do
    let (d, b) ← b.fetchDecode isa pc
    some (d, k, b)

namespace Core

/-- What a step does with the instruction that it fetched at the PC. A body that fails stops the
step there; in an IT block the state moves on in any case. -/
def issue (bodies : Bodies) (c : Core) (d : Decoded) : BusM Core :=
  let pc := c.pc
  let isIt := match d.inst with
    | some inst => inst.opcode == .it
    | none => false
  let inIt := c.itstate &&& 0xF != 0
  let condOk := if inIt && !isIt then c.condHolds (condFromBits ((c.itstate >>> 4) &&& 0xF))
    else true
  let c := { c with curInsn := pc, curInIt := inIt, cycles := c.cycles + 1 }
  let body : BusM (Option Unit × Core) :=
    match d.inst with
    | some inst =>
        let c := { c with pc := pc + d.len }
        if condOk then bodies.execute inst pc d.len d.raw c else pure (some (), c)
    | none =>
        -- The encodings that the decoder does not know are four bytes long.
        if condOk then bodies.fallback d.raw pc c else pure (some (), { c with pc := pc + 4 })
  body.bind fun r => pure (if inIt && !isIt then r.2.itAdvance else r.2)

/-- A step of the core: a boot-ROM trap, or the instruction at the PC. -/
def step (isa : Isa) (bodies : Bodies) (verifier : Verifier) (c : Core) (k : DecodeCache)
    (b : Bus δ) : Option (Core × DecodeCache × Bus δ) :=
  if c.romTraps && isTrap c.pc then do
    let (c, b) ← c.romStep.run (Bus.handle verifier) b
    some (c, k, b)
  else do
    let (d, k, b) ← k.fetch isa c c.pc { b with curCyc := c.cycles }
    let (c, b) ← (c.issue bodies d).run (Bus.handle verifier) b
    some (c, k, b)

end Core

end SpEmu
