import SpEmu.Cpu.Instruction
import SpEmu.Mem.Service
import SpEmu.Mem.BootRom

/-!
# Running the core against the bus

What the interpreter does to the bus is a sequence of `BusCall`s. An operation of the core
that cannot fail is a program over them that returns the next `Core`; an instruction body is
an `Exec`, which may also fail, and then keeps the changes it has made. `Bus.handle` is the
bus's side of the interface.

The decode cache is no part of `Core`, and no program here can read or change it.
-/

set_option autoImplicit false

namespace SpEmu

open ByteMem

/-- What the core asks of the bus. -/
inductive BusCall where
  | read (w : Width) (a : Word)
  | write (w : Width) (a v : Word)
  /-- The time stamp of the current instruction. -/
  | setCyc (cyc : BitVec 64)
  | anyPendingIrq
  | collectIrqs
  | nextIrq
  | irqPrio (irq : Half)
  | clearPending (irq : Half)
  | takePendsv
  | verifySlot (start : Word)

abbrev BusCall.Answer : BusCall → Type
  | .read _ _ => Word
  | .write _ _ _ => Unit
  | .setCyc _ => Unit
  | .anyPendingIrq => Bool
  | .collectIrqs => Unit
  | .nextIrq => Option Half
  | .irqPrio _ => Byte
  | .clearPending _ => Unit
  | .takePendsv => Bool
  | .verifySlot _ => Bool

/-- The bus's side of the interface. -/
def Bus.handle {δ : Type} [Mmio δ] (verifier : Verifier) :
    Prog.Handler BusCall BusCall.Answer (Bus δ)
  | .read w a, b => b.read w a
  | .write w a v, b => (b.write w a v).map ((), ·)
  | .setCyc cyc, b => some ((), { b with curCyc := cyc })
  | .anyPendingIrq, b => b.anyPendingIrq
  | .collectIrqs, b => b.collectIrqs.map ((), ·)
  | .nextIrq, b => some (b.nextIrq, b)
  | .irqPrio irq, b => (b.irqPrio irq).map (·, b)
  | .clearPending irq, b => (b.clearPending irq).map ((), ·)
  | .takePendsv, b => some b.takePendsv
  | .verifySlot start, b => (Romapi.verifySlot verifier b.rotFlash start).map (·, b)

/-- An operation on the bus. -/
abbrev BusM := Prog BusCall BusCall.Answer

namespace BusM

def read32 (a : Word) : BusM Word := Prog.lift (BusCall.read .word a)
def write32 (a v : Word) : BusM Unit := Prog.lift (BusCall.write .word a v)

/-- The `n` words from `a` on. -/
def readWords (a : Word) : (n : Nat) → BusM (List Word)
  | 0 => pure []
  | n + 1 => do
      let w ← read32 a
      let ws ← readWords (a + 4) n
      pure (w :: ws)

/-- Store words one after the other from `a` on. -/
def writeWords (a : Word) : List Word → BusM Unit
  | [] => pure ()
  | w :: ws => do
      write32 a w
      writeWords (a + 4) ws

end BusM

/-! ## Instruction bodies -/

/-- The body of an instruction: the result, or a failure, with the core after it. -/
def Exec (α : Type) : Type := Core → BusM (Option α × Core)

namespace Exec

variable {α β : Type}

def bind (x : Exec α) (f : α → Exec β) : Exec β := fun c =>
  (x c).bind fun
    | (some a, c) => f a c
    | (none, c) => .ret (none, c)

instance : Monad Exec where
  pure a := fun c => .ret (some a, c)
  bind := bind

def fail : Exec α := fun c => .ret (none, c)

def get : Exec Core := fun c => .ret (some c, c)

def modify (f : Core → Core) : Exec Unit := fun c => .ret (some (), f c)

/-- An operand that may not be of the kind the instruction takes. -/
def ofOption : Option α → Exec α
  | some a => pure a
  | none => fail

def call (e : BusCall) : Exec e.Answer := fun c => (Prog.lift e).bind fun a => .ret (some a, c)

/-- An operation of the core that cannot fail. -/
def ofCore (f : Core → BusM Core) : Exec Unit := fun c => (f c).bind fun c => .ret (some (), c)

def read (w : Width) (a : Word) : Exec Word := call (.read w a)

def write (w : Width) (a v : Word) : Exec Unit := call (.write w a v)

def readReg (i : Fin 16) : Exec Word := fun c => .ret (some (c.readReg i), c)

def writeReg (i : Fin 16) (v : Word) : Exec Unit := modify fun c => c.writeReg i v

/-- Loop over a list. -/
def forEach {ι : Type} : List ι → (ι → Exec Unit) → Exec Unit
  | [], _ => pure ()
  | i :: is, f => do
      f i
      forEach is f

end Exec

end SpEmu
