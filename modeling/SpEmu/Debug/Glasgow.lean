import SpEmu.Debug.Cobs
import SpEmu.Lib.Cutter
import SpEmu.Soc.Machine

/-!
# The Glasgow applet server

What a pass of the serve loop does with the bytes of a TCP read. `Demux` cuts the frames out of
them and gives their data to the Root and the Swd endpoint; `processRoot` and `processSwd` execute
the commands that are complete there. Then the run engine moves a core that is not halted.

`Applets` keeps the replies of a whole run, and the transfers that the debug port was asked for. How
the replies are framed for the socket, and what it has taken of them, is left out.
-/

set_option autoImplicit false

namespace SpEmu

open ByteMem

namespace Glasgow

def tgtRoot : Byte := 0x00
def tgtSwd : Byte := 0x01

def cmdIdentify : Byte := 0x00
def cmdGetRefClock : Byte := 0x10
def cmdGetDivisor : Byte := 0x11
def cmdSetDivisor : Byte := 0x12

def identifier : List Byte := "probe-rs,v01".toList.map fun c => BitVec.ofNat 8 c.toNat
def refClockHz : Word := 48000000

def cmdSequenceBit : Byte := 0x20

def rspTypeNoData : Byte := 0x10
def rspAckOk : Byte := 0x01
def rspAckWait : Byte := 0x02
def rspAckFault : Byte := 0x04

/-! ## Frames -/

abbrev Packet := Byte × List Byte

/-- The frame of data for a target, with its delimiter. -/
def cobsFrame (target : Byte) (data : List Byte) : List Byte := cobsEncode (target :: data) ++ [0]

/-- The packet in a frame without its delimiter, if it is well formed and not empty. -/
def packet (payload : List Byte) : Option Packet :=
  if payload = [] then none
  else match cobsDecode payload with
    | some (tgt :: data) => some (tgt, data)
    | _ => none

structure Demux where
  /-- Frames that are not decoded yet. -/
  raw : List Byte
  rootIn : List Byte
  swdIn : List Byte
  /-- The packets so far. -/
  packets : List Packet

namespace Demux

def empty : Demux := ⟨[], [], [], []⟩

def dispatch (d : Demux) (p : Packet) : Demux :=
  let d := { d with packets := d.packets ++ [p] }
  if p.1 = tgtRoot then { d with rootIn := d.rootIn ++ p.2 }
  else if p.1 = tgtSwd then { d with swdIn := d.swdIn ++ p.2 }
  else d

/-- Take the bytes of a read and every frame that is complete with them. -/
def receive (d : Demux) (rbuf : List Byte) : Demux :=
  let (frames, raw) := (Cutter.delimited 0).cut (d.raw ++ rbuf)
  (frames.filterMap packet).foldl dispatch { d with raw := raw }

end Demux

/-! ## The Root endpoint -/

/-- Execute the complete commands; what is left of the input, and the output. -/
def processRoot : (inp out : List Byte) → List Byte × List Byte
  | [], out => ([], out)
  | cmd :: rest, out =>
      if cmd = cmdIdentify then processRoot rest (out ++ identifier)
      else if cmd = cmdGetRefClock then processRoot rest (out ++ toLeBytes 4 refClockHz)
      -- Divisor 0 is full speed.
      else if cmd = cmdGetDivisor then processRoot rest (out ++ toLeBytes 2 0)
      else if cmd = cmdSetDivisor then
        match rest with
        | _ :: _ :: rest => processRoot rest out
        | _ => (cmd :: rest, out)
      -- A reset is acknowledged without effect; an unknown byte is skipped.
      else processRoot rest out

/-! ## The Swd endpoint -/

/-- The result of a transfer. The debug port has no use for the last two. -/
inductive Ack where
  | ok (data : Option Word)
  | wait
  | fault

def Ack.response : Ack → List Byte
  | .ok (some data) => rspAckOk :: toLeBytes 4 data
  | .ok none => [rspTypeNoData ||| rspAckOk]
  | .wait => [rspTypeNoData ||| rspAckWait]
  | .fault => [rspTypeNoData ||| rspAckFault]

structure Transfer where
  ap : Bool
  rnw : Bool
  a : Byte
  wdata : Word
deriving DecidableEq

def isSequence (cmd : Byte) : Bool := cmd &&& cmdSequenceBit != 0

def rnw (cmd : Byte) : Bool := (cmd >>> 1) &&& 0x01 != 0

def Transfer.ofCommand (cmd : Byte) (wdata : Word) : Transfer where
  ap := cmd &&& 0x01 != 0
  rnw := Glasgow.rnw cmd
  a := cmd &&& 0x0C
  wdata := wdata

variable {ρ : Type} [Mmio ρ]

/-- The debug port and what was made of it. -/
structure Swd (ρ : Type) where
  machine : SpMachine ρ
  out : List Byte
  transfers : List Transfer

def Swd.transfer (s : Swd ρ) (x : Transfer) : Option (Swd ρ) := do
  let (data, _) ← s.machine.target.transfer x.ap x.rnw x.a x.wdata
  let machine ← s.machine.swdTransfer x.ap x.rnw x.a x.wdata
  some ⟨machine, s.out ++ (Ack.ok data).response, s.transfers ++ [x]⟩

/-- Execute the complete commands; what is left of the input stays. -/
def processSwd : (inp : List Byte) → Swd ρ → Option (List Byte × Swd ρ)
  | [], s => some ([], s)
  | cmd :: rest, s =>
      if isSequence cmd then
        -- There is no wire: the bits have no effect.
        match rest with
        | _ :: _ :: _ :: _ :: rest => processSwd rest s
        | _ => some (cmd :: rest, s)
      else if rnw cmd then
        (s.transfer (Transfer.ofCommand cmd 0)).bind (processSwd rest)
      else
        match rest with
        | b₀ :: b₁ :: b₂ :: b₃ :: rest =>
            (s.transfer (Transfer.ofCommand cmd (fromLeBytes b₀ b₁ b₂ b₃))).bind (processSwd rest)
        | _ => some (cmd :: rest, s)

/-! ## A pass of the serve loop -/

/-- Both endpoints between two passes. -/
structure Applets (ρ : Type) where
  rootIn : List Byte
  rootOut : List Byte
  swdIn : List Byte
  swd : Swd ρ

/-- What arrives at the endpoints in one pass. -/
structure Delivery where
  root : List Byte
  swd : List Byte

/-- The core is halted and no step is asked for. -/
def Halted (m : SpMachine ρ) : Prop :=
  m.target.core.halted = true ∧ m.target.port.stepRequest = false

instance (m : SpMachine ρ) : Decidable (Halted m) := inferInstanceAs (Decidable (_ ∧ _))

namespace Applets

def process (s : Applets ρ) (d : Delivery) : Option (Applets ρ) := do
  let (rootIn, rootOut) := processRoot (s.rootIn ++ d.root) s.rootOut
  let (swdIn, swd) ← processSwd (s.swdIn ++ d.swd) s.swd
  some ⟨rootIn, rootOut, swdIn, swd⟩

/-- The run engine; `running` is what it does with a core that is not halted or has to step. -/
def runEngine (running : SpMachine ρ → Option (SpMachine ρ)) (s : Applets ρ) :
    Option (Applets ρ) :=
  if Halted s.swd.machine then some s
  else (running s.swd.machine).map fun m => { s with swd := { s.swd with machine := m } }

def deliver (running : SpMachine ρ → Option (SpMachine ρ)) (s : Applets ρ) (d : Delivery) :
    Option (Applets ρ) :=
  (s.process d).bind (runEngine running)

end Applets

end Glasgow

end SpEmu
